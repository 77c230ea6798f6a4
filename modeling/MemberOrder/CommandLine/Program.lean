import MemberOrder.CommandLine.Arguments
/-! The program: arguments and a world of files in, texts and an exit status out. Left out is the log: how much of it
is asked for is counted in the arguments, and nothing else depends on that. -/
namespace MemberOrder.CommandLine

def programName : String := "declorder"

def versionText : String := programName ++ " 0.1.0\n"

def helpText : String :=
  "Check that class members are declared in order\n" ++
  "\n" ++
  "Usage: " ++ programName ++ " [OPTIONS] <PATHS>...\n" ++
  "\n" ++
  "Arguments:\n" ++
  "  <PATHS>...  Files or directories to check\n" ++
  "\n" ++
  "Options:\n" ++
  "  -c, --config <FILE>        JSON configuration file\n" ++
  "  -f, --format <FORMAT>      Output format [default: plain] [possible values: plain, json]\n" ++
  "  -s, --severity <SEVERITY>  Severity of findings (overrides the configuration file) " ++
    "[possible values: error, warning]\n" ++
  "  -v, --verbose...           Increase log verbosity (-v, -vv, -vvv)\n" ++
  "  -h, --help                 Print help\n" ++
  "  -V, --version              Print version\n"

/-- How a run of the program ends. Each of the errors ends with a line break of its own. -/
structure Ending where
  exitCode : Nat
  output : String
  errors : List String
  deriving DecidableEq, Repr

def errorLine (text : String) : String := "error: " ++ text

def settingsFor (world : World) (a : Arguments) : Except Failure Settings := do
  let s ← match a.config? with
    | some path => loadSettings world path.toList
    | none => pure .default
  return match a.severity? with
    | some severity => s.withSeverity severity
    | none => s

def execute (world : World) (a : Arguments) : Except Failure (Settings × Report) := do
  let s ← settingsFor world a
  return (s, ← run s world (a.paths.map String.toList))

def chain (f : Failure) : String :=
  ": ".intercalate (f.message :: f.causes)

def ending (world : World) (a : Arguments) : Ending :=
  match execute world a with
  | .error f => ⟨2, "", [errorLine (chain f)]⟩
  | .ok (s, r) =>
    ⟨r.exitCode s.severity, r.render s (a.format?.getD .plain), r.failures.map fun f => errorLine f.2⟩

def program (world : World) (args : List String) : Ending :=
  match read args with
  | .error .help => ⟨0, helpText, []⟩
  | .error .version => ⟨0, versionText, []⟩
  | .error (.error e) => ⟨2, "", errorLine e.message :: e.hint?.toList⟩
  | .ok a => ending world a

end MemberOrder.CommandLine
