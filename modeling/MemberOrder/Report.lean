import MemberOrder.Check
import MemberOrder.Json
/-! What a run has to tell, and how: a line for each finding and one for the count, or the findings in JSON. -/
namespace MemberOrder

/-- Checked files with their findings, and files that could not be checked with the reason. -/
structure Report where
  files : List (Path × List Violation)
  failures : List (Path × String)
  deriving DecidableEq, Repr

namespace Report

def violationCount (r : Report) : Nat :=
  (r.files.flatMap fun f => f.2).length

def ofResults (results : List (Path × Except Failure (List Violation))) : Report where
  files := results.filterMap fun
    | (p, .ok vs) => some (p, vs)
    | _ => none
  failures := results.filterMap fun
    | (p, .error e) => some (p, e.message)
    | _ => none

def exitCode (r : Report) (severity : Severity) : Nat :=
  if !r.failures.isEmpty then 2
  else if severity = .error ∧ 0 < r.violationCount then 1
  else 0

end Report

structure Finding where
  file : String
  line : Nat
  column : Nat
  severity : Severity
  message : MessageKind
  text : String
  member : String
  actual : MemberKind
  deriving DecidableEq, Repr

def Report.findings (r : Report) (s : Settings) : List Finding :=
  r.files.flatMap fun (p, vs) =>
    vs.map fun v =>
      ⟨String.ofList p, v.position.line, v.position.column, s.severity, v.message,
        s.text v.message, v.name, v.actual⟩

def run (s : Settings) (world : World) (paths : List Path) : Except Failure Report := do
  let files ← collect s world paths
  return .ofResults (files.map fun p => (p, checkFile world p))

inductive Format
  | plain | json
  deriving DecidableEq, Repr

namespace Format

def name : Format → String
  | plain => "plain"
  | json => "json"

def ofName? (s : String) : Option Format :=
  [plain, json].find? (·.name == s)

end Format

namespace Finding

def shown (f : Finding) : String :=
  f.file ++ ":" ++ toString f.line ++ ":" ++ toString f.column ++ ": " ++ f.severity.name ++ ": " ++
    f.text ++ " [" ++ f.message.key ++ "]"

def toJson (f : Finding) : Json :=
  .object [
    ("file".toList, .ofString f.file),
    ("line".toList, .ofNat f.line),
    ("column".toList, .ofNat f.column),
    ("severity".toList, .ofString f.severity.name),
    ("key".toList, .ofString f.message.key),
    ("message".toList, .ofString f.text),
    ("member".toList, .ofString f.member),
    ("actual_kind".toList, .ofString f.actual.name)]

end Finding

def counted (n : Nat) (one : String) : String :=
  toString n ++ " " ++ (if n = 1 then one else one ++ "s")

namespace Report

def summary (r : Report) : String :=
  counted r.violationCount "violation" ++ " in " ++ counted r.files.length "file" ++ " checked" ++
    (if r.failures.isEmpty then "" else s!", {r.failures.length} could not be checked")

def renderPlain (r : Report) (s : Settings) : String :=
  String.join ((r.findings s).map fun f => f.shown ++ "\n") ++ r.summary ++ "\n"

def renderJson (r : Report) (s : Settings) : String :=
  String.ofList (Json.write 0 (.array ((r.findings s).map Finding.toJson)))

def render (r : Report) (s : Settings) : Format → String
  | .plain => r.renderPlain s
  | .json => r.renderJson s

end Report

end MemberOrder
