import MemberOrder.CommandLine.Escapes
import MemberOrder.Report
/-! The arguments of the command: paths and options in any order, short options in clusters, and nothing but paths
behind a double hyphen. A word that is not known is told of together with the one that resembles it. -/
namespace MemberOrder.CommandLine

/-- For the characters of `a`, of which the first stands at the place `i`, the places of equal
characters of `b`, as far as there are any within `reach` that are not taken. -/
def partners (reach : Nat) (b : List Char) (i : Nat) (taken : List Nat) : List Char → List Nat
  | [] => taken.reverse
  | c :: a =>
    let free (j : Nat) : Bool :=
      i ≤ j + reach && j ≤ i + reach && b[j]? = some c && !taken.contains j
    match (List.range b.length).find? free with
    | some j => partners reach b (i + 1) (j :: taken) a
    | none => partners reach b (i + 1) taken a

/-- How many characters with partners stand in another order than their partners, by pairs. -/
def swaps (b : List Char) (found : List Nat) : Nat :=
  let sorted := (List.range b.length).filter found.contains
  ((found.zip sorted).filter fun p => b[p.1]? ≠ b[p.2]?).length / 2

/-- Is the mean of three shares above seven tenths: of the characters of either word, those with
partners, and of those, the ones in order? -/
def resembles (a b : List Char) : Bool :=
  let found := partners (max a.length b.length / 2 - 1) b 0 [] a
  let m := found.length
  let inOrder := m - swaps b found
  21 * a.length * b.length * m <
    10 * (m * m * (a.length + b.length) + inOrder * a.length * b.length)

inductive Parameter
  | paths | config | format | severity | verbose | help | version
  deriving DecidableEq, Repr

namespace Parameter

def shown : Parameter → String
  | paths => "<PATHS>..."
  | config => "--config <FILE>"
  | format => "--format <FORMAT>"
  | severity => "--severity <SEVERITY>"
  | verbose => "--verbose..."
  | help => "--help"
  | version => "--version"

def takesValue : Parameter → Bool
  | paths | config | format | severity => true
  | verbose | help | version => false

def options : List Parameter :=
  [config, format, severity, verbose, help, version]

def longName : Parameter → String
  | paths => "paths"
  | config => "config"
  | format => "format"
  | severity => "severity"
  | verbose => "verbose"
  | help => "help"
  | version => "version"

def ofLong? (name : String) : Option Parameter :=
  options.find? (·.longName = name)

def ofShort? : Char → Option Parameter
  | 'c' => some config
  | 'f' => some format
  | 's' => some severity
  | 'v' => some verbose
  | 'h' => some help
  | 'V' => some version
  | _ => none

end Parameter

inductive UsageError
  | noPaths
  | unexpected (argument : String)
  | noValue (p : Parameter)
  | invalid (value : String) (p : Parameter)
  | repeated (p : Parameter)
  | unneeded (value : String) (p : Parameter)
  deriving DecidableEq, Repr

namespace UsageError

def message : UsageError → String
  | noPaths => "the following required arguments were not provided:"
  | unexpected argument => s!"unexpected argument '{plain argument}' found"
  | noValue p => s!"a value is required for '{p.shown}' but none was supplied"
  | invalid value p => s!"invalid value '{plain value}' for '{p.shown}'"
  | repeated p => s!"the argument '{p.shown}' cannot be used multiple times"
  | unneeded value p =>
    s!"unexpected value '{plain value}' for '{p.shown}' found; no more were expected"

def isMisspelt (argument : String) : Bool :=
  match argument.toList with
  | '-' :: '-' :: name => Parameter.options.any fun p => resembles name p.longName.toList
  | _ => false

def hint? : UsageError → Option String
  | unexpected argument =>
    if isMisspelt argument then none
    else
      let shown := plain argument
      some s!"  tip: to pass '{shown}' as a value, use '-- {shown}'"
  | _ => none

end UsageError

structure Arguments where
  paths : List String
  config? : Option String
  format? : Option Format
  severity? : Option Severity
  deriving DecidableEq, Repr

inductive Stop
  | error (e : UsageError)
  | help
  | version
  deriving DecidableEq, Repr

inductive Pending
  | nothing
  | option (p : Parameter) (value? : Option String)
  | paths (values : List String)
  deriving DecidableEq, Repr

structure Draft where
  done : Arguments
  pending : Pending
  deriving DecidableEq, Repr

namespace Draft

def empty : Draft := ⟨⟨[], none, none, none⟩, .nothing⟩

/-- The value of a name among some. An empty one is none at all. -/
def named {α : Type} (p : Parameter) (ofName? : String → Option α) (value : String) :
    Except Stop α :=
  if value = "" then .error (.error (.noValue p))
  else match ofName? value with
    | some a => .ok a
    | none => .error (.error (.invalid value p))

def set (a : Arguments) (p : Parameter) (value : String) : Except Stop Arguments :=
  match p with
  | .config =>
    if a.config?.isSome then .error (.error (.repeated p))
    else (named p some value).map fun v => { a with config? := some v }
  | .format =>
    if a.format?.isSome then .error (.error (.repeated p))
    else (named p Format.ofName? value).map fun v => { a with format? := some v }
  | .severity =>
    if a.severity?.isSome then .error (.error (.repeated p))
    else (named p Severity.ofName? value).map fun v => { a with severity? := some v }
  | _ => .ok a

def resolve (d : Draft) : Except Stop Draft :=
  match d.pending with
  | .nothing => .ok d
  | .option p none => .error (.error (.noValue p))
  | .option p (some value) => (set d.done p value).map fun a => ⟨a, .nothing⟩
  | .paths values =>
    if values.contains "" then .error (.error (.noValue .paths))
    else .ok ⟨{ d.done with paths := d.done.paths ++ values }, .nothing⟩

def option (d : Draft) (p : Parameter) (value? : Option String) : Except Stop Draft := do
  let d ← d.resolve
  match p, value? with
  | .help, _ => throw .help
  | .version, _ => throw .version
  | .verbose, _ => return d
  | p, none => return { d with pending := .option p none }
  | p, some value => return ⟨← set d.done p value, .nothing⟩

def path (d : Draft) (text : String) : Except Stop Draft :=
  match d.pending with
  | .paths values => .ok { d with pending := .paths (values ++ [text]) }
  | _ => d.resolve.map fun d => { d with pending := .paths [text] }

def long (d : Draft) (text : List Char) : Except Stop Draft :=
  let name := String.ofList (text.takeWhile (· ≠ '='))
  let value? := match text.dropWhile (· ≠ '=') with
    | [] => none
    | _ :: value => some (String.ofList value)
  match Parameter.ofLong? name, value? with
  | none, _ => .error (.error (.unexpected ("--" ++ name)))
  | some p, none => d.option p none
  | some p, some value =>
    if p.takesValue then d.option p (some value) else .error (.error (.unneeded value p))

/-- A cluster of short options, without its hyphen. The value of an option is the rest of its
cluster, less an equals sign in front. -/
def short (d : Draft) : List Char → Except Stop Draft
  | [] => .ok d
  | c :: s =>
    match Parameter.ofShort? c with
    | none => .error (.error (.unexpected (String.ofList ['-', c])))
    | some p =>
      if p.takesValue then
        match s with
        | [] => d.option p none
        | '=' :: value => d.option p (some (String.ofList value))
        | value => d.option p (some (String.ofList value))
      else match d.option p none with
        | .error e => .error e
        | .ok d => short d s

def argument (d : Draft) (text : String) : Except Stop Draft :=
  match text.toList with
  | '-' :: '-' :: s => d.long s
  | '-' :: c :: s => d.short (c :: s)
  | _ =>
    match d.pending with
    | .option p none => .ok { d with pending := .option p (some text) }
    | _ => d.path text

def arguments (d : Draft) : List String → Except Stop Draft
  | [] => .ok d
  | "--" :: rest => rest.foldlM path d
  | text :: rest => do (← d.argument text).arguments rest

end Draft

def read (args : List String) : Except Stop Arguments := do
  let d ← Draft.empty.arguments args
  let d ← d.resolve
  if d.done.paths.isEmpty then throw (.error .noPaths)
  return d.done

end MemberOrder.CommandLine
