import MemberOrder.Files.Path
import MemberOrder.Json
import MemberOrder.Order.Kind
/-! Settings of a run, and their form in JSON. -/
namespace MemberOrder

inductive Severity
  | error | warning
  deriving DecidableEq, Repr

namespace Severity

def name : Severity → String
  | .error => "error"
  | .warning => "warning"

def ofName? (s : String) : Option Severity :=
  [error, warning].find? (·.name == s)

/-- A name, or a name with nothing in it. -/
def ofJson? : Json → Option Severity
  | .string t => ofName? (String.ofList t)
  | .object [(name, .null)] => ofName? (String.ofList name)
  | _ => none

end Severity

inductive SettingsError
  | malformed
  | unknown (what : Unknown)
  | noExtensions
  deriving DecidableEq, Repr

def SettingsError.message : SettingsError → String
  | .malformed => "not JSON, or not of the form of settings"
  | .unknown what => what.message
  | .noExtensions => "'extensions' must name at least one extension"

structure Settings where
  severity : Severity
  text? : MessageKind → Option String
  extensions : List String

namespace Settings

def default : Settings := ⟨.error, fun _ => none, ["java"]⟩

def isDefault (s : Settings) : Bool :=
  s.severity = .error && MessageKind.all.all (fun k => s.text? k = none) && s.extensions = ["java"]

def withSeverity (s : Settings) (severity : Severity) : Settings :=
  { s with severity }

def withText (s : Settings) (kind : MessageKind) (text : String) : Settings :=
  { s with text? := fun k => if k = kind then some text else s.text? k }

def text (s : Settings) (kind : MessageKind) : String :=
  (s.text? kind).getD kind.defaultText

def accepts (s : Settings) (p : Path) : Bool :=
  match p.extension? with
  | some e => s.extensions.any (·.toList = e)
  | none => false

structure Written where
  severity : Severity
  messages : List (String × String)
  extensions : List String
  deriving DecidableEq, Repr

namespace Written

def string? : Json → Option String
  | .string t => some (String.ofList t)
  | _ => none

def messages? : Json → Option (List (String × String))
  | .object fields => fields.mapM fun (name, v) => (string? v).map (String.ofList name, ·)
  | _ => none

def extensions? : Json → Option (List String)
  | .array items => items.mapM string?
  | _ => none

/-- What is not there is as in the default settings. -/
def ofParts? (severity? messages? extensions? : Option Json) : Option Written := do
  let severity ← severity?.elim (some .error) Severity.ofJson?
  let messages ← messages?.elim (some []) Written.messages?
  let extensions ← extensions?.elim (some ["java"]) Written.extensions?
  return ⟨severity, messages, extensions⟩

def partNames : List String := ["severity", "messages", "extensions"]

/-- An object with some of three parts, each at most once, or the first of them in an array. -/
def ofJson? : Json → Option Written
  | .object fields =>
    let names := fields.map fun f => String.ofList f.1
    let part (name : String) := (fields.find? fun f => String.ofList f.1 == name).map (·.2)
    if names.all partNames.contains && names.eraseDups.length = names.length then
      ofParts? (part "severity") (part "messages") (part "extensions")
    else none
  | .array items =>
    if items.length ≤ 3 then ofParts? items[0]? items[1]? items[2]? else none
  | _ => none

end Written

/-- By name. Entries with one name keep their order. -/
def sortedByName (entries : List (String × String)) : List (String × String) :=
  entries.mergeSort fun a b => ¬ b.1 < a.1

def applyText (s : Settings) (entry : String × String) : Except Unknown Settings :=
  (MessageKind.ofTag entry.1).map fun kind => s.withText kind entry.2

def withoutDots (extension : String) : String :=
  String.ofList (extension.toList.dropWhile (· = '.'))

/-- Tags count in order of their names, so that of two for one message the later name wins. -/
def ofWritten (w : Written) : Except SettingsError Settings :=
  let bare : Settings := ⟨w.severity, fun _ => none, w.extensions.map withoutDots⟩
  match (sortedByName w.messages).foldlM applyText bare with
  | .error what => .error (.unknown what)
  | .ok s => if w.extensions.isEmpty then .error .noExtensions else .ok s

def read (source : List Char) : Except SettingsError Settings :=
  match (Json.read? source).bind Written.ofJson? with
  | none => .error .malformed
  | some w => ofWritten w

end Settings

end MemberOrder
