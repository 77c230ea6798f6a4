import MemberOrder.Text.Span
/-! The kinds of members, in their order, the messages about them, and the findings against members as they are
met. -/
namespace MemberOrder

/-- What members of a class body are told apart by, first to last in the order they should have. -/
inductive MemberKind
  | staticField | instanceField | constructor | method
  deriving DecidableEq, Repr

inductive MessageKind
  | static | «instance» | constructor | method
  deriving DecidableEq, Repr

inductive Unknown
  | memberKind (code : Nat)
  | messageTag (tag : String)
  deriving DecidableEq, Repr

def Unknown.message : Unknown → String
  | .memberKind code => s!"Unknown member kind code: {code}"
  | .messageTag tag => s!"Unknown message tag: '{tag}'"

namespace MemberKind

def all : List MemberKind := [.staticField, .instanceField, .constructor, .method]

def rank : MemberKind → Nat
  | .staticField => 0
  | .instanceField => 1
  | .constructor => 2
  | .method => 3

instance : LE MemberKind := ⟨fun a b => a.rank ≤ b.rank⟩
instance : LT MemberKind := ⟨fun a b => a.rank < b.rank⟩
instance (a b : MemberKind) : Decidable (a ≤ b) := inferInstanceAs (Decidable (a.rank ≤ b.rank))
instance (a b : MemberKind) : Decidable (a < b) := inferInstanceAs (Decidable (a.rank < b.rank))

def ofCode (code : Nat) : Except Unknown MemberKind :=
  match all[code]? with
  | some k => .ok k
  | none => .error (.memberKind code)

def name : MemberKind → String
  | .staticField => "static field"
  | .instanceField => "instance field"
  | .constructor => "constructor"
  | .method => "method"

def message : MemberKind → MessageKind
  | .staticField => .static
  | .instanceField => .instance
  | .constructor => .constructor
  | .method => .method

end MemberKind

namespace MessageKind

def all : List MessageKind := [.static, .instance, .constructor, .method]

theorem mem_all (k : MessageKind) : k ∈ all := by cases k <;> decide

/-- The short name, for settings. -/
def tag : MessageKind → String
  | .static => "static"
  | .instance => "instance"
  | .constructor => "constructor"
  | .method => "method"

/-- The full name, for reports. -/
def key (k : MessageKind) : String :=
  "declaration.order." ++ k.tag

def defaultText : MessageKind → String
  | .static => "Static variable definition in wrong order."
  | .instance => "Instance variable definition in wrong order."
  | .constructor => "Constructor definition in wrong order."
  | .method => "Method definition in wrong order."

def ofTag (tag : String) : Except Unknown MessageKind :=
  match all.find? fun k => k.tag == tag || k.key == tag with
  | some k => .ok k
  | none => .error (.messageTag tag)

end MessageKind

structure Event where
  kind : MemberKind
  position : Span
  name : String
  deriving DecidableEq, Repr

/-- A member met after one of a later kind, the latest of which is `expectedNotBefore`. -/
structure Violation where
  position : Span
  expectedNotBefore : MemberKind
  actual : MemberKind
  message : MessageKind
  name : String
  deriving DecidableEq, Repr

namespace Violation

def against (e : Event) (expectedNotBefore : MemberKind) (message : MessageKind) : Violation :=
  ⟨e.position, expectedNotBefore, e.kind, message, e.name⟩

def notAfter (a b : Violation) : Bool :=
  a.position.line < b.position.line ||
    (a.position.line = b.position.line && a.position.column ≤ b.position.column)

end Violation

/-- By line and column. Findings at one place keep their order. -/
def sortByPosition (vs : List Violation) : List Violation :=
  vs.mergeSort Violation.notAfter

def withMessage (message : MessageKind) (vs : List Violation) : List Violation :=
  vs.filter (·.message = message)

end MemberOrder
