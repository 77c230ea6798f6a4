import MemberOrder.Declaration.Tree
import MemberOrder.Token.Tokens
/-! Grammar rules. A rule reads symbols off the front of those left; places are told by how many
are left, so a rule does not depend on where in a text it is applied. -/
namespace MemberOrder

/-- Why a rule refuses, and how many symbols are left from the offending one on. -/
structure Refusal where
  cause : Cause
  unread : Nat
  deriving DecidableEq, Repr

/-- A rule that refuses keeps what it has read until then. -/
abbrev Rule (α : Type) := EStateM Refusal (List Symbol) α

abbrev Outcome (α : Type) := EStateM.Result Refusal (List Symbol) α

namespace Rule

variable {α : Type}

def get : Rule (List Symbol) := fun s => .ok s s

def unread : Rule Nat := fun s => .ok s.length s

def skip : Rule Unit := fun s => .ok () (s.drop 1)

def refuse (e : Expected) : Rule α := fun s =>
  .error ⟨.unexpected e s.head?, s.length⟩ s

def refuseRead (e : Expected) : Rule α := fun s =>
  .error ⟨.unexpected e s.head?, s.length⟩ (s.drop 1)

def expect (sym : Symbol) : Rule Unit := fun s =>
  if s.head? = some sym then .ok () (s.drop 1) else refuse (.symbol sym) s

def identifier : Rule String
  | .identifier n :: s => .ok n s
  | s => refuse .identifier s

/-- Reads items as long as there are any. An item that reads nothing is the last one. -/
def many (item : Rule (Option α)) : Rule (List α) := fun s =>
  match item s with
  | .error r s' => .error r s'
  | .ok none s' => .ok [] s'
  | .ok (some a) s' =>
    if s'.length < s.length then
      match many item s' with
      | .error r t => .error r t
      | .ok as t => .ok (a :: as) t
    else .ok [a] s'
termination_by s => s.length

end Rule

def nextIs (sym : Symbol) (s : List Symbol) : Bool :=
  s.head? = some sym

/-! Reading over what is not looked into. Inside brackets symbols count only as brackets; outside
of them a rule of the moment decides. -/

structure Opened where
  bracket : Bracket
  unread : Nat
  deriving DecidableEq, Repr

inductive Outside (κ : Type)
  | stop
  | read (state : κ)
  | refuse (r : Refusal)

variable {κ : Type}

/-- Reads over symbols. The list holds the brackets that are open, the innermost first; `outside`
is asked when there is none. -/
def skim (outside : κ → List Symbol → Outside κ) :
    κ → List Opened → List Symbol → Outcome Unit
  | _, o :: _, [] => .error ⟨.unclosed (.opening o.bracket), o.unread⟩ []
  | k, o :: os, .opening b :: s => skim outside k (⟨b, s.length + 1⟩ :: o :: os) s
  | k, o :: os, .closing b :: s =>
    if b = o.bracket then skim outside k os s
    else .error ⟨.unexpected (.symbol (.closing o.bracket)) (some (.closing b)), s.length + 1⟩ s
  | k, o :: os, _ :: s => skim outside k (o :: os) s
  | k, [], s =>
    match outside k s with
    | .stop => .ok () s
    | .refuse r => .error r s
    | .read k' =>
      match s with
      | [] => .ok () []
      | .opening b :: t => skim outside k' [⟨b, t.length + 1⟩] t
      | _ :: t => skim outside k' [] t

section Skim

variable (outside : κ → List Symbol → Outside κ) (k : κ)

theorem skim_opening (o : Opened) (os : List Opened) (b : Bracket) (s : List Symbol) :
    skim outside k (o :: os) (.opening b :: s) =
      skim outside k (⟨b, s.length + 1⟩ :: o :: os) s := by
  simp [skim]

theorem skim_closing (o : Opened) (os : List Opened) (s : List Symbol) :
    skim outside k (o :: os) (.closing o.bracket :: s) = skim outside k os s := by
  simp [skim]

end Skim

namespace Rule

def group (b : Bracket) : Rule Unit
  | .opening b' :: s =>
    if b' = b then skim (fun _ _ => .stop) () [⟨b, s.length + 1⟩] s
    else refuse (.symbol (.opening b)) (.opening b' :: s)
  | s => refuse (.symbol (.opening b)) s

def skipTo (stop : List Symbol → Bool) : Rule Unit :=
  skim (fun _ s =>
    if stop s then .stop
    else match s with
      | [] => .refuse ⟨.unexpected .bodyOrSemicolon none, 0⟩
      | .closing b :: t => .refuse ⟨.unexpected .declaration (some (.closing b)), t.length + 1⟩
      | _ => .read ()) () []

def statement : Rule Unit := do
  skipTo (nextIs (.mark .semicolon))
  skip

def insideAngles (opened : Nat) : Nat → List Symbol → Outside Nat
  | 0, _ => .stop
  | depth, .mark .less :: _ => .read (depth + 1)
  | depth + 1, .mark .greater :: _ => .read depth
  | _, [] | _, .opening .curly :: _ | _, .mark .semicolon :: _ =>
    .refuse ⟨.unclosed (.mark .less), opened⟩
  | depth, _ => .read depth

def angles : Rule Unit
  | .mark .less :: s => skim (insideAngles (s.length + 1)) 1 [] s
  | s => refuse (.symbol (.mark .less)) s

end Rule

end MemberOrder
