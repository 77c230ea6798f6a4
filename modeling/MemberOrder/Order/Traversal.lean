import MemberOrder.Declaration.Tree
import MemberOrder.Order.Kind
/-! Judging class bodies step by step, whatever tree they come from: the order within one body, the bodies around
it, and the steps that a tree of declarations asks for. -/
namespace MemberOrder

/-- The next state, and the message if the member comes too late. A late member does not change
the state. -/
def transition (highest? : Option MemberKind) (kind : MemberKind) :
    Option MemberKind × Option MessageKind :=
  match highest? with
  | none => (some kind, none)
  | some h => if h ≤ kind then (some kind, none) else (some h, some kind.message)

structure Scope where
  highest? : Option MemberKind
  deriving DecidableEq, Repr

namespace Scope

def empty : Scope := ⟨none⟩

def visit (s : Scope) (e : Event) : Option Violation × Scope :=
  let (next, message?) := transition s.highest? e.kind
  (message?.map (.against e (next.getD e.kind)), ⟨next⟩)

end Scope

/-- A step that does not fit what came before. -/
inductive StepError
  | noActiveScope (name : String) (line column : Nat)
  | unbalancedScope
  | unclosedScopes (depth : Nat)
  | unknown (what : Unknown)
  deriving DecidableEq, Repr

def StepError.message : StepError → String
  | .noActiveScope name line column =>
    s!"Member '{name}' at line {line}, column {column} visited outside any class body"
  | .unbalancedScope => "Left a class body that was never entered"
  | .unclosedScopes depth => s!"Traversal finished with {depth} class bodies still open"
  | .unknown what => what.message

/-- The class bodies that are open, the innermost first. -/
structure ScopeStack where
  frames : List Scope
  deriving DecidableEq, Repr

namespace ScopeStack

def empty : ScopeStack := ⟨[]⟩

def depth (s : ScopeStack) : Nat := s.frames.length

def isEmpty (s : ScopeStack) : Bool := s.frames.isEmpty

def push (s : ScopeStack) : ScopeStack := ⟨.empty :: s.frames⟩

def pop (s : ScopeStack) : Except StepError (Scope × ScopeStack) :=
  match s.frames with
  | [] => .error .unbalancedScope
  | f :: fs => .ok (f, ⟨fs⟩)

def visit (s : ScopeStack) (e : Event) : Except StepError (Option Violation × ScopeStack) :=
  match s.frames with
  | [] => .error (.noActiveScope e.name e.position.line e.position.column)
  | f :: fs => .ok ((f.visit e).1, ⟨(f.visit e).2 :: fs⟩)

end ScopeStack

/-- A node of some other tree. Without a code it takes no part in the order. -/
structure ForeignNode where
  code? : Option Nat
  position : Span
  name : String
  deriving DecidableEq, Repr

def ForeignNode.event? (n : ForeignNode) : Except Unknown (Option Event) :=
  match n.code? with
  | none => .ok none
  | some code => (MemberKind.ofCode code).map fun kind => some ⟨kind, n.position, n.name⟩

inductive Step
  | enter
  | leave
  | member (e : Event)
  | node (n : ForeignNode)
  deriving DecidableEq, Repr

structure Traversal where
  scopes : ScopeStack
  violations : List Violation
  deriving DecidableEq, Repr

namespace Traversal

def start : Traversal := ⟨.empty, []⟩

def member (t : Traversal) (e : Event) : Except StepError Traversal := do
  let (found?, scopes) ← t.scopes.visit e
  return ⟨scopes, t.violations ++ found?.toList⟩

def step (t : Traversal) : Step → Except StepError Traversal
  | .enter => .ok { t with scopes := t.scopes.push }
  | .leave => t.scopes.pop.map fun popped => { t with scopes := popped.2 }
  | .member e => t.member e
  | .node n =>
    match n.event? with
    | .error what => .error (.unknown what)
    | .ok none => .ok t
    | .ok (some e) => t.member e

/-- A step that fails changes nothing. -/
def attempt (t : Traversal) (s : Step) : Except StepError Unit × Traversal :=
  match t.step s with
  | .ok t' => (.ok (), t')
  | .error e => (.error e, t)

def finish (t : Traversal) : Except StepError (List Violation) :=
  if t.scopes.isEmpty then .ok t.violations else .error (.unclosedScopes t.scopes.depth)

end Traversal

variable {σ τ : Type}

/-- The kind of a member, if it takes part in the order. A static method is a method. -/
def Member.kind? : Member σ τ → Option MemberKind
  | .field m .. => some (if m.isStatic then .staticField else .instanceField)
  | .constructor .. => some .constructor
  | .method .. => some .method
  | .type _ | .initializer .. | .empty _ => none

def Member.event? (m : Member Span τ) : Option Event :=
  m.kind?.map fun kind => ⟨kind, m.span, m.name?.getD ""⟩

mutual

/-- A body is entered and left if its order means anything; the types in it count always. -/
def TypeDecl.steps : TypeDecl Span τ → List Step
  | .mk kind _ _ members _ _ =>
    if kind.isClassLike then .enter :: (Member.stepsOf true members ++ [.leave])
    else Member.stepsOf false members

def Member.steps (ordered : Bool) : Member Span τ → List Step
  | .type decl => decl.steps
  | m => if ordered then m.event?.toList.map .member else []

def Member.stepsOf (ordered : Bool) : List (Member Span τ) → List Step
  | [] => []
  | m :: ms => m.steps ordered ++ Member.stepsOf ordered ms

end

def CompilationUnit.steps (u : CompilationUnit Span τ) : List Step :=
  u.types.flatMap TypeDecl.steps

def CompilationUnit.check (u : CompilationUnit Span τ) : Except StepError (List Violation) := do
  let t ← u.steps.foldlM Traversal.step .start
  t.finish

end MemberOrder
