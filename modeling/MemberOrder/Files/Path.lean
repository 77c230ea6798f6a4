import MemberOrder.Text.Span
/-! Paths as texts, and the components by which they are compared. -/
namespace MemberOrder

def lexNotAfter {α : Type} [DecidableEq α] (notAfter : α → α → Bool) : List α → List α → Bool
  | [], _ => true
  | _ :: _, [] => false
  | a :: s, b :: t => if a = b then lexNotAfter notAfter s t else notAfter a b

abbrev Path := List Char

def segments : Path → List (List Char)
  | [] => [[]]
  | c :: s =>
    if c = '/' then [] :: segments s
    else match segments s with
      | [] => [[c]]
      | w :: ws => (c :: w) :: ws

inductive Component
  | root
  | current
  | parent
  | name (text : List Char)
  deriving DecidableEq, Repr

namespace Component

/-- What a segment means behind the first. A dot there, like nothing at all, means nothing. -/
def inner? : List Char → Option Component
  | [] => none
  | ['.'] => none
  | ['.', '.'] => some .parent
  | text => some (.name text)

def key : Component → List Nat
  | root => [0]
  | current => [1]
  | parent => [2]
  | name text => 3 :: text.map Char.toNat

end Component

namespace Path

def components (p : Path) : List Component :=
  match segments p with
  | [] :: s => if p.isEmpty then [] else .root :: s.filterMap Component.inner?
  | ['.'] :: s => .current :: s.filterMap Component.inner?
  | s => s.filterMap Component.inner?

/-- Paths are compared by components, so that doubled slashes do not matter. -/
def key (p : Path) : List (List Nat) :=
  p.components.map Component.key

def notAfter (p q : Path) : Bool :=
  lexNotAfter (lexNotAfter fun a b => a ≤ b) p.key q.key

def fileName? (p : Path) : Option (List Char) :=
  match p.components.getLast? with
  | some (.name text) => some text
  | _ => none

/-- What follows the last dot of a name, unless that dot is the first character. -/
def extensionOf? (name : List Char) : Option (List Char) :=
  let after := (name.reverse.takeWhile (· ≠ '.')).reverse
  if after.length + 1 < name.length then some after else none

def extension? (p : Path) : Option (List Char) :=
  p.fileName?.bind extensionOf?

def join (dir : Path) (name : List Char) : Path :=
  if dir.isEmpty || dir.getLast? = some '/' then dir ++ name else dir ++ '/' :: name

/-- In order, and of equal paths only the first. -/
def sorted (ps : List Path) : List Path :=
  dedup (ps.mergeSort notAfter)
where
  /-- Without those equal to the one before. -/
  dedup : List Path → List Path
    | [] => []
    | [p] => [p]
    | p :: q :: ps =>
      if p.key = q.key then dedup (p :: ps) else p :: dedup (q :: ps)

end Path

end MemberOrder
