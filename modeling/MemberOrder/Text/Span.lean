/-! Places in a text. An offset counts UTF-8 bytes; lines and columns start at 1, a column counts
characters, and only a line feed ends a line. -/
namespace MemberOrder

/-- The length of a text in UTF-8. -/
def byteCount : List Char → Nat
  | [] => 0
  | c :: s => c.utf8Size + byteCount s

@[simp] theorem byteCount_append (s t : List Char) : byteCount (s ++ t) = byteCount s + byteCount t := by
  induction s with
  | nil => simp [byteCount]
  | cons c s ih => simp [byteCount, ih, Nat.add_assoc]

structure Position where
  offset : Nat
  line : Nat
  column : Nat
  deriving DecidableEq, Repr

namespace Position

def start : Position := ⟨0, 1, 1⟩

def advance (p : Position) (c : Char) : Position :=
  if c = '\n' then ⟨p.offset + c.utf8Size, p.line + 1, 1⟩
  else ⟨p.offset + c.utf8Size, p.line, p.column + 1⟩

def after (p : Position) (s : List Char) : Position :=
  s.foldl advance p

@[simp] theorem after_nil (p : Position) : p.after [] = p := rfl

@[simp] theorem after_cons (p : Position) (c : Char) (s : List Char) :
    p.after (c :: s) = (p.advance c).after s := rfl

theorem after_append (p : Position) (s t : List Char) :
    p.after (s ++ t) = (p.after s).after t := List.foldl_append

end Position

/-- A stretch of text; `line` and `column` are those of its start. -/
structure Span where
  start : Nat
  stop : Nat
  line : Nat
  column : Nat
  deriving DecidableEq, Repr, Inhabited

namespace Span

def between (p q : Position) : Span :=
  ⟨p.offset, q.offset, p.line, p.column⟩

def join (a b : Span) : Span :=
  ⟨a.start, b.stop, a.line, a.column⟩

end Span

def dropBytes : Nat → List Char → List Char
  | _, [] => []
  | n, c :: s => if n = 0 then c :: s else dropBytes (n - c.utf8Size) s

/-- The characters that lie wholly in the first `n` bytes. -/
def takeBytes : Nat → List Char → List Char
  | _, [] => []
  | n, c :: s => if n < c.utf8Size then [] else c :: takeBytes (n - c.utf8Size) s

def excerpt (source : List Char) (a : Span) : List Char :=
  takeBytes (a.stop - a.start) (dropBytes a.start source)

end MemberOrder
