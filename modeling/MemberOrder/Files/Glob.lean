/-! Patterns for paths. They are matched byte by byte: `?` and a class stand for one byte of a
path, also within a character. A pattern is read from a text once. -/
namespace MemberOrder

inductive GlobPart
  | literal (c : Char)
  /-- Any byte but a slash. -/
  | any
  /-- Any bytes but slashes. -/
  | star
  /-- Nothing, or anything up to and with a slash. -/
  | leading
  /-- A slash, or anything between two slashes. -/
  | between
  /-- A slash and anything. -/
  | trailing
  /-- A character of some ranges, or none of them. -/
  | choice (negated : Bool) (ranges : List (Char × Char))
  | alternatives (branches : List (List GlobPart))

abbrev Glob := List GlobPart

def utf8 (s : List Char) : List UInt8 := s.flatMap String.utf8EncodeChar

def slash : UInt8 := 0x2F

namespace GlobPart

/-- The byte ranges of a range of characters: their bytes count one by one, and the range goes
from the last byte of the first to the first byte of the last. -/
def byteRanges (r : Char × Char) : List (UInt8 × UInt8) :=
  let a := String.utf8EncodeChar r.1
  let b := String.utf8EncodeChar r.2
  if r.1 = r.2 then a.map fun x => (x, x)
  else a.dropLast.map (fun x => (x, x)) ++
    [(a.getLastD 0, b.headD 0)] ++ b.tail.map fun x => (x, x)

def tails : List UInt8 → List (List UInt8)
  | [] => [[]]
  | b :: s => (b :: s) :: tails s

def withinName : List UInt8 → List (List UInt8)
  | [] => [[]]
  | b :: s => if b = slash then [b :: s] else (b :: s) :: withinName s

def behindSlashes : List UInt8 → List (List UInt8)
  | [] => []
  | b :: s => if b = slash then s :: behindSlashes s else behindSlashes s

/-- How a pattern is built: how many things stand in a row, and how deep the deepest of them is
nested. Groups, the choice between their branches, rows within them, repetitions and classes each
count as a level, and so does a list in a class. -/
structure Shape where
  items : Nat
  depth : Nat
  deriving DecidableEq, Repr

namespace Shape

def isVoid (s : Shape) : Bool := s.items = 0

def asOne (s : Shape) : Nat := if 1 < s.items then s.depth + 1 else s.depth

def ofBranches (branches : List Shape) : Shape :=
  match branches.filter (!·.isVoid) with
  | [] => ⟨0, 0⟩
  | [b] => ⟨1, b.asOne + 1⟩
  | b :: bs => ⟨1, bs.foldl (fun d b => max d b.asOne) b.asOne + 2⟩

end Shape

mutual

def shape : GlobPart → Shape
  | .literal c => ⟨(String.utf8EncodeChar c).length, 0⟩
  | .any => ⟨1, 1⟩
  | .star => ⟨1, 2⟩
  | .leading | .between => ⟨1, 4⟩
  | .trailing => ⟨2, 1⟩
  | .choice _ ranges => ⟨1, if 1 < (ranges.flatMap byteRanges).length then 2 else 1⟩
  | .alternatives branches => .ofBranches (shapesOf branches)

def shapeOf : List GlobPart → Shape
  | [] => ⟨0, 0⟩
  | p :: ps => ⟨p.shape.items + (shapeOf ps).items, max p.shape.depth (shapeOf ps).depth⟩

def shapesOf : List (List GlobPart) → List Shape
  | [] => []
  | b :: bs => shapeOf b :: shapesOf bs

end

mutual

/-- What can be left of `s` behind what a part matches. Empty alternatives do not count. -/
def rests (s : List UInt8) : GlobPart → List (List UInt8)
  | .literal c =>
    let bytes := String.utf8EncodeChar c
    if bytes.isPrefixOf s then [s.drop bytes.length] else []
  | .any =>
    match s with
    | b :: t => if b = slash then [] else [t]
    | [] => []
  | .star => withinName s
  | .leading => s :: behindSlashes s
  | .between =>
    match s with
    | b :: t => if b = slash then t :: behindSlashes t else []
    | [] => []
  | .trailing =>
    match s with
    | b :: t => if b = slash then tails t else []
    | [] => []
  | .choice negated ranges =>
    match s with
    | b :: t =>
      if (ranges.flatMap byteRanges).any (fun r => r.1 ≤ b && b ≤ r.2) != negated then [t] else []
    | [] => []
  | .alternatives branches =>
    if (Shape.ofBranches (shapesOf branches)).isVoid then [s] else restsOfAny s branches

def restsOfAll (ss : List (List UInt8)) : List GlobPart → List (List UInt8)
  | [] => ss
  | p :: ps => restsOfAll (ss.flatMap fun s => p.rests s).eraseDups ps

def restsOfAny (s : List UInt8) : List (List GlobPart) → List (List UInt8)
  | [] => []
  | b :: bs => (if (shapeOf b).isVoid then [] else restsOfAll [s] b) ++ restsOfAny s bs

end

end GlobPart

namespace Glob

def depthLimit : Nat := 250

def isTooDeep (g : Glob) : Bool := depthLimit < (GlobPart.shapeOf g).depth + 1

def matchesPath (g : Glob) (path : List Char) : Bool :=
  match g with
  | [.leading] => true
  | g => (GlobPart.restsOfAll [utf8 path] g).contains []

end Glob

/-! Reading a pattern. -/

inductive ClassRead
  | closed (ranges : List (Char × Char)) (rest : List Char)
  | unclosed
  | invalid

/-- Reads on with the ranges read so far, the last first. The flags say that nothing has been read
yet, and that a hyphen has been read behind a character. -/
def readClass (first inRange : Bool) (ranges : List (Char × Char)) : List Char → ClassRead
  | [] => .unclosed
  | c :: s =>
    if c = ']' ∧ !first then
      .closed (if inRange then ('-', '-') :: ranges else ranges).reverse s
    else if c = '-' ∧ !first ∧ !inRange then readClass false true ranges s
    else match inRange, ranges with
      | true, (a, _) :: rs => if c < a then .invalid else readClass false false ((a, c) :: rs) s
      | _, _ => readClass false false ((c, c) :: ranges) s

theorem length_of_readClass {first inRange ranges} {s : List Char} {found rest}
    (h : readClass first inRange ranges s = .closed found rest) : rest.length < s.length := by
  fun_induction readClass first inRange ranges s with
  | case1 => simp at h
  | case2 => simp only [ClassRead.closed.injEq] at h; simp [h.2]
  | case3 _ _ _ _ _ _ _ ih => have := ih h; simp; omega
  | case4 => simp at h
  | case5 => next ih => have := ih h; simp; omega
  | case6 => next ih => have := ih h; simp; omega

def classAt : List Char → Bool × ClassRead
  | '!' :: s | '^' :: s => (true, readClass true false [] s)
  | s => (false, readClass true false [] s)

theorem length_of_classAt {s : List Char} {found rest}
    (h : (classAt s).2 = .closed found rest) : rest.length < s.length := by
  unfold classAt at h
  split at h
  · have := length_of_readClass h; simp; omega
  · have := length_of_readClass h; simp; omega
  · exact length_of_readClass h

/-- A pattern being read. `parts` is the branch at hand, the last part first; each open group has
the branches before that one, the last first, and the branch around the group. Behind a bracket
that is never closed no bracket begins a class. -/
structure GlobDraft where
  parts : List GlobPart
  groups : List (List Glob × List GlobPart)
  hasClasses : Bool

namespace GlobDraft

def add (d : GlobDraft) (p : GlobPart) : GlobDraft := { d with parts := p :: d.parts }

def empty : GlobDraft := ⟨[], [], true⟩

def loneBracket (d : GlobDraft) : GlobDraft := { d.add (.literal '[') with hasClasses := false }

def openGroup (d : GlobDraft) : GlobDraft :=
  { d with parts := [], groups := ([], d.parts) :: d.groups }

def comma (d : GlobDraft) : GlobDraft :=
  match d.groups with
  | [] => d.add (.literal ',')
  | (branches, outer) :: gs =>
    { d with parts := [], groups := (d.parts.reverse :: branches, outer) :: gs }

def closeGroup? (d : GlobDraft) : Option GlobDraft :=
  match d.groups with
  | [] => none
  | (branches, outer) :: gs =>
    some { d with
      parts := .alternatives (d.parts.reverse :: branches).reverse :: outer
      groups := gs }

def twoStars (d : GlobDraft) : GlobDraft := (d.add .star).add .star

/-- Two stars take the part before them, a slash as a rule, into themselves. -/
def merge (d : GlobDraft) (p : GlobPart) : GlobDraft :=
  match d.parts with
  | .leading :: ps => { d with parts := .leading :: ps }
  | .trailing :: ps => { d with parts := .trailing :: ps }
  | _ :: ps => { d with parts := p :: ps }
  | [] => { d with parts := [p] }

def boundary (d : GlobDraft) (last : Option Char) : Bool :=
  last = some '/' || (!d.groups.isEmpty && (last = some ',' || last = some '{'))

end GlobDraft

def readGlob (d : GlobDraft) (last : Option Char) : List Char → Option Glob
  | [] => if d.groups.isEmpty then some d.parts.reverse else none
  | '?' :: s => readGlob (d.add .any) (some '?') s
  | '*' :: '*' :: s =>
    match d.parts.isEmpty, s with
    | true, [] => readGlob (d.add .leading) (some '*') []
    | true, '/' :: t => readGlob (d.add .leading) (some '/') t
    | true, c :: t => readGlob d.twoStars (some '*') (c :: t)
    | false, s =>
      if d.boundary last then
        match s with
        | [] => readGlob (d.merge .trailing) (some '*') []
        | '/' :: t => readGlob (d.merge .between) (some '/') t
        | c :: t =>
          if !d.groups.isEmpty && (c = ',' || c = '}') then
            readGlob (d.merge .trailing) (some '*') (c :: t)
          else readGlob d.twoStars (some '*') (c :: t)
      else readGlob d.twoStars (some '*') s
  | '*' :: s => readGlob (d.add .star) (some '*') s
  | '[' :: s =>
    if !d.hasClasses then readGlob (d.add (.literal '[')) (some '[') s
    else match _ : (classAt s).2 with
      | .closed ranges rest => readGlob (d.add (.choice (classAt s).1 ranges)) (some ']') rest
      | .unclosed => readGlob d.loneBracket (some '[') s
      | .invalid => none
  | '{' :: s => readGlob d.openGroup (some '{') s
  | '}' :: s =>
    match d.closeGroup? with
    | some d' => readGlob d' (some '}') s
    | none => none
  | ',' :: s => readGlob d.comma (some ',') s
  | '\\' :: s =>
    match s with
    | [] => none
    | c :: t => readGlob (d.add (.literal c)) (some c) t
  | c :: s => readGlob (d.add (.literal c)) (some c) s
termination_by s => s.length
decreasing_by
  all_goals first
    | simp only [List.length_cons, List.length_nil]; omega
    | have := length_of_classAt ‹_›; simp only [List.length_cons]; omega

/-- A pattern, if the text is one: groups are closed, ranges go up, a backslash has a character
to stand before. -/
def Glob.read? (s : List Char) : Option Glob :=
  readGlob .empty none s

end MemberOrder
