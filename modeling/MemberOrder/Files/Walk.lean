import MemberOrder.Files.Ignore
/-! The files under a directory. -/
namespace MemberOrder

namespace Path

def withoutDot : Path → Path
  | '.' :: '/' :: s => s
  | p => p

def below (dir p : Path) : Path :=
  if dir.isPrefixOf p then
    match p.drop dir.length with
    | '/' :: s => s
    | s => s
  else p

end Path

/-- A walk in progress: the world it is in, where it started, the rules on the way from there to
the directory at hand, the innermost first, and the rules above the start, each with the names
that lead from there to it. -/
structure Walk where
  world : World
  start : Path
  inner : List IgnoreLevel
  outer : List (IgnoreLevel × Path)

inductive WalkError
  /-- An ignore file above the start is not understood. -/
  | unknownRules
  | unreadable (why : ReadError)
  deriving DecidableEq, Repr

def WalkError.message : WalkError → String
  | .unknownRules => "an ignore file is not understood"
  | .unreadable why => why.message

namespace Walk

def seenFrom (level : IgnoreLevel) (p : Path) : Path :=
  let root := level.root.withoutDot
  let p := p.withoutDot.withoutDot
  if root.components ≠ [.current] ∧ p.contains '/' then Path.below root p else p

def seenFromAbove (w : Walk) (lead : Path) (p : Path) : Path :=
  lead ++ '/' :: Path.below w.start.withoutDot p.withoutDot

def verdict (w : Walk) (p : Path) (isDirectory : Bool) : Verdict :=
  IgnoreLevel.verdict
    (w.inner.map (fun l => (l, seenFrom l p)) ++
      w.outer.map fun l => (l.1, w.seenFromAbove l.2 p))
    isDirectory

/-- Hidden entries are left out unless a rule allows them. -/
def skips (w : Walk) (p : Path) (name : List Char) (isDirectory : Bool) : Bool :=
  match w.verdict p isDirectory with
  | .ignored => true
  | .allowed => false
  | .silent => name.head? = some '.'

def enter (w : Walk) (p : Path) (t : FileTree) : Walk :=
  { w with inner := .of w.world p t :: w.inner }

mutual

def files (w : Walk) (p : Path) : FileTree → Except WalkError (List Path)
  | .file _ => .ok [p]
  | .directory es =>
    if FileTree.pathLimit < byteCount p then .error (.unreadable .nameTooLong)
    else filesOf (w.enter p (.directory es)) p es

def filesOf (w : Walk) (dir : Path) : List (List Char × FileTree) → Except WalkError (List Path)
  | [] => .ok []
  | (name, t) :: es => do
    let found ←
      if w.skips (dir.join name) name (!t.isFile) then .ok [] else files w (dir.join name) t
    return found ++ (← filesOf w dir es)

end

def above (world : World) (lead : List (List Char)) : List (List Char) → List FileTree →
    List (IgnoreLevel × Path)
  | name :: names, t :: ts =>
    (.of world [] t, ['/'].intercalate (name :: lead)) :: above world (name :: lead) names ts
  | _, _ => []

def startingAt (world : World) (p : Path) (s : FileTree.Spot) : Walk :=
  ⟨world, p, [], above world [] s.names s.above⟩

/-- The files under a spot called `p`. A walk that cannot tell which rules hold above its start
does not begin; rules further down that are not understood are left out. -/
def filesUnder (world : World) (p : Path) (s : FileTree.Spot) : Except WalkError (List Path) :=
  let w := startingAt world p s
  if w.outer.all (·.1.isSound) then w.files p s.tree else .error .unknownRules

end Walk

end MemberOrder
