import MemberOrder.Files.Glob
import MemberOrder.Files.Tree
import MemberOrder.Text.Character
/-! Ignore files: rules about what lies below their directory. Of the rules in one file the last that applies
counts. Some rules count only in a directory under version control, and some only in one copy of it. Left out are
the rules that a user has for all directories. -/
namespace MemberOrder.Repository

def gitEntry : List Char := ['.', 'g', 'i', 't']

def jjEntry : List Char := ['.', 'j', 'j']

def isTop (t : FileTree) : Bool :=
  (t.child? gitEntry).isSome || (t.child? jjEntry).isSome

def pointer : List Char := ['g', 'i', 't', 'd', 'i', 'r', ':', ' ']

def commonFile : Path := ['c', 'o', 'm', 'm', 'o', 'n', 'd', 'i', 'r']

def infoEntry : List Char := ['i', 'n', 'f', 'o']

def excludeEntry : List Char := ['e', 'x', 'c', 'l', 'u', 'd', 'e']

/-- A path in a file of the directory `home`. A dot in front makes it relative to that directory,
any other path starts where the program runs. -/
def resolved (home line : Path) : Path :=
  if line.head? = some '.' then home.join line else line

/-- The file of local rules of a repository whose files are in several places. The first line of
`pointing` names one place, a file there the place that all copies share. -/
def sharedExclude? (world : World) (pointing : FileTree) : Except ReadError (Option FileTree) := do
  match ← pointing.firstLine? with
  | none => return none
  | some line =>
    if !pointer.isPrefixOf line then return none
    let home : Path := line.drop pointer.length
    match world.find (home.join commonFile) with
    | .error _ => return none
    | .ok spot =>
      match ← spot.tree.firstLine? with
      | none => return none
      | some line =>
        let exclude := ((resolved home line).join infoEntry).join excludeEntry
        return (world.find exclude).toOption.map (·.tree)

def exclude? (world : World) (t : FileTree) : Except ReadError (Option FileTree) :=
  match t.child? gitEntry with
  | none => .ok none
  | some (.directory es) =>
    .ok ((FileTree.directory es).child? infoEntry |>.bind fun t => t.child? excludeEntry)
  | some (.file content) => sharedExclude? world (.file content)

end MemberOrder.Repository

namespace MemberOrder

structure IgnoreRule where
  glob : Glob
  allows : Bool
  directoriesOnly : Bool

inductive Verdict
  | silent | ignored | allowed
  deriving DecidableEq, Repr

def Verdict.first : List Verdict → Verdict
  | [] => .silent
  | .silent :: vs => first vs
  | v :: _ => v

namespace IgnoreRule

def trimmed (line : List Char) : List Char :=
  if ['\\', ' '].isSuffixOf line then line
  else (line.reverse.dropWhile isBlank).reverse

/-- The pattern of a rule. Without a slash inside or in front it holds at any depth, and two stars
at the end stand for what is inside a directory, not for the directory. -/
def pattern (anchored : Bool) (line : List Char) : List Char :=
  let deep := !anchored && !line.contains '/' && !(line = ['*', '*'])
  let p := if deep then '*' :: '*' :: '/' :: line else line
  if ['/', '*', '*'].isSuffixOf p then p ++ ['/', '*'] else p

end IgnoreRule

inductive IgnoreLine
  | blank
  | rule (r : IgnoreRule)
  | malformed

namespace IgnoreLine

def rule? : IgnoreLine → Option IgnoreRule
  | rule r => some r
  | _ => none

def isMalformed : IgnoreLine → Bool
  | malformed => true
  | _ => false

def ofPattern (allows anchored : Bool) (line : List Char) : IgnoreLine :=
  let directoriesOnly := line.getLast? = some '/'
  let body := if directoriesOnly then line.dropLast else line
  let body := if directoriesOnly && body.getLast? = some '\\' then body.dropLast else body
  match Glob.read? (IgnoreRule.pattern anchored body) with
  | some glob => .rule ⟨glob, allows, directoriesOnly⟩
  | none => .malformed

def ofSlash (allows : Bool) : List Char → IgnoreLine
  | '/' :: s => ofPattern allows true s
  | s => ofPattern allows false s

def read (line : List Char) : IgnoreLine :=
  match IgnoreRule.trimmed line with
  | [] => .blank
  | '#' :: _ => .blank
  | '\\' :: '!' :: s => ofPattern false false ('!' :: s)
  | '\\' :: '#' :: s => ofPattern false false ('#' :: s)
  | '!' :: s => ofSlash true s
  | s => ofSlash false s

end IgnoreLine

namespace IgnoreRule

def applies (r : IgnoreRule) (path : Path) (isDirectory : Bool) : Bool :=
  (isDirectory || !r.directoriesOnly) && r.glob.matchesPath path

def verdict (rules : List IgnoreRule) (path : Path) (isDirectory : Bool) : Verdict :=
  match rules.reverse.find? (·.applies path isDirectory) with
  | none => .silent
  | some r => if r.allows then .allowed else .ignored

end IgnoreRule

structure IgnoreFile where
  rules : List IgnoreRule
  isSound : Bool

namespace IgnoreFile

def empty : IgnoreFile := ⟨[], true⟩

/-- A pattern that is nested too deep takes the rules of its whole file with it. -/
def ofLines (ls : List IgnoreLine) : IgnoreFile :=
  let rules := ls.filterMap (·.rule?)
  if rules.any (·.glob.isTooDeep) then ⟨[], false⟩ else ⟨rules, !ls.any (·.isMalformed)⟩

/-- The lines before the first that is not text, without a byte order mark. -/
def textLines (content : ByteArray) : List (List Char) :=
  match (lines content).takeWhile (·.isSome) |>.filterMap id with
  | [] => []
  | l :: ls => l.dropWhile (· = '\uFEFF') :: ls

def read : Option FileTree → IgnoreFile
  | some (.file content) => ofLines ((textLines content).map IgnoreLine.read)
  | _ => empty

end IgnoreFile

/-- The rules of a directory, in three classes of falling weight. Those of the last two count
only in a repository. -/
structure IgnoreLevel where
  root : Path
  ignore : List IgnoreRule
  git : List IgnoreRule
  exclude : List IgnoreRule
  isRepository : Bool
  isSound : Bool

namespace IgnoreLevel

def ignoreEntry : List Char := ['.', 'i', 'g', 'n', 'o', 'r', 'e']

def gitIgnoreEntry : List Char := ['.', 'g', 'i', 't', 'i', 'g', 'n', 'o', 'r', 'e']

/-- The rules of a directory that is called `path`. They are sound if each file is understood, and
the file of local rules, which may lie anywhere in the world, is found or known to be missing. -/
def of (world : World) (path : Path) (t : FileTree) : IgnoreLevel :=
  let ignore := IgnoreFile.read (t.child? ignoreEntry)
  let git := IgnoreFile.read (t.child? gitIgnoreEntry)
  let exclude := match Repository.exclude? world t with
    | .ok file? => IgnoreFile.read file?
    | .error _ => { IgnoreFile.empty with isSound := false }
  { root := path
    ignore := ignore.rules
    git := git.rules
    exclude := exclude.rules
    isRepository := Repository.isTop t
    isSound := ignore.isSound && git.isSound && exclude.isSound }

def withinRepository : List (IgnoreLevel × Path) → List (IgnoreLevel × Path)
  | [] => []
  | l :: ls => if l.1.isRepository then [l] else l :: withinRepository ls

def verdict (levels : List (IgnoreLevel × Path)) (isDirectory : Bool) : Verdict :=
  let said (rules : IgnoreLevel → List IgnoreRule) (ls : List (IgnoreLevel × Path)) :=
    Verdict.first (ls.map fun l => IgnoreRule.verdict (rules l.1) l.2 isDirectory)
  let near := if levels.any (·.1.isRepository) then withinRepository levels else []
  .first [said ignore levels, said git near, said exclude near]

end IgnoreLevel

end MemberOrder
