import MemberOrder.Files.Path
/-! The files there are, and what a path finds among them. A world is all that stands below the root, with
the directory in which the program runs: a path that begins with a slash begins at the root, any other in
that directory, and `..` goes up as far as there is something above.

Left out is what else a disk can have. There are no links and no devices, and whatever is there can be
read; so a way never leads back to where it came from but by `..`, and a walk comes to an end. -/
namespace MemberOrder

inductive FileTree
  | file (content : ByteArray)
  | directory (entries : List (List Char × FileTree))

inductive ReadError
  | notFound
  | notADirectory
  | isADirectory
  | nameTooLong
  | nameWithNul
  | notText
  deriving DecidableEq, Repr

def ReadError.message : ReadError → String
  | .notFound => "No such file or directory (os error 2)"
  | .notADirectory => "Not a directory (os error 20)"
  | .isADirectory => "Is a directory (os error 21)"
  | .nameTooLong => "File name too long (os error 36)"
  | .nameWithNul => "file name contained an unexpected NUL byte"
  | .notText => "stream did not contain valid UTF-8"

def byteLines : List UInt8 → List (List UInt8)
  | [] => []
  | 0x0D :: 0x0A :: s => [] :: byteLines s
  | b :: s =>
    if b = 0x0A then [] :: byteLines s
    else match byteLines s with
      | [] => [[b]]
      | w :: ws => (b :: w) :: ws

def lines (content : ByteArray) : List (Option (List Char)) :=
  (byteLines content.toList).map fun bs => (String.fromUTF8? ⟨bs.toArray⟩).map String.toList

namespace FileTree

def empty : FileTree := .directory []

def isFile : FileTree → Bool
  | .file _ => true
  | .directory _ => false

def entries : FileTree → List (List Char × FileTree)
  | .file _ => []
  | .directory es => es

def child? (t : FileTree) (name : List Char) : Option FileTree :=
  t.entries.lookup name

def setEntry (name : List Char) (sub : FileTree) :
    List (List Char × FileTree) → List (List Char × FileTree)
  | [] => [(name, sub)]
  | (n, t) :: es => if n = name then (n, sub) :: es else (n, t) :: setEntry name sub es

def put (sub : FileTree) : List (List Char) → FileTree → FileTree
  | [], .directory es => if sub.isFile then sub else .directory es
  | [], .file _ => sub
  | name :: names, t =>
    .directory (setEntry name (put sub names ((t.child? name).getD empty)) t.entries)

def namesOf (p : Path) : List (List Char) :=
  p.components.filterMap fun
    | .name text => some text
    | _ => none

def ofList (files : List (Path × FileTree)) : FileTree :=
  files.foldl (fun t f => put f.2 (namesOf f.1) t) empty

/-- A thing in a tree, with the names that lead to it from the root, the last first, and the directories
passed on the way, the nearest first. -/
structure Spot where
  tree : FileTree
  names : List (List Char)
  above : List FileTree

namespace Spot

def top (root : FileTree) : Spot := ⟨root, [], []⟩

inductive Within (root : FileTree) : Spot → Prop
  | top : Within root (.top root)
  | child {s : Spot} {n : List Char} {t : FileTree} (hs : Within root s) (ht : s.tree.child? n = some t) :
      Within root ⟨t, n :: s.names, s.tree :: s.above⟩

def nameLimit : Nat := 255

/-- One segment further. Only a directory can be gone on from, and above the root is the root. -/
def step (s : Spot) (segment : List Char) : Except ReadError Spot :=
  match s.tree with
  | .file _ => .error .notADirectory
  | .directory _ =>
    match Component.inner? segment with
    | some (.name text) =>
      match s.tree.child? text with
      | some sub => .ok ⟨sub, text :: s.names, s.tree :: s.above⟩
      | none => .error (if nameLimit < byteCount text then .nameTooLong else .notFound)
    | some .parent =>
      match s.above with
      | t :: ts => .ok ⟨t, s.names.tail, ts⟩
      | [] => .ok s
    | _ => .ok s

end Spot

def pathLimit : Nat := 4095

def firstLine? : FileTree → Except ReadError (Option (List Char))
  | .directory _ => .error .isADirectory
  | .file content =>
    match lines content with
    | [] => .ok none
    | none :: _ => .error .notText
    | some line :: _ => .ok (some line)

end FileTree

open FileTree

/-- All files there are, and where among them the program runs. -/
structure World where
  root : FileTree
  home : Spot
  within : home.Within root

namespace World

def top (root : FileTree) : World := ⟨root, .top root, .top⟩

def enter? (w : World) (n : List Char) : Option World :=
  match h : w.home.tree.child? n with
  | some t => some ⟨w.root, ⟨t, n :: w.home.names, w.home.tree :: w.home.above⟩, w.within.child h⟩
  | none => none

def homeName : List Char := ['h', 'o', 'm', 'e']

/-- The world in which nothing is at the root but the directory in which the program runs. -/
def around (t : FileTree) : World :=
  let home : FileTree := .directory t.entries
  let root : FileTree := .directory [(homeName, home)]
  ⟨root, ⟨home, [homeName], [root]⟩, .child .top rfl⟩

instance : Coe FileTree World := ⟨around⟩

def start (w : World) (p : Path) : Spot :=
  if p.head? = some '/' then .top w.root else w.home

def find (w : World) (p : Path) : Except ReadError Spot :=
  if p.contains '\x00' then .error .nameWithNul
  else if p.isEmpty then .error .notFound
  else if pathLimit < byteCount p then .error .nameTooLong
  else (segments p).foldlM Spot.step (w.start p)

def readText (w : World) (p : Path) : Except ReadError String := do
  match (← w.find p).tree with
  | .directory _ => throw .isADirectory
  | .file content =>
    match String.fromUTF8? content with
    | some text => return text
    | none => throw .notText

end World

end MemberOrder
