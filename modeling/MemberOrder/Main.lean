import MemberOrder.CommandLine.Program
/-! The program in its surroundings. Of all files those are loaded that are at or below the paths in the arguments,
and those on the way there that have a say in what to leave out. Links are not followed, nor are files that point
to a repository elsewhere; and what cannot be read is taken to be missing. -/
namespace MemberOrder

/-- Everything at and below an entry, each thing with its own path. -/
partial def loadEntry (e : IO.FS.DirEntry) : IO (List (Path × FileTree)) := do
  let path := e.path.toString.toList
  try
    match (← e.path.symlinkMetadata).type with
    | .dir =>
      let inner ← (← e.path.readDir).toList.mapM loadEntry
      return (path, .empty) :: inner.flatten
    | .file => return [(path, .file (← IO.FS.readBinFile e.path))]
    | _ => return []
  catch _ => return []

def ruleEntries : List (List Char) :=
  [IgnoreLevel.ignoreEntry, IgnoreLevel.gitIgnoreEntry, Repository.gitEntry, Repository.jjEntry]

partial def loadRules (e : IO.FS.DirEntry) : IO (List (Path × FileTree)) := do
  let beside := (← e.root.readDir).toList.filter fun f => ruleEntries.contains f.fileName.toList
  let here ← beside.mapM loadEntry
  match e.root.parent, e.root.fileName with
  | some root, some name => return here.flatten ++ (← loadRules ⟨root, name⟩)
  | _, _ => return here.flatten

def loadPath (path : String) : IO (List (Path × FileTree)) := do
  try
    let real ← IO.FS.realPath path
    match real.parent, real.fileName with
    | some root, some name => return (← loadRules ⟨root, name⟩) ++ (← loadEntry ⟨root, name⟩)
    | _, _ => return (← (← real.readDir).toList.mapM loadEntry).flatten
  catch _ => return []

def loadWorld (paths : List String) : IO World := do
  let here := (← IO.currentDir).toString.toList
  let found ← paths.mapM loadPath
  let root := FileTree.ofList ((here, .empty) :: found.flatten)
  return ((FileTree.namesOf here).foldlM World.enter? (.top root)).getD (.top root)

end MemberOrder

def main (args : List String) : IO UInt32 := do
  let paths := match MemberOrder.CommandLine.read args with
    | .ok a => a.config?.toList ++ a.paths
    | .error _ => []
  let e := MemberOrder.CommandLine.program (← MemberOrder.loadWorld paths) args
  for line in e.errors do
    IO.eprintln line
  IO.print e.output
  return e.exitCode.toUInt32
