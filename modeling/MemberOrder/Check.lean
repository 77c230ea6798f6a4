import MemberOrder.Declaration.File
import MemberOrder.Files.Walk
import MemberOrder.Order.Traversal
import MemberOrder.Settings
/-! Checking files: which ones, and each by itself. -/
namespace MemberOrder

inductive Failure
  | unreadable (path : Path) (why : ReadError)
  | missing (path : Path)
  | unwalkable (path : Path) (why : WalkError)
  | unparsed (path : Path) (why : ParseError)
  | unjudged (path : Path) (why : StepError)
  | settings (path : Path) (why : SettingsError)
  deriving DecidableEq, Repr

def quoted (p : Path) : String := "'" ++ String.ofList p ++ "'"

namespace Failure

def message : Failure → String
  | unreadable path why => "Failed to read " ++ quoted path ++ ": " ++ why.message
  | missing path => "No such file or directory: " ++ quoted path
  | unwalkable path why => "Failed to walk directory: " ++ quoted path ++ ": " ++ why.message
  | unparsed path why =>
    s!"{String.ofList path}:{why.span.line}:{why.span.column}: {why.cause.message}"
  | unjudged path why => "Checking " ++ quoted path ++ " failed: " ++ why.message
  | settings path why => "Invalid configuration in " ++ quoted path ++ ": " ++ why.message

def causes : Failure → List String
  | unreadable _ why => [why.message]
  | missing _ => []
  | unwalkable _ why => [why.message]
  | unparsed _ why => [why.describe]
  | unjudged _ why => [why.message]
  | settings _ .noExtensions => [SettingsError.noExtensions.message]
  | settings _ why => [why.message, why.message]

end Failure

/-- The findings in a text, by position. The path is only for the failure. -/
def checkSource (path : Path) (source : String) : Except Failure (List Violation) :=
  match parse source.toList with
  | .error e => .error (.unparsed path e)
  | .ok u =>
    match u.check with
    | .error e => .error (.unjudged path e)
    | .ok vs => .ok (sortByPosition vs)

def loadSettings (world : World) (path : Path) : Except Failure Settings :=
  match world.readText path with
  | .error e => .error (.unreadable path e)
  | .ok text =>
    match Settings.read text.toList with
    | .error e => .error (.settings path e)
    | .ok s => .ok s

/-- Does a path stand for the standard input, in which there are no files? -/
def isStandardInput (p : Path) : Bool := p.components = [.name ['-']]

def filesUnder (s : Settings) (world : World) (p : Path) (spot : FileTree.Spot) :
    Except Failure (List Path) :=
  if isStandardInput p then .ok []
  else match Walk.filesUnder world p spot with
    | .ok found => .ok (found.filter s.accepts)
    | .error why => .error (.unwalkable p why)

def filesFor (s : Settings) (world : World) (p : Path) : Except Failure (List Path) :=
  match world.find p with
  | .error _ => .error (.missing p)
  | .ok spot => if spot.tree.isFile then .ok [p] else filesUnder s world p spot

def collect (s : Settings) (world : World) (paths : List Path) : Except Failure (List Path) := do
  let found ← paths.mapM (filesFor s world)
  return Path.sorted found.flatten

def checkFile (world : World) (p : Path) : Except Failure (List Violation) :=
  match world.readText p with
  | .error e => .error (.unreadable p e)
  | .ok text => checkSource p text

end MemberOrder
