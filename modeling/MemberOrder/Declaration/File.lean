import MemberOrder.Declaration.Member
/-! A whole file: package, imports, types; and from its text to its tree. A reading can go on after a refusal,
with the symbols that were left then. -/
namespace MemberOrder

/-- What a file is made of. Imports and stray semicolons leave nothing behind. -/
inductive FileItem
  | package (name : String)
  | type (decl : RawType)
  | nothing

namespace FileItem

def package? : FileItem → Option String
  | package name => some name
  | _ => none

def type? : FileItem → Option RawType
  | type decl => some decl
  | _ => none

end FileItem

namespace Rule

/-- A package or a type, from behind its modifiers on. The types in a declaration are nested to
less than as many levels as it has symbols. -/
def packageOrType (start : Nat) (m : Modifiers Extent) : Rule FileItem := do
  match ← get with
  | .keyword .package :: _ =>
    skip
    let name ← qualifiedName
    expect (.mark .semicolon)
    return .package name
  | s => return .type (← typeDecl s.length start m)

def fileItem? : Rule (Option FileItem) := do
  match ← get with
  | [] => return none
  | .mark .semicolon :: _ =>
    skip
    return some .nothing
  | .keyword .import :: _ =>
    statement
    return some .nothing
  | s => return some (← packageOrType s.length (← modifiers))

/-- All that is left of a file. Of several packages the last counts. -/
def file : Rule (CompilationUnit Extent Extent) := do
  let items ← many fileItem?
  return ⟨(items.filterMap FileItem.package?).getLast?, items.filterMap FileItem.type?⟩

end Rule

abbrev SourceUnit := CompilationUnit Span String

structure Reading where
  source : List Char
  tokens : Tokens
  unread : List Symbol
  deriving DecidableEq, Repr

namespace Reading

def start (source : List Char) : Except ParseError Reading :=
  (tokenize source).map fun ts => ⟨source, ts, ts.symbols⟩

def textAt (r : Reading) (e : Extent) : String :=
  String.ofList (squeeze (excerpt r.source (r.tokens.span e)))

def located (r : Reading) (u : CompilationUnit Extent Extent) : SourceUnit :=
  u.map r.tokens.span r.textAt

def next (r : Reading) : Except ParseError SourceUnit × Reading :=
  match Rule.file r.unread with
  | .ok u s => (.ok (r.located u), { r with unread := s })
  | .error e s => (.error ⟨e.cause, r.tokens.spanAt e.unread⟩, { r with unread := s })

def steps : Nat → Reading → List (Except ParseError SourceUnit)
  | 0, _ => []
  | n + 1, r => r.next.1 :: steps n r.next.2

end Reading

def parse (source : List Char) : Except ParseError SourceUnit := do
  let r ← Reading.start source
  r.next.1

end MemberOrder
