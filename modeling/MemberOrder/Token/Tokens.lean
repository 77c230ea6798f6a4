import MemberOrder.Text.Span
import MemberOrder.Token.Piece
/-! Tokens: the pieces with a symbol, each with its place, and the place where the text ends; and why a text is
refused. -/
namespace MemberOrder

inductive Expected
  | identifier
  | symbol (s : Symbol)
  | typeKeyword
  | declaration
  | bodyOrSemicolon
  deriving DecidableEq, Repr

def Expected.name : Expected → String
  | .identifier => "identifier"
  | .symbol s => s.name
  | .typeKeyword => "class, interface, enum or record"
  | .declaration => "declaration"
  | .bodyOrSemicolon => "';' or '\x7b'"

inductive Cause
  | unterminated (what : Construct)
  | unclosed (opener : Symbol)
  | unexpected (expected : Expected) (found : Option Symbol)
  deriving DecidableEq, Repr

namespace Cause

def message : Cause → String
  | .unterminated what => "unterminated " ++ what.name
  | .unclosed opener => "unclosed '" ++ opener.name ++ "'"
  | .unexpected expected none => "unexpected end of input, expected " ++ expected.name
  | .unexpected expected (some s) => "expected " ++ expected.name ++ ", found " ++ s.name

def expected? : Cause → Option String
  | .unexpected expected _ => some expected.name
  | _ => none

def found? : Cause → Option String
  | .unexpected _ none => some "end of input"
  | .unexpected _ (some s) => some s.name
  | _ => none

end Cause

structure ParseError where
  cause : Cause
  span : Span
  deriving DecidableEq, Repr

def ParseError.describe (e : ParseError) : String :=
  s!"Parse error at line {e.span.line}, column {e.span.column}: {e.cause.message}"

structure Token where
  symbol : Symbol
  text : List Char
  span : Span
  deriving DecidableEq, Repr

def unquoted (text : List Char) : List Char :=
  let n := if ['"', '"', '"'].isPrefixOf text then 3 else 1
  (text.drop n).take (text.length - 2 * n)

/-- What a token tells beyond its kind. Escapes stay as written. -/
def Token.payload? (t : Token) : Option (List Char) :=
  match t.symbol with
  | .identifier _ | .number | .operator => some t.text
  | .string | .character => some (unquoted t.text)
  | _ => none

structure Tokens where
  list : List Token
  finish : Position
  deriving DecidableEq, Repr

def tokensFrom (p : Position) : List Piece → List Token
  | [] => []
  | ⟨none, text⟩ :: ps => tokensFrom (p.after text) ps
  | ⟨some s, text⟩ :: ps =>
    ⟨s, text, .between p (p.after text)⟩ :: tokensFrom (p.after text) ps

def tokenize (source : List Char) : Except ParseError Tokens :=
  let cut := scan source
  let p := Position.start.after (joined cut.pieces)
  match cut.open? with
  | some (what, text) => .error ⟨.unterminated what, .between p (p.after text)⟩
  | none => .ok ⟨tokensFrom .start cut.pieces, p⟩

/-- Some consecutive tokens, told by what follows them: `unread` tokens were left before the
first of them, and `left` after the last. -/
structure Extent where
  unread : Nat
  left : Nat
  deriving DecidableEq, Repr

namespace Tokens

def symbols (ts : Tokens) : List Symbol :=
  ts.list.map (·.symbol)

def finishSpan (ts : Tokens) : Span :=
  .between ts.finish ts.finish

def spanAt (ts : Tokens) (unread : Nat) : Span :=
  match ts.list[ts.list.length - unread]? with
  | some t => t.span
  | none => ts.finishSpan

def span (ts : Tokens) (e : Extent) : Span :=
  (ts.spanAt e.unread).join (ts.spanAt (e.left + 1))

end Tokens

end MemberOrder
