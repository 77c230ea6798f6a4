/-! Symbols: what the grammar of declarations can see of a token. A name keeps its text; of a
literal only the sort is left, and of an operator nothing. -/
namespace MemberOrder

inductive ModifierWord
  | «public» | «protected» | «private» | static | abstract | final | transient | volatile
  | synchronized | native | strictfp | default | nonSealed
  deriving DecidableEq, Repr

namespace ModifierWord

def all : List ModifierWord :=
  [.public, .protected, .private, .static, .abstract, .final, .transient, .volatile,
    .synchronized, .native, .strictfp, .default, .nonSealed]

theorem mem_all (w : ModifierWord) : w ∈ all := by cases w <;> decide

def name : ModifierWord → String
  | .public => "public"
  | .protected => "protected"
  | .private => "private"
  | .static => "static"
  | .abstract => "abstract"
  | .final => "final"
  | .transient => "transient"
  | .volatile => "volatile"
  | .synchronized => "synchronized"
  | .native => "native"
  | .strictfp => "strictfp"
  | .default => "default"
  | .nonSealed => "non-sealed"

end ModifierWord

/-- The reserved words that shape declarations. Every other word is a name here. -/
inductive Keyword
  | package | «import» | «class» | interface | enum | «extends» | implements | throws
  | modifier (word : ModifierWord)
  deriving DecidableEq, Repr

namespace Keyword

def all : List Keyword :=
  [.package, .import, .class, .interface, .enum, .extends, .implements, .throws] ++
    ModifierWord.all.map .modifier

theorem mem_all (k : Keyword) : k ∈ all := by
  cases k with
  | modifier w => simp [all, ModifierWord.mem_all]
  | _ => simp [all]

def name : Keyword → String
  | .package => "package"
  | .import => "import"
  | .class => "class"
  | .interface => "interface"
  | .enum => "enum"
  | .extends => "extends"
  | .implements => "implements"
  | .throws => "throws"
  | .modifier w => w.name

def ofWord? (w : String) : Option Keyword :=
  all.find? (·.name == w)

theorem name_of_ofWord? {w : String} {k : Keyword} (h : ofWord? w = some k) : k.name = w := by
  simpa using List.find?_some h

end Keyword

inductive Bracket
  | round | square | curly
  deriving DecidableEq, Repr

namespace Bracket

def opener : Bracket → String
  | .round => "("
  | .square => "["
  | .curly => "\x7b"

def closer : Bracket → String
  | .round => ")"
  | .square => "]"
  | .curly => "\x7d"

end Bracket

inductive Mark
  | semicolon | comma | dot | atSign | less | greater | equals | question
  deriving DecidableEq, Repr

def Mark.name : Mark → String
  | .semicolon => ";"
  | .comma => ","
  | .dot => "."
  | .atSign => "@"
  | .less => "<"
  | .greater => ">"
  | .equals => "="
  | .question => "?"

inductive Symbol
  | keyword (k : Keyword)
  | identifier (name : String)
  | number
  | string
  | character
  | opening (b : Bracket)
  | closing (b : Bracket)
  | mark (m : Mark)
  | operator
  deriving DecidableEq, Repr

namespace Symbol

def name : Symbol → String
  | .keyword k => k.name
  | .identifier _ => "identifier"
  | .number => "number"
  | .string => "string"
  | .character => "character"
  | .opening b => b.opener
  | .closing b => b.closer
  | .mark m => m.name
  | .operator => "operator"

def isModifier : Symbol → Bool
  | .keyword (.modifier _) => true
  | _ => false

def isIdentifier : Symbol → Bool
  | .identifier _ => true
  | _ => false

def ofWord (w : String) : Symbol :=
  match Keyword.ofWord? w with
  | some k => .keyword k
  | none => .identifier w

/-- The symbol of a sign that stands for itself; every character without one is an operator. -/
def ofSign : Char → Symbol
  | '(' => .opening .round
  | ')' => .closing .round
  | '[' => .opening .square
  | ']' => .closing .square
  | '{' => .opening .curly
  | '}' => .closing .curly
  | ';' => .mark .semicolon
  | ',' => .mark .comma
  | '.' => .mark .dot
  | '@' => .mark .atSign
  | '<' => .mark .less
  | '>' => .mark .greater
  | '=' => .mark .equals
  | '?' => .mark .question
  | _ => .operator

end Symbol

end MemberOrder
