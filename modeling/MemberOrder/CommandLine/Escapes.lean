/-! Text for a reader that is no terminal: escape sequences and control characters are left out,
line breaks and tabs stay. -/
namespace MemberOrder.CommandLine

inductive Escape
  | none
  /-- Directly behind the escape character. -/
  | begun
  /-- Ended by a letter, a digit or a sign other than the first sixteen. -/
  | intermediate
  /-- Ended by a letter or one of the signs among the letters. -/
  | control
  /-- The head of a device string, by what has been read of it. -/
  | device
  | deviceParameters
  | deviceIntermediate
  /-- Ended by a bell. -/
  | command
  /-- Ended by a string terminator. -/
  | string
  deriving DecidableEq, Repr

def hasTerminator (c : Char) : Bool :=
  (String.utf8EncodeChar c).contains 0x9C

namespace Escape

def ofIntroducer (c : Char) : Escape :=
  match c with
  | '[' => .control
  | ']' => .command
  | 'P' => .device
  | 'X' | '^' | '_' => .string
  | c =>
    if c < ' ' ∨ '~' < c then .begun
    else if c < '0' then .intermediate
    else .none

def next (e : Escape) (c : Char) : Escape :=
  match e with
  | .none => .none
  | .begun => ofIntroducer c
  | .intermediate => if '0' ≤ c ∧ c ≤ '~' then .none else .intermediate
  | .control => if '@' ≤ c ∧ c ≤ '~' then .none else .control
  | .device =>
    if c < ' ' ∨ '~' < c then .device
    else if c < '0' then .deviceIntermediate
    else if c < '@' then .deviceParameters
    else .string
  | .deviceParameters =>
    if c < ' ' ∨ '~' < c then .deviceParameters
    else if c < '0' then .deviceIntermediate
    else if c < '<' then .deviceParameters
    else .string
  | .deviceIntermediate => if '0' ≤ c ∧ c ≤ '~' then .string else .deviceIntermediate
  | .command => if c = '\x07' then .none else .command
  | .string => if hasTerminator c then .none else .string

/-- The escape character begins a sequence anywhere, and two others end any. -/
def after (e : Escape) (c : Char) : Escape :=
  if c = '\x1b' then .begun
  else if c = '\x18' ∨ c = '\x1a' then .none
  else e.next c

def letsLayoutThrough : Escape → Bool
  | .begun | .intermediate | .control => true
  | _ => false

end Escape

def isLayout (c : Char) : Bool :=
  c = '\t' || c = '\n' || c = '\x0c' || c = '\r'

def isWritten (c : Char) : Bool :=
  isLayout c || (' ' ≤ c && c ≠ '\x7f')

/-- A text from within the sequence `e`. Behind a line break or a tab that a sequence lets
through, `resumed`, text is written up to the next control character, and the sequence goes on
there, unless there was a character beyond ASCII in the text. -/
def plainFrom (e : Escape) (resumed : Bool) : List Char → List Char
  | [] => []
  | c :: s =>
    if resumed && isWritten c then c :: plainFrom (if '\x7f' < c then .none else e) true s
    else if (e = .none ∧ isWritten c) ∨ (e.letsLayoutThrough ∧ isLayout c) then
      c :: plainFrom e true s
    else plainFrom (e.after c) false s

def plain (text : String) : String :=
  String.ofList (plainFrom .none false text.toList)

end MemberOrder.CommandLine
