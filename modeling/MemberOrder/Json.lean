/-! JSON: values, reading and writing. The grammar is taken strictly: no comma behind the last item, no lone
surrogate, no control character in a string, nothing behind the value. Values are written an item a line, two
spaces to a level. -/
namespace MemberOrder

/-- A number is kept as it is written, and an object as the list of its fields, in order and with
repetitions. -/
inductive Json
  | null
  | bool (value : Bool)
  | number (text : List Char)
  | string (text : List Char)
  | array (items : List Json)
  | object (fields : List (List Char × Json))

namespace Json

def ofNat (n : Nat) : Json := .number (Nat.toDigits 10 n)

def ofString (s : String) : Json := .string s.toList

end Json

end MemberOrder

namespace MemberOrder.Json

def isSpace (c : Char) : Bool :=
  c = ' ' || c = '\t' || c = '\n' || c = '\r'

def skipSpace (s : List Char) : List Char :=
  s.dropWhile isSpace

def hexDigit? (c : Char) : Option Nat :=
  if '0' ≤ c ∧ c ≤ '9' then some (c.toNat - '0'.toNat)
  else if 'a' ≤ c ∧ c ≤ 'f' then some (c.toNat - 'a'.toNat + 10)
  else if 'A' ≤ c ∧ c ≤ 'F' then some (c.toNat - 'A'.toNat + 10)
  else none

def hexQuad? (a b c d : Char) : Option Nat := do
  return (((← hexDigit? a) * 16 + (← hexDigit? b)) * 16 + (← hexDigit? c)) * 16 + (← hexDigit? d)

def plainEscape? : Char → Option Char
  | '"' => some '"'
  | '\\' => some '\\'
  | '/' => some '/'
  | 'b' => some '\x08'
  | 'f' => some '\x0c'
  | 'n' => some '\n'
  | 'r' => some '\r'
  | 't' => some '\t'
  | _ => none

def isHighSurrogate (n : Nat) : Bool := 0xD800 ≤ n && n ≤ 0xDBFF

def isLowSurrogate (n : Nat) : Bool := 0xDC00 ≤ n && n ≤ 0xDFFF

/-- The character of a surrogate pair. -/
def pairedChar (high low : Nat) : Char :=
  Char.ofNat (0x10000 + (high - 0xD800) * 0x400 + (low - 0xDC00))

def withChar (c : Char) (r : Option (List Char × List Char)) : Option (List Char × List Char) :=
  r.map fun (t, rest) => (c :: t, rest)

def stringRest? : List Char → Option (List Char × List Char)
  | [] => none
  | '"' :: s => some ([], s)
  | '\\' :: 'u' :: a :: b :: c :: d :: s =>
    match hexQuad? a b c d with
    | none => none
    | some n =>
      if isHighSurrogate n then
        match s with
        | '\\' :: 'u' :: e :: f :: g :: h :: s' =>
          match hexQuad? e f g h with
          | some m => if isLowSurrogate m then withChar (pairedChar n m) (stringRest? s') else none
          | none => none
        | _ => none
      else if isLowSurrogate n then none
      else withChar (Char.ofNat n) (stringRest? s)
  | '\\' :: c :: s =>
    match plainEscape? c with
    | some e => withChar e (stringRest? s)
    | none => none
  | c :: s => if c.toNat < 0x20 then none else withChar c (stringRest? s)

def digits? (s : List Char) : Option (List Char × List Char) :=
  if (s.takeWhile Char.isDigit).isEmpty then none
  else some (s.takeWhile Char.isDigit, s.dropWhile Char.isDigit)

/-- The digits before the point. None follow a leading zero. -/
def whole? : List Char → Option (List Char × List Char)
  | '0' :: s => some (['0'], s)
  | s => digits? s

def fraction? : List Char → Option (List Char × List Char)
  | '.' :: s => (digits? s).map fun (t, rest) => ('.' :: t, rest)
  | s => some ([], s)

def exponent? : List Char → Option (List Char × List Char)
  | e :: s =>
    if e = 'e' ∨ e = 'E' then
      match s with
      | sign :: s' =>
        if sign = '+' ∨ sign = '-' then (digits? s').map fun (t, rest) => (e :: sign :: t, rest)
        else (digits? s).map fun (t, rest) => (e :: t, rest)
      | [] => none
    else some ([], e :: s)
  | [] => some ([], [])

def unsigned? (s : List Char) : Option (List Char × List Char) := do
  let (a, s) ← whole? s
  let (b, s) ← fraction? s
  let (c, s) ← exponent? s
  return (a ++ b ++ c, s)

def number? : List Char → Option (List Char × List Char)
  | '-' :: s => (unsigned? s).map fun (t, rest) => ('-' :: t, rest)
  | s => unsigned? s

variable {α : Type}

def items? (item? : List Char → Option (α × List Char)) (close : Char) (s : List Char) :
    Option (List α × List Char) :=
  match item? s with
  | none => none
  | some (a, rest) =>
    match skipSpace rest with
    | [] => none
    | c :: t =>
      if c = close then some ([a], t)
      else if c = ',' ∧ (skipSpace t).length < s.length then
        match items? item? close (skipSpace t) with
        | some (as, t') => some (a :: as, t')
        | none => none
      else none
termination_by s.length
decreasing_by rename_i h; exact h.2

def list? (item? : List Char → Option (α × List Char)) (close : Char) (s : List Char) :
    Option (List α × List Char) :=
  match skipSpace s with
  | c :: t => if c = close then some ([], t) else items? item? close (c :: t)
  | [] => none

def field? (value? : List Char → Option (α × List Char)) :
    List Char → Option ((List Char × α) × List Char)
  | '"' :: s =>
    match stringRest? s with
    | none => none
    | some (name, rest) =>
      match skipSpace rest with
      | ':' :: t => (value? (skipSpace t)).map fun (v, t') => ((name, v), t')
      | _ => none
  | _ => none

def value? : Nat → List Char → Option (Json × List Char)
  | 0, _ => none
  | _, 'n' :: 'u' :: 'l' :: 'l' :: s => some (.null, s)
  | _, 't' :: 'r' :: 'u' :: 'e' :: s => some (.bool true, s)
  | _, 'f' :: 'a' :: 'l' :: 's' :: 'e' :: s => some (.bool false, s)
  | _, '"' :: s => (stringRest? s).map fun (t, rest) => (.string t, rest)
  | depth + 1, '[' :: s => (list? (value? depth) ']' s).map fun (vs, t) => (.array vs, t)
  | depth + 1, '{' :: s => (list? (field? (value? depth)) '}' s).map fun (fs, t) => (.object fs, t)
  | _, s => (number? s).map fun (t, rest) => (.number t, rest)

/-- A text that is one value, nested to less than 128 levels. -/
def read? (s : List Char) : Option Json :=
  match value? 128 (skipSpace s) with
  | some (v, rest) => if (skipSpace rest).isEmpty then some v else none
  | none => none

/-! Writing. -/

def hexDigit (n : Nat) : Char :=
  if n < 10 then Char.ofNat ('0'.toNat + n) else Char.ofNat ('a'.toNat + (n - 10))

def escaped (c : Char) : List Char :=
  if c = '"' then ['\\', '"']
  else if c = '\\' then ['\\', '\\']
  else if c = '\x08' then ['\\', 'b']
  else if c = '\x0c' then ['\\', 'f']
  else if c = '\n' then ['\\', 'n']
  else if c = '\r' then ['\\', 'r']
  else if c = '\t' then ['\\', 't']
  else if c.toNat < 0x20 then
    ['\\', 'u', '0', '0', hexDigit (c.toNat / 16), hexDigit (c.toNat % 16)]
  else [c]

def writeString (s : List Char) : List Char :=
  '"' :: (s.flatMap escaped ++ ['"'])

def newline (level : Nat) : List Char :=
  '\n' :: List.replicate (2 * level) ' '

mutual

def write (level : Nat) : Json → List Char
  | .null => ['n', 'u', 'l', 'l']
  | .bool true => ['t', 'r', 'u', 'e']
  | .bool false => ['f', 'a', 'l', 's', 'e']
  | .number text => text
  | .string text => writeString text
  | .array [] => ['[', ']']
  | .array (v :: vs) =>
    '[' :: (newline (level + 1) ++ write (level + 1) v ++ writeMore (level + 1) vs ++
      newline level ++ [']'])
  | .object [] => ['{', '}']
  | .object ((name, v) :: fs) =>
    '{' :: (newline (level + 1) ++ writeString name ++ [':', ' '] ++ write (level + 1) v ++
      writeMoreFields (level + 1) fs ++ newline level ++ ['}'])

def writeMore (level : Nat) : List Json → List Char
  | [] => []
  | v :: vs => ',' :: (newline level ++ write level v ++ writeMore level vs)

def writeMoreFields (level : Nat) : List (List Char × Json) → List Char
  | [] => []
  | (name, v) :: fs =>
    ',' :: (newline level ++ writeString name ++ [':', ' '] ++ write level v ++
      writeMoreFields level fs)

end

end MemberOrder.Json
