import MemberOrder.Text.Character
import MemberOrder.Token.Symbol
/-! Pieces: a text cut into stretches, those of tokens and those between them. No place occurs
here, so a piece depends on its own characters and on those behind it alone. Main statement: the
pieces, laid end to end, are the text (`scan_append`). -/
namespace MemberOrder

/-- A stretch of text. White space and comments have no symbol. -/
structure Piece where
  symbol : Option Symbol
  text : List Char
  deriving DecidableEq, Repr

inductive Construct
  | blockComment | textBlock | stringLiteral | characterLiteral
  deriving DecidableEq, Repr

def Construct.name : Construct → String
  | .blockComment => "block comment"
  | .textBlock => "text block"
  | .stringLiteral => "string literal"
  | .characterLiteral => "character literal"

/-- What a text begins with: a piece, or something never closed, with the characters read in
search of its end. -/
inductive Head
  | piece (p : Piece) (rest : List Char)
  | unterminated (what : Construct) (text : List Char)
  deriving DecidableEq, Repr

def isWordStart (c : Char) : Bool :=
  c = '_' || c = '$' || isLetter c

def isWordPart (c : Char) : Bool :=
  c = '_' || c = '$' || isLetter c || isNumeral c

def pushed {α : Type} (c : Char) (r : List Char × α) : List Char × α := (c :: r.1, r.2)

@[simp] theorem pushed_fst {α : Type} (c : Char) (r : List Char × α) :
    (pushed c r).1 = c :: r.1 := rfl

@[simp] theorem pushed_snd {α : Type} (c : Char) (r : List Char × α) : (pushed c r).2 = r.2 := rfl

theorem pushed_eq_iff {α : Type} {c : Char} {r : List Char × α} {u : List Char} {a : α} :
    pushed c r = (u, a) ↔ ∃ v, u = c :: v ∧ r = (v, a) := by
  obtain ⟨t, b⟩ := r
  simp only [pushed, Prod.mk.injEq]
  constructor
  · rintro ⟨rfl, rfl⟩
    exact ⟨t, rfl, rfl, rfl⟩
  · rintro ⟨v, rfl, rfl, rfl⟩
    exact ⟨rfl, rfl⟩

/-- A text up to and with the end of a block comment, and the rest if there is such an end. -/
def throughComment : List Char → List Char × Option (List Char)
  | [] => ([], none)
  | '*' :: '/' :: s => (['*', '/'], some s)
  | c :: s => pushed c (throughComment s)

def throughBlock : List Char → List Char × Option (List Char)
  | [] => ([], none)
  | '"' :: '"' :: '"' :: s => (['"', '"', '"'], some s)
  | '\\' :: c :: s => pushed '\\' (pushed c (throughBlock s))
  | c :: s => pushed c (throughBlock s)

/-- The same for a literal on one line. A line feed ends the search, unless a backslash took it
along. -/
def throughQuote (q : Char) : List Char → List Char × Option (List Char)
  | [] => ([], none)
  | '\\' :: c :: s => pushed '\\' (pushed c (throughQuote q s))
  | c :: s =>
    if c = '\n' then ([c], none)
    else if c = q then ([c], some s)
    else pushed c (throughQuote q s)

def isExponentMark (c : Char) : Bool :=
  c = 'e' || c = 'E' || c = 'p' || c = 'P'

/-- What continues a number whose last character is `last`. A sign does so behind an exponent
mark, but not in a hexadecimal number. -/
def numberTail (hex : Bool) : Char → List Char → List Char × List Char
  | _, [] => ([], [])
  | last, c :: s =>
    if c.isAlphanum || c = '_' || c = '.' ||
        ((c = '+' || c = '-') && isExponentMark last && !hex) then
      pushed c (numberTail hex c s)
    else ([], c :: s)

def sealedTail : List Char := ['-', 's', 'e', 'a', 'l', 'e', 'd']

namespace Head

def closed (symbol : Option Symbol) (what : Construct) (opened : List Char) :
    List Char × Option (List Char) → Head
  | (t, some rest) => .piece ⟨symbol, opened ++ t⟩ rest
  | (t, none) => .unterminated what (opened ++ t)

def slash : List Char → Head
  | '/' :: s => .piece ⟨none, '/' :: '/' :: s.takeWhile (· ≠ '\n')⟩ (s.dropWhile (· ≠ '\n'))
  | '*' :: s => closed none .blockComment ['/', '*'] (throughComment s)
  | s => .piece ⟨some .operator, ['/']⟩ s

def quote : List Char → Head
  | '"' :: '"' :: s => closed (some .string) .textBlock ['"', '"', '"'] (throughBlock s)
  | s => closed (some .string) .stringLiteral ['"'] (throughQuote '"' s)

def number (c : Char) (s : List Char) : Head :=
  let hex := c = '0' && (s.head? = some 'x' || s.head? = some 'X')
  let r := numberTail hex c s
  .piece ⟨some .number, c :: r.1⟩ r.2

/-- A word is as long as it can be. `non` is one word with a `-sealed` right behind it. -/
def word (c : Char) (s : List Char) : Head :=
  let w := c :: s.takeWhile isWordPart
  let rest := s.dropWhile isWordPart
  if w = ['n', 'o', 'n'] ∧ sealedTail.isPrefixOf rest then
    .piece ⟨some (.keyword (.modifier .nonSealed)), w ++ sealedTail⟩ (rest.drop sealedTail.length)
  else .piece ⟨some (.ofWord (String.ofList w)), w⟩ rest

def of (c : Char) (s : List Char) : Head :=
  if isBlank c then .piece ⟨none, [c]⟩ s
  else if c = '/' then slash s
  else if c = '"' then quote s
  else if c = '\'' then closed (some .character) .characterLiteral ['\''] (throughQuote '\'' s)
  else if c.isDigit || (c = '.' && s.head?.any Char.isDigit) then number c s
  else if isWordStart c then word c s
  else .piece ⟨some (.ofSign c), [c]⟩ s

def CutFrom (whole : List Char) : Head → Prop
  | .piece p rest => p.text ++ rest = whole ∧ p.text ≠ []
  | .unterminated _ text => text <+: whole ∧ text ≠ []

theorem closed_cutFrom {symbol what opened t} {r : List Char × Option (List Char)}
    (ho : opened ≠ []) (h : ∀ rest, r.2 = some rest → r.1 ++ rest = t) (hn : r.1 <+: t) :
    (closed symbol what opened r).CutFrom (opened ++ t) := by
  obtain ⟨u, rest | rest⟩ := r
  · exact ⟨List.prefix_append_right_inj opened |>.2 hn, by simp [ho]⟩
  · exact ⟨by simp [← h rest rfl], by simp [ho]⟩

theorem throughComment_append (s : List Char) :
    (∀ rest, (throughComment s).2 = some rest → (throughComment s).1 ++ rest = s) ∧
      (throughComment s).1 <+: s := by
  fun_induction throughComment s with
  | case1 => simp
  | case2 => simp
  | case3 c s _ ih => exact ⟨fun rest h => by simp [ih.1 rest h], by simpa using ih.2⟩

theorem throughBlock_append (s : List Char) :
    (∀ rest, (throughBlock s).2 = some rest → (throughBlock s).1 ++ rest = s) ∧
      (throughBlock s).1 <+: s := by
  fun_induction throughBlock s with
  | case1 => simp
  | case2 => simp
  | case3 c s ih => exact ⟨fun rest h => by simp [ih.1 rest h], by simpa using ih.2⟩
  | case4 c s _ _ ih => exact ⟨fun rest h => by simp [ih.1 rest h], by simpa using ih.2⟩

theorem throughQuote_append (q : Char) (s : List Char) :
    (∀ rest, (throughQuote q s).2 = some rest → (throughQuote q s).1 ++ rest = s) ∧
      (throughQuote q s).1 <+: s := by
  fun_induction throughQuote q s with
  | case1 => simp
  | case2 c s ih => exact ⟨fun rest h => by simp [ih.1 rest h], by simpa using ih.2⟩
  | case3 => simp
  | case4 => simp
  | case5 c s _ _ _ ih => exact ⟨fun rest h => by simp [ih.1 rest h], by simpa using ih.2⟩

theorem numberTail_append (hex : Bool) (last : Char) (s : List Char) :
    (numberTail hex last s).1 ++ (numberTail hex last s).2 = s := by
  fun_induction numberTail hex last s <;> simp_all

theorem word_cutFrom (c : Char) (s : List Char) : (word c s).CutFrom (c :: s) := by
  unfold word
  dsimp only
  split
  next h =>
    refine ⟨?_, by simp⟩
    obtain ⟨rest, hr⟩ := List.isPrefixOf_iff_prefix.1 h.2
    rw [← hr, List.drop_left, List.append_assoc, hr, List.cons_append,
      List.takeWhile_append_dropWhile]
  next => exact ⟨by simp [List.takeWhile_append_dropWhile], by simp⟩

theorem of_cutFrom (c : Char) (s : List Char) : (of c s).CutFrom (c :: s) := by
  unfold of
  split
  · simp [CutFrom]
  split
  · subst c
    unfold slash
    split
    · simp [CutFrom, List.takeWhile_append_dropWhile]
    · exact closed_cutFrom (by simp) (throughComment_append _).1 (throughComment_append _).2
    · simp [CutFrom]
  split
  · subst c
    unfold quote
    split
    · exact closed_cutFrom (by simp) (throughBlock_append _).1 (throughBlock_append _).2
    · exact closed_cutFrom (by simp) (throughQuote_append _ _).1 (throughQuote_append _ _).2
  split
  · subst c
    exact closed_cutFrom (by simp) (throughQuote_append _ _).1 (throughQuote_append _ _).2
  split
  · exact ⟨by simp [numberTail_append], by simp⟩
  split
  · exact word_cutFrom c s
  · simp [CutFrom]

theorem append_of_piece {c : Char} {s : List Char} {p rest} (h : of c s = .piece p rest) :
    p.text ++ rest = c :: s ∧ p.text ≠ [] := by
  have hc := of_cutFrom c s
  rwa [h] at hc

theorem length_rest_lt {c : Char} {s : List Char} {p rest} (h : of c s = .piece p rest) :
    rest.length < (c :: s).length := by
  obtain ⟨happend, hne⟩ := append_of_piece h
  have hpos := List.length_pos_iff.2 hne
  rw [← happend, List.length_append]
  omega

end Head

/-- A text cut up: its pieces up to the first construct that is never closed, if there is one. -/
structure Pieces where
  pieces : List Piece
  open? : Option (Construct × List Char)
  deriving DecidableEq, Repr

def Pieces.cons (p : Piece) (r : Pieces) : Pieces := ⟨p :: r.pieces, r.open?⟩

def scan : List Char → Pieces
  | [] => ⟨[], none⟩
  | c :: s =>
    match _ : Head.of c s with
    | .piece p rest => (scan rest).cons p
    | .unterminated what text => ⟨[], some (what, text)⟩
termination_by s => s.length
decreasing_by exact Head.length_rest_lt ‹_›

def joined (ps : List Piece) : List Char :=
  ps.flatMap (·.text)

theorem scan_append (s : List Char) (h : (scan s).open? = none) : joined (scan s).pieces = s := by
  fun_induction scan s with
  | case1 => rfl
  | case2 c s p rest hp ih =>
    simp only [joined, Pieces.cons, List.flatMap_cons] at h ih ⊢
    rw [ih h, (Head.append_of_piece hp).1]
  | case3 => simp at h

end MemberOrder
