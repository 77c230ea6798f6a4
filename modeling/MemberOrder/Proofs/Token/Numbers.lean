import MemberOrder.Proofs.Token.Seam
/-! Numbers, as the language writes them, and how far each is read. A sign goes on with a number behind an
exponent mark only, and never with one that begins `0x`. So a number is one token, whatever its radix, its
underscores and its suffix, but for the sign that a hexadecimal number has in its exponent. Main statement:
`numbers_whole`. -/
namespace MemberOrder

/-! Texts that are read as far as they go. -/

def isNumberPart (c : Char) : Bool := c.isAlphanum || c = '_' || c = '.'

def startsNumber : List Char → Bool
  | [] => false
  | c :: s => c.isDigit || c = '.' && s.head?.any Char.isDigit

def isHexadecimal : List Char → Bool
  | [] => false
  | c :: s => c = '0' && (s.head? = some 'x' || s.head? = some 'X')

/-- Behind `last`, each character of the text goes on with the number. -/
def GoesAlong (hex : Bool) : Char → List Char → Prop
  | _, [] => True
  | last, c :: s => continuesNumber hex last c ∧ GoesAlong hex c s

structure ReadsOn (w : List Char) : Prop where
  starts : startsNumber w
  along : GoesAlong (isHexadecimal w) ' ' w

section

variable {hex : Bool} {last c : Char} {s u v w t : List Char}

theorem continues_of_isNumberPart (h : isNumberPart c) : continuesNumber hex last c := by
  simp only [isNumberPart] at h
  simp [continuesNumber, h]

theorem continues_sign (hc : c = '+' ∨ c = '-') :
    continuesNumber hex last c = (isExponentMark last && !hex) := by
  obtain rfl | rfl := hc <;> simp [continuesNumber]

theorem goesAlong_of_parts (h : ∀ a ∈ s, isNumberPart a) : GoesAlong hex last s := by
  induction s generalizing last with
  | nil => trivial
  | cons a s ih =>
    exact ⟨continues_of_isNumberPart (h a List.mem_cons_self), ih fun b hb => h b (List.mem_cons_of_mem a hb)⟩

theorem goesAlong_append : GoesAlong hex last (u ++ v) ↔
    GoesAlong hex last u ∧ GoesAlong hex (u.getLastD last) v := by
  induction u generalizing last with
  | nil => simp [GoesAlong]
  | cons a u ih => rw [List.cons_append, GoesAlong, GoesAlong, ih, List.getLastD_cons, and_assoc]

theorem numberTail_along (h : GoesAlong hex last u) :
    numberTail hex last (u ++ t) = (u, t) ↔ t.head?.any (continuesNumber hex (u.getLastD last)) = false := by
  induction u generalizing last with
  | nil => exact numberTail_stops_iff
  | cons a u ih =>
    obtain ⟨ha, hu⟩ := h
    have hstep : numberTail hex last (a :: (u ++ t)) = pushed a (numberTail hex a (u ++ t)) := if_pos ha
    rw [List.cons_append, hstep, List.getLastD_cons, ← ih hu, pushed_eq_iff]
    simp

theorem startsNumber_append (h : startsNumber w) (t : List Char) : startsNumber (w ++ t) := by
  match w with
  | [] => cases h
  | [c] =>
    have hc : c.isDigit := by simpa [startsNumber] using h
    simp [startsNumber, hc]
  | c :: a :: s => exact h

theorem isHexadecimal_append (hw : w ≠ []) (ht : t.head?.any isNumberPart = false) :
    isHexadecimal (w ++ t) = isHexadecimal w := by
  match w with
  | [] => exact absurd rfl hw
  | [c] =>
    have hnot (x : Char) (hx : isNumberPart x) : t.head? ≠ some x := by
      intro hhead
      simp [hhead, hx] at ht
    have hlower := hnot 'x' (by decide)
    have hupper := hnot 'X' (by decide)
    simp [isHexadecimal, hlower, hupper]
  | c :: a :: s => rfl

theorem isHexadecimal_of_not_mem (h : ∀ a ∈ w, a ≠ 'x' ∧ a ≠ 'X') : isHexadecimal w = false := by
  match w with
  | [] => rfl
  | [c] => simp [isHexadecimal]
  | c :: a :: s =>
    have ha := h a (by simp)
    simp [isHexadecimal, ha.1, ha.2]

theorem Head.of_number (h : startsNumber (c :: s)) : of c s = number c s := by
  have hdigit : c.isDigit || c = '.' && s.head?.any Char.isDigit := h
  have hblank : isBlank c = false := by
    rw [← Bool.not_eq_true]
    intro hc
    obtain ⟨-, hdot⟩ := not_joins_of_isBlank hc
    have hnone : c.isDigit = false := not_isDigit_of_isBlank hc
    simp only [hnone, Bool.false_or, Bool.and_eq_true, decide_eq_true_eq] at hdigit
    exact hdot (by simp [joining, hdigit.1])
  have hne (a : Char) (ha : a.isDigit = false) (hdot : a ≠ '.') : c ≠ a := by
    rintro rfl
    simp [ha, hdot] at hdigit
  unfold of
  rw [if_neg (by simp [hblank]), if_neg (hne '/' rfl (by decide)), if_neg (hne '"' rfl (by decide)),
    if_neg (hne '\'' rfl (by decide)), if_pos hdigit]

theorem scan_readsOn (h : ReadsOn w)
    (ht : t.head?.any (continuesNumber (isHexadecimal w) (w.getLastD ' ')) = false) :
    scan (w ++ t) = (scan t).cons ⟨some .number, w⟩ := by
  obtain ⟨hstarts, halong⟩ := h
  cases w with
  | nil => cases hstarts
  | cons c s =>
    have hpart : t.head?.any isNumberPart = false := by
      rw [Option.any_eq_false] at ht ⊢
      intro a ha
      by_contra hpart
      have hnot := ht a ha
      rw [continues_of_isNumberPart (by simpa using hpart)] at hnot
      cases hnot
    have hhex : isHexadecimal (c :: (s ++ t)) = isHexadecimal (c :: s) :=
      isHexadecimal_append (List.cons_ne_nil c s) hpart
    have htail : numberTail (isHexadecimal (c :: (s ++ t))) c (s ++ t) = (s, t) := by
      rw [List.getLastD_cons] at ht
      rw [hhex]
      exact (numberTail_along halong.2).2 ht
    have hnumber : Head.number c (s ++ t) =
        .piece ⟨some .number, c :: (numberTail (isHexadecimal (c :: (s ++ t))) c (s ++ t)).1⟩
          (numberTail (isHexadecimal (c :: (s ++ t))) c (s ++ t)).2 := rfl
    have hstarts : startsNumber (c :: (s ++ t)) := startsNumber_append hstarts t
    have hhead : Head.of c (s ++ t) = .piece ⟨some .number, c :: s⟩ t := by
      rw [Head.of_number hstarts, hnumber, htail]
    exact scan_of_piece hhead

theorem readsOn_of_parts (hw : startsNumber w) (h : ∀ a ∈ w, isNumberPart a) : ReadsOn w :=
  ⟨hw, goesAlong_of_parts h⟩

theorem readsOn_signed (hu : ReadsOn u) (hhex : isHexadecimal u = false)
    (hmark : isExponentMark (u.getLastD ' ')) (hc : c = '+' ∨ c = '-') (hv : ∀ a ∈ v, isNumberPart a) :
    ReadsOn (u ++ c :: v) := by
  have hne : u ≠ [] := by
    rintro rfl
    cases hu.starts
  have hpart : (c :: v).head?.any isNumberPart = false := by
    obtain rfl | rfl := hc <;> rfl
  have hsign : continuesNumber false (u.getLastD ' ') c := by
    rw [continues_sign hc, hmark]
    rfl
  have halong := hu.along
  rw [hhex] at halong
  refine ⟨startsNumber_append hu.starts (c :: v), ?_⟩
  rw [isHexadecimal_append hne hpart, hhex, goesAlong_append]
  exact ⟨halong, hsign, goesAlong_of_parts hv⟩

end

/-! Numbers as they are written. -/

namespace Number

inductive Radix
  | binary | octal | decimal | hexadecimal
  deriving DecidableEq

def Radix.isDigit : Radix → Char → Bool
  | .binary, c => c = '0' || c = '1'
  | .octal, c => '0' ≤ c && c ≤ '7'
  | .decimal, c => c.isDigit
  | .hexadecimal, c => c.isDigit || 'a' ≤ c && c ≤ 'f' || 'A' ≤ c && c ≤ 'F'

structure Digits (r : Radix) where
  text : List Char
  allowed : ∀ c ∈ text, r.isDigit c ∨ c = '_'
  first : text.head?.any r.isDigit
  last : text.getLast?.any r.isDigit

inductive Sign
  | plus | minus

def Sign.char : Sign → Char
  | plus => '+'
  | minus => '-'

theorem Sign.char_eq (sign : Sign) : sign.char = '+' ∨ sign.char = '-' := by
  cases sign
  · exact .inl rfl
  · exact .inr rfl

inductive Letter
  | small | large

def Letter.among (small large : Char) : Letter → Char
  | .small => small
  | .large => large

inductive Whole
  | zero
  | decimal (digits : Digits .decimal) (nonzero : digits.text.head? ≠ some '0')
  | octal (underscores : Nat) (digits : Digits .octal)
  | hexadecimal (mark : Letter) (digits : Digits .hexadecimal)
  | binary (mark : Letter) (digits : Digits .binary)

def Whole.text : Whole → List Char
  | zero => ['0']
  | decimal digits _ => digits.text
  | octal underscores digits => '0' :: (List.replicate underscores '_' ++ digits.text)
  | hexadecimal mark digits => '0' :: mark.among 'x' 'X' :: digits.text
  | binary mark digits => '0' :: mark.among 'b' 'B' :: digits.text

structure Integer where
  whole : Whole
  long? : Option Letter

def Integer.text (i : Integer) : List Char :=
  i.whole.text ++ (i.long?.map (Letter.among 'l' 'L')).toList

structure Exponent where
  mark : Letter
  sign? : Option Sign
  digits : Digits .decimal

structure Suffix where
  double : Bool
  letter : Letter

def Suffix.char (x : Suffix) : Char :=
  if x.double then x.letter.among 'd' 'D' else x.letter.among 'f' 'F'

def suffixText (suffix? : Option Suffix) : List Char := (suffix?.map Suffix.char).toList

def signText (sign? : Option Sign) : List Char := (sign?.map Sign.char).toList

def exponentText (exponent? : Option Exponent) : List Char :=
  exponent?.elim [] fun e => e.mark.among 'e' 'E' :: (signText e.sign? ++ e.digits.text)

/-- A decimal floating-point number. What has no point has an exponent or a suffix. -/
inductive Decimal
  | pointed (whole : Digits .decimal) (fraction? : Option (Digits .decimal)) (exponent? : Option Exponent)
      (suffix? : Option Suffix)
  | fraction (digits : Digits .decimal) (exponent? : Option Exponent) (suffix? : Option Suffix)
  | scaled (whole : Digits .decimal) (exponent : Exponent) (suffix? : Option Suffix)
  | suffixed (whole : Digits .decimal) (suffix : Suffix)

def Decimal.text : Decimal → List Char
  | pointed whole fraction? exponent? suffix? =>
    whole.text ++ '.' :: fraction?.elim [] Digits.text ++ (exponentText exponent? ++ suffixText suffix?)
  | fraction digits exponent? suffix? =>
    '.' :: digits.text ++ (exponentText exponent? ++ suffixText suffix?)
  | scaled whole exponent suffix? => whole.text ++ (exponentText (some exponent) ++ suffixText suffix?)
  | suffixed whole suffix => whole.text ++ (exponentText none ++ suffixText (some suffix))

/-- A hexadecimal number up to its exponent, from behind `0x` on. -/
inductive Significand
  | whole (digits : Digits .hexadecimal) (point : Bool)
  | pointed (whole? : Option (Digits .hexadecimal)) (fraction : Digits .hexadecimal)

def Significand.text : Significand → List Char
  | whole digits point => digits.text ++ if point then ['.'] else []
  | pointed whole? fraction => whole?.elim [] Digits.text ++ '.' :: fraction.text

/-- A hexadecimal floating-point number. It always has an exponent. -/
structure Hexadecimal where
  mark : Letter
  significand : Significand
  exponent : Exponent
  suffix? : Option Suffix

namespace Hexadecimal

def front (h : Hexadecimal) : List Char :=
  '0' :: h.mark.among 'x' 'X' :: (h.significand.text ++ [h.exponent.mark.among 'p' 'P'])

def back (h : Hexadecimal) : List Char := h.exponent.digits.text ++ suffixText h.suffix?

def text (h : Hexadecimal) : List Char := h.front ++ (signText h.exponent.sign? ++ h.back)

end Hexadecimal

end Number

inductive Number
  | integer (i : Number.Integer)
  | decimal (d : Number.Decimal)
  | hexadecimal (h : Number.Hexadecimal)

namespace Number

def text : Number → List Char
  | integer i => i.text
  | decimal d => d.text
  | hexadecimal h => h.text

def around? : Number → Option (List Char × Sign × List Char)
  | hexadecimal h => h.exponent.sign?.map fun sign => (h.front, sign, h.back)
  | _ => none

/-! How they are read. -/

def isQuiet (c : Char) : Bool := isNumberPart c && !isExponentMark c && c ≠ 'x' && c ≠ 'X'

section

variable {r : Radix} {c : Char} {u w : List Char}

theorem isNumberPart_of_isQuiet (h : isQuiet c) : isNumberPart c := by
  simp only [isQuiet, Bool.and_eq_true] at h
  exact h.1.1.1

theorem isQuiet_of_isDigit (h : c.isDigit) : isQuiet c := by
  have hne (a : Char) (ha : a.isDigit = false) : c ≠ a := by
    rintro rfl
    rw [ha] at h
    cases h
  simp [isQuiet, isNumberPart, isExponentMark, Char.isAlphanum, h, hne]

theorem Radix.isDigit_of_isDigit (hr : r ≠ .hexadecimal) (h : r.isDigit c) : c.isDigit := by
  cases r with
  | binary =>
    obtain rfl | rfl : c = '0' ∨ c = '1' := by simpa [Radix.isDigit] using h
    all_goals rfl
  | octal =>
    obtain ⟨hlow, hhigh⟩ : '0' ≤ c ∧ c ≤ '7' := by simpa [Radix.isDigit] using h
    have hnine : c ≤ '9' := Char.le_trans hhigh (by decide)
    simp only [Char.isDigit, Bool.and_eq_true, decide_eq_true_eq]
    exact ⟨hlow, hnine⟩
  | decimal => exact h
  | hexadecimal => exact absurd rfl hr

theorem Radix.isNumberPart_of_isDigit (h : r.isDigit c) : isNumberPart c := by
  by_cases hr : r = .hexadecimal
  · subst hr
    have hcases : c.isDigit ∨ ('a' ≤ c ∧ c ≤ 'f') ∨ 'A' ≤ c ∧ c ≤ 'F' := by
      simpa [Radix.isDigit, or_assoc] using h
    obtain hdigit | ⟨hlow, hhigh⟩ | ⟨hlow, hhigh⟩ := hcases
    · exact isNumberPart_of_isQuiet (isQuiet_of_isDigit hdigit)
    · have hz : c ≤ 'z' := Char.le_trans hhigh (by decide)
      have hlower : c.isLower := Bool.and_eq_true_iff.2 ⟨decide_eq_true hlow, decide_eq_true hz⟩
      have halpha : c.isAlpha := Bool.or_eq_true_iff.2 (.inr hlower)
      simp [isNumberPart, Char.isAlphanum, halpha]
    · have hz : c ≤ 'Z' := Char.le_trans hhigh (by decide)
      have hupper : c.isUpper := decide_eq_true ⟨hlow, hz⟩
      have halpha : c.isAlpha := Bool.or_eq_true_iff.2 (.inl hupper)
      simp [isNumberPart, Char.isAlphanum, halpha]
  · exact isNumberPart_of_isQuiet (isQuiet_of_isDigit (isDigit_of_isDigit hr h))

theorem Digits.parts (d : Digits r) : ∀ c ∈ d.text, isNumberPart c := by
  intro c hc
  obtain hdigit | rfl := d.allowed c hc
  · exact Radix.isNumberPart_of_isDigit hdigit
  · decide

theorem Digits.quiet (d : Digits r) (hr : r ≠ .hexadecimal) : ∀ c ∈ d.text, isQuiet c := by
  intro c hc
  obtain hdigit | rfl := d.allowed c hc
  · exact isQuiet_of_isDigit (Radix.isDigit_of_isDigit hr hdigit)
  · decide

theorem Digits.starts (d : Digits r) (hr : r ≠ .hexadecimal) : startsNumber d.text := by
  obtain ⟨c, hhead, hc⟩ := (Option.any_eq_true _ _).1 d.first
  obtain ⟨s, hs⟩ := List.head?_eq_some_iff.1 hhead
  simp [hs, startsNumber, Radix.isDigit_of_isDigit hr hc]

theorem suffixText_quiet (suffix? : Option Suffix) : ∀ c ∈ suffixText suffix?, isQuiet c := by
  intro c hc
  obtain ⟨x, -, rfl⟩ : ∃ x, x ∈ suffix? ∧ x.char = c := by simpa [suffixText] using hc
  obtain ⟨double, letter⟩ := x
  cases double <;> cases letter <;> decide

theorem Whole.starts (w : Whole) : startsNumber w.text := by
  cases w with
  | decimal digits => exact digits.starts (by decide)
  | _ => rfl

theorem Whole.quiet_or (w : Whole) : (∀ c ∈ w.text, isQuiet c) ∨
    (∀ t, isHexadecimal (w.text ++ t)) ∧ ∀ c ∈ w.text, isNumberPart c := by
  have hzero : isQuiet '0' := by decide
  cases w with
  | zero => exact .inl (by simpa [text] using hzero)
  | decimal digits => exact .inl (digits.quiet (by decide))
  | octal underscores digits =>
    left
    simp only [text, List.forall_mem_cons, List.forall_mem_append]
    refine ⟨hzero, fun c hc => ?_, digits.quiet (by decide)⟩
    rw [List.eq_of_mem_replicate hc]
    decide
  | hexadecimal mark digits =>
    right
    have hmark : isNumberPart (mark.among 'x' 'X') := by cases mark <;> decide
    simp only [text, List.forall_mem_cons]
    refine ⟨fun t => ?_, by decide, hmark, digits.parts⟩
    cases mark <;> rfl
  | binary mark digits =>
    left
    have hmark : isQuiet (mark.among 'b' 'B') := by cases mark <;> decide
    simp only [text, List.forall_mem_cons]
    exact ⟨hzero, hmark, digits.quiet (by decide)⟩

theorem Integer.quiet_or (i : Integer) : (∀ c ∈ i.text, isQuiet c) ∨
    isHexadecimal i.text ∧ ∀ c ∈ i.text, isNumberPart c := by
  have hlong : ∀ c ∈ (i.long?.map (Letter.among 'l' 'L')).toList, isQuiet c := by
    intro c hc
    obtain ⟨letter, -, rfl⟩ : ∃ letter, letter ∈ i.long? ∧ letter.among 'l' 'L' = c := by simpa using hc
    cases letter <;> decide
  obtain hquiet | ⟨hhex, hparts⟩ := i.whole.quiet_or
  · exact .inl (List.forall_mem_append.2 ⟨hquiet, hlong⟩)
  · exact .inr ⟨hhex _, List.forall_mem_append.2
      ⟨hparts, fun c hc => isNumberPart_of_isQuiet (hlong c hc)⟩⟩

theorem Integer.readsOn (i : Integer) : ReadsOn i.text := by
  apply readsOn_of_parts (startsNumber_append i.whole.starts _)
  obtain hquiet | ⟨-, hparts⟩ := i.quiet_or
  · exact fun c hc => isNumberPart_of_isQuiet (hquiet c hc)
  · exact hparts

theorem Integer.stops (i : Integer) (sign : Sign) :
    continuesNumber (isHexadecimal i.text) (i.text.getLastD ' ') sign.char = false := by
  rw [continues_sign sign.char_eq]
  obtain hquiet | ⟨hhex, -⟩ := i.quiet_or
  · have hmem : i.text.getLastD ' ' ∈ i.text := by
      have hstarts := i.readsOn.starts
      cases htext : i.text with
      | nil => simp [htext, startsNumber] at hstarts
      | cons c s =>
        rw [List.getLastD_cons]
        exact List.getLastD_mem_cons
    have hlast := hquiet _ hmem
    simp only [isQuiet, Bool.and_eq_true, Bool.not_eq_true'] at hlast
    rw [hlast.1.1.2, Bool.false_and]
  · rw [hhex, Bool.not_true, Bool.and_false]

theorem readsOn_scaled (hu : startsNumber u) (hquiet : ∀ c ∈ u, isQuiet c) (exponent? : Option Exponent)
    (suffix? : Option Suffix) : ReadsOn (u ++ (exponentText exponent? ++ suffixText suffix?)) := by
  have hparts : ∀ c ∈ u, isNumberPart c := fun c hc => isNumberPart_of_isQuiet (hquiet c hc)
  have hsuffix : ∀ c ∈ suffixText suffix?, isNumberPart c :=
    fun c hc => isNumberPart_of_isQuiet (suffixText_quiet suffix? c hc)
  cases exponent? with
  | none => exact readsOn_of_parts (startsNumber_append hu _) (List.forall_mem_append.2 ⟨hparts, hsuffix⟩)
  | some e =>
    obtain ⟨mark, sign?, digits⟩ := e
    have hmark : isNumberPart (mark.among 'e' 'E') := by cases mark <;> decide
    have hback : ∀ c ∈ digits.text ++ suffixText suffix?, isNumberPart c :=
      List.forall_mem_append.2 ⟨digits.parts, hsuffix⟩
    cases sign? with
    | none =>
      refine readsOn_of_parts (startsNumber_append hu _) (List.forall_mem_append.2 ⟨hparts, ?_⟩)
      exact List.forall_mem_cons.2 ⟨hmark, hback⟩
    | some sign =>
      have hexponent : isExponentMark (mark.among 'e' 'E') := by cases mark <;> decide
      have hfront : ReadsOn (u ++ [mark.among 'e' 'E']) := readsOn_of_parts (startsNumber_append hu _)
        (List.forall_mem_append.2 ⟨hparts, List.forall_mem_singleton.2 hmark⟩)
      have hhex : isHexadecimal (u ++ [mark.among 'e' 'E']) = false := by
        refine isHexadecimal_of_not_mem (List.forall_mem_append.2 ⟨fun c hc => ?_, ?_⟩)
        · have hc := hquiet c hc
          simp only [isQuiet, Bool.and_eq_true, decide_eq_true_eq] at hc
          exact ⟨hc.1.2, hc.2⟩
        · cases mark <;> simp [Letter.among]
      have hlast : isExponentMark ((u ++ [mark.among 'e' 'E']).getLastD ' ') := by
        rwa [List.getLastD_concat]
      have hsigned := readsOn_signed hfront hhex hlast sign.char_eq hback
      rwa [List.append_assoc] at hsigned

theorem Decimal.readsOn (d : Decimal) : ReadsOn d.text := by
  have hdecimal (digits : Digits .decimal) : ∀ c ∈ digits.text, isQuiet c := digits.quiet (by decide)
  have hdot : isQuiet '.' := by decide
  cases d with
  | pointed whole fraction? exponent? suffix? =>
    refine readsOn_scaled (startsNumber_append (whole.starts (by decide)) _) ?_ exponent? suffix?
    refine List.forall_mem_append.2 ⟨hdecimal whole, List.forall_mem_cons.2 ⟨hdot, ?_⟩⟩
    cases fraction? with
    | none => simp
    | some fraction => exact hdecimal fraction
  | fraction digits exponent? suffix? =>
    have hfirst : digits.text.head?.any Char.isDigit := digits.first
    have hstarts : startsNumber ('.' :: digits.text) := by simp [startsNumber, hfirst]
    exact readsOn_scaled hstarts (List.forall_mem_cons.2 ⟨hdot, hdecimal digits⟩) exponent? suffix?
  | scaled whole exponent suffix? =>
    exact readsOn_scaled (whole.starts (by decide)) (hdecimal whole) (some exponent) suffix?
  | suffixed whole suffix =>
    exact readsOn_scaled (whole.starts (by decide)) (hdecimal whole) none (some suffix)

theorem Significand.parts (x : Significand) : ∀ c ∈ x.text, isNumberPart c := by
  have hdot : isNumberPart '.' := by decide
  cases x with
  | whole digits point =>
    refine List.forall_mem_append.2 ⟨digits.parts, ?_⟩
    cases point
    · simp
    · simpa using hdot
  | pointed whole? fraction =>
    refine List.forall_mem_append.2 ⟨?_, List.forall_mem_cons.2 ⟨hdot, fraction.parts⟩⟩
    cases whole? with
    | none => simp
    | some whole => exact whole.parts

namespace Hexadecimal

variable (h : Hexadecimal)

theorem isHexadecimal_front (t : List Char) : isHexadecimal (h.front ++ t) := by
  obtain ⟨mark, significand, exponent, suffix?⟩ := h
  cases mark <;> rfl

theorem front_parts : ∀ c ∈ h.front, isNumberPart c := by
  have hmark : isNumberPart (h.mark.among 'x' 'X') := by cases h.mark <;> decide
  have hexponent : isNumberPart (h.exponent.mark.among 'p' 'P') := by cases h.exponent.mark <;> decide
  simp only [front, List.forall_mem_cons, List.forall_mem_append]
  exact ⟨by decide, hmark, h.significand.parts, hexponent, by simp⟩

theorem back_parts : ∀ c ∈ h.back, isNumberPart c :=
  List.forall_mem_append.2 ⟨h.exponent.digits.parts,
    fun c hc => isNumberPart_of_isQuiet (suffixText_quiet h.suffix? c hc)⟩

theorem front_readsOn : ReadsOn h.front := readsOn_of_parts rfl h.front_parts

theorem back_readsOn : ReadsOn h.back :=
  readsOn_of_parts (startsNumber_append (h.exponent.digits.starts (by decide)) _) h.back_parts

theorem readsOn (hsign : h.exponent.sign? = none) : ReadsOn h.text := by
  refine readsOn_of_parts (startsNumber_append rfl _) ?_
  rw [text, hsign]
  exact List.forall_mem_append.2 ⟨h.front_parts, h.back_parts⟩

theorem front_stops (sign : Sign) :
    continuesNumber (isHexadecimal h.front) (h.front.getLastD ' ') sign.char = false := by
  have hhex := h.isHexadecimal_front []
  rw [List.append_nil] at hhex
  rw [continues_sign sign.char_eq, hhex, Bool.not_true, Bool.and_false]

end Hexadecimal

end

end Number

/-! The tokens. -/

def Piece.number (w : List Char) : Piece := ⟨some .number, w⟩

def Number.Sign.piece (sign : Number.Sign) : Piece := ⟨some .operator, [sign.char]⟩

theorem scan_number {w : List Char} (h : ReadsOn w) : scan w = ⟨[.number w], none⟩ := by
  have hscan : scan (w ++ []) = (scan []).cons ⟨some .number, w⟩ := scan_readsOn h rfl
  rwa [List.append_nil, scan_nil] at hscan

theorem scan_sign (sign : Number.Sign) (s : List Char) : scan (sign.char :: s) = (scan s).cons sign.piece := by
  cases sign <;> exact scan_of_piece rfl

theorem scan_signed {u v : List Char} (hu : ReadsOn u) (hv : ReadsOn v) (sign : Number.Sign)
    (hstop : continuesNumber (isHexadecimal u) (u.getLastD ' ') sign.char = false) :
    scan (u ++ sign.char :: v) = ⟨[.number u, sign.piece, .number v], none⟩ := by
  have hscan : scan (u ++ sign.char :: v) = (scan (sign.char :: v)).cons (.number u) :=
    scan_readsOn hu (by simpa using hstop)
  rw [hscan, scan_sign, scan_number hv]
  rfl

namespace Number

def pieces (n : Number) : List Piece :=
  match n.around? with
  | none => [.number n.text]
  | some (front, sign, back) => [.number front, sign.piece, .number back]

theorem tokenize_eq (n : Number) : tokenize n.text = .ok (.ofPieces n.pieces) := by
  refine (tokenize_of_pieces ?_).1
  cases n with
  | integer i => exact scan_number i.readsOn
  | decimal d => exact scan_number d.readsOn
  | hexadecimal h =>
    cases hsign : h.exponent.sign? with
    | none =>
      have hpieces : (hexadecimal h).pieces = [.number h.text] := by simp [pieces, around?, hsign, text]
      rw [hpieces]
      exact scan_number (h.readsOn hsign)
    | some sign =>
      have hpieces : (hexadecimal h).pieces = [.number h.front, sign.piece, .number h.back] := by
        simp [pieces, around?, hsign]
      have htext : (hexadecimal h).text = h.front ++ sign.char :: h.back := by
        simp [text, Hexadecimal.text, signText, hsign]
      rw [hpieces, htext]
      exact scan_signed h.front_readsOn h.back_readsOn sign (h.front_stops sign)

theorem around?_of_ofPieces {n : Number} (h : Tokens.ofPieces n.pieces = .ofPieces [.number n.text]) :
    n.around? = none := by
  cases haround : n.around? with
  | none => rfl
  | some parts =>
    have hlen := congrArg (fun ts => ts.list.length) h
    simp [pieces, haround, Tokens.ofPieces, tokensFrom, Piece.number, Sign.piece] at hlen

end Number

/-- A number is one token, unless it has a sign in a hexadecimal exponent, which is then taken for an operator
between two numbers. A sign between two integers is never part of the first, also where that is hexadecimal and
ends with an `e`. -/
theorem numbers_whole (n : Number) (i j : Number.Integer) (sign : Number.Sign) :
    tokenize n.text = .ok (.ofPieces n.pieces) ∧
      (tokenize n.text = .ok (.ofPieces [.number n.text]) ↔ n.around? = none) ∧
        tokenize (i.text ++ sign.char :: j.text) =
          .ok (.ofPieces [.number i.text, sign.piece, .number j.text]) := by
  refine ⟨n.tokenize_eq, ⟨fun h => ?_, fun h => ?_⟩, ?_⟩
  · rw [n.tokenize_eq] at h
    exact Number.around?_of_ofPieces (Except.ok.inj h)
  · have hpieces : n.pieces = [.number n.text] := by rw [Number.pieces, h]
    rw [n.tokenize_eq, hpieces]
  · exact (tokenize_of_pieces (scan_signed i.readsOn j.readsOn sign (i.stops sign))).1

def Number.Digits.one {r : Number.Radix} (c : Char) (h : r.isDigit c) : Number.Digits r where
  text := [c]
  allowed := by simpa using .inl h
  first := h
  last := h

/-- `0x1p-3` -/
def eighth : Number :=
  .hexadecimal ⟨.small, .whole (.one '1' (by decide)) false, ⟨.small, some .minus, .one '3' (by decide)⟩, none⟩

/-- A hexadecimal number is cut at the sign of its exponent. -/
theorem eighth_cut : eighth.text = ['0', 'x', '1', 'p', '-', '3'] ∧
    tokenize eighth.text ≠ .ok (.ofPieces [.number eighth.text]) := by
  refine ⟨rfl, fun h => ?_⟩
  rw [eighth.tokenize_eq] at h
  cases Number.around?_of_ofPieces (Except.ok.inj h)

end MemberOrder
