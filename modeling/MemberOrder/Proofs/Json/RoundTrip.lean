import Mathlib.Data.List.TakeWhile
import MemberOrder.Json
/-! JSON that has been written is read back. Nothing is assumed of the texts in it; numbers are to be such as JSON
writes them, and the value may be nested to as many levels as are read. Main statement: `Json.read?_write`. -/
namespace MemberOrder.Json

/-! ### Strings -/

theorem hexDigit?_hexDigit : ∀ n < 16, hexDigit? (hexDigit n) = some n := by decide

theorem hexQuad?_control {n : Nat} (h : n < 0x20) :
    hexQuad? '0' '0' (hexDigit (n / 16)) (hexDigit (n % 16)) = some n := by
  have hzero : hexDigit? '0' = some 0 := rfl
  have hhigh := hexDigit?_hexDigit (n / 16) (by omega)
  have hlow := hexDigit?_hexDigit (n % 16) (by omega)
  simp only [hexQuad?, hzero, hhigh, hlow, Option.bind_eq_bind, Option.bind_some, Option.pure_def]
  exact congrArg some (by omega)

theorem stringRest?_escaped (c : Char) (s : List Char) :
    stringRest? (escaped c ++ s) = withChar c (stringRest? s) := by
  unfold escaped
  split_ifs with hquote hslash hback hfeed hline hreturn htab hcontrol
  · subst hquote; rfl
  · subst hslash; rfl
  · subst hback; rfl
  · subst hfeed; rfl
  · subst hline; rfl
  · subst hreturn; rfl
  · subst htab; rfl
  · have hhigh : isHighSurrogate c.toNat = false := by simp [isHighSurrogate]; omega
    have hlow : isLowSurrogate c.toNat = false := by simp [isLowSurrogate]; omega
    simp [stringRest?, hexQuad?_control hcontrol, hhigh, hlow]
  · simp [stringRest?, hslash, hcontrol]

theorem stringRest?_escapes (s rest : List Char) :
    stringRest? (s.flatMap escaped ++ '"' :: rest) = some (s, rest) := by
  induction s with
  | nil => rfl
  | cons c s ih =>
    rw [List.flatMap_cons, List.append_assoc, stringRest?_escaped, ih]
    rfl

/-! ### Numbers -/

/-- What can stand behind a number without being read as more of it. -/
def EndsNumber (s : List Char) : Prop :=
  ∀ c ∈ s.head?, c.isDigit = false ∧ c ≠ '.' ∧ c ≠ 'e' ∧ c ≠ 'E'

def IsNumber (t : List Char) : Prop := number? t = some (t, [])

section Numbers

variable {s t u rest : List Char}

theorem endsNumber_nil : EndsNumber [] := nofun

theorem endsNumber_cons {c : Char} (hc : c.isDigit = false ∧ c ≠ '.' ∧ c ≠ 'e' ∧ c ≠ 'E') (s : List Char) :
    EndsNumber (c :: s) := by
  intro c' hc'
  cases hc'
  exact hc

theorem EndsNumber.isDigit_append (h : EndsNumber rest) (s : List Char) :
    (s ++ rest).takeWhile Char.isDigit = s.takeWhile Char.isDigit ∧
      (s ++ rest).dropWhile Char.isDigit = s.dropWhile Char.isDigit ++ rest := by
  induction s with
  | nil =>
    cases rest with
    | nil => exact ⟨rfl, rfl⟩
    | cons c rest => simp [(h c rfl).1]
  | cons c s ih => cases hc : c.isDigit <;> simp [hc, ih]

theorem digits?_append (hs : digits? s = some (t, u)) (h : EndsNumber rest) :
    digits? (s ++ rest) = some (t, u ++ rest) := by
  obtain ⟨htake, hdrop⟩ := h.isDigit_append s
  unfold digits? at hs ⊢
  rw [htake, hdrop]
  split_ifs at hs ⊢ with hnone
  cases hs
  rfl

theorem whole?_append (hs : whole? s = some (t, u)) (h : EndsNumber rest) :
    whole? (s ++ rest) = some (t, u ++ rest) := by
  unfold whole? at hs
  split at hs
  next s =>
    cases hs
    rfl
  next hzero =>
    cases s with
    | nil => cases hs
    | cons c s =>
      rw [← digits?_append hs h, List.cons_append, whole?]
      rintro s' hs'
      cases hs'
      exact hzero s rfl

theorem fraction?_append (hs : fraction? s = some (t, u)) (h : EndsNumber rest) :
    fraction? (s ++ rest) = some (t, u ++ rest) := by
  unfold fraction? at hs
  split at hs
  next s =>
    obtain ⟨⟨t', u'⟩, hdigits, heq⟩ := Option.map_eq_some_iff.1 hs
    cases heq
    rw [List.cons_append, fraction?, digits?_append hdigits h]
    rfl
  next hpoint =>
    cases hs
    rw [fraction?]
    rintro s' hs'
    cases s with
    | nil => exact (h '.' (by rw [← List.nil_append rest, hs']; rfl)).2.1 rfl
    | cons c s =>
      cases hs'
      exact hpoint s rfl

theorem exponent?_append (hs : exponent? s = some (t, u)) (h : EndsNumber rest) :
    exponent? (s ++ rest) = some (t, u ++ rest) := by
  cases s with
  | nil =>
    cases hs
    cases rest with
    | nil => rfl
    | cons c rest => exact if_neg (by simpa using (h c rfl).2.2)
  | cons e s =>
    unfold exponent? at hs
    dsimp only at hs
    split at hs
    next he =>
      cases s with
      | nil => cases hs
      | cons sign s =>
        dsimp only at hs
        simp only [List.cons_append, exponent?, if_pos he]
        split at hs
        next hsign =>
          obtain ⟨⟨t', u'⟩, hdigits, heq⟩ := Option.map_eq_some_iff.1 hs
          cases heq
          rw [if_pos hsign, digits?_append hdigits h]
          rfl
        next hsign =>
          obtain ⟨⟨t', u'⟩, hdigits, heq⟩ := Option.map_eq_some_iff.1 hs
          cases heq
          rw [if_neg hsign, ← List.cons_append, digits?_append hdigits h]
          rfl
    next he =>
      cases hs
      exact if_neg he

theorem unsigned?_append (hs : unsigned? s = some (t, u)) (h : EndsNumber rest) :
    unsigned? (s ++ rest) = some (t, u ++ rest) := by
  simp only [unsigned?, Option.bind_eq_bind, Option.bind_eq_some_iff] at hs ⊢
  obtain ⟨⟨a, s₁⟩, ha, ⟨b, s₂⟩, hb, ⟨c, s₃⟩, hc, heq⟩ := hs
  cases heq
  exact ⟨_, whole?_append ha h, _, fraction?_append hb h, _, exponent?_append hc h, rfl⟩

theorem number?_append (hs : number? s = some (t, u)) (h : EndsNumber rest) :
    number? (s ++ rest) = some (t, u ++ rest) := by
  unfold number? at hs
  split at hs
  next s =>
    obtain ⟨⟨t', u'⟩, hunsigned, heq⟩ := Option.map_eq_some_iff.1 hs
    cases heq
    rw [List.cons_append, number?, unsigned?_append hunsigned h]
    rfl
  next hsign =>
    cases s with
    | nil => cases hs
    | cons c s =>
      rw [← unsigned?_append hs h, List.cons_append, number?]
      rintro s' hs'
      cases hs'
      exact hsign s rfl

theorem number?_cons (hs : number? s = some (t, u)) : ∃ c s', s = c :: s' ∧ (c.isDigit ∨ c = '-') := by
  cases s with
  | nil => cases hs
  | cons c s =>
    refine ⟨c, s, rfl, ?_⟩
    by_contra hc
    obtain ⟨hdigit, hminus⟩ := not_or.1 hc
    have hzero : c ≠ '0' := by
      rintro rfl
      exact hdigit rfl
    simp [number?, unsigned?, whole?, digits?, hdigit, hminus, hzero] at hs

end Numbers

/-! ### Whole numbers -/

theorem head?_toDigits_ne_zero {n : Nat} (h : 0 < n) : (Nat.toDigits 10 n).head? ≠ some '0' := by
  induction n using Nat.strongRecOn with
  | ind n ih =>
    obtain hlt | hle := Nat.lt_or_ge n 10
    · rw [Nat.toDigits_of_lt_base hlt]
      exact (by decide : ∀ m < 10, 0 < m → [Nat.digitChar m].head? ≠ some '0') n hlt h
    · have hfront := ih (n / 10) (by omega) (by omega)
      obtain ⟨c, s, hs⟩ := List.exists_cons_of_ne_nil (Nat.toDigits_ne_nil (n := n / 10) (b := 10))
      rw [hs] at hfront
      rwa [Nat.toDigits_of_base_le (by decide) hle, hs]

theorem digits?_eq_self {t : List Char} (hne : t ≠ []) (h : ∀ c ∈ t, c.isDigit) : digits? t = some (t, []) := by
  have htake := List.takeWhile_eq_self_iff.2 h
  have hdrop := List.dropWhile_eq_nil_iff.2 h
  rw [digits?, htake, hdrop, if_neg (by simpa using hne)]

theorem isNumber_toDigits (n : Nat) : IsNumber (Nat.toDigits 10 n) := by
  have hdigit : ∀ c ∈ Nat.toDigits 10 n, c.isDigit := fun c hc =>
    Nat.isDigit_of_mem_toDigits (by decide) (by decide) hc
  have hwhole : whole? (Nat.toDigits 10 n) = some (Nat.toDigits 10 n, []) := by
    obtain rfl | hpos := Nat.eq_zero_or_pos n
    · rfl
    rw [whole?, digits?_eq_self Nat.toDigits_ne_nil hdigit]
    rintro s hs
    exact head?_toDigits_ne_zero hpos (by rw [hs]; rfl)
  rw [IsNumber, number?, unsigned?, hwhole]
  · simp [fraction?, exponent?]
  · rintro s hs
    exact absurd (hdigit '-' (by rw [hs]; exact List.mem_cons_self)) (by decide)

/-! ### Values -/

inductive Fits : Nat → Json → Prop
  | null {d} : Fits (d + 1) .null
  | bool {d} (b : Bool) : Fits (d + 1) (.bool b)
  | number {d t} (ht : IsNumber t) : Fits (d + 1) (.number t)
  | string {d} (t : List Char) : Fits (d + 1) (.string t)
  | array {d vs} (hvs : ∀ v ∈ vs, Fits d v) : Fits (d + 1) (.array vs)
  | object {d fs} (hfs : ∀ f ∈ fs, Fits d f.2) : Fits (d + 1) (.object fs)

/-! ### Spaces -/

theorem skipSpace_newline (level : Nat) (s : List Char) : skipSpace (newline level ++ s) = skipSpace s := by
  have hspace : ∀ c ∈ newline level, isSpace c := by
    simp [newline, isSpace]
  rw [skipSpace, List.dropWhile_append_of_pos hspace, skipSpace]

theorem skipSpace_cons {c : Char} (hc : isSpace c = false) (s : List Char) : skipSpace (c :: s) = c :: s := by
  rw [skipSpace, List.dropWhile_cons, hc]
  rfl

theorem endsNumber_newline (level : Nat) (s : List Char) : EndsNumber (newline level ++ s) :=
  endsNumber_cons (by decide) _

/-! ### Items -/

section Items

variable {α : Type}

/-- How an item is written: it is read back whatever stands behind it that ends a number, and begins with something
that is neither a space nor what closes the list. -/
structure ReadsBack (item? : List Char → Option (α × List Char)) (close : Char) (written : List Char) (a : α) :
    Prop where
  read {rest : List Char} (h : EndsNumber rest) : item? (written ++ rest) = some (a, rest)
  head : ∃ c s, written = c :: s ∧ isSpace c = false ∧ c ≠ close

variable {item? : List Char → Option (α × List Char)} {close : Char} {w : α → List Char}

theorem ReadsBack.skipSpace {t : List Char} {a : α} (h : ReadsBack item? close t a) (level : Nat) (rest : List Char) :
    skipSpace (newline level ++ (t ++ rest)) = t ++ rest := by
  obtain ⟨c, s, rfl, hc, -⟩ := h.head
  rw [skipSpace_newline, List.cons_append, skipSpace_cons hc]

theorem items?_written (hspace : isSpace close = false) (hcomma : close ≠ ',') {a : α} {as : List α}
    (has : ∀ x ∈ a :: as, ReadsBack item? close (w x) x) (level level' : Nat) (rest : List Char) :
    items? item? close (w a ++ (as.flatMap (fun x => ',' :: (newline level ++ w x)) ++
      (newline level' ++ close :: rest))) = some (a :: as, rest) := by
  induction as generalizing a with
  | nil =>
    have ha := has a List.mem_cons_self
    rw [items?, List.flatMap_nil, List.nil_append, ha.read (endsNumber_newline _ _)]
    simp only [skipSpace_newline, skipSpace_cons hspace, if_true]
  | cons b as ih =>
    obtain ⟨ha, has⟩ := List.forall_mem_cons.1 has
    have hb := has b List.mem_cons_self
    have hitems := ih has
    have hends := endsNumber_cons (c := ',') (by decide)
    have hnext := fun s => hb.skipSpace level s
    rw [items?, List.flatMap_cons, List.append_assoc, List.cons_append, ha.read (hends _)]
    simp only [skipSpace_cons (c := ',') (by decide), if_neg hcomma.symm, List.append_assoc, hnext, hitems, true_and]
    rw [if_pos (by simp only [List.length_append, List.length_cons]; omega)]

theorem list?_written (hspace : isSpace close = false) (hcomma : close ≠ ',') {a : α} {as : List α}
    (has : ∀ x ∈ a :: as, ReadsBack item? close (w x) x) (level level' : Nat) (rest : List Char) :
    list? item? close (newline level ++ (w a ++ (as.flatMap (fun x => ',' :: (newline level ++ w x)) ++
      (newline level' ++ close :: rest)))) = some (a :: as, rest) := by
  have ha := has a List.mem_cons_self
  obtain ⟨c, s, hs, -, hclose⟩ := ha.head
  have hitems := items?_written hspace hcomma has level level' rest
  rw [hs] at hitems
  rw [list?, ha.skipSpace, hs]
  simp only [List.cons_append, if_neg hclose] at hitems ⊢
  exact hitems

end Items

/-! ### Writing and reading -/

theorem writeMore_eq (level : Nat) (vs : List Json) :
    writeMore level vs = vs.flatMap fun v => ',' :: (newline level ++ write level v) := by
  induction vs with
  | nil => rfl
  | cons v vs ih => rw [writeMore, ih]; rfl

def writeField (level : Nat) (f : List Char × Json) : List Char :=
  writeString f.1 ++ [':', ' '] ++ write level f.2

theorem writeMoreFields_eq (level : Nat) (fs : List (List Char × Json)) :
    writeMoreFields level fs = fs.flatMap fun f => ',' :: (newline level ++ writeField level f) := by
  induction fs with
  | nil => rfl
  | cons f fs ih =>
    rw [writeMoreFields, ih, List.flatMap_cons, writeField]
    simp

theorem write_array (level : Nat) (v : Json) (vs : List Json) (rest : List Char) :
    write level (.array (v :: vs)) ++ rest = '[' :: (newline (level + 1) ++ (write (level + 1) v ++
      (vs.flatMap (fun u => ',' :: (newline (level + 1) ++ write (level + 1) u)) ++
        (newline level ++ ']' :: rest)))) := by
  simp [write, writeMore_eq]

theorem write_object (level : Nat) (f : List Char × Json) (fs : List (List Char × Json)) (rest : List Char) :
    write level (.object (f :: fs)) ++ rest = '{' :: (newline (level + 1) ++ (writeField (level + 1) f ++
      (fs.flatMap (fun g => ',' :: (newline (level + 1) ++ writeField (level + 1) g)) ++
        (newline level ++ '}' :: rest)))) := by
  simp [write, writeMoreFields_eq, writeField]

theorem writeString_append (s rest : List Char) :
    writeString s ++ rest = '"' :: (s.flatMap escaped ++ '"' :: rest) := by
  simp [writeString]

theorem value?_of_number {c : Char} (hc : c.isDigit ∨ c = '-') (d : Nat) (s : List Char) :
    value? (d + 1) (c :: s) = (number? (c :: s)).map fun (t, rest) => (.number t, rest) := by
  rw [value?]
  case x_3 => exact Nat.succ_ne_zero d
  case x_8 | x_9 =>
    rintro _ _ - ⟨⟩
    exact absurd hc (by decide)
  all_goals
    rintro _ ⟨⟩
    exact absurd hc (by decide)

theorem Fits.head {d : Nat} {v : Json} (h : Fits d v) (level : Nat) :
    ∃ c s, write level v = c :: s ∧ isSpace c = false ∧ c ≠ ']' := by
  cases h with
  | null => exact ⟨'n', _, rfl, by decide, by decide⟩
  | bool b => cases b <;> exact ⟨_, _, rfl, by decide, by decide⟩
  | @number d t ht =>
    obtain ⟨c, s, rfl, hc⟩ := number?_cons ht
    refine ⟨c, s, rfl, ?_, ?_⟩
    · cases hspace : isSpace c with
      | false => rfl
      | true =>
        simp only [isSpace, Bool.or_eq_true, decide_eq_true_eq] at hspace
        obtain ((rfl | rfl) | rfl) | rfl := hspace <;> exact absurd hc (by decide)
    · rintro rfl
      exact absurd hc (by decide)
  | string t => exact ⟨'"', _, rfl, by decide, by decide⟩
  | @array d vs _ => cases vs <;> exact ⟨'[', _, rfl, by decide, by decide⟩
  | @object d fs _ =>
    cases fs <;> exact ⟨'{', _, rfl, by decide, by decide⟩

theorem Fits.readsBack_field {d d' level : Nat} {f : List Char × Json} (hf : Fits d' f.2)
    (h : ∀ {rest}, EndsNumber rest → value? d (write level f.2 ++ rest) = some (f.2, rest)) :
    ReadsBack (field? (value? d)) '}' (writeField level f) f := by
  refine ⟨fun {rest} hrest => ?_, '"', _, rfl, by decide, by decide⟩
  have hskip : skipSpace (' ' :: (write level f.2 ++ rest)) = write level f.2 ++ rest := by
    obtain ⟨c, s, hs, hc, -⟩ := hf.head level
    rw [hs]
    exact skipSpace_cons hc _
  rw [writeField, List.append_assoc, List.append_assoc, writeString_append, field?, stringRest?_escapes]
  simp only [List.cons_append, List.nil_append, skipSpace_cons (c := ':') (by decide), hskip, h hrest,
    Option.map_some]

theorem value?_write {d : Nat} {v : Json} (h : Fits d v) (level : Nat) {rest : List Char}
    (hrest : EndsNumber rest) : value? d (write level v ++ rest) = some (v, rest) := by
  induction h generalizing level rest with
  | null => rfl
  | bool b => cases b <;> rfl
  | @number d t ht =>
    obtain ⟨c, s, hs, hc⟩ := number?_cons ht
    have hnumber := number?_append ht hrest
    rw [hs, List.cons_append] at hnumber
    rw [write, hs, List.cons_append, value?_of_number hc, hnumber]
    rfl
  | string t =>
    rw [write, writeString_append]
    change (stringRest? _).map _ = _
    rw [stringRest?_escapes]
    rfl
  | @array d vs hvs ih =>
    cases vs with
    | nil => rfl
    | cons v vs =>
      have hback : ∀ u ∈ v :: vs, ReadsBack (value? d) ']' (write (level + 1) u) u := fun u hu =>
        ⟨ih u hu (level + 1), (hvs u hu).head _⟩
      have hread := list?_written (by decide) (by decide) hback (level + 1) level rest
      rw [write_array, value?, hread]
      rfl
  | @object d fs hfs ih =>
    cases fs with
    | nil => rfl
    | cons f fs =>
      have hback : ∀ g ∈ f :: fs, ReadsBack (field? (value? d)) '}' (writeField (level + 1) g) g := fun g hg =>
        (hfs g hg).readsBack_field (ih g hg (level + 1))
      have hread := list?_written (by decide) (by decide) hback (level + 1) level rest
      rw [write_object, value?, hread]
      rfl

/-- What is written is read back as it was. -/
theorem read?_write {v : Json} (h : Fits 128 v) : read? (write 0 v) = some v := by
  obtain ⟨c, s, hs, hc, -⟩ := h.head 0
  have hvalue := value?_write h 0 endsNumber_nil
  rw [List.append_nil] at hvalue
  rw [read?, hs, skipSpace_cons hc, ← hs, hvalue]
  rfl

end MemberOrder.Json
