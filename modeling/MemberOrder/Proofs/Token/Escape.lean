import MemberOrder.Proofs.Token.Forms
/-! Backslashes. The last one of a text takes the next character along, unless the one before it takes it
along. A literal on one line goes on until a quote or a line feed that is not taken along, a text block until
three quotes of which the first is not. Main statements: `exists_goesOn`, `throughQuote_goesOn`,
`throughBlock_eq_none_iff`. -/
namespace MemberOrder

def slashes (s : List Char) : Nat :=
  (s.reverse.takeWhile (· = '\\')).length

/-- Does the end of a text take the next character along? In a run of backslashes they do so by turns. -/
def escapes (s : List Char) : Bool :=
  slashes s % 2 = 1

theorem slashes_le (s : List Char) : slashes s ≤ s.length := by
  simpa [slashes] using (List.takeWhile_prefix (p := (· = '\\')) (l := s.reverse)).length_le

theorem slashes_cons (c : Char) (s : List Char) : slashes (c :: s) =
    if slashes s = s.length then slashes s + if c = '\\' then 1 else 0 else slashes s := by
  have hlength : (s.reverse.takeWhile (· = '\\')).length = s.reverse.length ↔ slashes s = s.length := by
    simp [slashes]
  rw [slashes, List.reverse_cons, List.takeWhile_append]
  simp only [hlength]
  by_cases hs : slashes s = s.length
  · rw [if_pos hs, if_pos hs, List.length_append, List.length_reverse, hs]
    by_cases hc : c = '\\' <;> simp [hc]
  · rw [if_neg hs, if_neg hs]
    rfl

@[simp] theorem escapes_nil : escapes [] = false := rfl

@[simp] theorem escapes_slash : escapes ['\\'] = true := by decide

@[simp] theorem escapes_pair (c : Char) (s : List Char) : escapes ('\\' :: c :: s) = escapes s := by
  have hle := slashes_le s
  have hne : slashes s ≠ s.length + 1 := by omega
  unfold escapes
  rw [slashes_cons, slashes_cons]
  by_cases hs : slashes s = s.length
  · by_cases hc : c = '\\'
    · simp only [hs, hc, if_true, List.length_cons]
      congr 1
      simp only [eq_iff_iff]
      omega
    · simp [hs, hc]
  · simp [hs, hne]

theorem escapes_cons {c : Char} (hc : c ≠ '\\') (s : List Char) : escapes (c :: s) = escapes s := by
  unfold escapes
  rw [slashes_cons]
  by_cases hs : slashes s = s.length <;> simp [hs, hc]

theorem escape_induction {motive : List Char → Prop} (nil : motive []) (slash : motive ['\\'])
    (pair : ∀ c s, motive s → motive ('\\' :: c :: s)) (plain : ∀ c s, c ≠ '\\' → motive s → motive (c :: s))
    (s : List Char) : motive s := by
  induction hn : s.length using Nat.strongRecOn generalizing s with
  | ind n ih =>
    subst hn
    match s with
    | [] => exact nil
    | c :: s =>
      by_cases hc : c = '\\'
      · subst hc
        match s with
        | [] => exact slash
        | c :: s =>
          have hlt : s.length < ('\\' :: c :: s).length := by
            simp only [List.length_cons]
            omega
          exact pair c s (ih _ hlt s rfl)
      · exact plain c s hc (ih _ (by simp) s rfl)

/-- Wherever `x` stands in a text, its first character is taken along. -/
def Guards (x s : List Char) : Prop :=
  ∀ u v, s = u ++ (x ++ v) → escapes u = true

namespace Guards

variable {a c : Char} {w s : List Char}

theorem nil : Guards (a :: w) [] := by
  intro u v h
  simp at h

theorem slash (ha : a ≠ '\\') : Guards (a :: w) ['\\'] := by
  intro u v h
  cases u with
  | nil => exact absurd (List.cons.inj h).1.symm ha
  | cons b u => simp at h

theorem pair_iff (ha : a ≠ '\\') : Guards (a :: w) ('\\' :: c :: s) ↔ Guards (a :: w) s := by
  constructor
  · intro h u v hs
    simpa using h ('\\' :: c :: u) v (by rw [hs]; rfl)
  · intro h u v hs
    match u with
    | [] => exact absurd (List.cons.inj hs).1.symm ha
    | [b] =>
      obtain rfl := (List.cons.inj hs).1
      exact escapes_slash
    | b :: d :: u =>
      obtain ⟨rfl, htail⟩ := List.cons.inj hs
      rw [escapes_pair]
      exact h u v (List.cons.inj htail).2

theorem cons_iff (hc : c ≠ '\\') : Guards (a :: w) (c :: s) ↔ ¬ a :: w <+: c :: s ∧ Guards (a :: w) s := by
  constructor
  · intro h
    refine ⟨fun ⟨v, hv⟩ => ?_, fun u v hs => ?_⟩
    · exact absurd (h [] v hv.symm) (by simp)
    · rw [← escapes_cons hc]
      exact h (c :: u) v (by rw [hs]; rfl)
  · rintro ⟨hnot, h⟩ u v hs
    cases u with
    | nil => exact absurd ⟨v, hs.symm⟩ hnot
    | cons b u =>
      obtain ⟨rfl, htail⟩ := List.cons.inj hs
      rw [escapes_cons hc]
      exact h u v htail

end Guards

/-- A literal that `q` opened goes on over a text: no quote and no line feed in it ends it. -/
structure GoesOn (q : Char) (t : List Char) : Prop where
  quote : Guards [q] t
  feed : Guards ['\n'] t

section Quote

variable {q c : Char} {s t u : List Char}

theorem GoesOn.nil : GoesOn q [] := ⟨.nil, .nil⟩

theorem GoesOn.slash (hq : q ≠ '\\') : GoesOn q ['\\'] := ⟨.slash hq, .slash (by decide)⟩

theorem GoesOn.pair_iff (hq : q ≠ '\\') : GoesOn q ('\\' :: c :: s) ↔ GoesOn q s := by
  have hquote : Guards [q] ('\\' :: c :: s) ↔ Guards [q] s := Guards.pair_iff hq
  have hfeed : Guards ['\n'] ('\\' :: c :: s) ↔ Guards ['\n'] s := Guards.pair_iff (by decide)
  exact ⟨fun h => ⟨hquote.1 h.quote, hfeed.1 h.feed⟩, fun h => ⟨hquote.2 h.quote, hfeed.2 h.feed⟩⟩

theorem GoesOn.cons_iff (hc : c ≠ '\\') : GoesOn q (c :: s) ↔ c ≠ q ∧ c ≠ '\n' ∧ GoesOn q s := by
  have hcons (a : Char) : Guards [a] (c :: s) ↔ c ≠ a ∧ Guards [a] s := by
    rw [Guards.cons_iff hc]
    simp [eq_comm]
  constructor
  · intro h
    obtain ⟨hq, hquote⟩ := (hcons q).1 h.quote
    obtain ⟨hn, hfeed⟩ := (hcons '\n').1 h.feed
    exact ⟨hq, hn, hquote, hfeed⟩
  · rintro ⟨hq, hn, h⟩
    exact ⟨(hcons q).2 ⟨hq, h.quote⟩, (hcons '\n').2 ⟨hn, h.feed⟩⟩

theorem throughQuote_plain (hc : c ≠ '\\') : throughQuote q (c :: s) =
    if c = '\n' then ([c], none) else if c = q then ([c], some s) else pushed c (throughQuote q s) := by
  rw [throughQuote]
  rintro d w rfl _
  exact hc rfl

theorem throughQuote_slash (hq : q ≠ '\\') : throughQuote q ['\\'] = (['\\'], none) := by
  simp [throughQuote, hq.symm, pushed]

theorem throughQuote_goesOn (hq : q ≠ '\\') (h : GoesOn q t) (ht : escapes t = false) (s : List Char) :
    throughQuote q (t ++ s) = (t ++ (throughQuote q s).1, (throughQuote q s).2) := by
  induction t using escape_induction with
  | nil => rfl
  | slash => simp at ht
  | pair c t ih =>
    rw [List.cons_append, List.cons_append, throughQuote, ih ((GoesOn.pair_iff hq).1 h) (by simpa using ht)]
    rfl
  | plain c t hc ih =>
    obtain ⟨hne, hn, h⟩ := (GoesOn.cons_iff hc).1 h
    rw [List.cons_append, throughQuote_plain hc, if_neg hn, if_neg hne, ih h (by rwa [escapes_cons hc] at ht)]
    rfl

/-- A literal that goes on to the end of the text is not closed, even if a backslash stands there. -/
theorem throughQuote_of_goesOn (hq : q ≠ '\\') (h : GoesOn q t) : throughQuote q t = (t, none) := by
  induction t using escape_induction with
  | nil => rfl
  | slash => exact throughQuote_slash hq
  | pair c t ih =>
    rw [throughQuote, ih ((GoesOn.pair_iff hq).1 h)]
    rfl
  | plain c t hc ih =>
    obtain ⟨hne, hn, h⟩ := (GoesOn.cons_iff hc).1 h
    rw [throughQuote_plain hc, if_neg hn, if_neg hne, ih h]
    rfl

theorem exists_goesOn (hq : q ≠ '\\') (s : List Char) : ∃ t, GoesOn q t ∧
    (s = t ∨ escapes t = false ∧ ∃ c rest, (c = '\n' ∨ c = q) ∧ s = t ++ c :: rest) := by
  induction s using escape_induction with
  | nil => exact ⟨[], .nil, .inl rfl⟩
  | slash => exact ⟨['\\'], .slash hq, .inl rfl⟩
  | pair c s ih =>
    obtain ⟨t, ht, h⟩ := ih
    refine ⟨'\\' :: c :: t, (GoesOn.pair_iff hq).2 ht, ?_⟩
    obtain rfl | ⟨he, d, rest, hd, rfl⟩ := h
    · exact .inl rfl
    · exact .inr ⟨by simpa using he, d, rest, hd, rfl⟩
  | plain c s hc ih =>
    by_cases hstop : c = '\n' ∨ c = q
    · exact ⟨[], .nil, .inr ⟨rfl, c, s, hstop, rfl⟩⟩
    · obtain ⟨hn, hne⟩ := not_or.1 hstop
      obtain ⟨t, ht, h⟩ := ih
      refine ⟨c :: t, (GoesOn.cons_iff hc).2 ⟨hne, hn, ht⟩, ?_⟩
      obtain rfl | ⟨he, d, rest, hd, rfl⟩ := h
      · exact .inl rfl
      · exact .inr ⟨by rwa [escapes_cons hc], d, rest, hd, rfl⟩

theorem throughQuote_close (hq : q ≠ '\\') (hn : q ≠ '\n') (h : GoesOn q t) (ht : escapes t = false)
    (s : List Char) : throughQuote q (t ++ q :: s) = (t ++ [q], some s) := by
  rw [throughQuote_goesOn hq h ht, throughQuote_plain hq, if_neg hn, if_pos rfl]

theorem throughQuote_feed (hq : q ≠ '\\') (h : GoesOn q t) (ht : escapes t = false) (s : List Char) :
    throughQuote q (t ++ '\n' :: s) = (t ++ ['\n'], none) := by
  rw [throughQuote_goesOn hq h ht, throughQuote_plain (by decide), if_pos rfl]

theorem goesOn_of_throughQuote {rest : List Char} (hq : q ≠ '\\') (hn : q ≠ '\n')
    (h : throughQuote q s = (u, some rest)) : ∃ t, GoesOn q t ∧ escapes t = false ∧ u = t ++ [q] := by
  obtain ⟨t, ht, rfl | ⟨he, c, r, rfl | rfl, rfl⟩⟩ := exists_goesOn hq s
  · rw [throughQuote_of_goesOn hq ht] at h
    cases h
  · rw [throughQuote_feed hq ht he] at h
    cases h
  · rw [throughQuote_close hq hn ht he] at h
    cases h
    exact ⟨t, ht, he, rfl⟩

end Quote

theorem pushed_eq_none_iff {c : Char} {r : List Char × Option (List Char)} {s u : List Char} {p : Prop}
    (h : ∀ v, r = (v, none) ↔ v = s ∧ p) : pushed c r = (u, none) ↔ u = c :: s ∧ p := by
  rw [pushed_eq_iff]
  constructor
  · rintro ⟨v, rfl, hv⟩
    obtain ⟨rfl, hp⟩ := (h v).1 hv
    exact ⟨rfl, hp⟩
  · rintro ⟨rfl, hp⟩
    exact ⟨s, rfl, (h s).2 ⟨rfl, hp⟩⟩

section Block

variable {s u : List Char}

theorem throughBlock_plain {c : Char} (hc : c ≠ '\\') (hs : ¬ ['"', '"', '"'] <+: c :: s) :
    throughBlock (c :: s) = pushed c (throughBlock s) := by
  rw [throughBlock]
  · rintro v rfl rfl
    exact hs ⟨v, rfl⟩
  · rintro d w rfl _
    exact hc rfl

theorem throughBlock_eq_none_iff : throughBlock s = (u, none) ↔ u = s ∧ Guards ['"', '"', '"'] s := by
  have hquote : '"' ≠ '\\' := by decide
  induction s using escape_induction generalizing u with
  | nil => simp [throughBlock, Guards.nil, eq_comm]
  | slash => simp [throughBlock, pushed, Guards.slash, eq_comm]
  | pair c s ih =>
    rw [throughBlock, Guards.pair_iff hquote]
    exact pushed_eq_none_iff fun _ => pushed_eq_none_iff fun _ => ih
  | plain c s hc ih =>
    rw [Guards.cons_iff hc]
    by_cases hclose : ['"', '"', '"'] <+: c :: s
    · obtain ⟨v, hv⟩ := hclose
      rw [← hv]
      simp [throughBlock]
    · rw [throughBlock_plain hc hclose, and_iff_right hclose]
      exact pushed_eq_none_iff fun _ => ih

end Block

theorem throughComment_eq_none_iff {s u : List Char} : throughComment s = (u, none) ↔
    u = s ∧ ¬ ['*', '/'] <:+: s := by
  fun_induction throughComment s generalizing u with
  | case1 =>
    have hnil : ¬ ['*', '/'] <:+: [] := by simp
    exact ⟨fun h => ⟨(Prod.mk.inj h).1.symm, hnil⟩, fun h => by rw [h.1]⟩
  | case2 s =>
    have hclose : ['*', '/'] <:+: '*' :: '/' :: s := ⟨[], s, rfl⟩
    exact ⟨fun h => (by cases h), fun h => absurd hclose h.2⟩
  | case3 c s hc ih =>
    have hopen : ¬ ['*', '/'] <+: c :: s := by
      rintro ⟨w, hw⟩
      obtain ⟨rfl, rfl⟩ : '*' = c ∧ '/' :: w = s := List.cons.inj hw
      exact hc w rfl rfl
    rw [List.infix_cons_iff, not_or, and_iff_right hopen]
    exact pushed_eq_none_iff fun _ => ih

end MemberOrder
