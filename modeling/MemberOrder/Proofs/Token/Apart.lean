import Mathlib.Data.List.TakeWhile
import Mathlib.Tactic.SplitIfs
import MemberOrder.Token.Piece
/-! Tokens kept apart. A scanner that has come to an end has looked at nothing behind it that matters:
the text it has read it reads again, by itself and in front of white space. Main statements:
`scan_self`, `scan_append_apart`. -/
namespace MemberOrder

def blanks : List Nat :=
  [0x09, 0x0A, 0x0B, 0x0C, 0x0D, 0x20, 0x85, 0xA0, 0x1680, 0x2000, 0x2001, 0x2002, 0x2003, 0x2004,
    0x2005, 0x2006, 0x2007, 0x2008, 0x2009, 0x200A, 0x2028, 0x2029, 0x202F, 0x205F, 0x3000]

theorem mem_blanks {c : Char} (h : isBlank c) : c.toNat ∈ blanks := by
  simp only [isBlank, Bool.or_eq_true, Bool.and_eq_true, decide_eq_true_eq, beq_iff_eq] at h
  simp only [blanks, List.mem_cons, List.not_mem_nil, or_false]
  omega

theorem of_isBlank {p : Char → Bool} (hp : blanks.all fun n => p (Char.ofNat n)) {c : Char}
    (h : isBlank c) : p c := by
  have hc := List.all_eq_true.1 hp c.toNat (mem_blanks h)
  rwa [Char.ofNat_toNat] at hc

theorem blanks_not_isWordPart : blanks.all fun n => !isWordPart (Char.ofNat n) := by
  decide +kernel

theorem not_isWordPart_of_isBlank {c : Char} (h : isBlank c) : isWordPart c = false := by
  have hc := of_isBlank (p := fun c => !isWordPart c) blanks_not_isWordPart h
  simpa using hc

def joining : List Char :=
  ['_', '.', '+', '-', '"', 'x', 'X', '/', '*']

theorem blanks_not_joining : blanks.all fun n =>
    !(Char.ofNat n).isAlphanum && !joining.contains (Char.ofNat n) := by
  decide +kernel

theorem not_joins_of_isBlank {c : Char} (h : isBlank c) : c.isAlphanum = false ∧ c ∉ joining := by
  have hc := of_isBlank (p := fun c => !c.isAlphanum && !joining.contains c) blanks_not_joining h
  simpa using hc

theorem not_isDigit_of_isBlank {c : Char} (h : isBlank c) : c.isDigit = false := by
  have hc := (not_joins_of_isBlank h).1
  simp only [Char.isAlphanum, Bool.or_eq_false_iff] at hc
  exact hc.2

def Apart (t : List Char) : Prop :=
  ∃ b u, t = b :: u ∧ isBlank b

def EndsToken (t : List Char) : Prop :=
  t = [] ∨ Apart t

theorem EndsToken.isBlank {t : List Char} (h : EndsToken t) {b : Char} (hb : t.head? = some b) :
    isBlank b := by
  obtain rfl | ⟨c, u, rfl, hc⟩ := h
  · cases hb
  · cases hb
    exact hc

theorem eq_append_of_throughBlock {s u rest : List Char} (h : throughBlock s = (u, some rest)) :
    ∃ t, u = t ++ ['"', '"', '"'] := by
  fun_induction throughBlock s generalizing u with
  | case1 => cases h
  | case2 =>
    cases h
    exact ⟨[], rfl⟩
  | case3 c s ih =>
    obtain ⟨v, rfl, hv⟩ := pushed_eq_iff.1 h
    obtain ⟨w, rfl, hw⟩ := pushed_eq_iff.1 hv
    obtain ⟨t, rfl⟩ := ih hw
    exact ⟨'\\' :: c :: t, rfl⟩
  | case4 c s _ _ ih =>
    obtain ⟨v, rfl, hv⟩ := pushed_eq_iff.1 h
    obtain ⟨t, rfl⟩ := ih hv
    exact ⟨c :: t, rfl⟩

theorem throughBlock_reread {s u rest : List Char} (h : throughBlock s = (u, some rest))
    (t : List Char) : throughBlock (u ++ t) = (u, some t) := by
  have happend := (Head.throughBlock_append s).1 rest (by rw [h])
  rw [h] at happend
  fun_induction throughBlock s generalizing u with
  | case1 => cases h
  | case2 =>
    cases h
    rfl
  | case3 c s ih =>
    obtain ⟨v, rfl, hv⟩ := pushed_eq_iff.1 h
    obtain ⟨w, rfl, hw⟩ := pushed_eq_iff.1 hv
    rw [List.cons_append, List.cons_append, throughBlock, ih hw (by simpa using happend)]
    rfl
  | case4 c s hquote hslash ih =>
    obtain ⟨v, rfl, hv⟩ := pushed_eq_iff.1 h
    obtain rfl : v ++ rest = s := by simpa using happend
    -- The text still holds a whole closing, so the next two characters are its own.
    have hlen : 3 ≤ v.length := by
      obtain ⟨w, rfl⟩ := eq_append_of_throughBlock hv
      simp
    obtain _ | ⟨a, _ | ⟨b, v⟩⟩ := v
    · simp at hlen
    · simp at hlen
    rw [List.cons_append, throughBlock, ih hv rfl]
    · rfl
    · rintro w rfl hw
      simp only [List.cons_append, List.cons.injEq] at hw
      exact hquote (v ++ rest) rfl (by simp [hw])
    · rintro d w rfl _
      exact hslash a (b :: v ++ rest) rfl rfl

theorem throughQuote_reread {q : Char} (hq : q ≠ '\\') {s u rest : List Char}
    (h : throughQuote q s = (u, some rest)) (t : List Char) :
    throughQuote q (u ++ t) = (u, some t) := by
  fun_induction throughQuote q s generalizing u with
  | case1 => cases h
  | case2 c s ih =>
    obtain ⟨v, rfl, hv⟩ := pushed_eq_iff.1 h
    obtain ⟨w, rfl, hw⟩ := pushed_eq_iff.1 hv
    rw [List.cons_append, List.cons_append, throughQuote, ih hw]
    rfl
  | case3 => cases h
  | case4 s hslash hn =>
    cases h
    rw [List.cons_append, List.nil_append, throughQuote, if_neg hn, if_pos rfl]
    rintro _ _ rfl
    exact absurd rfl hq
  | case5 c s hslash hn hc ih =>
    obtain ⟨v, rfl, hv⟩ := pushed_eq_iff.1 h
    rw [List.cons_append, throughQuote, if_neg hn, if_neg hc, ih hv]
    · rfl
    -- A backslash here would be the last character, and the literal would not end.
    · rintro d w rfl _
      cases s with
      | nil => cases hv
      | cons a s => exact hslash a s rfl rfl

theorem numberTail_of_endsToken {hex : Bool} {last : Char} {t : List Char} (ht : EndsToken t) :
    numberTail hex last t = ([], t) := by
  cases t with
  | nil => rfl
  | cons b t =>
    obtain ⟨ha, hj⟩ := not_joins_of_isBlank (ht.isBlank rfl)
    simp only [joining, List.mem_cons, not_or] at hj
    simp [numberTail, ha, hj]

theorem numberTail_reread {hex : Bool} {last : Char} {s u rest t : List Char}
    (h : numberTail hex last s = (u, rest)) (ht : EndsToken t) :
    numberTail hex last (u ++ t) = (u, t) := by
  fun_induction numberTail hex last s generalizing u with
  | case1 =>
    cases h
    exact numberTail_of_endsToken ht
  | case2 last c s hc ih =>
    obtain ⟨v, rfl, hv⟩ := pushed_eq_iff.1 h
    rw [List.cons_append, numberTail, if_pos hc, ih hv]
    rfl
  | case3 =>
    cases h
    exact numberTail_of_endsToken ht

theorem head?_numberTail_append {hex : Bool} {last c : Char} {t : List Char} (ht : EndsToken t)
    (s : List Char) (hc : c.isAlphanum) :
    ((numberTail hex last s).1 ++ t).head? = some c ↔ s.head? = some c := by
  have hover : t.head? ≠ some c := by
    intro hhead
    rw [(not_joins_of_isBlank (ht.isBlank hhead)).1] at hc
    cases hc
  cases s with
  | nil => simpa [numberTail] using hover
  | cons d s =>
    rw [numberTail]
    split_ifs with hd
    · rfl
    · simp only [List.nil_append, hover, List.head?_cons, Option.some.injEq, false_iff]
      rintro rfl
      simp [hc] at hd

namespace Head

theorem closed_eq_piece_iff {symbol : Option Symbol} {what : Construct} {opened rest : List Char}
    {r : List Char × Option (List Char)} {p : Piece} :
    closed symbol what opened r = .piece p rest ↔ ∃ u, r = (u, some rest) ∧ p = ⟨symbol, opened ++ u⟩ := by
  obtain ⟨v, t | t⟩ := r
  · simp [closed]
  · simp only [closed, piece.injEq, Prod.mk.injEq, Option.some.injEq]
    constructor
    · rintro ⟨rfl, rfl⟩
      exact ⟨v, ⟨rfl, rfl⟩, rfl⟩
    · rintro ⟨u, ⟨rfl, rfl⟩, rfl⟩
      exact ⟨rfl, rfl⟩

theorem word_reread {c : Char} {s u rest t : List Char} {x : Symbol}
    (h : word c s = .piece ⟨some x, c :: u⟩ rest) (ht : EndsToken t) :
    word c (u ++ t) = .piece ⟨some x, c :: u⟩ t := by
  unfold word at h
  dsimp only at h
  split at h
  next hnon =>
    simp only [piece.injEq, Piece.mk.injEq, Option.some.injEq, List.cons_append, List.cons.injEq,
      true_and] at h
    obtain ⟨⟨rfl, rfl⟩, _⟩ := h
    obtain ⟨rfl, hon⟩ := List.cons.inj hnon.1
    have ho : isWordPart 'o' := by decide
    have hn : isWordPart 'n' := by decide
    have hd : isWordPart '-' = false := by decide
    simp [hon, word, ho, hn, hd, sealedTail]
  next hnon =>
    simp only [piece.injEq, Piece.mk.injEq, List.cons.injEq, true_and] at h
    obtain ⟨⟨hx, hu⟩, _⟩ := h
    have hall : ∀ a ∈ u, isWordPart a := by
      intro a ha
      rw [← hu] at ha
      exact List.mem_takeWhile_imp ha
    have hover : t.takeWhile isWordPart = [] ∧ t.dropWhile isWordPart = t := by
      cases t with
      | nil => exact ⟨rfl, rfl⟩
      | cons b t => simp [not_isWordPart_of_isBlank (ht.isBlank rfl)]
    have hsealed : ¬ sealedTail.isPrefixOf t := by
      rw [List.isPrefixOf_iff_prefix]
      rintro ⟨r, rfl⟩
      exact absurd (ht.isBlank rfl) (by decide)
    unfold word
    simp only [List.takeWhile_append_of_pos hall, List.dropWhile_append_of_pos hall, hover,
      List.append_nil]
    rw [if_neg fun hn => hsealed hn.2, ← hx, hu]

theorem slash_reread {s u rest t : List Char} {x : Symbol}
    (h : slash s = .piece ⟨some x, '/' :: u⟩ rest) (ht : EndsToken t) :
    slash (u ++ t) = .piece ⟨some x, '/' :: u⟩ t := by
  unfold slash at h
  split at h
  next => cases h
  next s =>
    obtain ⟨_, _, hp⟩ := closed_eq_piece_iff.1 h
    cases hp
  next =>
    cases h
    rw [List.nil_append, slash]
    · rintro v rfl
      exact absurd (ht.isBlank rfl) (by decide)
    · rintro v rfl
      exact absurd (ht.isBlank rfl) (by decide)

theorem quote_reread {s u rest t : List Char} {x : Symbol}
    (h : quote s = .piece ⟨some x, '"' :: u⟩ rest) (ht : EndsToken t) :
    quote (u ++ t) = .piece ⟨some x, '"' :: u⟩ t := by
  unfold quote at h
  split at h
  next s =>
    obtain ⟨v, hv, hp⟩ := closed_eq_piece_iff.1 h
    obtain ⟨rfl, rfl⟩ : x = .string ∧ u = '"' :: '"' :: v := by simpa using hp
    exact closed_eq_piece_iff.2 ⟨v, throughBlock_reread hv t, rfl⟩
  next _ hs =>
    obtain ⟨v, hv, hp⟩ := closed_eq_piece_iff.1 h
    obtain ⟨rfl, rfl⟩ : x = .string ∧ u = v := by simpa using hp
    have happend := (throughQuote_append '"' s).1 rest (by rw [hv])
    rw [hv] at happend
    have hnot : t.head? ≠ some '"' := fun hhead => absurd (ht.isBlank hhead) (by decide)
    rw [quote]
    · exact closed_eq_piece_iff.2 ⟨u, throughQuote_reread (by decide) hv t, rfl⟩
    · intro w hw
      obtain _ | ⟨a, _ | ⟨b, u⟩⟩ := u
      · obtain rfl : t = '"' :: '"' :: w := hw
        exact hnot rfl
      · obtain rfl : t = '"' :: w := (List.cons.inj hw).2
        exact hnot rfl
      · simp only [List.cons_append, List.cons.injEq] at hw
        exact hs (u ++ rest) (by simp [← happend, hw])

theorem number_reread {c : Char} {s u rest t : List Char} {x : Symbol}
    (h : number c s = .piece ⟨some x, c :: u⟩ rest) (ht : EndsToken t) :
    number c (u ++ t) = .piece ⟨some x, c :: u⟩ t := by
  simp only [number, piece.injEq, Piece.mk.injEq, List.cons.injEq, true_and] at h
  obtain ⟨⟨hx, hu⟩, hrest⟩ := h
  have hlower : (u ++ t).head? = some 'x' ↔ s.head? = some 'x' := by
    rw [← hu]
    exact head?_numberTail_append ht s (by decide)
  have hupper : (u ++ t).head? = some 'X' ↔ s.head? = some 'X' := by
    rw [← hu]
    exact head?_numberTail_append ht s (by decide)
  have htail := numberTail_reread (Prod.ext hu hrest) ht
  simp only [number, hlower, hupper, htail, ← hx]

theorem of_reread {c : Char} {s u rest t : List Char} {x : Symbol}
    (h : of c s = .piece ⟨some x, c :: u⟩ rest) (ht : EndsToken t) :
    of c (u ++ t) = .piece ⟨some x, c :: u⟩ t := by
  unfold of at h
  split_ifs at h with hblank hslash hquote hchar hnumber hword
  · cases h
  · subst hslash
    simpa [of, hblank] using slash_reread h ht
  · subst hquote
    simpa [of, hblank] using quote_reread h ht
  · subst hchar
    obtain ⟨v, hv, hp⟩ := closed_eq_piece_iff.1 h
    obtain ⟨rfl, rfl⟩ : x = .character ∧ u = v := by simpa using hp
    have hclosed : closed (some .character) .characterLiteral ['\''] (throughQuote '\'' (u ++ t)) =
        .piece ⟨some .character, '\'' :: u⟩ t :=
      closed_eq_piece_iff.2 ⟨u, throughQuote_reread (by decide) hv t, rfl⟩
    simpa [of, hblank] using hclosed
  · have hhead : (u ++ t).head?.any Char.isDigit = s.head?.any Char.isDigit := by
      have hu : (numberTail (c = '0' && (s.head? = some 'x' || s.head? = some 'X')) c s).1 = u := by
        simp only [number, piece.injEq, Piece.mk.injEq, List.cons.injEq, true_and] at h
        exact h.1.2
      have hdigit (d : Char) (hd : d.isDigit) : (u ++ t).head? = some d ↔ s.head? = some d := by
        rw [← hu]
        exact head?_numberTail_append ht s (by simp [Char.isAlphanum, hd])
      rw [Bool.eq_iff_iff, Option.any_eq_true, Option.any_eq_true]
      constructor
      · rintro ⟨d, hd, hdd⟩
        exact ⟨d, (hdigit d hdd).1 hd, hdd⟩
      · rintro ⟨d, hd, hdd⟩
        exact ⟨d, (hdigit d hdd).2 hd, hdd⟩
    rw [← hhead] at hnumber
    simp only [of, hblank, hslash, hquote, hchar, hnumber, if_true, if_false]
    exact number_reread h ht
  · have hdot : c ≠ '.' := by
      rintro rfl
      revert hword
      decide
    have hdigit : c.isDigit = false := by simp_all
    simp only [of, hblank, hslash, hquote, hchar, hdigit, hdot, hword, if_true, if_false]
    simpa using word_reread h ht
  · cases h
    have hdigit : c.isDigit = false := by simp_all
    have hnot : t.head?.any Char.isDigit = false := by
      rw [Option.any_eq_false]
      intro d hd
      simpa using not_isDigit_of_isBlank (ht.isBlank hd)
    simp [of, hblank, hslash, hquote, hchar, hdigit, hword, hnot]

end Head

theorem scan_cons (c : Char) (s : List Char) : scan (c :: s) =
    match Head.of c s with
    | .piece p rest => (scan rest).cons p
    | .unterminated what text => ⟨[], some (what, text)⟩ := by
  conv => lhs; unfold scan
  split
  next hp => simp only [hp]
  next hu => simp only [hu]

theorem scan_of_piece {c : Char} {s rest : List Char} {p : Piece} (h : Head.of c s = .piece p rest) :
    scan (c :: s) = (scan rest).cons p := by
  rw [scan_cons, h]

theorem scan_nil : scan [] = ⟨[], none⟩ := by
  unfold scan
  rfl

theorem scan_of_head {c : Char} {s rest : List Char} {p : Piece} {ps : List Piece}
    (h : Head.of c s = .piece p rest) (hrest : scan rest = ⟨ps, none⟩) :
    scan (c :: s) = ⟨p :: ps, none⟩ := by
  rw [scan_of_piece h, hrest]
  rfl

theorem scan_of_token {c : Char} {s : List Char} {x : Symbol}
    (h : Head.of c s = .piece ⟨some x, c :: s⟩ []) : scan (c :: s) = ⟨[⟨some x, c :: s⟩], none⟩ :=
  scan_of_head h scan_nil

theorem scan_blank {b : Char} (hb : isBlank b) (s : List Char) :
    scan (b :: s) = (scan s).cons ⟨none, [b]⟩ :=
  scan_of_piece (by simp [Head.of, hb])

theorem scan_self {c : Char} {s u rest : List Char} {x : Symbol}
    (h : Head.of c s = .piece ⟨some x, c :: u⟩ rest) : scan (c :: u) = ⟨[⟨some x, c :: u⟩], none⟩ := by
  have hself := Head.of_reread h (.inl rfl)
  rw [List.append_nil] at hself
  exact scan_of_token hself

theorem scan_append_apart {s t : List Char} {x : Symbol} (h : scan s = ⟨[⟨some x, s⟩], none⟩)
    (ht : EndsToken t) : scan (s ++ t) = (scan t).cons ⟨some x, s⟩ := by
  cases s with
  | nil =>
    rw [scan_nil] at h
    cases h
  | cons c s =>
    rw [scan_cons] at h
    split at h
    next p rest hp =>
      simp only [Pieces.cons, Pieces.mk.injEq, List.cons.injEq] at h
      obtain ⟨⟨rfl, _⟩, _⟩ := h
      exact scan_of_piece (Head.of_reread hp ht)
    next => simp at h

end MemberOrder
