import MemberOrder.Proofs.Token.Lossless
/-! Seams. How far a piece reaches shows in the character behind it, so a text is cut in the same places
in front of whatever begins alike, and its end is like the end of a line. Main statements:
`scan_ahead`, `Shut.of_scan`, `scan_append_feed`. -/
namespace MemberOrder

/-- Behind a piece, `s` and `t` are the same: they begin with the same character, the end counting as a
line feed, and both or neither with the end of `non-sealed`. -/
structure Ahead (s t : List Char) : Prop where
  head : s.head?.getD '\n' = t.head?.getD '\n'
  seals : sealedTail.isPrefixOf s = sealedTail.isPrefixOf t

theorem head?_any_eq {f : Char → Bool} (hf : f '\n' = false) (s : List Char) :
    s.head?.any f = f (s.head?.getD '\n') := by
  cases s <;> simp [hf]

namespace Ahead

variable {s t : List Char} (h : Ahead s t)

include h

theorem any_append {f : Char → Bool} (hf : f '\n' = false) (u : List Char) :
    (u ++ s).head?.any f = (u ++ t).head?.any f := by
  cases u with
  | nil => rw [List.nil_append, List.nil_append, head?_any_eq hf, head?_any_eq hf, h.head]
  | cons c u => rfl

theorem head?_append_iff {c : Char} (hc : c ≠ '\n') (u : List Char) :
    (u ++ s).head? = some c ↔ (u ++ t).head? = some c := by
  have hany := h.any_append (f := (· = c)) (by simpa using hc.symm) u
  rw [Bool.eq_iff_iff] at hany
  simpa only [Option.any_eq_true, decide_eq_true_eq, exists_eq_right] using hany

end Ahead

theorem takeWhile_append_eq_iff {f : Char → Bool} {u s : List Char} :
    (u ++ s).takeWhile f = u ↔ (∀ c ∈ u, f c) ∧ s.head?.any f = false := by
  have hover : s.takeWhile f = [] ↔ s.head?.any f = false := by
    cases s with
    | nil => simp
    | cons c s => by_cases hc : f c <;> simp [hc]
  rw [← hover]
  constructor
  · intro h
    have hall : ∀ c ∈ u, f c := by
      intro c hc
      rw [← h] at hc
      exact List.mem_takeWhile_imp hc
    rw [List.takeWhile_append_of_pos hall] at h
    exact ⟨hall, List.append_right_eq_self.1 h⟩
  · intro h
    rw [List.takeWhile_append_of_pos h.1, h.2, List.append_nil]

theorem dropWhile_append_eq {f : Char → Bool} {u s : List Char} (h : (u ++ s).takeWhile f = u) :
    (u ++ s).dropWhile f = s := by
  have happend := List.takeWhile_append_dropWhile (p := f) (l := u ++ s)
  rw [h] at happend
  exact List.append_cancel_left happend

def continuesNumber (hex : Bool) (last c : Char) : Bool :=
  c.isAlphanum || c = '_' || c = '.' || ((c = '+' || c = '-') && isExponentMark last && !hex)

theorem numberTail_stops_iff {hex : Bool} {last : Char} {s : List Char} :
    numberTail hex last s = ([], s) ↔ s.head?.any (continuesNumber hex last) = false := by
  cases s with
  | nil => simp [numberTail]
  | cons c s =>
    rw [numberTail]
    change (if continuesNumber hex last c then _ else _) = _ ↔ _
    by_cases hc : continuesNumber hex last c <;> simp [hc, pushed]

theorem numberTail_ahead {hex : Bool} {last : Char} {u s t : List Char}
    (h : numberTail hex last (u ++ s) = (u, s)) (ht : Ahead s t) :
    numberTail hex last (u ++ t) = (u, t) := by
  induction u generalizing last with
  | nil =>
    have hfeed : continuesNumber hex last '\n' = false := rfl
    have hsame := ht.any_append hfeed []
    rw [List.nil_append, numberTail_stops_iff] at h ⊢
    exact hsame.symm.trans h
  | cons c u ih =>
    rw [List.cons_append, numberTail] at h ⊢
    split at h
    next hc =>
      obtain ⟨v, hv, hu⟩ := pushed_eq_iff.1 h
      obtain rfl := (List.cons.inj hv).2
      rw [if_pos hc, ih hu]
      rfl
    next => cases h

theorem takeWhile_ahead {f : Char → Bool} (hf : f '\n' = false) {u s t : List Char}
    (h : (u ++ s).takeWhile f = u) (ht : Ahead s t) : (u ++ t).takeWhile f = u := by
  rw [takeWhile_append_eq_iff] at h ⊢
  exact ⟨h.1, (ht.any_append hf []).symm.trans h.2⟩

theorem throughComment_reread {s u rest : List Char} (h : throughComment s = (u, some rest))
    (t : List Char) : throughComment (u ++ t) = (u, some t) := by
  obtain ⟨v, rfl, _, hv⟩ := throughComment_eq_some_iff.1 h
  exact throughComment_eq_some_iff.2 ⟨v, rfl, rfl, hv⟩

namespace Head

variable {c : Char} {u s t : List Char} {x : Option Symbol}

theorem slash_ahead (h : slash (u ++ s) = .piece ⟨x, '/' :: u⟩ s) (ht : Ahead s t) :
    slash (u ++ t) = .piece ⟨x, '/' :: u⟩ t := by
  unfold slash at h
  split at h
  next v hv =>
    simp only [piece.injEq, Piece.mk.injEq, List.cons.injEq, true_and] at h
    obtain ⟨⟨rfl, hu⟩, hs⟩ := h
    obtain ⟨w, hw, rfl⟩ : ∃ w, (w ++ s).takeWhile (· ≠ '\n') = w ∧ v = w ++ s := by
      have hsplit := List.takeWhile_append_dropWhile (p := (· ≠ '\n')) (l := v)
      rw [hs] at hsplit
      exact ⟨_, by rw [hsplit], hsplit.symm⟩
    rw [hw] at hu
    have hw' := takeWhile_ahead (by decide) hw ht
    rw [← hu, List.cons_append, slash, hw', dropWhile_append_eq hw']
  next v hv =>
    obtain ⟨w, hw, hp⟩ := closed_eq_piece_iff.1 h
    obtain ⟨rfl, rfl⟩ : x = none ∧ u = '*' :: w := by simpa using hp
    exact closed_eq_piece_iff.2 ⟨w, throughComment_reread hw t, rfl⟩
  next hslash hstar =>
    simp only [piece.injEq, Piece.mk.injEq, List.cons.injEq, true_and] at h
    obtain ⟨⟨rfl, rfl⟩, _⟩ := h
    have hnot {d : Char} (hd : d ≠ '\n') (hs : ∀ v, s ≠ d :: v) (v : List Char) : t ≠ d :: v := by
      rintro rfl
      obtain ⟨w, rfl⟩ := List.head?_eq_some_iff.1 ((ht.head?_append_iff hd []).2 rfl)
      exact hs w rfl
    rw [List.nil_append, slash]
    · exact hnot (by decide) hslash
    · exact hnot (by decide) hstar

theorem quote_ahead (h : quote (u ++ s) = .piece ⟨x, '"' :: u⟩ s) (ht : Ahead s t) :
    quote (u ++ t) = .piece ⟨x, '"' :: u⟩ t := by
  unfold quote at h
  split at h
  next v hv =>
    obtain ⟨w, hw, hp⟩ := closed_eq_piece_iff.1 h
    obtain ⟨rfl, rfl⟩ : x = some .string ∧ u = '"' :: '"' :: w := by simpa using hp
    exact closed_eq_piece_iff.2 ⟨w, throughBlock_reread hw t, rfl⟩
  next _ hs =>
    obtain ⟨w, hw, hp⟩ := closed_eq_piece_iff.1 h
    obtain ⟨rfl, rfl⟩ : x = some .string ∧ u = w := by simpa using hp
    obtain ⟨r, hquote⟩ := eq_concat_of_throughQuote hw
    rw [quote]
    · exact closed_eq_piece_iff.2 ⟨u, throughQuote_reread (by decide) hw t, rfl⟩
    · intro v hv
      obtain _ | ⟨a, _ | ⟨b, u⟩⟩ := u
      · simp at hquote
      · obtain ⟨rfl, rfl⟩ : a = '"' ∧ t = '"' :: v := by simpa using hv
        have hhead := (ht.head?_append_iff (c := '"') (by decide) []).2 rfl
        obtain ⟨r, rfl⟩ := List.head?_eq_some_iff.1 hhead
        exact hs r rfl
      · simp only [List.cons_append, List.cons.injEq] at hv
        exact hs (u ++ s) (by simp [hv])

theorem number_ahead (h : number c (u ++ s) = .piece ⟨x, c :: u⟩ s) (ht : Ahead s t) :
    number c (u ++ t) = .piece ⟨x, c :: u⟩ t := by
  simp only [number, piece.injEq, Piece.mk.injEq, List.cons.injEq, true_and] at h
  obtain ⟨⟨rfl, hu⟩, hs⟩ := h
  have htail := numberTail_ahead (Prod.ext hu hs) ht
  have hlower := ht.head?_append_iff (c := 'x') (by decide) u
  have hupper := ht.head?_append_iff (c := 'X') (by decide) u
  simp only [hlower, hupper] at htail
  simp only [number, htail]

theorem word_ahead (h : word c (u ++ s) = .piece ⟨x, c :: u⟩ s) (ht : Ahead s t) :
    word c (u ++ t) = .piece ⟨x, c :: u⟩ t := by
  unfold word at h ⊢
  dsimp only at h ⊢
  split at h
  next hnon =>
    simp only [piece.injEq, Piece.mk.injEq, List.cons_append, List.cons.injEq, true_and] at h
    obtain ⟨⟨rfl, hu⟩, hs⟩ := h
    obtain ⟨rfl, hon⟩ := List.cons.inj hnon.1
    rw [hon] at hu
    subst hu
    have ho : isWordPart 'o' := by decide
    have hn : isWordPart 'n' := by decide
    have hd : isWordPart '-' = false := by decide
    simp [ho, hn, hd, sealedTail]
  next hnon =>
    simp only [piece.injEq, Piece.mk.injEq, List.cons.injEq, true_and] at h
    obtain ⟨⟨rfl, hu⟩, hs⟩ := h
    have hu' := takeWhile_ahead (by decide) hu ht
    rw [hu, hs, ht.seals] at hnon
    rw [hu', dropWhile_append_eq hu', if_neg hnon, hu]

theorem of_ahead (h : of c (u ++ s) = .piece ⟨x, c :: u⟩ s) (ht : Ahead s t) :
    of c (u ++ t) = .piece ⟨x, c :: u⟩ t := by
  have hdigit := ht.any_append (f := Char.isDigit) (by decide) u
  unfold of at h ⊢
  rw [← hdigit]
  split_ifs at h ⊢ with hblank hslash hquote hchar hnumber hword
  · simp only [piece.injEq, Piece.mk.injEq, List.cons.injEq, true_and] at h ⊢
    obtain ⟨⟨rfl, rfl⟩, _⟩ := h
    exact ⟨⟨rfl, rfl⟩, rfl⟩
  · subst hslash
    exact slash_ahead h ht
  · subst hquote
    exact quote_ahead h ht
  · subst hchar
    obtain ⟨w, hw, hp⟩ := closed_eq_piece_iff.1 h
    obtain ⟨rfl, rfl⟩ : x = some .character ∧ u = w := by simpa using hp
    exact closed_eq_piece_iff.2 ⟨u, throughQuote_reread (by decide) hw t, rfl⟩
  · exact number_ahead h ht
  · exact word_ahead h ht
  · simp only [piece.injEq, Piece.mk.injEq, List.cons.injEq, true_and] at h ⊢
    obtain ⟨⟨rfl, rfl⟩, _⟩ := h
    exact ⟨⟨rfl, rfl⟩, rfl⟩

end Head

inductive Alike : List Char → List Char → Prop
  | same {c} (hc : c ∉ sealedTail) (s t : List Char) : Alike (c :: s) (c :: t)
  | ending (t : List Char) : Alike [] ('\n' :: t)

theorem prefix_append_cons_iff {c : Char} {l : List Char} (hc : c ∉ l) (u s : List Char) :
    l <+: u ++ c :: s ↔ l <+: u := by
  induction l generalizing u with
  | nil => simp
  | cons a l ih =>
    rw [List.mem_cons, not_or] at hc
    cases u with
    | nil => simp [List.cons_prefix_cons, Ne.symm hc.1]
    | cons b u => simp [List.cons_prefix_cons, ih hc.2]

theorem Alike.ahead {s t : List Char} (h : Alike s t) (u : List Char) : Ahead (u ++ s) (u ++ t) := by
  constructor
  · cases u with
    | nil => cases h <;> rfl
    | cons a u => rfl
  · rw [Bool.eq_iff_iff, List.isPrefixOf_iff_prefix, List.isPrefixOf_iff_prefix]
    cases h with
    | same hc => rw [prefix_append_cons_iff hc, prefix_append_cons_iff hc]
    | ending => rw [List.append_nil, prefix_append_cons_iff (by decide)]

theorem scan_uncons {s : List Char} {p : Piece} {ps : List Piece} {o : Option (Construct × List Char)}
    (h : scan s = ⟨p :: ps, o⟩) : ∃ c u rest, p.text = c :: u ∧ s = c :: (u ++ rest) ∧
      Head.of c (u ++ rest) = .piece ⟨p.symbol, c :: u⟩ rest ∧ scan rest = ⟨ps, o⟩ := by
  cases s with
  | nil =>
    rw [scan_nil] at h
    cases h
  | cons c s =>
    rw [scan_cons] at h
    split at h
    next q rest hq =>
      simp only [Pieces.cons, Pieces.mk.injEq, List.cons.injEq] at h
      obtain ⟨⟨rfl, rfl⟩, rfl⟩ := h
      obtain ⟨happend, hne⟩ := Head.append_of_piece hq
      obtain ⟨d, u, hu⟩ := List.exists_cons_of_ne_nil hne
      obtain ⟨rfl, rfl⟩ : d = c ∧ u ++ rest = s := by simpa [hu] using happend
      exact ⟨d, u, rest, hu, rfl, by rw [hq, ← hu], rfl⟩
    next => cases h

theorem scan_alike {s t : List Char} {ps qs : List Piece} {o : Option (Construct × List Char)}
    (h : scan (joined ps ++ s) = ⟨ps ++ qs, o⟩) (ht : Alike s t) :
    scan (joined ps ++ t) = (scan t).prepend ps := by
  induction ps with
  | nil => rfl
  | cons p ps ih =>
    obtain ⟨c, u, rest, hu, hs, hhead, hrest⟩ := scan_uncons h
    have htext (v : List Char) : joined (p :: ps) ++ v = c :: (u ++ (joined ps ++ v)) := by
      simp [joined, hu]
    rw [htext] at hs ⊢
    obtain rfl : joined ps ++ s = rest := List.append_cancel_left (List.cons.inj hs).2
    have hp : (⟨p.symbol, c :: u⟩ : Piece) = p := by rw [← hu]
    rw [scan_of_piece (Head.of_ahead hhead (ht.ahead (joined ps))), ih hrest, hp]
    rfl

theorem joined_append (ps qs : List Piece) : joined (ps ++ qs) = joined ps ++ joined qs :=
  List.flatMap_append

theorem scan_drop {s : List Char} {ps qs : List Piece} (h : scan s = ⟨ps ++ qs, none⟩) :
    scan (joined qs) = ⟨qs, none⟩ := by
  induction ps generalizing s with
  | nil =>
    have happend := scan_append s (by rw [h])
    rw [h] at happend
    rwa [← happend] at h
  | cons p ps ih =>
    obtain ⟨_, _, _, _, _, _, hrest⟩ := scan_uncons h
    exact ih hrest

theorem scan_append_feed {s : List Char} {ps : List Piece} (h : scan s = ⟨ps, none⟩)
    (t : List Char) : scan (s ++ '\n' :: t) = (scan t).prepend (ps ++ [⟨none, ['\n']⟩]) := by
  have happend := scan_append s (by rw [h])
  rw [h] at happend
  have hscan : scan (joined ps ++ []) = ⟨ps ++ [], none⟩ := by simpa [happend] using h
  have hcut := scan_alike hscan (.ending t)
  rw [happend, scan_blank (by decide)] at hcut
  simpa [Pieces.prepend, Pieces.cons] using hcut

/-- These pieces are cut off in front of any text. -/
def Shut (ps : List Piece) : Prop :=
  ∀ t, scan (joined ps ++ t) = (scan t).prepend ps

namespace Shut

variable {ps qs : List Piece} {q : Piece} {s : List Char}

theorem nil : Shut [] := fun _ => rfl

theorem of_head {c : Char} {u : List Char} {x : Option Symbol}
    (h : ∀ t, Head.of c (u ++ t) = .piece ⟨x, c :: u⟩ t) : Shut [⟨x, c :: u⟩] := by
  intro t
  have htext : joined [⟨x, c :: u⟩] ++ t = c :: (u ++ t) := by simp [joined]
  rw [htext, scan_of_piece (h t)]
  rfl

theorem blank {c : Char} (hc : isBlank c) : Shut [⟨none, [c]⟩] :=
  of_head (u := []) fun t => by simp [Head.of, hc]

theorem blockComment {t : List Char} (ht : ¬ ['*', '/'] <:+: t) :
    Shut [⟨none, '/' :: '*' :: (t ++ ['*', '/'])⟩] := by
  intro s
  have htext : joined [⟨none, '/' :: '*' :: (t ++ ['*', '/'])⟩] ++ s =
      '/' :: '*' :: (t ++ '*' :: '/' :: s) := by simp [joined]
  rw [htext, scan_blockComment ht]
  rfl

theorem of_scan (h : scan s = ⟨ps ++ q :: qs, none⟩) (hq : Shut [q])
    (hc : ∀ c ∈ q.text.head?, c ∉ sealedTail) : Shut (ps ++ [q]) := by
  intro t
  have happend := scan_append s (by rw [h])
  have hsuffix := scan_drop h
  obtain ⟨c, u, _, hu, _, _, _⟩ := scan_uncons hsuffix
  rw [h] at happend
  have htext (v : List Char) : joined [q] ++ v = c :: (u ++ v) := by simp [joined, hu]
  have hs : joined ps ++ c :: (u ++ joined qs) = s := by
    rw [← happend, ← htext, ← joined_append]
    simp [joined_append]
  rw [← hs] at h
  have hcut := scan_alike h (.same (hc c (by simp [hu])) _ (u ++ t))
  rw [← htext, hq] at hcut
  rw [joined_append, List.append_assoc, hcut]
  simp [Pieces.prepend]

theorem not_mem_sealedTail_of_isBlank {c : Char} (hc : isBlank c) : c ∉ sealedTail := by
  intro hmem
  have hall : sealedTail.all (fun c => !isBlank c) := by decide
  have hnot := List.all_eq_true.1 hall c hmem
  rw [hc] at hnot
  cases hnot

theorem not_feed_of_scan {p : Piece} {r : List Char} (h : scan ('\n' :: r) = ⟨p :: qs, none⟩) :
    p.symbol = none := by
  rw [scan_blank (by decide)] at h
  simp only [Pieces.cons, Pieces.mk.injEq, List.cons.injEq] at h
  rw [← h.1.1]

theorem of_silent (h : scan s = ⟨ps ++ q :: qs, none⟩) (hps : Silent ps) (hq : q.symbol ≠ none) :
    Shut ps := by
  obtain rfl | ⟨fs, p, rfl⟩ := ps.eq_nil_or_concat
  · exact nil
  rw [List.concat_eq_append, List.append_assoc, List.singleton_append] at h
  rw [List.concat_eq_append]
  obtain ⟨c, u, rest, hu, _, hhead, hrest⟩ := scan_uncons (scan_drop h)
  have hsymbol : p.symbol = none := hps p (by simp)
  obtain ⟨symbol, text⟩ := p
  obtain rfl : symbol = none := hsymbol
  obtain rfl : text = c :: u := hu
  cases Head.formed hhead with
  | blank hc =>
    exact of_scan h (blank hc) fun d hd => by
      obtain rfl : d = c := by simpa [eq_comm] using hd
      exact not_mem_sealedTail_of_isBlank hc
  | blockComment ht =>
    exact of_scan h (blockComment ht) fun d hd => by
      obtain rfl : d = '/' := by simpa [eq_comm] using hd
      decide
  | lineComment ht =>
    obtain rfl | ⟨r, rfl⟩ := Head.head?_rest_of_lineComment hhead
    · rw [scan_nil] at hrest
      cases hrest
    · exact absurd (not_feed_of_scan hrest) hq

end Shut

end MemberOrder
