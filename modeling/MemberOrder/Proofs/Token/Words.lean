import MemberOrder.Proofs.Token.Lossless
/-! Where words end. A name or reserved word is read as far as it goes, so that no other follows it directly.
The word `non-sealed` is read wherever it begins, and anything can stand behind it. Main statement:
`words_end`. -/
namespace MemberOrder

def Symbol.isWord : Symbol → Bool
  | .keyword _ | .identifier _ => true
  | _ => false

theorem Symbol.isWord_ofWord (w : String) : (ofWord w).isWord = true := by
  unfold ofWord
  split <;> rfl

theorem Symbol.isWord_ofSign (c : Char) : (ofSign c).isWord = false := by
  unfold ofSign
  split <;> rfl

def nonSealed : List Char := ['n', 'o', 'n'] ++ sealedTail

theorem isWordPart_of_isWordStart {c : Char} (h : isWordStart c) : isWordPart c := by
  simp only [isWordStart, Bool.or_eq_true] at h
  obtain (h | h) | h := h <;> simp [isWordPart, h]

namespace Head

variable {c : Char} {s w rest : List Char} {x : Symbol}

theorem word_of (h : of c s = .piece ⟨some x, w⟩ rest) (hx : x.isWord) :
    isWordStart c ∧ word c s = .piece ⟨some x, w⟩ rest := by
  unfold of at h
  split_ifs at h with hblank hslash hquote hchar hnumber hword
  · cases h
  · unfold slash at h
    split at h
    next => cases h
    next =>
      obtain ⟨u, -, hp⟩ := closed_eq_piece_iff.1 h
      cases hp
    next =>
      cases h
      cases hx
  · unfold quote at h
    split at h
    all_goals
      obtain ⟨u, -, hp⟩ := closed_eq_piece_iff.1 h
      cases hp
      cases hx
  · obtain ⟨u, -, hp⟩ := closed_eq_piece_iff.1 h
    cases hp
    cases hx
  · cases h
    cases hx
  · exact ⟨hword, h⟩
  · cases h
    rw [Symbol.isWord_ofSign] at hx
    cases hx

theorem word_ends (h : word c s = .piece ⟨some x, w⟩ rest) (hc : isWordStart c) :
    x = .keyword (.modifier .nonSealed) ∧ w = nonSealed ∨
      (∀ a ∈ w, isWordPart a) ∧ rest.head?.any isWordPart = false := by
  unfold word at h
  dsimp only at h
  split at h
  next hnon =>
    cases h
    exact .inl ⟨rfl, by rw [hnon.1]; rfl⟩
  next =>
    cases h
    refine .inr ⟨fun a ha => ?_, ?_⟩
    · obtain rfl | ha := List.mem_cons.1 ha
      · exact isWordPart_of_isWordStart hc
      · exact List.mem_takeWhile_imp ha
    · rw [Option.any_eq_false]
      intro a ha
      have hover := List.head?_dropWhile_not isWordPart s
      rw [ha] at hover
      simpa using hover

theorem of_nonSealed (t : List Char) : of 'n' ('o' :: 'n' :: (sealedTail ++ t)) =
    .piece ⟨some (.keyword (.modifier .nonSealed)), nonSealed⟩ t := by
  have ho : isWordPart 'o' := by decide
  have hn : isWordPart 'n' := by decide
  have hd : isWordPart '-' = false := by decide
  have hof : of 'n' ('o' :: 'n' :: (sealedTail ++ t)) = word 'n' ('o' :: 'n' :: (sealedTail ++ t)) := rfl
  rw [hof]
  simp [word, nonSealed, sealedTail, ho, hn, hd]

end Head

/-- A token stands in `s`, which begins at `p`, between two texts, and what is behind had no part in it. -/
structure Token.StandsIn (t : Token) (p : Position) (s before behind : List Char) : Prop where
  text : s = before ++ (t.text ++ behind)
  span : t.span = .between (p.after before) (p.after (before ++ t.text))
  head : ∃ c u, t.text = c :: u ∧ Head.of c (u ++ behind) = .piece ⟨some t.symbol, t.text⟩ behind

theorem exists_standsIn {t : Token} {p : Position} {s : List Char}
    (h : t ∈ tokensFrom p (scan s).pieces) : ∃ before behind, t.StandsIn p s before behind := by
  fun_induction scan s generalizing p with
  | case1 => cases h
  | case3 => cases h
  | case2 c s q rest hq ih =>
    obtain ⟨happend, hne⟩ := Head.append_of_piece hq
    obtain ⟨symbol, text⟩ := q
    have hrest (h : t ∈ tokensFrom (p.after text) (scan rest).pieces) :
        ∃ before behind, t.StandsIn p (c :: s) before behind := by
      obtain ⟨before, behind, hstands⟩ := ih h
      refine ⟨text ++ before, behind, ?_, ?_, hstands.head⟩
      · rw [← happend, hstands.text, List.append_assoc]
      · simpa only [List.append_assoc, Position.after_append] using hstands.span
    cases symbol with
    | none => exact hrest h
    | some x =>
      obtain rfl | h := List.mem_cons.1 h
      · obtain ⟨d, u, rfl⟩ := List.exists_cons_of_ne_nil hne
        obtain ⟨rfl, rfl⟩ : d = c ∧ u ++ rest = s := List.cons.inj happend
        exact ⟨[], rest, rfl, rfl, d, u, rfl, hq⟩
      · exact hrest h

section

variable {t u : Token} {source before behind : List Char}

theorem Token.StandsIn.bytes_eq (h : t.StandsIn .start source before behind) :
    t.span.start = byteCount before ∧ t.span.stop = byteCount (before ++ t.text) := by
  simp [h.span, Span.between, Position.start_after]

theorem Token.StandsIn.word_ends (h : t.StandsIn .start source before behind) (hword : t.symbol.isWord) :
    t.symbol = .keyword (.modifier .nonSealed) ∧ t.text = nonSealed ∨
      (∀ c ∈ t.text, isWordPart c) ∧ behind.head?.any isWordPart = false := by
  obtain ⟨c, w, -, hhead⟩ := h.head
  obtain ⟨hc, hw⟩ := Head.word_of hhead hword
  exact Head.word_ends hw hc

theorem eq_of_byteCount_eq {s t v w : List Char} (h : s ++ v = t ++ w) (hlen : byteCount s = byteCount t) : s = t :=
  calc s = takeBytes (byteCount s) (s ++ v) := (takeBytes_append s v).symm
    _ = takeBytes (byteCount t) (t ++ w) := by rw [h, hlen]
    _ = t := takeBytes_append t w

theorem Token.StandsIn.follows {before' behind' : List Char} (ht : t.StandsIn .start source before behind)
    (hu : u.StandsIn .start source before' behind') (h : t.span.stop = u.span.start) :
    behind = u.text ++ behind' := by
  have hsource : (before ++ t.text) ++ behind = before' ++ (u.text ++ behind') := by
    rw [List.append_assoc, ← ht.text, hu.text]
  have hlen : byteCount (before ++ t.text) = byteCount before' := by
    rw [← ht.bytes_eq.2, h, hu.bytes_eq.1]
  rw [eq_of_byteCount_eq hsource hlen] at hsource
  exact List.append_cancel_left hsource

end

/-- A name or reserved word goes on to the first character that cannot go on with it, so that no other word
stands directly behind it. Only `non-sealed`, which is read wherever it begins, ends with itself, whatever
stands behind. -/
theorem words_end {source : List Char} {ts : Tokens} (h : tokenize source = .ok ts) :
    (∀ t ∈ ts.list, t.symbol.isWord → ∃ before behind, source = before ++ (t.text ++ behind) ∧
      t.span = .between (Position.start.after before) (Position.start.after (before ++ t.text)) ∧
      (t.symbol = .keyword (.modifier .nonSealed) ∧ t.text = nonSealed ∨
        (∀ c ∈ t.text, isWordPart c) ∧ behind.head?.any isWordPart = false)) ∧
    (∀ t ∈ ts.list, ∀ u ∈ ts.list, t.symbol.isWord → u.symbol.isWord → t.span.stop = u.span.start →
      t.symbol = .keyword (.modifier .nonSealed) ∧ t.text = nonSealed) ∧
    ∀ s, scan (nonSealed ++ s) = (scan s).cons ⟨some (.keyword (.modifier .nonSealed)), nonSealed⟩ := by
  obtain ⟨-, rfl⟩ := tokenize_eq_ok h
  refine ⟨fun t ht hword => ?_, fun t ht u hu hword huword hnext => ?_, fun s => ?_⟩
  · obtain ⟨before, behind, hstands⟩ := exists_standsIn ht
    exact ⟨before, behind, hstands.text, hstands.span, hstands.word_ends hword⟩
  · obtain ⟨before, behind, hstands⟩ := exists_standsIn ht
    obtain ⟨before', behind', hustands⟩ := exists_standsIn hu
    obtain ⟨c, w, htext, hhead⟩ := hustands.head
    have hc := isWordPart_of_isWordStart (Head.word_of hhead huword).1
    refine (hstands.word_ends hword).resolve_right fun hend => ?_
    have hnot := hend.2
    rw [hstands.follows hustands hnext, htext] at hnot
    simp [hc] at hnot
  · exact scan_of_piece (Head.of_nonSealed s)

def nonSealedBox : List Char := nonSealed ++ ['B', 'o', 'x']

theorem tokenize_nonSealedBox : ∃ ts t u, tokenize nonSealedBox = .ok ts ∧ ts.list = [t, u] ∧
    t.symbol = .keyword (.modifier .nonSealed) ∧ u.symbol.isWord ∧ t.span.stop = u.span.start := by
  have hbox : scan ['B', 'o', 'x'] = ⟨[⟨some (.ofWord "Box"), ['B', 'o', 'x']⟩], none⟩ :=
    scan_of_head rfl scan_nil
  have hscan : scan nonSealedBox = ⟨_, none⟩ := scan_of_head (Head.of_nonSealed ['B', 'o', 'x']) hbox
  exact ⟨_, _, _, tokenize_of_scan hscan, rfl, rfl, Symbol.isWord_ofWord "Box", rfl⟩

theorem words_end_nonSealedBox : ∃ ts t u, tokenize nonSealedBox = .ok ts ∧ ts.list = [t, u] ∧
    t.text = nonSealed ∧ ∃ before behind, nonSealedBox = before ++ (u.text ++ behind) ∧
      (u.symbol = .keyword (.modifier .nonSealed) ∧ u.text = nonSealed ∨
        (∀ c ∈ u.text, isWordPart c) ∧ behind.head?.any isWordPart = false) := by
  obtain ⟨ts, t, u, hts, hlist, ht, hu, hnext⟩ := tokenize_nonSealedBox
  have hword : t.symbol.isWord := by rw [ht]; rfl
  have htmem : t ∈ ts.list := by simp [hlist]
  have humem : u ∈ ts.list := by simp [hlist]
  obtain ⟨hends, hbeside, -⟩ := words_end hts
  obtain ⟨before, behind, hsource, -, hend⟩ := hends u humem hu
  exact ⟨ts, t, u, hts, hlist, (hbeside t htmem u humem hword hu hnext).2, before, behind, hsource, hend⟩

/-- A name can stand directly behind a reserved word. -/
theorem exists_words_beside : ¬ ∀ source ts, tokenize source = .ok ts → ∀ t ∈ ts.list, ∀ u ∈ ts.list,
    t.symbol.isWord → u.symbol.isWord → t.span.stop ≠ u.span.start := by
  obtain ⟨ts, t, u, hts, hlist, ht, hu, hnext⟩ := tokenize_nonSealedBox
  have hword : t.symbol.isWord := by rw [ht]; rfl
  exact fun h => h nonSealedBox ts hts t (by simp [hlist]) u (by simp [hlist]) hword hu hnext

end MemberOrder
