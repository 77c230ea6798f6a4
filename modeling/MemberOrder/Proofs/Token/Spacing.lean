import MemberOrder.Proofs.Token.Lossless
/-! Layout. A text whose tokens are set apart in another way, by any trivia that begins with white
space, has the same tokens. Main statement: `tokenize_spaced`. -/
namespace MemberOrder

def spaced : List (List Char) → List (List Char) → List Char
  | [], _ => []
  | t :: ts, gs => t ++ (gs.headD [] ++ spaced ts gs.tail)

def spoken (ps : List Piece) : List (Symbol × List Char) :=
  ps.filterMap fun p => p.symbol.map (·, p.text)

theorem spoken_append (ps qs : List Piece) : spoken (ps ++ qs) = spoken ps ++ spoken qs :=
  List.filterMap_append

theorem Silent.spoken_eq {ps : List Piece} (h : Silent ps) : spoken ps = [] := by
  refine List.filterMap_eq_nil_iff.2 fun p hp => ?_
  rw [h p hp]
  rfl

theorem map_tokensFrom (p : Position) (ps : List Piece) :
    (tokensFrom p ps).map (fun t => (t.symbol, t.text)) = spoken ps := by
  fun_induction tokensFrom p ps with
  | case1 => rfl
  | case2 p text ps ih => exact ih
  | case3 p x text ps ih => simp [spoken, ih]

theorem Apart.append {s : List Char} (h : Apart s) (t : List Char) : Apart (s ++ t) := by
  obtain ⟨b, u, rfl, hb⟩ := h
  exact ⟨b, u ++ t, rfl, hb⟩

theorem scan_spaced {ts : List Token} (hts : ∀ t ∈ ts, scan t.text = ⟨[⟨some t.symbol, t.text⟩], none⟩)
    {gaps : List (List Char)} (hgaps : ∀ g ∈ gaps, Trivia g ∧ Apart g)
    (hlen : gaps.length = ts.length - 1) {trail : List Char} (htrail : TriviaToEnd trail)
    (hend : trail = [] ∨ Apart trail) :
    ∃ ps, scan (spaced (ts.map (·.text)) gaps ++ trail) = ⟨ps, none⟩ ∧
      spoken ps = ts.map fun t => (t.symbol, t.text) := by
  induction ts generalizing gaps with
  | nil =>
    obtain ⟨ps, hps, hscan⟩ := scan_triviaToEnd htrail
    exact ⟨ps, hscan, hps.spoken_eq⟩
  | cons t ts ih =>
    have ht := hts t List.mem_cons_self
    have hts' := fun u hu => hts u (List.mem_cons_of_mem t hu)
    cases gaps with
    | nil =>
      obtain rfl : ts = [] := List.length_eq_zero_iff.1 (by simpa [eq_comm] using hlen)
      obtain ⟨ps, hps, hscan⟩ := scan_triviaToEnd htrail
      refine ⟨⟨some t.symbol, t.text⟩ :: ps, ?_, ?_⟩
      · have htext : spaced (List.map (·.text) [t]) [] ++ trail = t.text ++ trail := by simp [spaced]
        rw [htext, scan_append_apart ht hend, hscan]
        rfl
      · simpa [spoken] using hps.spoken_eq
    | cons g gaps =>
      obtain ⟨hg, hapart⟩ := hgaps g List.mem_cons_self
      have hgaps' : ∀ f ∈ gaps, Trivia f ∧ Apart f := fun f hf => hgaps f (List.mem_cons_of_mem g hf)
      have hlen' : gaps.length = ts.length - 1 := by
        simp only [List.length_cons] at hlen
        omega
      obtain ⟨qs, hqs, hspoken⟩ := ih hts' hgaps' hlen'
      obtain ⟨ps, hps, hscan⟩ := scan_trivia hg (spaced (ts.map (·.text)) gaps ++ trail)
      refine ⟨⟨some t.symbol, t.text⟩ :: (ps ++ qs), ?_, ?_⟩
      · have htext : spaced ((t :: ts).map (·.text)) (g :: gaps) ++ trail =
            t.text ++ (g ++ (spaced (ts.map (·.text)) gaps ++ trail)) := by simp [spaced]
        rw [htext, scan_append_apart ht (.inr (hapart.append _)), hscan, hqs]
        rfl
      · have hcons : spoken (⟨some t.symbol, t.text⟩ :: (ps ++ qs)) =
            (t.symbol, t.text) :: spoken (ps ++ qs) := rfl
        rw [hcons, spoken_append, hps.spoken_eq, hspoken]
        rfl

theorem map_payload_congr {ts us : List Token}
    (h : ts.map (fun t => (t.symbol, t.text)) = us.map fun t => (t.symbol, t.text)) :
    ts.map (fun t => (t.symbol, t.payload?)) = us.map fun t => (t.symbol, t.payload?) := by
  have hpayload := congrArg
    (List.map fun x : Symbol × List Char => (x.1, Token.payload? ⟨x.1, x.2, default⟩)) h
  rwa [List.map_map, List.map_map] at hpayload

/-- The tokens of a text, set apart in any other way, are the same tokens. -/
theorem tokenize_spaced {source : List Char} {ts : Tokens} (h : tokenize source = .ok ts)
    {lead trail : List Char} {gaps : List (List Char)} (hlead : Trivia lead)
    (hgaps : ∀ g ∈ gaps, Trivia g ∧ Apart g) (hlen : gaps.length = ts.list.length - 1)
    (htrail : TriviaToEnd trail) (hend : trail = [] ∨ Apart trail) :
    ∃ us, tokenize (lead ++ (spaced (ts.list.map fun t => excerpt source t.span) gaps ++ trail)) =
        .ok us ∧
      us.list.map (fun t => (t.symbol, t.payload?)) =
        ts.list.map fun t => (t.symbol, t.payload?) := by
  have htexts : ts.list.map (fun t => excerpt source t.span) = ts.list.map (·.text) :=
    List.map_congr_left fun t ht => excerpt_span h ht
  obtain ⟨qs, hqs, hspoken⟩ := scan_spaced (fun t ht => scan_text h ht) hgaps hlen htrail hend
  obtain ⟨ps, hps, hscan⟩ := scan_trivia hlead (spaced (ts.list.map (·.text)) gaps ++ trail)
  rw [hqs] at hscan
  rw [htexts]
  refine ⟨_, tokenize_of_scan hscan, map_payload_congr ?_⟩
  rw [map_tokensFrom, spoken_append, hps.spoken_eq, hspoken]
  rfl

/-- `'a'.5/`, and the same tokens with comments next to the point and to the slash. -/
theorem tokenize_spaced_slash : ∃ ts us, tokenize ['\'', 'a', '\'', '.', '5', '/'] = .ok ts ∧
    tokenize "//\n'a' /*'*/.5\n/ //".toList = .ok us ∧
    us.list.map (fun t => (t.symbol, t.payload?)) =
      ts.list.map fun t => (t.symbol, t.payload?) := by
  obtain ⟨ps, hps, htexts⟩ : ∃ ps, scan ['\'', 'a', '\'', '.', '5', '/'] = ⟨ps, none⟩ ∧
      (tokensFrom .start ps).map (·.text) = [['\'', 'a', '\''], ['.', '5'], ['/']] :=
    ⟨_, scan_of_head rfl <| scan_of_head rfl <| scan_of_head rfl scan_nil, rfl⟩
  have hts := tokenize_of_scan hps
  have hlen : (tokensFrom .start ps).length = 3 := by simpa using congrArg List.length htexts
  have hlead : Trivia "//\n".toList := .line (t := []) (by simp) .nil
  have hcomment : Trivia " /*'*/".toList := .blank (by decide) (.block (t := ['\'']) (by decide) .nil)
  have hfeed : Trivia "\n".toList := .blank (by decide) .nil
  have hgaps : ∀ g ∈ [" /*'*/".toList, "\n".toList], Trivia g ∧ Apart g := by
    intro g hg
    obtain rfl | rfl := by simpa using hg
    · exact ⟨hcomment, ' ', _, rfl, by decide⟩
    · exact ⟨hfeed, '\n', _, rfl, by decide⟩
  have htrail : TriviaToEnd " //".toList :=
    .line (s := [' ']) (t := []) (.blank (by decide) .nil) (by simp)
  obtain ⟨us, hus, hsame⟩ :=
    tokenize_spaced hts hlead hgaps (by simp [hlen]) htrail (.inr ⟨' ', _, rfl, by decide⟩)
  rw [List.map_congr_left fun t ht => excerpt_span hts ht, htexts] at hus
  exact ⟨_, us, hts, hus, hsame⟩

end MemberOrder
