import MemberOrder.Proofs.Token.Unclosed
/-! Literals on one line, and the line feeds in them. A line feed ends the search for the closing quote, but
not one that a backslash takes along. Main statement: `feeds_in_literals`. -/
namespace MemberOrder

def Token.IsOneLine (t : Token) : Prop :=
  t.symbol = .character ∨ t.symbol = .string ∧ ¬ ['"', '"', '"'] <+: t.text

def Symbol.isQuoted : Symbol → Bool
  | .string | .character => true
  | _ => false

theorem Symbol.isQuoted_ofWord (w : String) : (ofWord w).isQuoted = false := by
  unfold ofWord
  split <;> rfl

theorem Symbol.isQuoted_ofSign (c : Char) : (ofSign c).isQuoted = false := by
  unfold ofSign
  split <;> rfl

theorem Token.IsOneLine.isQuoted {t : Token} (h : t.IsOneLine) : t.symbol.isQuoted := by
  obtain h | ⟨h, -⟩ := h <;> rw [h] <;> rfl

/-- A text that can stand between the quotes of a literal on one line: in it neither a quote nor a line feed is
but what a backslash takes along, and no backslash at its end takes along the closing quote. -/
structure Construct.Encloses (what : Construct) (q : Char) (u : List Char) : Prop where
  quote : what.quote? = some q
  goesOn : GoesOn q u
  ends : escapes u = false

theorem exists_of_escapes {s : List Char} (h : escapes s = true) : ∃ t, s = t ++ ['\\'] := by
  obtain rfl | ⟨t, c, rfl⟩ := s.eq_nil_or_concat
  · cases h
  · by_cases hc : c = '\\'
    · exact ⟨t, by rw [hc, List.concat_eq_append]⟩
    · simp [escapes, slashes, hc] at h

theorem Guards.infix_of_mem {c : Char} {s : List Char} (h : Guards [c] s) (hc : c ∈ s) :
    ['\\', c] <:+: s := by
  obtain ⟨u, v, rfl⟩ := List.append_of_mem hc
  obtain ⟨t, rfl⟩ := exists_of_escapes (h u v rfl)
  exact ⟨t, v, by simp⟩

section

variable {what : Construct} {q c : Char} {s u w rest : List Char} {x : Symbol}

theorem Construct.Encloses.not_textBlock (h : what.Encloses q u) : ¬ ['"', '"', '"'] <+: q :: (u ++ [q]) := by
  rintro ⟨v, hv⟩
  obtain ⟨rfl, hu⟩ : '"' = q ∧ '"' :: '"' :: v = u ++ [q] := List.cons.inj hv
  exact h.goesOn.not_quoted (s := ['"']) (by simp) v hu.symm

theorem Construct.Encloses.payload (h : what.Encloses q u) (hx : x.isQuoted) (a : Span) :
    Token.payload? ⟨x, q :: (u ++ [q]), a⟩ = some u := by
  have hprefix : ['"', '"', '"'].isPrefixOf (q :: (u ++ [q])) = false := by
    rw [← Bool.not_eq_true, List.isPrefixOf_iff_prefix]
    exact h.not_textBlock
  have hunquoted : unquoted (q :: (u ++ [q])) = u := unquoted_quoted hprefix
  cases x with
  | string | character => rw [Token.payload?, hunquoted]
  | _ => cases hx

theorem Construct.Encloses.isOneLine (h : what.Encloses q u) (hx : what.symbol? = some x) (a : Span) :
    Token.IsOneLine ⟨x, q :: (u ++ [q]), a⟩ := by
  cases what with
  | blockComment | textBlock => cases h.quote
  | stringLiteral => exact .inr ⟨(Option.some.inj hx).symm, h.not_textBlock⟩
  | characterLiteral => exact .inl (Option.some.inj hx).symm

namespace Head

theorem encloses_of_closed (hq : what.quote? = some q) {y : Option Symbol}
    (h : closed y what [q] (throughQuote q (u ++ [q])) = .piece ⟨some x, q :: (u ++ [q])⟩ []) :
    what.Encloses q u := by
  obtain ⟨hslash, hfeed⟩ := quote_ne hq
  obtain ⟨t, ht, -⟩ := closed_eq_piece_iff.1 h
  obtain ⟨v, hv, he, hclosed⟩ := goesOn_of_throughQuote hslash hfeed ht
  have happend := (throughQuote_append q (u ++ [q])).1 [] (by rw [ht])
  rw [ht, List.append_nil, hclosed] at happend
  obtain rfl := List.append_cancel_right happend
  exact ⟨hq, hv, he⟩

theorem literal_of {a : Span} (h : of c s = .piece ⟨some x, w⟩ rest) (hx : Token.IsOneLine ⟨x, w, a⟩) :
    ∃ (what : Construct) (q : Char) (u : List Char),
      what.Encloses q u ∧ what.symbol? = some x ∧ w = q :: (u ++ [q]) := by
  have hquoted : x.isQuoted := hx.isQuoted
  have hform := formed h
  obtain ⟨happend, hne⟩ : w ++ rest = c :: s ∧ w ≠ [] := append_of_piece h
  obtain ⟨d, v, rfl⟩ := List.exists_cons_of_ne_nil hne
  obtain ⟨rfl, rfl⟩ := List.cons.inj happend
  have halone := of_alone h
  cases hform with
  | @textBlock t =>
    obtain hx | ⟨-, hblock⟩ := hx
    · cases hx
    · exact absurd ⟨t ++ ['"', '"', '"'], rfl⟩ hblock
  | @string t ht =>
    have hne (r : List Char) : t ++ ['"'] ≠ '"' :: '"' :: r := fun heq => ht ⟨r, heq.symm⟩
    have hof : of '"' (t ++ ['"']) = quote (t ++ ['"']) := rfl
    exact ⟨.stringLiteral, '"', t, encloses_of_closed rfl
      ((quote_of_not_quoted hne).symm.trans (hof.symm.trans halone)), rfl, rfl⟩
  | @character t => exact ⟨.characterLiteral, '\'', t, encloses_of_closed rfl halone, rfl, rfl⟩
  | number | nonSealed => cases hquoted
  | word =>
    rw [Symbol.isQuoted_ofWord] at hquoted
    cases hquoted
  | sign =>
    rw [Symbol.isQuoted_ofSign] at hquoted
    cases hquoted

theorem of_encloses (h : what.Encloses q u) :
    of q (u ++ [q]) = .piece ⟨what.symbol?, q :: (u ++ [q])⟩ [] := by
  obtain ⟨hslash, hfeed⟩ := quote_ne h.quote
  rw [of_quote h.quote h.goesOn (by simp)]
  exact closed_eq_piece_iff.2 ⟨_, throughQuote_close hslash hfeed h.goesOn h.ends [], rfl⟩

end Head

theorem literal_of_mem {source : List Char} {ts : Tokens} {t : Token} (h : tokenize source = .ok ts)
    (ht : t ∈ ts.list) (hline : t.IsOneLine) : ∃ (what : Construct) (q : Char) (u : List Char),
      what.Encloses q u ∧ what.symbol? = some t.symbol ∧ t.text = q :: (u ++ [q]) := by
  obtain ⟨_, rfl⟩ := tokenize_eq_ok h
  obtain ⟨c, s, rest, hhead⟩ := head_of_mem_scan (piece_of_mem_tokensFrom ht)
  exact Head.literal_of hhead hline

theorem tokenize_of_encloses (h : what.Encloses q u) : ∃ x a p,
    tokenize (q :: (u ++ [q])) = .ok ⟨[⟨x, q :: (u ++ [q]), a⟩], p⟩ ∧ what.symbol? = some x := by
  have hof := Head.of_encloses h
  cases what with
  | blockComment | textBlock => cases h.quote
  | stringLiteral | characterLiteral => exact ⟨_, _, _, tokenize_of_scan (scan_of_token hof), rfl⟩

end

/-- What stands between the quotes of a literal on one line is any text that can. So there can be line feeds in
it, but each directly behind a backslash; any other that is met before the literal is closed is an error, told
of where the literal was opened. -/
theorem feeds_in_literals (source : List Char) :
    (∀ ts, tokenize source = .ok ts → ∀ t ∈ ts.list, t.IsOneLine →
      ∃ (what : Construct) (q : Char) (u : List Char), what.Encloses q u ∧ what.symbol? = some t.symbol ∧
        t.text = q :: (u ++ [q]) ∧ t.payload? = some u ∧ ('\n' ∈ u → ['\\', '\n'] <:+: u)) ∧
    (∀ (what : Construct) q u, what.Encloses q u → source = q :: (u ++ [q]) →
      ∃ t p, tokenize source = .ok ⟨[t], p⟩ ∧ t.IsOneLine ∧ t.payload? = some u) ∧
    ∀ (what : Construct) q u before behind, what.Encloses q u →
      source = before ++ q :: (u ++ '\n' :: behind) → CutBetween before (q :: (u ++ '\n' :: behind)) →
      tokenize source = .error ⟨.unterminated what,
        .between (Position.start.after before) (Position.start.after (before ++ q :: (u ++ ['\n'])))⟩ := by
  refine ⟨fun ts h t ht hline => ?_, fun what q u hu hs => ?_, fun what q u before behind hu hs hcut => ?_⟩
  · obtain ⟨what, q, u, hu, hx, htext⟩ := literal_of_mem h ht hline
    have hpayload : t.payload? = some u := by
      obtain ⟨x, text, a⟩ := t
      obtain rfl : text = q :: (u ++ [q]) := htext
      exact hu.payload hline.isQuoted a
    exact ⟨what, q, u, hu, hx, htext, hpayload, hu.goesOn.feed.infix_of_mem⟩
  · obtain ⟨x, a, p, htokens, hx⟩ := tokenize_of_encloses hu
    have hline := hu.isOneLine hx a
    exact ⟨_, p, hs ▸ htokens, hline, hu.payload hline.isQuoted a⟩
  · have hunclosed : Unclosed what (q :: (u ++ ['\n'])) behind := .atFeed hu.quote hu.goesOn hu.ends
    have htext : q :: (u ++ '\n' :: behind) = q :: (u ++ ['\n']) ++ behind := by simp
    rw [htext] at hs hcut
    rw [hs]
    exact tokenize_of_unclosed hcut hunclosed

def wrapped : List Char := ['"', '\\', '\n', '"', '\'', '\\', '\n', '\'']

theorem tokenize_wrapped : ∃ ts t u, tokenize wrapped = .ok ts ∧ ts.list = [t, u] ∧
    (t.symbol, t.payload?) = (.string, some ['\\', '\n']) ∧
    (u.symbol, u.payload?) = (.character, some ['\\', '\n']) ∧ t.IsOneLine ∧ u.IsOneLine := by
  have hscan : scan wrapped = ⟨_, none⟩ := scan_of_head rfl <| scan_of_head rfl scan_nil
  exact ⟨_, _, _, tokenize_of_scan hscan, rfl, rfl, rfl, .inr ⟨rfl, by decide⟩, .inl rfl⟩

theorem feeds_in_literals_wrapped :
    (∃ ts, tokenize wrapped = .ok ts ∧ ∀ t ∈ ts.list, t.IsOneLine ∧ ∃ u, t.payload? = some u ∧
      '\n' ∈ u ∧ ['\\', '\n'] <:+: u) ∧
    tokenize [';', '\'', '\n'] = .error ⟨.unterminated .characterLiteral, ⟨1, 3, 1, 2⟩⟩ := by
  obtain ⟨ts, t, u, hts, hlist, ht, hu, htline, huline⟩ := tokenize_wrapped
  have hline : ∀ t ∈ ts.list, t.IsOneLine ∧ t.payload? = some ['\\', '\n'] := by
    simp only [hlist, List.mem_cons, List.not_mem_nil, or_false, forall_eq_or_imp, forall_eq]
    exact ⟨⟨htline, (Prod.mk.inj ht).2⟩, huline, (Prod.mk.inj hu).2⟩
  refine ⟨⟨ts, hts, fun t ht => ?_⟩, ?_⟩
  · obtain ⟨honeLine, hpayload⟩ := hline t ht
    obtain ⟨what, q, u, -, -, -, hu, hfeed⟩ := (feeds_in_literals wrapped).1 ts hts t ht honeLine
    obtain rfl := Option.some.inj (hpayload.symm.trans hu)
    exact ⟨honeLine, _, hu, by decide, hfeed (by decide)⟩
  · have hcut : CutBetween [';'] ['\'', '\n'] :=
      ⟨by rw [scan_of_head rfl scan_nil], by
        rw [scan_of_head (c := ';') (s := []) rfl scan_nil]
        exact scan_of_piece rfl⟩
    exact (feeds_in_literals _).2.2 .characterLiteral '\'' [] [';'] [] ⟨rfl, .nil, rfl⟩ rfl hcut

/-- A literal on one line can hold line feeds, a string and a character alike. -/
theorem exists_feed_in_literal :
    ¬ (∀ source ts, tokenize source = .ok ts → ∀ t ∈ ts.list, t.symbol = .string →
      ¬ ['"', '"', '"'] <+: t.text → ∀ u, t.payload? = some u → '\n' ∉ u) ∧
    ¬ (∀ source ts, tokenize source = .ok ts → ∀ t ∈ ts.list, t.symbol = .character →
      ∀ u, t.payload? = some u → '\n' ∉ u) := by
  obtain ⟨ts, t, u, hts, hlist, ht, hu, htline, -⟩ := tokenize_wrapped
  obtain ⟨htsymbol, htpayload⟩ := Prod.mk.inj ht
  obtain ⟨husymbol, hupayload⟩ := Prod.mk.inj hu
  constructor
  · intro h
    have hblock : ¬ ['"', '"', '"'] <+: t.text := by
      obtain hx | ⟨-, hblock⟩ := htline
      · rw [htsymbol] at hx
        cases hx
      · exact hblock
    exact h wrapped ts hts t (by simp [hlist]) htsymbol hblock _ htpayload (by decide)
  · intro h
    exact h wrapped ts hts u (by simp [hlist]) husymbol _ hupayload (by decide)

end MemberOrder
