import MemberOrder.Proofs.Token.Escape
import MemberOrder.Proofs.Token.Seam
/-! Where a text is refused. Its tokens end in front of the first comment or literal that is never closed, and
by itself the text up to there is accepted. Main statement: `tokenize_refused_iff`. -/
namespace MemberOrder

def Construct.quote? : Construct → Option Char
  | .stringLiteral => some '"'
  | .characterLiteral => some '\''
  | .blockComment | .textBlock => none

def Construct.symbol? : Construct → Option Symbol
  | .blockComment => none
  | .textBlock | .stringLiteral => some .string
  | .characterLiteral => some .character

/-- A comment or literal that is opened and never closed, as far as its end is searched for, and the text
behind that: nothing, unless a line feed ends the search. -/
inductive Unclosed : Construct → List Char → List Char → Prop
  | blockComment {t} (ht : ¬ ['*', '/'] <:+: t) : Unclosed .blockComment ('/' :: '*' :: t) []
  | textBlock {t} (ht : Guards ['"', '"', '"'] t) : Unclosed .textBlock ('"' :: '"' :: '"' :: t) []
  | atEnd {what q t} (hq : what.quote? = some q) (ht : GoesOn q t) : Unclosed what (q :: t) []
  | atFeed {what q t behind} (hq : what.quote? = some q) (ht : GoesOn q t) (he : escapes t = false) :
      Unclosed what (q :: (t ++ ['\n'])) behind

theorem GoesOn.not_quoted {q : Char} {t s : List Char} (h : GoesOn q t) (hs : ∀ v, s ≠ q :: q :: v)
    (v : List Char) : t ++ s ≠ q :: q :: v := by
  cases t with
  | nil => exact hs v
  | cons c t =>
    intro heq
    obtain ⟨rfl, -⟩ := List.cons.inj heq
    exact absurd (h.quote [] t rfl) (by simp)

namespace Head

variable {c q : Char} {s t text : List Char} {what : Construct}

theorem closed_eq_unterminated_iff {symbol : Option Symbol} {what' : Construct} {opened : List Char}
    {r : List Char × Option (List Char)} : closed symbol what' opened r = .unterminated what text ↔
      ∃ u, r = (u, none) ∧ what = what' ∧ text = opened ++ u := by
  obtain ⟨u, rest | rest⟩ := r
  · simp [closed, eq_comm]
  · simp [closed]

theorem quote_of_not_quoted (hs : ∀ v, s ≠ '"' :: '"' :: v) :
    quote s = closed (some .string) .stringLiteral ['"'] (throughQuote '"' s) := by
  rw [quote]
  exact hs

theorem of_quote (hq : what.quote? = some q) (ht : GoesOn q t) (hs : ∀ v, s ≠ q :: q :: v) :
    of q (t ++ s) = closed what.symbol? what [q] (throughQuote q (t ++ s)) := by
  cases what with
  | blockComment | textBlock => cases hq
  | stringLiteral =>
    obtain rfl := Option.some.inj hq
    exact quote_of_not_quoted (ht.not_quoted hs)
  | characterLiteral =>
    obtain rfl := Option.some.inj hq
    rfl

theorem quote_ne (hq : what.quote? = some q) : q ≠ '\\' ∧ q ≠ '\n' := by
  cases what <;> cases hq <;> decide

theorem unclosed_literal (hq : what.quote? = some q) {u : List Char} (h : throughQuote q s = (u, none)) :
    ∃ behind, q :: s = q :: u ++ behind ∧ Unclosed what (q :: u) behind := by
  have hslash := quote_ne hq
  obtain ⟨t, ht, rfl | ⟨he, d, rest, rfl | rfl, rfl⟩⟩ := exists_goesOn hslash.1 s
  · rw [throughQuote_of_goesOn hslash.1 ht] at h
    cases h
    exact ⟨[], by simp, .atEnd hq ht⟩
  · rw [throughQuote_feed hslash.1 ht he] at h
    cases h
    exact ⟨rest, by simp, .atFeed hq ht he⟩
  · rw [throughQuote_close hslash.1 hslash.2 ht he] at h
    cases h

theorem of_unclosed {behind : List Char} (h : Unclosed what text behind) (hs : c :: s = text ++ behind) :
    of c s = .unterminated what text := by
  cases h with
  | @blockComment t ht =>
    obtain ⟨rfl, rfl⟩ : c = '/' ∧ s = '*' :: t := by simpa using hs
    exact closed_eq_unterminated_iff.2 ⟨t, throughComment_eq_none_iff.2 ⟨rfl, ht⟩, rfl, rfl⟩
  | @textBlock t ht =>
    obtain ⟨rfl, rfl⟩ : c = '"' ∧ s = '"' :: '"' :: t := by simpa using hs
    exact closed_eq_unterminated_iff.2 ⟨t, throughBlock_eq_none_iff.2 ⟨rfl, ht⟩, rfl, rfl⟩
  | @atEnd _ q t hq ht =>
    obtain ⟨rfl, rfl⟩ : c = q ∧ s = t := by simpa using hs
    have hof := of_quote hq ht (s := []) (by simp)
    rw [List.append_nil] at hof
    rw [hof]
    exact closed_eq_unterminated_iff.2 ⟨_, throughQuote_of_goesOn (quote_ne hq).1 ht, rfl, rfl⟩
  | @atFeed _ q t _ hq ht he =>
    obtain ⟨rfl, rfl⟩ : c = q ∧ s = t ++ '\n' :: behind := by simpa using hs
    obtain ⟨hslash, hfeed⟩ := quote_ne hq
    have hs (v : List Char) : '\n' :: behind ≠ c :: c :: v := fun h => hfeed (List.cons.inj h).1.symm
    rw [of_quote hq ht hs]
    exact closed_eq_unterminated_iff.2 ⟨_, throughQuote_feed hslash ht he behind, rfl, rfl⟩

theorem unclosed_of (h : of c s = .unterminated what text) :
    ∃ behind, c :: s = text ++ behind ∧ Unclosed what text behind := by
  unfold of at h
  split_ifs at h with hblank hslash hquote hchar
  · subst hslash
    unfold slash at h
    split at h
    next => cases h
    next t =>
      obtain ⟨u, hu, rfl, rfl⟩ := closed_eq_unterminated_iff.1 h
      obtain ⟨rfl, ht⟩ := throughComment_eq_none_iff.1 hu
      exact ⟨[], by simp, .blockComment ht⟩
    next => cases h
  · subst hquote
    unfold quote at h
    split at h
    next t =>
      obtain ⟨u, hu, rfl, rfl⟩ := closed_eq_unterminated_iff.1 h
      obtain ⟨rfl, ht⟩ := throughBlock_eq_none_iff.1 hu
      exact ⟨[], by simp, .textBlock ht⟩
    next =>
      obtain ⟨u, hu, rfl, rfl⟩ := closed_eq_unterminated_iff.1 h
      exact unclosed_literal rfl hu
  · subst hchar
    obtain ⟨u, hu, rfl, rfl⟩ := closed_eq_unterminated_iff.1 h
    exact unclosed_literal rfl hu
  · cases h
  · unfold word at h
    dsimp only at h
    split at h <;> cases h

theorem of_alone {u : List Char} {x : Option Symbol} (h : of c (u ++ s) = .piece ⟨x, c :: u⟩ s) :
    of c u = .piece ⟨x, c :: u⟩ [] := by
  cases x with
  | some x => simpa using of_reread h (.inl rfl)
  | none =>
    cases formed h with
    | blank hb => simp [of, hb]
    | @lineComment t ht =>
      have hall : ∀ d ∈ t, decide (d ≠ '\n') = true := by
        intro d hd
        simpa using ne_of_mem_of_not_mem hd ht
      have hslash : of '/' ('/' :: t) = slash ('/' :: t) := rfl
      rw [hslash, slash, List.takeWhile_eq_self_iff.2 hall, List.dropWhile_eq_nil_iff.2 hall]
    | @blockComment t ht =>
      have hthrough : throughComment (t ++ ['*', '/']) = (t ++ ['*', '/'], some []) :=
        throughComment_eq_some_iff.2 ⟨t, rfl, by simp, ht⟩
      exact closed_eq_piece_iff.2 ⟨_, hthrough, rfl⟩

end Head

theorem scan_joined {ps qs : List Piece} {c : Char} {s : List Char} {o : Option (Construct × List Char)}
    (h : scan (joined ps ++ c :: s) = ⟨ps ++ qs, o⟩) (hc : c ∉ sealedTail) : scan (joined ps) = ⟨ps, none⟩ := by
  induction ps with
  | nil => exact scan_nil
  | cons p ps ih =>
    obtain ⟨d, u, rest, hu, hs, hhead, hrest⟩ := scan_uncons h
    have htext (v : List Char) : joined (p :: ps) ++ v = d :: (u ++ (joined ps ++ v)) := by
      simp [joined, hu]
    rw [htext] at hs
    obtain rfl : joined ps ++ c :: s = rest := List.append_cancel_left (List.cons.inj hs).2
    -- What is behind a piece can only change it into `non-sealed`, and `c` is no part of that.
    have hp : Head.of d (u ++ joined ps) = .piece ⟨p.symbol, d :: u⟩ (joined ps) := by
      cases hj : joined ps with
      | nil => simpa using Head.of_alone hhead
      | cons b t =>
        rw [hj] at hhead
        refine Head.of_ahead hhead ⟨rfl, ?_⟩
        rw [Bool.eq_iff_iff, List.isPrefixOf_iff_prefix, List.isPrefixOf_iff_prefix]
        exact prefix_append_cons_iff hc (b :: t) s
    have hpiece : (⟨p.symbol, d :: u⟩ : Piece) = p := by rw [← hu]
    have happend : joined (p :: ps) = d :: (u ++ joined ps) := by simpa using htext []
    rw [happend, scan_of_head hp (ih hrest), hpiece]

/-- A text is cut between `s` and `t`: the pieces of `s` are whole, and those of `t` come behind them. -/
structure CutBetween (s t : List Char) : Prop where
  whole : (scan s).open? = none
  append : scan (s ++ t) = (scan t).prepend (scan s).pieces

section

variable {source before text behind : List Char} {what : Construct}

theorem scan_unclosed (h : Unclosed what text behind) : scan (text ++ behind) = ⟨[], some (what, text)⟩ := by
  cases hs : text ++ behind with
  | nil => cases h <;> cases hs
  | cons c s => rw [scan_cons, Head.of_unclosed h hs.symm]

theorem Unclosed.head_not_mem (h : Unclosed what text behind) : ∃ c s, text = c :: s ∧ c ∉ sealedTail := by
  cases h with
  | blockComment => exact ⟨_, _, rfl, by decide⟩
  | textBlock => exact ⟨_, _, rfl, by decide⟩
  | atEnd hq => exact ⟨_, _, rfl, by cases what <;> cases hq <;> decide⟩
  | atFeed hq => exact ⟨_, _, rfl, by cases what <;> cases hq <;> decide⟩

theorem unclosed_of_scan (h : (scan source).open? = some (what, text)) :
    ∃ behind, source = joined (scan source).pieces ++ (text ++ behind) ∧ Unclosed what text behind := by
  fun_induction scan source with
  | case1 => cases h
  | case2 c s p rest hp ih =>
    obtain ⟨behind, hrest, hunclosed⟩ := ih h
    refine ⟨behind, ?_, hunclosed⟩
    have hjoined : joined ((scan rest).cons p).pieces = p.text ++ joined (scan rest).pieces := by
      simp [joined, Pieces.cons]
    rw [hjoined, List.append_assoc, ← hrest, (Head.append_of_piece hp).1]
  | case3 c s what' text' hp =>
    cases h
    exact Head.unclosed_of hp

theorem cutBetween_of_scan (h : (scan source).open? = some (what, text)) : ∃ behind,
    source = joined (scan source).pieces ++ (text ++ behind) ∧
      CutBetween (joined (scan source).pieces) (text ++ behind) ∧ Unclosed what text behind := by
  obtain ⟨behind, hsource, hunclosed⟩ := unclosed_of_scan h
  have hscan : scan (joined (scan source).pieces ++ (text ++ behind)) = ⟨(scan source).pieces ++ [],
      some (what, text)⟩ := by
    rw [← hsource, List.append_nil, ← h]
  obtain ⟨c, s, htext, hc⟩ := hunclosed.head_not_mem
  have hbefore : scan (joined (scan source).pieces) = ⟨(scan source).pieces, none⟩ := by
    rw [htext, List.cons_append] at hscan
    exact scan_joined hscan hc
  refine ⟨behind, hsource, ⟨by rw [hbefore], ?_⟩, hunclosed⟩
  rw [hscan, hbefore, scan_unclosed hunclosed]
  rfl

theorem tokenize_of_unclosed (hcut : CutBetween before (text ++ behind)) (h : Unclosed what text behind) :
    tokenize (before ++ (text ++ behind)) = .error ⟨.unterminated what,
      .between (Position.start.after before) (Position.start.after (before ++ text))⟩ := by
  have hpieces : joined (scan before).pieces = before := scan_append before hcut.whole
  unfold tokenize
  simp only [hcut.append, scan_unclosed h, Pieces.prepend, List.append_nil, hpieces, Position.after_append]

theorem tokenize_of_cutBetween (hcut : CutBetween before behind) : ∃ ts, tokenize before = .ok ts := by
  have hscan : scan before = ⟨(scan before).pieces, none⟩ := by rw [← hcut.whole]
  exact ⟨_, tokenize_of_scan hscan⟩

end

/-- The first thing in a text that is never closed, and the texts in front of it and behind the search for its
end. The text in front has tokens, and they are those of the whole up to there. -/
structure FirstUnclosed (source : List Char) (what : Construct) (before text behind : List Char) : Prop where
  source_eq : source = before ++ (text ++ behind)
  tokens : ∃ ts, tokenize before = .ok ts
  cut : CutBetween before (text ++ behind)
  unclosed : Unclosed what text behind

/-- A text is refused if and only if something in it is never closed. The error names the first such thing; it
goes from where that is opened to where the search for its end stopped. -/
theorem tokenize_refused_iff {source : List Char} {e : ParseError} : tokenize source = .error e ↔
    ∃ what before text behind, FirstUnclosed source what before text behind ∧
      e = ⟨.unterminated what,
        .between (Position.start.after before) (Position.start.after (before ++ text))⟩ ∧
      e.span.start = byteCount before ∧ e.span.stop = byteCount (before ++ text) := by
  constructor
  · intro h
    unfold tokenize at h
    dsimp only at h
    split at h
    next what text hopen =>
      obtain ⟨behind, hsource, hcut, hunclosed⟩ := cutBetween_of_scan hopen
      have he := Except.error.inj h
      rw [← Position.after_append] at he
      subst he
      refine ⟨what, _, text, behind, ⟨hsource, tokenize_of_cutBetween hcut, hcut, hunclosed⟩, rfl, ?_, ?_⟩
      · simp [Span.between, Position.start_after]
      · simp [Span.between, Position.start_after]
    next => cases h
  · rintro ⟨what, before, text, behind, hfirst, rfl, -, -⟩
    rw [hfirst.source_eq]
    exact tokenize_of_unclosed hfirst.cut hfirst.unclosed

end MemberOrder
