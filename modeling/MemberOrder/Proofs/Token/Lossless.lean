import MemberOrder.Proofs.Text.Place
import MemberOrder.Proofs.Token.Forms
import MemberOrder.Token.Tokens
/-! Tokens lose nothing of their text: between them there is trivia only, and each of them is the
token that its own text is by itself. Main statement: `tokenize_lossless`. -/
namespace MemberOrder

/-- From `p` on, `s` is these tokens, each at its place, with trivia before each and behind the
last. -/
inductive Spread : Position → List Char → List Token → Prop
  | done {p s} (hs : TriviaToEnd s) : Spread p s []
  | token {p g s t ts} (hg : Trivia g) (hne : t.text ≠ [])
      (ht : t.span = .between (p.after g) ((p.after g).after t.text))
      (hs : Spread ((p.after g).after t.text) s ts) : Spread p (g ++ (t.text ++ s)) (t :: ts)

/-- What a symbol with this text tells beyond the symbol: a literal, what stands between its quotes; a
name is no reserved word. -/
inductive Tells : Symbol → List Char → Option (List Char) → Prop
  | identifier {n : String} (hn : ∀ k : Keyword, k.name ≠ n) :
      Tells (.identifier n) n.toList (some n.toList)
  | number {t} : Tells .number t (some t)
  | string {t} : Tells .string (['"'] ++ (t ++ ['"'])) (some t)
  | textBlock {t} : Tells .string (['"', '"', '"'] ++ (t ++ ['"', '"', '"'])) (some t)
  | character {t} : Tells .character (['\''] ++ (t ++ ['\''])) (some t)
  | operator {c} : Tells .operator [c] (some [c])
  | keyword {k} : Tells (.keyword k) k.name.toList none
  | opening {b} : Tells (.opening b) b.opener.toList none
  | closing {b} : Tells (.closing b) b.closer.toList none
  | mark {m} : Tells (.mark m) m.name.toList none

theorem unquoted_textBlock (t : List Char) :
    unquoted (['"', '"', '"'] ++ (t ++ ['"', '"', '"'])) = t := by
  simp [unquoted]

theorem unquoted_quoted {q : Char} {t : List Char}
    (h : ['"', '"', '"'].isPrefixOf ([q] ++ (t ++ [q])) = false) : unquoted ([q] ++ (t ++ [q])) = t := by
  unfold unquoted
  rw [h]
  simp

theorem tells_ofWord (w : List Char) (a : Span) :
    Tells (.ofWord (String.ofList w)) w (Token.payload? ⟨.ofWord (String.ofList w), w, a⟩) := by
  unfold Symbol.ofWord
  split
  next k hk =>
    have hw : w = k.name.toList := by rw [Keyword.name_of_ofWord? hk, String.toList_ofList]
    rw [hw]
    exact .keyword
  next hk =>
    have hn (k : Keyword) : k.name ≠ String.ofList w := by
      have hall := List.find?_eq_none.1 hk k (Keyword.mem_all k)
      simpa using hall
    simpa [Token.payload?] using Tells.identifier hn

theorem tells_ofSign (c : Char) (a : Span) :
    Tells (.ofSign c) [c] (Token.payload? ⟨.ofSign c, [c], a⟩) := by
  unfold Symbol.ofSign
  split
  iterate 3
    · exact .opening
    · exact .closing
  iterate 8
    · exact .mark
  · exact .operator

theorem Piece.Formed.tells {x : Symbol} {u : List Char} (a : Span) (h : Piece.Formed ⟨some x, u⟩) :
    Tells x u (Token.payload? ⟨x, u, a⟩) := by
  cases h with
  | @textBlock t =>
    simp only [Token.payload?, unquoted_textBlock]
    exact .textBlock
  | @string t ht =>
    have hprefix : ['"', '"', '"'].isPrefixOf (['"'] ++ (t ++ ['"'])) = false := by
      rw [← Bool.not_eq_true, List.isPrefixOf_iff_prefix]
      simpa using ht
    simp only [Token.payload?, unquoted_quoted hprefix]
    exact .string
  | @character t =>
    simp only [Token.payload?, unquoted_quoted (q := '\'') (t := t) rfl]
    exact .character
  | number => exact .number
  | nonSealed => exact .keyword
  | @word c s => exact tells_ofWord (c :: s) a
  | @sign c => exact tells_ofSign c a

theorem Head.head?_rest_of_lineComment {c : Char} {s t rest : List Char}
    (h : of c s = .piece ⟨none, '/' :: '/' :: t⟩ rest) : rest = [] ∨ ∃ r, rest = '\n' :: r := by
  obtain ⟨rfl, rfl⟩ : c = '/' ∧ s = '/' :: (t ++ rest) := by
    simpa [eq_comm] using (append_of_piece h).1
  have hof : of '/' ('/' :: (t ++ rest)) = slash ('/' :: (t ++ rest)) := rfl
  rw [hof, slash] at h
  have hrest : (t ++ rest).dropWhile (· ≠ '\n') = rest := (piece.inj h).2
  cases rest with
  | nil => exact .inl rfl
  | cons d r =>
    have hd := List.head?_dropWhile_not (· ≠ '\n') (t ++ d :: r)
    rw [hrest] at hd
    obtain rfl : d = '\n' := by simpa using hd
    exact .inr ⟨r, rfl⟩

namespace Spread

theorem trivia {g : List Char} (hg : Trivia g) {p : Position} {s : List Char} {ts : List Token}
    (h : Spread (p.after g) s ts) : Spread p (g ++ s) ts := by
  cases h with
  | done hs => exact .done (hg.append_toEnd hs)
  | @token _ g' s t ts hg' hne ht hs =>
    have hafter : (p.after g).after g' = p.after (g ++ g') := (p.after_append g g').symm
    rw [hafter] at ht hs
    rw [← List.append_assoc]
    exact .token (hg.append hg') hne ht hs

theorem of_scan (p : Position) (s : List Char) (h : (scan s).open? = none) :
    Spread p s (tokensFrom p (scan s).pieces) := by
  induction hn : s.length using Nat.strongRecOn generalizing p s with
  | ind n ih =>
    subst hn
    cases s with
    | nil =>
      rw [scan_nil]
      exact .done (.closed .nil)
    | cons c s =>
      cases hhead : Head.of c s with
      | unterminated what text => simp [scan_cons, hhead] at h
      | piece q rest =>
        have hlt := Head.length_rest_lt hhead
        obtain ⟨happend, hne⟩ := Head.append_of_piece hhead
        rw [scan_of_piece hhead] at h ⊢
        have hrest := ih _ hlt (p.after q.text) rest h rfl
        rw [← happend]
        obtain ⟨symbol, text⟩ := q
        cases symbol with
        | some x => exact token (g := []) (t := ⟨x, text, _⟩) .nil hne rfl hrest
        | none =>
          cases Head.formed hhead with
          | blank hb => exact hrest.trivia (.blank hb .nil)
          | blockComment ht => exact hrest.trivia (.block ht .nil)
          | @lineComment t ht =>
            obtain rfl | ⟨r, rfl⟩ := Head.head?_rest_of_lineComment hhead
            · rw [scan_nil]
              exact .done (by simpa using TriviaToEnd.line .nil ht)
            -- A line comment is trivia only together with the line feed behind it.
            · have hfeed : scan ('\n' :: r) = (scan r).cons ⟨none, ['\n']⟩ := scan_blank (by decide) r
              have hr : r.length < (c :: s).length := by
                simp only [List.length_cons] at hlt ⊢
                omega
              rw [hfeed] at h ⊢
              have hbehind := ih _ hr ((p.after ('/' :: '/' :: t)).after ['\n']) r h rfl
              have hafter : (p.after ('/' :: '/' :: t)).after ['\n'] =
                  p.after ('/' :: '/' :: (t ++ ['\n'])) := (p.after_append ('/' :: '/' :: t) ['\n']).symm
              have htokens : tokensFrom p (((scan r).cons ⟨none, ['\n']⟩).cons
                  ⟨none, '/' :: '/' :: t⟩).pieces =
                  tokensFrom (p.after ('/' :: '/' :: (t ++ ['\n']))) (scan r).pieces := by
                rw [← hafter]
                rfl
              have hg : Trivia ('/' :: '/' :: (t ++ ['\n'])) := .line ht .nil
              have htext : '/' :: '/' :: t ++ '\n' :: r = '/' :: '/' :: (t ++ ['\n']) ++ r := by simp
              rw [hafter] at hbehind
              rw [htext, htokens]
              exact hbehind.trivia hg

variable {p : Position} {s : List Char} {ts : List Token}

theorem place (h : Spread p s ts) : ∀ t ∈ ts, t.text ≠ [] ∧ ∃ before behind,
    s = before ++ (t.text ++ behind) ∧
      t.span = .between (p.after before) (p.after (before ++ t.text)) := by
  induction h with
  | done => simp
  | @token p g s t ts _ hne ht _ ih =>
    intro u hu
    obtain rfl | hu := List.mem_cons.1 hu
    · exact ⟨hne, g, s, rfl, by rw [ht, Position.after_append]⟩
    · obtain ⟨hue, before, behind, rfl, hplace⟩ := ih u hu
      refine ⟨hue, g ++ (t.text ++ before), behind, by simp, ?_⟩
      simpa [Position.after_append] using hplace

theorem start_lt_stop (h : Spread p s ts) : ∀ t ∈ ts, t.span.start < t.span.stop := by
  intro t ht
  obtain ⟨hne, before, behind, rfl, hplace⟩ := h.place t ht
  have hpos := byteCount_pos hne
  simp only [hplace, Span.between, Position.offset_after, byteCount_append]
  omega

theorem pairwise (h : Spread p s ts) : ts.Pairwise fun t u => t.span.stop ≤ u.span.start := by
  induction h with
  | done => exact .nil
  | @token p g s t ts _ _ ht hs ih =>
    refine .cons (fun u hu => ?_) ih
    obtain ⟨_, before, behind, rfl, hplace⟩ := hs.place u hu
    simp only [ht, hplace, Span.between, Position.offset_after]
    omega

end Spread

theorem head_of_mem_scan {s : List Char} {q : Piece} (h : q ∈ (scan s).pieces) :
    ∃ c t rest, Head.of c t = .piece q rest := by
  fun_induction scan s with
  | case1 => simp at h
  | case2 c s p rest hp ih =>
    obtain rfl | h := List.mem_cons.1 h
    · exact ⟨c, s, rest, hp⟩
    · exact ih h
  | case3 => simp at h

theorem piece_of_mem_tokensFrom {p : Position} {ps : List Piece} {t : Token}
    (h : t ∈ tokensFrom p ps) : ⟨some t.symbol, t.text⟩ ∈ ps := by
  fun_induction tokensFrom p ps with
  | case1 => simp at h
  | case2 p text ps ih => exact List.mem_cons_of_mem _ (ih h)
  | case3 p x text ps ih =>
    obtain rfl | h := List.mem_cons.1 h
    · exact List.mem_cons_self
    · exact List.mem_cons_of_mem _ (ih h)

theorem tokenize_eq_ok {source : List Char} {ts : Tokens} (h : tokenize source = .ok ts) :
    (scan source).open? = none ∧
      ts = ⟨tokensFrom .start (scan source).pieces, Position.start.after source⟩ := by
  unfold tokenize at h
  dsimp only at h
  split at h
  next => cases h
  next hopen =>
    rw [scan_append source hopen] at h
    cases h
    exact ⟨hopen, rfl⟩

theorem tokenize_of_scan {source : List Char} {ps : List Piece} (h : scan source = ⟨ps, none⟩) :
    tokenize source = .ok ⟨tokensFrom .start ps, Position.start.after source⟩ := by
  have happend := scan_append source (by rw [h])
  rw [h] at happend
  unfold tokenize
  simp only [h, happend]

def Tokens.ofPieces (ps : List Piece) : Tokens :=
  ⟨tokensFrom .start ps, Position.start.after (joined ps)⟩

theorem tokenize_of_pieces {source : List Char} {ps : List Piece} (h : scan source = ⟨ps, none⟩) :
    tokenize source = .ok (.ofPieces ps) ∧ source = joined ps := by
  have happend := scan_append source (by rw [h])
  rw [h] at happend
  rw [tokenize_of_scan h, ← happend]
  exact ⟨rfl, rfl⟩

theorem scan_text {source : List Char} {ts : Tokens} (h : tokenize source = .ok ts) {t : Token}
    (ht : t ∈ ts.list) : scan t.text = ⟨[⟨some t.symbol, t.text⟩], none⟩ := by
  obtain ⟨_, rfl⟩ := tokenize_eq_ok h
  obtain ⟨c, s, rest, hhead⟩ := head_of_mem_scan (piece_of_mem_tokensFrom ht)
  obtain ⟨happend, hne⟩ : t.text ++ rest = c :: s ∧ t.text ≠ [] := Head.append_of_piece hhead
  obtain ⟨d, u, hu⟩ := List.exists_cons_of_ne_nil hne
  obtain ⟨rfl, -⟩ : d = c ∧ u ++ rest = s := by simpa [hu] using happend
  rw [hu] at hhead ⊢
  exact scan_self hhead

theorem tells_of_mem {source : List Char} {ts : Tokens} (h : tokenize source = .ok ts) {t : Token}
    (ht : t ∈ ts.list) : Tells t.symbol t.text t.payload? := by
  obtain ⟨_, rfl⟩ := tokenize_eq_ok h
  obtain ⟨c, s, rest, hhead⟩ := head_of_mem_scan (piece_of_mem_tokensFrom ht)
  exact (Head.formed hhead).tells t.span

theorem spread_of_tokenize {source : List Char} {ts : Tokens} (h : tokenize source = .ok ts) :
    Spread .start source ts.list ∧ ts.finish = Position.start.after source := by
  obtain ⟨hopen, rfl⟩ := tokenize_eq_ok h
  exact ⟨.of_scan _ _ hopen, rfl⟩

theorem excerpt_span {source : List Char} {ts : Tokens} (h : tokenize source = .ok ts) {t : Token}
    (ht : t ∈ ts.list) : excerpt source t.span = t.text := by
  obtain ⟨_, before, behind, hs, hplace⟩ := (spread_of_tokenize h).1.place t ht
  rw [hplace, hs, excerpt_append]

/-- Nothing of a text is lost in its tokens. -/
structure Tokens.Lossless (source : List Char) (ts : Tokens) : Prop where
  /-- Before, between and behind the tokens there is trivia only. -/
  spread : Spread .start source ts.list
  /-- They come one after the other, and the end of the text behind them. -/
  ordered : (ts.list.map Token.span ++ [ts.finishSpan]).Pairwise
    fun a b => a.start < b.start ∧ a.stop ≤ b.start
  nonempty : ∀ t ∈ ts.list, t.span.start < t.span.stop
  finish : ts.finishSpan.start = byteCount source ∧ ts.finishSpan.stop = byteCount source
  text : ∀ t ∈ ts.list, excerpt source t.span = t.text
  /-- What the text has at a token is, by itself, cut into just this token. -/
  alone : ∀ t ∈ ts.list, ∃ u p, tokenize (excerpt source t.span) = .ok ⟨[u], p⟩ ∧
    u.symbol = t.symbol ∧ u.text = t.text ∧ u.payload? = t.payload?
  tells : ∀ t ∈ ts.list, Tells t.symbol t.text t.payload?

theorem tokenize_text {source : List Char} {ts : Tokens} (h : tokenize source = .ok ts) {t : Token}
    (ht : t ∈ ts.list) : ∃ u p, tokenize t.text = .ok ⟨[u], p⟩ ∧
      u.symbol = t.symbol ∧ u.text = t.text ∧ u.payload? = t.payload? :=
  ⟨_, _, tokenize_of_scan (scan_text h ht), rfl, rfl, rfl⟩

theorem tokenize_lossless {source : List Char} {ts : Tokens} (h : tokenize source = .ok ts) :
    ts.Lossless source := by
  obtain ⟨hspread, hfinish⟩ := spread_of_tokenize h
  have hlt := hspread.start_lt_stop
  have hend : ts.finishSpan.start = byteCount source ∧ ts.finishSpan.stop = byteCount source := by
    simp [Tokens.finishSpan, hfinish, Span.between, Position.start_after]
  have hstop (t : Token) (ht : t ∈ ts.list) : t.span.stop ≤ byteCount source := by
    obtain ⟨_, before, behind, hs, hplace⟩ := hspread.place t ht
    rw [hplace, hs]
    simp only [Span.between, Position.start_after, byteCount_append]
    omega
  have hordered : (ts.list.map Token.span ++ [ts.finishSpan]).Pairwise
      fun a b => a.start < b.start ∧ a.stop ≤ b.start := by
    rw [List.pairwise_append, List.pairwise_map]
    refine ⟨?_, List.pairwise_singleton _ _, ?_⟩
    · refine hspread.pairwise.imp_of_mem fun {t u} ht _ htu => ?_
      have := hlt t ht
      exact ⟨by omega, htu⟩
    · intro a ha b hb
      obtain ⟨t, ht, rfl⟩ := List.mem_map.1 ha
      rw [List.mem_singleton.1 hb, hend.1]
      have := hlt t ht
      have := hstop t ht
      omega
  exact {
    spread := hspread
    ordered := hordered
    nonempty := hlt
    finish := hend
    text := fun t ht => excerpt_span h ht
    alone := fun t ht => by
      rw [excerpt_span h ht]
      exact tokenize_text h ht
    tells := fun t ht => tells_of_mem h ht }

/-- A comment, a text block with a quote in it, a quoted quote, a number that begins with its point, and
a line comment at the end, with nothing between them. -/
def literals : List Char :=
  ['/', '*', 'é', '*', '/', '"', '"', '"', '\\', '"', '"', '"', '"', '\'', '\\', '\'', '\'',
    '.', '5', 'e', '+', '1', 'f', '/', '/', 'a']

theorem tokenize_lossless_literals : ∃ ts, tokenize literals = .ok ts ∧
    ts.list.map (·.symbol) = [.string, .character, .number] ∧ ts.Lossless literals := by
  obtain ⟨ps, hps, hsymbols⟩ : ∃ ps, scan literals = ⟨ps, none⟩ ∧
      (tokensFrom .start ps).map (·.symbol) = [.string, .character, .number] :=
    ⟨_, scan_of_head rfl <| scan_of_head rfl <| scan_of_head rfl <|
      scan_of_head rfl <| scan_of_head rfl scan_nil, rfl⟩
  have hts := tokenize_of_scan hps
  exact ⟨_, hts, hsymbols, tokenize_lossless hts⟩

end MemberOrder
