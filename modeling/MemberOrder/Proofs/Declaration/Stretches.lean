import MemberOrder.Proofs.Declaration.Bodies
import MemberOrder.Proofs.Token.Seam
/-! Stretches of pieces. An extent, which counts symbols from the end, is told in pieces here: what it is
the place of, and what the text has there, lies in the pieces of the extent alone. Main statements:
`Stretch.span_eq`, `Stretch.textAt_eq`, `textAt_congr`. -/
namespace MemberOrder

def heard (ps : List Piece) : List Symbol :=
  ps.filterMap (·.symbol)

section Heard

variable (ps qs : List Piece)

@[simp] theorem heard_nil : heard [] = [] := rfl

@[simp] theorem heard_append : heard (ps ++ qs) = heard ps ++ heard qs :=
  List.filterMap_append

theorem heard_cons {x : Symbol} {p : Piece} (h : p.symbol = some x) :
    heard (p :: ps) = x :: heard ps :=
  List.filterMap_cons_some h

theorem heard_cons_none {p : Piece} (h : p.symbol = none) : heard (p :: ps) = heard ps :=
  List.filterMap_cons_none h

theorem Silent.heard_eq {ps : List Piece} (h : Silent ps) : heard ps = [] :=
  List.filterMap_eq_nil_iff.2 h

theorem symbol_tokensFrom (p : Position) : (tokensFrom p ps).map (·.symbol) = heard ps := by
  fun_induction tokensFrom p ps with
  | case1 => rfl
  | case2 p text ps ih => rw [ih, heard_cons_none _ rfl]
  | case3 p x text ps ih => rw [List.map_cons, ih, heard_cons (x := x) _ rfl]

theorem length_tokensFrom (p : Position) : (tokensFrom p ps).length = (heard ps).length := by
  rw [← symbol_tokensFrom ps p, List.length_map]

theorem tokensFrom_append (p : Position) :
    tokensFrom p (ps ++ qs) = tokensFrom p ps ++ tokensFrom (p.after (joined ps)) qs := by
  fun_induction tokensFrom p ps with
  | case1 => rfl
  | case2 p text ps ih =>
    rw [List.cons_append, tokensFrom, ih, ← Position.after_append]
    rfl
  | case3 p x text ps ih =>
    rw [List.cons_append, tokensFrom, ih, ← Position.after_append]
    rfl

end Heard

theorem exists_token {ps : List Piece} {n : Nat} (h : n < (heard ps).length) :
    ∃ as q bs, ps = as ++ q :: bs ∧ q.symbol ≠ none ∧ (heard bs).length = n := by
  induction ps with
  | nil => cases h
  | cons p ps ih =>
    by_cases hn : n < (heard ps).length
    · obtain ⟨as, q, bs, rfl, hq, hbs⟩ := ih hn
      exact ⟨p :: as, q, bs, rfl, hq, hbs⟩
    · cases hp : p.symbol with
      | none =>
        rw [heard_cons_none _ hp] at h
        exact absurd h hn
      | some x =>
        rw [heard_cons _ hp, List.length_cons] at h
        exact ⟨[], p, ps, rfl, by simp [hp], by omega⟩

/-- All pieces behind the token with so many symbols behind it. -/
def behind (n : Nat) : List Piece → List Piece
  | [] => []
  | p :: ps => if (heard (p :: ps)).length ≤ n then p :: ps else behind n ps

section Behind

variable {as bs ps : List Piece} {q : Piece} {n : Nat}

theorem behind_of_le (h : (heard ps).length ≤ n) : behind n ps = ps := by
  cases ps with
  | nil => rfl
  | cons p ps => rw [behind, if_pos h]

theorem behind_token (hq : q.symbol ≠ none) :
    behind (heard bs).length (as ++ q :: bs) = bs := by
  obtain ⟨x, hx⟩ := Option.ne_none_iff_exists'.1 hq
  induction as with
  | nil =>
    rw [List.nil_append, behind, if_neg, behind_of_le (le_refl _)]
    rw [heard_cons _ hx, List.length_cons]
    omega
  | cons p as ih =>
    have hlt : (heard bs).length < (heard (p :: (as ++ q :: bs))).length := by
      have hsplit : p :: (as ++ q :: bs) = (p :: as) ++ (q :: bs) := rfl
      rw [hsplit, heard_append, List.length_append, heard_cons _ hx, List.length_cons]
      omega
    rw [List.cons_append, behind, if_neg (by omega), ih]

theorem behind_suffix (n : Nat) (ps : List Piece) : behind n ps <:+ ps := by
  induction ps with
  | nil => exact List.suffix_refl _
  | cons p ps ih =>
    rw [behind]
    split
    · exact List.suffix_refl _
    · exact ih.trans (List.suffix_cons p ps)

theorem length_heard_behind_le (n : Nat) (ps : List Piece) : (heard (behind n ps)).length ≤ n := by
  induction ps with
  | nil => exact Nat.zero_le n
  | cons p ps ih =>
    rw [behind]
    split
    next hle => exact hle
    next => exact ih

theorem heard_behind {s : List Symbol} (h : s <:+ heard ps) : heard (behind s.length ps) = s := by
  obtain hle | hlt := Nat.lt_or_ge s.length (heard ps).length |>.symm
  · rw [behind_of_le hle]
    exact (h.eq_of_length_le hle).symm
  · obtain ⟨as, q, bs, rfl, hq, hbs⟩ := exists_token hlt
    rw [← hbs, behind_token hq]
    have hsuffix : heard bs <:+ heard (as ++ q :: bs) := by
      rw [heard_append]
      exact ((List.suffix_cons q bs).filterMap _).trans (List.suffix_append _ _)
    exact (List.suffix_of_suffix_length_le hsuffix h hbs.le).eq_of_length hbs

theorem length_heard_behind (h : n ≤ (heard ps).length) : (heard (behind n ps)).length = n := by
  have hdrop := List.drop_suffix ((heard ps).length - n) (heard ps)
  have hlength : ((heard ps).drop ((heard ps).length - n)).length = n := by
    rw [List.length_drop]
    omega
  have hheard := heard_behind hdrop
  rw [hlength] at hheard
  rw [hheard, hlength]

theorem behind_split {p t : List Symbol} {z : Symbol} (h : p ++ z :: t <:+ heard ps) :
    ∃ g q, behind (p ++ z :: t).length ps = g ++ q :: behind t.length ps ∧ heard g = p ∧
      q.symbol = some z := by
  have hheard := heard_behind h
  have hlt : t.length < (heard (behind (p ++ z :: t).length ps)).length := by
    rw [hheard, List.length_append, List.length_cons]
    omega
  obtain ⟨g, q, bs, hsplit, hq, hbs⟩ := exists_token hlt
  obtain ⟨as, has⟩ := behind_suffix (p ++ z :: t).length ps
  obtain ⟨x, hx⟩ := Option.ne_none_iff_exists'.1 hq
  rw [hsplit, heard_append, heard_cons _ hx] at hheard
  obtain ⟨rfl, hrest⟩ := List.append_inj' hheard (by simp [hbs])
  obtain ⟨rfl, rfl⟩ := List.cons.inj hrest
  refine ⟨g, q, ?_, rfl, hx⟩
  rw [hsplit] at has
  rw [hsplit, ← has, ← List.append_assoc, behind_token hq]

end Behind

/-- Pieces from a token to a token. -/
structure Stretch (ps : List Piece) : Prop where
  first : ∃ q qs, ps = q :: qs ∧ q.symbol ≠ none
  last : ∃ qs q, ps = qs ++ [q] ∧ q.symbol ≠ none

theorem exists_stretch {ps : List Piece} {i k : Nat} (hlt : k < i) (hi : i ≤ (heard ps).length) :
    ∃ as g bs, ps = as ++ (g ++ bs) ∧ Stretch g ∧ (heard (g ++ bs)).length = i ∧
      (heard bs).length = k := by
  have hfirst : i - 1 < (heard ps).length := by omega
  obtain ⟨as, q, qs, rfl, hq, hqs⟩ := exists_token hfirst
  obtain ⟨x, hx⟩ := Option.ne_none_iff_exists'.1 hq
  have hlength : (heard (q :: qs)).length = i := by
    rw [heard_cons _ hx, List.length_cons]
    omega
  have hlast : k < (heard (q :: qs)).length := by omega
  obtain ⟨g, q', bs, hsplit, hq', hbs⟩ := exists_token hlast
  have hg : q :: qs = g ++ [q'] ++ bs := by simpa using hsplit
  refine ⟨as, g ++ [q'], bs, by rw [hg], ⟨?_, g, q', rfl, hq'⟩, by rw [← hg, hlength], hbs⟩
  cases g with
  | nil => exact ⟨q', [], rfl, hq'⟩
  | cons p g =>
    obtain rfl := (List.cons.inj hsplit).1
    exact ⟨q, g ++ [q'], rfl, hq⟩

def Reading.ofPieces (ps : List Piece) : Reading :=
  ⟨joined ps, .ofPieces ps, heard ps⟩

def textIn (ps : List Piece) : Extent → String :=
  (Reading.ofPieces ps).textAt

section Parse

variable {source : List Char} {ps : List Piece}

theorem parse_of_open {what : Construct} {text : List Char} (h : scan source = ⟨ps, some (what, text)⟩) :
    parse source = .error ⟨.unterminated what, .between (Position.start.after (joined ps))
      ((Position.start.after (joined ps)).after text)⟩ := by
  rw [parse, Reading.start, tokenize, h]
  rfl

theorem parse_of_scan (h : scan source = ⟨ps, none⟩) :
    parse source = (Reading.ofPieces ps).next.1 := by
  obtain ⟨htokens, rfl⟩ := tokenize_of_pieces h
  rw [parse_of_tokenize htokens, Tokens.symbols, Tokens.ofPieces, symbol_tokensFrom]
  rfl

theorem parse_of_file {u : CompilationUnit Extent Extent} {t : List Symbol}
    (h : scan source = ⟨ps, none⟩) (hfile : Rule.file (heard ps) = .ok u t) :
    parse source = .ok (u.map (Tokens.ofPieces ps).span (textIn ps)) := by
  rw [parse_of_scan h, Reading.next, Reading.ofPieces, hfile]
  rfl

theorem pieces_of_parse {u : SourceUnit} (h : parse source = .ok u) : ∃ ps v,
    scan source = ⟨ps, none⟩ ∧ Rule.file (heard ps) = .ok v [] ∧
      u = v.map (Tokens.ofPieces ps).span (textIn ps) := by
  obtain ⟨ts, v, t, hts, hfile, rfl⟩ := file_of_parse h
  obtain ⟨hopen, rfl⟩ := tokenize_eq_ok hts
  have hscan : scan source = ⟨(scan source).pieces, none⟩ := by rw [← hopen]
  obtain ⟨htokens, hsource⟩ := tokenize_of_pieces hscan
  rw [htokens] at hts
  rw [← Except.ok.inj hts] at hfile
  simp only [Tokens.symbols, Tokens.ofPieces, symbol_tokensFrom] at hfile
  obtain rfl := (Rule.file_laid hfile).1
  have hparse := parse_of_file hscan hfile
  rw [h] at hparse
  exact ⟨_, v, hscan, hfile, Except.ok.inj hparse⟩

end Parse

namespace Stretch

variable {g : List Piece} (hg : Stretch g) (as bs : List Piece)

include hg

theorem span_eq : (Tokens.ofPieces (as ++ (g ++ bs))).span ⟨(heard (g ++ bs)).length, (heard bs).length⟩ =
    .between (Position.start.after (joined as)) (Position.start.after (joined as ++ joined g)) := by
  obtain ⟨⟨⟨x, text⟩, qs, hfirst, hx⟩, ⟨ps, ⟨y, text'⟩, hlast, hy⟩⟩ := hg
  obtain ⟨x, rfl⟩ := Option.ne_none_iff_exists'.1 hx
  obtain ⟨y, rfl⟩ := Option.ne_none_iff_exists'.1 hy
  have hlist : (Tokens.ofPieces (as ++ (g ++ bs))).list = tokensFrom .start as ++
      (tokensFrom (Position.start.after (joined as)) g ++
        tokensFrom ((Position.start.after (joined as)).after (joined g)) bs) := by
    rw [Tokens.ofPieces, tokensFrom_append, tokensFrom_append]
  have hspan := Tokens.span_eq_join hlist (by rw [hfirst]; rfl)
    (by rw [hlast, tokensFrom_append]; exact List.getLast?_concat)
  rw [← tokensFrom_append, length_tokensFrom, length_tokensFrom] at hspan
  rw [hspan, Span.join_between, Position.after_append, hlast, joined_append, Position.after_append]
  simp [joined]

theorem textAt_eq :
    (Reading.ofPieces (as ++ (g ++ bs))).textAt ⟨(heard (g ++ bs)).length, (heard bs).length⟩ =
      String.ofList (squeeze (joined g)) := by
  rw [Reading.textAt, Reading.ofPieces, hg.span_eq, joined_append, joined_append, excerpt_append]

end Stretch

theorem textAt_congr {g : List Piece} {i k : Nat} (hlt : k < i) (hi : i ≤ (heard g).length)
    (as bs as' bs' : List Piece) :
    (Reading.ofPieces (as ++ (g ++ bs))).textAt ⟨i + (heard bs).length, k + (heard bs).length⟩ =
      (Reading.ofPieces (as' ++ (g ++ bs'))).textAt ⟨i + (heard bs').length, k + (heard bs').length⟩ := by
  obtain ⟨cs, f, ds, rfl, hf, rfl, rfl⟩ := exists_stretch hlt hi
  have htext (as bs : List Piece) :
      (Reading.ofPieces (as ++ (cs ++ (f ++ ds) ++ bs))).textAt
        ⟨(heard (f ++ ds)).length + (heard bs).length, (heard ds).length + (heard bs).length⟩ =
      String.ofList (squeeze (joined f)) := by
    have hsplit : as ++ (cs ++ (f ++ ds) ++ bs) = (as ++ cs) ++ (f ++ (ds ++ bs)) := by simp
    have hleft : (heard ds).length + (heard bs).length = (heard (ds ++ bs)).length := by simp
    have hunread : (heard (f ++ ds)).length + (heard bs).length = (heard (f ++ (ds ++ bs))).length := by
      simp [Nat.add_assoc]
    rw [hsplit, hleft, hunread, hf.textAt_eq]
  rw [htext, htext]

end MemberOrder
