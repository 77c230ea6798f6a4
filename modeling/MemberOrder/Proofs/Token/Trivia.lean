import Mathlib.Data.List.TakeWhile
import MemberOrder.Proofs.Token.Apart
/-! What may stand between tokens: white space and comments. It is cut into pieces without a symbol,
whatever stands behind it (`scan_trivia`). -/
namespace MemberOrder

/-- White space, line comments with the line feeds that end them, and closed block comments. -/
inductive Trivia : List Char → Prop
  | nil : Trivia []
  | blank {c s} (hc : isBlank c) (hs : Trivia s) : Trivia (c :: s)
  | line {t s} (ht : '\n' ∉ t) (hs : Trivia s) : Trivia ('/' :: '/' :: (t ++ '\n' :: s))
  | block {t s} (ht : ¬ ['*', '/'] <:+: t) (hs : Trivia s) :
      Trivia ('/' :: '*' :: (t ++ '*' :: '/' :: s))

/-- The same where a text ends: there the last line comment needs no line feed. -/
inductive TriviaToEnd : List Char → Prop
  | closed {s} (hs : Trivia s) : TriviaToEnd s
  | line {s t} (hs : Trivia s) (ht : '\n' ∉ t) : TriviaToEnd (s ++ '/' :: '/' :: t)

theorem Trivia.append {s t : List Char} (hs : Trivia s) (ht : Trivia t) : Trivia (s ++ t) := by
  induction hs with
  | nil => exact ht
  | blank hc _ ih => exact .blank hc ih
  | line hu _ ih => simpa using Trivia.line hu ih
  | block hu _ ih => simpa using Trivia.block hu ih

theorem Trivia.append_toEnd {s t : List Char} (hs : Trivia s) (ht : TriviaToEnd t) :
    TriviaToEnd (s ++ t) := by
  cases ht with
  | closed ht => exact .closed (hs.append ht)
  | line ht hu =>
    rw [← List.append_assoc]
    exact .line (hs.append ht) hu

theorem throughComment_eq_some_iff {s u rest : List Char} : throughComment s = (u, some rest) ↔
    ∃ t, u = t ++ ['*', '/'] ∧ s = u ++ rest ∧ ¬ ['*', '/'] <:+: t := by
  constructor
  · intro h
    fun_induction throughComment s generalizing u with
    | case1 => cases h
    | case2 s =>
      cases h
      exact ⟨[], rfl, rfl, by simp⟩
    | case3 c s hc ih =>
      obtain ⟨v, rfl, hv⟩ := pushed_eq_iff.1 h
      obtain ⟨t, rfl, rfl, ht⟩ := ih hv
      refine ⟨c :: t, rfl, rfl, ?_⟩
      rw [List.infix_cons_iff, not_or]
      refine ⟨?_, ht⟩
      rintro ⟨w, hw⟩
      obtain ⟨rfl, rfl⟩ : '*' = c ∧ '/' :: w = t := by simpa using hw
      exact hc (w ++ ['*', '/'] ++ rest) rfl (by simp)
  · rintro ⟨t, rfl, rfl, ht⟩
    induction t with
    | nil => rfl
    | cons c t ih =>
      rw [List.infix_cons_iff, not_or] at ht
      have hstep : throughComment (c :: (t ++ ['*', '/'] ++ rest)) =
          pushed c (throughComment (t ++ ['*', '/'] ++ rest)) := by
        rw [throughComment]
        rintro w rfl hw
        cases t with
        | nil => simp at hw
        | cons d t =>
          obtain rfl : d = '/' := by simpa using (List.cons.inj hw).1
          exact ht.1 ⟨t, rfl⟩
      rw [List.cons_append, List.cons_append, hstep, ih ht.2]
      rfl

def Silent (ps : List Piece) : Prop :=
  ∀ p ∈ ps, p.symbol = none

def Pieces.prepend (ps : List Piece) (r : Pieces) : Pieces :=
  ⟨ps ++ r.pieces, r.open?⟩

theorem scan_lineComment {t s : List Char} (ht : '\n' ∉ t) (hs : s.head?.all (· = '\n')) :
    scan ('/' :: '/' :: (t ++ s)) = (scan s).cons ⟨none, '/' :: '/' :: t⟩ := by
  have hall : ∀ c ∈ t, decide (c ≠ '\n') = true := by
    intro c hc
    simp only [ne_eq, decide_eq_true_eq]
    rintro rfl
    exact ht hc
  have hhead : Head.of '/' ('/' :: (t ++ s)) = .piece ⟨none, '/' :: '/' :: t⟩ s := by
    have htake : (t ++ s).takeWhile (· ≠ '\n') = t := by
      rw [List.takeWhile_append_of_pos hall]
      cases s with
      | nil => simp
      | cons c s => simp_all
    have hdrop : (t ++ s).dropWhile (· ≠ '\n') = s := by
      rw [List.dropWhile_append_of_pos hall]
      cases s with
      | nil => simp
      | cons c s => simp_all
    have hof : Head.of '/' ('/' :: (t ++ s)) = Head.slash ('/' :: (t ++ s)) := rfl
    rw [hof, Head.slash, htake, hdrop]
  exact scan_of_piece hhead

theorem scan_blockComment {t s : List Char} (ht : ¬ ['*', '/'] <:+: t) :
    scan ('/' :: '*' :: (t ++ '*' :: '/' :: s)) =
      (scan s).cons ⟨none, '/' :: '*' :: (t ++ ['*', '/'])⟩ := by
  have hthrough : throughComment (t ++ '*' :: '/' :: s) = (t ++ ['*', '/'], some s) :=
    throughComment_eq_some_iff.2 ⟨t, rfl, by simp, ht⟩
  have hof : Head.of '/' ('*' :: (t ++ '*' :: '/' :: s)) =
      Head.closed none .blockComment ['/', '*'] (throughComment (t ++ '*' :: '/' :: s)) := rfl
  rw [hthrough] at hof
  exact scan_of_piece hof

theorem scan_trivia {g : List Char} (hg : Trivia g) (s : List Char) :
    ∃ ps, Silent ps ∧ scan (g ++ s) = (scan s).prepend ps := by
  induction hg with
  | nil => exact ⟨[], by simp [Silent], rfl⟩
  | @blank c g hc _ ih =>
    obtain ⟨ps, hps, hscan⟩ := ih
    refine ⟨⟨none, [c]⟩ :: ps, by simpa [Silent] using hps, ?_⟩
    rw [List.cons_append, scan_blank hc, hscan]
    rfl
  | @line t g ht _ ih =>
    obtain ⟨ps, hps, hscan⟩ := ih
    refine ⟨⟨none, '/' :: '/' :: t⟩ :: ⟨none, ['\n']⟩ :: ps, by simpa [Silent] using hps, ?_⟩
    have happend : '/' :: '/' :: (t ++ '\n' :: g) ++ s = '/' :: '/' :: (t ++ '\n' :: (g ++ s)) := by simp
    rw [happend, scan_lineComment ht (by simp), scan_blank (by decide), hscan]
    rfl
  | @block t g ht _ ih =>
    obtain ⟨ps, hps, hscan⟩ := ih
    refine ⟨⟨none, '/' :: '*' :: (t ++ ['*', '/'])⟩ :: ps, by simpa [Silent] using hps, ?_⟩
    have happend : '/' :: '*' :: (t ++ '*' :: '/' :: g) ++ s =
        '/' :: '*' :: (t ++ '*' :: '/' :: (g ++ s)) := by simp
    rw [happend, scan_blockComment ht, hscan]
    rfl

theorem scan_triviaToEnd {g : List Char} (hg : TriviaToEnd g) :
    ∃ ps, Silent ps ∧ scan g = ⟨ps, none⟩ := by
  cases hg with
  | closed hg =>
    obtain ⟨ps, hps, hscan⟩ := scan_trivia hg []
    rw [List.append_nil, scan_nil] at hscan
    exact ⟨ps, hps, by simpa [Pieces.prepend] using hscan⟩
  | @line s t hs ht =>
    obtain ⟨ps, hps, hscan⟩ := scan_trivia hs ('/' :: '/' :: t)
    have hline := scan_lineComment (s := []) ht rfl
    rw [List.append_nil, scan_nil] at hline
    refine ⟨ps ++ [⟨none, '/' :: '/' :: t⟩], ?_, by rw [hscan, hline]; rfl⟩
    intro p hp
    obtain hp | hp := List.mem_append.1 hp
    · exact hps p hp
    · rw [List.mem_singleton.1 hp]

end MemberOrder
