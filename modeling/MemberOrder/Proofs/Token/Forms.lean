import Mathlib.Tactic.SplitIfs
import MemberOrder.Proofs.Token.Trivia
/-! The forms of pieces: trivia, literals between their quotes, words, numbers and signs. Main
statement: a text is cut into nothing else (`Head.formed`). -/
namespace MemberOrder

inductive Piece.Formed : Piece → Prop
  | blank {c} (hc : isBlank c) : Formed ⟨none, [c]⟩
  | lineComment {t} (ht : '\n' ∉ t) : Formed ⟨none, '/' :: '/' :: t⟩
  | blockComment {t} (ht : ¬ ['*', '/'] <:+: t) : Formed ⟨none, '/' :: '*' :: (t ++ ['*', '/'])⟩
  | textBlock {t} : Formed ⟨some .string, ['"', '"', '"'] ++ (t ++ ['"', '"', '"'])⟩
  | string {t} (ht : ¬ ['"', '"'] <+: t ++ ['"']) : Formed ⟨some .string, ['"'] ++ (t ++ ['"'])⟩
  | character {t} : Formed ⟨some .character, ['\''] ++ (t ++ ['\''])⟩
  | number {t} : Formed ⟨some .number, t⟩
  | nonSealed : Formed ⟨some (.keyword (.modifier .nonSealed)), ['n', 'o', 'n'] ++ sealedTail⟩
  | word {c s} (hc : isWordStart c) (hs : ∀ a ∈ s, isWordPart a) :
      Formed ⟨some (.ofWord (String.ofList (c :: s))), c :: s⟩
  | sign {c} : Formed ⟨some (.ofSign c), [c]⟩

theorem eq_concat_of_throughQuote {q : Char} {s u rest : List Char}
    (h : throughQuote q s = (u, some rest)) : ∃ t, u = t ++ [q] := by
  fun_induction throughQuote q s generalizing u with
  | case1 => cases h
  | case2 c s ih =>
    obtain ⟨v, rfl, hv⟩ := pushed_eq_iff.1 h
    obtain ⟨w, rfl, hw⟩ := pushed_eq_iff.1 hv
    obtain ⟨t, rfl⟩ := ih hw
    exact ⟨'\\' :: c :: t, rfl⟩
  | case3 => cases h
  | case4 =>
    cases h
    exact ⟨[], rfl⟩
  | case5 c s _ _ _ ih =>
    obtain ⟨v, rfl, hv⟩ := pushed_eq_iff.1 h
    obtain ⟨t, rfl⟩ := ih hv
    exact ⟨c :: t, rfl⟩

namespace Head

theorem formed_slash {s rest : List Char} {p : Piece} (h : slash s = .piece p rest) : p.Formed := by
  unfold slash at h
  split at h
  next s =>
    cases h
    refine .lineComment fun hn => ?_
    simpa using List.mem_takeWhile_imp hn
  next s =>
    obtain ⟨u, hu, rfl⟩ := closed_eq_piece_iff.1 h
    obtain ⟨t, rfl, _, ht⟩ := throughComment_eq_some_iff.1 hu
    exact .blockComment ht
  next =>
    cases h
    exact .sign (c := '/')

theorem formed_quote {s rest : List Char} {p : Piece} (h : quote s = .piece p rest) : p.Formed := by
  unfold quote at h
  split at h
  next s =>
    obtain ⟨u, hu, rfl⟩ := closed_eq_piece_iff.1 h
    obtain ⟨t, rfl⟩ := eq_append_of_throughBlock hu
    exact .textBlock
  next _ hs =>
    obtain ⟨u, hu, rfl⟩ := closed_eq_piece_iff.1 h
    obtain ⟨t, rfl⟩ := eq_concat_of_throughQuote hu
    refine .string ?_
    rintro ⟨v, hv⟩
    have happend := (throughQuote_append '"' s).1 rest (by rw [hu])
    rw [hu, ← hv] at happend
    exact hs (v ++ rest) (by simpa using happend.symm)

theorem formed_word {c : Char} {s rest : List Char} {p : Piece} (hc : isWordStart c)
    (h : word c s = .piece p rest) : p.Formed := by
  unfold word at h
  dsimp only at h
  split at h
  next hnon =>
    cases h
    rw [hnon.1]
    exact .nonSealed
  next =>
    cases h
    exact .word hc fun a ha => List.mem_takeWhile_imp ha

theorem formed {c : Char} {s rest : List Char} {p : Piece} (h : of c s = .piece p rest) :
    p.Formed := by
  unfold of at h
  split_ifs at h with hblank hslash hquote hchar hnumber hword
  · cases h
    exact .blank hblank
  · exact formed_slash h
  · exact formed_quote h
  · obtain ⟨u, hu, rfl⟩ := closed_eq_piece_iff.1 h
    obtain ⟨t, rfl⟩ := eq_concat_of_throughQuote hu
    exact .character
  · cases h
    exact .number
  · exact formed_word hword h
  · cases h
    exact .sign

end Head

end MemberOrder
