import Mathlib.Data.List.Basic
import MemberOrder.Files.Path
/-! The components of paths, and lists of paths in their order. Main statements: a name put behind a path
is one component more (`Path.components_join`), and of a list of paths those are left that differ in
their components (`Path.sorted_pairwise`, `Path.exists_mem_sorted`). -/
namespace MemberOrder

structure IsName (n : List Char) : Prop where
  slash : '/' ∉ n
  nul : '\x00' ∉ n
  inner : Component.inner? n = some (.name n)

theorem segments_ne_nil (p : Path) : segments p ≠ [] := by
  cases p with
  | nil => simp [segments]
  | cons c s =>
    rw [segments]
    split
    · simp
    · split <;> simp

theorem segments_append_slash (p q : Path) :
    segments (p ++ '/' :: q) = segments p ++ segments q := by
  induction p with
  | nil => simp [segments]
  | cons c s ih =>
    by_cases hc : c = '/'
    · simp [segments, hc, ih]
    · obtain ⟨w, ws, hs⟩ := List.exists_cons_of_ne_nil (segments_ne_nil s)
      rw [List.cons_append, segments, if_neg hc, ih, segments, if_neg hc, hs]
      rfl

theorem segments_of_not_mem {n : List Char} (h : '/' ∉ n) : segments n = [n] := by
  induction n with
  | nil => rfl
  | cons c s ih =>
    simp only [List.mem_cons, not_or] at h
    rw [segments, if_neg (Ne.symm h.1), ih h.2]

namespace Path

/-- The component that only stands in front. -/
def front (p : Path) : List Component :=
  match (segments p).head? with
  | some [] => if p.isEmpty then [] else [.root]
  | some ['.'] => [.current]
  | _ => []

def steps (p : Path) : List Component :=
  (segments p).filterMap Component.inner?

theorem components_eq (p : Path) : p.components = p.front ++ p.steps := by
  unfold components front steps
  split
  next s hs =>
    cases p with
    | nil =>
      obtain rfl : s = [] := by simpa [segments] using hs.symm
      simp [hs, Component.inner?]
    | cons c p => simp [hs, List.filterMap_cons, Component.inner?]
  next s hs => simp [hs, Component.inner?]
  next hroot hcurrent =>
    obtain ⟨w, ws, hs⟩ := List.exists_cons_of_ne_nil (segments_ne_nil p)
    rw [hs] at hroot hcurrent ⊢
    simp only [List.head?_cons]
    split
    next h => exact absurd (by rw [Option.some.inj h]) (hroot ws)
    next h => exact absurd (by rw [Option.some.inj h]) (hcurrent ws)
    next => rfl

theorem front_cases (p : Path) : p.front = [] ∧ p.head? ≠ some '/' ∨
    p.front = [.current] ∧ p.head? ≠ some '/' ∨ p.front = [.root] ∧ p.head? = some '/' := by
  unfold front
  cases p with
  | nil => exact .inl ⟨rfl, nofun⟩
  | cons c s =>
    obtain ⟨w, ws, hs⟩ := List.exists_cons_of_ne_nil (segments_ne_nil s)
    rw [segments, hs]
    by_cases hc : c = '/'
    · exact .inr (.inr ⟨by rw [hc]; rfl, by simp [hc]⟩)
    · have hne : (c :: s).head? ≠ some '/' := by simpa using hc
      rw [if_neg hc]
      simp only [List.head?_cons]
      split
      next h => cases h
      next => exact .inr (.inl ⟨rfl, hne⟩)
      next => exact .inl ⟨rfl, hne⟩

theorem front_of_rooted {p : Path} (h : p.head? = some '/') : p.front = [.root] := by
  obtain ⟨-, hp⟩ | ⟨-, hp⟩ | ⟨hf, -⟩ := p.front_cases
  · exact absurd h hp
  · exact absurd h hp
  · exact hf

theorem front_of_relative {p : Path} (h : p.head? ≠ some '/') : p.front = [] ∨ p.front = [.current] := by
  obtain ⟨hf, -⟩ | ⟨hf, -⟩ | ⟨-, hp⟩ := p.front_cases
  · exact .inl hf
  · exact .inr hf
  · exact absurd hp h

theorem segments_join {dir : Path} {n : List Char} (hdir : dir ≠ []) (hn : '/' ∉ n) :
    ∃ ws, ws ≠ [] ∧ segments (dir.join n) = ws ++ [n] ∧
      (segments dir = ws ∨ segments dir = ws ++ [[]]) := by
  have hempty : dir.isEmpty = false := by simpa using hdir
  unfold join
  by_cases hlast : dir.getLast? = some '/'
  · obtain ⟨d, rfl⟩ := List.getLast?_eq_some_iff.1 hlast
    refine ⟨segments d, segments_ne_nil d, ?_, .inr (segments_append_slash d [])⟩
    rw [if_pos (by simp), List.append_assoc]
    exact (segments_append_slash d n).trans (by rw [segments_of_not_mem hn])
  · refine ⟨segments dir, segments_ne_nil dir, ?_, .inl rfl⟩
    rw [if_neg (by simp [hempty, hlast]), segments_append_slash, segments_of_not_mem hn]

theorem join_ne_nil {dir : Path} {n : List Char} (hdir : dir ≠ []) : dir.join n ≠ [] := by
  unfold join
  split
  · exact List.append_ne_nil_of_left_ne_nil hdir n
  · exact List.append_ne_nil_of_left_ne_nil hdir _

theorem head?_join {dir : Path} {n : List Char} (hdir : dir ≠ []) : (dir.join n).head? = dir.head? := by
  obtain ⟨c, s, rfl⟩ := List.exists_cons_of_ne_nil hdir
  unfold join
  split <;> rfl

theorem mem_join {dir : Path} {n : List Char} {c : Char} (h : c ∈ dir.join n) :
    c ∈ dir ∨ c = '/' ∨ c ∈ n := by
  unfold join at h
  split at h
  · exact (List.mem_append.1 h).imp_right .inr
  · exact (List.mem_append.1 h).imp_right fun h => List.mem_cons.1 h

theorem components_join {dir : Path} {n : List Char} (hdir : dir ≠ []) (hn : IsName n) :
    (dir.join n).components = dir.components ++ [.name n] := by
  obtain ⟨ws, hws, hjoin, hsegments⟩ := segments_join hdir hn.slash
  have hhead : (segments (dir.join n)).head? = (segments dir).head? := by
    obtain ⟨w, ws, rfl⟩ := List.exists_cons_of_ne_nil hws
    obtain h | h := hsegments <;> simp [hjoin, h]
  have hempty : (dir.join n).isEmpty = dir.isEmpty := by
    simp [List.isEmpty_eq_false_iff.2 (join_ne_nil hdir), List.isEmpty_eq_false_iff.2 hdir]
  have hfront : (dir.join n).front = dir.front := by
    unfold front
    rw [hhead, hempty]
  have hsteps : (dir.join n).steps = dir.steps ++ [.name n] := by
    unfold steps
    have hnone : Component.inner? [] = none := rfl
    obtain h | h := hsegments <;> simp [hjoin, h, hn.inner, hnone]
  rw [components_eq, components_eq, hfront, hsteps, List.append_assoc]

end Path

theorem Component.key_injective : Function.Injective Component.key := by
  intro a b h
  cases a <;> cases b <;> simp [key] at h ⊢
  have htoNat : Function.Injective Char.toNat := fun c d h => Char.toNat_inj.1 h
  exact List.map_injective_iff.2 htoNat h

theorem Path.key_eq_iff {p q : Path} : p.key = q.key ↔ p.components = q.components :=
  (List.map_injective_iff.2 Component.key_injective).eq_iff

/-! The order. -/

section Ranks

variable {α : Type} [DecidableEq α]

/-- A test that puts things in line: of two, one is not after the other, and both only if they are
the same. -/
structure Ranks (notAfter : α → α → Bool) : Prop where
  total : ∀ a b, notAfter a b ∨ notAfter b a
  trans : ∀ {a b c}, notAfter a b → notAfter b c → notAfter a c
  antisymm : ∀ {a b}, notAfter a b → notAfter b a → a = b

theorem ranks_le : Ranks fun a b : Nat => decide (a ≤ b) where
  total a b := by simpa using Nat.le_total a b
  trans hab hbc := by simp only [decide_eq_true_eq] at *; omega
  antisymm hab hba := by simp only [decide_eq_true_eq] at *; omega

variable {notAfter : α → α → Bool}

theorem lexNotAfter_cons (a b : α) (s t : List α) : lexNotAfter notAfter (a :: s) (b :: t) =
    if a = b then lexNotAfter notAfter s t else notAfter a b := rfl

theorem Ranks.lex (h : Ranks notAfter) : Ranks (lexNotAfter notAfter) where
  total s := by
    induction s with
    | nil => exact fun t => .inl rfl
    | cons a s ih =>
      intro t
      cases t with
      | nil => exact .inr rfl
      | cons b t =>
        rw [lexNotAfter_cons, lexNotAfter_cons]
        by_cases hab : a = b
        · simpa [hab] using ih t
        · rw [if_neg hab, if_neg (Ne.symm hab)]
          exact h.total a b
  trans {s} := by
    induction s with
    | nil => exact fun _ _ => rfl
    | cons a s ih =>
      intro t u hst htu
      cases t with
      | nil => cases hst
      | cons b t =>
        cases u with
        | nil => cases htu
        | cons c u =>
          rw [lexNotAfter_cons] at hst htu ⊢
          by_cases hab : a = b
          · subst hab
            split at htu
            next hac =>
              rw [if_pos rfl] at hst
              rw [if_pos hac]
              exact ih hst htu
            next hac => rwa [if_neg hac]
          · rw [if_neg hab] at hst
            split at htu
            next hbc =>
              subst hbc
              rwa [if_neg hab]
            next hbc =>
              -- The third head cannot be the first again, for the second is not after either.
              have hac : a ≠ c := by
                rintro rfl
                exact hab (h.antisymm hst htu)
              rw [if_neg hac]
              exact h.trans hst htu
  antisymm {s} := by
    induction s with
    | nil =>
      intro t _ hts
      cases t with
      | nil => rfl
      | cons b t => cases hts
    | cons a s ih =>
      intro t hst hts
      cases t with
      | nil => cases hst
      | cons b t =>
        rw [lexNotAfter_cons] at hst hts
        by_cases hab : a = b
        · subst hab
          rw [if_pos rfl] at hst hts
          rw [ih hst hts]
        · rw [if_neg hab] at hst
          rw [if_neg (Ne.symm hab)] at hts
          exact absurd (h.antisymm hst hts) hab

end Ranks

namespace Path

theorem ranks_keys : Ranks (lexNotAfter (lexNotAfter fun a b : Nat => decide (a ≤ b))) :=
  ranks_le.lex.lex

variable {p : Path} {ps : List Path}

theorem mem_of_mem_dedup (h : p ∈ sorted.dedup ps) : p ∈ ps := by
  fun_induction sorted.dedup ps with
  | case1 => exact h
  | case2 => exact h
  | case3 q r ps hkey ih =>
    obtain rfl | hmem := List.mem_cons.1 (ih h)
    · exact List.mem_cons_self
    · exact List.mem_cons_of_mem _ (List.mem_cons_of_mem _ hmem)
  | case4 q r ps hkey ih =>
    obtain rfl | hmem := List.mem_cons.1 h
    · exact List.mem_cons_self
    · exact List.mem_cons_of_mem _ (ih hmem)

theorem exists_mem_dedup (h : p ∈ ps) : ∃ q ∈ sorted.dedup ps, q.key = p.key := by
  fun_induction sorted.dedup ps generalizing p with
  | case1 => cases h
  | case2 => exact ⟨p, h, rfl⟩
  | case3 q r ps hkey ih =>
    obtain rfl | h := List.mem_cons.1 h
    · exact ih List.mem_cons_self
    obtain rfl | h := List.mem_cons.1 h
    · exact hkey ▸ ih List.mem_cons_self
    · exact ih (List.mem_cons_of_mem _ h)
  | case4 q r ps hkey ih =>
    obtain rfl | h := List.mem_cons.1 h
    · exact ⟨p, List.mem_cons_self, rfl⟩
    · obtain ⟨q', hq', heq⟩ := ih h
      exact ⟨q', List.mem_cons_of_mem _ hq', heq⟩

theorem dedup_pairwise (h : ps.Pairwise fun p q => p.notAfter q) :
    (sorted.dedup ps).Pairwise fun p q => p.notAfter q ∧ p.key ≠ q.key := by
  fun_induction sorted.dedup ps with
  | case1 => exact .nil
  | case2 => simp
  | case3 q r ps hkey ih =>
    obtain ⟨hq, hrest⟩ := List.pairwise_cons.1 h
    exact ih (List.pairwise_cons.2
      ⟨fun s hs => hq s (List.mem_cons_of_mem _ hs), (List.pairwise_cons.1 hrest).2⟩)
  | case4 q r ps hkey ih =>
    obtain ⟨hq, hrest⟩ := List.pairwise_cons.1 h
    refine List.pairwise_cons.2 ⟨fun s hs => ?_, ih hrest⟩
    have hs' := mem_of_mem_dedup hs
    refine ⟨hq s hs', fun hqs => ?_⟩
    have hqr : q.notAfter r := hq r List.mem_cons_self
    have hrq : r.notAfter q := by
      unfold notAfter
      rw [hqs]
      obtain rfl | hs' := List.mem_cons.1 hs'
      · exact (ranks_keys.total s.key s.key).elim id id
      · exact (List.pairwise_cons.1 hrest).1 s hs'
    exact hkey (ranks_keys.antisymm hqr hrq)

theorem mem_of_mem_sorted (h : p ∈ sorted ps) : p ∈ ps :=
  List.mem_mergeSort.1 (mem_of_mem_dedup h)

theorem exists_mem_sorted (h : p ∈ ps) : ∃ q ∈ sorted ps, q.components = p.components := by
  obtain ⟨q, hq, hkey⟩ := exists_mem_dedup (List.mem_mergeSort.2 h)
  exact ⟨q, hq, key_eq_iff.1 hkey⟩

theorem notAfter_trans (p q r : Path) (hpq : p.notAfter q) (hqr : q.notAfter r) : p.notAfter r :=
  ranks_keys.trans hpq hqr

theorem notAfter_total (p q : Path) : (p.notAfter q || q.notAfter p) = true :=
  Bool.or_eq_true_iff.2 (ranks_keys.total p.key q.key)

theorem sorted_pairwise (ps : List Path) :
    (sorted ps).Pairwise fun p q => p.notAfter q ∧ p.components ≠ q.components := by
  have hsorted : (ps.mergeSort notAfter).Pairwise fun p q => p.notAfter q :=
    List.pairwise_mergeSort notAfter_trans notAfter_total ps
  exact (dedup_pairwise hsorted).imp fun h => ⟨h.1, fun heq => h.2 (key_eq_iff.2 heq)⟩

theorem sorted_nodup (ps : List Path) : (sorted ps).Nodup :=
  (sorted_pairwise ps).imp fun h heq => h.2 (congrArg components heq)

end Path

end MemberOrder
