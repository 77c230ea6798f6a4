import Mathlib.Data.List.Sort
import MemberOrder.Proofs.Files.Components
/-! Lists of paths that go up. Such a list is told by what is in it, and which of equal paths it has is told
by which of them comes first in the list it is made of (`Path.firstWith_sorted`). So it does not matter
whether paths are put in order all at once or in parts (`Path.sorted_append`). -/
namespace MemberOrder

/-- Things of which none is after another keep their order when they are put in order with others. -/
theorem filter_mergeSort_tied {α : Type} {notAfter : α → α → Bool}
    (htrans : ∀ a b c, notAfter a b → notAfter b c → notAfter a c)
    (htotal : ∀ a b, (notAfter a b || notAfter b a) = true) {p : α → Bool}
    (htied : ∀ a b, p a → p b → notAfter a b) (as : List α) :
    (as.mergeSort notAfter).filter p = as.filter p := by
  have hequal : (as.filter p).Pairwise fun a b => notAfter a b :=
    List.pairwise_of_forall_mem_list fun a ha b hb =>
      htied a b (List.mem_filter.1 ha).2 (List.mem_filter.1 hb).2
  have hsublist := (List.sublist_mergeSort htrans htotal hequal List.filter_sublist).filter p
  rw [List.filter_filter] at hsublist
  simp only [Bool.and_self] at hsublist
  exact (hsublist.eq_of_length ((List.mergeSort_perm as notAfter).filter _).length_eq.symm).symm

namespace Path

variable {p q : Path} {ps qs : List Path} {cs : List Component}

def Before (p q : Path) : Prop := p.notAfter q ∧ p.components ≠ q.components

theorem notAfter_of_components_eq (h : p.components = q.components) : p.notAfter q := by
  unfold notAfter
  rw [key_eq_iff.2 h]
  exact (ranks_keys.total q.key q.key).elim id id

theorem components_eq_of_notAfter (hpq : p.notAfter q) (hqp : q.notAfter p) : p.components = q.components :=
  key_eq_iff.1 (ranks_keys.antisymm hpq hqp)

instance irrefl_before : Std.Irrefl Before := ⟨fun _ h => h.2 rfl⟩

instance antisymm_before : Std.Antisymm Before :=
  ⟨fun _ _ hpq hqp => absurd (components_eq_of_notAfter hpq.1 hqp.1) hpq.2⟩

theorem sorted_before (ps : List Path) : (sorted ps).Pairwise Before := sorted_pairwise ps

def KeyBefore (k l : List (List Nat)) : Prop :=
  lexNotAfter (lexNotAfter fun a b => decide (a ≤ b)) k l ∧ k ≠ l

instance irrefl_keyBefore : Std.Irrefl KeyBefore := ⟨fun _ h => h.2 rfl⟩

instance antisymm_keyBefore : Std.Antisymm KeyBefore :=
  ⟨fun _ _ hkl hlk => absurd (ranks_keys.antisymm hkl.1 hlk.1) hkl.2⟩

theorem map_components_eq (hps : ps.Pairwise Before) (hqs : qs.Pairwise Before)
    (h : ∀ cs, cs ∈ ps.map components ↔ cs ∈ qs.map components) : ps.map components = qs.map components := by
  have hkeys {ps : List Path} (hps : ps.Pairwise Before) : (ps.map key).Pairwise KeyBefore :=
    List.pairwise_map.2 (hps.imp fun hpq => ⟨hpq.1, fun heq => hpq.2 (key_eq_iff.1 heq)⟩)
  have hmap (ps : List Path) : ps.map key = (ps.map components).map (List.map Component.key) := by
    rw [List.map_map]
    rfl
  have heq : ps.map key = qs.map key := (hkeys hps).eq_of_mem_iff (hkeys hqs) fun k => by
    rw [hmap, hmap, List.mem_map, List.mem_map]
    simp only [h]
  rw [hmap, hmap] at heq
  exact List.map_injective_iff.2 (List.map_injective_iff.2 Component.key_injective) heq

theorem mem_map_components_sorted : cs ∈ (sorted ps).map components ↔ cs ∈ ps.map components := by
  simp only [List.mem_map]
  constructor
  · rintro ⟨p, hp, rfl⟩
    exact ⟨p, mem_of_mem_sorted hp, rfl⟩
  · rintro ⟨p, hp, rfl⟩
    exact exists_mem_sorted hp

/-! Which of equal paths is left. -/

def firstWith (cs : List Component) (ps : List Path) : Option Path :=
  ps.find? fun p => decide (p.components = cs)

theorem firstWith_cons (p : Path) (ps : List Path) :
    firstWith cs (p :: ps) = if p.components = cs then some p else firstWith cs ps := by
  by_cases h : p.components = cs <;> simp [firstWith, h]

theorem firstWith_append (ps qs : List Path) :
    firstWith cs (ps ++ qs) = (firstWith cs ps).or (firstWith cs qs) :=
  List.find?_append

theorem firstWith_dedup (ps : List Path) : firstWith cs (sorted.dedup ps) = firstWith cs ps := by
  fun_induction sorted.dedup ps with
  | case1 => rfl
  | case2 => rfl
  | case3 p q ps hkey ih =>
    rw [ih, firstWith_cons, firstWith_cons, firstWith_cons, key_eq_iff.1 hkey]
    split <;> rfl
  | case4 p q ps hkey ih => rw [firstWith_cons, firstWith_cons, ih]

theorem filter_mergeSort (ps : List Path) :
    (ps.mergeSort notAfter).filter (fun p => decide (p.components = cs)) =
      ps.filter fun p => decide (p.components = cs) :=
  filter_mergeSort_tied notAfter_trans notAfter_total (fun _ _ hp hq =>
    notAfter_of_components_eq ((of_decide_eq_true hp).trans (of_decide_eq_true hq).symm)) ps

theorem firstWith_sorted (ps : List Path) : firstWith cs (sorted ps) = firstWith cs ps := by
  unfold sorted
  rw [firstWith_dedup, firstWith, firstWith, ← List.head?_filter, ← List.head?_filter, filter_mergeSort]

theorem firstWith_eq_some_iff (hps : ps.Pairwise Before) :
    firstWith p.components ps = some p ↔ p ∈ ps := by
  refine ⟨List.mem_of_find?_eq_some, fun hp => ?_⟩
  induction ps with
  | nil => cases hp
  | cons q ps ih =>
    obtain ⟨hq, hps⟩ := List.pairwise_cons.1 hps
    rw [firstWith_cons]
    obtain rfl | hp := List.mem_cons.1 hp
    · rw [if_pos rfl]
    · rw [if_neg (hq p hp).2, ih hps hp]

theorem eq_of_firstWith (hps : ps.Pairwise Before) (hqs : qs.Pairwise Before)
    (h : ∀ cs, firstWith cs ps = firstWith cs qs) : ps = qs :=
  hps.eq_of_mem_iff hqs fun p => by
    rw [← firstWith_eq_some_iff hps, ← firstWith_eq_some_iff hqs, h]

theorem sorted_append (ps qs : List Path) : sorted (sorted ps ++ sorted qs) = sorted (ps ++ qs) :=
  eq_of_firstWith (sorted_before _) (sorted_before _) fun cs => by
    simp only [firstWith_sorted, firstWith_append]

/-- What is in one list of paths or another, in order and each path once. -/
structure IsUnion (ps qs us : List Path) : Prop where
  increasing : us.Pairwise Before
  of : ∀ p ∈ us, p ∈ ps ∨ p ∈ qs
  all : ∀ p, p ∈ ps ∨ p ∈ qs → ∃ u ∈ us, u.components = p.components

theorem isUnion_sorted_append (ps qs : List Path) : IsUnion ps qs (sorted (ps ++ qs)) where
  increasing := sorted_before _
  of _ hp := List.mem_append.1 (mem_of_mem_sorted hp)
  all _ hp := exists_mem_sorted (List.mem_append.2 hp)

end Path

end MemberOrder
