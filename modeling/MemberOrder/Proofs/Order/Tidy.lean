import Mathlib.Data.List.Nodup
import MemberOrder.Proofs.Order.Sorted
/-! Trees without the members that are late. No member is late in what is left, and in a text the members
that are late are those at the places of the findings. Main statements:
`CompilationUnit.findings_without_late`, `without_late_eq`. -/
namespace MemberOrder

variable {σ τ : Type}

section Left

theorem Member.not_late_of_subset {ordered : Bool} {earlier earlier' : List (Member σ τ)}
    {m : Member σ τ} (h : m.isLate ordered earlier = false)
    (hkinds : earlier'.filterMap kind? ⊆ earlier.filterMap kind?) :
    m.isLate ordered earlier' = false := by
  cases hlate : m.isLate ordered earlier' with
  | false => rfl
  | true =>
    simp only [isLate, Bool.and_eq_true, Option.any_eq_true, List.any_eq_true] at hlate
    obtain ⟨hordered, k, hk, k', hk', hlt⟩ := hlate
    have hm : m.isLate ordered earlier = true := by
      simp only [isLate, Bool.and_eq_true, Option.any_eq_true, List.any_eq_true]
      exact ⟨hordered, k, hk, k', hkinds hk', hlt⟩
    rw [hm] at h
    cases h

theorem TypeDecl.latePlaces_without (d : TypeDecl σ τ) :
    (d.without Member.isLate).gather Member.latePlace = [] := by
  -- Fewer members stand in front of a member than before, so it is no later than before.
  induction d using TypeDecl.body_induction (r := fun ordered earlier xs =>
    ∀ earlier' : List (Member σ τ), earlier'.filterMap Member.kind? ⊆ earlier.filterMap Member.kind? →
      Member.gatherAfter Member.latePlace ordered earlier'
      (Member.withoutAfter Member.isLate ordered earlier xs) = []) with
  | mk kind name m members body span ih => exact ih [] (List.Subset.refl _)
  | nil => rfl
  | leaf ordered earlier x xs hleaf ih earlier' hkinds =>
    rw [Member.withoutAfter, hleaf.without]
    have happend : earlier.filterMap Member.kind? ⊆ (earlier ++ [x]).filterMap Member.kind? := by
      rw [List.filterMap_append]
      exact List.subset_append_left _ _
    cases hlate : x.isLate ordered earlier with
    | true =>
      rw [if_pos rfl, List.nil_append]
      exact ih earlier' (List.Subset.trans hkinds happend)
    | false =>
      have hx : x.latePlace ordered earlier' = [] := by
        rw [Member.latePlace, Member.not_late_of_subset hlate hkinds]
        rfl
      rw [if_neg Bool.false_ne_true, List.singleton_append, Member.gatherAfter, hleaf.gather, hx,
        List.nil_append]
      refine ih (earlier' ++ [x]) ?_
      rw [List.filterMap_append, List.filterMap_append]
      exact List.append_subset.2 ⟨List.subset_append_of_subset_left _ hkinds, List.subset_append_right _ _⟩
  | type ordered earlier d xs hd ih earlier' hkinds =>
    rw [Member.withoutAfter, Member.without, List.singleton_append, Member.gatherAfter, Member.gather,
      hd, List.nil_append]
    refine ih _ ?_
    have hnone (e : TypeDecl σ τ) : [Member.type e].filterMap Member.kind? = [] := rfl
    rwa [List.filterMap_append, List.filterMap_append, hnone, hnone, List.append_nil, List.append_nil]

theorem CompilationUnit.findings_without_late (u : CompilationUnit Span τ) :
    (u.without Member.isLate).findings = [] := by
  have hplaces := (u.without Member.isLate).position_findings
  have hnone : (u.without Member.isLate).latePlaces = [] := by
    simp only [latePlaces, without, List.flatMap_map, TypeDecl.latePlaces_without,
      List.flatMap_eq_nil_iff, implies_true]
  rw [hnone] at hplaces
  exact List.map_eq_nil_iff.1 hplaces

end Left

def Member.standsIn (as : List Span) : About Span τ Bool := fun _ _ m => m.span ∈ as

theorem PlacesInOrder.nodup {source : List Char} {as : List Span} (h : PlacesInOrder source as) :
    as.Nodup := by
  refine h.pairwise.imp_of_mem fun {a b} ha _ hab heq => ?_
  subst heq
  exact absurd (h.nonempty a ha) (Nat.not_lt.2 hab)

theorem without_late_eq {source : List Char} {u : SourceUnit} (h : parse source = .ok u) :
    u.without Member.isLate = u.without (Member.standsIn u.latePlaces) := by
  let told : About Span String (List (Span × Bool)) := fun ordered earlier m =>
    [(m.span, m.isLate ordered earlier)]
  have hlate : u.latePlaces =
      (u.types.flatMap (TypeDecl.gather told)).flatMap fun p => if p.2 then [p.1] else [] := by
    simp only [CompilationUnit.latePlaces, List.flatMap_assoc, TypeDecl.flatMap_gather, told,
      List.flatMap_singleton]
    rfl
  have hnodup : ((u.types.flatMap (TypeDecl.gather told)).map Prod.fst).Nodup := by
    have hspans := (spans_inOrder h).nodup
    simpa only [List.map_flatMap, TypeDecl.map_gather, told, List.map_cons, List.map_nil] using hspans
  have hiff : ∀ p ∈ u.types.flatMap (TypeDecl.gather told), p.2 = decide (p.1 ∈ u.latePlaces) := by
    intro p hp
    rw [Bool.eq_iff_iff, decide_eq_true_iff, hlate, List.mem_flatMap]
    constructor
    · intro htrue
      exact ⟨p, hp, by rw [if_pos htrue]; exact List.mem_singleton_self _⟩
    · intro hmem
      obtain ⟨q, hq, hpq⟩ := hmem
      split at hpq
      next htrue =>
        have hsame := List.inj_on_of_nodup_map hnodup hp hq (List.mem_singleton.1 hpq)
        rwa [hsame]
      next => cases hpq
  simp only [CompilationUnit.without]
  congr 1
  refine List.map_congr_left fun d hd => d.without_congr fun p hp => ?_
  have hpairs : (d.gather told).map (fun p => (p.2, decide (p.1 ∈ u.latePlaces))) =
      d.gather fun ordered earlier m => [(m.isLate ordered earlier, decide (m.span ∈ u.latePlaces))] :=
    d.map_gather _ told
  obtain ⟨q, hq, rfl⟩ := List.mem_map.1 (hpairs ▸ hp)
  exact hiff q (List.mem_flatMap.2 ⟨d, hd, hq⟩)

end MemberOrder
