import Mathlib.Data.List.MinMax
import Mathlib.Order.Lattice
import MemberOrder.Order.Traversal
/-! Lateness: a member is late if some earlier member of its body has a later kind. A scope knows no
more of the earlier members than their latest kind, and that is enough (`Scope.visit_of_kinds`). -/
namespace MemberOrder

namespace MemberKind

theorem rank_injective : Function.Injective rank := by
  intro a b h
  cases a <;> cases b <;> first | rfl | simp [rank] at h

instance : LinearOrder MemberKind where
  le_refl a := Nat.le_refl a.rank
  le_trans a b c := Nat.le_trans (n := a.rank) (m := b.rank) (k := c.rank)
  lt_iff_le_not_ge a b := lt_iff_le_not_ge (a := a.rank) (b := b.rank)
  le_antisymm a b hab hba := rank_injective (Nat.le_antisymm hab hba)
  le_total a b := Nat.le_total a.rank b.rank
  toDecidableLE := inferInstance
  toDecidableLT := inferInstance

end MemberKind

def Event.finding? (earlier : List MemberKind) (e : Event) : Option Violation :=
  if earlier.any (e.kind < ·) then
    earlier.max?.map fun latest =>
      { position := e.position, expectedNotBefore := latest, actual := e.kind,
        message := e.kind.message, name := e.name }
  else none

theorem max?_concat (ks : List MemberKind) (k : MemberKind) :
    (ks ++ [k]).max? = some ((ks.max?.map (max · k)).getD k) := by
  cases ks with
  | nil => rfl
  | cons h t => simp only [List.cons_append, List.max?_cons', List.foldl_append, List.foldl_cons,
      List.foldl_nil, Option.map_some, Option.getD_some]

theorem any_lt_iff {ks : List MemberKind} {k latest : MemberKind} (h : ks.max? = some latest) :
    ks.any (k < ·) ↔ k < latest := by
  obtain ⟨hm, hle⟩ := List.max?_eq_some_iff.1 h
  constructor
  · intro ha
    obtain ⟨j, hj, hk⟩ := List.any_eq_true.1 ha
    exact (of_decide_eq_true hk).trans_le (hle j hj)
  · intro hk
    exact List.any_eq_true.2 ⟨latest, hm, decide_eq_true hk⟩

theorem MemberKind.not_method_lt (k : MemberKind) : ¬ .method < k := by
  cases k <;> decide

theorem Event.late_of_finding? {ks : List MemberKind} {e : Event} {v : Violation}
    (h : e.finding? ks = some v) :
    v.actual < v.expectedNotBefore ∧ v.message = v.actual.message ∧ v.message ≠ .method := by
  unfold finding? at h
  split at h
  next hany =>
    obtain ⟨latest, hlatest, rfl⟩ := Option.map_eq_some_iff.1 h
    have hlt : e.kind < latest := (any_lt_iff hlatest).1 hany
    refine ⟨hlt, rfl, ?_⟩
    cases hk : e.kind with
    | method => exact absurd (hk ▸ hlt) latest.not_method_lt
    | staticField | instanceField | constructor => simp [MemberKind.message]
  next => cases h

theorem Scope.visit_of_kinds (ks : List MemberKind) (e : Event) :
    Scope.visit ⟨ks.max?⟩ e = (e.finding? ks, ⟨(ks ++ [e.kind]).max?⟩) := by
  cases h : ks.max? with
  | none =>
    have hks : ks = [] := List.max?_eq_none_iff.1 h
    subst hks
    rfl
  | some latest =>
    by_cases hk : latest ≤ e.kind
    · have hn : ¬ ks.any (e.kind < ·) := by rw [any_lt_iff h]; exact hk.not_gt
      simp [visit, transition, hk, Event.finding?, hn, max?_concat, h]
    · have hl : ks.any (e.kind < ·) := (any_lt_iff h).2 (not_le.1 hk)
      have hm : max latest e.kind = latest := max_eq_left (not_le.1 hk).le
      simp [visit, transition, hk, Event.finding?, hl, max?_concat, h, hm, Violation.against]

theorem Traversal.step_member (ks : List MemberKind) (fs : List Scope) (vs : List Violation)
    (e : Event) :
    step ⟨⟨⟨ks.max?⟩ :: fs⟩, vs⟩ (.member e) =
      .ok ⟨⟨⟨(ks ++ [e.kind]).max?⟩ :: fs⟩, vs ++ (e.finding? ks).toList⟩ := by
  simp [step, member, ScopeStack.visit, Scope.visit_of_kinds, bind, Except.bind, pure, Except.pure]

end MemberOrder
