import MemberOrder.Proofs.Order.Sorted
/-! Bodies that are not in order. Main statement: there is a finding in a tree iff some body that has an
order, at any depth, has a member behind one of a greater kind (`CompilationUnit.findings_ne_nil_iff`). -/
namespace MemberOrder

variable {σ τ ε : Type}

theorem Member.mem_gatherAfter {tell : About σ τ (List ε)} {ordered : Bool} {earlier ms : List (Member σ τ)}
    {a : ε} : a ∈ gatherAfter tell ordered earlier ms ↔
      ∃ front m back, ms = front ++ m :: back ∧ a ∈ m.gather tell ordered (earlier ++ front) := by
  induction ms generalizing earlier with
  | nil => simp [gatherAfter]
  | cons x xs ih =>
    rw [gatherAfter, List.mem_append, ih]
    constructor
    · rintro (h | ⟨front, m, back, rfl, h⟩)
      · exact ⟨[], x, xs, rfl, by rwa [List.append_nil]⟩
      · exact ⟨x :: front, m, back, rfl, by rwa [List.append_cons]⟩
    · rintro ⟨front, m, back, heq, h⟩
      cases front with
      | nil =>
        obtain ⟨rfl, rfl⟩ := List.cons.inj heq
        exact .inl (by rwa [List.append_nil] at h)
      | cons y front =>
        obtain ⟨rfl, rfl⟩ := List.cons.inj heq
        exact .inr ⟨front, m, back, rfl, by rwa [← List.append_cons]⟩

theorem TypeDecl.mem_gather {tell : About σ τ (List ε)} {d : TypeDecl σ τ} {a : ε} : a ∈ d.gather tell ↔
    ∃ e, d.Holds e ∧ ∃ front m back, e.members = front ++ m :: back ∧ m.IsLeaf ∧
      a ∈ tell e.kind.isClassLike front m := by
  induction d using nested_induction with
  | h kind name modifiers members body span ih =>
    rw [gather, Member.mem_gatherAfter]
    constructor
    · rintro ⟨front, m, back, rfl, h⟩
      obtain hleaf | ⟨e, rfl⟩ := m.isLeaf_or
      · rw [hleaf.gather] at h
        exact ⟨_, .self, front, m, back, rfl, hleaf, h⟩
      · have he : .type e ∈ front ++ .type e :: back := by simp
        obtain ⟨f, hf, hmember⟩ := (ih e he).1 h
        exact ⟨f, .inner he hf, hmember⟩
    · rintro ⟨f, hf, front, m, back, hmembers, hleaf, h⟩
      cases hf with
      | self =>
        obtain rfl : members = _ := hmembers
        exact ⟨front, m, back, rfl, by rwa [hleaf.gather]⟩
      | @inner _ e _ he hf =>
        have he : .type e ∈ members := he
        have hgather := (ih e he).2 ⟨f, hf, front, m, back, hmembers, hleaf, h⟩
        obtain ⟨front', back', rfl⟩ := List.append_of_mem he
        exact ⟨front', .type e, back', rfl, hgather⟩

/-- Among some members, one stands behind another of a greater kind. -/
def Member.OutOfOrder (ms : List (Member Span τ)) : Prop :=
  ∃ earlier m later x k k', ms = earlier ++ m :: later ∧ x ∈ earlier ∧
    x.HasKind k ∧ m.HasKind k' ∧ k' < k

/-- In some body of a class, an enum or a record the members are out of order. -/
def CompilationUnit.OutOfOrder (u : CompilationUnit Span τ) : Prop :=
  ∃ d ∈ u.types, ∃ e, d.Holds e ∧ e.kind ∈ [TypeKind.class, .enum, .record] ∧ Member.OutOfOrder e.members

theorem Member.isLate_iff {ordered : Bool} {earlier : List (Member Span τ)} {m : Member Span τ} :
    m.isLate ordered earlier ↔ ordered ∧ ∃ x ∈ earlier, ∃ k k', x.HasKind k ∧ m.HasKind k' ∧ k' < k := by
  simp only [isLate, Bool.and_eq_true, Option.any_eq_true, List.any_eq_true, List.mem_filterMap,
    decide_eq_true_eq, kind?_eq_some_iff]
  refine and_congr_right fun _ => ⟨?_, ?_⟩
  · rintro ⟨k', hm, k, ⟨x, hx, hk⟩, hlt⟩
    exact ⟨x, hx, k, k', hk, hm, hlt⟩
  · rintro ⟨x, hx, k, k', hk, hm, hlt⟩
    exact ⟨k', hm, k, ⟨x, hx, hk⟩, hlt⟩

theorem CompilationUnit.findings_ne_nil_iff {u : CompilationUnit Span τ} :
    u.findings ≠ [] ↔ u.OutOfOrder := by
  have hplaces : u.findings ≠ [] ↔ ∃ a, a ∈ u.latePlaces := by
    rw [← u.position_findings]
    constructor
    · intro h
      obtain ⟨v, hv⟩ := List.exists_mem_of_ne_nil _ h
      exact ⟨_, List.mem_map_of_mem hv⟩
    · rintro ⟨a, ha⟩ h
      rw [h] at ha
      cases ha
  have hlate (a : Span) (ordered : Bool) (earlier : List (Member Span τ)) (m : Member Span τ) :
      a ∈ m.latePlace ordered earlier ↔ m.isLate ordered earlier ∧ a = m.span := by
    unfold Member.latePlace
    split <;> simp_all
  rw [hplaces]
  simp only [latePlaces, List.mem_flatMap, TypeDecl.mem_gather, hlate, Member.isLate_iff,
    TypeKind.isClassLike_eq, decide_eq_true_eq]
  constructor
  · rintro ⟨a, d, hd, e, he, front, m, back, hmembers, -, ⟨hkind, x, hx, k, k', hk, hm, hlt⟩, -⟩
    exact ⟨d, hd, e, he, hkind, front, m, back, x, k, k', hmembers, hx, hk, hm, hlt⟩
  · rintro ⟨d, hd, e, he, hkind, front, m, back, x, k, k', hmembers, hx, hk, hm, hlt⟩
    have hleaf : m.IsLeaf := by
      rintro f rfl
      cases hm
    exact ⟨m.span, d, hd, e, he, front, m, back, hmembers, hleaf, ⟨hkind, x, hx, k, k', hk, hm, hlt⟩, rfl⟩

end MemberOrder
