import MemberOrder.Proofs.Declaration.Fronts
/-! Where the parts of a tree come from. Each declaration, and each member that declares no type, was
read by its own rule from where some end of the text is left. Main statements: `Rule.file_readIn` and
`TypeDecl.ReadIn.member`. -/
namespace MemberOrder

/-- The declaration was read from some place in `w`, its modifiers first. -/
def TypeDecl.ReadIn (w : List Symbol) (d : RawType) : Prop :=
  ∃ depth s m s₁ t, s <:+ w ∧ Rule.modifiers s = .ok m s₁ ∧
    Rule.typeDecl depth s.length m s₁ = .ok d t

def Member.ReadIn (w : List Symbol) (kind : TypeKind) (owner : String) (x : RawMember) : Prop :=
  ∃ s t, s <:+ w ∧ Rule.leaf kind owner s = .ok x t

namespace Rule

variable {α : Type} {w s t : List Symbol}

theorem mem_many {item : Rule (Option α)} (hitem : Drops item) {as : List α} {a : α}
    (h : many item s = .ok as t) (ha : a ∈ as) :
    ∃ u v, u <:+ s ∧ item u = .ok (some a) v := by
  fun_induction many item s generalizing as with
  | case1 | case3 => cases h
  | case2 =>
    cases h
    cases ha
  | case4 s b v hi _ bs t hm ih =>
    cases h
    obtain rfl | ha := List.mem_cons.1 ha
    · exact ⟨s, v, List.suffix_refl s, hi⟩
    · obtain ⟨u, v, hu, hv⟩ := ih hm ha
      exact ⟨u, v, hu.trans (hitem.suffix_of_ok hi), hv⟩
  | case5 s b v hi =>
    obtain ⟨rfl, rfl⟩ := EStateM.Result.ok.inj h
    obtain rfl := List.mem_singleton.1 ha
    exact ⟨s, v, List.suffix_refl s, hi⟩

theorem mem_members {nested : Nat → Modifiers Extent → Rule RawType} {kind : TypeKind}
    {owner : String} (hnested : ∀ start m, Drops (nested start m)) {xs : List RawMember}
    {x : RawMember} (h : many (member? nested kind owner) s = .ok xs t) (hx : x ∈ xs) :
    ∃ u v, u <:+ s ∧ member nested kind owner u = .ok x v := by
  obtain ⟨u, v, hu, hv⟩ := mem_many (.member? hnested kind owner) h hx
  exact ⟨u, v, hu, member?_eq_ok_iff.1 hv⟩

end Rule

namespace TypeDecl.ReadIn

open Rule

variable {w : List Symbol} {d : RawType}

theorem parts (h : d.ReadIn w) : ∃ depth s m s₁ s₃ s₄ t, s <:+ w ∧ Rule.modifiers s = .ok m s₁ ∧
    header s₁ = .ok (d.kind, d.name) (.opening .curly :: s₃) ∧ s₄ <:+ w ∧
    many (member? (typeDecl depth) d.kind d.name) s₄ = .ok d.members (.closing .curly :: t) := by
  obtain ⟨depth, s, m, s₁, t, hs, hm, hd⟩ := h
  cases depth with
  | zero => cases hd
  | succ depth =>
    obtain ⟨kind, name, xs, s₃, s₄, hheader, hconstants, hmembers, rfl⟩ := typeDeclOver_eq_ok_iff.1 hd
    refine ⟨depth, s, m, s₁, s₃, s₄, t, hs, hm, hheader, ?_, hmembers⟩
    have hopening : Symbol.opening .curly :: s₃ <:+ w :=
      (Near.header.suffix_of_ok hheader).trans ((Drops.modifiers.suffix_of_ok hm).trans hs)
    have hbody : s₃ <:+ w := (List.suffix_cons _ _).trans hopening
    obtain ⟨_, henum⟩ | ⟨_, rfl⟩ := hconstants
    · exact (Drops.enumConstants.suffix_of_ok henum).trans hbody
    · exact hbody

theorem member (h : d.ReadIn w) {x : RawMember} (hx : x ∈ d.members) :
    x.ReadIn w d.kind d.name ∨ ∃ e, x = .type e ∧ e.ReadIn w := by
  obtain ⟨depth, _, _, _, _, s₄, t, _, _, _, hs₄, hmembers⟩ := h.parts
  obtain ⟨u, v, hu, hv⟩ := mem_members (.typeDecl depth) hmembers hx
  obtain hleaf | ⟨m, u₁, e, _, hm, _, he, rfl⟩ := (member_eq_ok_iff _ _).1 hv
  · exact .inl ⟨u, v, hu.trans hs₄, hleaf⟩
  · exact .inr ⟨e, rfl, depth, u, m, u₁, v, hu.trans hs₄, hm, he⟩

theorem holds (h : d.ReadIn w) {e : RawType} (he : d.Holds e) : e.ReadIn w := by
  induction he with
  | self => exact h
  | @inner d e f he _ ih =>
    obtain ⟨s, t, _, hleaf⟩ | ⟨e', heq, he'⟩ := h.member he
    · exact absurd rfl ((leaf_eq_ok _ _ hleaf).2 e)
    · obtain rfl := Member.type.inj heq
      exact ih he'

end TypeDecl.ReadIn

theorem Rule.file_readIn {w t : List Symbol} {u : CompilationUnit Extent Extent}
    (h : file w = .ok u t) {d e : RawType} (hd : d ∈ u.types) (he : d.Holds e) : e.ReadIn w := by
  obtain ⟨items, hitems, rfl⟩ := file_eq_ok_iff.1 h
  obtain ⟨i, hi, hid⟩ := List.mem_filterMap.1 hd
  obtain ⟨s, v, hs, hitem⟩ := mem_many .fileItem? hitems hi
  obtain ⟨hnone, _⟩ | ⟨m, s₁, d', rfl, _, hm, _, hd'⟩ := fileItem?_again hitem
  · rw [hnone] at hid
    cases hid
  · obtain rfl := Option.some.inj hid
    exact TypeDecl.ReadIn.holds ⟨_, s, m, s₁, v, hs, hm, hd'⟩ he

end MemberOrder
