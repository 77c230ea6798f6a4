import MemberOrder.Proofs.Declaration.Layout
/-! What a file consists of: declarations of types, and between them package declarations, imports and
semicolons. Main statements: `Rule.file_laid`, and that a run of modifiers ends in one place only
(`ModifierRun.rest_eq`). -/
namespace MemberOrder

inductive Dotted : List Symbol → Prop
  | name {n} : Dotted [.identifier n]
  | dot {n s} (hs : Dotted s) : Dotted (.identifier n :: .mark .dot :: s)

inductive ModifierRun : List Symbol → Prop
  | nil : ModifierRun []
  | word {w s} (hs : ModifierRun s) : ModifierRun (.keyword (.modifier w) :: s)
  | sealed {s} (hs : ModifierRun s) : ModifierRun (.identifier "sealed" :: s)
  | annotated {n s} (hn : Dotted n) (hs : ModifierRun s) : ModifierRun (.mark .atSign :: (n ++ s))
  | applied {n c s} (hn : Dotted n) (hc : Balanced c) (hs : ModifierRun s) :
      ModifierRun (.mark .atSign :: (n ++ .opening .round :: (c ++ .closing .round :: s)))

/-- What a file can have beside its types: a package declaration with the modifiers in front of it, an
import, a semicolon. -/
inductive Between : List Symbol → Prop
  | package {m n} (hm : ModifierRun m) (hn : Dotted n) :
      Between (m ++ .keyword .package :: (n ++ [.mark .semicolon]))
  | import {c} (hc : BalancedOver (· ≠ .mark .semicolon) c) :
      Between (.keyword .import :: (c ++ [.mark .semicolon]))
  | semicolon : Between [.mark .semicolon]

inductive FileParts : List Symbol → List RawType → Prop
  | done : FileParts [] []
  | between {c s ds} (hc : Between c) (hs : FileParts s ds) : FileParts (c ++ s) ds
  | type {c s d ds} (hne : c ≠ []) (hd : d.span = ⟨(c ++ s).length, s.length⟩)
      (hs : FileParts s ds) : FileParts (c ++ s) (d :: ds)

inductive IsIntroduced : List Symbol → Prop
  | type {s : List Symbol} (h : Rule.declaresType s) : IsIntroduced s
  | generic {s} : IsIntroduced (.mark .less :: s)
  | name {n s} : IsIntroduced (.identifier n :: .opening .round :: s)

section OneEnd

variable {r r' s s' : List Symbol}

theorem ModifierRun.head?_ne (hr : ModifierRun r) (hs : IsIntroduced s) :
    (r ++ s).head? ≠ some (.mark .dot) ∧ (r ++ s).head? ≠ some (.opening .round) := by
  cases hr with
  | nil =>
    cases hs with
    | type h =>
      constructor
      all_goals
        intro hhead
        obtain ⟨s, rfl⟩ := List.head?_eq_some_iff.1 hhead
        simp [Rule.declaresType] at h
    | generic | name => simp
  | word | sealed | annotated | applied => simp

theorem Dotted.rest_eq {c d : List Symbol} (hc : Dotted c) (hd : Dotted d)
    (hs : s.head? ≠ some (.mark .dot)) (hs' : s'.head? ≠ some (.mark .dot)) (h : c ++ s = d ++ s') :
    s = s' := by
  induction hc generalizing d with
  | name =>
    cases hd with
    | name => exact (List.cons.inj h).2
    | dot => exact absurd (congrArg List.head? (List.cons.inj h).2) hs
  | dot hc ih =>
    cases hd with
    | name => exact absurd (congrArg List.head? (List.cons.inj h).2.symm) hs'
    | dot hd => exact ih hd (List.cons.inj (List.cons.inj h).2).2

theorem ModifierRun.eq_nil (hr : ModifierRun r) (hs : IsIntroduced s) (h : IsIntroduced (r ++ s)) :
    r = [] := by
  cases hr with
  | nil => rfl
  | word hr =>
    cases h with
    | type h => simp [Rule.declaresType] at h
  | @sealed r hr =>
    obtain ⟨_, hround⟩ := hr.head?_ne hs
    rw [List.cons_append] at h
    generalize r ++ s = w at h hround
    cases h with
    | type h =>
      unfold Rule.declaresType at h
      split at h <;> simp_all
    | name => simp at hround
  | annotated hn | applied hn =>
    cases h with
    | type h => cases hn <;> simp [Rule.declaresType] at h

theorem ModifierRun.eq_of_isIntroduced (hr : ModifierRun r) (hs : IsIntroduced s) (hs' : IsIntroduced s')
    (h : r ++ s = s') : s = s' := by
  obtain rfl := hr.eq_nil hs (h ▸ hs')
  exact h

/-- A run of modifiers ends in one place only. -/
theorem ModifierRun.rest_eq (hr : ModifierRun r) (hr' : ModifierRun r') (hs : IsIntroduced s)
    (hs' : IsIntroduced s') (h : r ++ s = r' ++ s') : s = s' := by
  induction hr generalizing r' with
  | nil => exact (hr'.eq_of_isIntroduced hs' hs h.symm).symm
  | word hr ih =>
    cases hr' with
    | nil => exact (ModifierRun.word hr).eq_of_isIntroduced hs hs' h
    | word hr' => exact ih hr' (List.cons.inj h).2
    | sealed | annotated | applied => simp at h
  | sealed hr ih =>
    cases hr' with
    | nil => exact (ModifierRun.sealed hr).eq_of_isIntroduced hs hs' h
    | sealed hr' => exact ih hr' (List.cons.inj h).2
    | word | annotated | applied => simp at h
  | annotated hn hr ih =>
    cases hr' with
    | nil => exact (ModifierRun.annotated hn hr).eq_of_isIntroduced hs hs' h
    | annotated hn' hr' =>
      simp only [List.cons_append, List.cons.injEq, List.append_assoc, true_and] at h
      exact ih hr' (hn.rest_eq hn' (hr.head?_ne hs).1 (hr'.head?_ne hs').1 h)
    | applied hn' hc' hr' =>
      simp only [List.cons_append, List.cons.injEq, List.append_assoc, true_and] at h
      -- the arguments would begin what stands behind the modifiers
      have hrest := hn.rest_eq hn' (hr.head?_ne hs).1 (by simp) h
      exact absurd (congrArg List.head? hrest) (hr.head?_ne hs).2
    | word | sealed => simp at h
  | applied hn hc hr ih =>
    cases hr' with
    | nil => exact (ModifierRun.applied hn hc hr).eq_of_isIntroduced hs hs' h
    | annotated hn' hr' =>
      simp only [List.cons_append, List.cons.injEq, List.append_assoc, true_and] at h
      have hrest := hn.rest_eq hn' (by simp) (hr'.head?_ne hs').1 h
      exact absurd (congrArg List.head? hrest.symm) (hr'.head?_ne hs').2
    | applied hn' hc' hr' =>
      simp only [List.cons_append, List.cons.injEq, List.append_assoc, true_and] at h
      have hrest := hn.rest_eq hn' (by simp) (by simp) h
      exact ih hr' (Rule.group_rest_eq hc hc' (List.cons.inj hrest).2)
    | word | sealed => simp at h

end OneEnd

namespace Rule

variable {s t w : List Symbol}

theorem dottedPart_eq_ok {o : Option String} (h : dottedPart s = .ok o t) :
    o = none ∧ t = s ∨ ∃ n, o = some n ∧ s = .mark .dot :: .identifier n :: t := by
  unfold dottedPart at h
  split at h
  next =>
    cases h
    exact .inr ⟨_, rfl, rfl⟩
  next =>
    cases h
    exact .inl ⟨rfl, rfl⟩

theorem many_dottedPart {ns : List String} (h : many dottedPart s = .ok ns t) (n : String) :
    ∃ c, .identifier n :: s = c ++ t ∧ Dotted c := by
  revert n
  refine many_induction (motive := fun s _ t => ∀ n, ∃ c, .identifier n :: s = c ++ t ∧ Dotted c)
    dottedPart_eq_ok ?short (fun {_} _ n => ⟨[.identifier n], rfl, .name⟩) ?step h
  case short =>
    rintro s n t rfl
    simp only [List.length_cons]
    omega
  case step =>
    rintro s n' t ns u rfl ih n
    obtain ⟨c, hc, hdotted⟩ := ih n'
    exact ⟨.identifier n :: .mark .dot :: c, by simp [hc], .dot hdotted⟩

theorem qualifiedName_dotted {n : String} (h : qualifiedName s = .ok n t) :
    ∃ c, s = c ++ t ∧ Dotted c := by
  obtain ⟨n', s', hn, h⟩ := bind_eq_ok_iff.1 h
  obtain ⟨ns, s'', hns, h⟩ := bind_eq_ok_iff.1 h
  cases h
  unfold identifier at hn
  split at hn
  next =>
    cases hn
    exact many_dottedPart hns _
  next => cases hn

theorem annotationTail_run {n : String} (h : annotationTail s = .ok n t) :
    ∃ c, s = c ++ t ∧ ∀ r, ModifierRun r → ModifierRun (.mark .atSign :: (c ++ r)) := by
  obtain ⟨n', s', hn, harguments⟩ := bind_eq_ok_iff.1 h
  obtain ⟨c, rfl, hc⟩ := qualifiedName_dotted hn
  rw [get_bind] at harguments
  obtain ⟨s'', ⟨_, hgroup⟩ | ⟨_, rfl⟩, hdone⟩ := of_ite_bind harguments
  · cases hdone
    obtain ⟨d, rfl, hd⟩ := group_eq_ok_iff.1 hgroup
    refine ⟨c ++ .opening .round :: (d ++ [.closing .round]), by simp, fun r hr => ?_⟩
    simpa using ModifierRun.applied hc hd hr
  · cases hdone
    exact ⟨c, rfl, fun r hr => .annotated hc hr⟩

theorem modifier_run {o : Option (Modifier ⊕ String)} (h : modifier s = .ok o t) :
    o = none ∧ t = s ∨ ∃ x, o = some x ∧
      ∃ c, c ≠ [] ∧ s = c ++ t ∧ ∀ r, ModifierRun r → ModifierRun (c ++ r) := by
  rw [modifier, get_bind] at h
  split at h
  next w s =>
    cases h
    exact .inr ⟨_, rfl, [.keyword (.modifier w)], by simp, rfl, fun r hr => .word hr⟩
  next n s =>
    split at h
    next hsealed =>
      cases h
      refine .inr ⟨_, rfl, [.identifier n], by simp, rfl, fun r hr => ?_⟩
      rw [hsealed.1]
      exact .sealed hr
    next =>
      cases h
      exact .inl ⟨rfl, rfl⟩
  next =>
    cases h
    exact .inl ⟨rfl, rfl⟩
  next =>
    rw [skip_bind] at h
    obtain ⟨n, s', hn, h⟩ := bind_eq_ok_iff.1 h
    cases h
    obtain ⟨c, rfl, hc⟩ := annotationTail_run hn
    exact .inr ⟨_, rfl, .mark .atSign :: c, by simp, rfl, hc⟩
  next =>
    cases h
    exact .inl ⟨rfl, rfl⟩

theorem modifiers_run {m : Modifiers Extent} (h : modifiers s = .ok m t) :
    ∃ c, s = c ++ t ∧ ModifierRun c := by
  rw [modifiers, unread_bind] at h
  obtain ⟨found, s', hfound, h⟩ := bind_eq_ok_iff.1 h
  cases h
  refine many_induction (motive := fun s _ t => ∃ c, s = c ++ t ∧ ModifierRun c) modifier_run
    ?short (fun {_} _ => ⟨[], rfl, .nil⟩) ?step hfound
  case short =>
    rintro s x t ⟨c, hne, rfl, _⟩
    have hpos := List.length_pos_iff.2 hne
    simp only [List.length_append]
    omega
  case step =>
    rintro s x t xs u ⟨c, _, rfl, hc⟩ ⟨d, rfl, hd⟩
    exact ⟨c ++ d, by simp, hc d hd⟩

theorem statement_import (h : statement (.keyword .import :: s) = .ok () t) :
    ∃ c, .keyword .import :: s = c ++ t ∧ Between c := by
  obtain ⟨c, hs, hc⟩ := balancedOver_of_statement h
  cases hc with
  | nil => simp at hs
  | @plain x c _ _ hc =>
    obtain ⟨rfl, rfl⟩ := List.cons_eq_cons.1 hs
    exact ⟨.keyword .import :: (c ++ [.mark .semicolon]), by simp, .import hc⟩
  | group => simp at hs

theorem fileItem?_part {i : FileItem} (h : fileItem? s = .ok (some i) t) (hw : s <:+ w) :
    i.type? = none ∧ (∃ c, s = c ++ t ∧ Between c) ∨
      ∃ d, i.type? = some d ∧ d.span = ⟨s.length, t.length⟩ ∧ d.Laid w := by
  rw [fileItem?, get_bind] at h
  split at h
  next => cases h
  next =>
    cases h
    exact .inl ⟨rfl, [.mark .semicolon], rfl, .semicolon⟩
  next =>
    obtain ⟨_, s', hs, h⟩ := bind_eq_ok_iff.1 h
    cases h
    exact .inl ⟨rfl, statement_import hs⟩
  next =>
    obtain ⟨m, s₁, hm, h⟩ := bind_eq_ok_iff.1 h
    obtain ⟨i', s₂, hi, h⟩ := bind_eq_ok_iff.1 h
    cases h
    rw [packageOrType, get_bind] at hi
    split at hi
    next =>
      rw [skip_bind] at hi
      obtain ⟨n, s₃, hn, hi⟩ := bind_eq_ok_iff.1 hi
      obtain ⟨_, s₄, hsemicolon, hi⟩ := bind_eq_ok_iff.1 hi
      cases hi
      obtain rfl := expect_eq_ok_iff.1 hsemicolon
      obtain ⟨c, rfl, hc⟩ := qualifiedName_dotted hn
      obtain ⟨r, rfl, hr⟩ := modifiers_run hm
      exact .inl ⟨rfl, _, by simp, .package hr hc⟩
    next =>
      obtain ⟨d, s₃, hd, hi⟩ := bind_eq_ok_iff.1 hi
      cases hi
      obtain ⟨hspan, _, hlaid⟩ :=
        (typeDecl_laid w _).laid hd (Keeps.modifiers.passed hm) hw (modifiers_front hm)
      exact .inr ⟨d, rfl, hspan, hlaid⟩

theorem file_eq_ok_iff {s t : List Symbol} {u : CompilationUnit Extent Extent} :
    file s = .ok u t ↔ ∃ items, many fileItem? s = .ok items t ∧
      u = ⟨(items.filterMap FileItem.package?).getLast?, items.filterMap FileItem.type?⟩ := by
  rw [file, bind_eq_ok_iff]
  constructor
  · intro h
    obtain ⟨items, _, hitems, hu⟩ := h
    obtain ⟨rfl, rfl⟩ := EStateM.Result.ok.inj hu
    exact ⟨items, hitems, rfl⟩
  · intro h
    obtain ⟨items, hitems, rfl⟩ := h
    exact ⟨items, t, hitems, rfl⟩

theorem file_laid {u : CompilationUnit Extent Extent} (h : file s = .ok u t) :
    t = [] ∧ FileParts s u.types ∧ ∀ d ∈ u.types, d.Laid s := by
  obtain ⟨items, hitems, rfl⟩ := file_eq_ok_iff.1 h
  have hparts : t = [] ∧ ∀ w, s <:+ w → FileParts s (items.filterMap FileItem.type?) ∧
      ∀ d ∈ items.filterMap FileItem.type?, d.Laid w := by
    refine many_fileItem?_induction (motive := fun s items => ∀ w, s <:+ w →
      FileParts s (items.filterMap FileItem.type?) ∧
      ∀ d ∈ items.filterMap FileItem.type?, d.Laid w) ?ending ?step hitems
    case ending => exact fun w _ => ⟨.done, by simp⟩
    case step =>
      intro s i t items hi ih w hw
      obtain ⟨hp, hlt⟩ := fileItem?_passed hi
      obtain ⟨hfile, hrest⟩ := ih w (hp.suffix.trans hw)
      obtain ⟨hi', c, rfl, hc⟩ | ⟨d, hi', hspan, hlaid⟩ := fileItem?_part hi hw
      · rw [List.filterMap_cons_none hi']
        exact ⟨.between hc hfile, hrest⟩
      · obtain ⟨c, _, rfl, _⟩ := hp
        have hne : c ≠ [] := by
          rintro rfl
          exact absurd hlt (lt_irrefl _)
        rw [List.filterMap_cons_some hi']
        exact ⟨.type hne hspan hfile, List.forall_mem_cons.2 ⟨hlaid, hrest⟩⟩
  exact ⟨hparts.1, hparts.2 s (List.suffix_refl s)⟩

end Rule

end MemberOrder
