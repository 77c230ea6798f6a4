import MemberOrder.Declaration.File
import MemberOrder.Proofs.Declaration.Rules
/-! Rules take symbols off the front and do nothing else, whether they succeed or refuse: what is left
is an end of what was there, and a refusal is at a place in it. Main statement: `Rule.Drops.file`. -/
namespace MemberOrder

def left {α : Type} : Outcome α → List Symbol
  | .ok _ s | .error _ s => s

theorem left_skim {κ : Type} (outside : κ → List Symbol → Outside κ) (k : κ) (os : List Opened)
    (s : List Symbol) : left (skim outside k os s) <:+ s := by
  fun_induction skim outside k os s with
  | case1 | case6 | case7 | case8 => exact List.suffix_refl _
  | case4 => exact List.suffix_cons _ _
  | case2 | case3 | case5 | case9 | case10 =>
    rename_i ih
    exact ih.trans (List.suffix_cons _ _)

theorem unread_skim_le {κ : Type} {outside : κ → List Symbol → Outside κ} {n : Nat}
    (houtside : ∀ {k s r}, s.length ≤ n → outside k s = .refuse r → r.unread ≤ n) {k : κ}
    {os : List Opened} {s t : List Symbol} {e : Refusal} (hs : s.length ≤ n)
    (hos : ∀ o ∈ os, o.unread ≤ n) (h : skim outside k os s = .error e t) : e.unread ≤ n := by
  fun_induction skim outside k os s with
  | case1 k o os =>
    cases h
    exact hos o List.mem_cons_self
  | case2 k o os b s ih =>
    rw [List.length_cons] at hs
    exact ih (by omega) (List.forall_mem_cons.2 ⟨hs, hos⟩) h
  | case3 k o os s ih =>
    rw [List.length_cons] at hs
    exact ih (by omega) (List.forall_mem_cons.1 hos).2 h
  | case4 =>
    cases h
    exact hs
  | case5 k o os x s _ _ ih =>
    rw [List.length_cons] at hs
    exact ih (by omega) hos h
  | case6 => cases h
  | case7 k s r hr =>
    cases h
    exact houtside hs hr
  | case8 => cases h
  | case9 k k' b s _ ih =>
    rw [List.length_cons] at hs
    exact ih (by omega) (by simpa using hs) h
  | case10 k k' x s _ _ ih =>
    rw [List.length_cons] at hs
    exact ih (by omega) hos h

namespace Rule

variable {α β : Type}

/-- What the rule leaves is an end of what was there, and it refuses what was there or the end. -/
structure Drops (r : Rule α) : Prop where
  suffix (s : List Symbol) : left (r s) <:+ s
  inside {s t : List Symbol} {e : Refusal} (h : r s = .error e t) : e.unread ≤ s.length

theorem Drops.pure (a : α) : Drops (Pure.pure a : Rule α) :=
  ⟨List.suffix_refl, fun h => by cases h⟩

theorem Drops.bind {x : Rule α} {f : α → Rule β} (hx : Drops x) (hf : ∀ a, Drops (f a)) :
    Drops (x >>= f) := by
  constructor
  · intro s
    have hs := hx.suffix s
    change left (EStateM.bind x f s) <:+ s
    unfold EStateM.bind
    cases h : x s with
    | ok a t =>
      rw [h] at hs
      exact ((hf a).suffix t).trans hs
    | error e t =>
      rw [h] at hs
      exact hs
  · intro s t e h
    have hs := hx.suffix s
    change EStateM.bind x f s = .error e t at h
    unfold EStateM.bind at h
    cases hr : x s with
    | ok a u =>
      rw [hr] at h hs
      exact Nat.le_trans ((hf a).inside h) hs.length_le
    | error r u =>
      rw [hr] at h
      cases h
      exact hx.inside hr

theorem Drops.ite {p : Prop} [Decidable p] {x y : Rule α} (hx : Drops x) (hy : Drops y) :
    Drops (if p then x else y) := by
  split
  · exact hx
  · exact hy

theorem Drops.get : Drops (Rule.get : Rule (List Symbol)) :=
  ⟨List.suffix_refl, fun h => by cases h⟩

theorem Drops.unread : Drops unread :=
  ⟨List.suffix_refl, fun h => by cases h⟩

theorem Drops.skip : Drops skip :=
  ⟨List.drop_suffix 1, fun h => by cases h⟩

theorem Drops.refuse (e : Expected) : Drops (refuse e : Rule α) :=
  ⟨List.suffix_refl, fun h => by cases h; exact Nat.le_refl _⟩

theorem Drops.refuseRead (e : Expected) : Drops (refuseRead e : Rule α) :=
  ⟨List.drop_suffix 1, fun h => by cases h; exact Nat.le_refl _⟩

theorem Drops.of_eq {r : Rule α} (h : ∀ s, ∃ r', Drops r' ∧ r s = r' s) : Drops r := by
  constructor
  · intro s
    obtain ⟨r', hr', heq⟩ := h s
    rw [heq]
    exact hr'.suffix s
  · intro s t e he
    obtain ⟨r', hr', heq⟩ := h s
    exact hr'.inside (heq ▸ he)

theorem Drops.expect (x : Symbol) : Drops (expect x) := by
  refine .of_eq fun s => ?_
  by_cases h : s.head? = some x
  · exact ⟨_, .skip, by rw [Rule.expect, if_pos h]; rfl⟩
  · exact ⟨_, .refuse _, by rw [Rule.expect, if_neg h]⟩

theorem Drops.identifier : Drops identifier := by
  refine .of_eq fun s => ?_
  unfold Rule.identifier
  split
  · exact ⟨_, .bind .skip fun _ => .pure _, rfl⟩
  · exact ⟨_, .refuse _, rfl⟩

theorem Drops.many {item : Rule (Option α)} (h : Drops item) : Drops (many item) := by
  constructor
  · intro s
    fun_induction Rule.many item s with
    | case1 s r t hi =>
      have hs := h.suffix s
      rwa [hi] at hs
    | case2 s t hi =>
      have hs := h.suffix s
      rwa [hi] at hs
    | case3 s a t hi hlt r u hm ih =>
      have hs := h.suffix s
      rw [hi] at hs
      rw [hm] at ih
      exact ih.trans hs
    | case4 s a t hi hlt as u hm ih =>
      have hs := h.suffix s
      rw [hi] at hs
      rw [hm] at ih
      exact ih.trans hs
    | case5 s a t hi hlt =>
      have hs := h.suffix s
      rwa [hi] at hs
  · intro s t e he
    fun_induction Rule.many item s with
    | case1 s r t hi =>
      cases he
      exact h.inside hi
    | case2 | case4 | case5 => cases he
    | case3 s a t hi hlt r u hm ih =>
      cases he
      exact Nat.le_trans (ih hm) (Nat.le_of_lt hlt)

theorem Drops.group (b : Bracket) : Drops (group b) := by
  constructor
  · intro s
    unfold Rule.group
    split
    · split
      · exact (left_skim _ _ _ _).trans (List.suffix_cons _ _)
      · exact List.suffix_refl _
    · exact List.suffix_refl _
  · intro s t e h
    unfold Rule.group at h
    split at h
    · split at h
      · exact unread_skim_le (fun _ h => by cases h) (Nat.le_succ _) (by simp) h
      · exact (Drops.refuse _).inside h
    · exact (Drops.refuse _).inside h

theorem Drops.skipTo (stop : List Symbol → Bool) : Drops (skipTo stop) := by
  refine ⟨left_skim _ _ _, fun {s t e} h => unread_skim_le (fun {k u r} hu hr => ?_) (Nat.le_refl _) (by simp) h⟩
  split at hr
  · cases hr
  · split at hr
    · cases hr
      exact Nat.zero_le _
    · cases hr
      exact hu
    · cases hr

theorem Drops.statement : Drops statement :=
  .bind (.skipTo _) fun _ => .skip

theorem Drops.angles : Drops angles := by
  constructor
  · intro s
    unfold Rule.angles
    split
    · exact (left_skim _ _ _ _).trans (List.suffix_cons _ _)
    · exact List.suffix_refl _
  · intro s t e h
    unfold Rule.angles at h
    split at h
    next u =>
      refine unread_skim_le (n := u.length + 1) (fun {k v r} _ hr => ?_) (Nat.le_succ _) (by simp) h
      unfold insideAngles at hr
      split at hr <;> cases hr <;> exact Nat.le_refl _
    next => exact (Drops.refuse _).inside h

theorem Drops.dottedPart : Drops dottedPart := by
  refine .of_eq fun s => ?_
  unfold Rule.dottedPart
  split
  · exact ⟨_, .bind .skip fun _ => .bind .skip fun _ => .pure _, rfl⟩
  · exact ⟨_, .pure _, rfl⟩

theorem Drops.qualifiedName : Drops qualifiedName :=
  .bind .identifier fun _ => .bind (.many .dottedPart) fun _ => .pure _

theorem Drops.annotationTail : Drops annotationTail :=
  .bind .qualifiedName fun _ => .bind .get fun _ =>
    .ite (.bind (.group _) fun _ => .pure _) (.pure _)

theorem Drops.modifier : Drops modifier := by
  refine .bind .get fun _ => ?_
  split
  · exact .bind .skip fun _ => .pure _
  · exact .ite (.bind .skip fun _ => .pure _) (.pure _)
  · exact .pure _
  · exact .bind .skip fun _ => .bind .annotationTail fun _ => .pure _
  · exact .pure _

theorem Drops.modifiers : Drops modifiers :=
  .bind .unread fun _ => .bind (.many .modifier) fun _ => .pure _

theorem Drops.annotationOnType : Drops annotationOnType :=
  .bind .get fun _ => .ite (.bind .skip fun _ => .bind .annotationTail fun _ => .pure _) (.pure _)

theorem Drops.typePart : Drops typePart := by
  refine .bind .get fun _ => ?_
  split
  · exact .bind .angles fun _ => .pure _
  · exact .bind .skip fun _ => .bind .skip fun _ => .pure _
  · exact .bind .skip fun _ => .bind .skip fun _ => .pure _
  · exact .bind .skip fun _ => .bind (.many .annotationOnType) fun _ => .bind .identifier fun _ =>
      .pure _
  · exact .pure _

theorem Drops.type : Drops type :=
  .bind (.many .annotationOnType) fun _ => .bind .unread fun _ => .bind .identifier fun _ =>
    .bind (.many .typePart) fun _ => .bind .unread fun _ => .pure _

theorem Drops.since (start : Nat) : Drops (since start) :=
  .bind .unread fun _ => .pure _

theorem Drops.initializer (start : Nat) (isStatic : Bool) : Drops (initializer start isStatic) :=
  .bind (.group _) fun _ => .bind (.since _) fun _ => .pure _

theorem Drops.constructor (start : Nat) (m : Modifiers Extent) (compact : Bool) :
    Drops (constructor start m compact) := by
  refine .bind .identifier fun _ => .ite ?_ ?_
  · exact .bind (.group _) fun _ => .bind (.skipTo _) fun _ => .bind (.group _) fun _ =>
      .bind (.since _) fun _ => .pure _
  · exact .bind (.group _) fun _ => .bind (.since _) fun _ => .pure _

theorem Drops.method (start : Nat) (m : Modifiers Extent) (result : Extent) (name : String) :
    Drops (method start m result name) := by
  refine .bind (.group _) fun _ => .bind (.skipTo _) fun _ => .bind .get fun _ => .ite ?_ ?_
  · exact .bind (.group _) fun _ => .bind (.since _) fun _ => .pure _
  · exact .bind .statement fun _ => .bind (.since _) fun _ => .pure _

theorem Drops.dimension : Drops dimension :=
  .bind .get fun _ => .ite (.bind (.group _) fun _ => .pure _) (.pure _)

theorem Drops.nextDeclarator : Drops nextDeclarator := by
  refine .bind (.many .dimension) fun _ => .bind .get fun _ =>
    .ite (.bind .skip fun _ => .bind (.skipTo _) fun _ => ?rest) ?rest
  refine .bind .get fun _ => ?_
  split
  · exact .bind .skip fun _ => .pure _
  · exact .bind .skip fun _ => .bind .identifier fun _ => .pure _
  · exact .refuseRead _

theorem Drops.field (start : Nat) (m : Modifiers Extent) (type : Extent) (name : String) :
    Drops (field start m type name) :=
  .bind (.many .nextDeclarator) fun _ => .bind (.since _) fun _ => .pure _

variable {nested : Nat → Modifiers Extent → Rule RawType}

theorem Drops.modifiedMember (hnested : ∀ start m, Drops (nested start m)) (kind : TypeKind)
    (owner : String) (start : Nat) (m : Modifiers Extent) :
    Drops (modifiedMember nested kind owner start m) := by
  refine .bind .get fun _ => .ite (.bind (hnested _ _) fun _ => .pure _) <|
    .bind .get fun _ => .ite (.bind .angles fun _ => ?rest) ?rest
  refine .bind .get fun _ => ?_
  split
  · exact .constructor ..
  · exact .bind .type fun _ => .bind .identifier fun _ => .bind .get fun _ =>
      .ite (.method ..) (.field ..)

theorem Drops.member (hnested : ∀ start m, Drops (nested start m)) (kind : TypeKind)
    (owner : String) : Drops (member nested kind owner) := by
  refine .bind .unread fun _ => .bind .get fun _ => ?_
  split
  · exact .bind .skip fun _ => .bind (.since _) fun _ => .pure _
  · exact .initializer ..
  · exact .bind .skip fun _ => .initializer ..
  · exact .bind .modifiers fun _ => .modifiedMember hnested ..

theorem Drops.member? (hnested : ∀ start m, Drops (nested start m)) (kind : TypeKind)
    (owner : String) : Drops (member? nested kind owner) := by
  refine .bind .get fun _ => ?_
  split
  · exact .pure _
  · exact .refuse _
  · exact .bind (.member hnested ..) fun _ => .pure _

theorem Drops.typeKeyword : Drops typeKeyword := by
  refine .of_eq fun s => ?_
  unfold Rule.typeKeyword
  split
  iterate 3
    · exact ⟨_, .bind .skip fun _ => .pure _, rfl⟩
  · exact ⟨_, .bind .skip fun _ => .bind (.expect _) fun _ => .pure _, rfl⟩
  · split
    · exact ⟨_, .bind .skip fun _ => .pure _, rfl⟩
    · exact ⟨_, .refuseRead _, rfl⟩
  · exact ⟨_, .refuseRead _, rfl⟩

theorem Drops.enumConstants : Drops enumConstants :=
  .bind (.skipTo _) fun _ => .bind .get fun _ => .ite .skip (.pure _)

theorem Drops.typeDeclOver (hnested : ∀ start m, Drops (nested start m)) (start : Nat)
    (m : Modifiers Extent) : Drops (typeDeclOver nested start m) := by
  refine .bind .typeKeyword fun _ => .bind .identifier fun _ => .bind (.skipTo _) fun _ =>
    .bind .unread fun _ => .bind (.expect _) fun _ => .ite (.bind .enumConstants fun _ => ?rest) ?rest
  exact .bind (.many (.member? hnested ..)) fun _ => .bind (.expect _) fun _ =>
    .bind (.since _) fun _ => .bind (.since _) fun _ => .pure _

theorem Drops.typeDecl (depth : Nat) : ∀ start m, Drops (typeDecl depth start m) := by
  induction depth with
  | zero => exact fun _ _ => .refuse _
  | succ depth ih => exact .typeDeclOver ih

theorem Drops.packageOrType (start : Nat) (m : Modifiers Extent) : Drops (packageOrType start m) := by
  refine .bind .get fun _ => ?_
  split
  · exact .bind .skip fun _ => .bind .qualifiedName fun _ => .bind (.expect _) fun _ => .pure _
  · exact .bind (.typeDecl _ _ _) fun _ => .pure _

theorem Drops.fileItem? : Drops fileItem? := by
  refine .bind .get fun _ => ?_
  split
  · exact .pure _
  · exact .bind .skip fun _ => .pure _
  · exact .bind .statement fun _ => .pure _
  · exact .bind .modifiers fun _ => .bind (.packageOrType _ _) fun _ => .pure _

theorem Drops.file : Drops file :=
  .bind (.many .fileItem?) fun _ => .pure _

end Rule

end MemberOrder
