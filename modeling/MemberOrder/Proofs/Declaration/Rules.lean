import MemberOrder.Declaration.Rule
/-! How rules are put together: what a sequence of rules and a repetition read, when they succeed. -/
namespace MemberOrder.Rule

variable {α β : Type}

theorem bind_eq_ok_iff {x : Rule α} {f : α → Rule β} {s u : List Symbol} {b : β} :
    (x >>= f) s = .ok b u ↔ ∃ a t, x s = .ok a t ∧ f a t = .ok b u := by
  change EStateM.bind x f s = _ ↔ _
  unfold EStateM.bind
  cases x s <;> simp [and_assoc]

theorem bind_eq_error_iff {x : Rule α} {f : α → Rule β} {s u : List Symbol} {e : Refusal} :
    (x >>= f) s = .error e u ↔ x s = .error e u ∨ ∃ a t, x s = .ok a t ∧ f a t = .error e u := by
  change EStateM.bind x f s = _ ↔ _
  unfold EStateM.bind
  cases x s <;> simp [and_assoc]

theorem bind_of_ok {x : Rule α} {f : α → Rule β} {s t : List Symbol} {a : α} (h : x s = .ok a t) :
    (x >>= f) s = f a t := by
  change EStateM.bind x f s = _
  simp [EStateM.bind, h]

theorem bind_of_error {x : Rule α} {f : α → Rule β} {s t : List Symbol} {e : Refusal}
    (h : x s = .error e t) : (x >>= f) s = .error e t :=
  bind_eq_error_iff.2 (.inl h)

theorem of_ite_bind {p : Prop} [Decidable p] {x : Rule Unit} {k : Unit → Rule β}
    {s u : List Symbol} {b : β} (h : (if p then x >>= k else k ()) s = .ok b u) :
    ∃ t, (p ∧ x s = .ok () t ∨ ¬p ∧ t = s) ∧ k () t = .ok b u := by
  split at h
  next hp =>
    obtain ⟨_, t, hx, hk⟩ := bind_eq_ok_iff.1 h
    exact ⟨t, .inl ⟨hp, hx⟩, hk⟩
  next hp => exact ⟨s, .inr ⟨hp, rfl⟩, h⟩

theorem ite_bind_of_ok {p : Prop} [Decidable p] {x : Rule Unit} {k : Unit → Rule β}
    {s t : List Symbol} (hx : p → x s = .ok () t) (hs : ¬p → s = t) :
    (if p then x >>= k else k ()) s = k () t := by
  split
  next hp => exact bind_of_ok (hx hp)
  next hp => rw [hs hp]

theorem get_bind (f : List Symbol → Rule β) (s : List Symbol) : (get >>= f) s = f s s := rfl

theorem unread_bind (f : Nat → Rule β) (s : List Symbol) : (unread >>= f) s = f s.length s := rfl

theorem skip_bind (f : Unit → Rule β) (x : Symbol) (s : List Symbol) :
    (skip >>= f) (x :: s) = f () s := rfl

theorem many_nil {item : Rule (Option α)} {s t : List Symbol} (h : item s = .ok none t) :
    many item s = .ok [] t := by
  rw [many, h]

theorem many_cons {item : Rule (Option α)} {s t u : List Symbol} {a : α} {as : List α}
    (hi : item s = .ok (some a) t) (hl : t.length < s.length) (hm : many item t = .ok as u) :
    many item s = .ok (a :: as) u := by
  rw [many, hi]
  simp only [if_pos hl, hm]

/-- A repetition, step by step. Each item takes a step that reads something, up to where there is none. -/
theorem many_induction {item : Rule (Option α)} {step : List Symbol → α → List Symbol → Prop}
    {motive : List Symbol → List α → List Symbol → Prop}
    (hitem : ∀ {s o t}, item s = .ok o t → o = none ∧ t = s ∨ ∃ a, o = some a ∧ step s a t)
    (hshort : ∀ {s a t}, step s a t → t.length < s.length)
    (hend : ∀ {s}, item s = .ok none s → motive s [] s)
    (hstep : ∀ {s a t as u}, step s a t → motive t as u → motive s (a :: as) u)
    {s t : List Symbol} {as : List α} (h : many item s = .ok as t) : motive s as t := by
  induction hn : s.length using Nat.strongRecOn generalizing s as with
  | ind n ih =>
    subst hn
    rw [many] at h
    split at h
    next => cases h
    next s' hi =>
      cases h
      obtain ⟨_, rfl⟩ | ⟨_, hsome, _⟩ := hitem hi
      · exact hend hi
      · cases hsome
    next a s' hi =>
      obtain ⟨hnone, _⟩ | ⟨a, ⟨⟩, ha⟩ := hitem hi
      · cases hnone
      rw [if_pos (hshort ha)] at h
      split at h
      next => cases h
      next as' t' hm =>
        cases h
        exact hstep ha (ih _ (hshort ha) hm rfl)

theorem many_flatMap {item : Rule (Option α)} {f : β → List Symbol} {v : β → α}
    {q : List Symbol → Prop} (hne : ∀ x, f x ≠ []) (hf : ∀ x s, q (f x ++ s))
    (hi : ∀ x s, q s → item (f x ++ s) = .ok (some (v x)) s) {s : List Symbol}
    (hs : q s) (hend : item s = .ok none s) (xs : List β) :
    many item (xs.flatMap f ++ s) = .ok (xs.map v) s := by
  have hq (xs : List β) : q (xs.flatMap f ++ s) := by
    cases xs with
    | nil => exact hs
    | cons x xs => simpa using hf x (xs.flatMap f ++ s)
  induction xs with
  | nil => exact many_nil hend
  | cons x xs ih =>
    have hl := List.length_pos_iff.2 (hne x)
    rw [List.flatMap_cons, List.append_assoc]
    exact many_cons (hi x _ (hq xs)) (by simp; omega) ih

inductive Chain (item : Rule (Option α)) : List Symbol → List α → List Symbol → Prop
  | nil (s : List Symbol) : Chain item s [] s
  | cons {s t u : List Symbol} {a : α} {as : List α} (h : item s = .ok (some a) t) (hlt : t.length < s.length)
      (ht : Chain item t as u) : Chain item s (a :: as) u

section Chain

variable {item : Rule (Option α)} {s t u : List Symbol} {as bs : List α}

theorem Chain.append (hs : Chain item s as t) (ht : Chain item t bs u) :
    Chain item s (as ++ bs) u := by
  induction hs with
  | nil => exact ht
  | cons h hlt _ ih => exact .cons h hlt (ih ht)

theorem Chain.many_eq (h : Chain item s as t) :
    many item s = match many item t with
      | .ok bs u => .ok (as ++ bs) u
      | .error e u => .error e u := by
  induction h with
  | nil s => cases many item s <;> rfl
  | @cons s t u a as h hlt _ ih =>
    rw [many, h]
    simp only [if_pos hlt, ih]
    cases many item u <;> rfl

theorem Chain.many_end (h : Chain item s as t) (hend : item t = .ok none u) :
    many item s = .ok as u := by
  rw [h.many_eq, many_nil hend]
  exact congrArg (EStateM.Result.ok · u) (List.append_nil as)

end Chain

end MemberOrder.Rule

namespace MemberOrder

theorem nextIs_iff {x : Symbol} {s : List Symbol} : nextIs x s ↔ ∃ t, s = x :: t := by
  cases s with
  | nil => simp [nextIs]
  | cons y t => simp [nextIs, eq_comm]

@[simp] theorem nextIs_cons (x y : Symbol) (s : List Symbol) : nextIs x (y :: s) = decide (y = x) := by
  simp [nextIs]

theorem nextIs_self (x : Symbol) (s : List Symbol) : nextIs x (x :: s) := by
  simp

theorem not_nextIs {x : Symbol} {s : List Symbol} (h : s.head? ≠ some x) : ¬ nextIs x s := by
  simpa [nextIs] using h

theorem Rule.expect_eq_ok_iff {x : Symbol} {s t : List Symbol} :
    expect x s = .ok () t ↔ s = x :: t := by
  unfold expect
  split
  next hs =>
    obtain ⟨s, rfl⟩ := nextIs_iff.1 (by simpa [nextIs] using hs)
    simp
  next hs =>
    constructor
    · intro h
      cases h
    · rintro rfl
      exact absurd rfl hs

end MemberOrder
