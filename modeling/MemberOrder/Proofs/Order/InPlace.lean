import MemberOrder.Order.Traversal
/-! Steps run in place, on one state that each changes as it goes. Nothing takes back what a step has
done before it fails, so that it leaves no trace is to be shown. Main statement: `failures_traceless`. -/
namespace MemberOrder

namespace Script

variable {ι ε σ α : Type}

def answered : EStateM.Result ε σ α → Except ε α × σ
  | .ok a s => (.ok a, s)
  | .error e s => (.error e, s)

def kept (s : σ) : Except ε (α × σ) → Except ε α × σ
  | .ok (a, s') => (.ok a, s')
  | .error e => (.error e, s)

theorem answered_eq_error_iff {r : EStateM.Result ε σ α} {e : ε} {s : σ} :
    answered r = (.error e, s) ↔ r = .error e s := by
  cases r <;> simp [answered]

theorem kept_eq_error_iff {s s' : σ} {r : Except ε (α × σ)} {e : ε} :
    kept s r = (.error e, s') ↔ s' = s ∧ r = .error e := by
  cases r with
  | ok p => simp [kept]
  | error e' => simp [kept, and_comm, eq_comm]

variable (act : ι → EStateM ε σ α)

/-- A script run from a state, whatever fails in it: each step with its answer and the state behind it. -/
def record (s : σ) : List ι → List (ι × Except ε α × σ)
  | [] => []
  | i :: is => (i, answered (act i s)) :: record (answered (act i s)).2 is

def stateBehind (s : σ) (is : List ι) : σ :=
  is.foldl (fun s i => (answered (act i s)).2) s

def successes (rs : List (ι × Except ε α × σ)) : List (ι × Except ε α × σ) :=
  rs.filter (·.2.1.isOk)

def succeeding (s : σ) (is : List ι) : List ι :=
  (successes (record act s is)).map (·.1)

/-- Steps that fail change nothing. A script without them gets the same answers, step by step, and
leaves the same states. -/
structure Traceless : Prop where
  state : ∀ i s e s', act i s = .error e s' → s' = s
  record : ∀ s is, record act s (succeeding act s is) = successes (record act s is)
  behind : ∀ s is, stateBehind act s (succeeding act s is) = stateBehind act s is

variable {act}

theorem record_ok {i : ι} {s s' : σ} {a : α} (h : act i s = .ok a s') (is : List ι) :
    record act s (i :: is) = (i, .ok a, s') :: record act s' is := by
  rw [record, h, answered]

theorem record_error {i : ι} {s s' : σ} {e : ε} (h : act i s = .error e s') (is : List ι) :
    record act s (i :: is) = (i, .error e, s') :: record act s' is := by
  rw [record, h, answered]

theorem succeeding_ok {i : ι} {s s' : σ} {a : α} (h : act i s = .ok a s') (is : List ι) :
    succeeding act s (i :: is) = i :: succeeding act s' is := by
  rw [succeeding, record_ok h]
  rfl

theorem succeeding_error {i : ι} {s s' : σ} {e : ε} (h : act i s = .error e s') (is : List ι) :
    succeeding act s (i :: is) = succeeding act s' is := by
  rw [succeeding, record_error h]
  rfl

theorem stateBehind_cons (i : ι) (s : σ) (is : List ι) :
    stateBehind act s (i :: is) = stateBehind act (answered (act i s)).2 is := rfl

theorem Traceless.of_state (h : ∀ i s e s', act i s = .error e s' → s' = s) : Traceless act where
  state := h
  record := by
    intro s is
    induction is generalizing s with
    | nil => rfl
    | cons i is ih =>
      cases hi : act i s with
      | ok a s' =>
        rw [succeeding_ok hi, record_ok hi, record_ok hi, ih]
        rfl
      | error e s' =>
        obtain rfl := h i s e s' hi
        rw [succeeding_error hi, record_error hi, ih]
        rfl
  behind := by
    intro s is
    induction is generalizing s with
    | nil => rfl
    | cons i is ih =>
      cases hi : act i s with
      | ok a s' => rw [succeeding_ok hi, stateBehind_cons, stateBehind_cons, hi, answered, ih]
      | error e s' =>
        obtain rfl := h i s e s' hi
        rw [succeeding_error hi, stateBehind_cons, hi, answered, ih]

end Script

open Script

namespace ScopeStack

def takeFrame : EStateM StepError ScopeStack Scope := do
  let s ← get
  set (ScopeStack.mk s.frames.tail)
  match s.frames.head? with
  | some f => return f
  | none => throw .unbalancedScope

def judge (e : Event) : EStateM StepError ScopeStack (Option Violation) := do
  let s ← get
  match s.frames with
  | f :: fs =>
    set (ScopeStack.mk ((f.visit e).2 :: fs))
    return (f.visit e).1
  | [] => throw (.noActiveScope e.name e.position.line e.position.column)

end ScopeStack

inductive StackStep
  | push
  | pop
  | visit (e : Event)
  deriving DecidableEq, Repr

inductive StackAnswer
  | pushed
  | popped (body : Scope)
  | visited (found? : Option Violation)
  deriving DecidableEq, Repr

namespace StackStep

def perform : StackStep → EStateM StepError ScopeStack StackAnswer
  | .push => do
    modify ScopeStack.push
    return .pushed
  | .pop => do
    let body ← ScopeStack.takeFrame
    return .popped body
  | .visit e => do
    let found? ← ScopeStack.judge e
    return .visited found?

def next (s : ScopeStack) : StackStep → Except StepError (StackAnswer × ScopeStack)
  | .push => .ok (.pushed, s.push)
  | .pop => s.pop.map fun p => (.popped p.1, p.2)
  | .visit e => (s.visit e).map fun p => (.visited p.1, p.2)

def failure? (s : ScopeStack) : StackStep → Option StepError
  | .push => none
  | .pop => if s.isEmpty then some .unbalancedScope else none
  | .visit e =>
    if s.isEmpty then some (.noActiveScope e.name e.position.line e.position.column) else none

theorem answered_perform (st : StackStep) (s : ScopeStack) :
    answered (st.perform s) = kept s (st.next s) := by
  obtain ⟨frames⟩ := s
  cases st with
  | push => rfl
  | pop => cases frames <;> rfl
  | visit e => cases frames <;> rfl

theorem perform_eq_error_iff {st : StackStep} {s s' : ScopeStack} {e : StepError} :
    st.perform s = .error e s' ↔ s' = s ∧ st.failure? s = some e := by
  rw [← answered_eq_error_iff, answered_perform, kept_eq_error_iff, and_congr_right_iff]
  intro _
  obtain ⟨frames⟩ := s
  cases st with
  | push => simp [next, failure?]
  | pop => cases frames <;> simp [next, failure?, ScopeStack.pop, ScopeStack.isEmpty, Except.map]
  | visit v => cases frames <;> simp [next, failure?, ScopeStack.visit, ScopeStack.isEmpty, Except.map]

end StackStep

/-- Why a step fails, if it does. The code of a node is looked at before the class bodies. -/
def Step.failure? (s : ScopeStack) : Step → Option StepError
  | .enter => none
  | .leave => StackStep.pop.failure? s
  | .member e => (StackStep.visit e).failure? s
  | .node n => n.code?.bind fun code =>
    match MemberKind.all[code]? with
    | some kind => (StackStep.visit ⟨kind, n.position, n.name⟩).failure? s
    | none => some (.unknown (.memberKind code))

namespace Traversal

def onScopes {α : Type} (act : EStateM StepError ScopeStack α) : EStateM StepError Traversal α :=
  fun t =>
    match act t.scopes with
    | .ok a scopes => .ok a { t with scopes }
    | .error e scopes => .error e { t with scopes }

def deliver (e : Event) : EStateM StepError Traversal Unit := do
  match ← onScopes (ScopeStack.judge e) with
  | some v => modify fun t => { t with violations := t.violations ++ [v] }
  | none => return

def perform : Step → EStateM StepError Traversal Unit
  | .enter => modify fun t => { t with scopes := t.scopes.push }
  | .leave => do
    let _ ← onScopes ScopeStack.takeFrame
  | .member e => deliver e
  | .node n =>
    match n.event? with
    | .error what => throw (.unknown what)
    | .ok none => return
    | .ok (some e) => deliver e

theorem answered_deliver (e : Event) (t : Traversal) :
    answered (deliver e t) = kept t ((t.member e).map fun t' => ((), t')) := by
  obtain ⟨⟨frames⟩, violations⟩ := t
  cases frames with
  | nil => rfl
  | cons f fs =>
    have hjudge : onScopes (ScopeStack.judge e) ⟨⟨f :: fs⟩, violations⟩ =
        .ok (f.visit e).1 ⟨⟨(f.visit e).2 :: fs⟩, violations⟩ := rfl
    have hmember : member ⟨⟨f :: fs⟩, violations⟩ e =
        .ok ⟨⟨(f.visit e).2 :: fs⟩, violations ++ (f.visit e).1.toList⟩ := rfl
    simp only [hmember, deliver, bind, EStateM.bind, hjudge]
    cases (f.visit e).1 with
    | none => simp only [Option.toList, List.append_nil]; rfl
    | some v => rfl

theorem answered_perform (s : Step) (t : Traversal) :
    answered (perform s t) = kept t ((t.step s).map fun t' => ((), t')) := by
  cases s with
  | enter => rfl
  | leave =>
    obtain ⟨⟨frames⟩, violations⟩ := t
    cases frames <;> rfl
  | member e => exact answered_deliver e t
  | node n =>
    cases hn : n.event? with
    | error what => simp only [perform, step, hn]; rfl
    | ok e? =>
      cases e? with
      | none => simp only [perform, step, hn]; rfl
      | some e =>
        have hperform : perform (.node n) = deliver e := by simp only [perform, hn]
        have hstep : t.step (.node n) = t.member e := by simp only [step, hn]
        rw [hperform, hstep, answered_deliver]

theorem answered_eq_attempt (s : Step) (t : Traversal) : answered (perform s t) = t.attempt s := by
  rw [answered_perform, attempt]
  cases t.step s <;> rfl

theorem member_error_iff {t : Traversal} {e : Event} {why : StepError} :
    (t.member e).map (fun t' => ((), t')) = .error why ↔
      (StackStep.visit e).failure? t.scopes = some why := by
  obtain ⟨⟨frames⟩, violations⟩ := t
  cases frames <;>
    simp [member, ScopeStack.visit, StackStep.failure?, ScopeStack.isEmpty, bind, Except.bind, pure,
      Except.pure, Except.map]

theorem perform_eq_error_iff {s : Step} {t t' : Traversal} {e : StepError} :
    perform s t = .error e t' ↔ t' = t ∧ s.failure? t.scopes = some e := by
  rw [← answered_eq_error_iff, answered_perform, kept_eq_error_iff, and_congr_right_iff]
  intro _
  cases s with
  | enter => simp [step, Step.failure?, Except.map]
  | leave =>
    obtain ⟨⟨frames⟩, violations⟩ := t
    cases frames <;>
      simp [step, Step.failure?, StackStep.failure?, ScopeStack.pop, ScopeStack.isEmpty, Except.map]
  | member v => exact member_error_iff
  | node n =>
    cases hc : n.code? with
    | none => simp [step, ForeignNode.event?, Step.failure?, hc, Except.map]
    | some code =>
      cases hk : MemberKind.all[code]? with
      | none =>
        simp [step, ForeignNode.event?, Step.failure?, MemberKind.ofCode, hc, hk, Except.map]
      | some kind =>
        have hstep : t.step (.node n) = t.member ⟨kind, n.position, n.name⟩ := by
          simp only [step, ForeignNode.event?, MemberKind.ofCode, hc, hk, Except.map]
        rw [hstep, member_error_iff]
        simp only [Step.failure?, hc, hk, Option.bind_some]

end Traversal

open Traversal in
/-- Whatever steps are asked of a traversal, or of a stack of class bodies by itself: those that fail
change nothing, and a script without them goes as before, answer for answer, up to its findings. A
code that stands for nothing is refused in whatever state, and a node without one is passed over. -/
theorem failures_traceless :
    Traceless Traversal.perform ∧ Traceless StackStep.perform ∧
    (∀ t ss, (stateBehind perform t (succeeding perform t ss)).finish =
      (stateBehind perform t ss).finish) ∧
    (∀ s t t' e, perform s t = .error e t' ↔ t' = t ∧ s.failure? t.scopes = some e) ∧
    (∀ st s s' e, StackStep.perform st s = .error e s' ↔ s' = s ∧ st.failure? s = some e) ∧
    (∀ i place name t, perform (.node ⟨some (MemberKind.all.length + i), place, name⟩) t =
      .error (.unknown (.memberKind (MemberKind.all.length + i))) t) ∧
    (∀ place name t, perform (.node ⟨none, place, name⟩) t = .ok () t) ∧
    (∀ s t, answered (perform s t) = t.attempt s) ∧
    (∀ st s, answered (StackStep.perform st s) = kept s (st.next s)) := by
  have htraceless : Traceless Traversal.perform := .of_state fun s t e t' h =>
    (perform_eq_error_iff.1 h).1
  refine ⟨htraceless, .of_state fun st s e s' h => (StackStep.perform_eq_error_iff.1 h).1, ?_,
    fun _ _ _ _ => perform_eq_error_iff, fun _ _ _ _ => StackStep.perform_eq_error_iff, ?_,
    fun _ _ _ => rfl, answered_eq_attempt, StackStep.answered_perform⟩
  · intro t ss
    rw [htraceless.behind]
  · intro i place name t
    refine perform_eq_error_iff.2 ⟨rfl, ?_⟩
    have hnone : MemberKind.all[MemberKind.all.length + i]? = none :=
      List.getElem?_eq_none (Nat.le_add_right _ _)
    simp only [Step.failure?, Option.bind_some, hnone]

end MemberOrder
