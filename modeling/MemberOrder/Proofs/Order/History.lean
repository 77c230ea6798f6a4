import MemberOrder.Proofs.Order.Late
/-! What a traversal knows after any script of steps, told by the script alone. How many bodies are
open is counted step by step; a body open at depth `d` has been given the events that were delivered
at that depth since the depth was last smaller. Main statement: `Traversal.after_records`. -/
namespace MemberOrder

namespace Step

def depth (d : Nat) : Step → Nat
  | .enter => d + 1
  | .leave => d - 1
  | .member _ | .node _ => d

/-- The event that a step delivers. A node without a code, or with one that stands for nothing,
delivers none. -/
def event? : Step → Option Event
  | .member e => some e
  | .node n => n.code?.bind fun code =>
      MemberKind.all[code]?.map fun kind => ⟨kind, n.position, n.name⟩
  | .enter | .leave => none

end Step

namespace Script

def depth (ss : List Step) : Nat := ss.foldl Step.depth 0

def depthsFrom (d : Nat) : List Step → List (Nat × Step)
  | [] => []
  | s :: ss => (d, s) :: depthsFrom (s.depth d) ss

/-- The events given to the body that is open at depth `d`: those delivered at that depth, as far
back as the depth has not been smaller. -/
def eventsAt (d : Nat) (ss : List Step) : List Event :=
  ((depthsFrom 0 ss).reverse.takeWhile (d ≤ ·.1)).reverse.filterMap fun p =>
    if p.1 = d then p.2.event? else none

def kindsAt (d : Nat) (ss : List Step) : List MemberKind :=
  (eventsAt d ss).map (·.kind)

def finding? (past : List Step) (s : Step) : Option Violation :=
  if depth past = 0 then none
  else s.event?.bind (Event.finding? (kindsAt (depth past) past))

def findingsAfter (past : List Step) : List Step → List Violation
  | [] => []
  | s :: ss => (finding? past s).toList ++ findingsAfter (past ++ [s]) ss

theorem depth_concat (ss : List Step) (s : Step) : depth (ss ++ [s]) = s.depth (depth ss) := by
  simp [depth]

theorem depthsFrom_concat (d : Nat) (ss : List Step) (s : Step) :
    depthsFrom d (ss ++ [s]) = depthsFrom d ss ++ [(ss.foldl Step.depth d, s)] := by
  induction ss generalizing d with
  | nil => rfl
  | cons s' ss ih => simp [depthsFrom, ih]

theorem eventsAt_concat (d : Nat) (ss : List Step) (s : Step) :
    eventsAt d (ss ++ [s]) =
      if d ≤ depth ss then eventsAt d ss ++ (if depth ss = d then s.event?.toList else [])
      else [] := by
  rw [eventsAt, depthsFrom_concat, List.reverse_append, List.reverse_singleton,
    List.singleton_append, List.takeWhile_cons]
  by_cases h : d ≤ depth ss
  · have h' : decide (d ≤ ss.foldl Step.depth 0) = true := decide_eq_true h
    rw [if_pos h, if_pos h', List.reverse_cons, List.filterMap_append]
    by_cases hd : depth ss = d
    · have hd' : ss.foldl Step.depth 0 = d := hd
      cases he : s.event? <;> simp [eventsAt, hd, hd', he]
    · have hd' : ss.foldl Step.depth 0 ≠ d := hd
      simp [eventsAt, hd, hd']
  · have h' : ¬ decide (d ≤ ss.foldl Step.depth 0) = true := fun hp => h (of_decide_eq_true hp)
    rw [if_neg h, if_neg h']
    rfl

theorem findingsAfter_concat (past ss : List Step) (s : Step) :
    findingsAfter past (ss ++ [s]) = findingsAfter past ss ++ (finding? (past ++ ss) s).toList := by
  induction ss generalizing past with
  | nil => simp [findingsAfter]
  | cons s' ss ih => simp [findingsAfter, ih]

end Script

namespace Traversal
open Script

def after (ss : List Step) : Traversal :=
  ss.foldl (fun t s => (t.attempt s).2) .start

def succeeds (past : List Step) (s : Step) : Bool :=
  ((after past).attempt s).1.isOk

def leavesAfter (past : List Step) : List Step → Nat
  | [] => 0
  | s :: ss => (if s = .leave ∧ succeeds past s then 1 else 0) + leavesAfter (past ++ [s]) ss

/-- The frames of the `n` outermost bodies, the outermost first, by the events of each. -/
def framesTold (n : Nat) (ss : List Step) : List Scope :=
  (List.range n).map fun d => ⟨(kindsAt (d + 1) ss).max?⟩

/-- A state that tells the truth about a script. -/
structure Records (ss : List Step) (t : Traversal) : Prop where
  depth : t.scopes.depth + leavesAfter [] ss = ss.count .enter
  frames : t.scopes.frames.reverse = framesTold t.scopes.depth ss
  violations : t.violations = findingsAfter [] ss
  late : ∀ v ∈ t.violations,
    v.actual < v.expectedNotBefore ∧ v.message = v.actual.message ∧ v.message ≠ .method
  finish : t.finish =
    if t.scopes.depth = 0 then .ok t.violations else .error (.unclosedScopes t.scopes.depth)

theorem after_concat (ss : List Step) (s : Step) :
    after (ss ++ [s]) = ((after ss).attempt s).2 := by
  simp [after]

theorem leavesAfter_concat (past ss : List Step) (s : Step) :
    leavesAfter past (ss ++ [s]) =
      leavesAfter past ss + if s = .leave ∧ succeeds (past ++ ss) s then 1 else 0 := by
  induction ss generalizing past with
  | nil => simp [leavesAfter]
  | cons s' ss ih => simp [leavesAfter, ih, Nat.add_assoc]

def told (ss : List Step) : Traversal :=
  ⟨⟨(framesTold (Script.depth ss) ss).reverse⟩, findingsAfter [] ss⟩

theorem framesTold_concat {n : Nat} {ss : List Step} {s : Step} (h : n ≤ Script.depth ss)
    (hs : n < Script.depth ss ∨ s.event? = none) : framesTold n (ss ++ [s]) = framesTold n ss := by
  refine List.map_congr_left fun d hd => ?_
  have hle : d + 1 ≤ Script.depth ss := Nat.lt_of_lt_of_le (List.mem_range.1 hd) h
  have hne : Script.depth ss = d + 1 → s.event? = none := by
    intro he
    have hdn := List.mem_range.1 hd
    exact hs.resolve_left (by omega)
  by_cases he : Script.depth ss = d + 1
  · simp [kindsAt, eventsAt_concat, hle, hne he]
  · simp [kindsAt, eventsAt_concat, hle, he]

theorem framesTold_succ (n : Nat) (ss : List Step) :
    framesTold (n + 1) ss = framesTold n ss ++ [⟨(kindsAt (n + 1) ss).max?⟩] := by
  simp [framesTold, List.range_succ]

theorem step_enter_told (ss : List Step) : (told ss).step .enter = .ok (told (ss ++ [.enter])) := by
  have hd : Script.depth (ss ++ [.enter]) = Script.depth ss + 1 := depth_concat ss .enter
  have hk : kindsAt (Script.depth ss + 1) (ss ++ [.enter]) = [] := by
    simp [kindsAt, eventsAt_concat]
  have hv : findingsAfter [] (ss ++ [.enter]) = findingsAfter [] ss := by
    simp [findingsAfter_concat, finding?, Step.event?]
  simp [told, step, ScopeStack.push, Scope.empty, hd, hk, hv, framesTold_succ,
    framesTold_concat le_rfl (Or.inr (by rfl : Step.enter.event? = none))]

theorem attempt_leave_told (ss : List Step) :
    ((told ss).attempt .leave).2 = told (ss ++ [.leave]) := by
  have hv : findingsAfter [] (ss ++ [.leave]) = findingsAfter [] ss := by
    simp [findingsAfter_concat, finding?, Step.event?]
  cases hd : Script.depth ss with
  | zero =>
    have hd' : Script.depth (ss ++ [.leave]) = 0 := by simp [depth_concat, Step.depth, hd]
    simp [told, attempt, step, ScopeStack.pop, Except.map, hd, hd', hv, framesTold]
  | succ n =>
    have hd' : Script.depth (ss ++ [.leave]) = n := by simp [depth_concat, Step.depth, hd]
    have hf : framesTold n (ss ++ [.leave]) = framesTold n ss :=
      framesTold_concat (by omega) (Or.inl (by omega))
    simp [told, attempt, step, ScopeStack.pop, Except.map, hd, hd', hv, hf, framesTold_succ]

theorem told_concat_of_event?_eq_none {ss : List Step} {s : Step} (he : s.event? = none)
    (hd : s.depth (Script.depth ss) = Script.depth ss) : told (ss ++ [s]) = told ss := by
  have hv : findingsAfter [] (ss ++ [s]) = findingsAfter [] ss := by
    simp [findingsAfter_concat, finding?, he]
  have hf := framesTold_concat (s := s) (le_refl (Script.depth ss)) (Or.inr he)
  simp [told, depth_concat, hd, hf, hv]

theorem member_told {ss : List Step} {s : Step} {e : Event} (he : s.event? = some e)
    (hd : s.depth (Script.depth ss) = Script.depth ss) :
    (told ss).member e =
      if Script.depth ss = 0 then .error (.noActiveScope e.name e.position.line e.position.column)
      else .ok (told (ss ++ [s])) := by
  cases h : Script.depth ss with
  | zero => simp [told, member, ScopeStack.visit, h, framesTold, bind, Except.bind]
  | succ n =>
    have hk : kindsAt (n + 1) (ss ++ [s]) = kindsAt (n + 1) ss ++ [e.kind] := by
      simp [kindsAt, eventsAt_concat, h, he]
    have hv : findingsAfter [] (ss ++ [s]) =
        findingsAfter [] ss ++ (e.finding? (kindsAt (n + 1) ss)).toList := by
      simp [findingsAfter_concat, finding?, he, h]
    have hf : framesTold n (ss ++ [s]) = framesTold n ss :=
      framesTold_concat (by omega) (Or.inl (by omega))
    have hstep := step_member (kindsAt (n + 1) ss) (framesTold n ss).reverse (findingsAfter [] ss) e
    rw [h] at hd
    simp only [told, depth_concat, h, hd, hk, hv, hf, framesTold_succ, List.reverse_append,
      List.reverse_singleton, List.singleton_append]
    exact hstep

theorem told_concat_of_depth_eq_zero {ss : List Step} {s : Step} (h : Script.depth ss = 0)
    (hd : s.depth (Script.depth ss) = Script.depth ss) : told (ss ++ [s]) = told ss := by
  have hv : findingsAfter [] (ss ++ [s]) = findingsAfter [] ss := by
    simp [findingsAfter_concat, finding?, h]
  rw [h] at hd
  simp [told, depth_concat, h, hd, hv, framesTold]

theorem attempt_event_told {ss : List Step} {s : Step} {e : Event} (he : s.event? = some e)
    (hd : s.depth (Script.depth ss) = Script.depth ss)
    (hs : (told ss).step s = (told ss).member e) :
    ((told ss).attempt s).2 = told (ss ++ [s]) := by
  rw [attempt, hs, member_told he hd]
  by_cases h : Script.depth ss = 0
  · rw [if_pos h, told_concat_of_depth_eq_zero h hd]
  · rw [if_neg h]

theorem attempt_node_told (ss : List Step) (n : ForeignNode) :
    ((told ss).attempt (.node n)).2 = told (ss ++ [.node n]) := by
  have hd : (Step.node n).depth (Script.depth ss) = Script.depth ss := rfl
  cases hc : n.code? with
  | none =>
    have he : (Step.node n).event? = none := by simp [Step.event?, hc]
    rw [told_concat_of_event?_eq_none he hd]
    simp [attempt, step, ForeignNode.event?, hc]
  | some code =>
    cases hk : MemberKind.all[code]? with
    | none =>
      have he : (Step.node n).event? = none := by simp [Step.event?, hc, hk]
      rw [told_concat_of_event?_eq_none he hd]
      simp [attempt, step, ForeignNode.event?, hc, MemberKind.ofCode, hk, Except.map]
    | some kind =>
      have he : (Step.node n).event? = some ⟨kind, n.position, n.name⟩ := by
        simp [Step.event?, hc, hk]
      refine attempt_event_told he hd ?_
      simp [step, ForeignNode.event?, hc, MemberKind.ofCode, hk, Except.map]

theorem after_eq_told (ss : List Step) : after ss = told ss := by
  induction ss using List.reverseRecOn with
  | nil => rfl
  | append_singleton ss s ih =>
    rw [after_concat, ih]
    cases s with
    | enter => rw [attempt, step_enter_told]
    | leave => exact attempt_leave_told ss
    | member e => exact attempt_event_told rfl rfl rfl
    | node n => exact attempt_node_told ss n

theorem told_depth (ss : List Step) : (told ss).scopes.depth = Script.depth ss := by
  simp [told, ScopeStack.depth, framesTold]

theorem succeeds_leave (ss : List Step) : succeeds ss .leave = decide (0 < Script.depth ss) := by
  rw [succeeds, after_eq_told]
  cases h : Script.depth ss with
  | zero =>
    simp [told, attempt, step, ScopeStack.pop, Except.map, Except.isOk, Except.toBool, h, framesTold]
  | succ n =>
    simp [told, attempt, step, ScopeStack.pop, Except.map, Except.isOk, Except.toBool, h,
      framesTold_succ]

theorem depth_add_leavesAfter (ss : List Step) :
    Script.depth ss + leavesAfter [] ss = ss.count .enter := by
  induction ss using List.reverseRecOn with
  | nil => rfl
  | append_singleton ss s ih =>
    rw [depth_concat, leavesAfter_concat, List.count_append, ← ih]
    cases s with
    | enter => simp [Step.depth]; omega
    | leave =>
      by_cases h : 0 < Script.depth ss
      · simp [Step.depth, succeeds_leave, h]; omega
      · simp [Step.depth, succeeds_leave, h]; omega
    | member e => simp [Step.depth]
    | node n => simp [Step.depth]

theorem late_of_mem_findingsAfter {past ss : List Step} {v : Violation}
    (h : v ∈ findingsAfter past ss) :
    v.actual < v.expectedNotBefore ∧ v.message = v.actual.message ∧ v.message ≠ .method := by
  induction ss generalizing past with
  | nil => cases h
  | cons s ss ih =>
    rcases List.mem_append.1 h with hv | hv
    · have hf : finding? past s = some v := Option.mem_toList.1 hv
      unfold finding? at hf
      split at hf
      · cases hf
      · obtain ⟨e, -, hve⟩ := Option.bind_eq_some_iff.1 hf
        exact Event.late_of_finding? hve
    · exact ih hv

/-- After any script of steps, in any order and with those that fail among them: as many bodies are
open as were entered and not left; each remembers the latest kind of the members it was given
itself; and the findings are those against the events that came behind a later kind in their own
body. -/
theorem after_records (ss : List Step) : Records ss (after ss) := by
  rw [after_eq_told]
  constructor
  case depth => rw [told_depth, depth_add_leavesAfter]
  case frames => rw [told_depth]; exact List.reverse_reverse _
  case violations => rfl
  case late => exact fun v hv => late_of_mem_findingsAfter hv
  case finish =>
    rw [Traversal.finish, ScopeStack.isEmpty, ScopeStack.depth]
    cases (told ss).scopes.frames <;> rfl

end Traversal

end MemberOrder
