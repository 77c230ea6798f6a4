import MemberOrder.Declaration.Rule
import MemberOrder.Proofs.Declaration.Rules
/-! Balance of brackets, and what reading over symbols has to do with it. Main statements: a group is
read exactly if its inside is balanced (`Rule.group_eq_ok_iff`), and reading to a place outside
brackets passes over nothing that is not balanced (`Rule.balanced_of_skipTo`). -/
namespace MemberOrder

def Symbol.isPlain : Symbol → Bool
  | .opening _ | .closing _ => false
  | _ => true

/-- Every bracket is closed by one of its sort, and none is closed that was not opened. -/
inductive Balanced : List Symbol → Prop
  | nil : Balanced []
  | plain {x s} (hx : x.isPlain) (hs : Balanced s) : Balanced (x :: s)
  | group {b s t} (hs : Balanced s) (ht : Balanced t) : Balanced (.opening b :: (s ++ .closing b :: t))

/-- The same, and `p` holds of each symbol that stands outside all brackets or opens one there. -/
inductive BalancedOver (p : Symbol → Bool) : List Symbol → Prop
  | nil : BalancedOver p []
  | plain {x s} (hx : x.isPlain) (hp : p x) (hs : BalancedOver p s) : BalancedOver p (x :: s)
  | group {b s t} (hp : p (.opening b)) (hs : Balanced s) (ht : BalancedOver p t) :
      BalancedOver p (.opening b :: (s ++ .closing b :: t))

theorem Balanced.append {s t : List Symbol} (hs : Balanced s) (ht : Balanced t) :
    Balanced (s ++ t) := by
  induction hs with
  | nil => exact ht
  | plain hx _ ih => exact .plain hx ih
  | group hs _ _ ih => simpa using Balanced.group hs ih

theorem BalancedOver.balanced {p : Symbol → Bool} {s : List Symbol} (h : BalancedOver p s) :
    Balanced s := by
  induction h with
  | nil => exact .nil
  | plain hx _ _ ih => exact .plain hx ih
  | group _ hs _ ih => exact .group hs ih

variable {κ : Type} (outside : κ → List Symbol → Outside κ) (k : κ)

theorem skim_plain {x : Symbol} (hx : x.isPlain) (o : Opened) (os : List Opened) (s : List Symbol) :
    skim outside k (o :: os) (x :: s) = skim outside k (o :: os) s := by
  cases x with
  | opening | closing => simp [Symbol.isPlain] at hx
  | keyword | identifier | number | string | character | mark | operator => simp [skim]

theorem skim_balanced {c : List Symbol} (hc : Balanced c) (o : Opened) (os : List Opened)
    (s : List Symbol) : skim outside k (o :: os) (c ++ s) = skim outside k (o :: os) s := by
  induction hc generalizing o os s with
  | nil => rfl
  | plain hx _ ih => rw [List.cons_append, skim_plain outside k hx, ih]
  | @group b c t _ _ ihc iht =>
    rw [List.cons_append, skim_opening, List.append_assoc, ihc, List.cons_append,
      skim_closing outside k ⟨b, _⟩, iht]

theorem skim_opened_eq_ok_iff {o : Opened} {os : List Opened} {s t : List Symbol} :
    skim outside k (o :: os) s = .ok () t ↔
      ∃ c s', s = c ++ .closing o.bracket :: s' ∧ Balanced c ∧ skim outside k os s' = .ok () t := by
  constructor
  · intro h
    induction hn : s.length using Nat.strongRecOn generalizing o os s with
    | ind n ih =>
      subst hn
      cases s with
      | nil => simp [skim] at h
      | cons x s =>
        have hlt : s.length < (x :: s).length := by simp
        by_cases hx : x.isPlain
        · rw [skim_plain outside k hx] at h
          obtain ⟨c, s', rfl, hc, h'⟩ := ih _ hlt h rfl
          exact ⟨x :: c, s', rfl, .plain hx hc, h'⟩
        cases x with
        | opening b =>
          rw [skim_opening] at h
          obtain ⟨c, s', hs, hc, h'⟩ := ih _ hlt h rfl
          have hlt' : s'.length < (Symbol.opening b :: s).length := by simp [hs]; omega
          obtain ⟨d, s'', hs', hd, h''⟩ := ih _ hlt' h' rfl
          exact ⟨.opening b :: (c ++ .closing b :: d), s'', by simp [hs, hs'], .group hc hd, h''⟩
        | closing b =>
          by_cases hb : b = o.bracket
          · subst hb
            rw [skim_closing] at h
            exact ⟨[], s, rfl, .nil, h⟩
          · simp [skim, hb] at h
        | keyword | identifier | number | string | character | mark | operator =>
          exact absurd rfl hx
  · rintro ⟨c, s', rfl, hc, h⟩
    rw [skim_balanced outside k hc, skim_closing, h]

namespace Rule

theorem group_append {b : Bracket} {c : List Symbol} (hc : Balanced c) (t : List Symbol) :
    group b (.opening b :: (c ++ .closing b :: t)) = .ok () t := by
  simp only [group, if_true]
  rw [skim_balanced _ _ hc, skim_closing _ _ ⟨b, _⟩]
  simp [skim]

theorem group_eq_ok_iff {b : Bracket} {s t : List Symbol} :
    group b s = .ok () t ↔ ∃ c, s = .opening b :: (c ++ .closing b :: t) ∧ Balanced c := by
  constructor
  · intro h
    unfold group at h
    split at h
    next b' s' =>
      split at h
      next hb =>
        subst hb
        obtain ⟨c, u, hs, hc, hu⟩ := (skim_opened_eq_ok_iff _ _).1 h
        simp only [skim, EStateM.Result.ok.injEq, true_and] at hu
        subst hu
        exact ⟨c, by simp [hs], hc⟩
      next => cases h
    next => cases h
  · rintro ⟨c, rfl, hc⟩
    exact group_append hc t

theorem group_rest_eq {b : Bracket} {c c' s s' : List Symbol} (hc : Balanced c) (hc' : Balanced c')
    (h : c ++ .closing b :: s = c' ++ .closing b :: s') : s = s' := by
  have hgroup := group_append (b := b) hc s
  rw [h, group_append hc'] at hgroup
  exact (EStateM.Result.ok.inj hgroup).2.symm

variable {stop : List Symbol → Bool}

theorem skipTo_of_stop {s : List Symbol} (h : stop s) : skipTo stop s = .ok () s := by
  simp [skipTo, skim, h]

theorem skipTo_plain {x : Symbol} {s : List Symbol} (hx : x.isPlain) (h : stop (x :: s) = false) :
    skipTo stop (x :: s) = skipTo stop s := by
  cases x with
  | opening | closing => simp [Symbol.isPlain] at hx
  | keyword | identifier | number | string | character | mark | operator =>
    rw [skipTo, skim]
    simp [h]

theorem skipTo_opening {b : Bracket} {s : List Symbol} (h : stop (.opening b :: s) = false) :
    ∃ outside, (∀ s, skim outside () [] s = skipTo stop s) ∧
      skipTo stop (.opening b :: s) = skim outside () [⟨b, s.length + 1⟩] s := by
  refine ⟨_, fun _ => rfl, ?_⟩
  rw [skipTo, skim]
  simp [h]

theorem skipTo_group {b : Bracket} {c s : List Symbol} (hc : Balanced c)
    (h : stop (.opening b :: (c ++ .closing b :: s)) = false) :
    skipTo stop (.opening b :: (c ++ .closing b :: s)) = skipTo stop s := by
  obtain ⟨outside, ho, hs⟩ := skipTo_opening h
  rw [hs, skim_balanced outside () hc, skim_closing outside () ⟨b, _⟩, ho]

theorem balancedOver_of_skipTo {p : Symbol → Bool} (hp : ∀ x s, stop (x :: s) = false → p x)
    {s t : List Symbol} (h : skipTo stop s = .ok () t) :
    ∃ c, s = c ++ t ∧ BalancedOver p c ∧ stop t := by
  induction hn : s.length using Nat.strongRecOn generalizing s with
  | ind n ih =>
    subst hn
    by_cases hstop : stop s
    · rw [skipTo_of_stop hstop] at h
      cases h
      exact ⟨[], rfl, .nil, hstop⟩
    have hstop' : stop s = false := by simpa using hstop
    cases s with
    | nil => simp [skipTo, skim, hstop'] at h
    | cons x s =>
      have hlt : s.length < (x :: s).length := by simp
      by_cases hx : x.isPlain
      · rw [skipTo_plain hx hstop'] at h
        obtain ⟨c, rfl, hc, ht⟩ := ih _ hlt h rfl
        exact ⟨x :: c, rfl, .plain hx (hp _ _ hstop') hc, ht⟩
      cases x with
      | opening b =>
        obtain ⟨outside, ho, hs⟩ := skipTo_opening hstop'
        rw [hs] at h
        obtain ⟨c, s', hs', hc, h'⟩ := (skim_opened_eq_ok_iff outside ()).1 h
        rw [ho] at h'
        have hlt' : s'.length < (Symbol.opening b :: s).length := by simp [hs']; omega
        obtain ⟨d, hd, hdb, ht⟩ := ih _ hlt' h' rfl
        exact ⟨.opening b :: (c ++ .closing b :: d), by simp [hs', hd],
          .group (hp _ _ hstop') hc hdb, ht⟩
      | closing b => simp [skipTo, skim, hstop'] at h
      | keyword | identifier | number | string | character | mark | operator => exact absurd rfl hx

theorem balanced_of_skipTo {s t : List Symbol} (h : skipTo stop s = .ok () t) :
    ∃ c, s = c ++ t ∧ Balanced c ∧ stop t := by
  obtain ⟨c, hs, hc, ht⟩ := balancedOver_of_skipTo (p := fun _ => true) (fun _ _ _ => rfl) h
  exact ⟨c, hs, hc.balanced, ht⟩

theorem balancedOver_of_statement {s t : List Symbol} (h : statement s = .ok () t) :
    ∃ c, s = c ++ .mark .semicolon :: t ∧ BalancedOver (· ≠ .mark .semicolon) c := by
  obtain ⟨_, s', hs, h'⟩ := bind_eq_ok_iff.1 h
  obtain ⟨c, rfl, hc, hstop⟩ :=
    balancedOver_of_skipTo (p := (· ≠ .mark .semicolon)) (fun x s hx => by simpa using hx) hs
  obtain ⟨u, rfl⟩ := nextIs_iff.1 hstop
  cases h'
  exact ⟨c, rfl, hc⟩

theorem skipTo_append {p : Symbol → Bool} (hp : ∀ x s, p x → stop (x :: s) = false)
    {c t : List Symbol} (hc : BalancedOver p c) (ht : stop t) : skipTo stop (c ++ t) = .ok () t := by
  induction hc with
  | nil => exact skipTo_of_stop ht
  | plain hx hpx _ ih => rw [List.cons_append, skipTo_plain hx (hp _ _ hpx), ih]
  | group hpb hc _ ih =>
    rw [List.cons_append, List.append_assoc, List.cons_append, skipTo_group hc (hp _ _ hpb), ih]

end Rule

/-- What stands in angle brackets, up to and with the `>` that closes the last of `depth` open ones.
Closers of other brackets may stand loose there; they are listed. -/
inductive InAngles : Nat → List Symbol → List Bracket → Prop
  | done : InAngles 0 [] []
  | less {d s l} (hs : InAngles (d + 2) s l) : InAngles (d + 1) (.mark .less :: s) l
  | greater {d s l} (hs : InAngles d s l) : InAngles (d + 1) (.mark .greater :: s) l
  | plain {d x s l} (hx : x.isPlain)
      (hn : x ≠ .mark .less ∧ x ≠ .mark .greater ∧ x ≠ .mark .semicolon)
      (hs : InAngles (d + 1) s l) : InAngles (d + 1) (x :: s) l
  | group {d b s t l} (hb : b ≠ .curly) (hs : Balanced s) (ht : InAngles (d + 1) t l) :
      InAngles (d + 1) (.opening b :: (s ++ .closing b :: t)) l
  | loose {d b s l} (hs : InAngles (d + 1) s l) : InAngles (d + 1) (.closing b :: s) (b :: l)

namespace Rule

variable {n : Nat}

theorem skim_insideAngles_read {d e : Nat} {x : Symbol} {s : List Symbol}
    (h : insideAngles n d (x :: s) = .read e) (hx : ∀ b, x ≠ .opening b) :
    skim (insideAngles n) d [] (x :: s) = skim (insideAngles n) e [] s := by
  rw [skim, h]
  cases x with
  | opening b => exact absurd rfl (hx b)
  | closing | keyword | identifier | number | string | character | mark | operator => rfl

theorem skim_insideAngles_opening {d : Nat} {b : Bracket} {s : List Symbol} (hb : b ≠ .curly) :
    skim (insideAngles n) (d + 1) [] (.opening b :: s) =
      skim (insideAngles n) (d + 1) [⟨b, s.length + 1⟩] s := by
  cases b with
  | curly => exact absurd rfl hb
  | round | square => simp [skim, insideAngles]

theorem insideAngles_plain {d : Nat} {x : Symbol} {s : List Symbol} (hx : x.isPlain)
    (hn : x ≠ .mark .less ∧ x ≠ .mark .greater ∧ x ≠ .mark .semicolon) :
    insideAngles n (d + 1) (x :: s) = .read (d + 1) := by
  cases x with
  | opening | closing => simp [Symbol.isPlain] at hx
  | keyword | identifier | number | string | character | operator => rfl
  | mark m => cases m <;> first | rfl | simp at hn

theorem inAngles_of_skim {d : Nat} {s t : List Symbol} (h : skim (insideAngles n) d [] s = .ok () t) :
    ∃ c l, s = c ++ t ∧ InAngles d c l := by
  induction hn : s.length using Nat.strongRecOn generalizing d s with
  | ind m ih =>
    subst hn
    cases d with
    | zero =>
      rw [skim] at h
      cases h
      exact ⟨[], [], rfl, .done⟩
    | succ d =>
      cases s with
      | nil => simp [skim, insideAngles] at h
      | cons x s =>
        have hlt : s.length < (x :: s).length := by simp
        by_cases hx : x.isPlain ∧ x ≠ .mark .less ∧ x ≠ .mark .greater ∧ x ≠ .mark .semicolon
        · have hr := insideAngles_plain (n := n) (d := d) (s := s) hx.1 hx.2
          rw [skim_insideAngles_read hr (by rintro b rfl; simp [Symbol.isPlain] at hx)] at h
          obtain ⟨c, l, rfl, hc⟩ := ih _ hlt h rfl
          exact ⟨x :: c, l, rfl, .plain hx.1 hx.2 hc⟩
        cases x with
        | opening b =>
          by_cases hb : b = .curly
          · subst hb
            simp [skim, insideAngles] at h
          rw [skim_insideAngles_opening hb] at h
          obtain ⟨c, s', hs, hc, h'⟩ := (skim_opened_eq_ok_iff _ _).1 h
          have hlt' : s'.length < (Symbol.opening b :: s).length := by simp [hs]; omega
          obtain ⟨c', l, hs', hc'⟩ := ih _ hlt' h' rfl
          exact ⟨.opening b :: (c ++ .closing b :: c'), l, by simp [hs, hs'], .group hb hc hc'⟩
        | closing b =>
          rw [skim_insideAngles_read (e := d + 1) rfl (by simp)] at h
          obtain ⟨c, l, rfl, hc⟩ := ih _ hlt h rfl
          exact ⟨.closing b :: c, b :: l, rfl, .loose hc⟩
        | mark m =>
          cases m with
          | less =>
            rw [skim_insideAngles_read (e := d + 2) rfl (by simp)] at h
            obtain ⟨c, l, rfl, hc⟩ := ih _ hlt h rfl
            exact ⟨.mark .less :: c, l, rfl, .less hc⟩
          | greater =>
            rw [skim_insideAngles_read (e := d) rfl (by simp)] at h
            obtain ⟨c, l, rfl, hc⟩ := ih _ hlt h rfl
            exact ⟨.mark .greater :: c, l, rfl, .greater hc⟩
          | semicolon => simp [skim, insideAngles] at h
          | comma | dot | atSign | equals | question => simp [Symbol.isPlain] at hx
        | keyword | identifier | number | string | character | operator =>
          simp [Symbol.isPlain] at hx

theorem skim_of_inAngles {d : Nat} {c : List Symbol} {l : List Bracket} (hc : InAngles d c l)
    (t : List Symbol) : skim (insideAngles n) d [] (c ++ t) = .ok () t := by
  induction hc with
  | done => rw [skim]; rfl
  | less _ ih => rwa [List.cons_append, skim_insideAngles_read rfl (by simp)]
  | greater _ ih => rwa [List.cons_append, skim_insideAngles_read rfl (by simp)]
  | plain hx hn _ ih =>
    rwa [List.cons_append, skim_insideAngles_read (insideAngles_plain hx hn)]
    rintro b rfl
    simp [Symbol.isPlain] at hx
  | @group d b s u l hb hs _ ih =>
    rw [List.cons_append, List.append_assoc, List.cons_append, skim_insideAngles_opening hb,
      skim_balanced _ _ hs, skim_closing _ _ ⟨b, _⟩, ih]
  | loose _ ih => rwa [List.cons_append, skim_insideAngles_read rfl (by simp)]

theorem angles_eq_ok_iff {s t : List Symbol} :
    angles s = .ok () t ↔ ∃ c l, s = .mark .less :: (c ++ t) ∧ InAngles 1 c l := by
  constructor
  · intro h
    unfold angles at h
    split at h
    next s' =>
      obtain ⟨c, l, rfl, hc⟩ := inAngles_of_skim h
      exact ⟨c, l, rfl, hc⟩
    next => cases h
  · rintro ⟨c, l, rfl, hc⟩
    exact skim_of_inAngles hc t

theorem angles_rest_eq {c c' s s' : List Symbol} {l l' : List Bracket} (hc : InAngles 1 c l)
    (hc' : InAngles 1 c' l') (h : c ++ s = c' ++ s') : s = s' := by
  have hread : angles (.mark .less :: (c ++ s)) = .ok () s :=
    angles_eq_ok_iff.2 ⟨c, l, rfl, hc⟩
  rw [h, angles_eq_ok_iff.2 ⟨c', l', rfl, hc'⟩] at hread
  exact (EStateM.Result.ok.inj hread).2.symm

end Rule

end MemberOrder
