import MemberOrder.Proofs.Declaration.Balanced
/-! Balance but for closers that stand loose in angle brackets: type parameters and type arguments
are the one place where a closer is read as if it were an ordinary symbol. -/
namespace MemberOrder

/-- Balance but for some closers, each loose in angle brackets; they are listed. -/
inductive BalancedBut : List Symbol → List Bracket → Prop
  | nil : BalancedBut [] []
  | plain {x s l} (hx : x.isPlain) (hs : BalancedBut s l) : BalancedBut (x :: s) l
  | group {b s t l l'} (hs : BalancedBut s l) (ht : BalancedBut t l') :
      BalancedBut (.opening b :: (s ++ .closing b :: t)) (l ++ l')
  | angles {s t l l'} (hs : InAngles 1 s l) (ht : BalancedBut t l') :
      BalancedBut (.mark .less :: (s ++ t)) (l ++ l')

theorem Balanced.balancedBut {s : List Symbol} (h : Balanced s) : BalancedBut s [] := by
  induction h with
  | nil => exact .nil
  | plain hx _ ih => exact .plain hx ih
  | group _ _ ihs iht => exact .group ihs iht

theorem BalancedBut.append {s t : List Symbol} {l l' : List Bracket} (hs : BalancedBut s l)
    (ht : BalancedBut t l') : BalancedBut (s ++ t) (l ++ l') := by
  induction hs with
  | nil => exact ht
  | plain hx _ ih => exact .plain hx ih
  | group hs _ _ ih => simpa using BalancedBut.group hs ih
  | angles hs _ ih => simpa using BalancedBut.angles hs ih

theorem InAngles.balanced {d : Nat} {s : List Symbol} (h : InAngles d s []) : Balanced s := by
  generalize hl : ([] : List Bracket) = l at h
  induction h with
  | done => exact .nil
  | less _ ih | greater _ ih => exact .plain rfl (ih hl)
  | plain hx _ _ ih => exact .plain hx (ih hl)
  | group _ hs _ ih => exact .group hs (ih hl)
  | loose _ _ => cases hl

theorem BalancedBut.balanced {s : List Symbol} (h : BalancedBut s []) : Balanced s := by
  generalize hl : ([] : List Bracket) = l at h
  induction h with
  | nil => exact .nil
  | plain hx _ ih => exact .plain hx (ih hl)
  | group _ _ ihs iht =>
    obtain ⟨rfl, rfl⟩ := List.append_eq_nil_iff.1 hl.symm
    exact .group (ihs rfl) (iht rfl)
  | angles hs _ ih =>
    obtain ⟨rfl, rfl⟩ := List.append_eq_nil_iff.1 hl.symm
    exact .plain rfl (hs.balanced.append (ih rfl))

/-- How many more brackets are opened than closed, whatever their sorts. -/
def excess : List Symbol → Int
  | [] => 0
  | .opening _ :: s => excess s + 1
  | .closing _ :: s => excess s - 1
  | _ :: s => excess s

theorem excess_plain {x : Symbol} (hx : x.isPlain) (s : List Symbol) : excess (x :: s) = excess s := by
  cases x with
  | opening | closing => simp [Symbol.isPlain] at hx
  | keyword | identifier | number | string | character | mark | operator => rfl

theorem excess_append (s t : List Symbol) : excess (s ++ t) = excess s + excess t := by
  induction s with
  | nil => simp [excess]
  | cons x s ih =>
    rw [List.cons_append]
    cases x with
    | opening | closing =>
      simp only [excess, ih]
      omega
    | keyword | identifier | number | string | character | mark | operator => exact ih

theorem excess_group (b : Bracket) (s t : List Symbol) :
    excess (.opening b :: (s ++ .closing b :: t)) = excess s + excess t := by
  simp only [excess, excess_append]
  omega

theorem Balanced.excess_eq {s : List Symbol} (h : Balanced s) : excess s = 0 := by
  induction h with
  | nil => rfl
  | plain hx _ ih => rw [excess_plain hx, ih]
  | group _ _ ihs iht =>
    rw [excess_group, ihs, iht]
    rfl

theorem InAngles.excess_eq {d : Nat} {s : List Symbol} {l : List Bracket} (h : InAngles d s l) :
    excess s = -l.length := by
  induction h with
  | done => rfl
  | less _ ih | greater _ ih => exact ih
  | plain hx _ _ ih => rw [excess_plain hx, ih]
  | group _ hs _ ih =>
    rw [excess_group, hs.excess_eq, ih]
    omega
  | loose _ ih =>
    rw [excess, ih, List.length_cons]
    omega

theorem BalancedBut.excess_eq {s : List Symbol} {l : List Bracket} (h : BalancedBut s l) :
    excess s = -l.length := by
  induction h with
  | nil => rfl
  | plain hx _ ih => rw [excess_plain hx, ih]
  | group _ _ ihs iht =>
    rw [excess_group, ihs, iht, List.length_append]
    omega
  | angles hs _ ih =>
    rw [excess_plain rfl, excess_append, hs.excess_eq, ih, List.length_append]
    omega

theorem BalancedBut.balanced_iff {s : List Symbol} {l : List Bracket} (h : BalancedBut s l) :
    Balanced s ↔ l = [] := by
  constructor
  · intro hs
    have hl := h.excess_eq
    rw [hs.excess_eq] at hl
    exact List.length_eq_zero_iff.1 (by omega)
  · rintro rfl
    exact h.balanced

end MemberOrder
