import MemberOrder.Proofs.Declaration.Origins
import MemberOrder.Proofs.Declaration.Spans
/-! Reading a text on and on. A reading that refuses has read something, one that succeeds has read all
that was left, and neither looks beyond it. Main statement: `readings_progress`. -/
namespace MemberOrder

namespace Rule

variable {α β : Type}

theorem left_bind {x : Rule α} {f : α → Rule β} (hf : ∀ a, Drops (f a)) (s : List Symbol) :
    left ((x >>= f) s) <:+ left (x s) := by
  change left (EStateM.bind x f s) <:+ _
  unfold EStateM.bind
  cases x s with
  | ok a t => exact (hf a).suffix t
  | error e t => exact List.suffix_refl t

/-- The rule reads the symbol at hand, if there is one, whether it succeeds or refuses. -/
structure Takes (r : Rule α) : Prop where
  suffix (s : List Symbol) : left (r s) <:+ s.drop 1

structure Advances (r : Rule α) : Prop where
  shorter {s t : List Symbol} {e : Refusal} (h : r s = .error e t) : t.length < s.length

theorem Takes.suffix_of_error {r : Rule α} (h : Takes r) {s t : List Symbol} {e : Refusal}
    (hr : r s = .error e t) : t <:+ s.drop 1 := by
  have hs := h.suffix s
  rwa [hr] at hs

theorem Takes.bind {x : Rule α} {f : α → Rule β} (hx : Takes x) (hf : ∀ a, Drops (f a)) :
    Takes (x >>= f) :=
  ⟨fun s => (left_bind hf s).trans (hx.suffix s)⟩

theorem Takes.skip : Takes skip :=
  ⟨fun s => List.suffix_refl (s.drop 1)⟩

theorem Takes.typeKeyword : Takes typeKeyword := by
  constructor
  intro s
  unfold Rule.typeKeyword
  split
  iterate 3
    · exact List.suffix_refl _
  · exact (Drops.bind (.expect _) fun _ => .pure _).suffix _
  · split
    · exact List.suffix_refl _
    · exact List.suffix_refl _
  · exact List.suffix_refl _

theorem Takes.typeDeclOver {nested : Nat → Modifiers Extent → Rule RawType}
    (hnested : ∀ start m, Drops (nested start m)) (start : Nat) (m : Modifiers Extent) :
    Takes (typeDeclOver nested start m) := by
  refine .bind .typeKeyword fun _ => .bind .identifier fun _ => .bind (.skipTo _) fun _ =>
    .bind .unread fun _ => .bind (.expect _) fun _ => .ite (.bind .enumConstants fun _ => ?rest) ?rest
  exact .bind (.many (.member? hnested ..)) fun _ => .bind (.expect _) fun _ =>
    .bind (.since _) fun _ => .bind (.since _) fun _ => .pure _

theorem Takes.packageOrType (start : Nat) (m : Modifiers Extent) : Takes (packageOrType start m) := by
  constructor
  intro s
  rw [Rule.packageOrType, get_bind]
  split
  next => exact (Takes.skip.bind fun _ => .bind .qualifiedName fun _ =>
      .bind (.expect _) fun _ => .pure _).suffix _
  next =>
    refine (left_bind (fun _ => .pure _) _).trans ?_
    cases s with
    | nil => exact List.suffix_refl _
    | cons x s => exact (Takes.typeDeclOver (.typeDecl s.length) start m).suffix _

theorem Advances.many {item : Rule (Option α)} (h : Advances item) : Advances (many item) := by
  constructor
  intro s t e hs
  fun_induction Rule.many item s with
  | case1 s r t' hi =>
    cases hs
    exact h.shorter hi
  | case2 | case4 | case5 => cases hs
  | case3 s a s' hi hlt r t' hm ih =>
    cases hs
    exact (ih hm).trans hlt

theorem Advances.modifier : Advances modifier := by
  constructor
  intro s t e h
  rw [Rule.modifier, get_bind] at h
  split at h
  next => cases h
  next => split at h <;> cases h
  next => cases h
  next =>
    rw [skip_bind] at h
    have hle := ((Drops.bind .annotationTail fun _ => .pure _).suffix_of_error h).length_le
    simp only [List.length_cons] at hle ⊢
    omega
  next => cases h

theorem Advances.modifiers : Advances modifiers := by
  constructor
  intro s t e h
  rw [Rule.modifiers, unread_bind, bind_eq_error_iff] at h
  obtain hmany | ⟨_, _, _, hpure⟩ := h
  · exact Advances.modifier.many.shorter hmany
  · cases hpure

theorem statement_import_advances {s t : List Symbol} {e : Refusal}
    (h : statement (.keyword .import :: s) = .error e t) : t <:+ s := by
  obtain hskip | ⟨_, _, _, hread⟩ := bind_eq_error_iff.1 h
  · rw [skipTo_plain rfl rfl] at hskip
    exact (Drops.skipTo _).suffix_of_error hskip
  · cases hread

theorem Advances.fileItem? : Advances fileItem? := by
  constructor
  intro s t e h
  rw [Rule.fileItem?, get_bind] at h
  split at h
  next => cases h
  next => cases h
  next =>
    obtain hs | ⟨_, _, _, hpure⟩ := bind_eq_error_iff.1 h
    · exact Nat.lt_succ_of_le (statement_import_advances hs).length_le
    · cases hpure
  next hne _ _ =>
    obtain hm | ⟨m, s₁, hm, h⟩ := bind_eq_error_iff.1 h
    · exact Advances.modifiers.shorter hm
    obtain hi | ⟨_, _, _, hpure⟩ := bind_eq_error_iff.1 h
    -- Where there are no modifiers the type is refused behind the first symbol.
    · have hle := ((Takes.packageOrType s.length m).suffix_of_error hi).length_le
      have hle' := (Drops.modifiers.suffix_of_ok hm).length_le
      have hpos := List.length_pos_iff.2 hne
      rw [List.length_drop] at hle
      omega
    · cases hpure

theorem Advances.file : Advances file := by
  constructor
  intro s t e h
  obtain hitems | ⟨_, _, _, hpure⟩ := bind_eq_error_iff.1 h
  · exact Advances.fileItem?.many.shorter hitems
  · cases hpure

end Rule

/-- The places in an answer lie in the last `n` symbols, as do the types that it holds the text of: no
token is looked up but those. -/
def Outcome.Inside (n : Nat) : Outcome (CompilationUnit Extent Extent) → Prop
  | .ok u _ => ∀ d ∈ u.types, ∀ e, d.Holds e →
      ∀ a ∈ e.places ++ e.members.filterMap Member.type?, a.Inside n
  | .error e _ => e.unread ≤ n

theorem TypeDecl.ReadIn.types_inside {w : List Symbol} {d : RawType} (h : d.ReadIn w) :
    ∀ a ∈ d.members.filterMap Member.type?, a.Inside w.length := by
  intro a ha
  obtain ⟨x, hx, ha⟩ := List.mem_filterMap.1 ha
  obtain ⟨s, t, hs, hleaf⟩ | ⟨e, rfl, _⟩ := h.member hx
  · obtain ⟨p, z, c, hends⟩ := (Rule.Ends.leaf _ _).ends hleaf
    obtain hnone | ⟨_, hlt, hle⟩ := hends.typed a ha
    · cases hnone
    · exact ⟨hlt, hle.trans hs.length_le⟩
  · cases ha

theorem file_inside (s : List Symbol) : Outcome.Inside s.length (Rule.file s) := by
  cases h : Rule.file s with
  | error e t => exact Rule.Drops.file.inside h
  | ok u t =>
    intro d hd e he a ha
    obtain ha | ha := List.mem_append.1 ha
    · obtain ⟨head, constants, rest, behind, hplaced⟩ := (Rule.file_laid h).2.2 d hd e he
      exact hplaced.inside a ha
    · exact (Rule.file_readIn h hd he).types_inside a ha

namespace Reading

def position (r : Reading) : Nat := r.tokens.list.length - r.unread.length

def after (k : Nat) (r : Reading) : Reading := (fun r => r.next.2)^[k] r

/-- Readings in a row, the first of them from `r` on. Each stands between two tokens, or in front of
the first, or behind the last. -/
structure Progresses (r : Reading) : Prop where
  tokens (k : Nat) : (after k r).tokens = r.tokens
  bounds (k : Nat) : (after k r).position + (after k r).unread.length = r.tokens.list.length
  unread (k : Nat) : (after k r).unread = r.tokens.symbols.drop (after k r).position
  inside (k : Nat) : Outcome.Inside (after k r).unread.length (Rule.file (after k r).unread)
  fails {k : Nat} {e : ParseError} (h : (after k r).next.1 = .error e) :
    (after k r).position < (after (k + 1) r).position
  failures (k : Nat) : (r.steps k).countP (!·.isOk) ≤ r.tokens.list.length
  succeeds : ∃ k ≤ r.tokens.list.length, (after k r).next.1.isOk ∧
    ∀ i < k, (after i r).next.1.isOk = false
  ends {k : Nat} {u : SourceUnit} (h : (after k r).next.1 = .ok u) :
    (after (k + 1) r).position = r.tokens.list.length ∧
      ∀ j > k, (after j r).next.1 = .ok ⟨none, []⟩

theorem after_succ (k : Nat) (r : Reading) : after (k + 1) r = (after k r).next.2 :=
  Function.iterate_succ_apply' _ k r

theorem after_add (j k : Nat) (r : Reading) : after (j + k) r = after j (after k r) :=
  Function.iterate_add_apply _ j k r

theorem next_reading (r : Reading) : r.next.2 = { r with unread := left (Rule.file r.unread) } := by
  unfold next
  cases Rule.file r.unread <;> rfl

theorem next_error {r : Reading} {e : ParseError} (h : r.next.1 = .error e) :
    r.next.2.unread.length < r.unread.length := by
  unfold next at h ⊢
  cases hfile : Rule.file r.unread with
  | ok u t =>
    rw [hfile] at h
    cases h
  | error e t => exact Rule.Advances.file.shorter hfile

theorem next_ok {r : Reading} {u : SourceUnit} (h : r.next.1 = .ok u) : r.next.2.unread = [] := by
  unfold next at h ⊢
  cases hfile : Rule.file r.unread with
  | ok v t => exact (Rule.file_laid hfile).1
  | error e t =>
    rw [hfile] at h
    cases h

theorem next_of_nil {r : Reading} (h : r.unread = []) : r.next = (.ok ⟨none, []⟩, r) := by
  have hfile : Rule.file [] = .ok ⟨none, []⟩ [] := Rule.file_eq_ok_iff.2 ⟨[], Rule.many_nil rfl, rfl⟩
  obtain ⟨source, ts, s⟩ := r
  obtain rfl : s = [] := h
  rw [next, hfile]
  rfl

theorem after_of_nil {r : Reading} (h : r.unread = []) (k : Nat) : after k r = r := by
  induction k with
  | zero => rfl
  | succ k ih => rw [after_succ, ih, next_of_nil h]

theorem after_tokens (k : Nat) (r : Reading) : (after k r).tokens = r.tokens := by
  induction k with
  | zero => rfl
  | succ k ih => rw [after_succ, next_reading, ih]

theorem after_unread (k : Nat) (r : Reading) : (after k r).unread <:+ r.unread := by
  induction k with
  | zero => exact List.suffix_refl _
  | succ k ih =>
    rw [after_succ, next_reading]
    exact (Rule.Drops.file.suffix _).trans ih

theorem start_unread {source : List Char} {r : Reading} (h : start source = .ok r) :
    r.unread = r.tokens.symbols := by
  unfold start at h
  cases hts : tokenize source with
  | error e =>
    rw [hts] at h
    cases h
  | ok ts =>
    rw [hts] at h
    cases h
    rfl

theorem position_add_unread {r : Reading} (h : r.unread <:+ r.tokens.symbols) :
    r.position + r.unread.length = r.tokens.list.length := by
  have hle := h.length_le
  rw [r.tokens.length_symbols] at hle
  rw [position]
  omega

theorem unread_eq_drop {r : Reading} (h : r.unread <:+ r.tokens.symbols) :
    r.unread = r.tokens.symbols.drop r.position := by
  rw [position, ← r.tokens.length_symbols]
  exact List.suffix_iff_eq_drop.1 h

theorem failures_le (k : Nat) (r : Reading) :
    (r.steps k).countP (!·.isOk) ≤ r.unread.length := by
  induction k generalizing r with
  | zero => exact Nat.zero_le _
  | succ k ih =>
    have hrest := ih r.next.2
    rw [steps, List.countP_cons]
    cases h : r.next.1 with
    | error e =>
      have hfailed : (!(Except.error e : Except ParseError SourceUnit).isOk) = true := rfl
      have hlt := next_error h
      rw [if_pos hfailed]
      omega
    | ok u =>
      have hread : ¬ (!(Except.ok u : Except ParseError SourceUnit).isOk) = true := Bool.false_ne_true
      rw [next_ok h] at hrest
      rw [if_neg hread]
      exact hrest.trans (Nat.zero_le _)

theorem exists_success (r : Reading) : ∃ k ≤ r.unread.length, (after k r).next.1.isOk ∧
    ∀ i < k, (after i r).next.1.isOk = false := by
  induction hn : r.unread.length using Nat.strongRecOn generalizing r with
  | ind n ih =>
    cases h : r.next.1 with
    | ok u => exact ⟨0, Nat.zero_le _, by rw [after, Function.iterate_zero_apply, h]; rfl, by simp⟩
    | error e =>
      have hlt := next_error h
      obtain ⟨k, hk, hok, hfails⟩ := ih _ (hn ▸ hlt) r.next.2 rfl
      refine ⟨k + 1, by omega, hok, fun i hi => ?_⟩
      cases i with
      | zero => rw [after, Function.iterate_zero_apply, h]; rfl
      | succ i => exact hfails i (by omega)

end Reading

/-- However often a text is read on: readings stay within its tokens, each that fails gets on, and so
there are no more failures than tokens. Then all is read, and nothing more is found. -/
theorem readings_progress {source : List Char} {r : Reading} (h : Reading.start source = .ok r) :
    r.Progresses := by
  have hstart := Reading.start_unread h
  have hlength : r.unread.length = r.tokens.list.length := by rw [hstart, r.tokens.length_symbols]
  have hsuffix (k : Nat) : (r.after k).unread <:+ (r.after k).tokens.symbols := by
    rw [Reading.after_tokens, ← hstart]
    exact r.after_unread k
  have hbounds (k : Nat) : (r.after k).position + (r.after k).unread.length = r.tokens.list.length := by
    rw [Reading.position_add_unread (hsuffix k), Reading.after_tokens]
  constructor
  case tokens => exact fun k => r.after_tokens k
  case bounds => exact hbounds
  case unread =>
    intro k
    rw [← Reading.after_tokens k r]
    exact Reading.unread_eq_drop (hsuffix k)
  case inside => exact fun k => file_inside _
  case fails =>
    intro k e he
    have hlt := Reading.next_error he
    have hk := hbounds k
    have hk' := hbounds (k + 1)
    rw [Reading.after_succ] at hk' ⊢
    omega
  case failures => exact fun k => hlength ▸ r.failures_le k
  case succeeds => exact hlength ▸ r.exists_success
  case ends =>
    intro k u hu
    have hnil : (r.after (k + 1)).unread = [] := by
      rw [Reading.after_succ]
      exact Reading.next_ok hu
    have hk := hbounds (k + 1)
    rw [hnil] at hk
    refine ⟨hk, fun j hj => ?_⟩
    obtain ⟨i, rfl⟩ := Nat.exists_eq_add_of_le' hj
    rw [Reading.after_add, Reading.after_of_nil hnil, Reading.next_of_nil hnil]

open Written

/-- `class Box { }`. -/
def emptyBox : List Lexeme := [.keyword .class, Name.box.lexeme, .opening .curly, .closing .curly]

/-- Of `class ; class Box { }` the first word is lost, and the rest is read. -/
theorem readings_progress_emptyBox :
    ∃ r, Reading.start (write (.keyword .class :: .mark .semicolon :: emptyBox)) = .ok r ∧
      r.Progresses ∧ r.next.1.isOk = false ∧ (r.after 1).next.1.isOk := by
  obtain ⟨e, hlost⟩ : ∃ e, Rule.file (symbols (.keyword .class :: .mark .semicolon :: emptyBox)) =
      .error e (symbols (.mark .semicolon :: emptyBox)) := ⟨_, by cbv⟩
  obtain ⟨u, hread⟩ : ∃ u, Rule.file (symbols (.mark .semicolon :: emptyBox)) = .ok u [] :=
    ⟨_, by cbv⟩
  have hstart := start_write (.keyword .class :: .mark .semicolon :: emptyBox)
  refine ⟨_, hstart, readings_progress hstart, ?_, ?_⟩
  · rw [Reading.next, reading, hlost]
    rfl
  · rw [Reading.after_succ, Reading.next_reading, Reading.after, Function.iterate_zero_apply, reading,
      hlost, left, Reading.next, hread]
    rfl

end MemberOrder
