import Mathlib.Data.List.DropRight
import MemberOrder.Text.Span
/-! Places in a text. Main statements: what stands between two places (`excerpt_append`), and what a place tells of
the text before it: its length in bytes, its line feeds, and how many characters stand behind the last of them
(`Position.start_after`). -/
namespace MemberOrder

@[simp] theorem Position.offset_advance (p : Position) (c : Char) :
    (p.advance c).offset = p.offset + c.utf8Size := by
  unfold advance
  split <;> rfl

theorem Position.offset_after (p : Position) (s : List Char) :
    (p.after s).offset = p.offset + byteCount s := by
  induction s generalizing p with
  | nil => rfl
  | cons c s ih =>
    rw [after_cons, ih, offset_advance, byteCount]
    omega

theorem dropBytes_append (s t : List Char) : dropBytes (byteCount s) (s ++ t) = t := by
  induction s with
  | nil =>
    cases t with
    | nil => rfl
    | cons c t => simp [byteCount, dropBytes]
  | cons c s ih =>
    have hc := Char.utf8Size_pos c
    have hne : c.utf8Size + byteCount s ≠ 0 := by omega
    have hsub : c.utf8Size + byteCount s - c.utf8Size = byteCount s := by omega
    rw [byteCount, List.cons_append, dropBytes, if_neg hne, hsub, ih]

theorem takeBytes_append (s t : List Char) : takeBytes (byteCount s) (s ++ t) = s := by
  induction s with
  | nil =>
    cases t with
    | nil => rfl
    | cons c t => simp [byteCount, takeBytes, Char.utf8Size_pos c]
  | cons c s ih =>
    have hlt : ¬ c.utf8Size + byteCount s < c.utf8Size := by omega
    have hsub : c.utf8Size + byteCount s - c.utf8Size = byteCount s := by omega
    rw [byteCount, List.cons_append, takeBytes, if_neg hlt, hsub, ih]

theorem Span.join_between (p q p' q' : Position) :
    (between p q).join (between p' q') = between p q' := rfl

theorem excerpt_append (s t u : List Char) :
    excerpt (s ++ (t ++ u)) (.between (Position.start.after s) (Position.start.after (s ++ t))) = t := by
  have hstart : (Position.start.after s).offset = byteCount s := by
    simp [Position.offset_after, Position.start]
  have hstop : (Position.start.after (s ++ t)).offset = byteCount s + byteCount t := by
    simp [Position.offset_after, Position.start]
  simp only [excerpt, Span.between, hstart, hstop, Nat.add_sub_cancel_left, dropBytes_append,
    takeBytes_append]

theorem Position.start_after (s : List Char) :
    start.after s = ⟨byteCount s, 1 + s.count '\n', 1 + (s.rtakeWhile (· ≠ '\n')).length⟩ := by
  induction s using List.reverseRecOn with
  | nil => rfl
  | append_singleton s c ih =>
    rw [after_append, ih, after_cons, after_nil, advance]
    by_cases hc : c = '\n'
    · subst hc
      simp [byteCount, List.rtakeWhile_concat_neg, Nat.add_assoc]
    · simp [byteCount, hc, List.rtakeWhile_concat_pos, Nat.add_assoc]

theorem byteCount_pos {s : List Char} (h : s ≠ []) : 0 < byteCount s := by
  cases s with
  | nil => exact absurd rfl h
  | cons c s =>
    have hc := Char.utf8Size_pos c
    simp only [byteCount]
    omega

namespace Span

/-- A span tells the truth about a text: it lies in the text, begins and ends between characters, and
its line and column are those of the place where it begins. -/
structure TrueTo (source : List Char) (a : Span) : Prop where
  ordered : a.start ≤ a.stop
  inside : a.stop ≤ byteCount source
  starts : ∃ before behind, source = before ++ behind ∧ a.start = byteCount before ∧
    a.line = 1 + before.count '\n' ∧ a.column = 1 + (before.rtakeWhile (· ≠ '\n')).length
  stops : ∃ before behind, source = before ++ behind ∧ a.stop = byteCount before

theorem trueTo_between (before text behind : List Char) :
    (between (Position.start.after before) (Position.start.after (before ++ text))).TrueTo
      (before ++ (text ++ behind)) where
  ordered := by simp [between, Position.start_after]
  inside := by
    simp only [between, Position.start_after, byteCount_append]
    omega
  starts := ⟨before, text ++ behind, rfl, by simp [between, Position.start_after]⟩
  stops := ⟨before ++ text, behind, by simp, by simp [between, Position.start_after]⟩

theorem TrueTo.join {source : List Char} {a b : Span} (ha : a.TrueTo source) (hb : b.TrueTo source)
    (h : a.start ≤ b.stop) : (a.join b).TrueTo source :=
  ⟨h, hb.inside, ha.starts, hb.stops⟩

end Span

end MemberOrder
