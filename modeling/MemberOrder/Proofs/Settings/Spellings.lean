import Mathlib.Logic.Equiv.Basic
import MemberOrder.Proofs.Settings.Overrides
/-! A message that is given a text under each of its names. Which of the two counts is decided by the order of the
names: the full name of the constructor message is greater than its short name, and the full name of every other
message is smaller. So messages do not take each other's place. Main statement: `text_renamed_iff`. -/
namespace MemberOrder

namespace MessageKind

def laterName (k : MessageKind) : String := if k = .constructor then k.key else k.tag

def earlierName (k : MessageKind) : String := if k = .constructor then k.tag else k.key

theorem earlierName_lt_laterName (k : MessageKind) : codeUnits k.earlierName < codeUnits k.laterName := by
  cases k <;> decide

theorem names_iff {k : MessageKind} {name : String} : k.Names name ↔ name = k.laterName ∨ name = k.earlierName := by
  unfold Names laterName earlierName
  split_ifs
  · exact or_comm
  · exact Iff.rfl

end MessageKind

namespace Settings

variable {es fs : List (String × String)} {k : MessageKind} {x y : String}

theorem mem_names_of_lastText? {name : String} (h : lastText? (· = name) es = some x) : name ∈ es.map (·.1) := by
  by_contra hnot
  rw [lastText?_eq_none_iff.2 (List.forall_mem_ne'.2 hnot)] at h
  cases h

theorem gives_iff : Gives es k x ↔ lastText? (· = k.laterName) es = some x ∨
    lastText? (· = k.laterName) es = none ∧ lastText? (· = k.earlierName) es = some x := by
  have hlt := k.earlierName_lt_laterName
  constructor
  · rintro ⟨name, hname, hx⟩
    obtain rfl | rfl := MessageKind.names_iff.1 hname.names
    · exact .inl hx
    · refine .inr ⟨Option.eq_none_iff_forall_ne_some.2 fun y hy => ?_, hx⟩
      exact absurd hlt (not_lt_of_ge (hname.greatest _ (mem_names_of_lastText? hy)
        (MessageKind.names_iff.2 (.inl rfl))))
  · rintro (hx | ⟨hnone, hx⟩)
    · refine ⟨k.laterName, ⟨MessageKind.names_iff.2 (.inl rfl), mem_names_of_lastText? hx, ?_⟩, hx⟩
      intro other _ hother
      obtain rfl | rfl := MessageKind.names_iff.1 hother
      · exact le_refl _
      · exact hlt.le
    · refine ⟨k.earlierName, ⟨MessageKind.names_iff.2 (.inr rfl), mem_names_of_lastText? hx, ?_⟩, hx⟩
      intro other hgiven hother
      obtain rfl | rfl := MessageKind.names_iff.1 hother
      · exact absurd rfl (lastText?_eq_none_iff.1 hnone _ hgiven)
      · exact le_refl _

theorem lastText?_names : lastText? k.Names (sortedByName es) =
    (lastText? (· = k.laterName) es).or (lastText? (· = k.earlierName) es) :=
  Option.ext fun x => by rw [lastText?_eq_some_iff_gives, gives_iff, Option.or_eq_some_iff]

/-- The texts of one list stand in the other under the names of the messages that `p` puts in place of theirs. -/
structure Renames (p : Equiv.Perm MessageKind) (es fs : List (String × String)) : Prop where
  short : ∀ k : MessageKind, lastText? (· = (p k).tag) fs = lastText? (· = k.tag) es
  full : ∀ k : MessageKind, lastText? (· = (p k).key) fs = lastText? (· = k.key) es

section

variable {p : Equiv.Perm MessageKind}

theorem Renames.alike (h : Renames p es fs) (hk : k = .constructor ↔ p k = .constructor) :
    lastText? (· = (p k).laterName) fs = lastText? (· = k.laterName) es ∧
      lastText? (· = (p k).earlierName) fs = lastText? (· = k.earlierName) es := by
  unfold MessageKind.laterName MessageKind.earlierName
  split_ifs with hp hkind hkind
  · exact ⟨h.full k, h.short k⟩
  · exact absurd (hk.2 hp) hkind
  · exact absurd (hk.1 hkind) hp
  · exact ⟨h.short k, h.full k⟩

/-- Between the constructor message and another one, the names change their order. -/
theorem Renames.crossed (h : Renames p es fs) (hk : ¬ (k = .constructor ↔ p k = .constructor)) :
    lastText? (· = (p k).laterName) fs = lastText? (· = k.earlierName) es ∧
      lastText? (· = (p k).earlierName) fs = lastText? (· = k.laterName) es := by
  unfold MessageKind.laterName MessageKind.earlierName
  split_ifs with hp hkind hkind
  · exact absurd (iff_of_true hkind hp) hk
  · exact ⟨h.full k, h.short k⟩
  · exact ⟨h.short k, h.full k⟩
  · exact absurd (iff_of_false hkind hp) hk

theorem or_getD_comm_iff {α : Type} {a b : Option α} {d d' z : α} (h : a.or b = some z) :
    (b.or a).getD d' = (a.or b).getD d ↔ ∀ x y, a = some x → b = some y → x = y := by
  cases a with
  | none =>
    cases b with
    | none => cases h
    | some y => simp
  | some x => cases b <;> simp [eq_comm]

theorem forall_laterName_iff {P : String → String → Prop} (hP : ∀ {x y}, P x y → P y x) :
    (∀ x y, lastText? (· = k.laterName) es = some x → lastText? (· = k.earlierName) es = some y → P x y) ↔
      ∀ x y, lastText? (· = k.tag) es = some x → lastText? (· = k.key) es = some y → P x y := by
  unfold MessageKind.laterName MessageKind.earlierName
  split_ifs
  · exact ⟨fun h x y hx hy => hP (h y x hy hx), fun h x y hx hy => hP (h y x hy hx)⟩
  · exact Iff.rfl

variable {g g' : Given} {s s' : Settings}

theorem text_of_ofWritten (h : ofWritten g.written = .ok s) (k : MessageKind) :
    s.text k = ((lastText? (· = k.laterName) g.messages).or
      (lastText? (· = k.earlierName) g.messages)).getD k.defaultText := by
  obtain ⟨-, -, rfl⟩ := ofWritten_eq_ok_iff.1 h
  rw [← lastText?_names]
  rfl

theorem text_eq_text_iff (h : ofWritten g.written = .ok s) (h' : ofWritten g'.written = .ok s')
    (hrenames : Renames p g.messages g'.messages) (hk : ∃ name ∈ g.messages.map (·.1), k.Names name) :
    s'.text (p k) = s.text k ↔ ∀ x y, lastText? (· = k.tag) g.messages = some x →
      lastText? (· = k.key) g.messages = some y → x ≠ y → (k = .constructor ↔ p k = .constructor) := by
  obtain ⟨z, hz⟩ := exists_lastText? hk
  rw [lastText?_names] at hz
  rw [text_of_ofWritten h, text_of_ofWritten h']
  by_cases hkind : k = .constructor ↔ p k = .constructor
  · obtain ⟨hlater, hearlier⟩ := hrenames.alike hkind
    rw [hlater, hearlier, hz]
    simp [hkind]
  · obtain ⟨hlater, hearlier⟩ := hrenames.crossed hkind
    rw [hlater, hearlier, or_getD_comm_iff hz, forall_laterName_iff Eq.symm]
    simp only [hkind, imp_false, not_not]

end

/-- Of two texts for one message, the one under the full name counts for the constructor message, and the one under
the short name for every other. So a message takes the text of another that is renamed to it, but for one with two
texts that changes places with the constructor message. -/
theorem text_renamed_iff {source source' : List Char} {g g' : Given} {p : Equiv.Perm MessageKind}
    (h : g.ReadFrom source) (h' : g'.ReadFrom source') (hnamed : g.IsNamed) (hnamed' : g'.IsNamed)
    (hextensions : g.extensions? ≠ some []) (hextensions' : g'.extensions? ≠ some [])
    (hrenames : Renames p g.messages g'.messages) :
    ∃ s s', read source = .ok s ∧ read source' = .ok s' ∧
      (∀ k x y, lastText? (· = k.tag) g.messages = some x → lastText? (· = k.key) g.messages = some y →
        s.text k = if k = .constructor then y else x) ∧
      ∀ k, (∃ name ∈ g.messages.map (·.1), k.Names name) →
        (s'.text (p k) = s.text k ↔ ∀ x y, lastText? (· = k.tag) g.messages = some x →
          lastText? (· = k.key) g.messages = some y → x ≠ y → (k = .constructor ↔ p k = .constructor)) := by
  have hs := ofWritten_eq_ok_iff.2 ⟨hnamed, hextensions, rfl⟩
  have hs' := ofWritten_eq_ok_iff.2 ⟨hnamed', hextensions', rfl⟩
  refine ⟨_, _, (read_of_readFrom h).trans hs, (read_of_readFrom h').trans hs', fun k x y hx hy => ?_, fun k hk =>
    text_eq_text_iff hs hs' hrenames hk⟩
  rw [text_of_ofWritten hs]
  unfold MessageKind.laterName MessageKind.earlierName
  split_ifs
  · rw [hy]
    rfl
  · rw [hx]
    rfl

theorem text_renamed_iff_method : ∃ s s',
    read "\x7b\"messages\":\x7b\"static\":\"a\",\"declaration.order.static\":\"b\"\x7d\x7d".toList = .ok s ∧
      read "\x7b\"messages\":\x7b\"method\":\"a\",\"declaration.order.method\":\"b\"\x7d\x7d".toList = .ok s' ∧
        s.text .static = "a" ∧ s'.text .method = s.text .static := by
  have hrenames : Renames (Equiv.swap .static .method) [("static", "a"), ("declaration.order.static", "b")]
      [("method", "a"), ("declaration.order.method", "b")] :=
    ⟨fun k => by cases k <;> decide, fun k => by cases k <;> decide⟩
  have hstatic : (Given.twofold .static).ReadFrom
      "\x7b\"messages\":\x7b\"static\":\"a\",\"declaration.order.static\":\"b\"\x7d\x7d".toList :=
    Given.readFrom_twofold .static "declaration.order.static" rfl (by cbv)
  have hmethod : (Given.twofold .method).ReadFrom
      "\x7b\"messages\":\x7b\"method\":\"a\",\"declaration.order.method\":\"b\"\x7d\x7d".toList :=
    Given.readFrom_twofold .method "declaration.order.method" rfl (by cbv)
  obtain ⟨s, s', hs, hs', hboth, htext⟩ := text_renamed_iff hstatic hmethod (Given.isNamed_twofold .static)
    (Given.isNamed_twofold .method) (Given.extensions?_twofold .static) (Given.extensions?_twofold .method) hrenames
  refine ⟨s, s', hs, hs', hboth .static "a" "b" rfl rfl, ?_⟩
  exact (htext .static ⟨"static", by decide, by decide⟩).2 fun _ _ _ _ _ => by decide

/-- Where the messages about constructors and static fields change places, the other text counts. -/
theorem text_swap_ne : ∃ s s',
    read "\x7b\"messages\":\x7b\"constructor\":\"a\",\"declaration.order.constructor\":\"b\"\x7d\x7d".toList = .ok s ∧
      read "\x7b\"messages\":\x7b\"static\":\"a\",\"declaration.order.static\":\"b\"\x7d\x7d".toList = .ok s' ∧
        Renames (Equiv.swap .constructor .static) [("constructor", "a"), ("declaration.order.constructor", "b")]
          [("static", "a"), ("declaration.order.static", "b")] ∧
        s'.text (Equiv.swap .constructor .static .constructor) ≠ s.text .constructor := by
  have hs := ofWritten_eq_ok_iff.2 ⟨Given.isNamed_twofold .constructor, Given.extensions?_twofold .constructor, rfl⟩
  have hs' := ofWritten_eq_ok_iff.2 ⟨Given.isNamed_twofold .static, Given.extensions?_twofold .static, rfl⟩
  refine ⟨_, _,
    (read_of_readFrom (Given.readFrom_twofold .constructor "declaration.order.constructor" rfl (by cbv))).trans hs,
    (read_of_readFrom (Given.readFrom_twofold .static "declaration.order.static" rfl (by cbv))).trans hs',
    ⟨fun k => by cases k <;> decide, fun k => by cases k <;> decide⟩, ?_⟩
  rw [text_of_ofWritten hs, text_of_ofWritten hs']
  decide

end Settings

end MemberOrder
