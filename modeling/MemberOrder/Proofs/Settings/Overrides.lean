import Mathlib.Data.List.TakeWhile
import MemberOrder.Proofs.Settings.Entries
import MemberOrder.Proofs.Settings.Given
/-! Settings as a document gives them, and what is told anew on top of them. Main statement: `read_laws`. -/
namespace MemberOrder.Settings

/-- An extension, and what is left of it without the dots in front. -/
def IsUndotted (e r : String) : Prop :=
  ∃ n, e.toList = List.replicate n '.' ++ r.toList ∧ r.toList.head? ≠ some '.'

theorem isUndotted_iff {e r : String} : IsUndotted e r ↔ withoutDots e = r := by
  have hdots : e.toList.takeWhile (· = '.') = List.replicate (e.toList.takeWhile (· = '.')).length '.' :=
    List.eq_replicate_of_mem fun c hc => by simpa using List.mem_takeWhile_imp hc
  constructor
  · rintro ⟨n, he, hr⟩
    have hall : ∀ c ∈ List.replicate n '.', decide (c = '.') = true := fun c hc =>
      decide_eq_true (List.eq_of_mem_replicate hc)
    have hself : r.toList.dropWhile (· = '.') = r.toList := by
      cases hlist : r.toList with
      | nil => rfl
      | cons c cs =>
        rw [hlist, List.head?_cons, Ne, Option.some.injEq] at hr
        exact List.dropWhile_cons_of_neg (by simpa using hr)
    rw [withoutDots, he, List.dropWhile_append_of_pos hall, hself, String.ofList_toList]
  · rintro rfl
    refine ⟨(e.toList.takeWhile (· = '.')).length, ?_, ?_⟩
    · rw [← hdots, withoutDots, String.toList_ofList, List.takeWhile_append_dropWhile]
    · rw [withoutDots, String.toList_ofList]
      intro h
      have hnot := List.head?_dropWhile_not (· = '.') e.toList
      simp [h] at hnot

def Given.IsNamed (g : Given) : Prop :=
  ∀ name ∈ g.messages.map (·.1), ∃ k : MessageKind, k.Names name

/-! Settings told anew. -/

inductive Override
  | severity (severity : Severity)
  | text (kind : MessageKind) (text : String)

namespace Override

def severity? : Override → Option Severity
  | severity v => some v
  | text _ _ => none

def text? (k : MessageKind) : Override → Option String
  | severity _ => none
  | text l x => if k = l then some x else none

end Override

def override (s : Settings) : Override → Settings
  | .severity v => s.withSeverity v
  | .text k x => s.withText k x

def overridden (s : Settings) (os : List Override) : Settings := os.foldl override s

def lastTold? {α : Type} (told? : Override → Option α) (os : List Override) : Option α :=
  (os.filterMap told?).getLast?

section

variable {α : Type} {s : Settings} {o : Override} {os : List Override} {told? : Override → Option α}

theorem lastTold?_cons : lastTold? told? (o :: os) = (lastTold? told? os).or (told? o) := by
  unfold lastTold?
  cases h : told? o with
  | none => rw [List.filterMap_cons_none h, Option.or_none]
  | some a =>
    rw [List.filterMap_cons_some h, List.getLast?_cons]
    cases (os.filterMap told?).getLast? <;> rfl

theorem overridden_cons : s.overridden (o :: os) = (s.override o).overridden os := rfl

theorem overridden_severity : (s.overridden os).severity = (lastTold? Override.severity? os).getD s.severity := by
  induction os generalizing s with
  | nil => rfl
  | cons o os ih =>
    rw [overridden_cons, ih, lastTold?_cons]
    cases lastTold? Override.severity? os with
    | some v => rfl
    | none => cases o <;> rfl

theorem overridden_text? (k : MessageKind) :
    (s.overridden os).text? k = (lastTold? (Override.text? k) os).or (s.text? k) := by
  induction os generalizing s with
  | nil => rfl
  | cons o os ih =>
    rw [overridden_cons, ih, lastTold?_cons, Option.or_assoc]
    congr 1
    cases o with
    | severity v => rfl
    | text l x => by_cases hk : k = l <;> simp [override, withText, Override.text?, hk]

theorem overridden_extensions : (s.overridden os).extensions = s.extensions := by
  induction os generalizing s with
  | nil => rfl
  | cons o os ih =>
    rw [overridden_cons, ih]
    cases o <;> rfl

end

/-- The settings are as the document gives them but for what is told anew. What is in neither is as it is without
a document. -/
structure Given.Makes (g : Given) (os : List Override) (s : Settings) : Prop where
  severity : s.severity = (lastTold? Override.severity? os).getD (g.severity?.getD .error)
  told : ∀ k x, lastTold? (Override.text? k) os = some x → s.text k = x
  given : ∀ k, lastTold? (Override.text? k) os = none → (∃ name ∈ g.messages.map (·.1), k.Names name) →
    Gives g.messages k (s.text k)
  neither : ∀ k, lastTold? (Override.text? k) os = none → (∀ name ∈ g.messages.map (·.1), ¬ k.Names name) →
    s.text k = k.defaultText
  extensions : List.Forall₂ IsUndotted g.extensions s.extensions

section

variable {g : Given} {s : Settings} {e : SettingsError}

theorem isNamed_iff : g.IsNamed ↔ ∀ name ∈ g.messages.map (·.1), ¬ MessageKind.Unnamed name :=
  forall₂_congr fun _ _ => not_forall_not.symm

theorem not_isNamed_iff : ¬ g.IsNamed ↔ ∃ name, IsLeastUnnamed g.messages name := by
  rw [isNamed_iff]
  constructor
  · intro h
    cases hfold : (sortedByName g.messages).foldlM applyText default with
    | ok t => exact absurd (applyText_sorted_eq_ok_iff.1 hfold).1 h
    | error u =>
      obtain ⟨name, hname, -⟩ := applyText_sorted_eq_error_iff.1 hfold
      exact ⟨name, hname⟩
  · rintro ⟨name, hname⟩ h
    exact h name hname.given hname.unnamed

theorem extensions_isEmpty_iff : g.extensions.isEmpty ↔ g.extensions? = some [] := by
  obtain ⟨_, _, _ | _⟩ := g <;> simp [Given.extensions]

theorem ofWritten_eq_ok_iff : ofWritten g.written = .ok s ↔ g.IsNamed ∧ g.extensions? ≠ some [] ∧
    s = ⟨g.severity?.getD .error, fun k => lastText? k.Names (sortedByName g.messages),
      g.extensions.map withoutDots⟩ := by
  have hbare := @applyText_sorted_eq_ok_iff g.messages
    ⟨g.severity?.getD .error, fun _ => none, g.extensions.map withoutDots⟩
  simp only [Option.or_none, ← isNamed_iff] at hbare
  rw [Ne, ← extensions_isEmpty_iff]
  unfold ofWritten Given.written
  dsimp only
  split
  next u hu =>
    constructor
    · intro h
      cases h
    · rintro ⟨hnamed, -⟩
      cases hu.symm.trans (hbare.2 ⟨hnamed, rfl⟩)
  next t ht =>
    obtain ⟨hnamed, rfl⟩ := hbare.1 ht
    split
    next hempty => simp [hempty]
    next hsome => simp [hnamed, hsome, eq_comm]

theorem ofWritten_eq_error_iff : ofWritten g.written = .error e ↔
    (∃ name, IsLeastUnnamed g.messages name ∧ e = .unknown (.messageTag name)) ∨
      g.IsNamed ∧ g.extensions? = some [] ∧ e = .noExtensions := by
  rw [← extensions_isEmpty_iff]
  unfold ofWritten Given.written
  dsimp only
  split
  next u hu =>
    obtain ⟨name, hname, rfl⟩ := applyText_sorted_eq_error_iff.1 hu
    have hnot : ¬ g.IsNamed := not_isNamed_iff.2 ⟨name, hname⟩
    constructor
    · rintro ⟨⟩
      exact .inl ⟨name, hname, rfl⟩
    · rintro (⟨other, hother, rfl⟩ | ⟨hnamed, -⟩)
      · rw [hname.unique hother]
      · exact absurd hnamed hnot
  next t ht =>
    have hnamed : g.IsNamed := isNamed_iff.2 (applyText_sorted_eq_ok_iff.1 ht).1
    have hnone (name : String) : ¬ IsLeastUnnamed g.messages name := fun hname =>
      not_isNamed_iff.2 ⟨name, hname⟩ hnamed
    split
    next hempty => simp [hempty, hnamed, hnone, eq_comm]
    next hsome => simp [hsome, hnone]

theorem makes_of_ofWritten {os : List Override} (h : ofWritten g.written = .ok s) : g.Makes os (s.overridden os) := by
  obtain ⟨-, -, hs⟩ := ofWritten_eq_ok_iff.1 h
  have hseverity : s.severity = g.severity?.getD .error := by rw [hs]
  have htext (k : MessageKind) : s.text? k = lastText? k.Names (sortedByName g.messages) := by rw [hs]
  have hextensions : s.extensions = g.extensions.map withoutDots := by rw [hs]
  refine ⟨?_, fun k x hx => ?_, fun k hnone hk => ?_, fun k hnone hk => ?_, ?_⟩
  · rw [overridden_severity, hseverity]
  · rw [text, overridden_text?, hx]
    rfl
  · obtain ⟨x, hx⟩ := exists_lastText? hk
    rw [text, overridden_text?, hnone, htext, hx]
    exact lastText?_eq_some_iff_gives.1 hx
  · have hempty : lastText? k.Names (sortedByName g.messages) = none :=
      lastText?_eq_none_iff.2 fun name hname => hk name (mem_names_sortedByName.1 hname)
    rw [text, overridden_text?, hnone, htext, hempty]
    rfl
  · rw [overridden_extensions, hextensions, List.forall₂_map_right_iff]
    exact List.forall₂_same.2 fun e _ => isUndotted_iff.2 rfl

theorem ofWritten_congr {w w' : Written} (hseverity : w.severity = w'.severity)
    (hmessages : ∀ name, lastText? (· = name) w.messages = lastText? (· = name) w'.messages)
    (hextensions : w.extensions = w'.extensions) : ofWritten w = ofWritten w' := by
  unfold ofWritten
  dsimp only
  rw [hseverity, hextensions, foldlM_sortedByName_congr hmessages]

end

/-- What is read of a document, and what is told anew on top of it. In what order the names stand does not matter:
two documents with the same last text under each name are read alike. -/
theorem read_laws {source : List Char} {g : Given} (h : g.ReadFrom source) :
    ((∃ s, read source = .ok s) ↔ g.IsNamed ∧ g.extensions? ≠ some []) ∧
      (∀ e, read source = .error e ↔
        (∃ name, IsLeastUnnamed g.messages name ∧ e = .unknown (.messageTag name)) ∨
          g.IsNamed ∧ g.extensions? = some [] ∧ e = .noExtensions) ∧
      (∀ s, read source = .ok s → ∀ os, g.Makes os (s.overridden os)) ∧
      ∀ (source' : List Char) (g' : Given), g'.ReadFrom source' → g'.severity? = g.severity? →
        g'.extensions? = g.extensions? →
        (∀ name, lastText? (· = name) g'.messages = lastText? (· = name) g.messages) →
          read source' = read source := by
  rw [read_of_readFrom h]
  refine ⟨?_, fun e => ofWritten_eq_error_iff, fun s hs os => makes_of_ofWritten hs, ?_⟩
  · constructor
    · rintro ⟨s, hs⟩
      obtain ⟨hnamed, hsome, -⟩ := ofWritten_eq_ok_iff.1 hs
      exact ⟨hnamed, hsome⟩
    · rintro ⟨hnamed, hsome⟩
      exact ⟨_, ofWritten_eq_ok_iff.2 ⟨hnamed, hsome, rfl⟩⟩
  · intro source' g' h' hseverity hextensions hmessages
    rw [read_of_readFrom h']
    exact ofWritten_congr (congrArg (·.getD .error) hseverity) hmessages
      (congrArg (·.getD ["java"]) hextensions)

/-- A text for a message under each of its names, and nothing else. -/
def Given.twofold (k : MessageKind) : Given := ⟨none, some [(k.tag, "a"), (k.key, "b")], none⟩

theorem Given.isNamed_twofold (k : MessageKind) : (twofold k).IsNamed :=
  List.forall_mem_cons.2 ⟨⟨k, .inl rfl⟩, List.forall_mem_singleton.2 ⟨k, .inr rfl⟩⟩

theorem Given.extensions?_twofold (k : MessageKind) : (twofold k).extensions? ≠ some [] := nofun

theorem Given.readFrom_twofold (k : MessageKind) (full : String) (hfull : k.key = full) {source : List Char}
    (h : Json.read? source = some (.object [("messages".toList, .object [(k.tag.toList, .string "a".toList),
      (full.toList, .string "b".toList)])])) : (twofold k).ReadFrom source := by
  subst hfull
  refine ⟨_, h, Given.isIn_messages ?_⟩
  cases k <;> rfl

theorem read_laws_constructor : ∃ s,
    read "\x7b\"messages\":\x7b\"constructor\":\"a\",\"declaration.order.constructor\":\"b\"\x7d\x7d".toList =
      .ok s ∧ s.text .constructor = "b" ∧ (s.overridden [.text .constructor "c"]).text .constructor = "c" := by
  have hgreatest : IsGreatestName .constructor [("constructor", "a"), ("declaration.order.constructor", "b")]
      "declaration.order.constructor" := ⟨by decide, by decide, by decide⟩
  have hconstructor : (Given.twofold .constructor).ReadFrom
      "\x7b\"messages\":\x7b\"constructor\":\"a\",\"declaration.order.constructor\":\"b\"\x7d\x7d".toList :=
    Given.readFrom_twofold .constructor "declaration.order.constructor" rfl (by cbv)
  obtain ⟨hok, -, hmakes, -⟩ := read_laws hconstructor
  obtain ⟨s, hs⟩ := hok.2 ⟨Given.isNamed_twofold .constructor, Given.extensions?_twofold .constructor⟩
  obtain ⟨name, hname, htext⟩ := (hmakes s hs []).given .constructor rfl ⟨"constructor", by decide, by decide⟩
  rw [hname.unique hgreatest] at htext
  exact ⟨s, hs, (Option.some.inj htext).symm, (hmakes s hs [.text .constructor "c"]).told .constructor "c" rfl⟩

end MemberOrder.Settings
