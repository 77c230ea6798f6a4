import Mathlib.Data.List.Basic
import Mathlib.Tactic.SplitIfs
import MemberOrder.Settings
/-! Documents with settings: an object of up to three parts, or an array of them, in which each part can be left
out. Main statements: what is read is what such a document gives (`read_of_readFrom`), and every other text is
refused (`read_malformed_iff`). -/
namespace MemberOrder.Settings

/-- What a document says of the settings, part by part. -/
structure Given where
  severity? : Option Severity
  messages? : Option (List (String × String))
  extensions? : Option (List String)

namespace Given

def messages (g : Given) : List (String × String) := g.messages?.getD []

def extensions (g : Given) : List String := g.extensions?.getD ["java"]

def written (g : Given) : Written := ⟨g.severity?.getD .error, g.messages, g.extensions⟩

structure PartsAre (g : Given) (severity? messages? extensions? : Option Json) : Prop where
  severity : Option.Rel (fun v a => Severity.ofJson? v = some a) severity? g.severity?
  messages : Option.Rel (fun v a => Written.messages? v = some a) messages? g.messages?
  extensions : Option.Rel (fun v a => Written.extensions? v = some a) extensions? g.extensions?

end Given

def field? (fields : List (List Char × Json)) (name : String) : Option Json :=
  (fields.find? fun f => String.ofList f.1 == name).map (·.2)

inductive Given.IsIn (g : Given) : Json → Prop
  | object {fields} (known : ∀ f ∈ fields, String.ofList f.1 ∈ Written.partNames)
      (once : (fields.map fun f => String.ofList f.1).Nodup)
      (parts : g.PartsAre (field? fields "severity") (field? fields "messages") (field? fields "extensions")) :
      g.IsIn (.object fields)
  | array {items} (few : items.length ≤ 3) (parts : g.PartsAre items[0]? items[1]? items[2]?) :
      g.IsIn (.array items)

theorem Given.isIn_messages {v : Json} {messages : List (String × String)}
    (h : Written.messages? v = some messages) :
    Given.IsIn ⟨none, some messages, none⟩ (.object [("messages".toList, v)]) :=
  .object (by simp [Written.partNames]) (by simp) ⟨.none, .some h, .none⟩

theorem Given.isIn_extensions {v : Json} {extensions : List String}
    (h : Written.extensions? v = some extensions) :
    Given.IsIn ⟨none, none, some extensions⟩ (.object [("extensions".toList, v)]) :=
  .object (by simp [Written.partNames]) (by simp) ⟨.none, .none, .some h⟩

def Given.ReadFrom (g : Given) (source : List Char) : Prop := ∃ j, Json.read? source = some j ∧ g.IsIn j

section

variable {α β : Type}

theorem elim_eq_some_iff {v? : Option Json} {read? : Json → Option α} {d a : α} :
    v?.elim (some d) read? = some a ↔ ∃ a?, Option.Rel (fun v a => read? v = some a) v? a? ∧ a?.getD d = a := by
  cases v? with
  | none =>
    constructor
    · intro h
      exact ⟨none, .none, Option.some.inj h⟩
    · rintro ⟨a?, ⟨⟩, rfl⟩
      rfl
  | some v =>
    constructor
    · intro h
      exact ⟨some a, .some h, rfl⟩
    · rintro ⟨a?, hv, rfl⟩
      cases hv with
      | some hv => exact hv

theorem length_eraseDups_le [BEq α] [LawfulBEq α] (as : List α) : as.eraseDups.length ≤ as.length := by
  induction hn : as.length using Nat.strongRecOn generalizing as with
  | ind n ih =>
    subst hn
    cases as with
    | nil => exact Nat.le_refl _
    | cons a as =>
      rw [List.eraseDups_cons, List.length_cons, List.length_cons]
      have hfilter := List.length_filter_le (fun b => !b == a) as
      have hrest := ih _ (by rw [List.length_cons]; omega) (as.filter fun b => !b == a) rfl
      omega

theorem length_eraseDups_eq_iff [BEq α] [LawfulBEq α] {as : List α} :
    as.eraseDups.length = as.length ↔ as.Nodup := by
  induction as with
  | nil => simp
  | cons a as ih =>
    have hself : as.filter (fun b => !b == a) = as ↔ a ∉ as := by
      rw [List.filter_eq_self]
      constructor
      · intro h ha
        simpa using h a ha
      · intro h b hb
        have hne : b ≠ a := fun heq => h (heq ▸ hb)
        simpa using hne
    rw [List.eraseDups_cons, List.length_cons, List.length_cons, List.nodup_cons, ← ih, ← hself]
    constructor
    · intro h
      have hfilter := List.length_filter_le (fun b => !b == a) as
      have hrest := length_eraseDups_le (as.filter fun b => !b == a)
      have hall : as.filter (fun b => !b == a) = as := List.filter_sublist.eq_of_length (by omega)
      rw [hall] at h
      exact ⟨hall, by omega⟩
    · rintro ⟨hall, h⟩
      rw [hall, h]

end

theorem ofParts?_eq_some_iff {severity? messages? extensions? : Option Json} {w : Written} :
    Written.ofParts? severity? messages? extensions? = some w ↔
      ∃ g : Given, g.PartsAre severity? messages? extensions? ∧ w = g.written := by
  simp only [Written.ofParts?, Option.bind_eq_bind, Option.bind_eq_some_iff, elim_eq_some_iff]
  constructor
  · rintro ⟨_, ⟨s?, hs, rfl⟩, _, ⟨m?, hm, rfl⟩, _, ⟨e?, he, rfl⟩, hw⟩
    exact ⟨⟨s?, m?, e?⟩, ⟨hs, hm, he⟩, (Option.some.inj hw).symm⟩
  · rintro ⟨g, hg, rfl⟩
    exact ⟨_, ⟨_, hg.severity, rfl⟩, _, ⟨_, hg.messages, rfl⟩, _, ⟨_, hg.extensions, rfl⟩, rfl⟩

theorem ofJson?_object {fields : List (List Char × Json)} {w : Written} :
    Written.ofJson? (.object fields) = some w ↔ (∀ f ∈ fields, String.ofList f.1 ∈ Written.partNames) ∧
      (fields.map fun f => String.ofList f.1).Nodup ∧
      Written.ofParts? (field? fields "severity") (field? fields "messages") (field? fields "extensions") =
        some w := by
  have hknown : (fields.map fun f => String.ofList f.1).all Written.partNames.contains ↔
      ∀ f ∈ fields, String.ofList f.1 ∈ Written.partNames := by simp
  have honce : decide ((fields.map fun f => String.ofList f.1).eraseDups.length =
      (fields.map fun f => String.ofList f.1).length) ↔ (fields.map fun f => String.ofList f.1).Nodup := by
    rw [decide_eq_true_iff, length_eraseDups_eq_iff]
  rw [← hknown, ← honce, ← and_assoc, ← Bool.and_eq_true]
  unfold Written.ofJson?
  dsimp only
  split
  next h => rw [and_iff_right h]; rfl
  next h => simp only [h, false_and, reduceCtorEq]

theorem ofJson?_array {items : List Json} {w : Written} :
    Written.ofJson? (.array items) = some w ↔
      items.length ≤ 3 ∧ Written.ofParts? items[0]? items[1]? items[2]? = some w := by
  unfold Written.ofJson?
  dsimp only
  split
  next h => rw [and_iff_right h]
  next h => simp only [h, false_and, reduceCtorEq]

theorem ofJson?_eq_some_iff {j : Json} {w : Written} :
    Written.ofJson? j = some w ↔ ∃ g : Given, g.IsIn j ∧ w = g.written := by
  constructor
  · intro h
    cases j with
    | object fields =>
      obtain ⟨hknown, honce, hparts⟩ := ofJson?_object.1 h
      obtain ⟨g, hg, hw⟩ := ofParts?_eq_some_iff.1 hparts
      exact ⟨g, .object hknown honce hg, hw⟩
    | array items =>
      obtain ⟨hfew, hparts⟩ := ofJson?_array.1 h
      obtain ⟨g, hg, hw⟩ := ofParts?_eq_some_iff.1 hparts
      exact ⟨g, .array hfew hg, hw⟩
    | _ => cases h
  · rintro ⟨g, hg, rfl⟩
    cases hg with
    | object hknown honce hparts =>
      exact ofJson?_object.2 ⟨hknown, honce, ofParts?_eq_some_iff.2 ⟨g, hparts, rfl⟩⟩
    | array hfew hparts => exact ofJson?_array.2 ⟨hfew, ofParts?_eq_some_iff.2 ⟨g, hparts, rfl⟩⟩

variable {source : List Char} {g : Given}

theorem read_of_readFrom (h : g.ReadFrom source) : read source = ofWritten g.written := by
  obtain ⟨j, hj, hg⟩ := h
  have hw : (Json.read? source).bind Written.ofJson? = some g.written := by
    rw [hj, Option.bind_some]
    exact ofJson?_eq_some_iff.2 ⟨g, hg, rfl⟩
  rw [read, hw]

theorem ofWritten_ne_malformed (w : Written) : ofWritten w ≠ .error .malformed := by
  unfold ofWritten
  dsimp only
  split
  · nofun
  · split <;> nofun

/-- A text is refused as a whole just where no document is in it. -/
theorem read_malformed_iff : read source = .error .malformed ↔ ∀ g : Given, ¬ g.ReadFrom source := by
  constructor
  · intro h g hg
    rw [read_of_readFrom hg] at h
    exact ofWritten_ne_malformed g.written h
  · intro h
    unfold read
    split
    next => rfl
    next w hw =>
      obtain ⟨j, hj, hjw⟩ := Option.bind_eq_some_iff.1 hw
      obtain ⟨g, hg, -⟩ := ofJson?_eq_some_iff.1 hjw
      exact absurd ⟨j, hj, hg⟩ (h g)

theorem exists_readFrom {s : Settings} (h : read source = .ok s) : ∃ g : Given, g.ReadFrom source := by
  by_contra hnone
  rw [read_malformed_iff.2 fun g hg => hnone ⟨g, hg⟩] at h
  cases h

end MemberOrder.Settings
