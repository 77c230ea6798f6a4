import MemberOrder.Proofs.Files.Ordered
import MemberOrder.Proofs.Text.Bytes
import MemberOrder.Settings
/-! Texts for messages, each given under a name. They are taken in the order of the names, so the text that
counts for a message is the last one under the greatest of its names (`lastText?_eq_some_iff_gives`), and the
unknown name that is told is the smallest (`applyText_sorted_eq_error_iff`). -/
namespace MemberOrder

namespace MessageKind

def Names (k : MessageKind) (name : String) : Prop := name = k.tag ∨ name = k.key

instance (k : MessageKind) : DecidablePred k.Names := fun name =>
  inferInstanceAs (Decidable (name = k.tag ∨ name = k.key))

theorem tag_injective : Function.Injective tag := by
  intro k l h
  cases k <;> cases l <;> simp [tag] at h ⊢

theorem key_injective : Function.Injective key := fun _ _ h =>
  tag_injective ((String.append_right_inj _).1 h)

theorem tag_ne_key (k l : MessageKind) : k.tag ≠ l.key := by
  cases k <;> cases l <;> decide

theorem names_unique {k l : MessageKind} {name : String} (hk : k.Names name) (hl : l.Names name) : k = l := by
  obtain rfl | rfl := hk
  · obtain h | h := hl
    · exact tag_injective h
    · exact absurd h (tag_ne_key k l)
  · obtain h | h := hl
    · exact absurd h.symm (tag_ne_key l k)
    · exact key_injective h

theorem ofTag_eq_ok_iff {name : String} {k : MessageKind} : ofTag name = .ok k ↔ k.Names name := by
  have htest (l : MessageKind) : (l.tag == name || l.key == name) = true ↔ l.Names name := by
    rw [Bool.or_eq_true, beq_iff_eq, beq_iff_eq]
    exact or_congr eq_comm eq_comm
  unfold ofTag
  split
  next l hl =>
    have htrue := List.find?_some hl
    have hnames : l.Names name := (htest l).1 htrue
    constructor
    · rintro ⟨⟩
      exact hnames
    · intro hk
      rw [names_unique hk hnames]
  next hnone =>
    constructor
    · nofun
    · intro hk
      exact absurd ((htest k).2 hk) (List.find?_eq_none.1 hnone k (mem_all k))

def Unnamed (name : String) : Prop := ∀ k : MessageKind, ¬ k.Names name

theorem ofTag_eq_error_iff {name : String} {u : Unknown} :
    ofTag name = .error u ↔ Unnamed name ∧ u = .messageTag name := by
  constructor
  · intro h
    refine ⟨fun k hk => ?_, ?_⟩
    · rw [ofTag_eq_ok_iff.2 hk] at h
      cases h
    · unfold ofTag at h
      split at h
      · cases h
      · exact (Except.error.inj h).symm
  · rintro ⟨hnone, rfl⟩
    cases h : ofTag name with
    | ok k => exact absurd (ofTag_eq_ok_iff.1 h) (hnone k)
    | error u =>
      unfold ofTag at h
      split at h
      · cases h
      · exact h.symm

end MessageKind

namespace Settings

def lastText? (p : String → Prop) [DecidablePred p] (es : List (String × String)) : Option String :=
  ((es.filter fun e => decide (p e.1)).getLast?).map (·.2)

section

variable {p : String → Prop} [DecidablePred p] {e : String × String} {es : List (String × String)}
  {s t : Settings} {u : Unknown}

theorem lastText?_cons : lastText? p (e :: es) = (lastText? p es).or (if p e.1 then some e.2 else none) := by
  unfold lastText?
  by_cases h : p e.1
  · rw [List.filter_cons_of_pos (by simpa using h), List.getLast?_cons, if_pos h]
    cases (es.filter fun e => decide (p e.1)).getLast? <;> rfl
  · rw [List.filter_cons_of_neg (by simpa using h), if_neg h, Option.or_none]

theorem lastText?_eq_none_iff : lastText? p es = none ↔ ∀ name ∈ es.map (·.1), ¬ p name := by
  unfold lastText?
  simp

theorem applyText_of_names {k : MessageKind} (h : k.Names e.1) : applyText s e = .ok (s.withText k e.2) := by
  rw [applyText, MessageKind.ofTag_eq_ok_iff.2 h]
  rfl

theorem applyText_of_unnamed (h : MessageKind.Unnamed e.1) : applyText s e = .error (.messageTag e.1) := by
  rw [applyText, MessageKind.ofTag_eq_error_iff.2 ⟨h, rfl⟩]
  rfl

theorem foldlM_applyText_of_names {k : MessageKind} (h : k.Names e.1) :
    (e :: es).foldlM applyText s = es.foldlM applyText (s.withText k e.2) := by
  rw [List.foldlM_cons, applyText_of_names h]
  rfl

theorem foldlM_applyText_of_unnamed (h : MessageKind.Unnamed e.1) :
    (e :: es).foldlM applyText s = .error (.messageTag e.1) := by
  rw [List.foldlM_cons, applyText_of_unnamed h]
  rfl

theorem withText_or {k : MessageKind} (h : k.Names e.1) (l : MessageKind) :
    (lastText? l.Names es).or ((s.withText k e.2).text? l) = (lastText? l.Names (e :: es)).or (s.text? l) := by
  rw [lastText?_cons, Option.or_assoc]
  congr 1
  by_cases hl : l = k
  · simp [withText, hl, h]
  · have hnot : ¬ l.Names e.1 := fun hnames => hl (MessageKind.names_unique hnames h)
    simp [withText, hl, hnot]

theorem foldlM_applyText_eq_ok_iff : es.foldlM applyText s = .ok t ↔
    (∀ e ∈ es, ¬ MessageKind.Unnamed e.1) ∧
      t = { s with text? := fun k => (lastText? k.Names es).or (s.text? k) } := by
  induction es generalizing s with
  | nil =>
    have hself : { s with text? := fun k => (lastText? k.Names []).or (s.text? k) } = s := rfl
    rw [hself, List.foldlM_nil]
    constructor
    · rintro ⟨⟩
      exact ⟨nofun, rfl⟩
    · rintro ⟨-, rfl⟩
      rfl
  | cons e es ih =>
    rw [List.forall_mem_cons]
    by_cases hunnamed : MessageKind.Unnamed e.1
    · rw [foldlM_applyText_of_unnamed hunnamed]
      constructor
      · nofun
      · intro h
        exact absurd hunnamed h.1.1
    · obtain ⟨k, hk⟩ : ∃ k : MessageKind, k.Names e.1 := not_forall_not.1 hunnamed
      rw [foldlM_applyText_of_names hk, ih, funext (withText_or hk), and_iff_right hunnamed]
      rfl

theorem foldlM_applyText_eq_error_iff : es.foldlM applyText s = .error u ↔ ∃ before e after,
    es = before ++ e :: after ∧ (∀ d ∈ before, ¬ MessageKind.Unnamed d.1) ∧ MessageKind.Unnamed e.1 ∧
      u = .messageTag e.1 := by
  induction es generalizing s with
  | nil =>
    constructor
    · nofun
    · rintro ⟨before, e, after, hes, -⟩
      cases before <;> cases hes
  | cons e es ih =>
    by_cases hunnamed : MessageKind.Unnamed e.1
    · rw [foldlM_applyText_of_unnamed hunnamed]
      constructor
      · rintro ⟨⟩
        exact ⟨[], e, es, rfl, nofun, hunnamed, rfl⟩
      · rintro ⟨before, d, after, hes, hbefore, hd, rfl⟩
        cases before with
        | nil =>
          cases hes
          rfl
        | cons b before =>
          cases hes
          exact absurd hunnamed (hbefore e List.mem_cons_self)
    · obtain ⟨k, hk⟩ : ∃ k : MessageKind, k.Names e.1 := not_forall_not.1 hunnamed
      rw [foldlM_applyText_of_names hk, ih]
      constructor
      · rintro ⟨before, d, after, rfl, hbefore, hd⟩
        exact ⟨e :: before, d, after, rfl, List.forall_mem_cons.2 ⟨hunnamed, hbefore⟩, hd⟩
      · rintro ⟨before, d, after, hes, hbefore, hd⟩
        cases before with
        | nil =>
          cases hes
          exact absurd hd.1 hunnamed
        | cons b before =>
          cases hes
          exact ⟨before, d, after, rfl, (List.forall_mem_cons.1 hbefore).2, hd⟩

end

/-! The order of the names. -/

def nameNotAfter (a b : String × String) : Bool := ¬ b.1 < a.1

theorem nameNotAfter_iff {a b : String × String} : nameNotAfter a b ↔ codeUnits a.1 ≤ codeUnits b.1 := by
  rw [nameNotAfter, decide_eq_true_iff, ← codeUnits_lt_iff, not_lt]

theorem nameNotAfter_trans (a b c : String × String) (hab : nameNotAfter a b) (hbc : nameNotAfter b c) :
    nameNotAfter a c :=
  nameNotAfter_iff.2 ((nameNotAfter_iff.1 hab).trans (nameNotAfter_iff.1 hbc))

theorem nameNotAfter_total (a b : String × String) : (nameNotAfter a b || nameNotAfter b a) = true := by
  rw [Bool.or_eq_true, nameNotAfter_iff, nameNotAfter_iff]
  exact le_total (codeUnits a.1) (codeUnits b.1)

variable {es : List (String × String)}

theorem sortedByName_perm (es : List (String × String)) : (sortedByName es).Perm es :=
  List.mergeSort_perm es _

theorem sortedByName_pairwise (es : List (String × String)) :
    (sortedByName es).Pairwise fun a b => codeUnits a.1 ≤ codeUnits b.1 :=
  (List.pairwise_mergeSort nameNotAfter_trans nameNotAfter_total es).imp nameNotAfter_iff.1

theorem lastText?_sortedByName (name : String) (es : List (String × String)) :
    lastText? (· = name) (sortedByName es) = lastText? (· = name) es := by
  have hfilter : (sortedByName es).filter (fun e => decide (e.1 = name)) =
      es.filter fun e => decide (e.1 = name) :=
    filter_mergeSort_tied nameNotAfter_trans nameNotAfter_total (fun a b ha hb => by
      rw [nameNotAfter_iff, of_decide_eq_true ha, of_decide_eq_true hb]) es
  rw [lastText?, lastText?, hfilter]

/-- The greatest of the names of a message under which there are texts, by its bytes. -/
structure IsGreatestName (k : MessageKind) (es : List (String × String)) (name : String) : Prop where
  names : k.Names name
  given : name ∈ es.map (·.1)
  greatest : ∀ other ∈ es.map (·.1), k.Names other → codeUnits other ≤ codeUnits name

/-- The text for a message is the one under the greatest of its names. Under a name that is repeated it is the
last one. -/
def Gives (es : List (String × String)) (k : MessageKind) (x : String) : Prop :=
  ∃ name, IsGreatestName k es name ∧ lastText? (· = name) es = some x

theorem IsGreatestName.unique {k : MessageKind} {name other : String} (h : IsGreatestName k es name)
    (h' : IsGreatestName k es other) : name = other :=
  codeUnits_injective (le_antisymm (h'.greatest name h.given h.names) (h.greatest other h'.given h'.names))

theorem mem_names_sortedByName {name : String} :
    name ∈ (sortedByName es).map (·.1) ↔ name ∈ es.map (·.1) :=
  ((sortedByName_perm es).map _).mem_iff

theorem exists_greatestName {k : MessageKind} {x : String} (h : lastText? k.Names (sortedByName es) = some x) :
    ∃ name, IsGreatestName k es name ∧ lastText? (· = name) (sortedByName es) = some x := by
  obtain ⟨e, he, rfl⟩ := Option.map_eq_some_iff.1 h
  obtain ⟨before, hfilter⟩ := List.getLast?_eq_some_iff.1 he
  have hmem : e ∈ (sortedByName es).filter fun e => decide (k.Names e.1) := by simp [hfilter]
  obtain ⟨hsorted, hnames⟩ := List.mem_filter.1 hmem
  have hk : k.Names e.1 := of_decide_eq_true hnames
  refine ⟨e.1, ⟨hk, mem_names_sortedByName.1 (List.mem_map_of_mem hsorted), fun other hother hkother => ?_⟩, ?_⟩
  · obtain ⟨d, hd, rfl⟩ := List.mem_map.1 (mem_names_sortedByName.2 hother)
    have hd : d ∈ before ++ [e] := by
      rw [← hfilter]
      exact List.mem_filter.2 ⟨hd, decide_eq_true hkother⟩
    obtain hd | hd := List.mem_append.1 hd
    · have hpairwise := (sortedByName_pairwise es).filter fun e => decide (k.Names e.1)
      rw [hfilter, List.pairwise_append] at hpairwise
      exact hpairwise.2.2 d hd e List.mem_cons_self
    · rw [List.mem_singleton.1 hd]
  · have hunder : (sortedByName es).filter (fun d => decide (d.1 = e.1)) =
        (before ++ [e]).filter fun d => decide (d.1 = e.1) := by
      rw [← hfilter, List.filter_filter]
      refine List.filter_congr fun d _ => ?_
      by_cases hd : d.1 = e.1
      · simp [hd, hk]
      · simp [hd]
    rw [lastText?, hunder, List.filter_append]
    simp

theorem lastText?_eq_some_iff_gives {k : MessageKind} {x : String} :
    lastText? k.Names (sortedByName es) = some x ↔ Gives es k x := by
  constructor
  · intro h
    obtain ⟨name, hname, htext⟩ := exists_greatestName h
    rw [lastText?_sortedByName] at htext
    exact ⟨name, hname, htext⟩
  · rintro ⟨name, hname, htext⟩
    cases hlast : lastText? k.Names (sortedByName es) with
    | none => exact absurd hname.names (lastText?_eq_none_iff.1 hlast name (mem_names_sortedByName.2 hname.given))
    | some y =>
      obtain ⟨other, hother, hy⟩ := exists_greatestName hlast
      rw [hother.unique hname, lastText?_sortedByName] at hy
      rw [← hy, htext]

theorem exists_lastText? {k : MessageKind} (h : ∃ name ∈ es.map (·.1), k.Names name) :
    ∃ x, lastText? k.Names (sortedByName es) = some x := by
  obtain ⟨name, hgiven, hname⟩ := h
  rw [← Option.ne_none_iff_exists']
  exact fun hnone => lastText?_eq_none_iff.1 hnone name (mem_names_sortedByName.2 hgiven) hname

/-- The smallest name, by its bytes, of those that name no message. -/
structure IsLeastUnnamed (es : List (String × String)) (name : String) : Prop where
  unnamed : MessageKind.Unnamed name
  given : name ∈ es.map (·.1)
  least : ∀ other ∈ es.map (·.1), MessageKind.Unnamed other → codeUnits name ≤ codeUnits other

theorem IsLeastUnnamed.unique {name other : String} (h : IsLeastUnnamed es name) (h' : IsLeastUnnamed es other) :
    name = other :=
  codeUnits_injective (le_antisymm (h.least other h'.given h'.unnamed) (h'.least name h.given h.unnamed))

theorem applyText_sorted_eq_error_iff {s : Settings} {u : Unknown} :
    (sortedByName es).foldlM applyText s = .error u ↔ ∃ name, IsLeastUnnamed es name ∧ u = .messageTag name := by
  have hleast {v : Unknown} (h : (sortedByName es).foldlM applyText s = .error v) :
      ∃ name, IsLeastUnnamed es name ∧ v = .messageTag name := by
    obtain ⟨before, e, after, hsorted, hbefore, hunnamed, rfl⟩ := foldlM_applyText_eq_error_iff.1 h
    have hpairwise := sortedByName_pairwise es
    rw [hsorted, List.pairwise_append, List.pairwise_cons] at hpairwise
    refine ⟨e.1, ⟨hunnamed, ?_, fun other hother hun => ?_⟩, rfl⟩
    · exact mem_names_sortedByName.1 (List.mem_map_of_mem (by simp [hsorted]))
    · obtain ⟨d, hd, rfl⟩ := List.mem_map.1 (mem_names_sortedByName.2 hother)
      rw [hsorted, List.mem_append, List.mem_cons] at hd
      obtain hd | rfl | hd := hd
      · exact absurd hun (hbefore d hd)
      · exact le_refl _
      · exact hpairwise.2.1.1 d hd
  constructor
  · exact hleast
  · rintro ⟨name, hname, rfl⟩
    cases h : (sortedByName es).foldlM applyText s with
    | error v =>
      obtain ⟨other, hother, rfl⟩ := hleast h
      rw [hother.unique hname]
    | ok t =>
      obtain ⟨e, he, rfl⟩ := List.mem_map.1 (mem_names_sortedByName.2 hname.given)
      exact absurd hname.unnamed ((foldlM_applyText_eq_ok_iff.1 h).1 e he)

theorem applyText_sorted_eq_ok_iff {s t : Settings} : (sortedByName es).foldlM applyText s = .ok t ↔
    (∀ name ∈ es.map (·.1), ¬ MessageKind.Unnamed name) ∧
      t = { s with text? := fun k => (lastText? k.Names (sortedByName es)).or (s.text? k) } := by
  rw [foldlM_applyText_eq_ok_iff,
    ← List.forall_mem_map (f := Prod.fst) (P := fun name => ¬ MessageKind.Unnamed name)]
  simp only [mem_names_sortedByName]

section

variable {fs : List (String × String)}

theorem IsGreatestName.congr {k : MessageKind} {name : String}
    (hnames : ∀ n, n ∈ es.map (·.1) ↔ n ∈ fs.map (·.1)) (h : IsGreatestName k es name) :
    IsGreatestName k fs name :=
  ⟨h.names, (hnames name).1 h.given, fun other hother => h.greatest other ((hnames other).2 hother)⟩

theorem IsLeastUnnamed.congr {name : String} (hnames : ∀ n, n ∈ es.map (·.1) ↔ n ∈ fs.map (·.1))
    (h : IsLeastUnnamed es name) : IsLeastUnnamed fs name :=
  ⟨h.unnamed, (hnames name).1 h.given, fun other hother => h.least other ((hnames other).2 hother)⟩

variable (h : ∀ name, lastText? (· = name) es = lastText? (· = name) fs)
include h

theorem mem_names_congr (name : String) : name ∈ es.map (·.1) ↔ name ∈ fs.map (·.1) := by
  have hnone (ds : List (String × String)) : lastText? (· = name) ds = none ↔ name ∉ ds.map (·.1) := by
    rw [lastText?_eq_none_iff, List.forall_mem_ne']
  rw [← not_iff_not, ← hnone, ← hnone, h name]

theorem gives_congr (k : MessageKind) (x : String) : Gives es k x ↔ Gives fs k x := by
  have hnames := mem_names_congr h
  refine exists_congr fun name => ?_
  rw [h name]
  exact and_congr_left' ⟨.congr hnames, .congr fun n => (hnames n).symm⟩

theorem foldlM_sortedByName_congr (s : Settings) :
    (sortedByName es).foldlM applyText s = (sortedByName fs).foldlM applyText s := by
  have hnames := mem_names_congr h
  cases hfs : (sortedByName fs).foldlM applyText s with
  | ok t =>
    obtain ⟨hnamed, rfl⟩ := applyText_sorted_eq_ok_iff.1 hfs
    have hlast (k : MessageKind) : lastText? k.Names (sortedByName es) = lastText? k.Names (sortedByName fs) :=
      Option.ext fun x => by
        rw [lastText?_eq_some_iff_gives, lastText?_eq_some_iff_gives, gives_congr h]
    simp only [← hlast]
    exact applyText_sorted_eq_ok_iff.2 ⟨fun name hname => hnamed name ((hnames name).1 hname), rfl⟩
  | error u =>
    obtain ⟨name, hname, rfl⟩ := applyText_sorted_eq_error_iff.1 hfs
    exact applyText_sorted_eq_error_iff.2 ⟨name, hname.congr fun n => (hnames n).symm, rfl⟩

end

end Settings

end MemberOrder
