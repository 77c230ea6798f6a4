import MemberOrder.Proofs.Settings.Overrides
/-! Which files found under a directory are checked, by the extensions given. An extension is looked for behind the
last dot of a name only, so one with a dot in it is never found. Main statement: `accepts_laws`. -/
namespace MemberOrder

namespace Path

/-- The name of the path ends in a dot and an extension, and has something in front of them. -/
def EndsIn (p : Path) (e : List Char) : Prop := ∃ stem, stem ≠ [] ∧ p.fileName? = some (stem ++ '.' :: e)

theorem extensionOf?_append {stem e : List Char} (hstem : stem ≠ []) (he : '.' ∉ e) :
    extensionOf? (stem ++ '.' :: e) = some e := by
  have hafter : ((stem ++ '.' :: e).reverse.takeWhile (· ≠ '.')).reverse = e := by
    have hall : ∀ c ∈ e.reverse, decide (c ≠ '.') = true := fun c hc =>
      decide_eq_true fun heq => he (heq ▸ List.mem_reverse.1 hc)
    rw [List.reverse_append, List.reverse_cons, List.append_assoc, List.takeWhile_append_of_pos hall]
    simp
  have hlength : e.length + 1 < (stem ++ '.' :: e).length := by
    have hpos := List.length_pos_iff.2 hstem
    simp only [List.length_append, List.length_cons]
    omega
  unfold extensionOf?
  dsimp only
  rw [hafter, if_pos hlength]

theorem exists_of_extensionOf? {name e : List Char} (h : extensionOf? name = some e) :
    ∃ stem, stem ≠ [] ∧ name = stem ++ '.' :: e ∧ '.' ∉ e := by
  unfold extensionOf? at h
  dsimp only at h
  split_ifs at h with hlength
  obtain rfl := Option.some.inj h
  have hname : name.reverse = name.reverse.takeWhile (· ≠ '.') ++ name.reverse.dropWhile (· ≠ '.') :=
    List.takeWhile_append_dropWhile.symm
  have hnot : '.' ∉ name.reverse.takeWhile (· ≠ '.') := fun hmem => by
    simpa using List.mem_takeWhile_imp hmem
  -- The first dot from behind, and what is left of the name in front of it.
  cases hrest : name.reverse.dropWhile (· ≠ '.') with
  | nil =>
    rw [hrest, List.append_nil] at hname
    rw [List.length_reverse, ← hname, List.length_reverse] at hlength
    omega
  | cons c stem =>
    have hdot := List.head?_dropWhile_not (· ≠ '.') name.reverse
    rw [hrest] at hdot hname
    obtain rfl : c = '.' := by simpa using hdot
    have hlen := congrArg List.length hname
    simp only [List.length_reverse, List.length_append, List.length_cons] at hlength hlen
    refine ⟨stem.reverse, fun hempty => ?_, ?_, by simpa using hnot⟩
    · rw [List.reverse_eq_nil_iff.1 hempty] at hlen
      simp only [List.length_nil] at hlen
      omega
    · conv_lhs => rw [← List.reverse_reverse name, hname]
      simp

theorem extension?_eq_some_iff {p : Path} {e : List Char} : p.extension? = some e ↔ p.EndsIn e ∧ '.' ∉ e := by
  unfold extension?
  rw [Option.bind_eq_some_iff]
  constructor
  · rintro ⟨name, hname, he⟩
    obtain ⟨stem, hstem, rfl, hnot⟩ := exists_of_extensionOf? he
    exact ⟨⟨stem, hstem, hname⟩, hnot⟩
  · rintro ⟨⟨stem, hstem, hname⟩, hnot⟩
    exact ⟨_, hname, extensionOf?_append hstem hnot⟩

end Path

namespace Settings

theorem accepts_iff {s : Settings} {p : Path} :
    s.accepts p ↔ ∃ e ∈ s.extensions, p.EndsIn e.toList ∧ '.' ∉ e.toList := by
  simp only [← Path.extension?_eq_some_iff]
  unfold accepts
  cases p.extension? with
  | none => simp
  | some e =>
    rw [List.any_eq_true]
    exact exists_congr fun w => and_congr_right' (by rw [decide_eq_true_iff, Option.some_inj, eq_comm])

/-- Of the extensions given, those with no dot but in front are looked for. If all are such, a file is checked just
where its name ends in one of them. -/
theorem accepts_laws {source : List Char} {s : Settings} (h : read source = .ok s) :
    (∃ g : Given, g.ReadFrom source) ∧ ∀ (g : Given), g.ReadFrom source → ∀ p : Path,
      (s.accepts p ↔ ∃ w ∈ g.extensions, ∃ e, IsUndotted w e ∧ p.EndsIn e.toList ∧ '.' ∉ e.toList) ∧
      ((∀ w ∈ g.extensions, ∀ e, IsUndotted w e → '.' ∉ e.toList) →
        (s.accepts p ↔ ∃ w ∈ g.extensions, ∃ e, IsUndotted w e ∧ p.EndsIn e.toList)) := by
  refine ⟨exists_readFrom h, fun g hg p => ?_⟩
  rw [read_of_readFrom hg] at h
  obtain ⟨-, -, hs⟩ := ofWritten_eq_ok_iff.1 h
  have hextensions : s.extensions = g.extensions.map withoutDots := by rw [hs]
  have haccepts : s.accepts p ↔
      ∃ w ∈ g.extensions, ∃ e, IsUndotted w e ∧ p.EndsIn e.toList ∧ '.' ∉ e.toList := by
    simp only [accepts_iff, hextensions, isUndotted_iff, List.mem_map, exists_exists_and_eq_and, exists_eq_left']
  refine ⟨haccepts, fun hnone => haccepts.trans ?_⟩
  refine exists_congr fun w => and_congr_right fun hw => exists_congr fun e => and_congr_right fun he => ?_
  exact and_iff_left (hnone w hw e he)

theorem read_extensions {source : List Char} {extensions : List String} (hne : extensions ≠ [])
    (h : Given.ReadFrom ⟨none, none, some extensions⟩ source) :
    read source = .ok ⟨.error, fun _ => none, extensions.map withoutDots⟩ := by
  have hnamed : Given.IsNamed ⟨none, none, some extensions⟩ := List.forall_mem_nil _
  refine (read_of_readFrom h).trans (ofWritten_eq_ok_iff.2 ⟨hnamed, by simpa using hne, ?_⟩)
  simp [Given.messages, Given.extensions, sortedByName, lastText?]

theorem accepts_laws_java : ∃ s, read "\x7b\"extensions\":[\".java\"]\x7d".toList = .ok s ∧
    s.accepts "src/Box.java".toList := by
  have h : Given.ReadFrom ⟨none, none, some [".java"]⟩ "\x7b\"extensions\":[\".java\"]\x7d".toList :=
    ⟨.object [("extensions".toList, .array [.string ".java".toList])], by cbv, Given.isIn_extensions rfl⟩
  have hread := read_extensions (List.cons_ne_nil _ _) h
  refine ⟨_, hread, (((accepts_laws hread).2 _ h _).1.2 ?_)⟩
  exact ⟨".java", List.mem_singleton.2 rfl, "java", isUndotted_iff.2 rfl, ⟨"Box".toList, by decide, by decide⟩,
    by decide⟩

/-- The name of a file ends in an extension that is given, and the file is not checked. -/
theorem tarGz_not_accepted : ∃ (g : Given) (s : Settings),
    g.ReadFrom "\x7b\"extensions\":[\"tar.gz\"]\x7d".toList ∧
      read "\x7b\"extensions\":[\"tar.gz\"]\x7d".toList = .ok s ∧
        (∃ w ∈ g.extensions, ∃ e, IsUndotted w e ∧ Path.EndsIn "a.tar.gz".toList e.toList) ∧
          ¬ s.accepts "a.tar.gz".toList := by
  have h : Given.ReadFrom ⟨none, none, some ["tar.gz"]⟩ "\x7b\"extensions\":[\"tar.gz\"]\x7d".toList :=
    ⟨.object [("extensions".toList, .array [.string "tar.gz".toList])], by cbv, Given.isIn_extensions rfl⟩
  refine ⟨_, _, h, read_extensions (List.cons_ne_nil _ _) h, ?_, by decide⟩
  exact ⟨"tar.gz", List.mem_singleton.2 rfl, "tar.gz", isUndotted_iff.2 rfl, "a".toList, by decide, by decide⟩

end Settings

end MemberOrder
