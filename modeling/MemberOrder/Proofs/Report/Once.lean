import Mathlib.Data.List.Dedup
import MemberOrder.Proofs.Report.Accounts
/-! How often a file is told of. Files are collected by how they are written, not by where they are. So one
file can be collected twice, but only if its path goes up somewhere, or begins with a dot or at the root one
time and another time does not. Main statement: where no path does so, each file is collected once and each
finding told once (`collected_once`). -/
namespace MemberOrder

open FileTree World

namespace Path

variable {world : World} {p q : Path}

theorem foldl_follow_names (ns names : List (List Char)) :
    (ns.map Component.name).foldl Component.follow names = ns.reverse ++ names := by
  induction ns generalizing names with
  | nil => rfl
  | cons n ns ih => simp [Component.follow, ih]

theorem mem_steps {c : Component} (h : c ∈ p.steps) : c = .parent ∨ ∃ n, c = .name n := by
  obtain ⟨w, -, hw⟩ := List.mem_filterMap.1 h
  exact Component.inner?_eq hw

theorem exists_steps_of_not_parent (h : .parent ∉ p.components) :
    ∃ ns : List (List Char), p.steps = ns.map .name ∧ ∀ world : World, world.place p = ns.reverse ++ (world.start p).names := by
  have hnames (cs : List Component) (hcs : ∀ c ∈ cs, ∃ n, c = .name n) :
      ∃ ns : List (List Char), cs = ns.map .name := by
    induction cs with
    | nil => exact ⟨[], rfl⟩
    | cons c cs ih =>
      obtain ⟨n, rfl⟩ := hcs c List.mem_cons_self
      obtain ⟨ns, rfl⟩ := ih fun c hc => hcs c (List.mem_cons_of_mem _ hc)
      exact ⟨n :: ns, rfl⟩
  obtain ⟨ns, hns⟩ := hnames p.steps fun c hc => (mem_steps hc).resolve_left fun heq =>
    h (components_eq p ▸ List.mem_append_right _ (heq ▸ hc))
  exact ⟨ns, hns, fun world => by rw [world.place_eq, hns, foldl_follow_names]⟩

/-- Another way to write a path, if one of the two goes up somewhere, or `p` is `q` with a dot in front, or `p`
begins at the root, goes to where the program runs and then on like `q`. -/
inductive Respells (world : World) (p q : Path) : Prop
  | up (h : .parent ∈ p.components ∨ .parent ∈ q.components)
  | dotted (h : p.components = .current :: q.components)
  | rooted (hq : q.components.head? ≠ some .root)
      (h : p.components = .root :: (world.home.names.reverse.map .name ++ q.steps))

theorem head?_components_ne_root (hq : q.head? ≠ some '/') : q.components.head? ≠ some .root := by
  rw [components_eq]
  intro h
  obtain hf | hf := front_of_relative hq
  · rw [hf, List.nil_append] at h
    obtain h | ⟨n, h⟩ := mem_steps (List.mem_of_mem_head? h) <;> cases h
  · rw [hf] at h
    cases h

theorem respells_of_rooted (hup : .parent ∉ p.components) (hup' : .parent ∉ q.components)
    (hp : p.head? = some '/') (hq : q.head? ≠ some '/') (h : world.place p = world.place q) :
    p.Respells world q := by
  obtain ⟨ns, hns, hplace⟩ := exists_steps_of_not_parent hup
  obtain ⟨ms, hms, hplace'⟩ := exists_steps_of_not_parent hup'
  have hreverse : ns.reverse = ms.reverse ++ world.home.names := by
    simpa [hplace, hplace', World.start, hp, hq, Spot.top] using h
  have hnames : ns = world.home.names.reverse ++ ms := by
    rw [← List.reverse_reverse ns, hreverse, List.reverse_append, List.reverse_reverse]
  refine .rooted (head?_components_ne_root hq) ?_
  rw [components_eq, front_of_rooted hp, hns, hms, hnames, List.map_append]
  rfl

theorem respells_of_place_eq (hne : p.components ≠ q.components) (h : world.place p = world.place q) :
    p.Respells world q ∨ q.Respells world p := by
  by_cases hup : .parent ∈ p.components ∨ .parent ∈ q.components
  · exact .inl (.up hup)
  obtain ⟨hp, hq⟩ := not_or.1 hup
  have hsteps (hstart : world.start p = world.start q) : p.steps = q.steps := by
    obtain ⟨ns, hns, hplace⟩ := exists_steps_of_not_parent hp
    obtain ⟨ms, hms, hplace'⟩ := exists_steps_of_not_parent hq
    rw [hplace, hplace', hstart] at h
    rw [hns, hms, List.reverse_injective (List.append_cancel_right h)]
  unfold World.start at hsteps
  by_cases hpr : p.head? = some '/' <;> by_cases hqr : q.head? = some '/'
  · rw [if_pos hpr, if_pos hqr] at hsteps
    exact absurd (by rw [components_eq, components_eq, front_of_rooted hpr, front_of_rooted hqr, hsteps rfl]) hne
  · exact .inl (respells_of_rooted hp hq hpr hqr h)
  · exact .inr (respells_of_rooted hq hp hqr hpr h.symm)
  · rw [if_neg hpr, if_neg hqr] at hsteps
    rw [components_eq, components_eq, hsteps rfl] at hne
    obtain hf | hf := front_of_relative hpr <;> obtain hg | hg := front_of_relative hqr
    · exact absurd (by rw [hf, hg]) hne
    · exact .inr (.dotted (by rw [components_eq, components_eq, hf, hg, hsteps rfl]; rfl))
    · exact .inl (.dotted (by rw [components_eq, components_eq, hf, hg, hsteps rfl]; rfl))
    · exact absurd (by rw [hf, hg]) hne

example : Path.Respells (boxWorld .empty) "/home/Box.java".toList boxName := .rooted (by decide) (by decide)

theorem StartsWith.parent_mem (h : p.StartsWith q) (hq : .parent ∈ q.components) :
    .parent ∈ p.components := by
  obtain ⟨names, h⟩ := h
  rw [h] at hq
  exact (List.mem_append.1 hq).resolve_right (by simp)

theorem StartsWith.head?_iff (h : p.StartsWith q) {c : Component} (hc : ∀ n, c ≠ .name n) :
    q.components.head? = some c ↔ p.components.head? = some c := by
  obtain ⟨names, h⟩ := h
  rw [h]
  cases p.components with
  | nil => cases names <;> simp [(hc _).symm]
  | cons d ds => rfl

/-- Paths of which none goes up, and which begin alike: with a dot, at the root, or with neither. -/
structure WrittenAlike (paths : List Path) : Prop where
  up : ∀ p ∈ paths, .parent ∉ p.components
  front : ∀ p ∈ paths, ∀ q ∈ paths, ∀ c ∈ [Component.current, .root],
    p.components.head? = some c → q.components.head? = some c

theorem current_not_mem {cs : List Component} (h : p.components = .current :: cs) : .current ∉ cs := by
  have hsteps : .current ∉ p.steps := fun hmem => by
    obtain h | ⟨n, h⟩ := mem_steps hmem <;> cases h
  rw [components_eq] at h
  obtain ⟨hf, -⟩ | ⟨hf, -⟩ | ⟨hf, -⟩ := p.front_cases
  · rw [hf, List.nil_append] at h
    exact absurd (h ▸ List.mem_cons_self) hsteps
  · rw [hf] at h
    exact (List.cons.inj h).2 ▸ hsteps
  · rw [hf] at h
    cases (List.cons.inj h).1

theorem WrittenAlike.not_respells {ps : List Path} (h : WrittenAlike ps) (hp : p ∈ ps) (hq : q ∈ ps) :
    ¬ p.Respells world q := by
  intro hpq
  cases hpq with
  | up hup => exact hup.elim (h.up p hp) (h.up q hq)
  | dotted heq =>
    have hcurrent := h.front p hp q hq .current (by simp) (by rw [heq]; rfl)
    exact current_not_mem heq (List.mem_of_mem_head? hcurrent)
  | rooted hroot heq => exact hroot (h.front p hp q hq .root (by simp) (by rw [heq]; rfl))

theorem WrittenAlike.of_startsWith {ps qs : List Path} (h : WrittenAlike ps)
    (hqs : ∀ q ∈ qs, ∃ p ∈ ps, p.StartsWith q) : WrittenAlike qs where
  up q hq hmem := by
    obtain ⟨p, hp, hstarts⟩ := hqs q hq
    exact h.up p hp (hstarts.parent_mem hmem)
  front q hq r hr c hc hhead := by
    obtain ⟨p, hp, hstarts⟩ := hqs q hq
    obtain ⟨p', hp', hstarts'⟩ := hqs r hr
    have hname (n : List Char) : c ≠ .name n := by
      rintro rfl
      simp at hc
    exact (hstarts'.head?_iff hname).2 (h.front p hp p' hp' c hc ((hstarts.head?_iff hname).1 hhead))

end Path

/-- The findings of a report, each with the place of its file. -/
def Report.located (world : World) (r : Report) : List (List (List Char) × Violation) :=
  r.files.flatMap fun f => f.2.map fun v => (world.place f.1, v)

theorem Report.length_located (world : World) (r : Report) : (r.located world).length = r.violationCount := by
  simp [located, violationCount, List.length_flatMap]

theorem Report.nodup_located {world : World} {r : Report}
    (hplaces : ((r.files.map Prod.fst).map world.place).Nodup) (hvs : ∀ f ∈ r.files, f.2.Nodup) :
    (r.located world).Nodup := by
  refine List.nodup_flatMap.2 ⟨fun f hf => ?_, ?_⟩
  · exact (hvs f hf).map fun v w h => (Prod.mk.inj h).2
  · refine (List.pairwise_map.1 (List.pairwise_map.1 hplaces)).imp fun hne x hf hg => ?_
    obtain ⟨v, -, rfl⟩ := List.mem_map.1 hf
    obtain ⟨w, -, heq⟩ := List.mem_map.1 hg
    exact hne (Prod.mk.inj heq).1.symm

theorem nodup_of_checkSource {p : Path} {text : String} {vs : List Violation}
    (h : checkSource p text = .ok vs) : vs.Nodup := by
  obtain ⟨u, hparse, rfl⟩ := checkSource_eq_ok_iff.1 h
  exact (findings_precede hparse).imp fun hvw heq => hvw.ne (by rw [heq])

section Collected

variable {settings : Settings} {world : World} {paths files : List Path}

/-- Two of the files collected are the same file only if it is written in two ways, one of which goes up, begins
with a dot or begins at the root. Where no path given goes up, and all begin alike, no file is collected twice and
no finding is told twice. -/
theorem collected_once (hroot : world.root.Regular) (h : collect settings world paths = .ok files) :
    (∀ p ∈ files, p.IsFileIn world) ∧
    files.Pairwise (fun p q => world.place p = world.place q → p.Respells world q ∨ q.Respells world p) ∧
    (Path.WrittenAlike paths → (files.map world.place).Nodup ∧ ∃ r, run settings world paths = .ok r ∧
      (r.located world).Nodup ∧ r.violationCount = (r.located world).dedup.length) := by
  have hfile (q : Path) (hq : q ∈ files) := isFileIn_of_collect hroot h hq
  have hisFile (q : Path) (hq : q ∈ files) : q.IsFileIn world := (hfile q hq).1
  have hpairwise : files.Pairwise fun p q => p.components ≠ q.components := by
    obtain ⟨found, -, rfl⟩ := collect_eq_ok_iff.1 h
    exact (Path.sorted_pairwise _).imp And.right
  have hrespells : files.Pairwise fun p q => world.place p = world.place q →
      p.Respells world q ∨ q.Respells world p := hpairwise.imp fun hne => Path.respells_of_place_eq hne
  refine ⟨hisFile, hrespells, fun halike => ?_⟩
  have hfiles : Path.WrittenAlike files := halike.of_startsWith fun q hq => (hfile q hq).2
  have hplaces : (files.map world.place).Nodup :=
    List.pairwise_map.2 (hrespells.imp_of_mem fun hp hq hpq heq =>
      (hpq heq).elim (hfiles.not_respells hp hq) (hfiles.not_respells hq hp))
  have htells := tellsOf_of_isFileIn hisFile
  refine ⟨hplaces, _, run_eq_ok_iff.2 ⟨files, h, rfl⟩, ?_⟩
  have hnodup := Report.nodup_located ((htells.files_sublist.map world.place).nodup hplaces) fun f hf => by
    obtain ⟨-, text, -, hcheck⟩ := (htells.mem_files_iff f.1 f.2).1 hf
    exact nodup_of_checkSource hcheck
  exact ⟨hnodup, by rw [hnodup.dedup, Report.length_located]⟩

end Collected

section Box

open Written

variable {content : ByteArray}

theorem fromUTF8?_toUTF8 (text : String) : String.fromUTF8? text.toUTF8 = some text :=
  dif_pos text.isValidUTF8

theorem collect_box_twice : collect .default (boxWorld content) [(Path.dots 0).join boxName, boxName] =
    .ok [(Path.dots 0).join boxName, boxName] := by
  refine collect_eq_ok_iff.2 ⟨[[(Path.dots 0).join boxName], [boxName]], .cons rfl (.cons rfl .nil), ?_⟩
  have hordered : [(Path.dots 0).join boxName, boxName].Pairwise fun p q => p.notAfter q := by decide
  change _ = Path.sorted.dedup (List.mergeSort [(Path.dots 0).join boxName, boxName] _)
  rw [List.mergeSort_of_pairwise hordered, Path.sorted.dedup, if_neg (by decide), Path.sorted.dedup]

def lateBox : String := String.ofList (write (boxed lateItem))

theorem parse_lateBox : ∃ u v, parse lateBox.toList = .ok u ∧ u.findings = [v] := by
  obtain ⟨u, hfile, hlate⟩ : ∃ u, Rule.file (symbols (boxed lateItem)) = .ok u [] ∧
      u.latePlaces.length = 1 := ⟨_, by cbv, rfl⟩
  have hone : ((reading (boxed lateItem)).located u).findings.length = 1 := by
    have hplaces := congrArg List.length ((reading (boxed lateItem)).located u).position_findings
    rwa [List.length_map, Reading.located, CompilationUnit.latePlaces_map, List.length_map, hlate] at hplaces
  obtain ⟨v, hv⟩ := List.length_eq_one_iff.1 hone
  refine ⟨_, v, ?_, hv⟩
  rw [lateBox, String.toList_ofList, parse_write_of_file hfile]

def lateWorld : World := boxWorld lateBox.toUTF8

theorem hasText_lateBox {p : Path} (hshort : byteCount p ≤ pathLimit)
    (hplace : lateWorld.place p = [boxName, homeName]) : lateWorld.HasText p lateBox :=
  ⟨hshort, lateBox.toUTF8, by rw [hplace]; rfl, fromUTF8?_toUTF8 lateBox⟩

theorem collected_once_box : ∃ files r,
    collect .default lateWorld [Path.dots 0, (Path.dots 1).join boxName] = .ok files ∧
      run .default lateWorld [Path.dots 0, (Path.dots 1).join boxName] = .ok r ∧
      (files.map lateWorld.place).Nodup ∧ (r.located lateWorld).Nodup ∧
      r.violationCount = (r.located lateWorld).dedup.length := by
  have hfiles : collect .default lateWorld [Path.dots 0, (Path.dots 1).join boxName] = .ok _ :=
    collect_eq_ok_iff.2 ⟨_, .cons (filesFor_boxWorld (by decide)) (.cons rfl .nil), rfl⟩
  have halike : Path.WrittenAlike [Path.dots 0, (Path.dots 1).join boxName] := ⟨by decide, by decide⟩
  obtain ⟨-, -, honce⟩ := collected_once regular_boxWorld hfiles
  obtain ⟨hplaces, r, hrun, hlocated, hcount⟩ := honce halike
  exact ⟨_, r, hfiles, hrun, hplaces, hlocated, hcount⟩

/-- A file that is given in two ways, once with a dot in front, is collected and told of twice, and so is what
is found in it. -/
theorem box_told_twice : lateWorld.place boxName = lateWorld.place ((Path.dots 0).join boxName) ∧
    collect .default lateWorld [(Path.dots 0).join boxName, boxName] =
      .ok [(Path.dots 0).join boxName, boxName] ∧
    ∃ r, run .default lateWorld [(Path.dots 0).join boxName, boxName] = .ok r ∧
      r.failures = [] ∧ ¬ (r.located lateWorld).Nodup ∧ r.violationCount = 2 ∧
      (r.located lateWorld).dedup.length = 1 := by
  obtain ⟨u, v, hparse, hv⟩ := parse_lateBox
  have hdotted : lateWorld.place ((Path.dots 0).join boxName) = [boxName, homeName] := place_dots_join 0
  have hbare : lateWorld.place boxName = [boxName, homeName] := by rfl
  have hfile : Path.IsFileIn lateWorld boxName := ⟨by decide, by decide, _, _, rfl, rfl⟩
  have hcheck (p : Path) (hp : p.IsFileIn lateWorld) (hshort : byteCount p ≤ pathLimit)
      (hplace : lateWorld.place p = [boxName, homeName]) : checkFile lateWorld p = .ok [v] :=
    (checkFile_eq_ok_iff hp).2 ⟨lateBox, hasText_lateBox hshort hplace, hv ▸ checkSource_of_parse hparse p⟩
  refine ⟨hbare.trans hdotted.symm, collect_box_twice, _, run_eq_ok_iff.2 ⟨_, collect_box_twice, rfl⟩, ?_⟩
  rw [List.map_cons, List.map_singleton, hcheck _ (isFileIn_boxWorld 0) (by decide) hdotted,
    hcheck _ hfile (by decide) hbare, Report.ofResults_ok, Report.ofResults_ok]
  have htwice : Report.located lateWorld ⟨[((Path.dots 0).join boxName, [v]), (boxName, [v])], []⟩ =
      [([boxName, homeName], v), ([boxName, homeName], v)] := by
    simp [Report.located, hdotted, hbare]
  refine ⟨rfl, ?_, rfl, ?_⟩
  · exact htwice ▸ by simp
  · exact htwice ▸ by simp

end Box

end MemberOrder
