import MemberOrder.CommandLine.Program
import MemberOrder.Proofs.Order.Disorder
import MemberOrder.Proofs.Report.Once
/-! How the program ends. Main statement: the exit status and the output of a whole run, by the settings, the
paths and what is in the files (`program_ending`). -/
namespace MemberOrder

open FileTree World

/-- Why a file is told of as a failure, by what it holds. -/
inductive World.Uncheckable (world : World) (p : Path) : Prop
  | tooLong (h : pathLimit < byteCount p)
  | notText {content : ByteArray} (hat : world.root.at? (world.place p) = some (.file content))
      (h : String.fromUTF8? content = none)
  | unparsed {text : String} {e : ParseError} (htext : world.HasText p text) (h : parse text.toList = .error e)

/-- A file in which some class, enum or record body is out of order. -/
def World.Disordered (world : World) (p : Path) : Prop :=
  ∃ text u, world.HasText p text ∧ parse text.toList = .ok u ∧ u.OutOfOrder

theorem World.uncheckable_iff {world : World} {p : Path} :
    world.Uncheckable p ↔ ∃ why, world.FailsWith p why := by
  constructor
  · intro h
    by_cases hlong : pathLimit < byteCount p
    · exact ⟨_, .tooLong hlong⟩
    cases h with
    | tooLong h => exact absurd h hlong
    | notText hat h => exact ⟨_, .notText (Nat.le_of_not_lt hlong) hat h⟩
    | unparsed htext h => exact ⟨_, .refused htext (checkSource_eq_error_iff.2 ⟨_, h, rfl⟩)⟩
  · rintro ⟨why, h⟩
    cases h with
    | tooLong h => exact .tooLong h
    | notText _ hat h => exact .notText hat h
    | refused htext he =>
      obtain ⟨e, he, -⟩ := checkSource_eq_error_iff.1 he
      exact .unparsed htext he

namespace Report.TellsOf

variable {world : World} {files : List Path} {r : Report} (h : r.TellsOf world files)
include h

theorem failures_ne_nil_iff : r.failures ≠ [] ↔ ∃ p ∈ files, world.Uncheckable p := by
  constructor
  · intro hne
    obtain ⟨⟨p, e⟩, hp⟩ := List.exists_mem_of_ne_nil _ hne
    obtain ⟨hp, why, hwhy, -⟩ := (h.mem_failures_iff p e).1 hp
    exact ⟨p, hp, uncheckable_iff.2 ⟨why, hwhy⟩⟩
  · rintro ⟨p, hp, hfails⟩
    obtain ⟨why, hwhy⟩ := uncheckable_iff.1 hfails
    exact List.ne_nil_of_mem ((h.mem_failures_iff p _).2 ⟨hp, why, hwhy, rfl⟩)

theorem violationCount_pos_iff : 0 < r.violationCount ↔ ∃ p ∈ files, world.Disordered p := by
  rw [violationCount, List.length_pos_iff]
  constructor
  · intro hne
    obtain ⟨v, hv⟩ := List.exists_mem_of_ne_nil _ hne
    obtain ⟨⟨p, vs⟩, hfile, hv⟩ := List.mem_flatMap.1 hv
    obtain ⟨hp, text, htext, hcheck⟩ := (h.mem_files_iff p vs).1 hfile
    obtain ⟨u, hparse, rfl⟩ := checkSource_eq_ok_iff.1 hcheck
    exact ⟨p, hp, text, u, htext, hparse, CompilationUnit.findings_ne_nil_iff.1 (List.ne_nil_of_mem hv)⟩
  · rintro ⟨p, hp, text, u, htext, hparse, hlate⟩
    obtain ⟨v, hv⟩ := List.exists_mem_of_ne_nil _ (CompilationUnit.findings_ne_nil_iff.2 hlate)
    have hfile := (h.mem_files_iff p u.findings).2 ⟨hp, text, htext, checkSource_of_parse hparse p⟩
    exact List.ne_nil_of_mem (List.mem_flatMap.2 ⟨_, hfile, hv⟩)

theorem mem_findings (s : Settings) {p : Path} (hp : p ∈ files) {text : String} (htext : world.HasText p text)
    {u : SourceUnit} (hparse : parse text.toList = .ok u) {v : Violation} (hv : v ∈ u.findings) :
    ⟨String.ofList p, v.position.line, v.position.column, s.severity, v.message, s.text v.message, v.name,
      v.actual⟩ ∈ r.findings s :=
  List.mem_flatMap.2 ⟨(p, u.findings),
    (h.mem_files_iff p u.findings).2 ⟨hp, text, htext, checkSource_of_parse hparse p⟩,
    List.mem_map.2 ⟨v, hv, rfl⟩⟩

theorem exitCode_eq_two_iff (severity : Severity) :
    r.exitCode severity = 2 ↔ ∃ p ∈ files, world.Uncheckable p := by
  rw [← h.failures_ne_nil_iff, exitCode]
  cases r.failures with
  | nil => simp; split <;> simp
  | cons f fs => simp

theorem exitCode_eq_one_iff (severity : Severity) : r.exitCode severity = 1 ↔
    r.exitCode severity ≠ 2 ∧ severity = .error ∧ ∃ p ∈ files, world.Disordered p := by
  rw [← h.violationCount_pos_iff, exitCode]
  split
  · simp
  · split <;> simp_all

end Report.TellsOf

namespace CommandLine

variable {world : World} {a : Arguments} {s : Settings}

namespace Arguments

inductive Base (world : World) (a : Arguments) : Settings → Prop
  | default (h : a.config? = none) : Base world a .default
  | loaded {path text : String} {s : Settings} (h : a.config? = some path)
      (htext : world.readText path.toList = .ok text) (hs : Settings.read text.toList = .ok s) : Base world a s

/-- The settings of a run. A severity in the arguments counts more than any other. -/
def Uses (world : World) (a : Arguments) (s : Settings) : Prop :=
  ∃ base, a.Base world base ∧ s = base.withSeverity (a.severity?.getD base.severity)

inductive Misconfigured (world : World) (a : Arguments) : Prop
  | unreadable {path : String} {e : ReadError} (h : a.config? = some path)
      (he : world.readText path.toList = .error e)
  | invalid {path text : String} {e : SettingsError} (h : a.config? = some path)
      (htext : world.readText path.toList = .ok text) (he : Settings.read text.toList = .error e)

def Misses (world : World) (a : Arguments) : Prop :=
  ∃ p ∈ a.paths, ∃ e, world.find p.toList = .error e

def Collects (world : World) (a : Arguments) (s : Settings) (files : List Path) : Prop :=
  a.Uses world s ∧ collect s world (a.paths.map String.toList) = .ok files

end Arguments

open Arguments

def Arguments.load (world : World) (a : Arguments) : Except Failure Settings :=
  match a.config? with
  | some path => loadSettings world path.toList
  | none => .ok .default

theorem settingsFor_eq (world : World) (a : Arguments) : settingsFor world a =
    (a.load world).map fun base => base.withSeverity (a.severity?.getD base.severity) := by
  unfold settingsFor load
  cases a.config? with
  | none => cases a.severity? <;> rfl
  | some path =>
    dsimp only
    cases loadSettings world path.toList with
    | error e => rfl
    | ok base => cases a.severity? <;> rfl

theorem load_eq_ok_iff : a.load world = .ok s ↔ a.Base world s := by
  unfold load loadSettings
  constructor
  · intro h
    cases hconfig : a.config? with
    | none =>
      rw [hconfig] at h
      exact Except.ok.inj h ▸ .default hconfig
    | some path =>
      simp only [hconfig] at h
      split at h
      next => cases h
      next text htext =>
        split at h
        next => cases h
        next s' hs => exact Except.ok.inj h ▸ .loaded hconfig htext hs
  · intro h
    cases h with
    | default hconfig => rw [hconfig]
    | loaded hconfig htext hs => simp only [hconfig, htext, hs]

theorem exists_load_error_iff : (∃ e, a.load world = .error e) ↔ a.Misconfigured world := by
  unfold load loadSettings
  constructor
  · rintro ⟨e, h⟩
    cases hconfig : a.config? with
    | none =>
      rw [hconfig] at h
      cases h
    | some path =>
      simp only [hconfig] at h
      split at h
      next he => exact .unreadable hconfig he
      next text htext =>
        split at h
        next he => exact .invalid hconfig htext he
        next => cases h
  · intro h
    cases h with
    | unreadable hconfig he => exact ⟨_, by simp only [hconfig, he]; rfl⟩
    | invalid hconfig htext he => exact ⟨_, by simp only [hconfig, htext, he]; rfl⟩

theorem settingsFor_eq_ok_iff : settingsFor world a = .ok s ↔ a.Uses world s := by
  rw [settingsFor_eq, Uses]
  simp only [← load_eq_ok_iff]
  cases a.load world <;> simp [Except.map, eq_comm]

theorem misconfigured_iff : a.Misconfigured world ↔ ∃ e, settingsFor world a = .error e := by
  rw [settingsFor_eq, ← exists_load_error_iff]
  cases a.load world <;> simp [Except.map]

theorem execute_eq_ok_iff {r : Report} : execute world a = .ok (s, r) ↔
    ∃ files, a.Collects world s files ∧ r = .ofResults (files.map fun p => (p, checkFile world p)) := by
  unfold execute Collects
  rw [bind_eq_ok_iff, ← settingsFor_eq_ok_iff]
  constructor
  · rintro ⟨s', hs, h⟩
    obtain ⟨r', hrun, h⟩ := bind_eq_ok_iff.1 h
    obtain ⟨rfl, rfl⟩ := Prod.mk.inj (Except.ok.inj h)
    obtain ⟨files, hfiles, rfl⟩ := run_eq_ok_iff.1 hrun
    exact ⟨files, ⟨hs, hfiles⟩, rfl⟩
  · rintro ⟨files, ⟨hs, hfiles⟩, rfl⟩
    exact ⟨s, hs, bind_eq_ok_iff.2 ⟨_, run_eq_ok_iff.2 ⟨files, hfiles, rfl⟩, rfl⟩⟩

theorem execute_error_iff (hwalk : ∀ s, a.Uses world s → ∀ p ∈ a.paths, ∀ why,
    filesFor s world p.toList ≠ .error (.unwalkable p.toList why)) :
    (∃ e, execute world a = .error e) ↔ a.Misconfigured world ∨ a.Misses world := by
  cases hsettings : settingsFor world a with
  | error e =>
    have hmis : a.Misconfigured world := misconfigured_iff.2 ⟨e, hsettings⟩
    refine iff_of_true ⟨e, ?_⟩ (.inl hmis)
    unfold execute
    rw [hsettings]
    rfl
  | ok s =>
    have huses := settingsFor_eq_ok_iff.1 hsettings
    have hmis : ¬ a.Misconfigured world := fun h => by
      obtain ⟨e, he⟩ := misconfigured_iff.1 h
      cases hsettings.symm.trans he
    rw [or_iff_right hmis]
    constructor
    · rintro ⟨e, he⟩
      by_contra hmisses
      have hexist : ∀ p ∈ a.paths.map String.toList, ∃ spot, world.find p = .ok spot := by
        intro p hp
        obtain ⟨q, hq, rfl⟩ := List.mem_map.1 hp
        cases hfind : world.find q.toList with
        | error e => exact absurd ⟨q, hq, e, hfind⟩ hmisses
        | ok spot => exact ⟨spot, rfl⟩
      have hwalk' : ∀ p ∈ a.paths.map String.toList, ∀ why, filesFor s world p ≠ .error (.unwalkable p why) := by
        intro p hp
        obtain ⟨q, hq, rfl⟩ := List.mem_map.1 hp
        exact hwalk s huses q hq
      obtain ⟨files, hfiles⟩ := exists_collect hexist hwalk'
      cases (execute_eq_ok_iff.2 ⟨files, ⟨huses, hfiles⟩, rfl⟩).symm.trans he
    · rintro ⟨p, hp, e, he⟩
      cases hexecute : execute world a with
      | error e => exact ⟨e, rfl⟩
      | ok sr =>
        obtain ⟨files, ⟨-, hfiles⟩, -⟩ := execute_eq_ok_iff.1 hexecute
        obtain ⟨spot, hspot⟩ := exists_find_of_collect hfiles (List.mem_map_of_mem hp)
        cases he.symm.trans hspot

theorem Arguments.Collects.unique {s' : Settings} {files files' : List Path} (h : a.Collects world s files)
    (h' : a.Collects world s' files') : s' = s ∧ files' = files := by
  obtain rfl : s = s' :=
    Except.ok.inj ((settingsFor_eq_ok_iff.2 h.1).symm.trans (settingsFor_eq_ok_iff.2 h'.1))
  exact ⟨rfl, (Except.ok.inj (h.2.symm.trans h'.2)).symm⟩

/-- How a run ends. The status is 2 if the settings cannot be had, there is nothing at some path, or some
file cannot be checked; else 1 if findings are errors and some body in some file is out of order; else 0.
Nothing is put out if the run stops, and else the report on all files. -/
theorem program_ending {args : List String} (hroot : world.root.Regular) (hread : read args = .ok a)
    (hwalk : ∀ s, a.Uses world s → ∀ p ∈ a.paths, ∀ why,
      filesFor s world p.toList ≠ .error (.unwalkable p.toList why)) :
    ((program world args).exitCode = 2 ↔ a.Misconfigured world ∨ a.Misses world ∨
      ∃ s files, a.Collects world s files ∧ ∃ p ∈ files, world.Uncheckable p) ∧
    ((program world args).exitCode = 1 ↔ (program world args).exitCode ≠ 2 ∧
      ∃ s files, a.Collects world s files ∧ s.severity = .error ∧ ∃ p ∈ files, world.Disordered p) ∧
    ((program world args).exitCode = 0 ↔
      (program world args).exitCode ≠ 2 ∧ (program world args).exitCode ≠ 1) ∧
    (a.Misconfigured world ∨ a.Misses world → (program world args).output = "") ∧
    (¬ (a.Misconfigured world ∨ a.Misses world) → ∃ s files, ∃ r : Report, a.Collects world s files ∧
      r.TellsOf world files ∧ (program world args).output = r.render s (a.format?.getD .plain) ∧
      ∀ p ∈ files, ∀ text u, world.HasText p text → parse text.toList = .ok u → ∀ v ∈ u.findings,
        ⟨String.ofList p, v.position.line, v.position.column, s.severity, v.message, s.text v.message,
          v.name, v.actual⟩ ∈ r.findings s) := by
  have hprogram : program world args = ending world a := by
    unfold program
    rw [hread]
  have hstops := execute_error_iff hwalk
  rw [hprogram]
  unfold ending
  cases hexecute : execute world a with
  | error e =>
    have hstop : a.Misconfigured world ∨ a.Misses world := hstops.1 ⟨e, hexecute⟩
    refine ⟨iff_of_true rfl (hstop.imp_right .inl), ?_, ?_, fun _ => rfl, fun h => absurd hstop h⟩
    · simp
    · simp
  | ok sr =>
    obtain ⟨s, r⟩ := sr
    obtain ⟨files, hcollects, hr⟩ := execute_eq_ok_iff.1 hexecute
    have hgoes : ¬ (a.Misconfigured world ∨ a.Misses world) := fun h => by
      obtain ⟨e, he⟩ := hstops.2 h
      cases hexecute.symm.trans he
    have htells : r.TellsOf world files :=
      hr ▸ tellsOf_of_isFileIn fun p hp => (isFileIn_of_collect hroot hcollects.2 hp).1
    have hall (P : Settings → List Path → Prop) :
        (∃ s files, a.Collects world s files ∧ P s files) ↔ P s files := by
      constructor
      · rintro ⟨s', files', h, hP⟩
        obtain ⟨rfl, rfl⟩ := hcollects.unique h
        exact hP
      · exact fun hP => ⟨s, files, hcollects, hP⟩
    obtain ⟨hmis, hmisses⟩ := not_or.1 hgoes
    refine ⟨?_, ?_, ?_, fun h => absurd h hgoes, fun _ => ⟨s, files, r, hcollects, htells, rfl, ?_⟩⟩
    · rw [hall, or_iff_right hmis, or_iff_right hmisses]
      exact htells.exitCode_eq_two_iff s.severity
    · rw [hall]
      exact htells.exitCode_eq_one_iff s.severity
    · dsimp only
      unfold Report.exitCode
      split
      · simp
      · split <;> simp
    · exact fun p hp text u htext hparse v hv => htells.mem_findings s hp htext hparse hv

theorem read_path {c : Char} (hc : c ≠ '-') (cs : List Char) :
    read [String.ofList (c :: cs)] = .ok ⟨[String.ofList (c :: cs)], none, none, none⟩ := by
  have hlist := String.toList_ofList (l := c :: cs)
  generalize String.ofList (c :: cs) = text at hlist ⊢
  have hhyphens : text ≠ "--" := by
    rintro rfl
    exact hc (List.cons.inj hlist).1.symm
  have hempty : text ≠ "" := by
    rintro rfl
    cases hlist
  have hargument : Draft.empty.argument text = .ok { Draft.empty with pending := .paths [text] } := by
    unfold Draft.argument
    split
    next h => exact absurd (List.cons.inj (hlist.symm.trans h)).1 hc
    next h => exact absurd (List.cons.inj (hlist.symm.trans h)).1 hc
    next => rfl
  have harguments : Draft.empty.arguments [text] = .ok { Draft.empty with pending := .paths [text] } := by
    rw [Draft.arguments.eq_3 _ _ _ hhyphens, hargument]
    rfl
  unfold read
  rw [harguments]
  simp only [bind, Except.bind, Draft.resolve, List.contains_cons, List.contains_nil, Bool.or_false,
    beq_eq_false_iff_ne.2 (Ne.symm hempty)]
  rfl

def dotsOnly (n : Nat) : Arguments := ⟨[String.ofList (Path.dots n)], none, none, none⟩

theorem read_dotsOnly (n : Nat) : read [String.ofList (Path.dots n)] = .ok (dotsOnly n) := by
  unfold dotsOnly
  cases n with
  | zero => exact read_path (by decide) _
  | succ n => exact read_path (by decide) _

section Dots

variable {content : ByteArray} {n : Nat}

theorem uses_dotsOnly (n : Nat) : (dotsOnly n).Uses world s ↔ s = .default := by
  constructor
  · rintro ⟨base, hbase, rfl⟩
    cases hbase with
    | default => rfl
    | loaded h => cases h
  · rintro rfl
    exact ⟨.default, .default rfl, rfl⟩

theorem paths_dotsOnly (n : Nat) : (dotsOnly n).paths.map String.toList = [Path.dots n] := by
  simp [dotsOnly]

theorem collects_dotsOnly (h : 2 * n + 1 ≤ pathLimit) {files : List Path} :
    (dotsOnly n).Collects (boxWorld content) s files ↔
      s = .default ∧ files = [(Path.dots n).join boxName] := by
  unfold Collects
  rw [uses_dotsOnly, paths_dotsOnly]
  refine and_congr_right fun hs => ?_
  rw [hs, collect_boxWorld h, Except.ok.injEq, eq_comm]

theorem not_stopped_dotsOnly (h : 2 * n + 1 ≤ pathLimit) :
    ¬ (dotsOnly n).Misconfigured (boxWorld content) ∧ ¬ (dotsOnly n).Misses (boxWorld content) := by
  constructor
  · rintro (⟨h, -⟩ | ⟨h, -, -⟩) <;> cases h
  · rintro ⟨p, hp, e, he⟩
    obtain rfl := List.mem_singleton.1 hp
    rw [String.toList_ofList] at he
    cases (find_dots h).symm.trans he

end Dots

theorem program_ending_box : (program lateWorld [String.ofList (Path.dots 0)]).exitCode = 1 := by
  have hlimit : 2 * 0 + 1 ≤ pathLimit := by decide
  obtain ⟨hmis, hmisses⟩ := @not_stopped_dotsOnly lateBox.toUTF8 0 hlimit
  obtain ⟨htwo, hone, -⟩ := program_ending regular_boxWorld (read_dotsOnly 0) fun s hs p hp why h => by
    obtain rfl := (uses_dotsOnly 0).1 hs
    obtain rfl := List.mem_singleton.1 hp
    rw [String.toList_ofList] at h
    cases (@filesFor_boxWorld lateBox.toUTF8 0 hlimit).symm.trans h
  have htext : lateWorld.HasText ((Path.dots 0).join boxName) lateBox :=
    hasText_lateBox (by decide) (by decide)
  obtain ⟨u, v, hparse, hv⟩ := parse_lateBox
  refine hone.2 ⟨fun h => ?_, _, _, (collects_dotsOnly hlimit).2 ⟨rfl, rfl⟩, rfl, _, List.mem_singleton_self _,
    lateBox, u, htext, hparse, CompilationUnit.findings_ne_nil_iff.1 (by simp [hv])⟩
  obtain ⟨s, files, hcollects, p, hp, hfails⟩ := (htwo.1 h).resolve_left hmis |>.resolve_left hmisses
  obtain ⟨-, rfl⟩ := (collects_dotsOnly hlimit).1 hcollects
  obtain rfl := List.mem_singleton.1 hp
  obtain ⟨why, hwhy⟩ := uncheckable_iff.1 hfails
  have hcheck := (checkFile_eq_error_iff (isFileIn_boxWorld 0)).2 hwhy
  cases hcheck.symm.trans ((checkFile_eq_ok_iff (isFileIn_boxWorld 0)).2
    ⟨lateBox, htext, checkSource_of_parse hparse _⟩)

theorem exitCode_of_execute {args : List String} {r : Report} (hread : read args = .ok a)
    (h : execute world a = .ok (s, r)) : (program world args).exitCode = r.exitCode s.severity := by
  unfold program
  rw [hread]
  dsimp only
  unfold ending
  rw [h]

theorem exitCode_ofResults_error (p : Path) (e : Failure)
    (results : List (Path × Except Failure (List Violation))) (severity : Severity) :
    (Report.ofResults ((p, .error e) :: results)).exitCode severity = 2 :=
  rfl

/-- The status is 2 also where nothing is wrong but that a file is too far away to be opened. -/
theorem program_far_box : read [String.ofList (Path.dots 2045)] = .ok (dotsOnly 2045) ∧
    ¬ (dotsOnly 2045).Misconfigured (boxWorld .empty) ∧ ¬ (dotsOnly 2045).Misses (boxWorld .empty) ∧
    (∀ s files, (dotsOnly 2045).Collects (boxWorld .empty) s files ↔
      s = .default ∧ files = [(Path.dots 2045).join boxName]) ∧
    (boxWorld .empty).root.at? ((boxWorld .empty).place ((Path.dots 2045).join boxName)) = some (.file .empty) ∧
    String.fromUTF8? .empty = some "" ∧ parse "".toList = .ok ⟨none, []⟩ ∧
    (program (boxWorld .empty) [String.ofList (Path.dots 2045)]).exitCode = 2 := by
  have hlimit : 2 * 2045 + 1 ≤ pathLimit := by decide
  obtain ⟨hmis, hmisses⟩ := @not_stopped_dotsOnly .empty 2045 hlimit
  refine ⟨read_dotsOnly 2045, hmis, hmisses, fun s files => collects_dotsOnly hlimit,
    by rw [place_dots_join]; rfl, rfl, parse_nil, ?_⟩
  have hcollects := (@collects_dotsOnly .default .empty 2045 hlimit _).2 ⟨rfl, rfl⟩
  rw [exitCode_of_execute (read_dotsOnly 2045) (execute_eq_ok_iff.2 ⟨_, hcollects, rfl⟩),
    List.map_singleton, checkFile_far, exitCode_ofResults_error]

end CommandLine

end MemberOrder
