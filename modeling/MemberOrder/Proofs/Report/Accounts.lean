import MemberOrder.Proofs.Files.Flat
import MemberOrder.Proofs.Order.Sorted
import MemberOrder.Report
/-! Each file has its own part in a report. Main statement: a run tells of every file it collects exactly
once, in order, and of each what is to be said of that file alone (`run_tells`). -/
namespace MemberOrder

open FileTree World

structure World.HasText (world : World) (p : Path) (text : String) : Prop where
  short : byteCount p ≤ pathLimit
  content : ∃ content, world.root.at? (world.place p) = some (.file content) ∧ String.fromUTF8? content = some text

/-- Why a file cannot be checked. -/
inductive World.FailsWith (world : World) (p : Path) : Failure → Prop
  | tooLong (h : pathLimit < byteCount p) : FailsWith world p (.unreadable p .nameTooLong)
  | notText {content : ByteArray} (hshort : byteCount p ≤ pathLimit)
      (hat : world.root.at? (world.place p) = some (.file content)) (hcontent : String.fromUTF8? content = none) :
      FailsWith world p (.unreadable p .notText)
  | refused {text : String} {e : Failure} (htext : world.HasText p text) (he : checkSource p text = .error e) :
      FailsWith world p e

theorem checkSource_eq_ok_iff {p : Path} {text : String} {vs : List Violation} :
    checkSource p text = .ok vs ↔ ∃ u, parse text.toList = .ok u ∧ vs = u.findings := by
  cases hparse : parse text.toList with
  | error e => simp [checkSource, hparse]
  | ok u => simp [checkSource_of_parse hparse, eq_comm]

theorem checkSource_eq_error_iff {p : Path} {text : String} {why : Failure} :
    checkSource p text = .error why ↔ ∃ e, parse text.toList = .error e ∧ why = .unparsed p e := by
  cases hparse : parse text.toList with
  | error e => simp [checkSource, hparse, eq_comm]
  | ok u => simp [checkSource_of_parse hparse]

section Check

variable {world : World} {p : Path} {vs : List Violation} {e : Failure} {content : ByteArray}
  {text : String}

theorem World.hasText_iff (hat : world.root.at? (world.place p) = some (.file content)) :
    world.HasText p text ↔ byteCount p ≤ pathLimit ∧ String.fromUTF8? content = some text := by
  constructor
  · rintro ⟨hshort, c, hc, htext⟩
    obtain rfl := FileTree.file.inj (Option.some.inj (hat.symm.trans hc))
    exact ⟨hshort, htext⟩
  · exact fun ⟨hshort, htext⟩ => ⟨hshort, content, hat, htext⟩

theorem checkFile_of_isFileIn (hp : p.IsFileIn world) :
    ∃ content, world.root.at? (world.place p) = some (.file content) ∧ checkFile world p =
      if pathLimit < byteCount p then .error (.unreadable p .nameTooLong)
      else match String.fromUTF8? content with
        | some text => checkSource p text
        | none => .error (.unreadable p .notText) := by
  obtain ⟨s, content, hlead, hf⟩ := hp.lead
  refine ⟨content, at?_place hlead hf, ?_⟩
  unfold checkFile
  rw [readText_of_lead hp.nul hp.ne_nil hlead hf]
  by_cases hlong : pathLimit < byteCount p
  · rw [if_pos hlong, if_pos hlong]
  · rw [if_neg hlong, if_neg hlong]
    generalize String.fromUTF8? content = text?
    cases text? <;> rfl

theorem checkFile_eq_ok_iff (hp : p.IsFileIn world) : checkFile world p = .ok vs ↔
    ∃ text, world.HasText p text ∧ checkSource p text = .ok vs := by
  obtain ⟨content, hat, heq⟩ := checkFile_of_isFileIn hp
  simp only [heq, hasText_iff hat]
  by_cases hlong : pathLimit < byteCount p
  · simp [hlong, Nat.not_le_of_lt hlong]
  · cases hc : String.fromUTF8? content <;> simp [hlong, Nat.le_of_not_lt hlong]

theorem checkFile_eq_error_iff (hp : p.IsFileIn world) : checkFile world p = .error e ↔
    world.FailsWith p e := by
  obtain ⟨content, hat, heq⟩ := checkFile_of_isFileIn hp
  rw [heq]
  constructor
  · intro h
    split at h
    next hlong => exact Except.error.inj h ▸ .tooLong hlong
    next hlong =>
      have hshort := Nat.le_of_not_lt hlong
      split at h
      next text hc => exact .refused ((hasText_iff hat).2 ⟨hshort, hc⟩) h
      next hc => exact Except.error.inj h ▸ .notText hshort hat hc
  · intro h
    cases h with
    | tooLong hlong => rw [if_pos hlong]
    | notText hshort hat' hc =>
      obtain rfl := FileTree.file.inj (Option.some.inj (hat.symm.trans hat'))
      rw [if_neg (Nat.not_lt_of_le hshort), hc]
    | refused htext he =>
      obtain ⟨hshort, hc⟩ := (hasText_iff hat).1 htext
      rw [if_neg (Nat.not_lt_of_le hshort), hc]
      exact he

end Check

/-! Reports from results. -/

namespace Report

variable {results : List (Path × Except Failure (List Violation))} {p : Path} {vs : List Violation}
  {e : String}

def only (keep : Path → Bool) (r : Report) : Report :=
  ⟨r.files.filter fun f => keep f.1, r.failures.filter fun f => keep f.1⟩

theorem ofResults_ok (p : Path) (vs : List Violation) :
    ofResults ((p, .ok vs) :: results) = ⟨(p, vs) :: (ofResults results).files, (ofResults results).failures⟩ :=
  rfl

theorem ofResults_error (p : Path) (e : Failure) : ofResults ((p, .error e) :: results) =
    ⟨(ofResults results).files, (p, e.message) :: (ofResults results).failures⟩ :=
  rfl

theorem mem_ofResults_files : (p, vs) ∈ (ofResults results).files ↔ (p, .ok vs) ∈ results := by
  induction results with
  | nil => simp [ofResults]
  | cons result results ih =>
    obtain ⟨q, error | ok⟩ := result
    · simp [ofResults_error, ih]
    · simp [ofResults_ok, ih]

theorem mem_ofResults_failures : (p, e) ∈ (ofResults results).failures ↔
    ∃ why, (p, .error why) ∈ results ∧ e = why.message := by
  induction results with
  | nil => simp [ofResults]
  | cons result results ih =>
    obtain ⟨q, error | ok⟩ := result
    · simp [ofResults_error, ih, or_and_right, exists_or, and_assoc]
    · simp [ofResults_ok, ih]

theorem ofResults_files_sublist : ((ofResults results).files.map Prod.fst).Sublist (results.map Prod.fst) := by
  induction results with
  | nil => exact .slnil
  | cons result results ih =>
    obtain ⟨q, error | ok⟩ := result
    · exact ih.cons q
    · exact ih.cons_cons q

theorem ofResults_failures_sublist :
    ((ofResults results).failures.map Prod.fst).Sublist (results.map Prod.fst) := by
  induction results with
  | nil => exact .slnil
  | cons result results ih =>
    obtain ⟨q, error | ok⟩ := result
    · exact ih.cons_cons q
    · exact ih.cons q

theorem ofResults_perm : ((ofResults results).files.map Prod.fst ++
    (ofResults results).failures.map Prod.fst).Perm (results.map Prod.fst) := by
  induction results with
  | nil => exact .nil
  | cons result results ih =>
    obtain ⟨q, error | ok⟩ := result
    · exact List.perm_middle.trans (ih.cons q)
    · exact ih.cons q

theorem only_ofResults (keep : Path → Bool) :
    (ofResults results).only keep = ofResults (results.filter fun f => keep f.1) := by
  induction results with
  | nil => rfl
  | cons result results ih =>
    have hfiles : (ofResults results).files.filter (fun f => keep f.1) = _ := congrArg Report.files ih
    have hfailures : (ofResults results).failures.filter (fun f => keep f.1) = _ :=
      congrArg Report.failures ih
    obtain ⟨q, error | ok⟩ := result
    · cases hq : keep q <;> simp [ofResults_error, only, hq, hfiles, hfailures]
    · cases hq : keep q <;> simp [ofResults_ok, only, hq, hfiles, hfailures]

/-- The report tells of each of some files once, and of each either what was found in it or why
it could not be checked. -/
structure TellsOf (world : World) (files : List Path) (r : Report) : Prop where
  files_sublist : (r.files.map Prod.fst).Sublist files
  failures_sublist : (r.failures.map Prod.fst).Sublist files
  perm : (r.files.map Prod.fst ++ r.failures.map Prod.fst).Perm files
  mem_files_iff : ∀ p vs, (p, vs) ∈ r.files ↔
    p ∈ files ∧ ∃ text, world.HasText p text ∧ checkSource p text = .ok vs
  mem_failures_iff : ∀ p e, (p, e) ∈ r.failures ↔ p ∈ files ∧ ∃ why, world.FailsWith p why ∧ e = why.message

end Report

section Run

variable {settings : Settings} {world : World} {paths files : List Path}

theorem run_eq_ok_iff {r : Report} : run settings world paths = .ok r ↔
    ∃ files, collect settings world paths = .ok files ∧
      r = .ofResults (files.map fun p => (p, checkFile world p)) := by
  unfold run
  rw [bind_eq_ok_iff]
  exact exists_congr fun _ => and_congr_right fun _ => ⟨fun h => (Except.ok.inj h).symm,
    fun h => congrArg Except.ok h.symm⟩

theorem tellsOf_of_isFileIn (hfiles : ∀ p ∈ files, p.IsFileIn world) :
    Report.TellsOf world files (.ofResults (files.map fun p => (p, checkFile world p))) := by
  have hpaths : (files.map fun p => (p, checkFile world p)).map Prod.fst = files := by
    simp [Function.comp_def]
  have hmem (p : Path) (result : Except Failure (List Violation)) :
      (p, result) ∈ files.map (fun p => (p, checkFile world p)) ↔ p ∈ files ∧ checkFile world p = result := by
    rw [List.mem_map]
    constructor
    · rintro ⟨q, hq, h⟩
      rw [Prod.mk.injEq] at h
      obtain ⟨rfl, h⟩ := h
      exact ⟨hq, h⟩
    · exact fun ⟨hp, h⟩ => ⟨p, hp, by rw [h]⟩
  refine ⟨?_, ?_, ?_, fun p vs => ?_, fun p e => ?_⟩
  · exact Report.ofResults_files_sublist.trans (by rw [hpaths])
  · exact Report.ofResults_failures_sublist.trans (by rw [hpaths])
  · exact Report.ofResults_perm.trans (by rw [hpaths])
  · rw [Report.mem_ofResults_files, hmem]
    exact and_congr_right fun hp => checkFile_eq_ok_iff (hfiles p hp)
  · rw [Report.mem_ofResults_failures]
    simp only [hmem, and_assoc, exists_and_left]
    exact and_congr_right fun hp => exists_congr fun why =>
      and_congr_left fun _ => checkFile_eq_error_iff (hfiles p hp)

/-- A run tells of each file that it collects once. Of a file it tells what `checkSource` finds in its text or
why it fails; and another content of one file, of which no rules about what to leave out are read, changes
nothing of what is told of files in other places. -/
theorem run_tells (hroot : world.root.Regular) (hexist : ∀ p ∈ paths, ∃ s, world.find p = .ok s)
    (hwalk : ∀ p ∈ paths, ∀ why, filesFor settings world p ≠ .error (.unwalkable p why)) :
    ∃ files r, collect settings world paths = .ok files ∧ run settings world paths = .ok r ∧
      files.Nodup ∧ r.TellsOf world files ∧
      ∀ target world', ¬ world.IsRuleSource target → world.SameBut target world' →
        ∃ r', collect settings world' paths = .ok files ∧ run settings world' paths = .ok r' ∧
          r'.only (fun p => world.place p ≠ target) = r.only (fun p => world.place p ≠ target) := by
  obtain ⟨files, hfiles⟩ := exists_collect hexist hwalk
  have hisFile (p : Path) (hp : p ∈ files) : p.IsFileIn world := (isFileIn_of_collect hroot hfiles hp).1
  have hnodup : files.Nodup := by
    obtain ⟨found, -, rfl⟩ := collect_eq_ok_iff.1 hfiles
    exact Path.sorted_nodup _
  refine ⟨files, _, hfiles, run_eq_ok_iff.2 ⟨files, hfiles, rfl⟩, hnodup, tellsOf_of_isFileIn hisFile, ?_⟩
  intro target world' hsource hbut
  have hfiles' := (collect_untouched hbut hsource hroot settings paths).trans hfiles
  refine ⟨_, hfiles', run_eq_ok_iff.2 ⟨files, hfiles', rfl⟩, ?_⟩
  rw [Report.only_ofResults, Report.only_ofResults, List.filter_map, List.filter_map]
  congr 1
  refine List.map_congr_left fun p hp => ?_
  have hne : world.place p ≠ target := by simpa using (List.mem_filter.1 hp).2
  rw [checkFile_untouched hbut hne]

end Run

def twoBoxes (content : ByteArray) : World :=
  .holding [(boxName, .file .empty), ("Item.java".toList, .file content)]

theorem flat_twoBoxes (content : ByteArray) :
    Flat [(boxName, .file .empty), ("Item.java".toList, .file content)] :=
  ⟨by simp [isFile], by simp [Visible, boxName]⟩

theorem regular_twoBoxes (content : ByteArray) : (twoBoxes content).root.Regular := by
  have hitem : IsName "Item.java".toList := ⟨by decide, by decide, by decide⟩
  have hnodup : [boxName, "Item.java".toList].Nodup := by decide
  refine regular_holding ?_ hnodup (by simp [Regular.file])
  intro e he
  obtain rfl | he := List.mem_cons.1 he
  · exact isName_boxName
  · obtain rfl := List.mem_singleton.1 he
    exact hitem

theorem sameBut_twoBoxes (content content' : ByteArray) :
    (twoBoxes content).SameBut ["Item.java".toList, homeName] (twoBoxes content') where
  root := .directory (.cons (.directory (.cons (.file fun _ => rfl) (.cons (.file fun h => absurd rfl h) .nil))) .nil)
  home := rfl

theorem run_tells_twoBoxes : ∃ files r, run .default (twoBoxes "class".toUTF8) [Path.dots 0] = .ok r ∧
    r.TellsOf (twoBoxes "class".toUTF8) files ∧ ∃ r', run .default (twoBoxes .empty) [Path.dots 0] = .ok r' ∧
      r'.only (fun p => (twoBoxes "class".toUTF8).place p ≠ ["Item.java".toList, homeName]) =
        r.only (fun p => (twoBoxes "class".toUTF8).place p ≠ ["Item.java".toList, homeName]) := by
  have hlimit : 2 * 0 + 1 ≤ pathLimit := by decide
  obtain ⟨hexist, hwalk⟩ := given_dots (flat_twoBoxes "class".toUTF8) hlimit .default
  obtain ⟨files, r, -, hrun, -, htells, hframe⟩ := run_tells (regular_twoBoxes _) hexist hwalk
  obtain ⟨r', -, hrun', honly⟩ := hframe _ _ ((flat_twoBoxes _).not_isRuleSource (by decide))
    (sameBut_twoBoxes "class".toUTF8 .empty)
  exact ⟨files, r, hrun, htells, r', hrun', honly⟩

theorem parse_nil : parse [] = .ok ⟨none, []⟩ := by
  have hfile : Rule.file [] = .ok ⟨none, []⟩ [] := by cbv
  have hstart : Reading.start [] = .ok ⟨[], ⟨[], .start⟩, []⟩ := by
    unfold Reading.start tokenize
    rw [scan_nil]
    rfl
  unfold parse
  rw [hstart]
  change (Reading.next ⟨[], ⟨[], .start⟩, []⟩).1 = _
  unfold Reading.next
  rw [hfile]
  rfl

theorem checkSource_empty (p : Path) : checkSource p "" = .ok [] :=
  have h : parse "".toList = .ok ⟨none, []⟩ := parse_nil
  checkSource_of_parse h p

theorem checkFile_far (content : ByteArray) : checkFile (boxWorld content) ((Path.dots 2045).join boxName) =
    .error (.unreadable ((Path.dots 2045).join boxName) .nameTooLong) := by
  have hsum := Path.byteCount_join_ge (Path.dots 2045) boxName
  have hname : byteCount boxName = 8 := by decide
  rw [Path.byteCount_dots, hname] at hsum
  have hlong : pathLimit < byteCount ((Path.dots 2045).join boxName) := Nat.lt_of_lt_of_le (by decide) hsum
  exact (checkFile_eq_error_iff (isFileIn_boxWorld 2045)).2 (.tooLong hlong)

/-- A file can be found that cannot be opened, so that it is not checked although there is nothing wrong in
it. -/
theorem run_far_box :
    (boxWorld .empty).root.Regular ∧ (∀ p ∈ [Path.dots 2045], ∃ s, (boxWorld .empty).find p = .ok s) ∧
      (∀ p ∈ [Path.dots 2045], ∀ why, filesFor .default (boxWorld .empty) p ≠ .error (.unwalkable p why)) ∧
      collect .default (boxWorld .empty) [Path.dots 2045] = .ok [(Path.dots 2045).join boxName] ∧
      (boxWorld .empty).root.at? ((boxWorld .empty).place ((Path.dots 2045).join boxName)) = some (.file .empty) ∧
      String.fromUTF8? .empty = some "" ∧ checkSource ((Path.dots 2045).join boxName) "" = .ok [] ∧
      run .default (boxWorld .empty) [Path.dots 2045] = .ok ⟨[], [((Path.dots 2045).join boxName,
        (Failure.unreadable ((Path.dots 2045).join boxName) .nameTooLong).message)]⟩ := by
  have hlimit : 2 * 2045 + 1 ≤ pathLimit := by decide
  obtain ⟨hexist, hwalk⟩ := given_dots flat_boxWorld hlimit .default
  refine ⟨regular_boxWorld, hexist, hwalk, collect_boxWorld hlimit, by rw [place_dots_join]; rfl, rfl,
    checkSource_empty _, run_eq_ok_iff.2 ⟨_, collect_boxWorld hlimit, ?_⟩⟩
  rw [List.map_singleton, checkFile_far]
  rfl

end MemberOrder
