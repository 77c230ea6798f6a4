import Mathlib.Algebra.GroupWithZero.Nat
import MemberOrder.Proofs.Report.Rows
import MemberOrder.Proofs.Settings.Overrides
/-! A report as lines. There is a line for each finding, the same findings as in the document, and one for the count;
but paths and the texts of messages are put into the lines as they are, so that a line feed in one of them breaks its
line. Main statement: `Report.lines_render`. -/
namespace MemberOrder

def feeds (s : String) : Nat :=
  s.toList.count '\n'

/-- A text that is these lines, each of them ended by a line feed and with no other one in it. -/
structure ConsistsOf (text : String) (lines : List String) : Prop where
  eq_join : text = String.join (lines.map (· ++ "\n"))
  unbroken : ∀ l ∈ lines, '\n' ∉ l.toList

section Feeds

theorem feeds_eq_zero_iff {s : String} : feeds s = 0 ↔ '\n' ∉ s.toList :=
  List.count_eq_zero

theorem feeds_append (s t : String) : feeds (s ++ t) = feeds s + feeds t := by
  rw [feeds, String.toList_append, List.count_append]
  rfl

theorem feeds_join (lines : List String) :
    feeds (String.join (lines.map (· ++ "\n"))) = lines.length + (lines.map feeds).sum := by
  induction lines with
  | nil => rfl
  | cons l lines ih =>
    have hend : feeds "\n" = 1 := rfl
    rw [List.map_cons, String.join_cons, feeds_append, feeds_append, ih, hend, List.length_cons, List.map_cons,
      List.sum_cons]
    omega

theorem ConsistsOf.length_eq {text : String} {lines : List String} (h : ConsistsOf text lines) :
    lines.length = feeds text := by
  have hnone : (lines.map feeds).sum = 0 := List.sum_eq_zero_iff_forall_eq_nat.2 <| List.forall_mem_map.2 fun l hl =>
    feeds_eq_zero_iff.2 (h.unbroken l hl)
  rw [h.eq_join, feeds_join, hnone, Nat.add_zero]

theorem feeds_repr (n : Nat) : feeds n.repr = 0 := by
  rw [feeds_eq_zero_iff, Nat.toList_repr]
  exact fun h => absurd (Nat.isDigit_of_mem_toDigits (by decide) (by decide) h) (by decide)

theorem feeds_counted (n : Nat) (one : String) (h : feeds one = 0) : feeds (counted n one) = 0 := by
  have hone : feeds (if n = 1 then one else one ++ "s") = 0 := by
    split
    · exact h
    · rw [feeds_append, h]
      rfl
  rw [counted, feeds_append, feeds_append, hone]
  exact congrArg (· + 0) (congrArg (· + 0) (feeds_repr n))

end Feeds

def Row.shown (row : Row) : String :=
  row.file ++ ":" ++ toString row.line ++ ":" ++ toString row.column ++ ": " ++ row.severity ++ ": " ++ row.message ++
    " [" ++ row.key ++ "]"

def summaryLine (findings checked failed : Nat) : String :=
  counted findings "violation" ++ " in " ++ counted checked "file" ++ " checked" ++
    (if failed = 0 then "" else s!", {failed} could not be checked")

theorem feeds_summaryLine (findings checked failed : Nat) : feeds (summaryLine findings checked failed) = 0 := by
  have hfailed : feeds (if failed = 0 then "" else s!", {failed} could not be checked") = 0 := by
    split
    · rfl
    · change feeds (", " ++ failed.repr ++ " could not be checked") = 0
      rw [feeds_append, feeds_append, feeds_repr]
      rfl
  rw [summaryLine, feeds_append, feeds_append, feeds_append, feeds_append, feeds_counted _ _ rfl,
    feeds_counted _ _ rfl, hfailed]
  rfl

theorem Finding.feeds_shown (f : Finding) : feeds f.shown = feeds f.file + feeds f.text := by
  have hseverity : feeds f.severity.name = 0 := by cases f.severity <;> rfl
  have hkey : feeds f.message.key = 0 := by cases f.message <;> rfl
  have hline : feeds (toString f.line) = 0 := feeds_repr f.line
  have hcolumn : feeds (toString f.column) = 0 := feeds_repr f.column
  have hsigns : feeds ":" = 0 ∧ feeds ": " = 0 ∧ feeds " [" = 0 ∧ feeds "]" = 0 := ⟨rfl, rfl, rfl, rfl⟩
  simp only [shown, feeds_append, hseverity, hkey, hline, hcolumn, hsigns, Nat.add_zero]

theorem Finding.shown_row (f : Finding) : f.row.shown = f.shown := rfl

namespace Report

theorem summary_eq (r : Report) : r.summary = summaryLine r.violationCount r.files.length r.failures.length := by
  rw [summary, summaryLine]
  cases r.failures <;> rfl

theorem renderPlain_eq_join (r : Report) (s : Settings) : r.render s .plain =
    String.join (((r.findings s).map Finding.shown ++ [r.summary]).map (· ++ "\n")) := by
  rw [render, renderPlain, List.map_append, String.join_append, List.map_map, String.append_assoc]
  simp [Function.comp_def]

theorem consistsOf_render_iff (r : Report) (s : Settings) :
    ConsistsOf (r.render s .plain) ((r.findings s).map Finding.shown ++ [r.summary]) ↔
      ∀ f ∈ r.findings s, '\n' ∉ f.file.toList ∧ '\n' ∉ f.text.toList := by
  have hline (f : Finding) : '\n' ∉ f.shown.toList ↔ '\n' ∉ f.file.toList ∧ '\n' ∉ f.text.toList := by
    simp only [← feeds_eq_zero_iff, f.feeds_shown, Nat.add_eq_zero_iff]
  have hsummary : '\n' ∉ r.summary.toList := by
    rw [← feeds_eq_zero_iff, summary_eq, feeds_summaryLine]
  constructor
  · intro h f hf
    exact (hline f).1 (h.unbroken _ (List.mem_append_left _ (List.mem_map_of_mem hf)))
  · intro h
    refine ⟨renderPlain_eq_join r s, List.forall_mem_append.2 ⟨?_, List.forall_mem_singleton.2 hsummary⟩⟩
    exact List.forall_mem_map.2 fun f hf => (hline f).2 (h f hf)

theorem feeds_renderPlain (r : Report) (s : Settings) : feeds (r.render s .plain) =
    r.violationCount + 1 + ((r.findings s).map fun f => feeds f.file + feeds f.text).sum := by
  have hsummary : feeds r.summary = 0 := by rw [summary_eq, feeds_summaryLine]
  have hlines : ((r.findings s).map Finding.shown).map feeds =
      (r.findings s).map fun f => feeds f.file + feeds f.text := by
    simp only [List.map_map, Function.comp_def, Finding.feeds_shown]
  rw [renderPlain_eq_join, feeds_join, List.map_append, hlines, List.length_append, List.length_map, length_findings,
    List.sum_append, List.map_singleton, hsummary]
  rfl

/-- Without line feeds in paths and in the texts of messages, a report is a line for each finding and one for the
count. With them it has as many lines more. -/
theorem lines_render (r : Report) (s : Settings) : ∃ rows, rows? (r.render s .json).toList = some rows ∧
    rows.length = r.violationCount ∧
    (ConsistsOf (r.render s .plain)
        (rows.map Row.shown ++ [summaryLine rows.length r.files.length r.failures.length]) ↔
      ∀ row ∈ rows, '\n' ∉ row.file.toList ∧ '\n' ∉ row.message.toList) ∧
    feeds (r.render s .plain) =
      r.violationCount + 1 + (rows.map fun row => feeds row.file + feeds row.message).sum := by
  have hlength : ((r.findings s).map Finding.row).length = r.violationCount := by
    rw [List.length_map, length_findings]
  have hshown : ((r.findings s).map Finding.row).map Row.shown = (r.findings s).map Finding.shown := by
    rw [List.map_map]
    exact List.map_congr_left fun f _ => f.shown_row
  refine ⟨_, rows?_renderJson r s, hlength, ?_, ?_⟩
  · rw [hlength, ← summary_eq, hshown, List.forall_mem_map]
    exact consistsOf_render_iff r s
  · rw [feeds_renderPlain, List.map_map]
    rfl

/-- A message in two lines: the report on one finding has three. -/
theorem exists_render_broken : ∃ s v,
    Settings.read "\x7b\"messages\":\x7b\"instance\":\"a\\nb\"\x7d\x7d".toList = .ok s ∧
      Report.violationCount ⟨[("Box.java".toList, [v])], []⟩ = 1 ∧
      ¬ ∃ lines, ConsistsOf (Report.render ⟨[("Box.java".toList, [v])], []⟩ s .plain) lines ∧ lines.length = 1 + 1 := by
  have hread : Settings.Given.ReadFrom ⟨none, some [("instance", "a\nb")], none⟩
      "\x7b\"messages\":\x7b\"instance\":\"a\\nb\"\x7d\x7d".toList :=
    ⟨.object [("messages".toList, .object [("instance".toList, .string "a\nb".toList)])], by cbv,
      Settings.Given.isIn_messages rfl⟩
  have hnamed : Settings.Given.IsNamed ⟨none, some [("instance", "a\nb")], none⟩ :=
    List.forall_mem_singleton.2 ⟨.instance, by decide⟩
  have hsorted : Settings.sortedByName [("instance", "a\nb")] = [("instance", "a\nb")] := List.mergeSort_singleton _
  have hs : Settings.ofWritten (Settings.Given.written ⟨none, some [("instance", "a\nb")], none⟩) =
      .ok ⟨.error, fun k => Settings.lastText? k.Names (Settings.sortedByName [("instance", "a\nb")]), ["java"]⟩ :=
    Settings.ofWritten_eq_ok_iff.2 ⟨hnamed, (Option.some_ne_none _).symm, rfl⟩
  rw [hsorted] at hs
  refine ⟨_, ⟨⟨24, 35, 1, 25⟩, .constructor, .instanceField, .instance, "item"⟩,
    (Settings.read_of_readFrom hread).trans hs, rfl, ?_⟩
  rintro ⟨lines, hlines, hlength⟩
  rw [hlines.length_eq, feeds_renderPlain] at hlength
  exact absurd hlength (by decide +kernel)

end Report

end MemberOrder
