import MemberOrder.Proofs.Json.RoundTrip
import MemberOrder.Report
/-! A report as a document. Whatever the texts in it are, it is read back: a row for each finding, with all that
is told of it. Main statement: `Report.rows?_render`. -/
namespace MemberOrder

/-- A finding as a reader of the document has it. -/
structure Row where
  file : String
  line : Nat
  column : Nat
  severity : String
  key : String
  message : String
  member : String
  actualKind : String
  deriving DecidableEq

open Settings.Written (string?)

namespace Json

def nat? : Json → Option Nat
  | .number t => if t.all Char.isDigit then some (Nat.ofDigitChars 10 t 0) else none
  | _ => none

theorem nat?_ofNat (n : Nat) : nat? (ofNat n) = some n := by
  have hdigits : (Nat.toDigits 10 n).all Char.isDigit := List.all_eq_true.2 fun c hc =>
    Nat.isDigit_of_mem_toDigits (by decide) (by decide) hc
  rw [ofNat, nat?, if_pos hdigits, Nat.ofDigitChars_toDigits (by decide) (by decide)]

theorem fits_ofNat (d n : Nat) : Fits (d + 1) (ofNat n) :=
  .number (isNumber_toDigits n)

theorem string?_ofString (s : String) : string? (ofString s) = some s := by
  rw [ofString, string?, String.ofList_toList]

end Json

namespace Row

def names : List String :=
  ["file", "line", "column", "severity", "key", "message", "member", "actual_kind"]

/-- An object with just these eight fields, in this order. -/
def ofJson? : Json → Option Row
  | .object [(file, v₁), (line, v₂), (column, v₃), (severity, v₄), (key, v₅), (message, v₆), (member, v₇),
      (actualKind, v₈)] =>
    if [file, line, column, severity, key, message, member, actualKind] = names.map String.toList then do
      return ⟨← string? v₁, ← v₂.nat?, ← v₃.nat?, ← string? v₄, ← string? v₅, ← string? v₆, ← string? v₇,
        ← string? v₈⟩
    else none
  | _ => none

end Row

def rows? (text : List Char) : Option (List Row) :=
  match Json.read? text with
  | some (.array items) => items.mapM Row.ofJson?
  | _ => none

def Violation.row (v : Violation) (p : Path) (s : Settings) : Row where
  file := String.ofList p
  line := v.position.line
  column := v.position.column
  severity := s.severity.name
  key := v.message.key
  message := s.text v.message
  member := v.name
  actualKind := v.actual.name

namespace Finding

def row (f : Finding) : Row :=
  ⟨f.file, f.line, f.column, f.severity.name, f.message.key, f.text, f.member, f.actual.name⟩

theorem ofJson?_toJson (f : Finding) : Row.ofJson? f.toJson = some f.row := by
  simp only [toJson, Row.ofJson?, Row.names, List.map_cons, List.map_nil, if_true, Json.string?_ofString,
    Json.nat?_ofNat]
  rfl

theorem fits_toJson (d : Nat) (f : Finding) : f.toJson.Fits (d + 2) := by
  refine .object ?_
  simp only [List.forall_mem_cons]
  exact ⟨.string _, Json.fits_ofNat d _, Json.fits_ofNat d _, .string _, .string _, .string _, .string _, .string _,
    List.forall_mem_nil _⟩

end Finding

namespace Report

theorem rows_findings (r : Report) (s : Settings) :
    (r.findings s).map Finding.row = r.files.flatMap fun f => f.2.map fun v => v.row f.1 s := by
  simp only [findings, List.map_flatMap, List.map_map]
  rfl

theorem length_findings (r : Report) (s : Settings) : (r.findings s).length = r.violationCount := by
  simp [findings, violationCount, List.length_flatMap]

theorem mapM_ofJson? (fs : List Finding) : (fs.map Finding.toJson).mapM Row.ofJson? = some (fs.map Finding.row) := by
  induction fs with
  | nil => rfl
  | cons f fs ih => simp [List.mapM_cons, Finding.ofJson?_toJson, ih]

theorem rows?_renderJson (r : Report) (s : Settings) :
    rows? (r.render s .json).toList = some ((r.findings s).map Finding.row) := by
  have hfits : Json.Fits 128 (.array ((r.findings s).map Finding.toJson)) :=
    .array (List.forall_mem_map.2 fun f _ => f.fits_toJson 125)
  rw [render, renderJson, String.toList_ofList, rows?, Json.read?_write hfits]
  exact mapM_ofJson? _

/-- The document of a report is read back as a row for each finding, file by file, as many as there are. -/
theorem rows?_render (r : Report) (s : Settings) :
    rows? (r.render s .json).toList = some (r.files.flatMap fun f => f.2.map fun v => v.row f.1 s) ∧
      (r.files.flatMap fun f => f.2.map fun v => v.row f.1 s).length = r.violationCount := by
  rw [← rows_findings, List.length_map, length_findings]
  exact ⟨rows?_renderJson r s, rfl⟩

end Report

end MemberOrder
