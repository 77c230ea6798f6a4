import Mathlib.Data.String.Basic
import Mathlib.Tactic.SplitIfs
/-! The order of texts by their bytes. UTF-8 keeps the order of characters, and the bytes of no character begin
those of another, so it is the order by characters. Main statement: `codeUnits_lt_iff`. -/
namespace MemberOrder

def codeUnits (s : String) : List Nat := s.toUTF8.data.toList.map UInt8.toNat

def charUnits (c : Char) : List Nat := (String.utf8EncodeChar c).map UInt8.toNat

theorem codeUnits_eq (s : String) : codeUnits s = s.toList.flatMap charUnits := by
  have hbytes : s.toUTF8 = (s.toList.flatMap String.utf8EncodeChar).toByteArray :=
    String.utf8Encode_toList.symm
  rw [codeUnits, hbytes, List.toList_data_toByteArray, List.map_flatMap]
  rfl

theorem charUnits_ne_nil (c : Char) : charUnits c ≠ [] := by
  unfold charUnits String.utf8EncodeChar
  dsimp only
  split_ifs <;> simp

theorem charUnits_lt {c d : Char} (h : c < d) (s t : List Nat) : charUnits c ++ s < charUnits d ++ t := by
  have hlt : c.val.toNat < d.val.toNat := h
  have hd : d.val.toNat < 0x110000 := by
    have hvalid := d.valid
    simp only [UInt32.isValidChar, Nat.isValidChar] at hvalid
    omega
  have hbyte {k : Nat} (hk : k < 256) : (UInt8.ofNat k).toNat = k := by
    rw [UInt8.toNat_ofNat', Nat.mod_eq_of_lt hk]
  unfold charUnits String.utf8EncodeChar
  generalize c.val.toNat = m at hlt
  generalize d.val.toNat = n at hlt hd
  -- The digits to base 64, each from the one behind it, and no more than four.
  have hm : m / 4096 = m / 64 / 64 ∧ m / 262144 = m / 64 / 64 / 64 ∧ m / 64 / 64 / 64 % 8 = m / 64 / 64 / 64 := by
    omega
  have hn : n / 4096 = n / 64 / 64 ∧ n / 262144 = n / 64 / 64 / 64 ∧ n / 64 / 64 / 64 % 8 = n / 64 / 64 / 64 := by
    omega
  dsimp only
  split_ifs
  all_goals
    simp (disch := omega) only [List.map_cons, List.map_nil, List.cons_append, List.nil_append,
      List.cons_lt_cons_iff, hbyte, hm, hn]
    omega

theorem flatMap_charUnits_strictMono : StrictMono fun s : List Char => s.flatMap charUnits := by
  intro s
  induction s with
  | nil =>
    intro t h
    cases t with
    | nil => cases h
    | cons d t =>
      obtain ⟨k, u, hd⟩ := List.exists_cons_of_ne_nil (charUnits_ne_nil d)
      simp [hd]
  | cons c s ih =>
    intro t h
    cases t with
    | nil => cases h
    | cons d t =>
      simp only [List.flatMap_cons]
      obtain hcd | ⟨rfl, hst⟩ := List.cons_lt_cons_iff.1 h
      · exact charUnits_lt hcd _ _
      · exact List.append_left_lt (ih hst)

/-- Texts come in the order of their bytes. -/
theorem codeUnits_lt_iff {s t : String} : codeUnits s < codeUnits t ↔ s < t := by
  rw [codeUnits_eq, codeUnits_eq, String.lt_iff]
  exact flatMap_charUnits_strictMono.lt_iff_lt

theorem codeUnits_injective : Function.Injective codeUnits := by
  intro s t h
  rw [codeUnits_eq, codeUnits_eq] at h
  exact String.toList_inj.1 (flatMap_charUnits_strictMono.injective h)

end MemberOrder
