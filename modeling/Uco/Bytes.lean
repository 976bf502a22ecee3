import Mathlib.Data.List.Basic

/-! Byte strings: ASCII texts, hexadecimal digits, and what a reader of
NUL-terminated strings sees of one. -/
namespace Uco

abbrev Bytes := List UInt8

instance lawfulBytes : LawfulBEq Bytes := inferInstance

def bytes (text : String) : Bytes := text.toByteArray.data.toList

theorem bytesAscii {text : List Char} (ascii : ∀ c ∈ text, c.utf8Size = 1) :
    bytes (String.ofList text) = text.map (fun c => c.toNat.toUInt8) := by
  rw [bytes, String.toByteArray_ofList, List.utf8Encode, List.toList_data_toByteArray, List.map_eq_flatMap]
  exact List.flatMap_congr fun c inside => String.utf8EncodeChar_eq_singleton (ascii c inside)

def hexValue (c : UInt8) : Option UInt8 :=
  if 48 ≤ c ∧ c ≤ 57 then some (c - 48)
  else if 97 ≤ c ∧ c ≤ 102 then some (c - 97 + 10)
  else if 65 ≤ c ∧ c ≤ 70 then some (c - 65 + 10)
  else none

def hexDigit (value : UInt8) : UInt8 := if value < 10 then 48 + value else 87 + value

def hexOf (raw : Bytes) : Bytes := raw.flatMap fun (b : UInt8) => [hexDigit (b >>> 4), hexDigit (b &&& 15)]

@[simp] theorem hexOfLength (raw : Bytes) : (hexOf raw).length = 2 * raw.length := by
  induction raw with
  | nil => rfl
  | cons b rest ih =>
    simp only [hexOf, List.flatMap_cons, List.length_append, List.length_cons, List.length_nil] at ih ⊢
    omega

def cString (path : Bytes) : Bytes := path.takeWhile (· ≠ 0)

theorem cStringPrefix {clean : Bytes} (noNul : (0 : UInt8) ∉ clean) (rest : Bytes) :
    cString (clean ++ rest) = clean ++ cString rest := by
  refine List.takeWhile_append_of_pos fun c hc => ?_
  simp only [ne_eq, decide_eq_true_eq]
  rintro rfl
  exact noNul hc

end Uco
