import Uco.Bytes

/-! String helpers of the core: hexadecimal digits, URL encoding and URL decoding. -/
namespace Uco.Ustring

def charToHex (c : UInt8) : Option UInt8 := hexValue c

def percent : UInt8 := 37
def plus : UInt8 := 43
def space : UInt8 := 32

def escaped : Bytes → Option UInt8
  | a :: b :: _ =>
    match charToHex a, charToHex b with
    | some hi, some lo => some (hi <<< 4 ||| lo)
    | _, _ => none
  | _ => none

/- The decoding loop; `skip` bytes of an escape are still to be passed over. -/
@[simp] def urlDecodeFrom (plusAsSpace : Bool) (skip : Nat) : Bytes → Bytes
  | [] => []
  | c :: rest =>
    if skip > 0 then urlDecodeFrom plusAsSpace (skip - 1) rest
    else if c = plus ∧ plusAsSpace then space :: urlDecodeFrom plusAsSpace 0 rest
    else if c = percent then
      match escaped rest with
      | some byte => byte :: urlDecodeFrom plusAsSpace 2 rest
      -- an invalid sequence is kept as it stands
      | none => percent :: urlDecodeFrom plusAsSpace 0 rest
    else c :: urlDecodeFrom plusAsSpace 0 rest

def urlDecode (value : Bytes) (plusAsSpace : Bool) : Bytes := urlDecodeFrom plusAsSpace 0 value

def kHex (value : UInt8) : UInt8 := if value < 10 then 48 + value else 55 + value

def isalnum (c : UInt8) : Bool := (48 ≤ c ∧ c ≤ 57) ∨ (65 ≤ c ∧ c ≤ 90) ∨ (97 ≤ c ∧ c ≤ 122)

def unreserved (c : UInt8) : Bool := isalnum c ∨ c = 45 ∨ c = 95 ∨ c = 46 ∨ c = 126

def urlEncodeByte (c : UInt8) : Bytes := if unreserved c then [c] else [percent,kHex (c >>> 4),kHex (c &&& 15)]

def urlEncode (value : Bytes) : Bytes := value.flatMap urlEncodeByte

def tolower (c : UInt8) : UInt8 := if 65 ≤ c ∧ c ≤ 90 then c + 32 else c

def equalsIgnoreCase (a b : Bytes) : Bool := a.map tolower = b.map tolower

section Coding

theorem everyByte {P : UInt8 → Prop} (all : ∀ n < 256, P n.toUInt8) (c : UInt8) : P c := by
  have here := all c.toNat c.toNat_lt
  rwa [show c.toNat.toUInt8 = c from UInt8.ofNat_toNat] at here

theorem byteCoded : ∀ c : UInt8, (charToHex (kHex (c >>> 4)) = some (c >>> 4) ∧
    charToHex (kHex (c &&& 15)) = some (c &&& 15) ∧ (c >>> 4) <<< 4 ||| (c &&& 15) = c) ∧
      (unreserved c = true → c ≠ plus ∧ c ≠ percent) ∧ (urlEncodeByte c).all fun d => unreserved d ∨ d = percent :=
  everyByte (by decide +kernel)

theorem escapedKHex (c : UInt8) (rest : Bytes) : escaped (kHex (c >>> 4) :: kHex (c &&& 15) :: rest) = some c := by
  obtain ⟨high,low,both⟩ := (byteCoded c).1
  simp [escaped, high, low, both]

theorem urlDecodeSkips (plusAsSpace : Bool) (read rest : Bytes) :
    urlDecodeFrom plusAsSpace read.length (read ++ rest) = urlDecodeFrom plusAsSpace 0 rest := by
  induction read with
  | nil => rfl
  | cons c read ih => simpa using ih

theorem decodeEncodedByte (plusAsSpace : Bool) (c : UInt8) (rest : Bytes) :
    urlDecodeFrom plusAsSpace 0 (urlEncodeByte c ++ rest) = c :: urlDecodeFrom plusAsSpace 0 rest := by
  rw [urlEncodeByte]
  split
  · rename_i plain
    obtain ⟨notPlus,notPercent⟩ := (byteCoded c).2.1 plain
    simp [notPlus, notPercent]
  · have apart : percent ≠ plus := by decide
    rw [List.cons_append, urlDecodeFrom, List.cons_append, List.cons_append, escapedKHex]
    simp [apart]

theorem decodeEncoded (value : Bytes) (plusAsSpace : Bool) : urlDecode (urlEncode value) plusAsSpace = value := by
  rw [urlDecode]
  induction value with
  | nil => rfl
  | cons c value ih => rw [urlEncode, List.flatMap_cons, decodeEncodedByte, ← urlEncode, ih]

theorem encodedClean {value : Bytes} {c : UInt8} (inside : c ∈ urlEncode value) : unreserved c ∨ c = percent := by
  obtain ⟨d,_,here⟩ := List.mem_flatMap.mp inside
  exact decide_eq_true_eq.mp (List.all_eq_true.mp (byteCoded d).2.2 c here)

end Coding

end Uco.Ustring
