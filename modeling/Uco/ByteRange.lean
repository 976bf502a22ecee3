import Mathlib.Data.List.TakeWhile
import Uco.RespGrammar
import Uco.Sendfile

/-! parse_range: the byte range that a Range header asks for. What stoull reads has 64 bits
and is stored in an int, which is compared with a size_t afterwards. -/
namespace Uco.ByteRange
open Resp RespGrammar Sendfile

section Model

def dash : UInt8 := 45
def plusSign : UInt8 := 43

def isSpace (c : UInt8) : Bool := c = 32 ∨ (9 ≤ c ∧ c ≤ 13)

/- std::stoull; none where it throws. A minus sign negates modulo 2^64. -/
def stoull (text : Bytes) : Option ℕ :=
  let text := text.dropWhile isSpace
  let negative := text.head? = some dash
  let digits := (if negative ∨ text.head? = some plusSign then text.tail else text).takeWhile isDigit
  if digits = [] ∨ 2^64 ≤ digitsFrom 0 digits then none
  else some (if negative then subSize 0 (digitsFrom 0 digits) else digitsFrom 0 digits)

def toInt (n : ℕ) : Int := Int.bmod n (2^32)
def toSize (i : Int) : ℕ := (i % 2^64).toNat

def rangeEnds (startStr endStr : Bytes) (filesz : ℕ) : Option (Int × Int) :=
  let last := toInt (subSize filesz 1)
  if startStr = [] then (stoull endStr).map fun lastN => (toInt (filesz - min lastN filesz),last)
  else (stoull startStr).bind fun a =>
    if endStr = [] then some (toInt a,last) else (stoull endStr).map fun b => (toInt a,toInt b)

def checkedRange (filesz : ℕ) (range : Int × Int) : Bool × Int × Int :=
  if range.2 < range.1 ∨ filesz ≤ toSize range.1 then (false,0,0)
  else (true,range.1,if filesz ≤ toSize range.2 then toInt (subSize filesz 1) else range.2)

def parseRange (rangeValue : Bytes) (filesz : ℕ) : Bool × Int × Int :=
  if (bytes "bytes=").isPrefixOf rangeValue then
    let range := rangeValue.drop 6
    if dash ∈ range then
      match rangeEnds (range.takeWhile (· ≠ dash)) ((range.dropWhile (· ≠ dash)).drop 1) filesz with
      | some range => checkedRange filesz range
      | none => (false,0,0)
    else (false,0,0)
  else (false,0,0)

end Model

section Meaning

structure Decimal (text : Bytes) (n : ℕ) : Prop where
  some : text ≠ []
  digits : text.all isDigit
  value : digitsFrom 0 text = n
  fits : n < 2^64

inductive Asked where
  | between (a b : ℕ)
  | onward (a : ℕ)
  | suffix (n : ℕ)
  deriving DecidableEq, Repr

inductive Header : Asked → Bytes → Prop where
  | between {a b first last} (start : Decimal first a) (stop : Decimal last b) :
      Header (.between a b) (bytes "bytes=" ++ (first ++ dash :: last))
  | onward {a first} (start : Decimal first a) : Header (.onward a) (bytes "bytes=" ++ (first ++ [dash]))
  | suffix {n last} (count : Decimal last n) : Header (.suffix n) (bytes "bytes=" ++ dash :: last)

def Asked.range (s : ℕ) : Asked → Option (ℕ × ℕ)
  | .between a b => if a ≤ b ∧ a < s then some (a,min b (s - 1)) else none
  | .onward a => if a < s then some (a,s - 1) else none
  | .suffix n => if 0 < n ∧ 0 < s then some (s - min n s,s - 1) else none

def answer : Option (ℕ × ℕ) → Bool × Int × Int
  | some (f,t) => (true,f,t)
  | none => (false,0,0)

def Unwrapped (s : ℕ) : Asked → Prop
  | .between a b =>
    if a ≤ b ∧ a < s then b < s ∨ (s : Int) - 1 ≤ toInt b
    else ¬(toInt a ≤ toInt b ∧ 0 ≤ toInt a ∧ toInt a < s)
  | .onward a => a < s ∨ ¬(0 ≤ toInt a ∧ toInt a < s)
  | .suffix _ => True

end Meaning

section Ints

theorem toIntSmall {n : ℕ} (small : n < 2^31) : toInt n = n := by
  have value := Int.bmod_def n (2^32)
  unfold toInt
  split at value <;> omega

theorem toIntRange (n : ℕ) : -2^31 ≤ toInt n ∧ toInt n < 2^31 := by
  have value := Int.bmod_def n (2^32)
  unfold toInt
  split at value <;> omega

theorem toIntLast {s : ℕ} (size : s < 2^31) : toInt (subSize s 1) = (s : Int) - 1 := by
  have value := Int.bmod_def (subSize s 1) (2^32)
  unfold toInt
  unfold subSize at value ⊢
  split at value <;> omega

theorem toSizeLe {s : ℕ} (size : s < 2^31) {i : Int} (low : -2^31 ≤ i) (high : i < 2^31) :
    s ≤ toSize i ↔ i < 0 ∨ s ≤ i := by
  unfold toSize
  omega

theorem checkedEq {s : ℕ} (size : s < 2^31) {f t : Int} (low : -2^31 ≤ f ∧ f < 2^31)
    (high : -2^31 ≤ t ∧ t < 2^31) : checkedRange s (f,t) =
      if f ≤ t ∧ 0 ≤ f ∧ f < s then (true,f,min t (s - 1)) else (false,0,0) := by
  simp only [checkedRange, toSizeLe size low.1 low.2, toSizeLe size high.1 high.2, toIntLast size]
  by_cases inside : f ≤ t ∧ 0 ≤ f ∧ f < s
  · rw [if_neg (by omega), if_pos inside]
    congr 2
    split <;> omega
  · rw [if_pos (by omega), if_neg inside]

end Ints

section Texts

theorem digitUnsigned {c : UInt8} (digit : isDigit c) : c ≠ dash ∧ c ≠ plusSign := by
  constructor <;> rintro rfl <;> exact absurd digit (by decide)

theorem decimalFirst {text : Bytes} {n : ℕ} (decimal : Decimal text n) :
    ∃ c rest, text = c :: rest ∧ isDigit c ∧ isSpace c = false ∧ c ≠ dash ∧ c ≠ plusSign := by
  rcases shape : text with _ | ⟨c,rest⟩
  · exact absurd shape decimal.some
  · have digits := decimal.digits
    rw [shape, List.all_cons, Bool.and_eq_true] at digits
    have digit := digits.1
    have range := digit
    simp only [isDigit, decide_eq_true_eq, UInt8.le_iff_toNat_le] at range
    refine ⟨c,rest,rfl,digit,?_,digitUnsigned digit⟩
    simp only [isSpace, decide_eq_false_iff_not, UInt8.le_iff_toNat_le, ← UInt8.toNat_inj]
    simp only [UInt8.toNat_ofNat] at range ⊢
    omega

theorem stoullDecimal {text : Bytes} {n : ℕ} (decimal : Decimal text n) : stoull text = some n := by
  obtain ⟨c,rest,rfl,digit,notSpace,notDash,notPlus⟩ := decimalFirst decimal
  have taken : (c :: rest).takeWhile isDigit = c :: rest :=
    List.takeWhile_eq_self_iff.mpr (List.all_eq_true.mp decimal.digits)
  have fits := decimal.fits
  have small : ¬(c :: rest = [] ∨ 2^64 ≤ digitsFrom 0 (c :: rest)) := by
    rw [decimal.value]
    simp only [reduceCtorEq, false_or]
    omega
  have front : (c :: rest).dropWhile isSpace = c :: rest := by simp [notSpace]
  have unsigned : ¬(some c = some dash ∨ some c = some plusSign) := by simp [notDash, notPlus]
  have positive : ¬some c = some dash := by simp [notDash]
  simp only [stoull, front, List.head?_cons, if_neg unsigned, taken, if_neg small, if_neg positive]
  rw [decimal.value]

theorem noDash {text : Bytes} (digits : text.all isDigit) : ∀ c ∈ text, c ≠ dash := by
  rintro c mem rfl
  exact absurd (List.all_eq_true.mp digits _ mem) (by decide)

theorem parseRangeEq {first last : Bytes} (digits : first.all isDigit) (s : ℕ) :
    parseRange (bytes "bytes=" ++ (first ++ dash :: last)) s =
      ((rangeEnds first last s).map (checkedRange s)).getD (false,0,0) := by
  have bare : ∀ c ∈ first, decide (c ≠ dash) = true := fun c mem => by simpa using noDash digits c mem
  have pre : (bytes "bytes=").isPrefixOf (bytes "bytes=" ++ (first ++ dash :: last)) = true := by
    rw [List.isPrefixOf_iff_prefix]
    exact List.prefix_append _ _
  have rest : (bytes "bytes=" ++ (first ++ dash :: last)).drop 6 = first ++ dash :: last := rfl
  have before : (first ++ dash :: last).takeWhile (· ≠ dash) = first := by
    rw [List.takeWhile_append_of_pos bare]
    simp
  have after : ((first ++ dash :: last).dropWhile (· ≠ dash)).drop 1 = last := by
    rw [List.dropWhile_append_of_pos bare]
    simp
  simp only [parseRange, pre, if_true, rest, before, after]
  rw [if_pos (by simp)]
  cases rangeEnds first last s <;> rfl

theorem parseBetween {s a b : ℕ} {first last : Bytes} (start : Decimal first a) (stop : Decimal last b) :
    parseRange (bytes "bytes=" ++ (first ++ dash :: last)) s = checkedRange s (toInt a,toInt b) := by
  have ends : rangeEnds first last s = some (toInt a,toInt b) := by
    simp only [rangeEnds, if_neg start.some, stoullDecimal start, Option.bind_some, if_neg stop.some,
      stoullDecimal stop, Option.map_some]
  rw [parseRangeEq start.digits, ends, Option.map_some, Option.getD_some]

theorem parseOnward {s a : ℕ} {first : Bytes} (start : Decimal first a) :
    parseRange (bytes "bytes=" ++ (first ++ [dash])) s = checkedRange s (toInt a,toInt (subSize s 1)) := by
  have ends : rangeEnds first [] s = some (toInt a,toInt (subSize s 1)) := by
    simp only [rangeEnds, if_neg start.some, stoullDecimal start, Option.bind_some, if_true]
  rw [parseRangeEq start.digits, ends, Option.map_some, Option.getD_some]

theorem parseSuffix {s n : ℕ} {last : Bytes} (count : Decimal last n) :
    parseRange (bytes "bytes=" ++ dash :: last) s =
      checkedRange s (toInt (s - min n s),toInt (subSize s 1)) := by
  have ends : rangeEnds [] last s = some (toInt (s - min n s),toInt (subSize s 1)) := by
    simp only [rangeEnds, if_true, stoullDecimal count, Option.map_some]
  have parsed := @parseRangeEq [] last rfl s
  rwa [List.nil_append, ends, Option.map_some, Option.getD_some] at parsed

end Texts

section Exact
variable {s : ℕ}

theorem betweenIff (size : s < 2^31) (a b : ℕ) :
    checkedRange s (toInt a,toInt b) = answer ((Asked.between a b).range s) ↔ Unwrapped s (.between a b) := by
  rw [checkedEq size (toIntRange a) (toIntRange b)]
  simp only [Asked.range, Unwrapped]
  by_cases asked : a ≤ b ∧ a < s
  · have first : toInt a = a := toIntSmall (by omega)
    have second : b < s → toInt b = b := fun small => toIntSmall (by omega)
    rw [if_pos asked, if_pos asked, first]
    simp only [answer]
    split
    · simp only [Prod.mk.injEq, true_and]
      omega
    · simp only [Prod.mk.injEq, Bool.false_eq_true, false_and, false_iff]
      omega
  · rw [if_neg asked, if_neg asked]
    simp only [answer]
    split <;> simp_all

theorem onwardIff (size : s < 2^31) (a : ℕ) :
    checkedRange s (toInt a,toInt (subSize s 1)) = answer ((Asked.onward a).range s) ↔ Unwrapped s (.onward a) := by
  rw [checkedEq size (toIntRange a) (toIntRange _), toIntLast size]
  simp only [Asked.range, Unwrapped]
  by_cases asked : a < s
  · have first : toInt a = a := toIntSmall (by omega)
    rw [if_pos asked, if_pos (by omega), first]
    simp only [answer, Prod.mk.injEq, true_and]
    omega
  · rw [if_neg asked]
    simp only [answer]
    split
    · simp only [Prod.mk.injEq, Bool.true_eq_false, false_and, false_iff]
      omega
    · simp only [true_iff]
      omega

theorem suffixRight (size : s < 2^31) (n : ℕ) :
    checkedRange s (toInt (s - min n s),toInt (subSize s 1)) = answer ((Asked.suffix n).range s) := by
  rw [checkedEq size (toIntRange _) (toIntRange _), toIntLast size, toIntSmall (by omega)]
  simp only [Asked.range]
  by_cases asked : 0 < n ∧ 0 < s
  · rw [if_pos asked, if_pos (by omega)]
    simp only [answer, Prod.mk.injEq, true_and]
    omega
  · rw [if_neg asked, if_neg (by omega)]
    rfl

theorem acceptedInside (size : s < 2^31) {header : Bytes} {f t : Int}
    (accepted : parseRange header s = (true,f,t)) : 0 ≤ f ∧ f ≤ t ∧ t < s := by
  have ends : ∀ a b, rangeEnds a b s = none ∨ ∃ m n, rangeEnds a b s = some (toInt m,toInt n) := by
    intro a b
    simp only [rangeEnds]
    split
    · cases stoull b <;> simp
    · cases stoull a with
      | none => simp
      | some m =>
        simp only [Option.bind_some]
        split
        · exact .inr ⟨m,_,rfl⟩
        · cases stoull b <;> simp
  unfold parseRange at accepted
  split at accepted
  · simp only at accepted
    split at accepted
    · rcases ends _ _ with wrong | ⟨m,n,right⟩
      · rw [wrong] at accepted
        simp at accepted
      · rw [right] at accepted
        simp only [checkedEq size (toIntRange m) (toIntRange n)] at accepted
        split at accepted
        · simp only [Prod.mk.injEq, true_and] at accepted
          omega
        · simp at accepted
    · simp at accepted
  · simp at accepted

theorem parsesIff (size : s < 2^31) :
    (∀ asked header, Header asked header →
      (parseRange header s = answer (asked.range s) ↔ Unwrapped s asked)) ∧
      ∀ header f t, parseRange header s = (true,f,t) → 0 ≤ f ∧ f ≤ t ∧ t < s := by
  refine ⟨?_,fun header f t accepted => acceptedInside size accepted⟩
  intro asked header written
  cases written with
  | between start stop =>
    rw [parseBetween start stop]
    exact betweenIff size _ _
  | onward start =>
    rw [parseOnward start]
    exact onwardIff size _
  | suffix count =>
    rw [parseSuffix count]
    exact iff_of_true (suffixRight size _) trivial

theorem secondHalf : parseRange (bytes "bytes=" ++ (bytes "5" ++ [dash])) 10 = (true,5,9) :=
  ((parsesIff (by decide)).1 (.onward 5) _ (.onward ⟨by decide,by decide,by decide,by decide⟩)).mpr
    (.inl (by decide))

/- 2^32 is stored as 0, so the whole of ten bytes is given for a start behind them. -/
theorem wrappedStart : ¬ ∀ s < 2^31, ∀ asked header, Header asked header →
    parseRange header s = answer (asked.range s) := by
  intro right
  have wrapped := right 10 (by decide) (.onward 4294967296) (bytes "bytes=" ++ (bytes "4294967296" ++ [dash]))
    (.onward ⟨by decide,by decide,by decide,by decide⟩)
  exact absurd wrapped (by decide)

end Exact
end Uco.ByteRange
