import Uco.ByteRange
import Uco.Ustring

/-! StrToInt64 and its siblings over std::from_chars: which texts are read as numbers, and
what a caller finds in the out parameter. -/
namespace Uco.StrToInteger
open Resp (isDigit)
open RespGrammar (digitsFrom)
open ByteRange (dash digitUnsigned)
open Ustring (plus)

section Model

structure IntegerType where
  signed : Bool
  bits : ℕ

def IntegerType.low (t : IntegerType) : Int := if t.signed then -2 ^ (t.bits - 1) else 0
def IntegerType.high (t : IntegerType) : Int := if t.signed then 2 ^ (t.bits - 1) - 1 else 2 ^ t.bits - 1

def int32 : IntegerType := ⟨true,32⟩
def uint32 : IntegerType := ⟨false,32⟩
def int64 : IntegerType := ⟨true,64⟩
def uint64 : IntegerType := ⟨false,64⟩

inductive Errc where
  | ok | invalidArgument | resultOutOfRange
  deriving DecidableEq, Repr

structure FromCharsResult where
  ptr : ℕ
  ec : Errc
  deriving DecidableEq, Repr

def negative (t : IntegerType) (text : Bytes) : Bool := t.signed ∧ text.head? = some dash

def magnitude (t : IntegerType) (text : Bytes) : Bytes := if negative t text then text.tail else text

def number (t : IntegerType) (text digits : Bytes) : Int :=
  if negative t text then -digitsFrom 0 digits else digitsFrom 0 digits

/- std::from_chars in base 10; the value is left alone unless a number was read. -/
def fromChars (t : IntegerType) (text : Bytes) (value : Int) : FromCharsResult × Int :=
  let digits := (magnitude t text).takeWhile isDigit
  let ptr := if negative t text then digits.length + 1 else digits.length
  let read := number t text digits
  if digits = [] then (⟨0,.invalidArgument⟩,value)
  else if t.low ≤ read ∧ read ≤ t.high then (⟨ptr,.ok⟩,read)
  else (⟨ptr,.resultOutOfRange⟩,value)

def readWhole (t : IntegerType) (s : Bytes) (out : Int) : Bool × Int :=
  let (parsed,value) := fromChars t s 0
  if parsed.ec ≠ .ok ∨ parsed.ptr ≠ s.length then (false,out) else (true,value)

def readStripped (t : IntegerType) (s : Bytes) (out : Int) : Bool × Int :=
  match s with
  | [] => (false,out)
  | c :: rest =>
    if c = plus then
      if rest = [] then (false,out) else readWhole t rest out
    else readWhole t (c :: rest) out

def strToInt64 (s : Bytes) (out : Int) : Bool × Int := readStripped int64 s out

def strToUint64 (s : Bytes) (out : Int) : Bool × Int :=
  if s = [] ∨ s.head? = some dash then (false,out) else readStripped uint64 s out

def narrowed (refused : Int → Bool) (cast : Int → Int) (wide : Bool × Int) (out : Int) : Bool × Int :=
  if wide.1 = false ∨ refused wide.2 then (false,out) else (true,cast wide.2)

def strToInt32 (s : Bytes) (out : Int) : Bool × Int :=
  narrowed (fun v => v < int32.low ∨ v > int32.high) (fun v => v.bmod (2 ^ 32)) (strToInt64 s 0) out

def strToUint32 (s : Bytes) (out : Int) : Bool × Int :=
  narrowed (fun v => v > uint32.high) (fun v => v % 2 ^ 32) (strToUint64 s 0) out

end Model

section Contract

structure Numeral (text : Bytes) (n : ℕ) : Prop where
  nonempty : text ≠ []
  digits : text.all isDigit
  value : digitsFrom 0 text = n

inductive UnsignedDecimal : Bytes → Int → Prop where
  | bare {text n} (numeral : Numeral text n) : UnsignedDecimal text n
  | positive {text n} (numeral : Numeral text n) : UnsignedDecimal (plus :: text) n

inductive SignedDecimal : Bytes → Int → Prop where
  | bare {text n} (numeral : Numeral text n) : SignedDecimal text n
  | positive {text n} (numeral : Numeral text n) : SignedDecimal (plus :: text) n
  | negative {text n} (numeral : Numeral text n) : SignedDecimal (dash :: text) (-n)

/- The reader gives the numbers of this form that the type holds, and leaves `out` alone otherwise. -/
structure Reads (t : IntegerType) (form : Bytes → Int → Prop) (read : Bytes → Int → Bool × Int) (s : Bytes) : Prop where
  accepts : ∀ out n, read s out = (true,n) ↔ form s n ∧ t.low ≤ n ∧ n ≤ t.high
  keeps : ∀ out, (read s out).1 = false → (read s out).2 = out

structure Contract (s : Bytes) : Prop where
  wideSigned : Reads int64 SignedDecimal strToInt64 s
  wideUnsigned : Reads uint64 UnsignedDecimal strToUint64 s
  signed : Reads int32 SignedDecimal strToInt32 s
  unsigned : Reads uint32 UnsignedDecimal strToUint32 s

inductive Pattern (t : IntegerType) : Bytes → Int → Prop where
  | bare {text n} (numeral : Numeral text n) : Pattern t text n
  | negative {text n} (signed : t.signed = true) (numeral : Numeral text n) : Pattern t (dash :: text) (-n)

/- What the plus sign by hand and the minus sign of from_chars make together. -/
inductive Accepted (t : IntegerType) : Bytes → Int → Prop where
  | stripped {rest n} (pattern : Pattern t rest n) : Accepted t (plus :: rest) n
  | whole {text n} (bare : text.head? ≠ some plus) (pattern : Pattern t text n) : Accepted t text n

/- Two signs and a number: the plus sign is stripped by hand, the minus sign is left to from_chars. -/
def TwoSigned (s : Bytes) : Prop := ∃ text n, s = plus :: dash :: text ∧ Numeral text n ∧ n ≤ 2 ^ 63

end Contract

section Layers
variable {t : IntegerType} {s text : Bytes} {n : ℕ}

theorem numeralFirst (numeral : Numeral text n) : ∃ c rest, text = c :: rest ∧ c ≠ dash ∧ c ≠ plus := by
  rcases text with _ | ⟨c,rest⟩
  · exact absurd rfl numeral.nonempty
  · have digit := (Bool.and_eq_true_iff.mp (List.all_cons ▸ numeral.digits)).1
    exact ⟨c,rest,rfl,digitUnsigned digit⟩

theorem negativeShape (t : IntegerType) (s : Bytes) :
    negative t s = true ↔ t.signed = true ∧ ∃ text, s = dash :: text := by
  rw [negative, decide_eq_true_eq, List.head?_eq_some_iff]

theorem patternNumber (t : IntegerType) (s : Bytes) (n : Int) :
    Pattern t s n ↔ magnitude t s ≠ [] ∧ (magnitude t s).all isDigit ∧ number t s (magnitude t s) = n := by
  by_cases minus : negative t s = true
  · have shape := (negativeShape t s).mp minus
    obtain ⟨signed,text,rfl⟩ := shape
    simp only [magnitude, number, if_pos minus, List.tail_cons]
    constructor
    · intro pattern
      cases pattern with
      | bare numeral =>
        obtain ⟨c,rest,text,other,-⟩ := numeralFirst numeral
        exact absurd (List.cons.inj text).1.symm other
      | negative _ numeral => exact ⟨numeral.nonempty,numeral.digits,by rw [numeral.value]⟩
    · rintro ⟨nonempty,digits,rfl⟩
      exact .negative signed ⟨nonempty,digits,rfl⟩
  · simp only [magnitude, number, if_neg minus]
    constructor
    · intro pattern
      cases pattern with
      | bare numeral => exact ⟨numeral.nonempty,numeral.digits,by rw [numeral.value]⟩
      | negative signed _ => exact absurd ((negativeShape t _).mpr ⟨signed,_,rfl⟩) minus
    · rintro ⟨nonempty,digits,rfl⟩
      exact .bare ⟨nonempty,digits,rfl⟩

theorem magnitudeLength (t : IntegerType) (s : Bytes) :
    s.length = if negative t s then (magnitude t s).length + 1 else (magnitude t s).length := by
  rw [magnitude]
  split
  · rename_i minus
    obtain ⟨-,text,rfl⟩ := (negativeShape t s).mp minus
    rfl
  · rfl

theorem stopsBefore (part : ¬(magnitude t s).all isDigit = true) (value : Int) :
    (fromChars t s value).1.ec ≠ .ok ∨ (fromChars t s value).1.ptr ≠ s.length := by
  have less : ((magnitude t s).takeWhile isDigit).length ≠ (magnitude t s).length := by
    intro same
    have all := (List.takeWhile_prefix isDigit).eq_of_length same
    exact part (List.all_eq_true.mpr (List.takeWhile_eq_self_iff.mp all))
  rw [fromChars, magnitudeLength t s]
  split
  · exact .inl nofun
  · split
    · refine .inr ?_
      dsimp only
      split <;> omega
    · exact .inl nofun

theorem wholeNumber (t : IntegerType) (s : Bytes) (out : Int) : readWhole t s out =
    if magnitude t s ≠ [] ∧ (magnitude t s).all isDigit ∧
      t.low ≤ number t s (magnitude t s) ∧ number t s (magnitude t s) ≤ t.high
    then (true,number t s (magnitude t s)) else (false,out) := by
  by_cases digits : (magnitude t s).all isDigit = true
  · rw [readWhole, fromChars, List.takeWhile_eq_self_iff.mpr (List.all_eq_true.mp digits), ← magnitudeLength]
    by_cases empty : magnitude t s = []
    · simp [empty]
    · by_cases range : t.low ≤ number t s (magnitude t s) ∧ number t s (magnitude t s) ≤ t.high
      · simp [empty, range, digits]
      · simp [empty, range]
  · rw [if_neg fun whole => digits whole.2.1]
    exact if_pos (stopsBefore digits 0)

theorem wholeReads (t : IntegerType) (s : Bytes) : Reads t (Pattern t) (readWhole t) s := by
  constructor
  · intro out n
    rw [wholeNumber, patternNumber]
    split
    · rename_i whole
      obtain ⟨nonempty,digits,low,high⟩ := whole
      constructor
      · intro same
        obtain ⟨-,rfl⟩ := Prod.mk.inj same
        exact ⟨⟨nonempty,digits,rfl⟩,low,high⟩
      · rintro ⟨⟨-,-,rfl⟩,-⟩
        rfl
    · rename_i part
      refine ⟨nofun,?_⟩
      rintro ⟨⟨nonempty,digits,rfl⟩,low,high⟩
      exact absurd ⟨nonempty,digits,low,high⟩ part
  · intro out
    rw [wholeNumber]
    split
    · exact nofun
    · exact fun _ => rfl

theorem readsSame {form form' : Bytes → Int → Prop} {read : Bytes → Int → Bool × Int} (reads : Reads t form read s)
    (same : ∀ n, t.low ≤ n → n ≤ t.high → (form s n ↔ form' s n)) : Reads t form' read s := by
  refine ⟨fun out n => ?_,reads.keeps⟩
  rw [reads.accepts]
  exact and_congr_left fun range => same n range.1 range.2

theorem readsAgree {form form' : Bytes → Int → Prop} {read : Bytes → Int → Bool × Int} (one : Reads t form read s)
    (two : Reads t form' read s) {n : Int} (written : form s n) (range : t.low ≤ n ∧ n ≤ t.high) : form' s n :=
  ((two.accepts 0 n).mp ((one.accepts 0 n).mpr ⟨written,range⟩)).1

theorem readStrippedReads (t : IntegerType) (s : Bytes) : Reads t (Accepted t) (readStripped t) s := by
  cases s with
  | nil =>
    refine ⟨fun out n => ⟨nofun,?_⟩,fun _ _ => rfl⟩
    rintro ⟨accepted,-⟩
    cases accepted with
    | whole _ pattern => exact absurd ((patternNumber t [] n).mp pattern).1 (by simp [magnitude])
  | cons c rest =>
    by_cases raised : c = plus
    · subst raised
      have same : readStripped t (plus :: rest) = readWhole t rest := by
        funext out
        rw [readStripped, if_pos rfl]
        split
        · rename_i empty
          rw [empty, wholeNumber, if_neg (by simp [magnitude])]
        · rfl
      have reads := wholeReads t rest
      refine ⟨fun out n => ?_,fun out => same ▸ reads.keeps out⟩
      rw [same, reads.accepts]
      refine and_congr_left fun _ => ⟨.stripped,fun accepted => ?_⟩
      cases accepted with
      | stripped pattern => exact pattern
      | whole bare _ => exact absurd rfl bare
    · have same : readStripped t (c :: rest) = readWhole t (c :: rest) := by
        funext out
        rw [readStripped, if_neg raised]
      have reads := wholeReads t (c :: rest)
      have bare : (c :: rest).head? ≠ some plus := fun here => raised (Option.some.inj here)
      refine ⟨fun out n => ?_,fun out => same ▸ reads.keeps out⟩
      rw [same, reads.accepts]
      refine and_congr_left fun _ => ⟨.whole bare,fun accepted => ?_⟩
      cases accepted with
      | stripped _ => exact absurd rfl raised
      | whole _ pattern => exact pattern

theorem narrowedReads {wide : IntegerType} {form : Bytes → Int → Prop} {read : Bytes → Int → Bool × Int}
    {refused : Int → Bool} {cast : Int → Int} (reads : Reads wide form read s)
    (inside : wide.low ≤ t.low ∧ t.high ≤ wide.high)
    (fits : ∀ v, wide.low ≤ v → v ≤ wide.high → (refused v = false ↔ t.low ≤ v ∧ v ≤ t.high))
    (same : ∀ v, t.low ≤ v → v ≤ t.high → cast v = v) :
    Reads t form (fun s out => narrowed refused cast (read s 0) out) s := by
  constructor
  · intro out n
    constructor
    · intro answer
      rw [narrowed] at answer
      split at answer
      · cases answer
      · rename_i taken
        obtain ⟨ok,taken⟩ := not_or.mp taken
        rw [Bool.not_eq_false] at ok
        rw [Bool.not_eq_true] at taken
        obtain ⟨written,low,high⟩ := (reads.accepts 0 _).mp (Prod.ext ok rfl)
        have range := (fits _ low high).mp taken
        rw [same _ range.1 range.2] at answer
        exact (Prod.mk.inj answer).2 ▸ ⟨written,range⟩
    · rintro ⟨written,low,high⟩
      have within : wide.low ≤ n ∧ n ≤ wide.high := ⟨inside.1.trans low,high.trans inside.2⟩
      have answer : read s 0 = (true,n) := (reads.accepts 0 n).mpr ⟨written,within⟩
      have taken := (fits n within.1 within.2).mpr ⟨low,high⟩
      rw [narrowed, answer, if_neg (by simp [taken]), same n low high]
  · intro out
    rw [narrowed]
    split
    · exact fun _ => rfl
    · exact nofun

end Layers

section Contracts
variable {s : Bytes}

theorem twoSignedForeign (text : Bytes) (k : Int) : ¬SignedDecimal (plus :: dash :: text) k := by
  intro written
  generalize shape : plus :: dash :: text = s at written
  cases written with
  | bare numeral =>
    obtain ⟨c,rest,rfl,-,other⟩ := numeralFirst numeral
    exact other (List.cons.inj shape).1.symm
  | positive numeral =>
    obtain ⟨c,rest,rfl,other,-⟩ := numeralFirst numeral
    exact other (List.cons.inj (List.cons.inj shape).2).1.symm
  | negative _ => exact absurd (List.cons.inj shape).1 (by decide)

theorem signedAccepted (single : ¬TwoSigned s) {n : Int} (low : int64.low ≤ n) :
    Accepted int64 s n ↔ SignedDecimal s n := by
  constructor
  · intro accepted
    cases accepted with
    | stripped pattern =>
      cases pattern with
      | bare numeral => exact .positive numeral
      | @negative text m _ numeral =>
        have floor : int64.low = -2 ^ 63 := rfl
        exact absurd ⟨text,m,rfl,numeral,by omega⟩ single
    | whole bare pattern =>
      cases pattern with
      | bare numeral => exact .bare numeral
      | negative _ numeral => exact .negative numeral
  · intro written
    cases written with
    | bare numeral =>
      obtain ⟨c,rest,rfl,-,other⟩ := numeralFirst numeral
      exact .whole (fun here => other (Option.some.inj here)) (.bare numeral)
    | positive numeral => exact .stripped (.bare numeral)
    | negative numeral => exact .whole (show some dash ≠ some plus by decide) (.negative rfl numeral)

theorem unsignedAccepted (s : Bytes) (n : Int) : Accepted uint64 s n ↔ UnsignedDecimal s n := by
  constructor
  · intro accepted
    cases accepted with
    | stripped pattern =>
      cases pattern with
      | bare numeral => exact .positive numeral
      | negative signed _ => cases signed
    | whole bare pattern =>
      cases pattern with
      | bare numeral => exact .bare numeral
      | negative signed _ => cases signed
  · intro written
    cases written with
    | bare numeral =>
      obtain ⟨c,rest,rfl,-,other⟩ := numeralFirst numeral
      exact .whole (fun here => other (Option.some.inj here)) (.bare numeral)
    | positive numeral => exact .stripped (.bare numeral)

theorem strToUint64Reads (s : Bytes) : Reads uint64 UnsignedDecimal strToUint64 s := by
  have same : strToUint64 s = readStripped uint64 s := by
    funext out
    rw [strToUint64]
    split
    · rename_i refused
      rcases refused with rfl | minus
      · rfl
      · obtain ⟨rest,rfl⟩ := List.head?_eq_some_iff.mp minus
        rw [readStripped, if_neg (by decide), wholeNumber, if_neg]
        intro whole
        exact absurd (List.all_eq_true.mp whole.2.1 dash List.mem_cons_self) (by decide)
    · rfl
  have reads := readsSame (readStrippedReads uint64 s) fun n _ _ => unsignedAccepted s n
  exact ⟨fun out n => same ▸ reads.accepts out n,fun out => same ▸ reads.keeps out⟩

theorem strToInt64Reads (single : ¬TwoSigned s) : Reads int64 SignedDecimal strToInt64 s :=
  readsSame (readStrippedReads int64 s) fun _ low _ => signedAccepted single low

theorem strToUint32Reads (s : Bytes) : Reads uint32 UnsignedDecimal strToUint32 s := by
  refine narrowedReads (strToUint64Reads s) (by decide) (fun v low _ => ?_) fun v low high => ?_
  · rw [decide_eq_false_iff_not, not_lt]
    exact (and_iff_right (show uint32.low ≤ v from low)).symm
  · have ceiling : uint32.high = 2 ^ 32 - 1 := rfl
    exact Int.emod_eq_of_lt low (by omega)

theorem strToInt32Reads (single : ¬TwoSigned s) : Reads int32 SignedDecimal strToInt32 s := by
  refine narrowedReads (strToInt64Reads single) (by decide) (fun v _ _ => ?_) fun v low high => ?_
  · rw [decide_eq_false_iff_not, not_or, not_lt, not_lt]
  · have floor : int32.low = -2 ^ 31 := rfl
    have ceiling : int32.high = 2 ^ 31 - 1 := rfl
    rw [Int.bmod_def]
    split <;> omega

theorem contractIff (s : Bytes) : Contract s ↔ ¬TwoSigned s := by
  constructor
  · rintro contract ⟨text,n,rfl,numeral,small⟩
    have accepted : Accepted int64 (plus :: dash :: text) (-n) := .stripped (.negative rfl numeral)
    have range : int64.low ≤ (-n : Int) ∧ (-n : Int) ≤ int64.high := by
      have floor : int64.low = -2 ^ 63 := rfl
      have ceiling : int64.high = 2 ^ 63 - 1 := rfl
      omega
    exact twoSignedForeign text _ (readsAgree (readStrippedReads int64 _) contract.wideSigned accepted range)
  · intro single
    exact ⟨strToInt64Reads single,strToUint64Reads s,strToInt32Reads single,strToUint32Reads s⟩

theorem minusFiveTaken : strToInt64 (bytes "+-5") 7 = (true,-5) ∧
    (¬∃ n, SignedDecimal (bytes "+-5") n) ∧ ¬∀ s, Contract s := by
  have taken : strToInt64 (bytes "+-5") 7 = (true,-5) := by decide
  have foreign : ∀ n, ¬SignedDecimal (bytes "+-5") n := twoSignedForeign [53]
  refine ⟨taken,fun ⟨n,written⟩ => foreign n written,fun always => ?_⟩
  exact foreign (-5) (((always (bytes "+-5")).wideSigned.accepts 7 (-5)).mp taken).1

end Contracts

end Uco.StrToInteger
