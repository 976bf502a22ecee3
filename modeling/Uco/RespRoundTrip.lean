import Uco.RespGrammar

/-! Encodings of replies: the parser returns what was encoded, whatever follows, and
asks for more on every proper prefix. -/
namespace Uco.RespRoundTrip
open Resp RespGrammar

section Encodings

inductive Encodes : Bytes → Reply → Prop where
  | status {text} (one : OneLine text) : Encodes (plus :: (text ++ crlf)) { type := .status, str := text }
  | error {text} (one : OneLine text) : Encodes (minus :: (text ++ crlf))
      { retCode := kServerError, errMsg := text, type := .status, str := text }
  | integer {text v} (numeral : numeralOf text = some v) (fits : fits64 v) :
      Encodes (colon :: (text ++ crlf)) { type := .integer, integer := v }
  | bulk {text payload} (numeral : numeralOf text = some (payload.length : Int)) :
      Encodes (dollar :: (text ++ crlf ++ (payload ++ crlf))) { type := .string, str := payload }
  | nilBulk {text} (numeral : numeralOf text = some (-1)) : Encodes (dollar :: (text ++ crlf)) { type := .nil }
  | nilArray {text} (numeral : numeralOf text = some (-1)) : Encodes (star :: (text ++ crlf)) { type := .nil }
  | array {text pieces items} (numeral : numeralOf text = some (items.length : Int))
      (each : List.Forall₂ Encodes pieces items) :
      Encodes (star :: (text ++ crlf ++ pieces.flatten)) { type := .array, elements := items }

theorem numeralLine {text : Bytes} {n : Int} (numeral : numeralOf text = some n) : OneLine text := by
  have noReturn : (13 : UInt8) ∉ text := by
    intro inside
    cases text with
    | nil => simp at inside
    | cons c rest =>
      simp only [numeralOf] at numeral
      split at numeral
      · split at numeral
        · rename_i isMinus digits
          rcases List.mem_cons.mp inside with same | later
          · simp [isMinus, minus] at same
          · exact absurd (List.all_eq_true.mp digits.2 _ later) (by decide)
        · contradiction
      · split at numeral
        · rename_i digits
          exact absurd (List.all_eq_true.mp digits _ inside) (by decide)
        · contradiction
  intro within
  exact noReturn (within.subset (by simp [crlf]))

theorem lineAt {text : Bytes} (one : OneLine text) (rest : Bytes) :
    line (text ++ crlf ++ rest) = .whole text rest .none := by
  have size : text.length + 2 = (text ++ crlf).length := by simp [crlf]
  simp only [line, findCrlfAt one, size, List.drop_left]
  rw [List.append_assoc, List.take_left]

theorem numberAt {text : Bytes} {n : Int} (numeral : numeralOf text = some n) (rest : Bytes) :
    number (text ++ crlf ++ rest) = .whole (Int.bmod n (2 ^ 64)) rest ⟨!decide (n.natAbs < 2 ^ 63), false⟩ := by
  rw [number, lineAt (numeralLine numeral)]
  simp [Front.andThen, numeral]

theorem bulkAt {text payload : Bytes} (numeral : numeralOf text = some (payload.length : Int))
    (small : payload.length + 2 < 2 ^ 63) (rest : Bytes) :
    bulk (text ++ crlf ++ (payload ++ crlf ++ rest)) = .whole { type := .string, str := payload } rest .none := by
  have fits : fits64 payload.length := ⟨by omega, by omega⟩
  have size : payload.length + 2 = (payload ++ crlf).length := by simp [crlf]
  have exactly : payload.length < 2 ^ 63 := by omega
  simp only [bulk, numberAt numeral, Front.andThen, bmodFits fits, Int.natAbs_natCast, exactly, decide_true,
    Bool.not_true]
  rw [if_neg (by omega), if_neg (by omega), if_neg (by simp [crlf]), Int.toNat_natCast]
  have ending : ((payload ++ crlf ++ rest).drop payload.length).take 2 = crlf := by
    rw [List.append_assoc, List.drop_left]
    rfl
  rw [ending, size, List.drop_left, List.append_assoc, List.take_left]
  simp [Front.flawed, Flaws.join, Flaws.none]

theorem absentAt {text : Bytes} (numeral : numeralOf text = some (-1)) (rest : Bytes) (next : Int → Bytes → Front Reply)
    (absence : ∀ len rest, len < 0 → next len rest = absent len rest) :
    (number (text ++ crlf ++ rest)).andThen next = .whole { type := .nil } rest .none := by
  have fits : fits64 (-1) := by decide
  simp only [numberAt numeral, Front.andThen, bmodFits fits]
  rw [absence _ _ (by decide)]
  rfl

theorem encodesSize {c : Bytes} {r : Reply} (encodes : Encodes c r) : 0 < c.length := by
  cases encodes <;> simp

theorem itemsFit {pieces : List Bytes} {items : List Reply} (each : List.Forall₂ Encodes pieces items) :
    items.length ≤ pieces.flatten.length := by
  induction each with
  | nil => simp
  | cons one _ ih =>
    have size := encodesSize one
    simp only [List.flatten_cons, List.length_append, List.length_cons]
    omega

def Reads (fuel : Nat) (c : Bytes) (r : Reply) : Prop :=
  ∀ rest, ∃ overflow, front fuel (c ++ rest) = .whole r rest ⟨overflow,false⟩

theorem elementsAt {fuel : Nat} {pieces : List Bytes} {items : List Reply}
    (each : List.Forall₂ (Reads fuel) pieces items) (rest : Bytes) :
    ∃ overflow, elements (front fuel) items.length (pieces.flatten ++ rest) = .whole items rest ⟨overflow,false⟩ := by
  induction each with
  | nil => exact ⟨false,rfl⟩
  | @cons piece item pieces items one _ ih =>
    obtain ⟨first,read⟩ := one (pieces.flatten ++ rest)
    obtain ⟨others,ih⟩ := ih
    refine ⟨first || others,?_⟩
    simp only [List.flatten_cons, List.length_cons, elements, List.append_assoc, read, ih, Front.andThen, Front.flawed,
      Flaws.join, Flaws.none, Bool.or_false]

theorem forallMono {pieces : List Bytes} {items : List Reply} {P : Bytes → Reply → Prop} {bound : Nat}
    (each : List.Forall₂ Encodes pieces items) (room : pieces.flatten.length ≤ bound)
    (step : ∀ c r, c.length ≤ bound → Encodes c r → P c r) : List.Forall₂ P pieces items := by
  induction each with
  | nil => exact .nil
  | cons one _ ih =>
    simp only [List.flatten_cons, List.length_append] at room
    exact .cons (step _ _ (by omega) one) (ih (by omega))

theorem arrayAt {fuel : Nat} {text : Bytes} {pieces : List Bytes} {items : List Reply}
    (numeral : numeralOf text = some (items.length : Int)) (small : items.length < 2 ^ 63)
    (each : List.Forall₂ (Reads fuel) pieces items) (rest : Bytes) :
    ∃ overflow, array (front fuel) (text ++ crlf ++ (pieces.flatten ++ rest)) =
      .whole { type := .array, elements := items } rest ⟨overflow,false⟩ := by
  have fits : fits64 items.length := ⟨by omega, by omega⟩
  obtain ⟨overflow,read⟩ := elementsAt each rest
  refine ⟨overflow,?_⟩
  simp only [array, numberAt numeral, Front.andThen, bmodFits fits, Int.natAbs_natCast, small, decide_true,
    Bool.not_true]
  rw [if_neg (by omega), Int.toNat_natCast, read]
  simp [Front.flawed, Flaws.join, Flaws.none]

theorem frontEncoded (fuel : Nat) {c : Bytes} {r : Reply} (encodes : Encodes c r) (enough : c.length ≤ fuel)
    (stored : c.length ≤ maxSize) : Reads fuel c r := by
  induction fuel generalizing c r with
  | zero =>
    have size := encodesSize encodes
    omega
  | succ fuel ih =>
    intro rest
    have bound : c.length + 2 ≤ 2 ^ 63 := by
      simp only [maxSize] at stored
      omega
    cases encodes with
    | @status text one =>
      refine ⟨false,?_⟩
      rw [List.cons_append, frontStatus, lineAt one]
      rfl
    | @error text one =>
      refine ⟨false,?_⟩
      rw [List.cons_append, frontError, lineAt one]
      rfl
    | @integer text v numeral fits =>
      refine ⟨!decide (v.natAbs < 2 ^ 63),?_⟩
      rw [List.cons_append, frontInteger, numberAt numeral, bmodFits fits]
      simp [Front.andThen, Front.flawed, Flaws.join, Flaws.none]
    | @bulk text payload numeral =>
      simp only [List.length_cons, List.length_append] at bound
      refine ⟨false,?_⟩
      rw [List.cons_append, frontBulk, List.append_assoc (text ++ crlf), bulkAt numeral (by omega)]
      rfl
    | nilBulk numeral =>
      refine ⟨false,?_⟩
      rw [List.cons_append, frontBulk]
      exact absentAt numeral rest _ fun len rest negative => if_pos negative
    | nilArray numeral =>
      refine ⟨false,?_⟩
      rw [List.cons_append, frontArray]
      exact absentAt numeral rest _ fun len rest negative => if_pos negative
    | @array text pieces items numeral each =>
      simp only [List.length_cons, List.length_append] at enough stored bound
      have count := itemsFit each
      have small : items.length < 2 ^ 63 := by omega
      have all : List.Forall₂ (Reads fuel) pieces items :=
        forallMono each le_rfl fun c r within one => ih one (by omega) (by omega)
      rw [List.cons_append, frontArray, List.append_assoc (text ++ crlf)]
      exact arrayAt numeral small all rest

end Encodings

section Prefixes

theorem lineShort {text tail got missing : Bytes} (one : OneLine text) (stream : got ++ missing = text ++ crlf ++ tail) :
    line got = .short ∨ ∃ more, got = text ++ crlf ++ more ∧ more ++ missing = tail := by
  by_cases long : (text ++ crlf).length ≤ got.length
  · right
    have front : text ++ crlf <+: got :=
      List.prefix_of_prefix_length_le (List.prefix_append _ tail) (stream ▸ List.prefix_append got missing) long
    obtain ⟨more,rfl⟩ := front
    exact ⟨more,rfl,by simpa using stream⟩
  · left
    have unseen : findCrlf got = none := by
      cases found : findCrlf got with
      | none => rfl
      | some n =>
        obtain ⟨before,rest,split,-,early⟩ := findCrlfSplit found
        have first := findCrlfAt early (rest ++ missing)
        rw [← List.append_assoc, ← split, stream, findCrlfAt one] at first
        have same := Option.some.inj first
        have size := congrArg List.length split
        simp only [List.length_append] at size long
        omega
    rw [line, unseen]

theorem lineCut {text got missing : Bytes} (one : OneLine text) (stream : got ++ missing = text ++ crlf)
    (part : missing ≠ []) : line got = .short := by
  rcases lineShort one (stream.trans (List.append_nil _).symm) with short | ⟨more,rfl,rest⟩
  · exact short
  · simp [part] at rest

theorem numberShort {text tail got missing : Bytes} {n : Int} (numeral : numeralOf text = some n)
    (stream : got ++ missing = text ++ crlf ++ tail) :
    number got = .short ∨ ∃ more, got = text ++ crlf ++ more ∧ more ++ missing = tail := by
  rcases lineShort (numeralLine numeral) stream with short | whole
  · left
    rw [number, short]
    rfl
  · exact .inr whole

def Waits (fuel : Nat) (c : Bytes) (_ : Reply) : Prop :=
  ∀ got missing, got ++ missing = c → missing ≠ [] → front fuel got = .short

theorem elementsShort {fuel : Nat} {pieces : List Bytes} {items : List Reply} (reads : List.Forall₂ (Reads fuel) pieces items)
    (waits : List.Forall₂ (Waits fuel) pieces items) {got missing : Bytes} (stream : got ++ missing = pieces.flatten)
    (part : missing ≠ []) : elements (front fuel) items.length got = .short := by
  induction reads generalizing got with
  | nil => simp [part] at stream
  | @cons piece item pieces items read _ ih =>
    obtain ⟨wait,waits⟩ := List.forall₂_cons.mp waits
    rw [List.length_cons, elements]
    rcases List.append_eq_append_iff.mp (List.flatten_cons ▸ stream) with ⟨more,here,later⟩ | ⟨more,rfl,later⟩
    · by_cases none : more = []
      · -- the element is there and nothing behind it
        subst none
        obtain ⟨overflow,read⟩ := read []
        rw [List.append_nil] at here read
        have rest : elements (front fuel) _ [] = .short := ih waits (by simpa using later)
        simp only [← here, read, Front.andThen, rest, Front.flawed]
      · rw [wait got more here.symm none]
        rfl
    · have rest := ih waits later.symm
      obtain ⟨overflow,read⟩ := read more
      simp only [read, Front.andThen, rest, Front.flawed]

theorem bulkShort {text payload got missing : Bytes} (numeral : numeralOf text = some (payload.length : Int))
    (small : payload.length + 2 < 2 ^ 63) (stream : got ++ missing = text ++ crlf ++ (payload ++ crlf))
    (part : missing ≠ []) : bulk got = .short := by
  rcases numberShort numeral stream with short | ⟨more,rfl,rest⟩
  · rw [bulk, short]
    rfl
  · have fits : fits64 payload.length := ⟨by omega, by omega⟩
    have size := congrArg List.length rest
    have left := List.length_pos_of_ne_nil part
    simp only [List.length_append, crlf, List.length_cons, List.length_nil] at size
    simp only [bulk, numberAt numeral, Front.andThen, bmodFits fits, Int.toNat_natCast]
    rw [if_neg (by omega), if_neg (by omega), if_pos (by omega)]
    rfl

theorem absentShort {text got missing : Bytes} (numeral : numeralOf text = some (-1)) (next : Int → Bytes → Front Reply)
    (stream : got ++ missing = text ++ crlf) (part : missing ≠ []) : (number got).andThen next = .short := by
  rw [number, lineCut (numeralLine numeral) stream part]
  rfl

theorem arrayShort {fuel : Nat} {text : Bytes} {pieces : List Bytes} {items : List Reply} {got missing : Bytes}
    (numeral : numeralOf text = some (items.length : Int)) (small : items.length < 2 ^ 63)
    (reads : List.Forall₂ (Reads fuel) pieces items) (waits : List.Forall₂ (Waits fuel) pieces items)
    (stream : got ++ missing = text ++ crlf ++ pieces.flatten) (part : missing ≠ []) :
    array (front fuel) got = .short := by
  rcases numberShort numeral stream with short | ⟨more,rfl,rest⟩
  · rw [array, short]
    rfl
  · have fits : fits64 items.length := ⟨by omega, by omega⟩
    simp only [array, numberAt numeral, Front.andThen, bmodFits fits, Int.toNat_natCast,
      elementsShort reads waits rest part]
    rw [if_neg (by omega)]
    rfl

theorem frontShort (fuel : Nat) {c : Bytes} {r : Reply} (encodes : Encodes c r) (enough : c.length ≤ fuel)
    (stored : c.length ≤ maxSize) : Waits fuel c r := by
  induction fuel generalizing c r with
  | zero =>
    have size := encodesSize encodes
    omega
  | succ fuel ih =>
    have bound : c.length + 2 ≤ 2 ^ 63 := by
      simp only [maxSize] at stored
      omega
    intro got missing stream part
    cases got with
    | nil => rfl
    | cons t got =>
      cases encodes with
      | status one | error one =>
        obtain ⟨rfl,tail⟩ := List.cons.inj stream
        simp [front, lineCut one tail part, Front.andThen, plus, minus, colon]
      | integer numeral fits =>
        obtain ⟨rfl,tail⟩ := List.cons.inj stream
        simp [front, number, lineCut (numeralLine numeral) tail part, Front.andThen]
      | @bulk text payload numeral =>
        obtain ⟨rfl,tail⟩ := List.cons.inj stream
        simp only [List.length_cons, List.length_append] at bound
        rw [frontBulk]
        exact bulkShort numeral (by omega) tail part
      | nilBulk numeral =>
        obtain ⟨rfl,tail⟩ := List.cons.inj stream
        rw [frontBulk]
        exact absentShort numeral _ tail part
      | nilArray numeral =>
        obtain ⟨rfl,tail⟩ := List.cons.inj stream
        rw [frontArray]
        exact absentShort numeral _ tail part
      | @array text pieces items numeral each =>
        obtain ⟨rfl,tail⟩ := List.cons.inj stream
        simp only [List.length_cons, List.length_append] at enough stored bound
        have count := itemsFit each
        have reads := forallMono each le_rfl fun c r within one =>
          frontEncoded fuel one (by omega) (by omega)
        have waits := forallMono each le_rfl fun c r within one => ih one (by omega) (by omega)
        rw [frontArray]
        exact arrayShort numeral (by omega) reads waits tail part

end Prefixes

section Parsing

theorem parseEncoded {c : Bytes} {r : Reply} (encodes : Encodes c r) (rest : Bytes)
    (stored : (c ++ rest).length ≤ maxSize) : ∃ overflow, parse (c ++ rest) = .ok r ⟨c.length,overflow⟩ := by
  have size : (c ++ rest).length = c.length + rest.length := List.length_append
  obtain ⟨overflow,read⟩ := frontEncoded ((c ++ rest).length + 1) encodes (by omega) (by omega) rest
  have agrees := parseOneAgrees stored ((c ++ rest).length + 1) ⟨0,false⟩
  rw [List.drop_zero, read] at agrees
  generalize parsed : parseOne (c ++ rest) ((c ++ rest).length + 1) ⟨0,false⟩ = result at agrees
  cases agrees with
  | @whole _ next _ _ left _ inside _ =>
    have within : next.pos ≤ (c ++ rest).length := (inside (by simp)).resolve_right (by simp)
    have length := congrArg List.length left
    simp only [List.length_drop] at length
    have pos : next.pos = c.length := by omega
    exact ⟨next.overflow,parsed.trans (by rw [← pos])⟩

theorem parseShort {c got missing : Bytes} {r : Reply} (encodes : Encodes c r) (stream : got ++ missing = c)
    (part : missing ≠ []) (stored : c.length ≤ maxSize) : parse got = .more := by
  have size : got.length ≤ c.length := by simp [← stream]
  have waits := frontShort (c.length + 1) encodes (by omega) stored got missing stream part
  rw [frontFuel (show got.length + 1 ≤ c.length + 1 by omega) (by omega)] at waits
  have agrees := parseOneAgrees (show got.length ≤ maxSize by omega) (got.length + 1) ⟨0,false⟩
  rw [List.drop_zero, waits] at agrees
  generalize parsed : parseOne got (got.length + 1) ⟨0,false⟩ = result at agrees
  cases agrees
  exact parsed

theorem readEncoded {c : Bytes} {r : Reply} (encodes : Encodes c r) (stored : c.length ≤ maxSize) (got : Bytes)
    (chunks : List Bytes) (some : ∀ chunk ∈ chunks, chunk ≠ []) (stream : got ++ chunks.flatten = c) :
    readLoop got (chunks.map .data) = .done r [] [] := by
  induction chunks generalizing got with
  | nil =>
    rw [List.flatten_nil, List.append_nil] at stream
    obtain ⟨overflow,parsed⟩ := parseEncoded encodes [] (by simpa using stored)
    rw [List.append_nil] at parsed
    simp [readLoop, attempt, stream, parsed]
  | cons chunk chunks ih =>
    obtain ⟨head,tail⟩ := List.forall_mem_cons.mp some
    have more : parse got = .more := parseShort encodes stream (by simp [head]) stored
    simp only [List.map_cons, readLoop, attempt, more]
    rw [if_neg head]
    exact ih (got ++ chunk) tail (by simpa using stream)

end Parsing

section Values

structure Line where
  text : Bytes
  one : OneLine text

structure Number where
  value : Int
  small : value.natAbs < 2 ^ 63

inductive Value where
  | simple (line : Line)
  | error (line : Line)
  | integer (n : Number)
  | bulk (payload : Bytes)
  | nilBulk
  | nilArray
  | array (items : List Value)

def numberText (v : Int) : Bytes := if v < 0 then minus :: decimalText v.natAbs else decimalText v.natAbs

mutual
def encode : Value → Bytes
  | .simple line => plus :: (line.text ++ crlf)
  | .error line => minus :: (line.text ++ crlf)
  | .integer n => colon :: (numberText n.value ++ crlf)
  | .bulk payload => dollar :: (decimalText payload.length ++ crlf ++ (payload ++ crlf))
  | .nilBulk => dollar :: (numberText (-1) ++ crlf)
  | .nilArray => star :: (numberText (-1) ++ crlf)
  | .array items => star :: (decimalText items.length ++ crlf ++ (encodeAll items).flatten)

def encodeAll : List Value → List Bytes
  | [] => []
  | v :: items => encode v :: encodeAll items
end

mutual
def reply : Value → Reply
  | .simple line => { type := .status, str := line.text }
  | .error line => { retCode := kServerError, errMsg := line.text, type := .status, str := line.text }
  | .integer n => { type := .integer, integer := n.value }
  | .bulk payload => { type := .string, str := payload }
  | .nilBulk => { type := .nil }
  | .nilArray => { type := .nil }
  | .array items => { type := .array, elements := replies items }

def replies : List Value → List Reply
  | [] => []
  | v :: items => reply v :: replies items
end

theorem repliesLength (items : List Value) : (replies items).length = items.length := by
  induction items with
  | nil => rfl
  | cons v items ih => simp [replies, ih]

theorem digitByte {c : Char} (digit : c.isDigit) : c.toNat.toUInt8.toNat = c.toNat ∧ 48 ≤ c.toNat ∧ c.toNat ≤ 57 := by
  simp only [Char.isDigit, Bool.and_eq_true, decide_eq_true_eq, UInt32.le_iff_toNat_le] at digit
  have low : 48 ≤ c.toNat := digit.1
  have high : c.toNat ≤ 57 := digit.2
  refine ⟨?_,low,high⟩
  rw [Nat.toUInt8, UInt8.toNat_ofNat']
  omega

theorem decimalDigits (n : Nat) : (decimalText n).all isDigit := by
  simp only [decimalText, List.all_eq_true, List.mem_map, forall_exists_index, and_imp]
  rintro _ c inside rfl
  obtain ⟨value,low,high⟩ := digitByte (Nat.isDigit_of_mem_toDigits (by decide) (by decide) inside)
  simp only [isDigit, decide_eq_true_eq, UInt8.le_iff_toNat_le, value]
  exact ⟨low,high⟩

theorem digitsFromChars {chars : List Char} (digits : ∀ c ∈ chars, c.isDigit) (n : Nat) :
    digitsFrom n (chars.map fun c => c.toNat.toUInt8) = Nat.ofDigitChars 10 chars n := by
  induction chars generalizing n with
  | nil => rfl
  | cons c chars ih =>
    obtain ⟨head,tail⟩ := List.forall_mem_cons.mp digits
    have next := ih tail (n * 10 + (c.toNat - 48))
    rw [List.map_cons, digitsFrom, List.foldl_cons, (digitByte head).1]
    rw [Nat.ofDigitChars_cons, Nat.mul_comm 10 n]
    exact next

theorem decimalValue (n : Nat) : digitsFrom 0 (decimalText n) = n := by
  rw [decimalText, digitsFromChars fun c inside => Nat.isDigit_of_mem_toDigits (by decide) (by decide) inside]
  exact Nat.ofDigitChars_ten_toDigits

theorem decimalSome (n : Nat) : decimalText n ≠ [] := by
  simp [decimalText, Nat.toDigits_ne_nil]

theorem decimalNumeral (n : Nat) : numeralOf (decimalText n) = some (n : Int) := by
  have digits := decimalDigits n
  have value := decimalValue n
  cases text : decimalText n with
  | nil => exact absurd text (decimalSome n)
  | cons c rest =>
    rw [text] at digits value
    have notMinus : c ≠ minus := by
      rintro rfl
      simp [isDigit, minus] at digits
    rw [numeralOf, if_neg notMinus, if_pos digits, value]

theorem numberNumeral (v : Int) : numeralOf (numberText v) = some v := by
  rw [numberText]
  split
  · rw [numeralOf, if_pos rfl, if_pos ⟨decimalSome _,decimalDigits _⟩, decimalValue]
    congr 1
    omega
  · rw [decimalNumeral]
    congr 1
    omega

mutual
theorem encodeEncodes : (v : Value) → Encodes (encode v) (reply v)
  | .simple line => .status line.one
  | .error line => .error line.one
  | .integer n => .integer (numberNumeral n.value) (by have small := n.small; constructor <;> omega)
  | .bulk payload => .bulk (decimalNumeral payload.length)
  | .nilBulk => .nilBulk (numberNumeral (-1))
  | .nilArray => .nilArray (numberNumeral (-1))
  | .array items => .array (by rw [repliesLength]; exact decimalNumeral items.length) (encodeAllEncodes items)

theorem encodeAllEncodes : (items : List Value) → List.Forall₂ Encodes (encodeAll items) (replies items)
  | [] => .nil
  | v :: items => .cons (encodeEncodes v) (encodeAllEncodes items)
end

theorem serializeEncodes (args : List Bytes) : serialize args = encode (.array (args.map .bulk)) := by
  have all : (encodeAll (args.map .bulk)).flatten = args.flatMap serializeArg := by
    induction args with
    | nil => rfl
    | cons arg args ih =>
      rw [List.map_cons, encodeAll, List.flatten_cons, ih, List.flatMap_cons, encode, serializeArg]
      simp
  rw [encode, all, serialize, List.length_map]
  simp

theorem repliesBulk (args : List Bytes) :
    replies (args.map .bulk) = args.map fun arg => ({ type := .string, str := arg } : Reply) := by
  induction args with
  | nil => rfl
  | cons arg args ih => simp [replies, reply, ih]

/- Decoding inverts encoding, is not misled by what follows or by what has not come
yet, and so reads a reply in whatever pieces it comes. -/
theorem decodingInvertsEncoding :
    (∀ (v : Value) (rest : Bytes), (encode v ++ rest).length ≤ maxSize →
      ∃ cur, parse (encode v ++ rest) = .ok (reply v) cur ∧ cur.pos = (encode v).length) ∧
    (∀ (v : Value) (got : Bytes), (encode v).length ≤ maxSize → got <+: encode v → got ≠ encode v →
      parse got = .more) ∧
    (∀ args : List Bytes, (serialize args).length ≤ maxSize →
      ∃ cur, parse (serialize args) =
          .ok { type := .array, elements := args.map fun arg => { type := .string, str := arg } } cur ∧
        cur.pos = (serialize args).length) ∧
    ∀ (v : Value) (chunks : List Bytes), (encode v).length ≤ maxSize →
      (∀ chunk ∈ chunks, chunk ≠ [] ∧ chunk.length ≤ 4096) → chunks.flatten = encode v →
      readReply (chunks.map .data) = .done (reply v) [] [] := by
  refine ⟨fun v rest stored => ?_,fun v got stored front part => ?_,fun args stored => ?_,
    fun v chunks stored sized stream => ?_⟩
  · obtain ⟨overflow,parsed⟩ := parseEncoded (encodeEncodes v) rest stored
    exact ⟨_,parsed,rfl⟩
  · obtain ⟨missing,stream⟩ := front
    refine parseShort (encodeEncodes v) stream ?_ stored
    rintro rfl
    exact part (by simpa using stream)
  · rw [serializeEncodes] at stored ⊢
    obtain ⟨overflow,parsed⟩ := parseEncoded (encodeEncodes (.array (args.map .bulk))) [] (by simpa using stored)
    rw [List.append_nil, reply, repliesBulk] at parsed
    exact ⟨_,parsed,rfl⟩
  · exact readEncoded (encodeEncodes v) stored [] chunks (fun chunk inside => (sized chunk inside).1) (by simpa using stream)

def nestedValue : Value :=
  .array [.bulk (bytes "a" ++ crlf), .array [.integer ⟨-7,by decide⟩, .nilBulk], .simple ⟨bytes "OK",by decide⟩]

theorem nestedReplyRead : 0 < (encode nestedValue).length ∧
    readReply (((encode nestedValue).map fun b => [b]).map .data) = .done (reply nestedValue) [] [] := by
  refine ⟨by decide,decodingInvertsEncoding.2.2.2 nestedValue ((encode nestedValue).map fun b => [b]) (by decide) ?_ ?_⟩
  · intro chunk inside
    obtain ⟨b,-,rfl⟩ := List.mem_map.mp inside
    exact ⟨by simp,by simp⟩
  · rfl

end Values

end Uco.RespRoundTrip
