import Uco.Resp
import Mathlib.Data.List.Infix
import Mathlib.Tactic.NormNum

/-! What the front of a byte string is as a reply, by its own numbers: where it
ends, and whether it breaks the protocol. The parser reads exactly that. -/
namespace Uco.RespGrammar
open Resp

section Numerals

def digitsFrom (n : Nat) (digits : Bytes) : Nat := digits.foldl (fun n c => n * 10 + (c.toNat - 48)) n

def numeralOf : Bytes → Option Int
  | [] => none
  | c :: rest =>
    if c = minus then
      if rest ≠ [] ∧ rest.all isDigit then some (-digitsFrom 0 rest) else none
    else if (c :: rest).all isDigit then some (digitsFrom 0 (c :: rest)) else none

theorem bmodFits {n : Int} (fits : fits64 n) : Int.bmod n (2 ^ 64) = n := by
  obtain ⟨low,high⟩ := fits
  rw [Int.bmod_def]
  split <;> omega

theorem fitsBmod (n : Int) : fits64 (Int.bmod n (2 ^ 64)) := by
  rw [Int.bmod_def]
  constructor <;> split <;> omega

theorem bmodNeg (n : Int) : Int.bmod (-Int.bmod n (2 ^ 64)) (2 ^ 64) = Int.bmod (-n) (2 ^ 64) := by
  rw [← Int.zero_sub, Int.sub_bmod_bmod, Int.zero_sub]

theorem parseDigitsEq (w : Word) (digits : Bytes) :
    parseDigits w digits = if digits.all isDigit then some (digits.foldl Word.push w) else none := by
  induction digits generalizing w with
  | nil => rfl
  | cons c rest ih =>
    by_cases digit : isDigit c <;> simp [parseDigits, digit, ih]

theorem pushValue {w : Word} {n : Nat} (c : UInt8) (value : w.value = Int.bmod n (2 ^ 64)) (digit : isDigit c) :
    (w.push c).value = Int.bmod (n * 10 + (c.toNat - 48) : Nat) (2 ^ 64) := by
  simp only [isDigit, decide_eq_true_eq, UInt8.le_iff_toNat_le] at digit
  have low : 48 ≤ c.toNat := digit.1
  simp only [Word.push, Word.set, value, Int.bmod_mul_bmod, Int.bmod_add_bmod]
  congr 1
  omega

theorem digitsValue {digits : Bytes} (all : digits.all isDigit) {w : Word} {n : Nat}
    (value : w.value = Int.bmod n (2 ^ 64)) :
    (digits.foldl Word.push w).value = Int.bmod (digitsFrom n digits) (2 ^ 64) := by
  induction digits generalizing w n with
  | nil => exact value
  | cons c rest ih =>
    simp only [List.all_cons, Bool.and_eq_true] at all
    exact ih all.2 (pushValue c value all.1)

theorem digitsOverflowed (digits : Bytes) {w : Word} (overflow : w.overflow = true) :
    (digits.foldl Word.push w).overflow = true := by
  induction digits generalizing w with
  | nil => exact overflow
  | cons c rest ih => exact ih (by simp [Word.push, Word.set, overflow])

theorem digitsFromLe (n : Nat) (digits : Bytes) : n ≤ digitsFrom n digits := by
  induction digits generalizing n with
  | nil => exact le_rfl
  | cons c rest ih => exact le_trans (by omega) (ih (n * 10 + (c.toNat - 48)))

theorem digitsOverflow {digits : Bytes} (all : digits.all isDigit) {w : Word} {n : Nat}
    (value : w.value = n) (clean : w.overflow = false) (fits : n < 2 ^ 63) :
    (digits.foldl Word.push w).overflow = !decide (digitsFrom n digits < 2 ^ 63) := by
  induction digits generalizing w n with
  | nil => rw [List.foldl_nil, clean, digitsFrom, List.foldl_nil, decide_eq_true fits]; rfl
  | cons c rest ih =>
    simp only [List.all_cons, Bool.and_eq_true] at all
    have digit := all.1
    simp only [isDigit, decide_eq_true_eq, UInt8.le_iff_toNat_le] at digit
    have low : 48 ≤ c.toNat := digit.1
    have sum : ((n * 10 + (c.toNat - 48) : Nat) : Int) = (n : Int) * 10 + (c.toNat - 48) := by omega
    rw [List.foldl_cons]
    by_cases next : n * 10 + (c.toNat - 48) < 2 ^ 63
    · have product : fits64 ((n : Int) * 10) := ⟨by omega, by omega⟩
      have total : fits64 ((n : Int) * 10 + (c.toNat - 48)) := ⟨by omega, by omega⟩
      refine ih all.2 (n := n * 10 + (c.toNat - 48)) ?_ ?_ next
      · simp only [Word.push, Word.set, value, bmodFits product, bmodFits total, sum]
      · simp only [Word.push, Word.set, value, bmodFits product, product, total, clean, decide_true,
          Bool.not_true, Bool.or_false]
    · have over' : (w.push c).overflow = true := by
        by_cases product : fits64 ((n : Int) * 10)
        · have total : ¬ fits64 ((n : Int) * 10 + (c.toNat - 48)) := by
            rintro ⟨-,high⟩
            omega
          simp only [Word.push, Word.set, value, bmodFits product, total, decide_false, Bool.not_false, Bool.or_true]
        · simp only [Word.push, Word.set, value, product, decide_false, Bool.not_false, Bool.or_true, Bool.true_or]
      have large : ¬ digitsFrom n (c :: rest) < 2 ^ 63 := by
        have grown := digitsFromLe (n * 10 + (c.toNat - 48)) rest
        simp only [digitsFrom, List.foldl_cons] at grown ⊢
        omega
      rw [digitsOverflowed rest over', decide_eq_false large, Bool.not_false]

theorem negatedValue (n : Nat) : (Word.mk (Int.bmod n (2 ^ 64)) (!decide (n < 2 ^ 63))).set (-Int.bmod n (2 ^ 64)) =
    ⟨Int.bmod (-n) (2 ^ 64), !decide (n < 2 ^ 63)⟩ := by
  simp only [Word.set, bmodNeg]
  congr 1
  by_cases small : n < 2 ^ 63
  · have fits : fits64 n := ⟨by omega, by omega⟩
    have negated : fits64 (-(n : Int)) := ⟨by omega, by omega⟩
    rw [bmodFits fits, decide_eq_true small, decide_eq_true negated]
    rfl
  · rw [decide_eq_false small]
    rfl

theorem parseIntEq (text : Bytes) :
    parseInt text = (numeralOf text).map fun n => ⟨Int.bmod n (2 ^ 64), !decide (n.natAbs < 2 ^ 63)⟩ := by
  have loop (digits : Bytes) (all : digits.all isDigit) : digits.foldl Word.push ⟨0,false⟩ =
      ⟨Int.bmod (digitsFrom 0 digits) (2 ^ 64), !decide (digitsFrom 0 digits < 2 ^ 63)⟩ := by
    rw [← digitsValue all (w := ⟨0,false⟩) (n := 0) rfl,
      ← digitsOverflow all (w := ⟨0,false⟩) (n := 0) rfl rfl (by norm_num)]
  cases text with
  | nil => rfl
  | cons c rest =>
    simp only [parseInt, numeralOf, parseDigitsEq]
    split
    · by_cases blank : rest = []
      · simp [blank]
      · by_cases all : rest.all isDigit
        · rw [if_neg blank, if_pos all, if_pos ⟨blank,all⟩, Option.map_some, Option.map_some, loop rest all,
            negatedValue, Int.natAbs_neg, Int.natAbs_natCast]
        · simp [blank, all]
    · split
      · rename_i all
        rw [Option.map_some, loop _ all, Int.natAbs_natCast]
      · rfl

end Numerals
section Lines

def OneLine (text : Bytes) : Prop := ¬ crlf <:+: text

instance (text : Bytes) : Decidable (OneLine text) := inferInstanceAs (Decidable (¬ _))

theorem findCrlfAt {text : Bytes} (one : OneLine text) (rest : Bytes) :
    findCrlf (text ++ crlf ++ rest) = some text.length := by
  induction text with
  | nil => rfl
  | cons c text ih =>
    have later : OneLine text := fun h => one (List.infix_cons_iff.mpr (.inr h))
    have notHere : ¬ crlf <+: c :: (text ++ crlf ++ rest) := by
      intro here
      cases text with
      | nil => simp [crlf, List.cons_prefix_cons] at here
      | cons d text =>
        refine one (List.infix_cons_iff.mpr (.inl ?_))
        simp only [crlf, List.cons_append, List.cons_prefix_cons, List.nil_prefix, and_true] at here ⊢
        exact here
    rw [List.cons_append, List.cons_append, findCrlf, if_neg notHere, ih later]
    rfl

theorem findCrlfSplit {input : Bytes} {n : Nat} (found : findCrlf input = some n) :
    ∃ text rest, input = text ++ crlf ++ rest ∧ text.length = n ∧ OneLine text := by
  induction input generalizing n with
  | nil => simp [findCrlf] at found
  | cons c tail ih =>
    rw [findCrlf] at found
    split at found
    · rename_i here
      obtain ⟨rest,same⟩ := here
      refine ⟨[],rest,by rw [← same, List.nil_append],by simpa using found,by simp [OneLine, crlf]⟩
    · rename_i notHere
      obtain ⟨m,later,rfl⟩ := Option.map_eq_some_iff.mp found
      obtain ⟨text,rest,rfl,rfl,one⟩ := ih later
      refine ⟨c :: text,rest,rfl,rfl,fun inside => ?_⟩
      rcases List.infix_cons_iff.mp inside with here | later
      · refine notHere (here.trans ?_)
        rw [List.append_assoc]
        exact List.prefix_append (c :: text) (crlf ++ rest)
      · exact one later

end Lines

section Fronts

structure Flaws where
  overflow : Bool
  malformed : Bool
  deriving DecidableEq, Repr

def Flaws.none : Flaws := ⟨false,false⟩
def Flaws.join (a b : Flaws) : Flaws := ⟨a.overflow || b.overflow, a.malformed || b.malformed⟩

inductive Front (α : Type) where
  | whole (out : α) (rest : Bytes) (flaws : Flaws)
  | short
  | wrong
  deriving Repr

def Front.flawed {α : Type} (flaws : Flaws) : Front α → Front α
  | .whole out rest more => .whole out rest (flaws.join more)
  | .short => .short
  | .wrong => .wrong

def Front.andThen {α β : Type} (front : Front α) (next : α → Bytes → Front β) : Front β :=
  match front with
  | .whole out rest flaws => (next out rest).flawed flaws
  | .short => .short
  | .wrong => .wrong

def line (input : Bytes) : Front Bytes :=
  match findCrlf input with
  | none => .short
  | some n => .whole (input.take n) (input.drop (n + 2)) .none

def number (input : Bytes) : Front Int :=
  (line input).andThen fun text rest =>
    match numeralOf text with
    | none => .wrong
    | some n => .whole (Int.bmod n (2 ^ 64)) rest ⟨!decide (n.natAbs < 2 ^ 63), false⟩

def absent (len : Int) (rest : Bytes) : Front Reply := .whole { type := .nil } rest ⟨false, decide (len ≠ -1)⟩

def bulk (input : Bytes) : Front Reply :=
  (number input).andThen fun len rest =>
    if len < 0 then absent len rest
    else if 2 ^ 63 ≤ len + 2 then .whole { type := .string, str := rest } [] ⟨true, true⟩
    else if rest.length < len.toNat + 2 then .short
    else
      .whole { type := .string, str := rest.take len.toNat } (rest.drop (len.toNat + 2))
        ⟨false, decide ((rest.drop len.toNat).take 2 ≠ crlf)⟩

def elements (one : Bytes → Front Reply) : Nat → Bytes → Front (List Reply)
  | 0, input => .whole [] input .none
  | count + 1, input =>
    (one input).andThen fun out rest =>
      (elements one count rest).andThen fun outs rest => .whole (out :: outs) rest .none

def array (one : Bytes → Front Reply) (input : Bytes) : Front Reply :=
  (number input).andThen fun count rest =>
    if count < 0 then absent count rest
    else (elements one count.toNat rest).andThen fun outs rest =>
      .whole { type := .array, elements := outs } rest .none

@[simp] def front : Nat → Bytes → Front Reply
  | 0, _ => .wrong
  | _ + 1, [] => .short
  | fuel + 1, t :: input =>
    if t = colon then (number input).andThen fun v rest => .whole { type := .integer, integer := v } rest .none
    else if t = plus then (line input).andThen fun text rest => .whole { type := .status, str := text } rest .none
    else if t = minus then
      (line input).andThen fun text rest =>
        .whole { retCode := kServerError, errMsg := text, type := .status, str := text } rest .none
    else if t = dollar then bulk input
    else if t = star then array (front fuel) input
    else .wrong

section Kinds
variable (fuel : Nat) (input : Bytes)

theorem frontInteger : front (fuel + 1) (colon :: input) =
    (number input).andThen fun v rest => .whole { type := .integer, integer := v } rest .none := by
  rw [front, if_pos rfl]

theorem frontStatus : front (fuel + 1) (plus :: input) =
    (line input).andThen fun text rest => .whole { type := .status, str := text } rest .none := by
  rw [front, if_neg (by decide), if_pos rfl]

theorem frontError : front (fuel + 1) (minus :: input) = (line input).andThen fun text rest =>
    .whole { retCode := kServerError, errMsg := text, type := .status, str := text } rest .none := by
  rw [front, if_neg (by decide), if_neg (by decide), if_pos rfl]

theorem frontBulk : front (fuel + 1) (dollar :: input) = bulk input := by
  rw [front, if_neg (by decide), if_neg (by decide), if_neg (by decide), if_pos rfl]

theorem frontArray : front (fuel + 1) (star :: input) = array (front fuel) input := by
  rw [front, if_neg (by decide), if_neg (by decide), if_neg (by decide), if_neg (by decide), if_pos rfl]

end Kinds

inductive Agrees {α : Type} (buf : Bytes) (cur : Cursor) : Parsed α → Front α → Prop where
  | whole {out next rest flaws} (left : buf.drop next.pos = rest) (overflow : next.overflow = (cur.overflow || flaws.overflow))
      (inside : cur.pos ≤ buf.length → next.pos ≤ buf.length ∨ flaws.malformed = true) (onward : cur.pos ≤ next.pos) :
      Agrees buf cur (.ok out next) (.whole out rest flaws)
  | short : Agrees buf cur .more .short
  | wrong : Agrees buf cur .error .wrong

@[simp] theorem flawedNone {α : Type} (front : Front α) : front.flawed .none = front := by
  cases front <;> simp [Front.flawed, Flaws.none, Flaws.join]

variable {α β : Type} {buf : Bytes} {cur : Cursor}

theorem agreesFlawed {mid : Cursor} {parsed : Parsed α} {front : Front α} {flaws : Flaws}
    (agrees : Agrees buf mid parsed front) (overflow : mid.overflow = (cur.overflow || flaws.overflow))
    (inside : cur.pos ≤ buf.length → mid.pos ≤ buf.length ∨ flaws.malformed = true)
    (onward : cur.pos ≤ mid.pos) : Agrees buf cur parsed (front.flawed flaws) := by
  cases agrees with
  | whole left more within further =>
    refine .whole left ?_ ?_ (le_trans onward further)
    · rw [more, overflow, Flaws.join, Bool.or_assoc]
    · intro known
      rcases inside known with middle | past
      · exact (within middle).imp id (fun h => by simp [Flaws.join, h])
      · exact .inr (by simp [Flaws.join, past])
  | short => exact .short
  | wrong => exact .wrong

theorem agreesOnward {mid : Cursor} {parsed : Parsed α} {front : Front α} (agrees : Agrees buf mid parsed front)
    (same : mid.overflow = cur.overflow) (inside : mid.pos ≤ buf.length) (onward : cur.pos ≤ mid.pos) :
    Agrees buf cur parsed front := by
  have whole : Agrees buf cur parsed (front.flawed .none) :=
    agreesFlawed agrees (by simp [same, Flaws.none]) (fun _ => .inl inside) onward
  rwa [flawedNone] at whole

theorem agreesThen {parsed : Parsed α} {front : Front α} {next : α → Cursor → Parsed β} {then' : α → Bytes → Front β}
    (agrees : Agrees buf cur parsed front)
    (onward : ∀ out mid, cur.pos ≤ mid.pos → Agrees buf mid (next out mid) (then' out (buf.drop mid.pos))) :
    Agrees buf cur (parsed.andThen next) (front.andThen then') := by
  cases agrees with
  | @whole out mid rest flaws left overflow inside further =>
    subst left
    exact agreesFlawed (onward out mid further) overflow inside further
  | short => exact .short
  | wrong => exact .wrong

theorem agreesOk (out : α) : Agrees buf cur (.ok out cur) (.whole out (buf.drop cur.pos) .none) :=
  .whole rfl (by simp [Flaws.none]) .inl le_rfl

theorem lineThen {next : Bytes → Cursor → Parsed β} {then' : Bytes → Bytes → Front β}
    (onward : ∀ text mid, mid.pos ≤ buf.length → cur.pos ≤ mid.pos → mid.overflow = cur.overflow →
      Agrees buf mid (next text mid) (then' text (buf.drop mid.pos))) :
    Agrees buf cur ((findLine buf cur).andThen next) ((line (buf.drop cur.pos)).andThen then') := by
  rw [findLine, line]
  cases found : findCrlf (buf.drop cur.pos) with
  | none => exact .short
  | some n =>
    obtain ⟨text,rest,split,size,-⟩ := findCrlfSplit found
    have room := congrArg List.length split
    simp only [List.length_drop, List.length_append, crlf, List.length_cons, List.length_nil] at room
    have here := onward ((buf.drop cur.pos).take n) { cur with pos := cur.pos + n + 2 }
      (by simp only; omega) (by simp only; omega) rfl
    simp only [Parsed.andThen, Front.andThen, List.drop_drop, flawedNone]
    exact agreesOnward here rfl (by simp only; omega) (by simp only; omega)

theorem andThenFlawed (front : Front α) (flaws : Flaws) (next : α → Bytes → Front β) :
    (front.flawed flaws).andThen next = (front.andThen next).flawed flaws := by
  cases front with
  | whole out rest more =>
    cases h : next out rest <;> simp [Front.flawed, Front.andThen, h, Flaws.join, Bool.or_assoc]
  | short => rfl
  | wrong => rfl

theorem parsedThenThen {γ : Type} (parsed : Parsed α) (next : α → Cursor → Parsed β) (last : β → Cursor → Parsed γ) :
    (parsed.andThen next).andThen last = parsed.andThen fun out cur => (next out cur).andThen last := by
  cases parsed <;> rfl

theorem frontThenThen {γ : Type} (front : Front α) (next : α → Bytes → Front β) (last : β → Bytes → Front γ) :
    (front.andThen next).andThen last = front.andThen fun out rest => (next out rest).andThen last := by
  cases front with
  | whole out rest flaws => exact andThenFlawed _ _ _
  | short => rfl
  | wrong => rfl

theorem numberThen {next : Int → Cursor → Parsed β} {then' : Int → Bytes → Front β}
    (onward : ∀ v mid, mid.pos ≤ buf.length → cur.pos ≤ mid.pos → fits64 v →
      Agrees buf mid (next v mid) (then' v (buf.drop mid.pos))) :
    Agrees buf cur ((parseNumber buf cur).andThen next) ((number (buf.drop cur.pos)).andThen then') := by
  rw [parseNumber, parsedThenThen, number, frontThenThen]
  refine lineThen fun text mid inside further same => ?_
  rw [parseIntEq]
  cases numeralOf text with
  | none => exact .wrong
  | some n =>
    exact agreesFlawed (onward _ (mid.saw _) inside further (fitsBmod n)) rfl (fun _ => .inl inside) le_rfl

theorem absentAgrees (len : Int) : Agrees buf cur (.ok { type := .nil } cur) (absent len (buf.drop cur.pos)) :=
  .whole rfl (by simp) .inl le_rfl

theorem bulkAgrees (stored : buf.length ≤ maxSize) : Agrees buf cur (parseBulk buf cur) (bulk (buf.drop cur.pos)) := by
  refine numberThen fun len mid inside _ fits => ?_
  obtain ⟨low,high⟩ := fits
  have room : Int.bmod (buf.length - mid.pos) (2 ^ 64) = buf.length - mid.pos :=
    bmodFits ⟨by omega, by simp only [maxSize] at stored; omega⟩
  have left : (buf.drop mid.pos).length = buf.length - mid.pos := List.length_drop
  by_cases negative : len < 0
  · simp only [negative, if_true]
    exact absentAgrees len
  simp only [negative, if_false, sawPos, room]
  by_cases large : 2 ^ 63 ≤ len + 2
  · -- the sum wraps below every size, so the length check lets the reply pass
    have wrapped : ((Word.mk len false).set (len + 2)).value = len + 2 - 2 ^ 64 := by
      simp only [Word.set, Int.bmod_def]
      split <;> omega
    have flagged : ((Word.mk len false).set (len + 2)).overflow = true := by
      have past : ¬ fits64 (len + 2) := fun h => absurd h.2 (by omega)
      simp [Word.set, past]
    simp only [maxSize] at stored
    rw [wrapped, if_neg (by omega), if_pos large, List.take_of_length_le (by omega),
      Nat.mod_eq_of_lt (by omega)]
    refine .whole ?_ (by simp [Cursor.saw, flagged]) (fun _ => .inr rfl) (by simp only; omega)
    exact List.drop_eq_nil_of_le (by simp only; omega)
  · have sum : fits64 (len + 2) := ⟨by omega, by omega⟩
    have exactly : (Word.mk len false).set (len + 2) = ⟨len + 2,false⟩ := by
      simp only [Word.set, bmodFits sum, sum, decide_true, Bool.not_true, Bool.or_false]
    simp only [exactly, large, if_false]
    by_cases missing : (buf.drop mid.pos).length < len.toNat + 2
    · rw [if_pos (by omega), if_pos missing]
      exact .short
    · simp only [maxSize] at stored
      rw [if_neg (by omega), if_neg missing, Nat.mod_eq_of_lt (by omega), List.drop_drop, ← Nat.add_assoc]
      exact .whole rfl (by simp [Cursor.saw]) (fun _ => .inl (by simp only; omega)) (by simp only; omega)

theorem elementsAgrees {one : Cursor → Parsed Reply} {one' : Bytes → Front Reply}
    (agree : ∀ cur, Agrees buf cur (one cur) (one' (buf.drop cur.pos))) (count : Nat) (cur : Cursor) :
    Agrees buf cur (parseElements one count cur) (elements one' count (buf.drop cur.pos)) := by
  induction count generalizing cur with
  | zero => exact agreesOk []
  | succ count ih =>
    refine agreesThen (agree cur) fun out mid _ => ?_
    exact agreesThen (ih mid) fun outs last _ => agreesOk (out :: outs)

theorem arrayAgrees {one : Cursor → Parsed Reply} {one' : Bytes → Front Reply}
    (agree : ∀ cur, Agrees buf cur (one cur) (one' (buf.drop cur.pos))) :
    Agrees buf cur (parseArray buf one cur) (array one' (buf.drop cur.pos)) := by
  refine numberThen fun count mid _ _ _ => ?_
  by_cases negative : count < 0
  · simp only [negative, if_true]
    exact absentAgrees count
  · simp only [negative, if_false]
    exact agreesThen (elementsAgrees agree count.toNat mid) fun outs last _ => agreesOk _

theorem parseOneAgrees (stored : buf.length ≤ maxSize) (fuel : Nat) (cur : Cursor) :
    Agrees buf cur (parseOne buf fuel cur) (front fuel (buf.drop cur.pos)) := by
  induction fuel generalizing cur with
  | zero => exact .wrong
  | succ fuel ih =>
    rw [parseOne]
    cases here : buf[cur.pos]? with
    | none =>
      rw [List.drop_eq_nil_of_le (List.getElem?_eq_none_iff.mp here)]
      exact .short
    | some t =>
      obtain ⟨bound,at'⟩ := List.getElem?_eq_some_iff.mp here
      have step {parsed : Parsed Reply} {front : Front Reply}
          (agrees : Agrees buf { cur with pos := cur.pos + 1 } parsed front) : Agrees buf cur parsed front :=
        agreesOnward agrees rfl bound (by simp)
      rw [List.drop_eq_getElem_cons bound, at', front]
      refine step ?_
      simp only
      split
      · exact numberThen fun v mid _ _ _ => agreesOk _
      split
      · exact lineThen fun text mid _ _ _ => agreesOk _
      split
      · exact lineThen fun text mid _ _ _ => agreesOk _
      split
      · exact bulkAgrees stored
      split
      · exact arrayAgrees ih
      · exact .wrong

end Fronts

section Fuel
variable {α β : Type}

def Shrinks (input : Bytes) (front : Front α) : Prop :=
  ∀ out rest flaws, front = .whole out rest flaws → rest.length ≤ input.length

theorem wholeShrinks {input rest : Bytes} (out : α) (flaws : Flaws) (shorter : rest.length ≤ input.length) :
    Shrinks input (.whole out rest flaws) := by
  rintro _ _ _ ⟨⟩
  exact shorter

theorem thenShrinks {input : Bytes} {front : Front α} {next : α → Bytes → Front β} (first : Shrinks input front)
    (onward : ∀ out rest, Shrinks rest (next out rest)) : Shrinks input (front.andThen next) := by
  intro out rest flaws whole
  cases front with
  | whole mid left faults =>
    rw [Front.andThen] at whole
    cases last : next mid left with
    | whole out' rest' more =>
      rw [last] at whole
      cases whole
      exact le_trans (onward mid left _ _ _ last) (first mid left faults rfl)
    | short => simp [last, Front.flawed] at whole
    | wrong => simp [last, Front.flawed] at whole
  | short => simp [Front.andThen] at whole
  | wrong => simp [Front.andThen] at whole

theorem lineShrinks (input : Bytes) : Shrinks input (line input) := by
  rw [line]
  cases findCrlf input with
  | none => rintro _ _ _ ⟨⟩
  | some n => exact wholeShrinks _ _ (by simp)

theorem numberShrinks (input : Bytes) : Shrinks input (number input) := by
  refine thenShrinks (lineShrinks input) fun text rest => ?_
  cases numeralOf text with
  | none => rintro _ _ _ ⟨⟩
  | some n => exact wholeShrinks _ _ le_rfl

theorem bulkShrinks (input : Bytes) : Shrinks input (bulk input) := by
  refine thenShrinks (numberShrinks input) fun len rest => ?_
  split
  · exact wholeShrinks _ _ le_rfl
  split
  · exact wholeShrinks _ _ (by simp)
  split
  · rintro _ _ _ ⟨⟩
  · exact wholeShrinks _ _ (by simp)

theorem elementsShrinks {one : Bytes → Front Reply} (shrinks : ∀ input, Shrinks input (one input)) (count : Nat)
    (input : Bytes) : Shrinks input (elements one count input) := by
  induction count generalizing input with
  | zero => exact wholeShrinks _ _ le_rfl
  | succ count ih =>
    refine thenShrinks (shrinks input) fun out rest => ?_
    exact thenShrinks (ih rest) fun outs rest => wholeShrinks _ _ le_rfl

theorem arrayShrinks {one : Bytes → Front Reply} (shrinks : ∀ input, Shrinks input (one input)) (input : Bytes) :
    Shrinks input (array one input) := by
  refine thenShrinks (numberShrinks input) fun count rest => ?_
  split
  · exact wholeShrinks _ _ le_rfl
  · exact thenShrinks (elementsShrinks shrinks count.toNat rest) fun outs rest => wholeShrinks _ _ le_rfl

theorem frontShrinks (fuel : Nat) (input : Bytes) : Shrinks input (front fuel input) := by
  induction fuel generalizing input with
  | zero => rintro _ _ _ ⟨⟩
  | succ fuel ih =>
    cases input with
    | nil => rintro _ _ _ ⟨⟩
    | cons t input =>
      have step {front : Front Reply} (shrinks : Shrinks input front) : Shrinks (t :: input) front :=
        fun out rest flaws whole => le_trans (shrinks out rest flaws whole) (by simp)
      rw [front]
      split
      · exact step (thenShrinks (numberShrinks input) fun v rest => wholeShrinks _ _ le_rfl)
      split
      · exact step (thenShrinks (lineShrinks input) fun text rest => wholeShrinks _ _ le_rfl)
      split
      · exact step (thenShrinks (lineShrinks input) fun text rest => wholeShrinks _ _ le_rfl)
      split
      · exact step (bulkShrinks input)
      split
      · exact step (arrayShrinks ih input)
      · rintro _ _ _ ⟨⟩

theorem thenCongr {input : Bytes} {front : Front α} {next next' : α → Bytes → Front β} (first : Shrinks input front)
    (same : ∀ out rest, rest.length ≤ input.length → next out rest = next' out rest) :
    front.andThen next = front.andThen next' := by
  cases front with
  | whole out rest flaws => simp only [Front.andThen, same out rest (first out rest flaws rfl)]
  | short => rfl
  | wrong => rfl

theorem elementsCongr {one one' : Bytes → Front Reply} (shrinks : ∀ input, Shrinks input (one input)) {bound : Nat}
    (same : ∀ input, input.length ≤ bound → one input = one' input) (count : Nat) {input : Bytes}
    (short : input.length ≤ bound) : elements one count input = elements one' count input := by
  induction count generalizing input with
  | zero => rfl
  | succ count ih =>
    rw [elements, elements, ← same input short]
    refine thenCongr (shrinks input) fun out rest shorter => ?_
    rw [ih (le_trans shorter short)]

theorem frontFuel {fuel more : Nat} (enough : fuel ≤ more) {input : Bytes} (short : input.length < fuel) :
    front more input = front fuel input := by
  induction fuel generalizing more input with
  | zero => omega
  | succ fuel ih =>
    obtain ⟨more,rfl⟩ : ∃ m, more = m + 1 := ⟨more - 1,by omega⟩
    cases input with
    | nil => rfl
    | cons t input =>
      rw [List.length_cons] at short
      have nested : array (front more) input = array (front fuel) input := by
        refine thenCongr (numberShrinks input) fun count rest shorter => ?_
        have all : elements (front more) count.toNat rest = elements (front fuel) count.toNat rest :=
          elementsCongr (frontShrinks more)
            (fun input (size : input.length ≤ rest.length) => ih (by omega) (by omega)) count.toNat le_rfl
        rw [all]
      rw [front, front, nested]

end Fuel

end Uco.RespGrammar
