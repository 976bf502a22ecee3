import Uco.RespRoundTrip

/-! What the parser accepts beyond RESP2: it does not look at the two bytes behind a
bulk string, takes every negative length for an absent value and multiplies and adds
without a bound. Apart from these it accepts encodings only. -/
namespace Uco.RespStrict
open Resp RespGrammar RespRoundTrip

def AcceptsOnlyResp (buf : Bytes) : Prop :=
  ∀ r cur, parse buf = .ok r cur → cur.pos ≤ buf.length ∧ Encodes (buf.take cur.pos) r ∧ cur.overflow = false

/- No complete reply at the front of the buffer has a number or a length plus two out of
64 bits, a length below -1 or a payload that no line end follows. -/
def Faultless (buf : Bytes) : Prop :=
  ∀ r rest flaws, front (buf.length + 1) buf = .whole r rest flaws → flaws = .none

instance (buf : Bytes) : Decidable (Faultless buf) :=
  match whole : front (buf.length + 1) buf with
  | .whole _ _ flaws => decidable_of_iff (flaws = .none) (by simp [Faultless, whole])
  | .short | .wrong => isTrue (fun _ _ _ other => by cases whole.symm.trans other)

section Clean
variable {α β : Type}

theorem joinNone {a b : Flaws} (clean : a.join b = .none) : a = .none ∧ b = .none := by
  obtain ⟨x,y⟩ := a
  obtain ⟨z,w⟩ := b
  simp_all [Flaws.join, Flaws.none]

theorem thenClean {front : Front α} {next : α → Bytes → Front β} {out : β} {rest : Bytes}
    (whole : front.andThen next = .whole out rest .none) :
    ∃ mid left, front = .whole mid left .none ∧ next mid left = .whole out rest .none := by
  cases front with
  | whole mid left flaws =>
    cases last : next mid left with
    | whole out' rest' more =>
      simp only [Front.andThen, last, Front.flawed, Front.whole.injEq] at whole
      obtain ⟨rfl,rfl,clean⟩ := whole
      obtain ⟨rfl,rfl⟩ := joinNone clean
      exact ⟨mid,left,rfl,last⟩
    | short => simp [Front.andThen, last, Front.flawed] at whole
    | wrong => simp [Front.andThen, last, Front.flawed] at whole
  | short => simp [Front.andThen] at whole
  | wrong => simp [Front.andThen] at whole

theorem lineClean {input text rest : Bytes} {flaws : Flaws} (whole : line input = .whole text rest flaws) :
    input = text ++ crlf ++ rest ∧ OneLine text := by
  rw [line] at whole
  cases found : findCrlf input with
  | none => simp [found] at whole
  | some n =>
    obtain ⟨before,after,split,size,one⟩ := findCrlfSplit found
    have same := lineAt one after
    rw [← split, line, found] at same
    simp only [found] at whole
    obtain ⟨rfl,rfl,-⟩ := Front.whole.inj (whole.symm.trans same)
    exact ⟨split,one⟩

theorem numberClean {input rest : Bytes} {v : Int} (whole : number input = .whole v rest .none) :
    ∃ text, input = text ++ crlf ++ rest ∧ numeralOf text = some v ∧ fits64 v := by
  obtain ⟨text,left,first,last⟩ := thenClean whole
  obtain ⟨split,-⟩ := lineClean first
  cases numeral : numeralOf text with
  | none => simp [numeral] at last
  | some n =>
    simp only [numeral, Front.whole.injEq, Flaws.none, Flaws.mk.injEq, and_true, Bool.not_eq_false', decide_eq_true_eq] at last
    obtain ⟨value,rfl,small⟩ := last
    have fits : fits64 n := ⟨by omega, by omega⟩
    rw [bmodFits fits] at value
    subst value
    exact ⟨text,split,numeral,fits⟩

theorem absentClean {len : Int} {rest rest' : Bytes} {r : Reply} (whole : absent len rest = .whole r rest' .none) :
    len = -1 ∧ r = { type := .nil } ∧ rest = rest' := by
  simp only [absent, Front.whole.injEq, Flaws.none, Flaws.mk.injEq, decide_eq_false_iff_not, not_not, true_and] at whole
  exact ⟨whole.2.2,whole.1.symm,whole.2.1⟩

theorem bulkClean {input rest : Bytes} {r : Reply} (whole : bulk input = .whole r rest .none) :
    ∃ c, input = c ++ rest ∧ Encodes (dollar :: c) r := by
  obtain ⟨len,left,first,last⟩ := thenClean whole
  obtain ⟨text,split,numeral,fits⟩ := numberClean first
  split at last
  · obtain ⟨rfl,rfl,rfl⟩ := absentClean last
    exact ⟨text ++ crlf,split,.nilBulk numeral⟩
  split at last
  · simp [Flaws.none] at last
  split at last
  · simp at last
  · rename_i positive _ room
    simp only [Front.whole.injEq, Flaws.none, Flaws.mk.injEq, decide_eq_false_iff_not, not_not, true_and] at last
    obtain ⟨rfl,rfl,ending⟩ := last
    have size : ((left.take len.toNat).length : Int) = len := by
      rw [List.length_take, min_eq_left (by omega)]
      omega
    have cut : left.take len.toNat ++ crlf ++ left.drop (len.toNat + 2) = left := by
      rw [← ending, List.append_assoc, ← List.drop_drop, List.take_append_drop, List.take_append_drop]
    refine ⟨text ++ crlf ++ (left.take len.toNat ++ crlf),?_,.bulk (by rw [size]; exact numeral)⟩
    rw [split, List.append_assoc (text ++ crlf), cut]

theorem elementsClean {one : Bytes → Front Reply} (clean : ∀ input rest r, one input = .whole r rest .none →
      ∃ c, input = c ++ rest ∧ Encodes c r) (count : Nat) {input rest : Bytes} {items : List Reply}
    (whole : elements one count input = .whole items rest .none) :
    ∃ pieces, input = pieces.flatten ++ rest ∧ items.length = count ∧ List.Forall₂ Encodes pieces items := by
  induction count generalizing input items with
  | zero =>
    simp only [elements, Front.whole.injEq, and_true] at whole
    obtain ⟨rfl,rfl⟩ := whole
    exact ⟨[],rfl,rfl,.nil⟩
  | succ count ih =>
    obtain ⟨out,left,first,last⟩ := thenClean whole
    obtain ⟨outs,left',others,last⟩ := thenClean last
    simp only [Front.whole.injEq, and_true] at last
    obtain ⟨rfl,rfl⟩ := last
    obtain ⟨c,rfl,encodes⟩ := clean _ _ _ first
    obtain ⟨pieces,rfl,size,each⟩ := ih others
    exact ⟨c :: pieces,by simp,by simp [size],.cons encodes each⟩

theorem frontClean (fuel : Nat) {input rest : Bytes} {r : Reply} (whole : front fuel input = .whole r rest .none) :
    ∃ c, input = c ++ rest ∧ Encodes c r := by
  induction fuel generalizing input rest r with
  | zero => simp [front] at whole
  | succ fuel ih =>
    cases input with
    | nil => simp [front] at whole
    | cons t input =>
      rw [front] at whole
      split at whole
      · rename_i head
        obtain ⟨v,left,first,last⟩ := thenClean whole
        obtain ⟨text,split,numeral,fits⟩ := numberClean first
        simp only [Front.whole.injEq, and_true] at last
        obtain ⟨rfl,rfl⟩ := last
        exact ⟨t :: (text ++ crlf),by rw [split]; rfl,head ▸ .integer numeral fits⟩
      split at whole
      · rename_i head
        obtain ⟨text,left,first,last⟩ := thenClean whole
        obtain ⟨split,one⟩ := lineClean first
        simp only [Front.whole.injEq, and_true] at last
        obtain ⟨rfl,rfl⟩ := last
        exact ⟨t :: (text ++ crlf),by rw [split]; rfl,head ▸ .status one⟩
      split at whole
      · rename_i head
        obtain ⟨text,left,first,last⟩ := thenClean whole
        obtain ⟨split,one⟩ := lineClean first
        simp only [Front.whole.injEq, and_true] at last
        obtain ⟨rfl,rfl⟩ := last
        exact ⟨t :: (text ++ crlf),by rw [split]; rfl,head ▸ .error one⟩
      split at whole
      · rename_i head
        obtain ⟨c,rfl,encodes⟩ := bulkClean whole
        exact ⟨t :: c,rfl,head ▸ encodes⟩
      split at whole
      · rename_i head
        obtain ⟨count,left,first,last⟩ := thenClean whole
        obtain ⟨text,split,numeral,fits⟩ := numberClean first
        split at last
        · obtain ⟨rfl,rfl,rfl⟩ := absentClean last
          exact ⟨t :: (text ++ crlf),by rw [split]; rfl,head ▸ .nilArray numeral⟩
        · obtain ⟨outs,left',others,last⟩ := thenClean last
          simp only [Front.whole.injEq, and_true] at last
          obtain ⟨rfl,rfl⟩ := last
          obtain ⟨pieces,rfl,size,each⟩ := elementsClean (fun _ _ _ => ih) _ others
          refine ⟨t :: (text ++ crlf ++ pieces.flatten),by rw [split]; simp,head ▸ .array ?_ each⟩
          rw [numeral, size]
          congr 1
          omega
      · simp at whole

end Clean

section Acceptance

theorem parseWhole {buf : Bytes} (stored : buf.length ≤ maxSize) {r : Reply} {cur : Cursor} (parsed : parse buf = .ok r cur) :
    ∃ flaws, front (buf.length + 1) buf = .whole r (buf.drop cur.pos) flaws ∧ cur.overflow = flaws.overflow ∧
      (cur.pos ≤ buf.length ∨ flaws.malformed = true) := by
  have agrees := parseOneAgrees stored (buf.length + 1) ⟨0,false⟩
  rw [List.drop_zero] at agrees
  rw [parse] at parsed
  rw [parsed] at agrees
  generalize laid : front (buf.length + 1) buf = result at agrees
  cases agrees with
  | @whole _ _ _ flaws left overflow inside _ =>
    exact ⟨flaws,by rw [left],by simpa using overflow,inside (by simp)⟩

theorem wholeParse {buf : Bytes} (stored : buf.length ≤ maxSize) {r : Reply} {rest : Bytes} {flaws : Flaws}
    (whole : front (buf.length + 1) buf = .whole r rest flaws) : ∃ cur, parse buf = .ok r cur := by
  have agrees := parseOneAgrees stored (buf.length + 1) ⟨0,false⟩
  rw [List.drop_zero, whole] at agrees
  rw [parse]
  generalize parseOne buf (buf.length + 1) ⟨0,false⟩ = result at agrees
  cases agrees with
  | @whole _ next => exact ⟨next,rfl⟩

theorem encodedMalformed {buf : Bytes} (stored : buf.length ≤ maxSize) {pos : Nat} {r r' : Reply} {rest : Bytes}
    {flaws : Flaws} (inside : pos ≤ buf.length) (encodes : Encodes (buf.take pos) r)
    (whole : front (buf.length + 1) buf = .whole r' rest flaws) : flaws.malformed = false := by
  have size : (buf.take pos).length = pos := by rw [List.length_take, min_eq_left inside]
  obtain ⟨overflow,read⟩ := frontEncoded (buf.length + 1) encodes (by omega) (by omega) (buf.drop pos)
  rw [List.take_append_drop, whole] at read
  cases read
  rfl

theorem acceptsOfFaultless {buf : Bytes} (stored : buf.length ≤ maxSize) (clean : Faultless buf) : AcceptsOnlyResp buf := by
  intro r cur parsed
  obtain ⟨flaws,whole,overflow,inside⟩ := parseWhole stored parsed
  obtain rfl := clean _ _ _ whole
  have within : cur.pos ≤ buf.length := inside.resolve_right (by simp [Flaws.none])
  obtain ⟨c,split,encodes⟩ := frontClean _ whole
  have consumed : buf.take cur.pos = c := by
    have size := congrArg List.length split
    simp only [List.length_append, List.length_drop] at size
    rw [split]
    have pos : cur.pos = c.length := by omega
    rw [pos, List.take_left]
  exact ⟨within,consumed ▸ encodes,overflow⟩

theorem faultlessOfAccepts {buf : Bytes} (stored : buf.length ≤ maxSize) (accepts : AcceptsOnlyResp buf) : Faultless buf := by
  intro r rest flaws whole
  obtain ⟨cur,parsed⟩ := wholeParse stored whole
  obtain ⟨inside,encodes,exactly⟩ := accepts r cur parsed
  have malformed := encodedMalformed stored inside encodes whole
  obtain ⟨flaws',whole',overflow,-⟩ := parseWhole stored parsed
  rw [whole, Front.whole.injEq] at whole'
  obtain ⟨-,-,rfl⟩ := whole'
  obtain ⟨o,m⟩ := flaws
  simp_all [Flaws.none]

/- The parser accepts only RESP2 exactly when no complete reply at the front is faulty. -/
theorem acceptsOnlyRespIff (buf : Bytes) (stored : buf.length ≤ maxSize) : AcceptsOnlyResp buf ↔ Faultless buf :=
  ⟨faultlessOfAccepts stored,acceptsOfFaultless stored⟩

def nested : Bytes :=
  bytes "*3" ++ crlf ++ (bytes "*2" ++ crlf ++ bytes "$3" ++ crlf ++ bytes "abc" ++ crlf ++ bytes "$-1" ++ crlf) ++
    bytes ":-7" ++ crlf ++ bytes "+OK" ++ crlf

theorem acceptsNested : AcceptsOnlyResp nested :=
  (acceptsOnlyRespIff nested (by decide)).mpr (by decide)

theorem unterminatedAccepted : ¬ ∀ buf : Bytes, buf.length ≤ maxSize → AcceptsOnlyResp buf := by
  intro all
  have parsed : parse (bytes "$3" ++ crlf ++ bytes "abcXY") = .ok { type := .string, str := bytes "abc" } ⟨9,false⟩ := by rfl
  obtain ⟨inside,encodes,-⟩ := all (bytes "$3" ++ crlf ++ bytes "abcXY") (by decide) _ _ parsed
  have three : numeralOf (bytes "3") = some 3 := by decide
  have laid : front 10 (dollar :: (bytes "3" ++ crlf ++ bytes "abcXY")) =
      .whole { type := .string, str := bytes "abc" } [] ⟨false,true⟩ := by
    rw [frontBulk, bulk, numberAt three]
    rfl
  exact absurd (encodedMalformed (by decide) inside encodes laid) (by decide)

end Acceptance

end Uco.RespStrict
