import Uco.Form

/-! The two decoders of a percent-encoded text by the indices that they read: decode_component,
which refuses a bad escape, and UrlDecode, which keeps it. -/
namespace Uco.StrictDecode
open Ustring (charToHex percent plus space escaped urlDecode urlDecodeFrom urlDecodeSkips)
open Form (decodeComponent decodeBlank decodeLiteral Malformed malformedRefused)

section Model

/- The loop from index `i` on; none when a byte behind the end is read. -/
def decodeComponentAt (value : Bytes) (i : ℕ) (result : Bytes) : Option (Bool × Bytes) :=
  if _more : i < value.length then do
    let c ← value[i]?
    if c = plus then decodeComponentAt value (i + 1) (result ++ [space])
    else if c = percent then
      if i + 2 ≥ value.length then some (false,result)
      else do
        let a ← value[i + 1]?
        let b ← value[i + 2]?
        match charToHex a, charToHex b with
        | some high, some low => decodeComponentAt value (i + 3) (result ++ [high <<< 4 ||| low])
        | _, _ => some (false,result)
    else decodeComponentAt value (i + 1) (result ++ [c])
  else some (true,result)
  termination_by value.length - i
  decreasing_by all_goals omega

def urlDecodeAt (plusAsSpace : Bool) (value : Bytes) (i : ℕ) (result : Bytes) : Option Bytes :=
  if _more : i < value.length then do
    let c ← value[i]?
    if c = plus ∧ plusAsSpace then urlDecodeAt plusAsSpace value (i + 1) (result ++ [space])
    else if c = percent ∧ i + 2 < value.length then do
      let a ← value[i + 1]?
      let b ← value[i + 2]?
      match charToHex a, charToHex b with
      | some hi, some lo => urlDecodeAt plusAsSpace value (i + 3) (result ++ [hi <<< 4 ||| lo])
      | _, _ => urlDecodeAt plusAsSpace value (i + 1) (result ++ [percent])
    else urlDecodeAt plusAsSpace value (i + 1) (result ++ [c])
  else some result
  termination_by value.length - i
  decreasing_by all_goals omega

end Model

section Escapes

def HexPair (rest : Bytes) : Prop :=
  ∃ a b tail, rest = a :: b :: tail ∧ (charToHex a).isSome ∧ (charToHex b).isSome

def EscapesWhole (s : Bytes) : Prop := ∀ front rest, s = front ++ percent :: rest → HexPair rest

theorem wholeMalformed (s : Bytes) : EscapesWhole s ↔ ¬Malformed s := by
  constructor
  · rintro whole ⟨front,rest,text,bad⟩
    exact bad (whole front rest text)
  · intro fine front rest text
    by_contra bad
    exact fine ⟨front,rest,text,bad⟩

theorem wholeBehind {s front : Bytes} (whole : EscapesWhole (front ++ s)) : EscapesWhole s := by
  intro before rest text
  exact whole (front ++ before) rest (by rw [text, List.append_assoc])

theorem pairLength {rest : Bytes} (pair : HexPair rest) : 2 ≤ rest.length := by
  obtain ⟨a,b,tail,rfl,-⟩ := pair
  simp

theorem noPair {a b : UInt8} {tail : Bytes} (bad : ∀ high low, charToHex a = some high → charToHex b = some low → False) :
    ¬HexPair (a :: b :: tail) := by
  rintro ⟨_,_,_,text,first,second⟩
  cases text
  exact bad _ _ (Option.some_get first).symm (Option.some_get second).symm

theorem pairEscaped (rest : Bytes) : HexPair rest ↔ (escaped rest).isSome := by
  rcases rest with _ | ⟨a,_ | ⟨b,tail⟩⟩
  · simp [HexPair, escaped]
  · simp [HexPair, escaped]
  · cases first : charToHex a <;> cases second : charToHex b <;> simp [HexPair, escaped, first, second]

end Escapes

section Lenient
variable {plusAsSpace : Bool} {rest : Bytes}

theorem urlDecodeBlank (rest : Bytes) : urlDecode (plus :: rest) true = space :: urlDecode rest true := by
  simp [urlDecode, urlDecodeFrom]

theorem urlDecodeLiteral {c : UInt8} (noBlank : ¬(c = plus ∧ plusAsSpace)) (other : c ≠ percent) (rest : Bytes) :
    urlDecode (c :: rest) plusAsSpace = c :: urlDecode rest plusAsSpace := by
  rw [urlDecode, urlDecodeFrom, if_neg (Nat.lt_irrefl 0), if_neg noBlank, if_neg other, urlDecode]

theorem urlDecodePercent (plusAsSpace : Bool) (rest : Bytes) : urlDecode (percent :: rest) plusAsSpace =
    match escaped rest with
    | some byte => byte :: urlDecodeFrom plusAsSpace 2 rest
    | none => percent :: urlDecode rest plusAsSpace := by
  have apart : ¬(percent = plus ∧ plusAsSpace) := fun same => absurd same.1 (by decide)
  rw [urlDecode, urlDecodeFrom, if_neg (Nat.lt_irrefl 0), if_neg apart, if_pos rfl]
  rfl

theorem urlDecodeEscape {a b high low : UInt8} (first : charToHex a = some high) (second : charToHex b = some low)
    (plusAsSpace : Bool) (rest : Bytes) : urlDecode (percent :: a :: b :: rest) plusAsSpace =
      (high <<< 4 ||| low) :: urlDecode rest plusAsSpace := by
  have byte : escaped (a :: b :: rest) = some (high <<< 4 ||| low) := by rw [escaped, first, second]
  have skips := urlDecodeSkips plusAsSpace [a,b] rest
  rw [urlDecodePercent, byte]
  exact congrArg ((high <<< 4 ||| low) :: ·) skips

theorem urlDecodeKept (bad : ¬HexPair rest) (plusAsSpace : Bool) :
    urlDecode (percent :: rest) plusAsSpace = percent :: urlDecode rest plusAsSpace := by
  rw [pairEscaped, Option.not_isSome_iff_eq_none] at bad
  rw [urlDecodePercent, bad]

theorem pairSplit {tail : Bytes} {c : UInt8} (noDigit : charToHex c = none) (pair : HexPair (tail ++ c :: rest)) :
    HexPair tail := by
  obtain ⟨a,b,more,text,first,second⟩ := pair
  rcases tail with _ | ⟨a',_ | ⟨b',tail⟩⟩
  · obtain ⟨rfl,-⟩ := List.cons.inj text
    rw [noDigit] at first
    cases first
  · obtain ⟨rfl,-⟩ := List.cons.inj (List.cons.inj text).2
    rw [noDigit] at second
    cases second
  · obtain ⟨rfl,behind⟩ := List.cons.inj text
    obtain ⟨rfl,-⟩ := List.cons.inj behind
    exact ⟨a',b',tail,rfl,first,second⟩

theorem urlDecodeSplit {c : UInt8} (noDigit : charToHex c = none) (plusAsSpace : Bool) (front rest : Bytes) :
    urlDecode (front ++ c :: rest) plusAsSpace = urlDecode front plusAsSpace ++ urlDecode (c :: rest) plusAsSpace := by
  induction size : front.length using Nat.strongRecOn generalizing front with
  | ind n ih =>
    subst size
    cases front with
    | nil => rfl
    | cons d tail =>
      have shorter : tail.length < (d :: tail).length := Nat.lt_succ_self _
      rw [List.cons_append]
      by_cases blank : d = plus ∧ plusAsSpace
      · obtain ⟨rfl,rfl⟩ := blank
        rw [urlDecodeBlank, urlDecodeBlank, ih _ shorter tail rfl, List.cons_append]
      · by_cases escape : d = percent
        · subst escape
          by_cases pair : HexPair tail
          · obtain ⟨a,b,more,rfl,first,second⟩ := pair
            obtain ⟨high,first⟩ := Option.isSome_iff_exists.mp first
            obtain ⟨low,second⟩ := Option.isSome_iff_exists.mp second
            have shorter : more.length < (percent :: a :: b :: more).length := by
              simp only [List.length_cons]
              omega
            rw [List.cons_append, List.cons_append, urlDecodeEscape first second, urlDecodeEscape first second,
              ih _ shorter more rfl, List.cons_append]
          · rw [urlDecodeKept pair, urlDecodeKept fun longer => pair (pairSplit noDigit longer),
              ih _ shorter tail rfl, List.cons_append]
        · rw [urlDecodeLiteral blank escape, urlDecodeLiteral blank escape, ih _ shorter tail rfl, List.cons_append]

theorem keptAlone (bad : ¬HexPair rest) (plusAsSpace : Bool) (front : Bytes) :
    urlDecode (front ++ percent :: rest) plusAsSpace =
      urlDecode front plusAsSpace ++ percent :: urlDecode rest plusAsSpace := by
  rw [urlDecodeSplit (by decide), urlDecodeKept bad]

end Lenient

section Strict
variable {s : Bytes}

theorem badRefused {rest : Bytes} (bad : ¬HexPair rest) : decodeComponent (percent :: rest) = none :=
  malformedRefused ⟨[],rest,rfl,bad⟩

theorem escapeDecoded {a b high low : UInt8} (first : charToHex a = some high) (second : charToHex b = some low)
    (rest : Bytes) : decodeComponent (percent :: a :: b :: rest) =
      (decodeComponent rest).map ((high <<< 4 ||| low) :: ·) := by
  rw [decodeComponent, if_neg (by decide), if_pos rfl]
  simp only [first, second]

theorem wholeDecoded (whole : EscapesWhole s) : decodeComponent s = some (urlDecode s true) := by
  fun_induction decodeComponent s with
  | case1 => rfl
  | case2 rest ih => rw [ih (@wholeBehind rest [plus] whole), urlDecodeBlank, Option.map_some]
  | case3 a b rest high low second first _ ih =>
    rw [ih (@wholeBehind rest [percent,a,b] whole), urlDecodeEscape first second, Option.map_some]
  | case4 a b rest bad =>
    exact absurd (whole [] _ rfl) (noPair bad)
  | case5 rest short =>
    obtain ⟨a,b,tail,text,-⟩ := whole [] _ rfl
    exact (short a b tail text).elim
  | case6 c rest noBlank other ih =>
    rw [ih (@wholeBehind rest [c] whole), urlDecodeLiteral (fun blank => noBlank blank.1) other, Option.map_some]

end Strict

section Indices
variable {value : Bytes} {i : ℕ} {c : UInt8} {tail : Bytes}

theorem dropHead (here : value.drop i = c :: tail) :
    value.length = i + (tail.length + 1) ∧ (∀ k, value[i + k]? = (c :: tail)[k]?) ∧
      ∀ k, value.drop (i + (k + 1)) = tail.drop k := by
  have size := congrArg List.length here
  rw [List.length_drop, List.length_cons] at size
  refine ⟨by omega,fun k => ?_,fun k => ?_⟩
  · rw [← here, List.getElem?_drop]
  · rw [← List.drop_drop, here, List.drop_succ_cons]

theorem longTail (long : 2 ≤ tail.length) : ∃ a b rest, tail = a :: b :: rest := by
  rcases tail with _ | ⟨a,_ | ⟨b,rest⟩⟩
  · exact absurd long (by decide)
  · exact absurd long (Nat.not_succ_le_self 1)
  · exact ⟨a,b,rest,rfl⟩

theorem urlDecodeReads (plusAsSpace : Bool) (value : Bytes) (i : ℕ) (result : Bytes) :
    urlDecodeAt plusAsSpace value i result = some (result ++ urlDecode (value.drop i) plusAsSpace) := by
  induction left : value.length - i using Nat.strongRecOn generalizing i result with
  | ind n ih =>
    rw [urlDecodeAt]
    rcases ahead : value.drop i with _ | ⟨c,tail⟩
    · rw [dif_neg (Nat.not_lt.mpr (List.drop_eq_nil_iff.mp ahead))]
      exact congrArg some (List.append_nil result).symm
    · obtain ⟨size,reads,drops⟩ := dropHead ahead
      have next : ∀ k, 0 < k → value.length - (i + k) < n := fun k _ => by omega
      rw [dif_pos (by omega), show value[i]? = some c from reads 0, Option.bind_eq_bind, Option.bind_some]
      by_cases blank : c = plus ∧ plusAsSpace
      · obtain ⟨rfl,rfl⟩ := blank
        rw [if_pos ⟨rfl,rfl⟩, ih _ (next 1 Nat.one_pos) _ _ rfl, drops 0, urlDecodeBlank, List.append_assoc]
        rfl
      · rw [if_neg blank]
        by_cases escape : c = percent ∧ i + 2 < value.length
        · rw [if_pos escape]
          obtain ⟨rfl,inside⟩ := escape
          obtain ⟨a,b,rest,rfl⟩ := longTail (show 2 ≤ tail.length by omega)
          rw [show value[i + 1]? = some a from reads 1, show value[i + 2]? = some b from reads 2]
          simp only [Option.bind_some]
          split
          · rename_i hi lo first second
            rw [ih _ (next 3 (by decide)) _ _ rfl, drops 2, urlDecodeEscape first second, List.append_assoc]
            rfl
          · rename_i bad
            rw [ih _ (next 1 Nat.one_pos) _ _ rfl, drops 0, urlDecodeKept (noPair bad), List.append_assoc]
            rfl
        · rw [if_neg escape, ih _ (next 1 Nat.one_pos) _ _ rfl, drops 0, List.append_assoc]
          by_cases same : c = percent
          · subst same
            have bad : ¬HexPair tail := fun pair => escape ⟨rfl,by have := pairLength pair; omega⟩
            rw [urlDecodeKept bad]
            rfl
          · rw [urlDecodeLiteral blank same]
            rfl

def Answers (result : Bytes) (answer : Option Bytes) (out : Option (Bool × Bytes)) : Prop :=
  match answer with
  | some r => out = some (true,result ++ r)
  | none => ∃ left, out = some (false,left)

theorem answersCons {result : Bytes} {answer : Option Bytes} {out : Option (Bool × Bytes)} {x : UInt8}
    (answers : Answers (result ++ [x]) answer out) : Answers result (answer.map (x :: ·)) out := by
  cases answer with
  | none => exact answers
  | some r =>
    rw [Answers, List.append_assoc] at answers
    exact answers

theorem componentReads (value : Bytes) (i : ℕ) (result : Bytes) :
    Answers result (decodeComponent (value.drop i)) (decodeComponentAt value i result) := by
  induction left : value.length - i using Nat.strongRecOn generalizing i result with
  | ind n ih =>
    rw [decodeComponentAt]
    rcases ahead : value.drop i with _ | ⟨c,tail⟩
    · rw [dif_neg (Nat.not_lt.mpr (List.drop_eq_nil_iff.mp ahead))]
      exact congrArg (fun r => some (true,r)) (List.append_nil result).symm
    · obtain ⟨size,reads,drops⟩ := dropHead ahead
      have next : ∀ k, 0 < k → value.length - (i + k) < n := fun k _ => by omega
      rw [dif_pos (by omega), show value[i]? = some c from reads 0, Option.bind_eq_bind, Option.bind_some]
      by_cases blank : c = plus
      · subst blank
        rw [if_pos rfl, decodeBlank, ← show value.drop (i + 1) = tail from drops 0]
        exact answersCons (ih _ (next 1 Nat.one_pos) _ _ rfl)
      · rw [if_neg blank]
        by_cases escape : c = percent
        · subst escape
          rw [if_pos rfl]
          by_cases short : i + 2 ≥ value.length
          · have bad : Malformed (percent :: tail) := ⟨[],tail,rfl,fun pair => by have := pairLength pair; omega⟩
            rw [if_pos short, malformedRefused bad]
            exact ⟨result,rfl⟩
          · rw [if_neg short]
            obtain ⟨a,b,rest,rfl⟩ := longTail (show 2 ≤ tail.length by omega)
            rw [show value[i + 1]? = some a from reads 1, show value[i + 2]? = some b from reads 2]
            simp only [Option.bind_some]
            split
            · rename_i high low first second
              rw [escapeDecoded first second, ← show value.drop (i + 3) = rest from drops 2]
              exact answersCons (ih _ (next 3 (by decide)) _ _ rfl)
            · rename_i bad
              rw [badRefused (noPair bad)]
              exact ⟨result,rfl⟩
        · rw [if_neg escape, decodeLiteral ⟨blank,escape⟩, ← show value.drop (i + 1) = tail from drops 0]
          exact answersCons (ih _ (next 1 Nat.one_pos) _ _ rfl)

end Indices

section Agreement

theorem decodersAgree (s : Bytes) :
    (∃ ok result, decodeComponentAt s 0 [] = some (ok,result) ∧ (ok = true ↔ EscapesWhole s) ∧
      (ok = true → result = urlDecode s true)) ∧
    (∀ plusAsSpace, urlDecodeAt plusAsSpace s 0 [] = some (urlDecode s plusAsSpace)) ∧
    ∀ plusAsSpace front rest, s = front ++ percent :: rest → ¬HexPair rest →
      urlDecode s plusAsSpace = urlDecode front plusAsSpace ++ percent :: urlDecode rest plusAsSpace := by
  refine ⟨?_,fun plusAsSpace => urlDecodeReads plusAsSpace s 0 [],fun plusAsSpace front rest text bad => ?_⟩
  · have answers := componentReads s 0 []
    rw [List.drop_zero] at answers
    by_cases whole : EscapesWhole s
    · rw [wholeDecoded whole] at answers
      exact ⟨true,urlDecode s true,answers,⟨fun _ => whole,fun _ => rfl⟩,fun _ => rfl⟩
    · rw [malformedRefused (by_contra fun fine => whole ((wholeMalformed s).mpr fine))] at answers
      obtain ⟨left,refused⟩ := answers
      exact ⟨false,left,refused,⟨nofun,fun here => absurd here whole⟩,nofun⟩
  · rw [text, keptAlone bad]

end Agreement

end Uco.StrictDecode
