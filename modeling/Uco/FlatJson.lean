import Uco.SessionRoundTrip
import Mathlib.Data.List.TakeWhile

/-! Flat JSON objects of strings after RFC 8259, and what their string literals denote.
The session parser accepts these texts and no others, and reads what they denote. -/
namespace Uco.FlatJson
open SessionJson

section Literals

/- The letter of a two-character escape and the byte it stands for. -/
inductive Escape : UInt8 → UInt8 → Prop where
  | quote : Escape 34 34
  | backslash : Escape 92 92
  | slash : Escape 47 47
  | backspace : Escape 98 8
  | formFeed : Escape 102 12
  | newline : Escape 110 10
  | return : Escape 114 13
  | tab : Escape 116 9

structure CodeUnit where
  digits : UInt8 × UInt8 × UInt8 × UInt8
  values : UInt8 × UInt8 × UInt8 × UInt8
  hex : hexValue digits.1 = some values.1 ∧ hexValue digits.2.1 = some values.2.1 ∧
    hexValue digits.2.2.1 = some values.2.2.1 ∧ hexValue digits.2.2.2 = some values.2.2.2

def CodeUnit.text (u : CodeUnit) : Bytes := [u.digits.1, u.digits.2.1, u.digits.2.2.1, u.digits.2.2.2]

def CodeUnit.value (u : CodeUnit) : Nat :=
  ((u.values.1.toNat * 16 + u.values.2.1.toNat) * 16 + u.values.2.2.1.toNat) * 16 + u.values.2.2.2.toNat

inductive Item where
  | plain (c : UInt8) (legal : 32 ≤ c ∧ c ≠ quote ∧ c ≠ backslash)
  | short (letter ch : UInt8) (known : Escape letter ch)
  | unit (u : CodeUnit)

def Item.source : Item → Bytes
  | .plain c _ => [c]
  | .short letter _ _ => [backslash, letter]
  | .unit u => backslash :: letterU :: u.text

def High (v : Nat) : Prop := 0xD800 ≤ v ∧ v ≤ 0xDBFF
def Low (v : Nat) : Prop := 0xDC00 ≤ v ∧ v ≤ 0xDFFF

instance (v : Nat) : Decidable (High v) := inferInstanceAs (Decidable (_ ∧ _))
instance (v : Nat) : Decidable (Low v) := inferInstanceAs (Decidable (_ ∧ _))

def loneChar (v : Nat) : Char := if High v ∨ Low v then Char.ofNat 0xFFFD else Char.ofNat v

def pairChar (high low : Nat) : Char := Char.ofNat (0x10000 + (high - 0xD800) * 0x400 + (low - 0xDC00))

def decode : List Item → Bytes
  | [] => []
  | .plain c _ :: items => c :: decode items
  | .short _ ch _ :: items => ch :: decode items
  | .unit u :: .unit l :: items =>
    if High u.value ∧ Low l.value then String.utf8EncodeChar (pairChar u.value l.value) ++ decode items
    else String.utf8EncodeChar (loneChar u.value) ++ decode (.unit l :: items)
  | .unit u :: items => String.utf8EncodeChar (loneChar u.value) ++ decode items

def Literal (text value : Bytes) : Prop :=
  ∃ items : List Item, text = quote :: items.flatMap Item.source ++ [quote] ∧ value = decode items

end Literals

section Objects

def Ws (text : Bytes) : Prop := ∀ c ∈ text, c = 32 ∨ c = 9 ∨ c = 10 ∨ c = 13

inductive Member : Bytes → Bytes × Bytes → Prop where
  | mk {w₁ w₂ w₃ w₄ key value k v} (blank : Ws w₁ ∧ Ws w₂ ∧ Ws w₃ ∧ Ws w₄) (keyText : Literal key k)
      (valueText : Literal value v) :
      Member (w₁ ++ key ++ (w₂ ++ colon :: (w₃ ++ value ++ w₄))) (k,v)

inductive Members : Bytes → List (Bytes × Bytes) → Prop where
  | last {text pair} (member : Member text pair) : Members text [pair]
  | more {text pair tail pairs} (member : Member text pair) (others : Members tail pairs) :
      Members (text ++ comma :: tail) (pair :: pairs)

inductive FlatObject : Bytes → List (Bytes × Bytes) → Prop where
  | empty {w₁ w₂ w₃} (blank : Ws w₁ ∧ Ws w₂ ∧ Ws w₃) :
      FlatObject (w₁ ++ openBrace :: (w₂ ++ closeBrace :: w₃)) []
  | members {w₁ body w₃ pairs} (blank : Ws w₁ ∧ Ws w₃) (members : Members body pairs) :
      FlatObject (w₁ ++ openBrace :: (body ++ closeBrace :: w₃)) pairs

end Objects

section Strings

theorem escapeLookup (letter ch : UInt8) : simpleEscapes.lookup letter = some ch ↔ Escape letter ch := by
  constructor
  · intro found
    obtain ⟨before,after,pairs,-⟩ := List.lookup_eq_some_iff.mp found
    have inside : (letter,ch) ∈ simpleEscapes := by simp [pairs]
    simp only [simpleEscapes, List.mem_cons, Prod.mk.injEq, List.not_mem_nil, or_false] at inside
    rcases inside with ⟨rfl,rfl⟩ | ⟨rfl,rfl⟩ | ⟨rfl,rfl⟩ | ⟨rfl,rfl⟩ | ⟨rfl,rfl⟩ | ⟨rfl,rfl⟩ | ⟨rfl,rfl⟩ | ⟨rfl,rfl⟩
    · exact .quote
    · exact .backslash
    · exact .slash
    · exact .backspace
    · exact .formFeed
    · exact .newline
    · exact .return
    · exact .tab
  · rintro ⟨⟩ <;> rfl

theorem utf8AppendChar {cp : Nat} (valid : cp.isValidChar) : utf8Append cp = String.utf8EncodeChar (Char.ofNat cp) := by
  have value : (Char.ofNat cp).val.toNat = cp := by
    rw [Char.ofNat, dif_pos valid]
    rfl
  have bound : cp < 0x110000 := by
    rcases valid with h | h <;> omega
  simp only [utf8Append, String.utf8EncodeChar, value, Nat.toUInt8]
  split
  · rfl
  have tail (n : Nat) : 0x80 + n % 64 = n % 64 + 0x80 := by omega
  simp only [tail]
  split
  · rw [show 0xC0 + cp / 64 = cp / 64 % 32 + 0xC0 by omega]
  split
  · rw [show 0xE0 + cp / 4096 = cp / 4096 % 16 + 0xE0 by omega]
  · rw [show 0xF0 + cp / 262144 = cp / 262144 % 8 + 0xF0 by omega]

theorem hexBound {c x : UInt8} (digit : hexValue c = some x) : x.toNat < 16 := by
  have all : ∀ n < 256, (hexValue n.toUInt8).all fun x => decide (x.toNat < 16) := by decide +kernel
  have here := all c.toNat c.toNat_lt
  rw [show c.toNat.toUInt8 = c from UInt8.ofNat_toNat, digit] at here
  simpa using here

theorem unitBound (u : CodeUnit) : u.value < 0x10000 := by
  obtain ⟨a,b,c,d⟩ := u.hex
  have ha := hexBound a
  have hb := hexBound b
  have hc := hexBound c
  have hd := hexBound d
  simp only [CodeUnit.value]
  omega

theorem parseHexUnit (u : CodeUnit) (rest : Bytes) : parseHex4 (u.text ++ rest) = some u.value := by
  obtain ⟨a,b,c,d⟩ := u.hex
  simp [CodeUnit.text, CodeUnit.value, parseHex4, a, b, c, d]

theorem parseHexSplit {text : Bytes} {v : Nat} (parsed : parseHex4 text = some v) :
    ∃ (u : CodeUnit) (rest : Bytes), text = u.text ++ rest ∧ u.value = v := by
  match text, parsed with
  | a :: b :: c :: d :: rest, parsed =>
    simp only [parseHex4, Option.bind_eq_bind, Option.bind_eq_some_iff, Option.some.injEq] at parsed
    obtain ⟨x,hx,y,hy,z,hz,w,hw,value⟩ := parsed
    exact ⟨⟨(a,b,c,d),(x,y,z,w),hx,hy,hz,hw⟩,rest,rfl,value⟩

def Alone (v : Nat) (after : Bytes) : Prop :=
  ∀ (l : CodeUnit) (rest : Bytes), after = backslash :: letterU :: (l.text ++ rest) → ¬ (High v ∧ Low l.value)

theorem unicodePair {u l : CodeUnit} (high : High u.value) (low : Low l.value) (rest : Bytes) :
    parseUnicode (u.text ++ backslash :: letterU :: (l.text ++ rest)) =
      some (0x10000 + (u.value - 0xD800) * 0x400 + (l.value - 0xDC00), 10) := by
  have rest4 : (u.text ++ backslash :: letterU :: (l.text ++ rest)).drop 4 = backslash :: letterU :: (l.text ++ rest) := rfl
  have rest6 : (u.text ++ backslash :: letterU :: (l.text ++ rest)).drop 6 = l.text ++ rest := rfl
  rw [parseUnicode, parseHexUnit, rest4, rest6, parseHexUnit]
  simp only [Option.bind_eq_bind, Option.bind_some]
  rw [if_pos ⟨high.1,high.2,rfl⟩]
  exact if_pos low

theorem unicodeLone {u : CodeUnit} {after : Bytes} (alone : Alone u.value after) :
    parseUnicode (u.text ++ after) = some (if High u.value ∨ Low u.value then replacement else u.value, 4) := by
  have rest4 : (u.text ++ after).drop 4 = after := rfl
  have rest6 : (u.text ++ after).drop 6 = after.drop 2 := rfl
  rw [parseUnicode, parseHexUnit, rest4, rest6]
  simp only [Option.bind_eq_bind, Option.bind_some]
  by_cases high : High u.value
  · by_cases next : after.take 2 = [backslash, letterU]
    · rw [if_pos ⟨high.1,high.2,next⟩, if_pos (.inl high)]
      cases found : parseHex4 (after.drop 2) with
      | none => rfl
      | some lo =>
        obtain ⟨l,rest,split,rfl⟩ := parseHexSplit found
        have whole : after = backslash :: letterU :: (l.text ++ rest) := by
          rw [← split, ← List.take_append_drop 2 after, next]
          simp
        have notLow : ¬ Low l.value := fun low => alone l rest whole ⟨high,low⟩
        exact if_neg notLow
    · rw [if_neg (fun h => next h.2.2), if_pos ⟨high.1,Nat.le_trans high.2 (by decide)⟩, if_pos (.inl high)]
  · rw [if_neg (fun h => high ⟨h.1,h.2.1⟩)]
    by_cases low : Low u.value
    · rw [if_pos ⟨Nat.le_trans (by decide) low.1,low.2⟩, if_pos (.inr low)]
    · rw [if_neg (by simp only [High, Low] at high low; omega), if_neg (by tauto)]

theorem loneBytes (u : CodeUnit) :
    utf8Append (if High u.value ∨ Low u.value then replacement else u.value) = String.utf8EncodeChar (loneChar u.value) := by
  have bound := unitBound u
  rw [loneChar]
  split
  · exact utf8AppendChar (by decide)
  · rename_i plain
    refine utf8AppendChar ?_
    simp only [Nat.isValidChar, High, Low] at plain ⊢
    omega

theorem pairBytes {high low : Nat} (up : High high) (down : Low low) :
    utf8Append (0x10000 + (high - 0xD800) * 0x400 + (low - 0xDC00)) = String.utf8EncodeChar (pairChar high low) := by
  refine utf8AppendChar ?_
  simp only [Nat.isValidChar, High, Low] at up down ⊢
  omega

/- The escapes that the parser takes: what follows the backslash, the bytes it stands
for and how many were read. -/
inductive EscapeRead (rest ch : Bytes) (read : Nat) : Prop where
  | short {letter b after} (split : rest = letter :: after) (known : Escape letter b) (out : ch = [b]) (size : read = 1)
  | lone {u : CodeUnit} {after} (split : rest = letterU :: (u.text ++ after)) (alone : Alone u.value after)
      (out : ch = String.utf8EncodeChar (loneChar u.value)) (size : read = 5)
  | pair {u l : CodeUnit} {after} (split : rest = letterU :: (u.text ++ backslash :: letterU :: (l.text ++ after)))
      (high : High u.value) (low : Low l.value) (out : ch = String.utf8EncodeChar (pairChar u.value l.value))
      (size : read = 11)

theorem parseEscapeRead {rest ch : Bytes} {read : Nat} (parsed : parseEscape rest = some (ch,read)) :
    EscapeRead rest ch read := by
  cases rest with
  | nil => simp [parseEscape] at parsed
  | cons e tail =>
    cases found : simpleEscapes.lookup e with
    | some b =>
      simp only [parseEscape, found, Option.some.injEq, Prod.mk.injEq] at parsed
      exact .short rfl ((escapeLookup e b).mp found) parsed.1.symm parsed.2.symm
    | none =>
      simp only [parseEscape, found] at parsed
      split at parsed
      · rename_i isU
        subst isU
        simp only [Option.bind_eq_bind, Option.bind_eq_some_iff, Option.some.injEq, Prod.mk.injEq] at parsed
        obtain ⟨⟨cp,n⟩,unicode,rfl,rfl⟩ := parsed
        have hex : ∃ v, parseHex4 tail = some v := by
          cases h : parseHex4 tail with
          | none => simp [parseUnicode, h] at unicode
          | some v => exact ⟨v,rfl⟩
        obtain ⟨v,hex⟩ := hex
        obtain ⟨u,after,rfl,rfl⟩ := parseHexSplit hex
        by_cases alone : Alone u.value after
        · rw [unicodeLone alone, Option.some.injEq, Prod.mk.injEq] at unicode
          exact .lone rfl alone (by rw [← unicode.1, loneBytes]) (by rw [← unicode.2])
        · simp only [Alone, not_forall, not_not] at alone
          obtain ⟨l,later,rfl,high,low⟩ := alone
          rw [unicodePair high low, Option.some.injEq, Prod.mk.injEq] at unicode
          exact .pair rfl high low (by rw [← unicode.1, pairBytes high low]) (by rw [← unicode.2])
      · contradiction

theorem readEscape {rest ch : Bytes} {read : Nat} (escape : EscapeRead rest ch read) : parseEscape rest = some (ch,read) := by
  cases escape with
  | short split known out size => simp [split, parseEscape, (escapeLookup _ _).mpr known, out, size]
  | lone split alone out size =>
    simp [split, parseEscape, letterUEscapes, unicodeLone alone, loneBytes, out, size]
  | pair split high low out size =>
    simp only [split, parseEscape, letterUEscapes, unicodePair high low, if_true, Option.bind_eq_bind, Option.bind_some,
      pairBytes high low, out, size]

theorem unitValue {u l : CodeUnit} {rest rest' : Bytes} (same : u.text ++ rest = l.text ++ rest') : u.value = l.value := by
  have parsed := parseHexUnit u rest
  rw [same, parseHexUnit] at parsed
  exact (Option.some.inj parsed).symm

theorem aloneItems {v : Nat} {items : List Item} {tail : Bytes}
    (apart : ∀ l others, items = .unit l :: others → ¬ (High v ∧ Low l.value)) :
    Alone v (items.flatMap Item.source ++ quote :: tail) := by
  intro l rest begins
  cases items with
  | nil => simp [quote, backslash] at begins
  | cons item others =>
    cases item with
    | plain c legal =>
      simp only [List.flatMap_cons, Item.source, List.cons_append, List.nil_append, List.cons.injEq] at begins
      exact absurd begins.1 legal.2.2
    | short letter ch known =>
      simp only [List.flatMap_cons, Item.source, List.cons_append, List.nil_append, List.cons.injEq, true_and] at begins
      rw [begins.1] at known
      cases known
    | unit u =>
      simp only [List.flatMap_cons, Item.source, List.cons_append, List.append_assoc, List.cons.injEq, true_and] at begins
      rw [← unitValue begins]
      exact apart u others rfl

theorem decodeLone {u : CodeUnit} {items : List Item} {tail : Bytes}
    (alone : Alone u.value (items.flatMap Item.source ++ tail)) :
    decode (.unit u :: items) = String.utf8EncodeChar (loneChar u.value) ++ decode items := by
  cases items with
  | nil => rfl
  | cons item others =>
    cases item with
    | plain | short => rfl
    | unit l =>
      rw [decode, if_neg (alone l (others.flatMap Item.source ++ tail) (by simp [Item.source]))]

theorem escapeGoesOn {ch after read : Bytes} (escape : EscapeRead (read ++ after) ch read.length) (out : Bytes) :
    parseStringFrom 0 out (backslash :: read ++ after) = parseStringFrom 0 (out ++ ch) after :=
  parseStringEscape read (readEscape escape)

theorem literalRead (items : List Item) (out tail : Bytes) :
    parseStringFrom 0 out (items.flatMap Item.source ++ quote :: tail) = some (out ++ decode items,tail) := by
  have lone (u : CodeUnit) (items : List Item) (out : Bytes) (alone : Alone u.value (items.flatMap Item.source ++ quote :: tail))
      (later : ∀ out, parseStringFrom 0 out (items.flatMap Item.source ++ quote :: tail) = some (out ++ decode items,tail)) :
      parseStringFrom 0 out ((Item.unit u :: items).flatMap Item.source ++ quote :: tail) =
        some (out ++ decode (.unit u :: items),tail) := by
    have escape : EscapeRead (letterU :: u.text ++ (items.flatMap Item.source ++ quote :: tail))
        (String.utf8EncodeChar (loneChar u.value)) (letterU :: u.text).length := .lone rfl alone rfl rfl
    rw [decodeLone alone, ← List.append_assoc, ← later, ← escapeGoesOn escape]
    simp [Item.source]
  induction items using decode.induct generalizing out with
  | case1 => simp [decode, parseStringFrom]
  | case2 c legal items ih =>
    rw [List.flatMap_cons, List.append_assoc, Item.source, decode]
    have plain : parseStringFrom 0 out (c :: (items.flatMap Item.source ++ quote :: tail)) =
        parseStringFrom 0 (out ++ [c]) (items.flatMap Item.source ++ quote :: tail) := by
      have printed : ¬ c < 32 := by simpa using legal.1
      simp [parseStringFrom, legal.2.1, legal.2.2, printed]
    rw [List.cons_append, List.nil_append, plain, ih]
    simp
  | case3 letter ch known items ih =>
    have escape : EscapeRead ([letter] ++ (items.flatMap Item.source ++ quote :: tail)) [ch] [letter].length :=
      .short rfl known rfl rfl
    have read := escapeGoesOn escape out
    rw [ih] at read
    simpa [Item.source, decode] using read
  | case4 u l items paired ih =>
    have escape : EscapeRead (letterU :: (u.text ++ backslash :: letterU :: l.text) ++
        (items.flatMap Item.source ++ quote :: tail)) (String.utf8EncodeChar (pairChar u.value l.value))
        (letterU :: (u.text ++ backslash :: letterU :: l.text)).length :=
      @EscapeRead.pair _ _ _ u l (items.flatMap Item.source ++ quote :: tail) (by simp) paired.1 paired.2 rfl rfl
    have read := escapeGoesOn escape out
    rw [ih] at read
    simpa [Item.source, decode, paired] using read
  | case5 u l items apart ih =>
    refine lone u (.unit l :: items) out (aloneItems ?_) ih
    rintro l' others ⟨⟩
    exact apart
  | case6 u items other ih =>
    refine lone u items out (aloneItems ?_) ih
    intro l others same
    exact absurd same (other l others)

theorem literalSound (size : Nat) {rest out value tail : Bytes} (short : rest.length ≤ size)
    (parsed : parseStringFrom 0 out rest = some (value,tail)) :
    ∃ items : List Item, rest = items.flatMap Item.source ++ quote :: tail ∧ value = out ++ decode items := by
  induction size generalizing rest out with
  | zero =>
    obtain rfl := List.length_eq_zero_iff.mp (Nat.le_zero.mp short)
    simp [parseStringFrom] at parsed
  | succ size ih =>
    cases rest with
    | nil => simp [parseStringFrom] at parsed
    | cons c rest =>
      simp only [List.length_cons] at short
      simp only [parseStringFrom, gt_iff_lt, Nat.lt_irrefl, if_false] at parsed
      split at parsed
      · rename_i isQuote
        simp only [Option.some.injEq, Prod.mk.injEq] at parsed
        obtain ⟨rfl,rfl⟩ := parsed
        exact ⟨[],by simp [isQuote],by simp [decode]⟩
      rename_i notQuote
      split at parsed
      · contradiction
      rename_i printed
      split at parsed
      · rename_i notBackslash
        obtain ⟨items,rfl,rfl⟩ := ih (by omega) parsed
        exact ⟨.plain c ⟨by simpa using printed,notQuote,notBackslash⟩ :: items,by simp [Item.source],by simp [decode]⟩
      rename_i isBackslash
      simp only [ne_eq, not_not] at isBackslash
      split at parsed
      · rename_i ch read found
        cases parseEscapeRead found with
        | @short letter b after split known escaped took =>
          subst split
          rw [took, escaped] at parsed
          have onward := parseStringSkips (out ++ [b]) [letter] after
          rw [List.length_singleton, List.singleton_append] at onward
          rw [onward] at parsed
          simp only [List.length_cons] at short
          obtain ⟨items,rfl,rfl⟩ := ih (by omega) parsed
          exact ⟨.short letter b known :: items,by simp [Item.source, isBackslash],by simp [decode]⟩
        | @lone u after split alone escaped took =>
          subst split
          rw [took, escaped] at parsed
          have onward := parseStringSkips (out ++ String.utf8EncodeChar (loneChar u.value)) (letterU :: u.text) after
          rw [show (letterU :: u.text).length = 5 from rfl, List.cons_append] at onward
          rw [onward] at parsed
          simp only [List.length_cons, List.length_append] at short
          obtain ⟨items,rfl,rfl⟩ := ih (by omega) parsed
          refine ⟨.unit u :: items,by simp [Item.source, isBackslash],?_⟩
          rw [decodeLone alone, List.append_assoc]
        | @pair u l after split high low escaped took =>
          subst split
          rw [took, escaped] at parsed
          have onward := parseStringSkips (out ++ String.utf8EncodeChar (pairChar u.value l.value))
            (letterU :: (u.text ++ backslash :: letterU :: l.text)) after
          rw [show (letterU :: (u.text ++ backslash :: letterU :: l.text)).length = 11 from rfl, List.cons_append,
            List.append_assoc, List.cons_append, List.cons_append] at onward
          rw [onward] at parsed
          simp only [List.length_cons, List.length_append] at short
          obtain ⟨items,rfl,rfl⟩ := ih (by omega) parsed
          exact ⟨.unit u :: .unit l :: items,by simp [Item.source, isBackslash],by simp [decode, high, low]⟩
      · contradiction

end Strings

section Parsing

theorem wsSeen {text : Bytes} (blank : Ws text) : ∀ c ∈ text, isWs c = true := by
  intro c inside
  simpa [isWs] using blank c inside

theorem wsAppend {a b : Bytes} (left : Ws a) (right : Ws b) : Ws (a ++ b) := by
  intro c inside
  exact (List.mem_append.mp inside).elim (left c) (right c)

theorem skipWsAt {ws : Bytes} (blank : Ws ws) (rest : Bytes) : skipWs (ws ++ rest) = skipWs rest :=
  List.dropWhile_append_of_pos (wsSeen blank)

theorem skipWsSplit (rest : Bytes) : ∃ ws, Ws ws ∧ rest = ws ++ skipWs rest := by
  refine ⟨rest.takeWhile isWs,fun c inside => ?_,(List.takeWhile_append_dropWhile).symm⟩
  simpa [isWs] using List.mem_takeWhile_imp inside

theorem eatAt {c : UInt8} {ws : Bytes} (visible : isWs c = false) (blank : Ws ws) (tail : Bytes) :
    eat c (ws ++ c :: tail) = some tail := by
  rw [eat, skipWsAt blank, ← eat, eatHead visible]

theorem eatNot {c d : UInt8} {ws : Bytes} (visible : isWs d = false) (other : d ≠ c) (blank : Ws ws) (tail : Bytes) :
    eat c (ws ++ d :: tail) = none := by
  rw [eat, skipWsAt blank, ← eat, eatOther visible other]

theorem eatSplit {c : UInt8} {rest tail : Bytes} (ate : eat c rest = some tail) : ∃ ws, Ws ws ∧ rest = ws ++ c :: tail := by
  obtain ⟨ws,blank,split⟩ := skipWsSplit rest
  rw [eat] at ate
  cases left : skipWs rest with
  | nil => simp [left] at ate
  | cons d more =>
    simp only [left] at ate
    split at ate
    · rename_i same
      rw [left, same, Option.some.inj ate] at split
      exact ⟨ws,blank,split⟩
    · contradiction

theorem stringAt {ws text v : Bytes} (blank : Ws ws) (literal : Literal text v) (tail : Bytes) :
    parseString (ws ++ text ++ tail) = some (v,tail) := by
  obtain ⟨items,rfl,rfl⟩ := literal
  have body : ws ++ (quote :: items.flatMap Item.source ++ [quote]) ++ tail =
      ws ++ quote :: (items.flatMap Item.source ++ quote :: tail) := by simp
  rw [body, parseString, eatAt (by decide) blank, Option.bind_eq_bind, Option.bind_some, literalRead, List.nil_append]

theorem stringSplit {rest v tail : Bytes} (parsed : parseString rest = some (v,tail)) :
    ∃ ws text, Ws ws ∧ Literal text v ∧ rest = ws ++ text ++ tail := by
  rw [parseString, Option.bind_eq_bind, Option.bind_eq_some_iff] at parsed
  obtain ⟨body,ate,parsed⟩ := parsed
  obtain ⟨ws,blank,rfl⟩ := eatSplit ate
  obtain ⟨items,rfl,denoted⟩ := literalSound body.length (Nat.le_refl _) parsed
  exact ⟨ws,_,blank,⟨items,rfl,by simpa using denoted⟩,by simp⟩

theorem memberRead {text : Bytes} {pair : Bytes × Bytes} (member : Member text pair) (rest : Bytes) :
    ∃ afterKey ws, Ws ws ∧ parseString (text ++ rest) = some (pair.1,afterKey) ∧
      (eat colon afterKey).bind parseString = some (pair.2,ws ++ rest) := by
  obtain @⟨w₁,w₂,w₃,w₄,key,value,k,v,blank,keyText,valueText⟩ := member
  refine ⟨w₂ ++ colon :: (w₃ ++ value ++ w₄) ++ rest,w₄,blank.2.2.2,?_,?_⟩
  · rw [List.append_assoc (w₁ ++ key), stringAt blank.1 keyText]
  · rw [List.append_assoc w₂, List.cons_append, eatAt (by decide) blank.2.1, Option.bind_some,
      List.append_assoc (w₃ ++ value), stringAt blank.2.2.1 valueText]

theorem memberSplit {rest afterKey ws tail k v : Bytes} (blank : Ws ws) (key : parseString rest = some (k,afterKey))
    (value : (eat colon afterKey).bind parseString = some (v,ws ++ tail)) :
    ∃ text, Member text (k,v) ∧ rest = text ++ tail := by
  obtain ⟨w₁,keyText,before,keyLiteral,rfl⟩ := stringSplit key
  obtain ⟨afterColon,ate,read⟩ := Option.bind_eq_some_iff.mp value
  obtain ⟨w₂,between,rfl⟩ := eatSplit ate
  obtain ⟨w₃,valueText,after,valueLiteral,rfl⟩ := stringSplit read
  exact ⟨_,.mk ⟨before,between,after,blank⟩ keyLiteral valueLiteral,by simp⟩

def stored (kv : Values) (pairs : List (Bytes × Bytes)) : Values :=
  pairs.foldl (fun kv pair => kv.insertIfNew pair.1 pair.2) kv

theorem membersRead {text : Bytes} {pairs : List (Bytes × Bytes)} (members : Members text pairs) {rounds : Nat}
    (enough : pairs.length ≤ rounds) (kv : Values) (tail : Bytes) :
    parseMembers rounds kv (text ++ closeBrace :: tail) = (true,stored kv pairs,tail) := by
  induction members generalizing rounds kv with
  | last member =>
    obtain ⟨rounds,rfl⟩ := Nat.exists_eq_add_of_lt enough
    obtain ⟨afterKey,ws,blank,key,value⟩ := memberRead member (closeBrace :: tail)
    simp only [parseMembers, key, value,
      eatNot (show isWs closeBrace = false by decide) (show closeBrace ≠ comma by decide) blank,
      eatAt (show isWs closeBrace = false by decide) blank]
    rfl
  | @more text pair later pairs member _ ih =>
    obtain ⟨rounds,rfl⟩ : ∃ n, rounds = n + 1 := ⟨rounds - 1,by simp at enough; omega⟩
    obtain ⟨afterKey,ws,blank,key,value⟩ := memberRead member (comma :: (later ++ closeBrace :: tail))
    rw [List.append_assoc, List.cons_append]
    simp only [parseMembers, key, value, eatAt (show isWs comma = false by decide) blank]
    exact ih (by simpa using enough) _

theorem membersSplit {rounds : Nat} {kv kv' : Values} {rest tail : Bytes}
    (parsed : parseMembers rounds kv rest = (true,kv',tail)) :
    ∃ text pairs, Members text pairs ∧ rest = text ++ closeBrace :: tail ∧ kv' = stored kv pairs := by
  induction rounds generalizing kv rest with
  | zero => simp [parseMembers] at parsed
  | succ rounds ih =>
    rw [parseMembers] at parsed
    cases key : parseString rest with
    | none => simp [key] at parsed
    | some first =>
      obtain ⟨k,afterKey⟩ := first
      cases value : (eat colon afterKey).bind parseString with
      | none => simp [key, value] at parsed
      | some second =>
        obtain ⟨v,afterValue⟩ := second
        simp only [key, value] at parsed
        cases more : eat comma afterValue with
        | some next =>
          simp only [more] at parsed
          obtain ⟨ws,blank,rfl⟩ := eatSplit more
          obtain ⟨text,member,rfl⟩ := memberSplit blank key value
          obtain ⟨later,pairs,members,rfl,rfl⟩ := ih parsed
          exact ⟨_,_,.more member members,by simp,rfl⟩
        | none =>
          simp only [more] at parsed
          cases last : eat closeBrace afterValue with
          | some end' =>
            simp only [last, Prod.mk.injEq, true_and] at parsed
            obtain ⟨rfl,rfl⟩ := parsed
            obtain ⟨ws,blank,rfl⟩ := eatSplit last
            obtain ⟨text,member,rfl⟩ := memberSplit blank key value
            exact ⟨_,_,.last member,rfl,rfl⟩
          | none => simp [last] at parsed

theorem membersLength {text : Bytes} {pairs : List (Bytes × Bytes)} (members : Members text pairs) :
    pairs.length ≤ text.length + 1 := by
  induction members with
  | last => simp
  | more _ _ ih =>
    simp only [List.length_cons, List.length_append]
    omega

theorem memberBlank {ws text : Bytes} {pair : Bytes × Bytes} (blank : Ws ws) (member : Member text pair) :
    Member (ws ++ text) pair := by
  obtain ⟨inner,keyText,valueText⟩ := member
  rw [← List.append_assoc ws, ← List.append_assoc ws]
  exact .mk ⟨wsAppend blank inner.1,inner.2⟩ keyText valueText

theorem membersBlank {ws text : Bytes} {pairs : List (Bytes × Bytes)} (blank : Ws ws) (members : Members text pairs) :
    Members (ws ++ text) pairs := by
  cases members with
  | last member => exact .last (memberBlank blank member)
  | more member others =>
    rw [← List.append_assoc]
    exact .more (memberBlank blank member) others

theorem membersQuoted {text : Bytes} {pairs : List (Bytes × Bytes)} (members : Members text pairs) :
    ∃ ws more, Ws ws ∧ text = ws ++ quote :: more ∧ Members (quote :: more) pairs := by
  have first {text : Bytes} {pair : Bytes × Bytes} (member : Member text pair) :
      ∃ ws more, Ws ws ∧ text = ws ++ quote :: more ∧ Member (quote :: more) pair := by
    obtain @⟨w₁,w₂,w₃,w₄,key,value,k,v,blank,keyText,valueText⟩ := member
    obtain ⟨items,rfl,decoded⟩ := keyText
    refine ⟨w₁,items.flatMap Item.source ++ [quote] ++ (w₂ ++ colon :: (w₃ ++ value ++ w₄)),blank.1,by simp,?_⟩
    have inner : Member ([] ++ (quote :: items.flatMap Item.source ++ [quote]) ++ (w₂ ++ colon :: (w₃ ++ value ++ w₄))) (k,v) :=
      .mk ⟨by simp [Ws],blank.2⟩ ⟨items,rfl,decoded⟩ valueText
    simpa using inner
  cases members with
  | last member =>
    obtain ⟨ws,more,blank,rfl,quoted⟩ := first member
    exact ⟨ws,more,blank,rfl,.last quoted⟩
  | @more text pair tail pairs member others =>
    obtain ⟨ws,more,blank,rfl,quoted⟩ := first member
    exact ⟨ws,more ++ comma :: tail,blank,by simp,.more quoted others⟩

theorem parseObject {w₁ body : Bytes} {pairs : List (Bytes × Bytes)} (blank : Ws w₁) (tail : Bytes)
    (object : (Ws body ∧ pairs = []) ∨ Members body pairs) :
    parse (w₁ ++ openBrace :: (body ++ closeBrace :: tail)) = (true,stored ∅ pairs,tail) := by
  rw [parse, eatAt (by decide) blank]
  rcases object with ⟨inner,rfl⟩ | members
  · have visible : skipWs (closeBrace :: tail) = closeBrace :: tail := rfl
    simp only [skipWsAt inner, visible, if_true]
    rfl
  · have short := membersLength members
    obtain ⟨ws,more,inner,rfl,quoted⟩ := membersQuoted members
    have visible : skipWs (quote :: (more ++ closeBrace :: tail)) = quote :: (more ++ closeBrace :: tail) := rfl
    rw [List.append_assoc, List.cons_append]
    simp only [skipWsAt inner, visible]
    rw [if_neg (by decide)]
    refine membersRead quoted ?_ ∅ tail
    simp only [List.length_append, List.length_cons] at short ⊢
    omega

theorem parseObjectSplit {input tail : Bytes} {kv : Values} (parsed : parse input = (true,kv,tail)) :
    ∃ w₁ body pairs, Ws w₁ ∧ input = w₁ ++ openBrace :: (body ++ closeBrace :: tail) ∧ kv = stored ∅ pairs ∧
      ((Ws body ∧ pairs = []) ∨ Members body pairs) := by
  rw [parse] at parsed
  cases opened : eat openBrace input with
  | none => simp [opened] at parsed
  | some body =>
    obtain ⟨w₁,blank,rfl⟩ := eatSplit opened
    obtain ⟨w₂,inner,split⟩ := skipWsSplit body
    simp only [opened] at parsed
    cases left : skipWs body with
    | nil =>
      simp only [left] at parsed
      obtain ⟨text,pairs,members,wrong,-⟩ := membersSplit parsed
      simp at wrong
    | cons c more =>
      simp only [left] at parsed
      rw [left] at split
      split at parsed
      · rename_i closes
        simp only [Prod.mk.injEq, true_and] at parsed
        obtain ⟨rfl,rfl⟩ := parsed
        exact ⟨w₁,w₂,[],blank,by rw [split, closes],rfl,.inl ⟨inner,rfl⟩⟩
      · obtain ⟨text,pairs,members,whole,rfl⟩ := membersSplit parsed
        exact ⟨w₁,w₂ ++ text,pairs,blank,by rw [split, whole, List.append_assoc],rfl,.inr (membersBlank inner members)⟩

theorem skipWsNil {rest : Bytes} : skipWs rest = [] ↔ Ws rest := by
  constructor
  · intro empty
    obtain ⟨ws,blank,split⟩ := skipWsSplit rest
    rw [split, empty, List.append_nil]
    exact blank
  · intro blank
    have skipped := skipWsAt blank []
    rwa [List.append_nil] at skipped

theorem objectParsed {input : Bytes} {pairs : List (Bytes × Bytes)} (object : FlatObject input pairs) :
    parseSessionJson input = (true,stored ∅ pairs) := by
  cases object with
  | empty blank =>
    rw [parseSessionJson, parseObject blank.1 _ (.inl ⟨blank.2.1,rfl⟩)]
    simp [skipWsNil.mpr blank.2.2]
  | members blank members =>
    rw [parseSessionJson, parseObject blank.1 _ (.inr members)]
    simp [skipWsNil.mpr blank.2]

theorem parsedObject {input : Bytes} (accepted : (parseSessionJson input).1 = true) : ∃ pairs, FlatObject input pairs := by
  rw [parseSessionJson] at accepted
  obtain ⟨ok,kv,tail,parsed⟩ : ∃ ok kv tail, parse input = (ok,kv,tail) := ⟨_,_,_,rfl⟩
  simp only [parsed, Bool.and_eq_true, List.isEmpty_iff] at accepted
  obtain ⟨rfl,ending⟩ := accepted
  have blank := skipWsNil.mp ending
  obtain ⟨w₁,body,pairs,before,rfl,-,⟨inner,rfl⟩ | members⟩ := parseObjectSplit parsed
  · exact ⟨[],.empty ⟨before,inner,blank⟩⟩
  · exact ⟨pairs,.members ⟨before,blank⟩ members⟩

/- The parser accepts the flat objects and only these, and the first value of a key is kept. -/
theorem acceptsFlatObjects (input : Bytes) :
    ((parseSessionJson input).1 = true ↔ ∃ pairs, FlatObject input pairs) ∧
      ∀ pairs, FlatObject input pairs → ∀ k, (parseSessionJson input).2[k]? = pairs.lookup k := by
  refine ⟨⟨parsedObject,?_⟩,fun pairs object k => ?_⟩
  · rintro ⟨pairs,object⟩
    rw [objectParsed object]
  · rw [objectParsed object]
    have first := foldedGet pairs ∅ k
    rwa [Std.ExtTreeMap.getElem?_empty, Option.none_or] at first

theorem pairStored : (parseSessionJson (bytes "\x7b\"k\": \"\\ud83d\\ude00\"\x7d")).2[bytes "k"]? =
    some [0xF0, 0x9F, 0x98, 0x80] := by
  have key : Literal (bytes "\"k\"") (bytes "k") := ⟨[.plain 107 (by decide)],by decide,by decide⟩
  have value : Literal (bytes "\"\\ud83d\\ude00\"") [0xF0, 0x9F, 0x98, 0x80] :=
    ⟨[.unit ⟨(100,56,51,100),(13,8,3,13),by decide⟩, .unit ⟨(100,101,48,48),(13,14,0,0),by decide⟩],
      by decide,by decide⟩
  have object : FlatObject (bytes "\x7b\"k\": \"\\ud83d\\ude00\"\x7d") [(bytes "k",[0xF0, 0x9F, 0x98, 0x80])] :=
    @FlatObject.members [] _ [] _ ⟨by simp [Ws],by simp [Ws]⟩
      (.last (@Member.mk [] [] [32] [] _ _ _ _ ⟨by simp [Ws],by simp [Ws],by simp [Ws],by simp [Ws]⟩ key value))
  exact ((acceptsFlatObjects _).2 _ object (bytes "k")).trans (by decide)

end Parsing

end Uco.FlatJson
