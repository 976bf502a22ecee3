import Uco.Bytes
import Std.Data.ExtTreeMap

/-! The flat JSON in which a session is stored: escaping and dumping, and the
recursive descent parser of objects of strings and of flash arrays. -/
namespace Uco.SessionJson

abbrev Values := Std.ExtTreeMap Bytes Bytes

def quote : UInt8 := 34
def backslash : UInt8 := 92
def comma : UInt8 := 44
def colon : UInt8 := 58
def openBrace : UInt8 := 123
def closeBrace : UInt8 := 125
def openBracket : UInt8 := 91
def closeBracket : UInt8 := 93
def letterU : UInt8 := 117

def shortEscapes : List (UInt8 × UInt8) :=
  [(34, 34), (92, 92), (8, 98), (12, 102), (10, 110), (13, 114), (9, 116)]

def jsonEscapeByte (ch : UInt8) : Bytes :=
  match shortEscapes.lookup ch with
  | some letter => [backslash, letter]
  | none =>
    if ch < 32 then backslash :: letterU :: 48 :: 48 :: hexOf [ch]
    else [ch]

def jsonEscape (s : Bytes) : Bytes := quote :: s.flatMap jsonEscapeByte ++ [quote]

def commaJoin : List Bytes → Bytes
  | [] => []
  | [item] => item
  | item :: rest => item ++ comma :: commaJoin rest

def dumpMember (member : Bytes × Bytes) : Bytes :=
  jsonEscape member.1 ++ colon :: jsonEscape member.2

def dumpSessionJson (kv : Values) : Bytes :=
  openBrace :: commaJoin (kv.toList.map dumpMember) ++ [closeBrace]

def dumpFlashArray (items : List Bytes) : Bytes :=
  openBracket :: commaJoin (items.map jsonEscape) ++ [closeBracket]

def isWs (c : UInt8) : Bool := c = 32 ∨ c = 9 ∨ c = 10 ∨ c = 13

def skipWs (rest : Bytes) : Bytes := rest.dropWhile isWs

def eat (c : UInt8) (rest : Bytes) : Option Bytes :=
  match skipWs rest with
  | d :: tail => if d = c then some tail else none
  | [] => none

def parseHex4 : Bytes → Option Nat
  | a :: b :: c :: d :: _ => do
    let a ← hexValue a
    let b ← hexValue b
    let c ← hexValue c
    let d ← hexValue d
    some (((a.toNat * 16 + b.toNat) * 16 + c.toNat) * 16 + d.toNat)
  | _ => none

def utf8Append (cp : Nat) : Bytes :=
  if cp ≤ 0x7F then [cp.toUInt8]
  else if cp ≤ 0x7FF then [(0xC0 + cp / 64).toUInt8, (0x80 + cp % 64).toUInt8]
  else if cp ≤ 0xFFFF then
    [(0xE0 + cp / 4096).toUInt8, (0x80 + cp / 64 % 64).toUInt8, (0x80 + cp % 64).toUInt8]
  else
    [(0xF0 + cp / 262144).toUInt8, (0x80 + cp / 4096 % 64).toUInt8,
      (0x80 + cp / 64 % 64).toUInt8, (0x80 + cp % 64).toUInt8]

def replacement : Nat := 0xFFFD

def simpleEscapes : List (UInt8 × UInt8) :=
  [(34, 34), (92, 92), (47, 47), (98, 8), (102, 12), (110, 10), (114, 13), (116, 9)]

/- What follows \u: the code point and how many bytes it took. A high surrogate
takes the low one after it, or stands for the replacement character. -/
def parseUnicode (rest : Bytes) : Option (Nat × Nat) := do
  let cp ← parseHex4 rest
  if 0xD800 ≤ cp ∧ cp ≤ 0xDBFF ∧ (rest.drop 4).take 2 = [backslash, letterU] then
    match parseHex4 (rest.drop 6) with
    | some lo =>
      if 0xDC00 ≤ lo ∧ lo ≤ 0xDFFF then
        some (0x10000 + (cp - 0xD800) * 1024 + (lo - 0xDC00), 10)
      else some (replacement, 4)
    | none => some (replacement, 4)
  else if 0xD800 ≤ cp ∧ cp ≤ 0xDFFF then some (replacement, 4)
  else some (cp, 4)

/- What follows a backslash: the bytes it stands for and how many were read. -/
def parseEscape : Bytes → Option (Bytes × Nat)
  | [] => none
  | e :: rest =>
    match simpleEscapes.lookup e with
    | some ch => some ([ch], 1)
    | none =>
      if e = letterU then do
        let (cp, read) ← parseUnicode rest
        some (utf8Append cp, read + 1)
      else none

/- The loop after the opening quote; `skip` bytes of an escape are already read. -/
def parseStringFrom (skip : Nat) (out : Bytes) : Bytes → Option (Bytes × Bytes)
  | [] => none
  | c :: rest =>
    if skip > 0 then parseStringFrom (skip - 1) out rest
    else if c = quote then some (out, rest)
    else if c < 32 then none
    else if c ≠ backslash then parseStringFrom 0 (out ++ [c]) rest
    else
      match parseEscape rest with
      | some (ch, read) => parseStringFrom read (out ++ ch) rest
      | none => none

def parseString (rest : Bytes) : Option (Bytes × Bytes) := do
  let body ← eat quote rest
  parseStringFrom 0 [] body

def parseMembers : Nat → Values → Bytes → Bool × Values × Bytes
  | 0, kv, rest => (false, kv, rest)
  | rounds + 1, kv, rest =>
    match parseString rest with
    | none => (false, kv, rest)
    | some (k, afterKey) =>
      match (eat colon afterKey).bind parseString with
      | none => (false, kv, rest)
      | some (v, afterValue) =>
        -- emplace keeps the first value of a repeated key
        let kv := kv.insertIfNew k v
        match eat comma afterValue with
        | some next => parseMembers rounds kv next
        | none =>
          match eat closeBrace afterValue with
          | some tail => (true, kv, tail)
          | none => (false, kv, afterValue)

def parse (s : Bytes) : Bool × Values × Bytes :=
  match eat openBrace s with
  | none => (false, ∅, s)
  | some body =>
    match skipWs body with
    | c :: tail => if c = closeBrace then (true, ∅, tail) else parseMembers s.length ∅ (c :: tail)
    | [] => parseMembers s.length ∅ []

def parseSessionJson (input : Bytes) : Bool × Values :=
  match parse input with
  | (ok, kv, tail) => (ok && (skipWs tail).isEmpty, kv)

def parseItems : Nat → List Bytes → Bytes → Bool × List Bytes × Bytes
  | 0, out, rest => (false, out, rest)
  | rounds + 1, out, rest =>
    match parseString rest with
    | none => (false, out, rest)
    | some (item, afterItem) =>
      let out := out ++ [item]
      match eat comma afterItem with
      | some next => parseItems rounds out next
      | none =>
        match eat closeBracket afterItem with
        | some tail => (true, out, tail)
        | none => (false, out, afterItem)

def parseFlashArray (input : Bytes) : Bool × List Bytes :=
  if input = [] then (false, [])
  else
    match eat openBracket input with
    | none => (false, [])
    | some body =>
      match eat closeBracket body with
      -- an empty array returns before the check for trailing bytes
      | some _ => (true, [])
      | none =>
        match parseItems input.length [] body with
        | (ok, out, tail) => (ok && (skipWs tail).isEmpty, out)

end Uco.SessionJson
