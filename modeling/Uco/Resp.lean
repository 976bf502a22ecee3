import Uco.Bytes
import Mathlib.Algebra.Group.Int.Defs
import Mathlib.Algebra.Group.Nat.Defs

/-! RESP2 on the wire of the Redis client: how a command is written and how the
recursive descent parser reads a reply out of the bytes received so far. -/
namespace Uco.Resp

def plus : UInt8 := 43
def minus : UInt8 := 45
def colon : UInt8 := 58
def dollar : UInt8 := 36
def star : UInt8 := 42
def crlf : Bytes := [13, 10]

def kServerError : Int := -300

inductive ReplyType where
  | nil | string | status | integer | array
  deriving DecidableEq, Repr

structure Reply where
  retCode : Int := 0
  errMsg : Bytes := []
  type : ReplyType := .nil
  integer : Int := 0
  str : Bytes := []
  elements : List Reply := []
  deriving Repr

def maxSize : Nat := 2 ^ 63 - 2

def decimalText (n : Nat) : Bytes := (Nat.toDigits 10 n).map (fun c => c.toNat.toUInt8)

def serializeArg (arg : Bytes) : Bytes := dollar :: decimalText arg.length ++ crlf ++ arg ++ crlf

def serialize (args : List Bytes) : Bytes :=
  star :: decimalText args.length ++ crlf ++ args.flatMap serializeArg

section Numbers

def fits64 (n : Int) : Prop := -(2 ^ 63) ≤ n ∧ n < 2 ^ 63
instance (n : Int) : Decidable (fits64 n) := inferInstanceAs (Decidable (_ ∧ _))

structure Word where
  value : Int
  overflow : Bool
  deriving DecidableEq, Repr

def Word.set (w : Word) (exact : Int) : Word :=
  ⟨Int.bmod exact (2 ^ 64), w.overflow || !decide (fits64 exact)⟩

def Word.push (w : Word) (c : UInt8) : Word :=
  let product := w.set (w.value * 10)
  product.set (product.value + (c.toNat - 48))

def isDigit (c : UInt8) : Bool := 48 ≤ c ∧ c ≤ 57

def parseDigits (w : Word) : Bytes → Option Word
  | [] => some w
  | c :: rest => if isDigit c then parseDigits (w.push c) rest else none

def parseInt : Bytes → Option Word
  | [] => none
  | c :: rest =>
    if c = minus then
      if rest = [] then none
      else (parseDigits ⟨0,false⟩ rest).map fun w => w.set (-w.value)
    else parseDigits ⟨0,false⟩ (c :: rest)

end Numbers

structure Cursor where
  pos : Nat
  overflow : Bool
  deriving DecidableEq, Repr

def Cursor.saw (cur : Cursor) (w : Word) : Cursor := ⟨cur.pos, cur.overflow || w.overflow⟩

@[simp] theorem sawPos (cur : Cursor) (w : Word) : (cur.saw w).pos = cur.pos := rfl

inductive Parsed (α : Type) where
  | ok (out : α) (cur : Cursor)
  | more
  | error
  deriving Repr

def Parsed.andThen {α β : Type} (parsed : Parsed α) (next : α → Cursor → Parsed β) : Parsed β :=
  match parsed with
  | .ok out cur => next out cur
  | .more => .more
  | .error => .error

def findCrlf : Bytes → Option Nat
  | [] => none
  | c :: rest => if crlf <+: c :: rest then some 0 else (findCrlf rest).map (· + 1)

def findLine (buf : Bytes) (cur : Cursor) : Parsed Bytes :=
  match findCrlf (buf.drop cur.pos) with
  | none => .more
  | some n => .ok ((buf.drop cur.pos).take n) { cur with pos := cur.pos + n + 2 }

def parseNumber (buf : Bytes) (cur : Cursor) : Parsed Int :=
  (findLine buf cur).andThen fun line cur =>
    match parseInt line with
    | none => .error
    | some w => .ok w.value (cur.saw w)

def parseBulk (buf : Bytes) (cur : Cursor) : Parsed Reply :=
  (parseNumber buf cur).andThen fun len cur =>
    if len < 0 then .ok { type := .nil } cur
    else
      let need := (Word.mk len false).set (len + 2)
      let cur := cur.saw need
      if Int.bmod (buf.length - cur.pos) (2 ^ 64) < need.value then .more
      else
        .ok { type := .string, str := (buf.drop cur.pos).take len.toNat }
          { cur with pos := (cur.pos + len.toNat + 2) % 2 ^ 64 }

/- The loop over the elements of an array; `one` is the recursive call. -/
def parseElements (one : Cursor → Parsed Reply) : Nat → Cursor → Parsed (List Reply)
  | 0, cur => .ok [] cur
  | count + 1, cur =>
    (one cur).andThen fun out cur =>
      (parseElements one count cur).andThen fun outs cur => .ok (out :: outs) cur

def parseArray (buf : Bytes) (one : Cursor → Parsed Reply) (cur : Cursor) : Parsed Reply :=
  (parseNumber buf cur).andThen fun count cur =>
    if count < 0 then .ok { type := .nil } cur
    else (parseElements one count.toNat cur).andThen fun outs cur =>
      .ok { type := .array, elements := outs } cur

def parseOne (buf : Bytes) : Nat → Cursor → Parsed Reply
  | 0, _ => .error
  | fuel + 1, cur =>
    match buf[cur.pos]? with
    | none => .more
    | some t =>
      let cur := { cur with pos := cur.pos + 1 }
      if t = colon then
        (parseNumber buf cur).andThen fun v cur => .ok { type := .integer, integer := v } cur
      else if t = plus then
        (findLine buf cur).andThen fun line cur => .ok { type := .status, str := line } cur
      else if t = minus then
        (findLine buf cur).andThen fun line cur =>
          .ok { retCode := kServerError, errMsg := line, type := .status, str := line } cur
      else if t = dollar then parseBulk buf cur
      else if t = star then parseArray buf (parseOne buf fuel) cur
      else .error

def parse (buf : Bytes) : Parsed Reply := parseOne buf (buf.length + 1) ⟨0,false⟩

example : parse (serialize [bytes "GET", bytes "k"] ++ bytes "+OK") =
    .ok { type := .array, elements := [{ type := .string, str := bytes "GET" },
      { type := .string, str := bytes "k" }] } ⟨20,false⟩ := by rfl

section Replies

def EPROTO : Int := 71
def ECONNRESET : Int := 104
def ETIME : Int := 62

inductive Attempt where
  | reply (out : Reply) (rbuf : Bytes)
  | failed (code : Int)
  | receive
  deriving Repr

def attempt (rbuf : Bytes) : Attempt :=
  match parse rbuf with
  | .ok out cur => .reply out (rbuf.drop cur.pos)
  | .error => .failed (-EPROTO)
  | .more => .receive

inductive Received where
  | late
  | failed (errno : Int)
  | data (chunk : Bytes)
  deriving DecidableEq, Repr

inductive ReadResult where
  | done (out : Reply) (rbuf : Bytes) (unread : List Received)
  | failed (code : Int) (rbuf : Bytes) (unread : List Received)
  | waiting (rbuf : Bytes)
  deriving Repr

def readLoop (rbuf : Bytes) : List Received → ReadResult
  | [] =>
    match attempt rbuf with
    | .reply out rest => .done out rest []
    | .failed code => .failed code rbuf []
    | .receive => .waiting rbuf
  | next :: later =>
    match attempt rbuf with
    | .reply out rest => .done out rest (next :: later)
    | .failed code => .failed code rbuf (next :: later)
    | .receive =>
      match next with
      | .late => .failed (-ETIME) rbuf later
      | .failed errno => .failed (-errno) rbuf later
      | .data chunk => if chunk = [] then .failed (-ECONNRESET) rbuf later else readLoop (rbuf ++ chunk) later

def readReply (coming : List Received) : ReadResult := readLoop [] coming

end Replies

end Uco.Resp
