import Uco.Buffer
import Std.Data.ExtTreeMap

/-! The incremental HTTP/1 request parser: a line scanner that resumes behind the
bytes it has seen and blanks out line ends in place, the request line, the
headers, and the wait for the body. -/
namespace Uco.HttpRequest

abbrev HeaderMap := Std.ExtTreeMap Bytes Bytes

def carriageReturn : UInt8 := 13
def lineFeed : UInt8 := 10
def space : UInt8 := 32
def colon : UInt8 := 58
def dot : UInt8 := 46
def minus : UInt8 := 45
def plus : UInt8 := 43

inductive ParseState where
  | start | requestLine | header | body | finish
  deriving DecidableEq, Repr

inductive LineState where
  | ok | bad | lineOpen
  deriving DecidableEq, Repr

inductive HttpState where
  | incomplete | ok | bad
  deriving DecidableEq, Repr

structure RequestHead where
  method : Bytes
  path : Bytes
  protocol : Bytes
  contentType : Bytes
  mapHeader : HeaderMap
  versionMajor : Int
  versionMinor : Int
  contentLength : Int
  keepAlive : Bool

def RequestHead.fresh : RequestHead := ⟨[], [], [], [], ∅, 1, 1, 0, true⟩

/- The request object. `curLine` is the C string that m_sCurLine points to. -/
structure Request extends RequestHead where
  curLine : Bytes
  readOffset : Int
  state : ParseState
  buffer : Buffer

def Request.fresh : Request :=
  { RequestHead.fresh with
    curLine := []
    readOffset := -1
    state := .start
    buffer := Buffer.new 1024 }

section Numbers

def isDigit (c : UInt8) : Bool := 48 ≤ c ∧ c ≤ 57

def decimalValue (digits : Bytes) : Nat := digits.foldl (fun n c => n * 10 + (c.toNat - 48)) 0

def isSpace (c : UInt8) : Bool := c = 32 ∨ (9 ≤ c ∧ c ≤ 13)

/- std::atoi: strtol, which clamps to a long, then the cast to int. -/
def atoi (text : Bytes) : Int :=
  let text := text.dropWhile isSpace
  let negative := text.head? = some minus
  let digits := (if negative ∨ text.head? = some plus then text.drop 1 else text).takeWhile isDigit
  let value : Int := if negative then -decimalValue digits else decimalValue digits
  Int.bmod (max (-9223372036854775808) (min 9223372036854775807 value)) 4294967296

/- std::from_chars on an int: without digits or out of range the value stays. -/
def fromChars (old : Int) (text : Bytes) : Int :=
  let negative := text.head? = some minus
  let digits := (if negative then text.drop 1 else text).takeWhile isDigit
  let value : Int := if negative then -decimalValue digits else decimalValue digits
  if digits = [] ∨ value < -2147483648 ∨ 2147483647 < value then old else value

end Numbers

section Lines

def splitAtByte (c : UInt8) : Bytes → Option (Bytes × Bytes)
  | [] => none
  | d :: rest =>
    if d = c then some ([], rest)
    else (splitAtByte c rest).map fun (before, after) => (d :: before, after)

theorem splitNone {c : UInt8} {text : Bytes} : splitAtByte c text = none ↔ c ∉ text := by
  induction text with
  | nil => simp [splitAtByte]
  | cons d text ih =>
    by_cases here : d = c
    · simp [splitAtByte, here]
    · have other : ¬c = d := fun same => here same.symm
      simp [splitAtByte, here, ih, other]

theorem splitSome {c : UInt8} {before : Bytes} (clean : c ∉ before) (after : Bytes) :
    splitAtByte c (before ++ c :: after) = some (before,after) := by
  induction before with
  | nil => simp [splitAtByte]
  | cons d before ih =>
    rw [List.mem_cons, not_or] at clean
    simp [splitAtByte, Ne.symm clean.1, ih clean.2]

theorem splitParts {c : UInt8} {text before after : Bytes} (split : splitAtByte c text = some (before,after)) :
    text = before ++ c :: after ∧ c ∉ before := by
  induction text generalizing before with
  | nil => cases split
  | cons d text ih =>
    rw [splitAtByte] at split
    split at split
    · rename_i here
      cases split
      simp [here]
    · rename_i other
      obtain ⟨⟨front,back⟩,inside,same⟩ := Option.map_eq_some_iff.mp split
      cases same
      obtain ⟨rfl,clean⟩ := ih inside
      exact ⟨rfl,by simp [Ne.symm other, clean]⟩

theorem splitShorter {c : UInt8} {text before after : Bytes} (split : splitAtByte c text = some (before,after)) :
    after.length < text.length := by
  rw [(splitParts split).1, List.length_append, List.length_cons]
  omega

def parseHttpVersion (protocol : Bytes) (major minor : Int) : Int × Int :=
  match splitAtByte dot protocol with
  | none => (fromChars major protocol, minor)
  | some (before, after) => (fromChars major before, fromChars minor after)

def parseRequestLine (h : RequestHead) (line : Bytes) : Bool × RequestHead :=
  match splitAtByte space line with
  | none => (false, h)
  | some (method, rest) =>
    let h := { h with method := method }
    match splitAtByte space rest with
    | none => (false, h)
    | some (path, protocol) =>
      let h := { h with path := path }
      if protocol.take 5 ≠ bytes "HTTP/" then (false, h)
      else
        let version := parseHttpVersion (protocol.drop 5) h.versionMajor h.versionMinor
        (true, { h with
          protocol := protocol.drop 5
          versionMajor := version.1
          versionMinor := version.2
          keepAlive := if version = (1, 0) then false else h.keepAlive })

def trimRight (text : Bytes) : Bytes :=
  let kept := (text.reverse.dropWhile (· = space)).reverse
  if kept = [] then text else kept

def parseHeader (h : RequestHead) (line : Bytes) : Option RequestHead :=
  match splitAtByte colon line with
  | none => none
  | some (before, after) =>
    let key := trimRight before
    let val := trimRight (after.dropWhile (· = space))
    let h := if key = bytes "Connection" then { h with keepAlive := val = bytes "keep-alive" } else h
    let h := if key = bytes "Content-Length" then { h with contentLength := atoi val } else h
    let h := if key = bytes "Content-Type" then { h with contentType := val } else h
    some { h with mapHeader := h.mapHeader.insert key val }

end Lines

section Scan

inductive Scan where
  | found (crAt : Nat)
  | bad
  | lineOpen
  deriving DecidableEq, Repr

/- The scan for a line end; `text` are the unread bytes, `pos` the next to look at. -/
def scanFrom (text : Bytes) : Nat → Bytes → Scan
  | _, [] => .lineOpen
  | pos, c :: rest =>
    if c = carriageReturn then
      match rest with
      | [] => .lineOpen
      | d :: _ => if d = lineFeed then .found pos else .bad
    else if c = lineFeed then
      -- the carriage return was the last byte of an earlier read
      if pos > 0 ∧ text[pos - 1]? = some carriageReturn then .found (pos - 1) else .bad
    else scanFrom text (pos + 1) rest

def scanLine (r : Request) : Scan :=
  scanFrom r.buffer.unread r.readOffset.toNat (r.buffer.unread.drop r.readOffset.toNat)

def parseLine (r : Request) : LineState × Request :=
  match scanLine r with
  | .found crAt =>
    let buffer := (r.buffer.poke crAt 0).poke (crAt + 1) 0
    (.ok, { r with
      curLine := cString buffer.unread
      readOffset := 0
      buffer := buffer.retrieveUntil (buffer.readPosition + (crAt + 2)) })
  | .bad => (.bad, { r with readOffset := 0 })
  | .lineOpen => (.lineOpen, { r with readOffset := r.buffer.readableBytes })

end Scan

section Parse

def lineRead (r : Request) : Bool × Request :=
  match r.state with
  | .requestLine =>
    match parseRequestLine r.toRequestHead r.curLine with
    | (true, h) => (true, { r with toRequestHead := h, state := .header })
    | (false, h) => (false, { r with toRequestHead := h })
  | .header =>
    if r.curLine ≠ [] then
      match parseHeader r.toRequestHead r.curLine with
      | some h => (true, { r with toRequestHead := h })
      | none => (false, r)
    else (true, { r with state := .body })
  | _ => (true, r)

/- ParseBody; a negative length is out of reach once it is converted to size_t. -/
def parseBody (r : Request) : HttpState × Request :=
  if 0 ≤ r.contentLength ∧ r.contentLength ≤ r.buffer.readableBytes then
    (.ok, { r with state := .finish })
  else (.incomplete, r)

def lineFeeds (r : Request) : Nat := r.buffer.unread.count lineFeed

theorem scanFromFound (text : Bytes) (pos : Nat) (rest : Bytes) (same : rest = text.drop pos)
    {crAt : Nat} (found : scanFrom text pos rest = .found crAt) :
    text[crAt]? = some carriageReturn ∧ text[crAt + 1]? = some lineFeed := by
  induction rest generalizing pos with
  | nil => cases found
  | cons c rest ih =>
    have here : text[pos]? = some c := by
      have := congrArg List.head? same
      simpa [List.head?_drop] using this.symm
    have tail : rest = text.drop (pos + 1) := by
      have := congrArg List.tail same
      simpa [List.tail_drop] using this
    unfold scanFrom at found
    split at found
    · rename_i isCr
      split at found
      · cases found
      · rename_i d more
        have next : text[pos + 1]? = some d := by
          have := congrArg List.head? tail
          simpa [List.head?_drop] using this.symm
        split at found
        · rename_i isLf
          cases found
          exact ⟨by rw [here, isCr], by rw [next, isLf]⟩
        · cases found
    · split at found
      · rename_i isLf
        split at found
        · rename_i before
          cases found
          have whole : pos - 1 + 1 = pos := by omega
          exact ⟨before.2, by rw [whole, here, isLf]⟩
        · cases found
      · exact ih (pos + 1) tail found

theorem retrieveUntilCount (b : Buffer) (pos : Nat) (c : UInt8) :
    (b.retrieveUntil pos).unread.count c ≤ b.unread.count c := by
  unfold Buffer.retrieveUntil
  split
  · unfold Buffer.retrieve
    split
    · simp
    · simp only [Buffer.unread, ← List.drop_drop]
      exact (List.drop_sublist _ _).count_le c
  · exact Nat.le_refl _

theorem blankCount {text : Bytes} {crAt : Nat} (isCr : text[crAt]? = some carriageReturn)
    (isLf : text[crAt + 1]? = some lineFeed) :
    ((text.set crAt 0).set (crAt + 1) 0).count lineFeed < text.count lineFeed := by
  obtain ⟨inCr, atCr⟩ := List.getElem?_eq_some_iff.mp isCr
  obtain ⟨inLf, atLf⟩ := List.getElem?_eq_some_iff.mp isLf
  have present : 0 < text.count lineFeed :=
    List.count_pos_iff.mpr (atLf ▸ List.getElem_mem inLf)
  have bound : crAt + 1 < (text.set crAt 0).length := by simpa using inLf
  rw [List.count_set bound, List.count_set inCr]
  have other : (carriageReturn == lineFeed) = false := by decide
  have zero : ((0 : UInt8) == lineFeed) = false := by decide
  have kept : (text.set crAt 0)[crAt + 1] = lineFeed := by
    rw [List.getElem_set_ne (by omega), atLf]
  simp only [atCr, kept, other, zero, BEq.rfl, if_true, Bool.false_eq_true, if_false]
  omega

theorem parseLineShorter {r r' : Request} (read : parseLine r = (.ok, r')) : lineFeeds r' < lineFeeds r := by
  unfold parseLine at read
  split at read
  · rename_i crAt found
    obtain ⟨isCr, isLf⟩ := scanFromFound _ _ _ rfl found
    cases read
    refine Nat.lt_of_le_of_lt (retrieveUntilCount _ _ lineFeed) ?_
    rw [Buffer.pokeUnread, Buffer.pokeUnread]
    exact blankCount isCr isLf
  · cases read
  · cases read

theorem lineReadBuffer (r : Request) : (lineRead r).2.buffer = r.buffer := by
  unfold lineRead
  split
  · split <;> rfl
  · split
    · split <;> rfl
    · rfl
  · rfl

set_option linter.unusedVariables false in
def parseLoop (r : Request) : HttpState × Request :=
  if r.state = .body then parseBody r
  else
    match read : parseLine r with
    | (.lineOpen, r) => (.incomplete, r)
    | (.bad, r) => (.bad, r)
    | (.ok, line) =>
      match next : lineRead line with
      | (false, r) => (.bad, r)
      | (true, r) => parseLoop r
  termination_by lineFeeds r
  decreasing_by
    have same := lineReadBuffer line
    rw [next] at same
    simp only at same
    rw [lineFeeds, same]
    exact parseLineShorter read

def parse (r : Request) : HttpState × Request :=
  parseLoop (if r.state = .start then { r with state := .requestLine } else r)

def peekRawData (r : Request) : Bytes :=
  if r.state = .finish then (r.buffer.vecBuffer.drop r.buffer.readPosition).take r.contentLength.toNat
  else []

def receive (r : Request) (chunk : Bytes) : Request :=
  let buffer := r.buffer.compact
  let buffer := if r.state = .start then buffer else buffer.doubleSize
  { r with buffer := buffer.append chunk }

def serve (r : Request) : List Bytes → HttpState × Request × List Bytes
  | [] => (.incomplete, r, [])
  | chunk :: rest =>
    match parse (receive r chunk) with
    | (.incomplete, r) => serve r rest
    | (decided, r) => (decided, r, rest)

end Parse
end Uco.HttpRequest
