import Uco.HttpRequest

/-! How the parser takes a request that arrives in chunks. A line whose end is
the last byte received stays in the buffer, blanked out, and the parser reads its
text again in place of the line after it. -/
namespace Uco.Fragmentation
open HttpRequest

def crlf : Bytes := [carriageReturn, lineFeed]

def Plain (text : Bytes) : Prop := carriageReturn ∉ text ∧ lineFeed ∉ text

instance (text : Bytes) : Decidable (Plain text) := inferInstanceAs (Decidable (_ ∧ _))

section Scan

theorem plainAppend {a b : Bytes} : Plain (a ++ b) ↔ Plain a ∧ Plain b := by
  simp only [Plain, List.mem_append, not_or]
  tauto

theorem plainDrop {a : Bytes} (plain : Plain a) (n : Nat) : Plain (a.drop n) :=
  ⟨fun h => plain.1 (List.mem_of_mem_drop h), fun h => plain.2 (List.mem_of_mem_drop h)⟩

theorem scanSkips (text : Bytes) (pos : Nat) {run : Bytes} (plain : Plain run) (rest : Bytes) :
    scanFrom text pos (run ++ rest) = scanFrom text (pos + run.length) rest := by
  induction run generalizing pos with
  | nil => rfl
  | cons c run ih =>
    have notCr : c ≠ carriageReturn := fun h => plain.1 (by simp [h])
    have notLf : c ≠ lineFeed := fun h => plain.2 (by simp [h])
    have next : Plain run := plainDrop plain 1
    rw [List.cons_append, scanFrom.eq_def]
    simp only [notCr, notLf, if_false]
    rw [ih (pos + 1) next, List.length_cons, Nat.add_assoc, Nat.add_comm 1]

theorem scanFinds {pre tail : Bytes} (plain : Plain pre) {start : Nat} (near : start ≤ pre.length + 1) :
    scanFrom (pre ++ crlf ++ tail) start ((pre ++ crlf ++ tail).drop start) = .found pre.length := by
  by_cases inside : start ≤ pre.length
  · rw [List.append_assoc, List.drop_append_of_le_length inside, scanSkips _ _ (plainDrop plain start)]
    have there : start + (pre.drop start).length = pre.length := by
      rw [List.length_drop]; omega
    rw [there]
    simp [crlf, scanFrom]
  · have behind : start = pre.length + 1 := by omega
    have text : pre ++ crlf ++ tail = (pre ++ [carriageReturn]) ++ lineFeed :: tail := by
      simp [crlf]
    have before : (pre ++ (crlf ++ tail))[pre.length]? = some carriageReturn := by
      simp [crlf]
    rw [behind]
    conv_lhs => rw [text, List.drop_left' (by simp), ← text]
    have other : lineFeed ≠ carriageReturn := by decide
    rw [scanFrom.eq_def]
    simp [other, before]

theorem scanStaysOpen {pre part : Bytes} (plain : Plain pre) (short : part = [] ∨ part = [carriageReturn])
    {start : Nat} (near : start ≤ (pre ++ part).length) :
    scanFrom (pre ++ part) start ((pre ++ part).drop start) = .lineOpen := by
  by_cases inside : start ≤ pre.length
  · rw [List.drop_append_of_le_length inside, scanSkips _ _ (plainDrop plain start)]
    rcases short with rfl | rfl <;> simp [scanFrom]
  · have all : (pre ++ part).drop start = [] := by
      refine List.drop_eq_nil_of_le ?_
      rcases short with rfl | rfl <;> simp at near ⊢ <;> omega
    rw [all]
    rfl

end Scan

section Line

/- The request is in the middle of a line `text`, of which `rest` has arrived, with
`stale` bytes of lines already read before it in the buffer. -/
structure InLine (r : Request) (stale rest text : Bytes) : Prop where
  valid : Buffer.Valid r.buffer
  unread : r.buffer.unread = stale ++ rest
  near : r.readOffset.toNat ≤ (stale ++ text).length + 1

/- What reading the line `stale ++ text` leaves, `tail` being what follows it. -/
structure LineDone (r r' : Request) (stale text tail : Bytes) : Prop where
  head : r'.toRequestHead = r.toRequestHead
  state : r'.state = r.state
  curLine : r'.curLine = cString (stale ++ text ++ [0])
  offset : r'.readOffset = 0
  valid : Buffer.Valid r'.buffer
  unread : r'.buffer.unread = if tail = [] then stale ++ text ++ [0, 0] else tail

theorem cStringStop (text rest : Bytes) : cString (text ++ 0 :: rest) = cString (text ++ [0]) := by
  induction text with
  | nil => simp [cString]
  | cons c text ih =>
    by_cases zero : c = 0
    · simp [cString, zero]
    · simpa [cString, zero] using ih

theorem blankLine (pre tail : Bytes) :
    ((pre ++ crlf ++ tail).set pre.length 0).set (pre.length + 1) 0 = pre ++ 0 :: 0 :: tail := by
  induction pre with
  | nil => rfl
  | cons c pre ih => simpa using ih

theorem parseLineDone {r : Request} {stale text tail : Bytes} (plain : Plain (stale ++ text))
    (line : InLine r stale (text ++ crlf ++ tail) text) :
    ∃ r', parseLine r = (.ok, r') ∧ LineDone r r' stale text tail := by
  obtain ⟨valid, unread, near⟩ := line
  have whole : r.buffer.unread = stale ++ text ++ crlf ++ tail := by simpa using unread
  have scan : scanLine r = .found (stale ++ text).length := by
    rw [scanLine, whole]
    exact scanFinds plain near
  have blanked : ((r.buffer.poke (stale ++ text).length 0).poke ((stale ++ text).length + 1) 0).unread
      = stale ++ text ++ 0 :: 0 :: tail := by
    rw [Buffer.pokeUnread, Buffer.pokeUnread, whole, blankLine]
  have pokes := Buffer.pokeValid (Buffer.pokeValid valid (stale ++ text).length 0)
    ((stale ++ text).length + 1) 0
  have parsed : (parseLine r).1 = .ok := by rw [parseLine, scan]
  refine ⟨(parseLine r).2, Prod.ext parsed rfl, ?_⟩
  rw [parseLine, scan]
  refine ⟨rfl, rfl, ?_, rfl, Buffer.retrieveUntilValid pokes _, ?_⟩
  · simp only [blanked]
    exact cStringStop _ _
  · simp only
    rw [Buffer.retrieveUntilUnread pokes, blanked]
    by_cases last : tail = []
    · rw [if_neg (by simp only [last, List.length_append, List.length_cons, List.length_nil]; omega)]
      simp [last]
    · have more := List.length_pos_iff.mpr last
      rw [if_pos (by simp only [List.length_append, List.length_cons]; omega), if_neg last]
      have split : stale ++ text ++ 0 :: 0 :: tail = (stale ++ text ++ [0, 0]) ++ tail := by simp
      rw [split, List.drop_left' (by simp [Nat.add_assoc])]

theorem parseLineWaits {r : Request} {stale text part : Bytes} (plain : Plain (stale ++ text))
    (short : part = [] ∨ part = [carriageReturn]) {full : Bytes} (line : InLine r stale (text ++ part) full)
    (near : r.readOffset.toNat ≤ (stale ++ text ++ part).length) :
    parseLine r = (.lineOpen, { r with readOffset := (stale ++ text ++ part).length }) := by
  have whole : r.buffer.unread = stale ++ text ++ part := by simpa using line.unread
  have scan : scanLine r = .lineOpen := by
    rw [scanLine, whole]
    exact scanStaysOpen plain short near
  have size := Buffer.unreadLength line.valid.placed
  rw [whole] at size
  rw [parseLine, scan]
  simp only
  rw [← size]

end Line

section Feed

def resume (r : Request) (chunks : List Bytes) : HttpState × Request × List Bytes :=
  match parseLoop r with
  | (.incomplete, r) => serve r chunks
  | (decided, r) => (decided, r, chunks)

def afterLine (r : Request) (chunks : List Bytes) : HttpState × Request × List Bytes :=
  match lineRead r with
  | (false, r) => (.bad, r, chunks)
  | (true, r) => resume r chunks

theorem serveNext {r : Request} (begun : r.state ≠ .start) (chunk : Bytes) (chunks : List Bytes) :
    serve r (chunk :: chunks) = resume (receive r chunk) chunks := by
  have state : (receive r chunk).state ≠ .start := begun
  rcases decided : parseLoop (receive r chunk) with ⟨outcome, r'⟩
  cases outcome <;> simp only [serve, parse, if_neg state, resume, decided]

theorem parseLoopLine {r r' : Request} (head : r.state ≠ .body) (read : parseLine r = (.ok, r')) :
    parseLoop r = if (lineRead r').1 then parseLoop (lineRead r').2 else (.bad, (lineRead r').2) := by
  rw [parseLoop, if_neg head]
  split <;> rename_i parsed <;> rw [read] at parsed <;> cases parsed
  split <;> rename_i next <;> simp [next]

theorem parseLoopOpen {r r' : Request} (head : r.state ≠ .body) (waits : parseLine r = (.lineOpen, r')) :
    parseLoop r = (.incomplete, r') := by
  rw [parseLoop, if_neg head]
  split <;> rename_i parsed <;> rw [waits] at parsed <;> cases parsed
  rfl

theorem parseLoopBad {r r' : Request} (head : r.state ≠ .body) (refuses : parseLine r = (.bad, r')) :
    parseLoop r = (.bad, r') := by
  rw [parseLoop, if_neg head]
  split <;> rename_i parsed <;> rw [refuses] at parsed <;> cases parsed
  rfl

theorem resumeLine {r r' : Request} (head : r.state ≠ .body) (read : parseLine r = (.ok, r'))
    (chunks : List Bytes) : resume r chunks = afterLine r' chunks := by
  rw [resume, parseLoopLine head read, afterLine]
  rcases same : lineRead r' with ⟨accepted, s⟩
  cases accepted <;> rfl

theorem resumeOpen {r r' : Request} (head : r.state ≠ .body) (waits : parseLine r = (.lineOpen, r'))
    (chunks : List Bytes) : resume r chunks = serve r' chunks := by
  rw [resume, parseLoopOpen head waits]

theorem receiveAppends {r : Request} (valid : Buffer.Valid r.buffer) (chunk : Bytes)
    (fits : r.buffer.unread.length + chunk.length ≤ int32Max) :
    Buffer.Valid (receive r chunk).buffer ∧
    (receive r chunk).buffer.unread = r.buffer.unread ++ chunk := by
  have compacted := Buffer.compactValid valid
  have room {b : Buffer} (ok : Buffer.Valid b) (first : b.readPosition = 0)
      (same : b.unread = r.buffer.unread) :
      Buffer.Valid (b.append chunk) ∧ (b.append chunk).unread = r.buffer.unread ++ chunk := by
    have size := Buffer.unreadLength ok.placed
    rw [same, Buffer.readableBytes, first] at size
    exact ⟨Buffer.appendValid ok (by omega), by rw [Buffer.appendUnread ok.placed (fun _ => by omega), same]⟩
  unfold receive
  by_cases start : r.state = .start
  · simp only [start, if_true]
    exact room compacted (Buffer.compactRead _) (Buffer.compactUnread valid.placed)
  · simp only [start, if_false]
    exact room (Buffer.doubleSizeValid compacted) (Buffer.doubleSizeRead _)
      ((Buffer.doubleSizeUnread compacted).trans (Buffer.compactUnread valid.placed))

end Feed

section Step

def marks : List Bytes → List Nat
  | [] => [0]
  | chunk :: rest => (chunk :: rest).flatten.length :: marks rest

theorem marksBelow {chunks : List Bytes} {n : Nat} (mark : n ∈ marks chunks) : n ≤ chunks.flatten.length := by
  induction chunks with
  | nil => simp_all [marks]
  | cons chunk rest ih =>
    rcases List.mem_cons.mp mark with here | later
    · exact Nat.le_of_eq here
    · have below := ih later
      simp only [List.flatten_cons, List.length_append]
      omega

theorem marksHere (chunks : List Bytes) : chunks.flatten.length ∈ marks chunks := by
  cases chunks <;> simp [marks]

/- A parser between two lines, or in one: `stale` is what it has not let go of and `got`
what else it has of the rest of the stream, which goes on in `chunks`. -/
structure Reading (r : Request) (stale got : Bytes) (chunks : List Bytes) : Prop where
  begun : r.state ≠ .start
  head : r.state ≠ .body
  valid : Buffer.Valid r.buffer
  unread : r.buffer.unread = stale ++ got
  some : [] ∉ chunks
  fits : (stale ++ got ++ chunks.flatten).length ≤ int32Max

/- What reading one line leads to: `got` and `chunks` are what follows it. -/
structure LineTaken (r r' : Request) (stale text got tail : Bytes) (before chunks : List Bytes) : Prop where
  done : LineDone r r' stale text got
  stream : got ++ chunks.flatten = tail
  some : [] ∉ chunks
  marks : ∀ n ≤ tail.length, n ∈ marks before ↔ n ∈ marks chunks

theorem partOfLine {got text rest tail : Bytes} (stream : got ++ rest = text ++ crlf ++ tail)
    (short : got.length < text.length + 2) :
    ∃ known part, got = known ++ part ∧ (part = [] ∨ part = [carriageReturn]) ∧ known <+: text := by
  have cut : got = (text ++ crlf ++ tail).take got.length := by
    rw [← stream, List.take_left]
  by_cases inside : got.length ≤ text.length
  · refine ⟨got, [], by simp, .inl rfl, ?_⟩
    rw [List.append_assoc, List.take_append_of_le_length inside] at cut
    rw [cut]
    exact List.take_prefix _ text
  · have size : got.length = text.length + 1 := by omega
    refine ⟨text, [carriageReturn], ?_, .inr rfl, List.prefix_refl text⟩
    have whole : text ++ crlf ++ tail = (text ++ [carriageReturn]) ++ lineFeed :: tail := by simp [crlf]
    rw [cut, whole, List.take_left' (by simp [size])]

theorem wholeLine {got text rest tail : Bytes} (stream : got ++ rest = text ++ crlf ++ tail)
    (long : text.length + 2 ≤ got.length) : ∃ more, got = text ++ crlf ++ more ∧ more ++ rest = tail := by
  have size : (text ++ crlf).length = text.length + 2 := by simp [crlf]
  have front : text ++ crlf <+: got := by
    refine List.prefix_of_prefix_length_le ?_ (List.prefix_append got rest) (by omega)
    rw [stream]
    exact List.prefix_append _ tail
  obtain ⟨more, rfl⟩ := front
  refine ⟨more, rfl, ?_⟩
  rw [List.append_assoc] at stream
  exact List.append_cancel_left stream

def waiting (r : Request) (offset : Nat) : Request := { r with readOffset := offset }

theorem readingReceives {r : Request} {stale got chunk : Bytes} {rest : List Bytes}
    (reading : Reading r stale got (chunk :: rest)) (offset : Nat) :
    Reading (receive (waiting r offset) chunk) stale (got ++ chunk) rest := by
  have fits := reading.fits
  simp only [List.flatten_cons, List.length_append] at fits
  obtain ⟨valid, unread⟩ := receiveAppends (r := waiting r offset) reading.valid chunk (by
    change r.buffer.unread.length + chunk.length ≤ int32Max
    rw [reading.unread, List.length_append]
    omega)
  refine ⟨reading.begun, reading.head, valid, ?_, fun inside => reading.some (List.mem_cons_of_mem _ inside), ?_⟩
  · rw [unread]
    change r.buffer.unread ++ chunk = _
    rw [reading.unread, List.append_assoc]
  · simp only [List.length_append]
    omega

theorem takesLine {r : Request} {stale got text tail : Bytes} {chunks : List Bytes}
    (reading : Reading r stale got chunks) (plain : Plain (stale ++ text))
    (near : r.readOffset.toNat ≤ (stale ++ text).length + 1)
    (behind : r.readOffset.toNat ≤ (stale ++ got).length)
    (stream : got ++ chunks.flatten = text ++ crlf ++ tail) :
    ∃ r' got' chunks', resume r chunks = afterLine r' chunks' ∧
      LineTaken r r' stale text got' tail chunks chunks' := by
  induction chunks generalizing r got with
  | nil =>
    have long : text.length + 2 ≤ got.length := by
      have size := congrArg List.length stream
      simp [crlf] at size
      omega
    obtain ⟨more, rfl, rest⟩ := wholeLine stream long
    obtain ⟨r', read, done⟩ := parseLineDone plain ⟨reading.valid, by simpa using reading.unread, near⟩
    exact ⟨r', more, [], resumeLine reading.head read [], done, rest, reading.some, fun _ _ => Iff.rfl⟩
  | cons chunk rest ih =>
    by_cases long : text.length + 2 ≤ got.length
    · obtain ⟨more, rfl, after⟩ := wholeLine stream long
      obtain ⟨r', read, done⟩ := parseLineDone plain ⟨reading.valid, by simpa using reading.unread, near⟩
      exact ⟨r', more, chunk :: rest, resumeLine reading.head read _, done, after, reading.some,
        fun _ _ => Iff.rfl⟩
    · obtain ⟨known, part, rfl, short, front⟩ := partOfLine stream (Nat.lt_of_not_le long)
      obtain ⟨unknown, rfl⟩ := front
      have plainKnown : Plain (stale ++ known) := by
        rw [← List.append_assoc] at plain
        exact (plainAppend.mp plain).1
      have line : InLine r stale (known ++ part) (known ++ unknown) :=
        ⟨reading.valid, by simpa using reading.unread, near⟩
      have waits := parseLineWaits plainKnown short line (by simpa using behind)
      have next := readingReceives reading (stale ++ known ++ part).length
      have close : part.length ≤ 1 := by rcases short with rfl | rfl <;> simp
      obtain ⟨r', got', chunks', resumes, taken⟩ := ih next (by
        simp only [receive, waiting, List.length_append, Int.toNat_natCast]
        omega) (by
        simp only [receive, waiting, List.length_append, Int.toNat_natCast]
        omega) (by simpa using stream)
      refine ⟨r', got', chunks', ?_, ⟨⟨taken.done.head, taken.done.state, taken.done.curLine, taken.done.offset,
        taken.done.valid, taken.done.unread⟩, taken.stream, taken.some, fun n small => ?_⟩⟩
      · rw [resumeOpen reading.head waits]
        exact (serveNext (r := waiting r (stale ++ known ++ part).length) reading.begun chunk rest).trans resumes
      · have size := congrArg List.length stream
        simp only [List.length_append, crlf, List.length_cons, List.length_nil] at size long
        have later : n ≠ (chunk :: rest).flatten.length := by omega
        simp only [marks, List.mem_cons, later, false_or]
        exact taken.marks n small

end Step

section Head

def readHead (h : RequestHead) : List Bytes → Option RequestHead
  | [] => none
  | line :: rest =>
    if line = [] then (if rest = [] then some h else none)
    else (parseHeader h line).bind (readHead · rest)

def headOf : List Bytes → Option RequestHead
  | [] => none
  | line :: rest =>
    match parseRequestLine .fresh line with
    | (true, h) => readHead h rest
    | (false, _) => none

def wire (lines : List Bytes) : Bytes := lines.flatMap (· ++ crlf)

def lineText (line : Bytes) : Bytes := cString (line ++ [0])

theorem lineTextClean (line : Bytes) : (0 : UInt8) ∉ lineText line := by
  unfold lineText
  induction line with
  | nil => simp [cString]
  | cons c line ih =>
    by_cases zero : c = 0
    · simp [cString, zero]
    · have other : ¬ 0 = c := fun h => zero h.symm
      simpa [cString, zero, other] using ih

theorem lineTextEnd (line : Bytes) : ∃ junk, line ++ [0, 0] = lineText line ++ 0 :: junk := by
  unfold lineText
  induction line with
  | nil => exact ⟨[0], by simp [cString]⟩
  | cons c line ih =>
    by_cases zero : c = 0
    · exact ⟨line ++ [0, 0], by simp [cString, zero]⟩
    · obtain ⟨junk, ends⟩ := ih
      exact ⟨junk, by simpa [cString, zero] using ends⟩

/- The texts the parser takes the lines for. Where a boundary falls behind a line, its
text stands for the next one too; `left` bytes follow the lines. -/
def linesRead (cuts : List Nat) (left : Nat) (stale : Option Bytes) : List Bytes → List Bytes
  | [] => []
  | line :: rest =>
    let text := stale.getD (lineText line)
    text :: linesRead cuts left (if (wire rest).length + left ∈ cuts then some text else none) rest

def Holds (stale : Option Bytes) (held : Bytes) : Prop :=
  match stale with
  | none => held = []
  | some text => text ≠ [] ∧ (0 : UInt8) ∉ text ∧ ∃ junk, held = text ++ 0 :: junk

theorem heldText {stale : Option Bytes} {held : Bytes} (holds : Holds stale held) (line : Bytes) :
    cString (held ++ line ++ [0]) = stale.getD (lineText line) := by
  cases stale with
  | none =>
    obtain rfl : held = [] := holds
    rfl
  | some first =>
    obtain ⟨_, clean, junk, rfl⟩ := holds
    have front := cStringPrefix clean (0 :: junk ++ line ++ [0])
    simpa [cString] using front

theorem holdsNext {stale : Option Bytes} {held line : Bytes} (holds : Holds stale held)
    (full : stale.getD (lineText line) ≠ []) :
    Holds (some (stale.getD (lineText line))) (held ++ line ++ [0, 0]) := by
  cases stale with
  | none =>
    obtain rfl : held = [] := holds
    exact ⟨full, lineTextClean line, lineTextEnd line⟩
  | some first =>
    obtain ⟨_, clean, junk, rfl⟩ := holds
    exact ⟨full, clean, junk ++ line ++ [0, 0], by simp⟩

structure Derived (first h : RequestHead) : Prop where
  method : h.method = first.method
  path : h.path = first.path
  keepAlive : h.keepAlive = ((h.mapHeader[bytes "Connection"]?).map
    (fun val => decide (val = bytes "keep-alive"))).getD first.keepAlive
  contentLength : h.contentLength = ((h.mapHeader[bytes "Content-Length"]?).map atoi).getD 0

theorem derivedHeader {first h h' : RequestHead} {line : Bytes} (derived : Derived first h)
    (parsed : parseHeader h line = some h') : Derived first h' := by
  unfold parseHeader at parsed
  split at parsed
  · cases parsed
  · rename_i before after split
    generalize trimRight before = key at parsed
    generalize trimRight (after.dropWhile (· = space)) = val at parsed
    cases parsed
    refine ⟨?_, ?_, ?_, ?_⟩
    · simp only [apply_ite RequestHead.method, ite_self, derived.method]
    · simp only [apply_ite RequestHead.path, ite_self, derived.path]
    · simp only [apply_ite RequestHead.keepAlive, apply_ite RequestHead.mapHeader, ite_self,
        Std.ExtTreeMap.getElem?_insert, Std.LawfulEqCmp.compare_eq_iff_eq]
      split
      · rfl
      · exact derived.keepAlive
    · simp only [apply_ite RequestHead.contentLength, apply_ite RequestHead.mapHeader, ite_self,
        Std.ExtTreeMap.getElem?_insert, Std.LawfulEqCmp.compare_eq_iff_eq]
      split
      · rfl
      · exact derived.contentLength

theorem derivedRead {first h h' : RequestHead} {lines : List Bytes} (derived : Derived first h)
    (read : readHead h lines = some h') : Derived first h' := by
  induction lines generalizing h with
  | nil => cases read
  | cons line rest ih =>
    unfold readHead at read
    split at read
    · split at read
      · cases read
        exact derived
      · cases read
    · obtain ⟨next, parsed, after⟩ := Option.bind_eq_some_iff.mp read
      exact ih (derivedHeader derived parsed) after

theorem derivedFirst {line : Bytes} {h : RequestHead} (parsed : parseRequestLine .fresh line = (true, h)) :
    Derived h h := by
  have kept : h.mapHeader = ∅ ∧ h.contentLength = 0 := by
    unfold parseRequestLine at parsed
    split at parsed
    · cases parsed
    · simp only at parsed
      split at parsed
      · cases parsed
      · split at parsed
        · cases parsed
        · cases parsed
          exact ⟨rfl, rfl⟩
  refine ⟨rfl, rfl, ?_, ?_⟩
  · simp [kept.1]
  · simp [kept.1, kept.2]

end Head

section Body

structure CompleteRequest where
  requestLine : Bytes
  headers : List Bytes
  body : Bytes
  head : RequestHead
  plain : ∀ line ∈ requestLine :: headers, Plain line
  full : ∀ line ∈ headers, lineText line ≠ []
  reads : headOf ((requestLine :: headers ++ [[]]).map lineText) = some head
  length : head.contentLength = body.length
  fits : (wire (requestLine :: headers ++ [[]]) ++ body).length ≤ int32Max

def CompleteRequest.raw (q : CompleteRequest) : Bytes := wire (q.requestLine :: q.headers ++ [[]]) ++ q.body

structure Accepted (q : CompleteRequest) (result : HttpState × Request × List Bytes) : Prop where
  state : result.1 = .ok
  arrived : result.2.2 = []
  method : result.2.1.method = q.head.method
  path : result.2.1.path = q.head.path
  mapHeader : result.2.1.mapHeader = q.head.mapHeader
  keepAlive : result.2.1.keepAlive = q.head.keepAlive
  body : peekRawData result.2.1 = q.body

/- The request is answered for what it is when `extra` follows it on the connection: all of
it has come, and what came of `extra` is still there, behind the body. -/
structure Taken (q : CompleteRequest) (extra : Bytes) (result : HttpState × Request × List Bytes) : Prop where
  state : result.1 = .ok
  method : result.2.1.method = q.head.method
  path : result.2.1.path = q.head.path
  mapHeader : result.2.1.mapHeader = q.head.mapHeader
  keepAlive : result.2.1.keepAlive = q.head.keepAlive
  body : peekRawData result.2.1 = q.body
  beyond : ∃ came, came ++ result.2.2.flatten = extra ∧
    came <:+ result.2.1.buffer.unread.drop result.2.1.contentLength.toNat

theorem serveLater (r : Request) (chunks : List Bytes) : (serve r chunks).2.2 <:+ chunks := by
  induction chunks generalizing r with
  | nil => exact List.suffix_refl []
  | cons chunk rest ih =>
    rw [serve]
    split
    · exact (ih _).trans (List.suffix_cons chunk rest)
    · exact List.suffix_cons chunk rest

theorem takenAccepted {q : CompleteRequest} {r : Request} {chunks : List Bytes} (visible : [] ∉ chunks) :
    Taken q [] (serve r chunks) ↔ Accepted q (serve r chunks) := by
  constructor
  · intro taken
    obtain ⟨came, all, -⟩ := taken.beyond
    have none : ∀ chunk ∈ (serve r chunks).2.2, chunk = [] := List.flatten_eq_nil_iff.mp (List.append_eq_nil_iff.mp all).2
    have arrived : (serve r chunks).2.2 = [] := by
      refine List.eq_nil_iff_forall_not_mem.mpr fun chunk inside => ?_
      obtain rfl := none chunk inside
      exact visible ((serveLater r chunks).mem inside)
    exact ⟨taken.state, arrived, taken.method, taken.path, taken.mapHeader, taken.keepAlive, taken.body⟩
  · intro accepted
    refine ⟨accepted.state, accepted.method, accepted.path, accepted.mapHeader, accepted.keepAlive, accepted.body,
      [], ?_, List.nil_suffix⟩
    simp [accepted.arrived]

variable {q : CompleteRequest} {extra : Bytes}

theorem parseLoopBody {r : Request} (body : r.state = .body) : parseLoop r = parseBody r := by
  rw [parseLoop, if_pos body]

theorem peekUnread {r : Request} (finished : r.state = .finish)
    (enough : r.contentLength ≤ r.buffer.readableBytes) :
    peekRawData r = r.buffer.unread.take r.contentLength.toNat := by
  rw [peekRawData, if_pos finished, Buffer.unread, Buffer.readableBytes] at *
  rw [List.drop_take, List.take_take, Nat.min_eq_left (by omega)]

/- The head is read as it was sent, and `held` bytes that are not the body's lie before
what has come of it. -/
structure InBody (q : CompleteRequest) (extra : Bytes) (r : Request) (held got : Bytes) (chunks : List Bytes) : Prop where
  state : r.state = .body
  valid : Buffer.Valid r.buffer
  unread : r.buffer.unread = held ++ got
  stream : got ++ chunks.flatten = q.body ++ extra
  some : [] ∉ chunks
  fits : (held ++ got ++ chunks.flatten).length ≤ int32Max
  method : r.method = q.head.method
  path : r.path = q.head.path
  mapHeader : r.mapHeader = q.head.mapHeader
  keepAlive : r.keepAlive = q.head.keepAlive
  length : r.contentLength = q.body.length

theorem bodySize {r : Request} {held got : Bytes} {chunks : List Bytes} (inBody : InBody q extra r held got chunks) :
    r.buffer.readableBytes = held.length + got.length ∧
    got.length + chunks.flatten.length = q.body.length + extra.length := by
  have size := Buffer.unreadLength inBody.valid.placed
  have total := congrArg List.length inBody.stream
  rw [inBody.unread] at size
  simp only [List.length_append] at size total
  exact ⟨size.symm, total⟩

theorem bodyReceives {r : Request} {held got chunk : Bytes} {rest : List Bytes}
    (inBody : InBody q extra r held got (chunk :: rest)) : InBody q extra (receive r chunk) held (got ++ chunk) rest := by
  have fits := inBody.fits
  simp only [List.flatten_cons, List.length_append] at fits
  obtain ⟨valid, unread⟩ := receiveAppends inBody.valid chunk (by
    rw [inBody.unread, List.length_append]
    omega)
  refine ⟨inBody.state, valid, ?_, ?_, fun inside => inBody.some (List.mem_cons_of_mem _ inside), ?_,
    inBody.method, inBody.path, inBody.mapHeader, inBody.keepAlive, inBody.length⟩
  · rw [unread, inBody.unread, List.append_assoc]
  · rw [← inBody.stream]
    simp
  · simp only [List.length_append]
    omega

theorem bodyEnough {r : Request} {held got : Bytes} {chunks : List Bytes} (inBody : InBody q extra r held got chunks)
    (enough : q.body.length ≤ held.length + got.length) :
    Taken q extra (resume r chunks) ↔
      chunks.flatten.length ≤ extra.length ∧ (held ++ q.body).take q.body.length = q.body := by
  obtain ⟨size, total⟩ := bodySize inBody
  have readable : r.contentLength ≤ r.buffer.readableBytes := by
    rw [inBody.length, size]
    omega
  have finished : resume r chunks = (.ok, { r with state := .finish }, chunks) := by
    rw [resume, parseLoopBody inBody.state, parseBody, if_pos ⟨by rw [inBody.length]; omega, readable⟩]
  have toNat : r.contentLength.toNat = q.body.length := by rw [inBody.length, Int.toNat_natCast]
  have view : peekRawData { r with state := .finish } = (held ++ got).take q.body.length := by
    rw [peekUnread (r := { r with state := .finish }) rfl readable]
    change r.buffer.unread.take r.contentLength.toNat = _
    rw [inBody.unread, toNat]
  have came (few : chunks.flatten.length ≤ extra.length) : ∃ came, got = q.body ++ came ∧ came ++ chunks.flatten = extra := by
    obtain ⟨came, same⟩ := List.prefix_of_prefix_length_le (List.prefix_append q.body extra)
      (inBody.stream ▸ List.prefix_append got chunks.flatten) (by omega)
    have parts : q.body ++ (came ++ chunks.flatten) = q.body ++ extra := by
      rw [← List.append_assoc, same]
      exact inBody.stream
    exact ⟨came, same.symm, List.append_cancel_left parts⟩
  rw [finished]
  constructor
  · intro taken
    obtain ⟨after, all, -⟩ := taken.beyond
    have few : chunks.flatten.length ≤ extra.length := by
      rw [← all, List.length_append]
      exact Nat.le_add_left ..
    obtain ⟨more, rfl, -⟩ := came few
    refine ⟨few, ?_⟩
    have body := taken.body
    rwa [view, ← List.append_assoc, List.take_append_of_le_length (by simp)] at body
  · rintro ⟨few, same⟩
    obtain ⟨more, rfl, rest⟩ := came few
    refine ⟨rfl, inBody.method, inBody.path, inBody.mapHeader, inBody.keepAlive, ?_, more, rest, ?_⟩
    · rwa [view, ← List.append_assoc, List.take_append_of_le_length (by simp)]
    · change more <:+ r.buffer.unread.drop r.contentLength.toNat
      rw [inBody.unread, toNat, ← List.append_assoc, List.drop_append_of_le_length (by simp)]
      exact List.suffix_append _ more

theorem bodyRead {r : Request} {held got : Bytes} {chunks : List Bytes} (inBody : InBody q extra r held got chunks) :
    Taken q extra (resume r chunks) ↔
      (∀ n, n + extra.length ∈ marks chunks → 0 < n → held.length + (q.body.length - n) < q.body.length) ∧
      (held ++ q.body).take q.body.length = q.body := by
  have early (chunks : List Bytes) (few : chunks.flatten.length ≤ extra.length) :
      ∀ n, n + extra.length ∈ marks chunks → 0 < n → held.length + (q.body.length - n) < q.body.length := by
    intro n mark positive
    have := marksBelow mark
    omega
  induction chunks generalizing r got with
  | nil =>
    obtain ⟨size, total⟩ := bodySize inBody
    simp only [List.flatten_nil, List.length_nil] at total
    have few : ([] : List Bytes).flatten.length ≤ extra.length := Nat.zero_le _
    rw [bodyEnough inBody (by omega), and_iff_right few, and_iff_right (early [] few)]
  | cons chunk rest ih =>
    obtain ⟨size, total⟩ := bodySize inBody
    by_cases enough : q.body.length ≤ held.length + got.length
    · rw [bodyEnough inBody enough]
      refine and_congr_left fun _ => ⟨early _, fun kept => ?_⟩
      by_contra many
      have late := kept ((chunk :: rest).flatten.length - extra.length)
        (by rw [Nat.sub_add_cancel (by omega)]; exact marksHere _) (by omega)
      omega
    · have waits : resume r (chunk :: rest) = resume (receive r chunk) rest := by
        rw [← serveNext (by rw [inBody.state]; decide), resume, parseLoopBody inBody.state, parseBody,
          if_neg (by rw [inBody.length, size]; omega)]
      rw [waits]
      refine (ih (bodyReceives inBody)).trans (and_congr_left fun _ => ?_)
      refine ⟨fun kept n mark positive => ?_, fun kept n mark => kept n (List.mem_cons_of_mem _ mark)⟩
      obtain here | later := List.mem_cons.mp mark
      · omega
      · exact kept n later positive

end Body

section Lost

theorem parseLineValid {r : Request} (valid : Buffer.Valid r.buffer) :
    Buffer.Valid (parseLine r).2.buffer ∧
    (parseLine r).2.buffer.unread.length ≤ r.buffer.unread.length := by
  unfold parseLine
  split
  · rename_i crAt _
    have pokes := Buffer.pokeValid (Buffer.pokeValid valid crAt 0) (crAt + 1) 0
    refine ⟨Buffer.retrieveUntilValid pokes _, ?_⟩
    simp only
    rw [Buffer.retrieveUntilUnread pokes]
    split
    · simp [Buffer.pokeUnread]
    · simp [Buffer.pokeUnread]
  · exact ⟨valid, Nat.le_refl _⟩
  · exact ⟨valid, Nat.le_refl _⟩

theorem parseLineState (r : Request) : (parseLine r).2.state = r.state := by
  unfold parseLine
  split <;> rfl

theorem parseLineFeeds (r : Request) : lineFeeds (parseLine r).2 ≤ lineFeeds r := by
  cases read : parseLine r with
  | mk outcome r' =>
    cases outcome with
    | ok => exact Nat.le_of_lt (parseLineShorter read)
    | bad =>
      unfold parseLine at read
      split at read <;> cases read
      exact Nat.le_refl _
    | lineOpen =>
      unfold parseLine at read
      split at read <;> cases read
      exact Nat.le_refl _

def InHead (r : Request) : Prop := r.state = .requestLine ∨ r.state = .header

theorem lineReadState {r : Request} (head : InHead r) :
    InHead (lineRead r).2 ∨ (lineRead r).2.state = .body := by
  unfold lineRead
  split
  · split
    · exact .inl (.inr rfl)
    · exact .inl head
  · split
    · split
      · exact .inl head
      · exact .inl head
    · exact .inr rfl
  · exact .inl head

structure Looped (r : Request) (result : HttpState × Request) : Prop where
  begun : result.2.state ≠ .start
  valid : Buffer.Valid result.2.buffer
  size : result.2.buffer.unread.length ≤ r.buffer.unread.length
  feeds : lineFeeds result.2 ≤ lineFeeds r
  done : result.1 = .ok →
    result.2.state = .finish ∧ result.2.contentLength ≤ result.2.buffer.readableBytes
  open' : result.1 = .incomplete → result.2.state ≠ .finish

theorem parseBodyLooped {r : Request} (body : r.state = .body) (valid : Buffer.Valid r.buffer) :
    Looped r (parseBody r) := by
  unfold parseBody
  split
  · rename_i enough
    exact ⟨nofun, valid, Nat.le_refl _, Nat.le_refl _, fun _ => ⟨rfl, enough.2⟩, nofun⟩
  · exact ⟨by simp [body], valid, Nat.le_refl _, Nat.le_refl _, nofun, fun _ => by simp [body]⟩

theorem parseLoopLooped {r : Request} (valid : Buffer.Valid r.buffer) (head : InHead r) :
    Looped r (parseLoop r) ∧
      ((parseLoop r).2.state = .body ∨ (parseLoop r).2.state = .finish →
        lineFeeds (parseLoop r).2 < lineFeeds r) := by
  induction feeds : lineFeeds r using Nat.strongRecOn generalizing r with
  | ind count ih =>
    subst feeds
    have inHead : r.state ≠ .body := by rcases head with same | same <;> simp [same]
    have stays (outcome : HttpState) (r' : Request) (notOk : outcome ≠ .ok) (state : r'.state = r.state)
        (valid : Buffer.Valid r'.buffer) (size : r'.buffer.unread.length ≤ r.buffer.unread.length)
        (feeds : lineFeeds r' ≤ lineFeeds r) : Looped r (outcome, r') ∧
          ((outcome, r').2.state = .body ∨ (outcome, r').2.state = .finish → lineFeeds r' < lineFeeds r) := by
      refine ⟨⟨?_, valid, size, feeds, fun ok => absurd ok notOk, fun _ => ?_⟩, fun reached => ?_⟩
      · rcases head with same | same <;> simp [state, same]
      · rcases head with same | same <;> simp [state, same]
      · rcases head with same | same <;> simp [state, same] at reached
    obtain ⟨lineValid, lineSize⟩ := parseLineValid valid
    have lineState := parseLineState r
    have lineLess := parseLineFeeds r
    rcases read : parseLine r with ⟨outcome, line⟩
    rw [read] at lineValid lineSize lineState lineLess
    cases outcome with
    | bad =>
      rw [parseLoopBad inHead read]
      exact stays .bad line nofun lineState lineValid lineSize lineLess
    | lineOpen =>
      rw [parseLoopOpen inHead read]
      exact stays .incomplete line nofun lineState lineValid lineSize lineLess
    | ok =>
      have shorter := parseLineShorter read
      have lineHead : InHead line := by
        rw [InHead, show line.state = r.state from lineState]
        exact head
      have sameBuffer := lineReadBuffer line
      have less : lineFeeds (lineRead line).2 < lineFeeds r := by
        rw [lineFeeds, sameBuffer]
        exact shorter
      have nextValid : Buffer.Valid (lineRead line).2.buffer := by
        rw [sameBuffer]
        exact lineValid
      have nextSize : (lineRead line).2.buffer.unread.length ≤ r.buffer.unread.length := by
        rw [sameBuffer]
        exact lineSize
      rw [parseLoopLine inHead read]
      split
      · rcases lineReadState lineHead with nextHead | body
        · obtain ⟨looped, spent⟩ := ih _ less nextValid nextHead rfl
          exact ⟨⟨looped.begun, looped.valid, Nat.le_trans looped.size nextSize,
            Nat.le_of_lt (Nat.lt_of_le_of_lt looped.feeds less), looped.done, looped.open'⟩,
            fun reached => Nat.lt_trans (spent reached) less⟩
        · rw [parseLoopBody body]
          have looped := parseBodyLooped body nextValid
          have spent := Nat.lt_of_le_of_lt looped.feeds less
          exact ⟨⟨looped.begun, looped.valid, Nat.le_trans looped.size nextSize, Nat.le_of_lt spent, looped.done,
            looped.open'⟩, fun _ => spent⟩
      · refine ⟨⟨?_, nextValid, nextSize, Nat.le_of_lt less, nofun, nofun⟩, fun _ => less⟩
        rcases lineReadState lineHead with (same | same) | same <;> simp [same]

structure Lost (sent : Bytes) (r : Request) (chunks : List Bytes) : Prop where
  valid : Buffer.Valid r.buffer
  fits : r.buffer.unread.length + chunks.flatten.length ≤ int32Max
  place : InHead r ∨ r.state = .body
  feeds : lineFeeds r + chunks.flatten.count lineFeed ≤ sent.count lineFeed
  spent : r.state = .body → lineFeeds r + chunks.flatten.count lineFeed < sent.count lineFeed

theorem lostLoop {sent : Bytes} {r : Request} {chunks : List Bytes} (lost : Lost sent r chunks) :
    Looped r (parseLoop r) ∧ ((parseLoop r).2.state = .body ∨ (parseLoop r).2.state = .finish →
      lineFeeds (parseLoop r).2 + chunks.flatten.count lineFeed < sent.count lineFeed) := by
  have feeds := lost.feeds
  rcases lost.place with head | body
  · obtain ⟨looped, spent⟩ := parseLoopLooped lost.valid head
    exact ⟨looped, fun reached => by have := spent reached; omega⟩
  · rw [parseLoopBody body]
    have looped := parseBodyLooped body lost.valid
    have less := lost.spent body
    exact ⟨looped, fun _ => by have := looped.feeds; omega⟩

theorem shortOfFeeds {q : CompleteRequest} {extra : Bytes} {r : Request} {later : List Bytes} (finished : r.state = .finish)
    (enough : r.contentLength ≤ r.buffer.readableBytes)
    (short : lineFeeds r + later.flatten.count lineFeed < (q.body ++ extra).count lineFeed) :
    ¬ Taken q extra (.ok, r, later) := by
  intro taken
  have body : r.buffer.unread.take r.contentLength.toNat = q.body := (peekUnread finished enough).symm.trans taken.body
  obtain ⟨came, all, behind⟩ := taken.beyond
  have parts := congrArg (List.count lineFeed) (List.take_append_drop r.contentLength.toNat r.buffer.unread)
  have fewer := behind.sublist.count_le lineFeed
  have total := congrArg (List.count lineFeed) all
  simp only [List.count_append, body, lineFeeds] at parts fewer total short
  omega

theorem lostReceives {sent : Bytes} {r r' : Request} {chunk : Bytes} {rest : List Bytes}
    (lost : Lost sent r (chunk :: rest)) (looped : Looped r (.incomplete, r'))
    (spent : r'.state = .body ∨ r'.state = .finish →
      lineFeeds r' + (chunk :: rest).flatten.count lineFeed < sent.count lineFeed) :
    Lost sent (receive r' chunk) rest := by
  have fits := lost.fits
  have size : r'.buffer.unread.length ≤ r.buffer.unread.length := looped.size
  have feeds : lineFeeds r' ≤ lineFeeds r := looped.feeds
  have before := lost.feeds
  simp only [List.flatten_cons, List.length_append, List.count_append] at fits before spent
  obtain ⟨valid, unread⟩ := receiveAppends (r := r') looped.valid chunk (by omega)
  have grown : lineFeeds (receive r' chunk) = lineFeeds r' + chunk.count lineFeed := by
    rw [lineFeeds, unread, List.count_append]
    rfl
  refine ⟨valid, ?_, ?_, ?_, fun body => ?_⟩
  · rw [unread, List.length_append]
    omega
  · have begun := looped.begun
    have open' := looped.open' rfl
    change InHead r' ∨ r'.state = .body
    unfold InHead
    cases state : r'.state <;> simp_all
  · rw [grown]
    omega
  · have less := spent (.inl body)
    rw [grown]
    omega

theorem lostRefused {q : CompleteRequest} {extra : Bytes} {r : Request} {chunks : List Bytes}
    (lost : Lost (q.body ++ extra) r chunks) : ¬ Taken q extra (resume r chunks) := by
  induction chunks generalizing r with
  | nil =>
    obtain ⟨looped, spent⟩ := lostLoop lost
    rcases ended : parseLoop r with ⟨outcome, r'⟩
    rw [ended] at looped spent
    cases outcome with
    | ok =>
      obtain ⟨finished, enough⟩ := looped.done rfl
      simp only [resume, ended]
      exact shortOfFeeds finished enough (spent (.inr finished))
    | bad =>
      simp only [resume, ended]
      exact fun taken => nomatch taken.state
    | incomplete =>
      simp only [resume, ended, serve]
      exact fun taken => nomatch taken.state
  | cons chunk rest ih =>
    obtain ⟨looped, spent⟩ := lostLoop lost
    rcases ended : parseLoop r with ⟨outcome, r'⟩
    rw [ended] at looped spent
    cases outcome with
    | ok =>
      obtain ⟨finished, enough⟩ := looped.done rfl
      simp only [resume, ended]
      exact shortOfFeeds finished enough (spent (.inr finished))
    | bad =>
      simp only [resume, ended]
      exact fun taken => nomatch taken.state
    | incomplete =>
      have goesOn : resume r (chunk :: rest) = resume (receive r' chunk) rest := by
        rw [← serveNext looped.begun, resume, ended]
      rw [goesOn]
      exact ih (lostReceives lost looped spent)

end Lost

end Uco.Fragmentation
