import Uco.Fragmentation

/-! Which boundaries between the chunks of a complete request leave its meaning as
it is. -/
namespace Uco.WholeRequest
open HttpRequest Fragmentation

section Whole
variable {q : CompleteRequest} {extra : Bytes} {cuts : List Nat}

/- A boundary right behind the empty line leaves two zero bytes before the body: it has
to consist of zero bytes, and no boundary may fall so late that they complete it. -/
def BodyKept (q : CompleteRequest) (cuts : List Nat) : Prop :=
  q.body.length ∈ cuts →
    (∀ b ∈ q.body, b = 0) ∧ ∀ n ∈ cuts, 0 < n → n ≤ q.body.length → 2 < n

theorem shiftedZeros (body : Bytes) :
    ([0, 0] ++ body).take body.length = body ↔ ∀ b ∈ body, b = 0 := by
  constructor
  · intro shifted b inside
    have each (i : Nat) (here : i < body.length) : body[i]? = some 0 := by
      induction i using Nat.strongRecOn with
      | ind i ih =>
        have moved := congrArg (·[i]?) shifted
        simp only [List.getElem?_take, here, if_true] at moved
        match i with
        | 0 => exact moved.symm
        | 1 => exact moved.symm
        | i + 2 => exact moved.symm.trans (ih i (by omega) (by omega))
    obtain ⟨i, here, rfl⟩ := List.mem_iff_getElem.mp inside
    have zero := each i here
    rw [List.getElem?_eq_getElem here] at zero
    exact Option.some.inj zero
  · intro zeros
    obtain ⟨n, rfl⟩ : ∃ n, body = List.replicate n 0 :=
      ⟨body.length, List.eq_replicate_iff.mpr ⟨rfl, zeros⟩⟩
    have longer : [0, 0] ++ List.replicate n (0 : UInt8) = List.replicate (n + 2) 0 := by
      rw [List.replicate_succ, List.replicate_succ]
      rfl
    rw [longer, List.length_replicate, List.take_replicate, Nat.min_eq_left (by omega)]

theorem bodyLoopHead {r : Request} (body : r.state = .body) :
    (parseLoop r).2.toRequestHead = r.toRequestHead := by
  rw [parseLoopBody body, parseBody]
  split <;> rfl

theorem bodyKeepsHead {r : Request} (body : r.state = .body) (chunks : List Bytes) :
    (resume r chunks).2.1.toRequestHead = r.toRequestHead := by
  induction chunks generalizing r with
  | nil =>
    have kept := bodyLoopHead body
    rcases ended : parseLoop r with ⟨outcome, r'⟩
    rw [ended] at kept
    cases outcome <;> simpa only [resume, ended, serve] using kept
  | cons chunk rest ih =>
    by_cases enough : 0 ≤ r.contentLength ∧ r.contentLength ≤ r.buffer.readableBytes
    · rw [resume, parseLoopBody body, parseBody, if_pos enough]
    · have waits : resume r (chunk :: rest) = resume (receive r chunk) rest := by
        rw [← serveNext (by simp [body]), resume, parseLoopBody body, parseBody, if_neg enough]
      rw [waits]
      exact (ih (r := receive r chunk) body).trans rfl

/- The parser is before `lines` and the empty line, and holds back what `stale` says. -/
structure InHeaders (q : CompleteRequest) (extra : Bytes) (cuts : List Nat) (r : Request) (stale : Option Bytes)
    (held got : Bytes) (chunks lines : List Bytes) : Prop where
  reading : Reading r held got chunks
  state : r.state = .header
  offset : r.readOffset = 0
  holds : Holds stale held
  plainHeld : Plain held
  plain : ∀ line ∈ lines, Plain line
  full : ∀ line ∈ lines, lineText line ≠ []
  stream : got ++ chunks.flatten = wire (lines ++ [[]]) ++ (q.body ++ extra)
  same : ∀ n < (wire (lines ++ [[]]) ++ q.body).length, n ∈ cuts ↔ n + extra.length ∈ marks chunks

theorem gotNone {got tail : Bytes} {chunks : List Bytes} (stream : got ++ chunks.flatten = tail) :
    got = [] ↔ tail.length ∈ marks chunks := by
  constructor
  · rintro rfl
    rw [← stream]
    exact marksHere chunks
  · intro mark
    have below := marksBelow mark
    rw [← stream, List.length_append] at below
    exact List.eq_nil_of_length_eq_zero (by omega)

theorem wireCons (line : Bytes) (lines : List Bytes) : wire (line :: lines) = line ++ crlf ++ wire lines := by
  simp [wire]

theorem wireBlank : wire [[]] = crlf := by simp [wire]

theorem headerTaken {r : Request} {held got line tail : Bytes} {chunks : List Bytes}
    (reading : Reading r held got chunks) (offset : r.readOffset = 0) (plainHeld : Plain held)
    (plain : Plain line) (stream : got ++ chunks.flatten = line ++ crlf ++ tail) :
    ∃ r' got' chunks', resume r chunks = afterLine r' chunks' ∧
      LineTaken r r' held line got' tail chunks chunks' :=
  takesLine reading (plainAppend.mpr ⟨plainHeld, plain⟩) (by simp [offset]) (by simp [offset]) stream

theorem takenReads {r r' : Request} {held line got tail : Bytes} {before chunks : List Bytes}
    (reading : Reading r held got before) {got' : Bytes} (taken : LineTaken r r' held line got' tail before chunks)
    (stream : got ++ before.flatten = line ++ crlf ++ tail) :
    r'.buffer.unread = (if got' = [] then held ++ line ++ [0, 0] else []) ++ got' ∧
    ((if got' = [] then held ++ line ++ [0, 0] else []) ++ got' ++ chunks.flatten).length ≤ int32Max := by
  have fits := reading.fits
  have rest := congrArg List.length taken.stream
  rw [List.append_assoc, stream] at fits
  simp only [List.length_append, crlf, List.length_cons, List.length_nil] at fits rest
  rw [taken.done.unread]
  split
  · rename_i none
    refine ⟨by simp [none], ?_⟩
    simp only [List.length_append, List.length_cons, List.length_nil]
    omega
  · refine ⟨rfl, ?_⟩
    simp only [List.length_append, List.length_nil]
    omega

theorem streamSize (lines : List Bytes) : (wire (lines ++ [[]]) ++ q.body).length =
    (wire (lines ++ [[]])).length + q.body.length := List.length_append

theorem sentSize (lines : List Bytes) : (wire (lines ++ [[]]) ++ (q.body ++ extra)).length =
    (wire (lines ++ [[]]) ++ q.body).length + extra.length := by
  simp only [List.length_append, Nat.add_assoc]

theorem headerRead {r : Request} {stale : Option Bytes} {held got line : Bytes} {chunks lines : List Bytes}
    (inHeaders : InHeaders q extra cuts r stale held got chunks (line :: lines)) :
    got ++ chunks.flatten = line ++ crlf ++ (wire (lines ++ [[]]) ++ (q.body ++ extra)) ∧
    ∃ r' got' chunks', resume r chunks = afterLine r' chunks' ∧
      LineTaken r r' held line got' (wire (lines ++ [[]]) ++ (q.body ++ extra)) chunks chunks' ∧
      r'.curLine = stale.getD (lineText line) ∧ stale.getD (lineText line) ≠ [] := by
  have here : got ++ chunks.flatten = line ++ crlf ++ (wire (lines ++ [[]]) ++ (q.body ++ extra)) := by
    rw [inHeaders.stream, List.cons_append, wireCons, List.append_assoc _ (wire _)]
  obtain ⟨r', got', chunks', resumes, taken⟩ := headerTaken inHeaders.reading inHeaders.offset inHeaders.plainHeld
    (inHeaders.plain line List.mem_cons_self) here
  have holds := inHeaders.holds
  refine ⟨here, r', got', chunks', resumes, taken, taken.done.curLine.trans (heldText holds line), ?_⟩
  cases stale with
  | none => exact inHeaders.full line List.mem_cons_self
  | some first => exact holds.1

theorem takenHeaders {r r' : Request} {stale : Option Bytes} {held got line got' : Bytes}
    {before chunks lines : List Bytes} (reading : Reading r held got before)
    (taken : LineTaken r r' held line got' (wire (lines ++ [[]]) ++ (q.body ++ extra)) before chunks)
    (stream : got ++ before.flatten = line ++ crlf ++ (wire (lines ++ [[]]) ++ (q.body ++ extra)))
    (holds : Holds stale held) (notEmpty : stale.getD (lineText line) ≠ []) (plainHeld : Plain held)
    (plain : ∀ l ∈ line :: lines, Plain l) (full : ∀ l ∈ lines, lineText l ≠ [])
    (same : ∀ n ≤ (wire (lines ++ [[]]) ++ q.body).length, n ∈ cuts ↔ n + extra.length ∈ marks before) (h : RequestHead) :
    InHeaders q extra cuts { r' with toRequestHead := h, state := .header }
      (if (wire (lines ++ [[]])).length + q.body.length ∈ cuts then some (stale.getD (lineText line)) else none)
      (if got' = [] then held ++ line ++ [0, 0] else []) got' chunks lines := by
  obtain ⟨unread, fits⟩ := takenReads reading taken stream
  rw [List.forall_mem_cons] at plain
  have cut : (wire (lines ++ [[]])).length + q.body.length ∈ cuts ↔ got' = [] := by
    rw [gotNone taken.stream, ← taken.marks _ (Nat.le_refl _), sentSize, ← same _ (Nat.le_refl _), streamSize]
  refine ⟨⟨nofun, nofun, taken.done.valid, unread, taken.some, fits⟩, rfl, taken.done.offset, ?_, ?_, plain.2, full,
    taken.stream, fun n small => ?_⟩
  · simp only [cut]
    split
    · exact holdsNext holds notEmpty
    · rfl
  · split
    · refine plainAppend.mpr ⟨plainAppend.mpr ⟨plainHeld, plain.1⟩, ?_⟩
      simp [Plain, carriageReturn, lineFeed]
    · simp [Plain]
  · rw [same n (Nat.le_of_lt small), taken.marks _ (by rw [sentSize]; omega)]

theorem nextHeader {r : Request} {stale : Option Bytes} {held got line : Bytes} {chunks lines : List Bytes}
    (inHeaders : InHeaders q extra cuts r stale held got chunks (line :: lines)) {h : RequestHead}
    (parsed : parseHeader r.toRequestHead (stale.getD (lineText line)) = some h) :
    ∃ r' held' got' chunks', resume r chunks = resume r' chunks' ∧ r'.toRequestHead = h ∧
      InHeaders q extra cuts r' (if (wire (lines ++ [[]])).length + q.body.length ∈ cuts
        then some (stale.getD (lineText line)) else none) held' got' chunks' lines := by
  obtain ⟨here, r', got', chunks', resumes, taken, text, notEmpty⟩ := headerRead inHeaders
  have state : r'.state = .header := taken.done.state.trans inHeaders.state
  have reads : lineRead r' = (true, { r' with toRequestHead := h, state := .header }) := by
    rw [lineRead, state]
    simp only [text, taken.done.head, ne_eq, notEmpty, not_false_iff, if_true, parsed, ← state]
  have longer : (wire (lines ++ [[]]) ++ q.body).length < (wire (line :: lines ++ [[]]) ++ q.body).length := by
    rw [List.cons_append, wireCons]
    simp only [crlf, List.length_append, List.length_cons, List.length_nil]
    omega
  refine ⟨{ r' with toRequestHead := h, state := .header }, _, got', chunks', ?_, rfl,
    takenHeaders inHeaders.reading taken here inHeaders.holds notEmpty inHeaders.plainHeld inHeaders.plain
      (fun l inside => inHeaders.full l (List.mem_cons_of_mem _ inside))
      (fun n small => inHeaders.same n (Nat.lt_of_le_of_lt small longer)) h⟩
  rw [resumes, afterLine, reads]

theorem noHeader {r : Request} {stale : Option Bytes} {held got line : Bytes} {chunks lines : List Bytes}
    (inHeaders : InHeaders q extra cuts r stale held got chunks (line :: lines))
    (refused : parseHeader r.toRequestHead (stale.getD (lineText line)) = none) :
    ¬ Taken q extra (resume r chunks) := by
  obtain ⟨_, r', got', chunks', resumes, taken, text, notEmpty⟩ := headerRead inHeaders
  have reads : lineRead r' = (false, r') := by
    rw [lineRead, taken.done.state, inHeaders.state]
    simp only [text, taken.done.head, ne_eq, notEmpty, not_false_iff, if_true, refused]
  rw [resumes, afterLine, reads]
  intro taken
  cases taken.state

theorem blankRead {r : Request} {stale : Option Bytes} {held got : Bytes} {chunks : List Bytes}
    (inHeaders : InHeaders q extra cuts r stale held got chunks []) :
    got ++ chunks.flatten = [] ++ crlf ++ (q.body ++ extra) ∧
    ∃ r' got' chunks', resume r chunks = afterLine r' chunks' ∧
      LineTaken r r' held [] got' (q.body ++ extra) chunks chunks' ∧ r'.curLine = stale.getD [] := by
  have here : got ++ chunks.flatten = [] ++ crlf ++ (q.body ++ extra) := by
    rw [inHeaders.stream, List.nil_append, wireBlank, List.nil_append]
  obtain ⟨r', got', chunks', resumes, taken⟩ := headerTaken inHeaders.reading inHeaders.offset inHeaders.plainHeld
    (by simp [Plain]) here
  exact ⟨here, r', got', chunks', resumes, taken, taken.done.curLine.trans (heldText inHeaders.holds [])⟩

theorem blankHidden {r : Request} {text held got : Bytes} {chunks : List Bytes}
    (inHeaders : InHeaders q extra cuts r (some text) held got chunks []) : ¬ Taken q extra (resume r chunks) := by
  obtain ⟨here, r', got', chunks', resumes, taken, line⟩ := blankRead inHeaders
  obtain ⟨unread, fits⟩ := takenReads inHeaders.reading taken here
  obtain ⟨notEmpty, _, _⟩ := inHeaders.holds
  have state : r'.state = .header := taken.done.state.trans inHeaders.state
  rw [resumes, afterLine]
  cases parsed : parseHeader r'.toRequestHead text with
  | none =>
    have reads : lineRead r' = (false, r') := by
      rw [lineRead, state]
      simp only [line, Option.getD_some, ne_eq, notEmpty, not_false_iff, if_true, parsed]
    rw [reads]
    intro taken
    cases taken.state
  | some h =>
    have reads : lineRead r' = (true, { r' with toRequestHead := h }) := by
      rw [lineRead, state]
      simp only [line, Option.getD_some, ne_eq, notEmpty, not_false_iff, if_true, parsed]
    rw [reads]
    have noFeed : (if got' = [] then held ++ [] ++ [0, 0] else []).count lineFeed = 0 := by
      split
      · rw [List.append_nil, List.count_append, List.count_eq_zero_of_not_mem inHeaders.plainHeld.2]
        decide
      · rfl
    have total : lineFeeds { r' with toRequestHead := h } + chunks'.flatten.count lineFeed =
        (q.body ++ extra).count lineFeed := by
      rw [← taken.stream, List.count_append, lineFeeds]
      change r'.buffer.unread.count lineFeed + _ = _
      rw [unread, List.count_append, noFeed, Nat.zero_add]
    refine lostRefused ⟨taken.done.valid, ?_, .inl (.inr state), Nat.le_of_eq total, fun body => ?_⟩
    · change r'.buffer.unread.length + chunks'.flatten.length ≤ int32Max
      rw [unread, ← List.length_append]
      exact fits
    · cases state.symm.trans body

theorem blankTaken {first : RequestHead} {r : Request} {held got : Bytes} {chunks : List Bytes}
    (inHeaders : InHeaders q extra cuts r none held got chunks []) (derived : Derived first r.toRequestHead)
    (sent : Derived first q.head) :
    Taken q extra (resume r chunks) ↔ r.mapHeader = q.head.mapHeader ∧ BodyKept q cuts := by
  obtain ⟨here, r', got', chunks', resumes, taken, line⟩ := blankRead inHeaders
  obtain ⟨unread, fits⟩ := takenReads inHeaders.reading taken here
  obtain rfl : held = [] := inHeaders.holds
  have reads : lineRead r' = (true, { r' with state := .body }) := by
    rw [lineRead, taken.done.state, inHeaders.state]
    simp [line]
  have head : r'.toRequestHead = r.toRequestHead := taken.done.head
  rw [resumes, afterLine, reads]
  by_cases map : r.mapHeader = q.head.mapHeader
  · have inBody : InBody q extra { r' with state := .body } (if got' = [] then [] ++ [] ++ [0, 0] else []) got' chunks' := by
      refine ⟨rfl, taken.done.valid, unread, taken.stream, taken.some, fits, ?_, ?_, ?_, ?_, ?_⟩
      · exact (congrArg RequestHead.method head).trans (derived.method.trans sent.method.symm)
      · exact (congrArg RequestHead.path head).trans (derived.path.trans sent.path.symm)
      · exact (congrArg RequestHead.mapHeader head).trans map
      · refine (congrArg RequestHead.keepAlive head).trans ?_
        rw [derived.keepAlive, sent.keepAlive, map]
      · refine (congrArg RequestHead.contentLength head).trans ?_
        rw [derived.contentLength, map, ← sent.contentLength, q.length]
    have size : (wire ([] ++ [[]]) ++ q.body).length = 2 + q.body.length := by
      rw [List.nil_append, wireBlank, List.length_append]
      rfl
    have same (n : Nat) (small : n ≤ q.body.length) : n ∈ cuts ↔ n + extra.length ∈ marks chunks' := by
      rw [inHeaders.same n (by omega), taken.marks _ (by rw [List.length_append]; omega)]
    have cut : got' = [] ↔ q.body.length ∈ cuts := by
      rw [gotNone taken.stream, List.length_append, same _ (Nat.le_refl _)]
    have inside (n : Nat) (mark : n + extra.length ∈ marks chunks') : n ≤ q.body.length := by
      have below := marksBelow mark
      have total := congrArg List.length taken.stream
      simp only [List.length_append] at total
      omega
    rw [bodyRead inBody, and_iff_right map]
    by_cases behind : got' = []
    · rw [if_pos behind, BodyKept, imp_iff_right (cut.mp behind)]
      rw [and_comm]
      refine and_congr (shiftedZeros q.body) ⟨fun early n mark positive small => ?_, fun late n mark positive => ?_⟩
      · have next := early n ((same n small).mp mark) positive
        simp only [List.nil_append, List.length_cons, List.length_nil] at next
        omega
      · have below := inside n mark
        have next := late n ((same n below).mpr mark) positive below
        simp only [List.nil_append, List.length_cons, List.length_nil]
        omega
    · rw [if_neg behind, BodyKept]
      refine iff_of_true ⟨fun n mark positive => ?_, by simp⟩ fun here => absurd (cut.mpr here) behind
      have below := inside n mark
      simp only [List.length_nil]
      omega
  · refine iff_of_false (fun accepted => map ?_) fun both => map both.1
    have kept := bodyKeepsHead (r := { r' with state := .body }) rfl chunks'
    exact (congrArg RequestHead.mapHeader (kept.trans head)).symm.trans accepted.mapHeader

theorem headersRead {first : RequestHead} {r : Request} {stale : Option Bytes} {held got : Bytes}
    {chunks lines : List Bytes} (inHeaders : InHeaders q extra cuts r stale held got chunks lines)
    (derived : Derived first r.toRequestHead) (sent : Derived first q.head) :
    Taken q extra (resume r chunks) ↔
      ((readHead r.toRequestHead (linesRead cuts q.body.length stale (lines ++ [[]]))).map RequestHead.mapHeader =
        some q.head.mapHeader) ∧ BodyKept q cuts := by
  induction lines generalizing r stale held got chunks with
  | nil =>
    cases stale with
    | none =>
      rw [blankTaken inHeaders derived sent]
      simp [linesRead, lineText, cString, readHead]
    | some text =>
      have notEmpty : text ≠ [] := inHeaders.holds.1
      refine iff_of_false (blankHidden inHeaders) fun both => ?_
      simp [linesRead, readHead, notEmpty] at both
  | cons line lines ih =>
    obtain ⟨_, _, _, _, _, _, _, notEmpty⟩ := headerRead inHeaders
    rw [List.cons_append, linesRead, readHead, if_neg notEmpty]
    cases parsed : parseHeader r.toRequestHead (stale.getD (lineText line)) with
    | none => exact iff_of_false (noHeader inHeaders parsed) (by simp)
    | some h =>
      obtain ⟨r', held', got', chunks', resumes, head, next⟩ := nextHeader inHeaders parsed
      subst head
      rw [resumes, Option.bind_some]
      exact ih next (derivedHeader derived parsed)

structure Idle (r : Request) : Prop where
  head : r.toRequestHead = .fresh
  state : r.state = .start
  offset : r.readOffset = -1
  valid : Buffer.Valid r.buffer
  unread : r.buffer.unread = []

theorem idleFresh : Idle .fresh := ⟨rfl, rfl, rfl, Buffer.newValid (by decide), Buffer.newUnread 1024⟩

theorem serveIdle {r : Request} (start : r.state = .start) (chunk : Bytes) (chunks : List Bytes) :
    serve r (chunk :: chunks) = resume { receive r chunk with state := .requestLine } chunks := by
  have begins : (receive r chunk).state = .start := start
  rcases decided : parseLoop { receive r chunk with state := .requestLine } with ⟨outcome, r'⟩
  cases outcome <;> simp only [serve, parse, if_pos begins, resume, decided]

theorem requestLineRead {r : Request} (idle : Idle r) {chunk : Bytes} {chunks : List Bytes}
    (whole : (chunk :: chunks).flatten = q.raw ++ extra) (fits : (q.raw ++ extra).length ≤ int32Max)
    (visible : [] ∉ chunks) (same : ∀ n, n ∈ cuts ↔ n + extra.length ∈ marks chunks) {h : RequestHead}
    (parsed : parseRequestLine .fresh (lineText q.requestLine) = (true, h)) :
    ∃ r' held' got' chunks', serve r (chunk :: chunks) = resume r' chunks' ∧ r'.toRequestHead = h ∧
      InHeaders q extra cuts r' (if (wire (q.headers ++ [[]])).length + q.body.length ∈ cuts
        then some (lineText q.requestLine) else none) held' got' chunks' q.headers := by
  have sent : chunk ++ chunks.flatten = q.requestLine ++ crlf ++ (wire (q.headers ++ [[]]) ++ (q.body ++ extra)) := by
    rw [← List.flatten_cons, whole, CompleteRequest.raw, List.cons_append, wireCons]
    simp only [List.append_assoc]
  rw [← whole, List.flatten_cons] at fits
  obtain ⟨valid, unread⟩ := receiveAppends idle.valid chunk (by
    simp only [idle.unread, List.length_append, List.length_nil] at fits ⊢
    omega)
  have reading : Reading { receive r chunk with state := .requestLine } [] chunk chunks :=
    ⟨nofun, nofun, valid, unread.trans (by simp [idle.unread]), visible, fits⟩
  have plain := q.plain
  have near : (receive r chunk).readOffset.toNat ≤ 0 := by simp [receive, idle.offset]
  obtain ⟨r', got', chunks', resumes, taken⟩ := takesLine reading
    (show Plain ([] ++ q.requestLine) from plain _ List.mem_cons_self) (Nat.le_trans near (Nat.zero_le _))
    (Nat.le_trans near (Nat.zero_le _)) sent
  have notEmpty : lineText q.requestLine ≠ [] := by
    intro empty
    rw [empty] at parsed
    cases parsed
  have head : r'.toRequestHead = .fresh := taken.done.head.trans idle.head
  have reads : lineRead r' = (true, { r' with toRequestHead := h, state := .header }) := by
    rw [lineRead, show r'.state = .requestLine from taken.done.state]
    simp only [show r'.curLine = lineText q.requestLine from taken.done.curLine, head, parsed]
  refine ⟨{ r' with toRequestHead := h, state := .header }, _, got', chunks', ?_, rfl,
    takenHeaders reading taken sent (show Holds none [] from rfl) notEmpty (by simp [Plain]) plain q.full
      (fun n _ => same n) h⟩
  rw [serveIdle idle.state, resumes, afterLine, reads]

def boundaries (chunks : List Bytes) : List Nat := marks chunks.tail

theorem takenIff (q : CompleteRequest) {r : Request} (idle : Idle r) {chunks : List Bytes}
    (whole : chunks.flatten = q.raw ++ extra) (fits : (q.raw ++ extra).length ≤ int32Max) (visible : [] ∉ chunks)
    (same : ∀ n, n ∈ cuts ↔ n + extra.length ∈ boundaries chunks) :
    Taken q extra (serve r chunks) ↔
      ((headOf (linesRead cuts q.body.length none (q.requestLine :: q.headers ++ [[]]))).map
        RequestHead.mapHeader = some q.head.mapHeader) ∧ BodyKept q cuts := by
  cases chunks with
  | nil =>
    have size := congrArg List.length whole
    simp [CompleteRequest.raw, wireCons, crlf] at size
  | cons chunk chunks =>
    have sent := q.reads
    rw [List.cons_append, List.map_cons, headOf] at sent
    rcases parsed : parseRequestLine .fresh (lineText q.requestLine) with ⟨_ | _, h⟩
    · rw [parsed] at sent
      cases sent
    · rw [parsed] at sent
      have first := derivedFirst parsed
      obtain ⟨r', held', got', chunks', serves, head, inHeaders⟩ := requestLineRead idle whole fits
        (fun inside => visible (List.mem_cons_of_mem _ inside)) same parsed
      subst head
      rw [serves, headersRead inHeaders first (derivedRead first sent), List.cons_append,
        linesRead, Option.getD_none, headOf, parsed]

theorem acceptedIff (q : CompleteRequest) {chunks : List Bytes} (whole : chunks.flatten = q.raw)
    (visible : [] ∉ chunks) :
    Accepted q (serve .fresh chunks) ↔
      ((headOf (linesRead (boundaries chunks) q.body.length none (q.requestLine :: q.headers ++ [[]]))).map
        RequestHead.mapHeader = some q.head.mapHeader) ∧ BodyKept q (boundaries chunks) := by
  rw [← takenAccepted visible]
  exact takenIff q idleFresh (by simpa using whole) (by simpa [CompleteRequest.raw] using q.fits) visible fun _ => Iff.rfl

end Whole

section Kept
variable {q : CompleteRequest} {cuts : List Nat}

def field (line : Bytes) : Option (Bytes × Bytes) :=
  (splitAtByte colon line).map fun (before, after) => (trimRight before, trimRight (after.dropWhile (· = space)))

def lastValue (key : Bytes) : List Bytes → Option Bytes
  | [] => none
  | line :: rest => (lastValue key rest).or
      ((field line).bind fun (name, value) => if name = key then some value else none)

def headersAsRead (q : CompleteRequest) (cuts : List Nat) : List Bytes :=
  linesRead cuts (2 + q.body.length)
    (if (wire q.headers).length + (2 + q.body.length) ∈ cuts then some (lineText q.requestLine) else none) q.headers

/- The head survives the boundaries: none falls right behind its last line, a request line
that is read as a header has a colon, and every field keeps its value. -/
structure HeadKept (q : CompleteRequest) (cuts : List Nat) : Prop where
  ends : 2 + q.body.length ∉ cuts
  splits : (wire q.headers).length + (2 + q.body.length) ∈ cuts → colon ∈ lineText q.requestLine
  values : ∀ key, lastValue key (headersAsRead q cuts) = lastValue key (q.headers.map lineText)

theorem fieldSome (line : Bytes) : (field line).isSome ↔ colon ∈ line := by
  rw [field, Option.isSome_map]
  induction line with
  | nil => simp [splitAtByte]
  | cons c line ih =>
    by_cases here : c = colon
    · simp [splitAtByte, here]
    · have other : colon ≠ c := fun same => here same.symm
      simpa [splitAtByte, here, other] using ih

theorem parseHeaderField (h : RequestHead) (line : Bytes) :
    (parseHeader h line).map RequestHead.mapHeader =
      (field line).map fun read => h.mapHeader.insert read.1 read.2 := by
  unfold parseHeader field
  cases splitAtByte colon line with
  | none => rfl
  | some parts => simp only [Option.map_some, apply_ite RequestHead.mapHeader, ite_self]

theorem readHeadValues {h h' : RequestHead} {texts : List Bytes} (full : ∀ text ∈ texts, text ≠ [])
    (read : readHead h (texts ++ [[]]) = some h') (key : Bytes) :
    h'.mapHeader[key]? = (lastValue key texts).or h.mapHeader[key]? := by
  induction texts generalizing h with
  | nil =>
    cases read
    simp [lastValue]
  | cons text texts ih =>
    rw [List.forall_mem_cons] at full
    rw [List.cons_append, readHead, if_neg full.1] at read
    obtain ⟨next, parsed, after⟩ := Option.bind_eq_some_iff.mp read
    have inserted := parseHeaderField h text
    rw [parsed, Option.map_some] at inserted
    obtain ⟨⟨name, value⟩, split, map⟩ := Option.map_eq_some_iff.mp inserted.symm
    rw [ih full.2 after, lastValue, split, Option.bind_some, ← map, Std.ExtTreeMap.getElem?_insert, Option.or_assoc]
    by_cases same : name = key <;> simp [same]

theorem readHeadSome {h : RequestHead} {texts : List Bytes} (full : ∀ text ∈ texts, text ≠ []) :
    (readHead h (texts ++ [[]])).isSome ↔ ∀ text ∈ texts, (field text).isSome := by
  induction texts generalizing h with
  | nil => simp [readHead]
  | cons text texts ih =>
    rw [List.forall_mem_cons] at full ⊢
    rw [List.cons_append, readHead, if_neg full.1]
    have inserted := parseHeaderField h text
    cases parsed : parseHeader h text with
    | none =>
      rw [parsed] at inserted
      have unsplit : field text = none := Option.map_eq_none_iff.mp inserted.symm
      simp [unsplit]
    | some next =>
      rw [parsed, Option.map_some] at inserted
      obtain ⟨parts, split, _⟩ := Option.map_eq_some_iff.mp inserted.symm
      rw [Option.bind_some, ih full.2, split]
      simp

theorem readHeadOpen {h : RequestHead} {texts : List Bytes} {last : Bytes} (full : ∀ text ∈ texts, text ≠ [])
    (unended : last ≠ []) : readHead h (texts ++ [last]) = none := by
  induction texts generalizing h with
  | nil => simp [readHead, unended]
  | cons text texts ih =>
    rw [List.forall_mem_cons] at full
    rw [List.cons_append, readHead, if_neg full.1, Option.bind_eq_none_iff]
    exact fun next _ => ih full.2

theorem heldBehind {P : Bytes → Prop} {c : Prop} [Decidable c] {first : Bytes} (here : c → P first) :
    ∀ text ∈ (if c then some first else none), P text := by
  intro text held
  split at held <;> rename_i behind
  · cases held
    exact here behind
  · cases held

theorem linesReadAll {P : Bytes → Prop} {left : Nat} {stale : Option Bytes} {lines : List Bytes}
    (held : ∀ text ∈ stale, P text) (each : ∀ line ∈ lines, P (lineText line)) :
    ∀ text ∈ linesRead cuts left stale lines, P text := by
  induction lines generalizing stale with
  | nil => simp [linesRead]
  | cons line lines ih =>
    rw [List.forall_mem_cons] at each
    have here : P (stale.getD (lineText line)) := by
      cases stale with
      | none => exact each.1
      | some text => exact held text rfl
    rw [linesRead, List.forall_mem_cons]
    exact ⟨here, ih (heldBehind fun _ => here) each.2⟩

theorem wireEnd (lines : List Bytes) (left : Nat) :
    (wire (lines ++ [[]])).length + left = (wire lines).length + (2 + left) := by
  simp [wire, crlf, Nat.add_assoc]

theorem linesReadEnd {left : Nat} {stale : Option Bytes} {lines : List Bytes}
    (first : lines = [] → (stale.isSome ↔ 2 + left ∈ cuts)) (held : ∀ text ∈ stale, text ≠ [])
    (full : ∀ line ∈ lines, lineText line ≠ []) :
    ∃ last, linesRead cuts left stale (lines ++ [[]]) = linesRead cuts (2 + left) stale lines ++ [last] ∧
      (last = [] ↔ 2 + left ∉ cuts) := by
  induction lines generalizing stale with
  | nil =>
    refine ⟨stale.getD (lineText []), rfl, ?_⟩
    rw [← first rfl]
    cases stale with
    | none => simp [lineText, cString]
    | some text => simpa using held text rfl
  | cons line lines ih =>
    rw [List.forall_mem_cons] at full
    have here : stale.getD (lineText line) ≠ [] := by
      cases stale with
      | none => exact full.1
      | some text => exact held text rfl
    rw [List.cons_append, linesRead, linesRead, wireEnd]
    have next : lines = [] → ((if (wire lines).length + (2 + left) ∈ cuts
        then some (stale.getD (lineText line)) else none).isSome ↔ 2 + left ∈ cuts) := by
      rintro rfl
      simp [wire]
    obtain ⟨last, same, ends⟩ := ih next (heldBehind fun _ => here) full.2
    exact ⟨last, by rw [same, List.cons_append], ends⟩

theorem firstMap {line : Bytes} {h : RequestHead} (parsed : parseRequestLine .fresh line = (true, h)) :
    h.mapHeader = ∅ := by
  unfold parseRequestLine at parsed
  split at parsed
  · cases parsed
  · simp only at parsed
    split at parsed
    · cases parsed
    · split at parsed
      · cases parsed
      · cases parsed
        rfl

theorem sentLines (q : CompleteRequest) : ∃ h, parseRequestLine .fresh (lineText q.requestLine) = (true, h) ∧
    readHead h (q.headers.map lineText ++ [[]]) = some q.head := by
  have sent := q.reads
  rw [List.cons_append, List.map_cons, headOf] at sent
  rcases parsed : parseRequestLine .fresh (lineText q.requestLine) with ⟨_ | _, h⟩
  · rw [parsed] at sent
    cases sent
  · rw [parsed] at sent
    exact ⟨h, rfl, by simpa [lineText, cString] using sent⟩

theorem sameMap {h first second : RequestHead} {texts sent : List Bytes} (empty : h.mapHeader = ∅)
    (full : ∀ text ∈ texts, text ≠ []) (sentFull : ∀ text ∈ sent, text ≠ [])
    (read : readHead h (texts ++ [[]]) = some first) (sentRead : readHead h (sent ++ [[]]) = some second) :
    first.mapHeader = second.mapHeader ↔ ∀ key, lastValue key texts = lastValue key sent := by
  have values (key : Bytes) : first.mapHeader[key]? = lastValue key texts := by
    rw [readHeadValues full read, empty]
    simp
  have sentValues (key : Bytes) : second.mapHeader[key]? = lastValue key sent := by
    rw [readHeadValues sentFull sentRead, empty]
    simp
  constructor
  · intro same key
    rw [← values, ← sentValues, same]
  · intro same
    refine Std.ExtTreeMap.ext_getElem? fun key => ?_
    rw [values, sentValues, same]

theorem asReadSome (q : CompleteRequest) (unended : 2 + q.body.length ∉ cuts) :
    (∀ text ∈ headersAsRead q cuts, (field text).isSome) ↔
      ((wire q.headers).length + (2 + q.body.length) ∈ cuts → colon ∈ lineText q.requestLine) := by
  obtain ⟨h, _, sent⟩ := sentLines q
  have sentSome : ∀ text ∈ q.headers.map lineText, (field text).isSome :=
    (readHeadSome (by simpa using q.full)).mp (Option.isSome_of_eq_some sent)
  constructor
  · intro all behind
    rw [headersAsRead, if_pos behind] at all
    rw [← fieldSome]
    cases headers : q.headers with
    | nil =>
      rw [headers] at behind
      exact absurd (by simpa [wire] using behind) unended
    | cons line lines =>
      rw [headers, linesRead] at all
      exact all _ List.mem_cons_self
  · intro splits
    exact linesReadAll (heldBehind fun behind => (fieldSome _).mpr (splits behind)) (by simpa using sentSome)

theorem headKeptIff (q : CompleteRequest) (cuts : List Nat) :
    ((headOf (linesRead cuts q.body.length none (q.requestLine :: q.headers ++ [[]]))).map RequestHead.mapHeader =
      some q.head.mapHeader) ↔ HeadKept q cuts := by
  obtain ⟨h, parsed, sent⟩ := sentLines q
  have notEmpty : lineText q.requestLine ≠ [] := by
    intro empty
    rw [empty] at parsed
    cases parsed
  rw [List.cons_append, linesRead, Option.getD_none, headOf, parsed, wireEnd]
  simp only
  generalize behind : (if (wire q.headers).length + (2 + q.body.length) ∈ cuts
    then some (lineText q.requestLine) else none) = stale
  have held : ∀ text ∈ stale, text ≠ [] := by
    rw [← behind]
    exact heldBehind fun _ => notEmpty
  have asRead : headersAsRead q cuts = linesRead cuts (2 + q.body.length) stale q.headers := by
    rw [headersAsRead, behind]
  have full : ∀ text ∈ headersAsRead q cuts, text ≠ [] := by
    rw [asRead]
    exact linesReadAll held q.full
  have first : q.headers = [] → (stale.isSome ↔ 2 + q.body.length ∈ cuts) := by
    intro none
    rw [← behind, none]
    simp [wire]
  obtain ⟨last, lines, ends⟩ := linesReadEnd first held q.full
  rw [lines, ← asRead]
  by_cases unended : 2 + q.body.length ∈ cuts
  · rw [readHeadOpen full fun empty => ends.mp empty unended]
    exact iff_of_false (by simp) fun kept => kept.ends unended
  · rw [ends.mpr unended]
    have reads := (readHeadSome (h := h) full).trans (asReadSome q unended)
    cases read : readHead h (headersAsRead q cuts ++ [[]]) with
    | none =>
      rw [read] at reads
      exact iff_of_false (by simp) fun kept => nomatch reads.mpr kept.splits
    | some first =>
      rw [read] at reads
      rw [Option.map_some, Option.some.injEq, sameMap (firstMap parsed) full (by simpa using q.full) read sent]
      exact ⟨fun values => ⟨unended, reads.mp rfl, values⟩, fun kept => kept.values⟩

/- What the server sees of a request: the decision, m_sMethod and the other fields, the
body, and which chunks had not come by then. -/
structure Outcome where
  state : HttpState
  method : Bytes
  path : Bytes
  mapHeader : HeaderMap
  keepAlive : Bool
  body : Bytes
  later : List Bytes

def outcome (result : HttpState × Request × List Bytes) : Outcome :=
  ⟨result.1, result.2.1.method, result.2.1.path, result.2.1.mapHeader, result.2.1.keepAlive,
    peekRawData result.2.1, result.2.2⟩

def SameAsWhole (q : CompleteRequest) (chunks : List Bytes) : Prop :=
  outcome (serve .fresh chunks) = outcome (serve .fresh [q.raw])

theorem acceptedOutcome (q : CompleteRequest) (result : HttpState × Request × List Bytes) :
    Accepted q result ↔ outcome result =
      ⟨.ok, q.head.method, q.head.path, q.head.mapHeader, q.head.keepAlive, q.body, []⟩ := by
  rw [outcome, Outcome.mk.injEq]
  exact ⟨fun accepted => ⟨accepted.state, accepted.method, accepted.path, accepted.mapHeader, accepted.keepAlive,
    accepted.body, accepted.arrived⟩, fun ⟨state, method, path, mapHeader, keepAlive, body, arrived⟩ =>
    ⟨state, arrived, method, path, mapHeader, keepAlive, body⟩⟩

theorem linesInOne (left : Nat) (lines : List Bytes) : linesRead [0] left none lines = lines.map lineText := by
  induction lines with
  | nil => rfl
  | cons line lines ih =>
    rw [linesRead, Option.getD_none, List.map_cons]
    cases lines with
    | nil => rfl
    | cons next lines =>
      rw [if_neg (by simp [wireCons, crlf]), ih]

theorem wholeAccepted (q : CompleteRequest) : Accepted q (serve .fresh [q.raw]) := by
  refine (acceptedIff q (by simp) ?_).mpr ⟨?_, ?_⟩
  · simp [CompleteRequest.raw, wireCons, crlf]
  · change ((headOf (linesRead [0] _ _ _)).map _) = _
    rw [linesInOne, q.reads]
    rfl
  · intro behind
    have empty : q.body = [] := List.eq_nil_of_length_eq_zero (by simpa [boundaries, marks] using behind)
    simp [empty, boundaries, marks]

theorem fragmentationIff (q : CompleteRequest) {chunks : List Bytes} (whole : chunks.flatten = q.raw)
    (visible : [] ∉ chunks) :
    SameAsWhole q chunks ↔ HeadKept q (boundaries chunks) ∧ BodyKept q (boundaries chunks) := by
  rw [SameAsWhole, (acceptedOutcome q _).mp (wholeAccepted q), ← acceptedOutcome, acceptedIff q whole visible,
    headKeptIff]

def upload : CompleteRequest where
  requestLine := bytes "POST / HTTP/1.1"
  headers := [bytes "Content-Length: 2"]
  body := bytes "ab"
  head := ⟨bytes "POST", bytes "/", bytes "1.1", [], (∅ : HeaderMap).insert (bytes "Content-Length") (bytes "2"),
    1, 1, 2, true⟩
  plain := by decide
  full := by decide
  reads := rfl
  length := by decide
  fits := by decide

theorem uploadKept : SameAsWhole upload
    [bytes "POST / HT", bytes "TP/1.1\r", bytes "\nContent-Length: 2\r\n\r\na", bytes "b"] :=
  (fragmentationIff upload (by decide) (by decide)).mpr
    ⟨⟨by decide, by decide, fun key => congrArg (lastValue key) (by decide)⟩, fun behind => absurd behind (by decide)⟩

theorem uploadLost :
    ¬ SameAsWhole upload [bytes "POST / HTTP/1.1\r\n", bytes "Content-Length: 2\r\n\r\nab"] ∧
    ¬ SameAsWhole upload [bytes "POST / HTTP/1.1\r\nContent-Length: 2\r\n\r\n", bytes "ab"] := by
  simp only [SameAsWhole, (acceptedOutcome upload _).mp (wholeAccepted upload), ← acceptedOutcome]
  rw [acceptedIff upload (by decide) (by decide), acceptedIff upload (by decide) (by decide), headKeptIff, headKeptIff]
  refine ⟨fun same => ?_, fun same => ?_⟩
  · exact absurd (same.1.splits (by decide)) (by decide)
  · exact absurd ((same.2 (by decide)).1 97 (by decide)) (by decide)

end Kept
end Uco.WholeRequest
