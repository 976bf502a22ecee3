import Uco.WholeRequest

/-! ServeHttpClient: the requests of one connection are read, answered and followed by the
next one while the connection is kept alive. What the handlers and the socket do is given
for every request; the reads are the chunks. -/
namespace Uco.KeepAlive
open HttpRequest Fragmentation WholeRequest

/- How often the handlers retrieve the body, whether they leave the response's keep-alive as
the request has it, and whether the response is written. -/
structure Handling where
  bodyReads : Nat
  keepsAlive : Bool
  written : Bool
  deriving DecidableEq, Repr

/- A decided request: what Parse returned and left, the chunks not yet read, and the request
object the connection goes on with. -/
structure Turn where
  state : HttpState
  request : Request
  later : List Bytes
  next : Option Request

section Model

def retrieveBody (r : Request) : Request := { r with buffer := r.buffer.retrieve r.contentLength.toNat }

def reset (r : Request) : Request :=
  { RequestHead.fresh with
    curLine := []
    readOffset := -1
    state := .start
    buffer := r.buffer.reset }

def write (keepAliveCount reqCount : Nat) (h : Handling) (state : HttpState) (r : Request) : Option Request :=
  if h.written ∧ state = .ok ∧ r.keepAlive ∧ h.keepsAlive ∧ reqCount + 1 < keepAliveCount then
    some (reset (retrieveBody^[h.bodyReads] r))
  else none

variable (keepAliveCount : Nat) (handle : Nat → Handling)

def serveClient (reqCount : Nat) (r : Request) : List Bytes → List Turn
  | [] => []
  | chunk :: rest =>
    match parse (receive r chunk) with
    | (.incomplete, r) => serveClient reqCount r rest
    | (state, r) =>
      match write keepAliveCount reqCount (handle reqCount) state r with
      | some next => ⟨state, r, rest, some next⟩ :: serveClient (reqCount + 1) next rest
      | none => [⟨state, r, rest, none⟩]

def stream (qs : List CompleteRequest) : Bytes := qs.flatMap CompleteRequest.raw

def Keeps (extra : Bytes) (later : List Bytes) (next : Request) : Prop :=
  ∃ came, came ++ later.flatten = extra ∧ came <+: next.buffer.unread

def Lossless : List CompleteRequest → List Turn → Prop
  | [], turns => turns = []
  | _ :: _, [] => False
  | q :: qs, turn :: turns =>
    Taken q (stream qs) (turn.state, turn.request, turn.later) ∧
      match turn.next with
      | some next => Keeps (stream qs) turn.later next ∧ Lossless qs turns
      | none => turns = []

def staysOpen (reqCount : Nat) (q : CompleteRequest) : Prop :=
  (handle reqCount).written ∧ q.head.keepAlive ∧ (handle reqCount).keepsAlive ∧ reqCount + 1 < keepAliveCount

instance (reqCount : Nat) (q : CompleteRequest) : Decidable (staysOpen keepAliveCount handle reqCount q) :=
  inferInstanceAs (Decidable (_ ∧ _))

def cutsIn (extra : Bytes) (chunks : List Bytes) : List Nat :=
  (boundaries chunks).filterMap fun n => if extra.length ≤ n then some (n - extra.length) else none

/- Every request survives the boundaries within it, and where the connection is kept alive
behind it, no read brings its end together with bytes of the next one. -/
def Unsplit : Nat → List CompleteRequest → List Bytes → Prop
  | _, [], _ => True
  | reqCount, q :: qs, chunks =>
    HeadKept q (cutsIn (stream qs) chunks) ∧ BodyKept q (cutsIn (stream qs) chunks) ∧
      (staysOpen keepAliveCount handle reqCount q →
        ∃ own later, chunks = own ++ later ∧ own.flatten = q.raw ∧ Unsplit (reqCount + 1) qs later)

def Fits : Nat → List CompleteRequest → Prop
  | _, [] => True
  | reqCount, q :: qs =>
    if staysOpen keepAliveCount handle reqCount q then Fits (reqCount + 1) qs
    else (q.raw ++ stream qs).length ≤ int32Max

end Model

section Serve

theorem memCutsIn {extra : Bytes} {chunks : List Bytes} (n : Nat) :
    n ∈ cutsIn extra chunks ↔ n + extra.length ∈ boundaries chunks := by
  simp only [cutsIn, List.mem_filterMap, Option.ite_none_right_eq_some, Option.some.injEq]
  constructor
  · rintro ⟨m, mark, enough, rfl⟩
    rwa [Nat.sub_add_cancel enough]
  · intro mark
    exact ⟨_, mark, Nat.le_add_left .., Nat.add_sub_cancel ..⟩

theorem serveAppend (r : Request) (own later : List Bytes) : serve r (own ++ later) =
    match serve r own with
    | (.incomplete, r', _) => serve r' later
    | (state, r', rest) => (state, r', rest ++ later) := by
  induction own generalizing r with
  | nil => rfl
  | cons chunk rest ih =>
    rw [List.cons_append, serve, serve]
    rcases parse (receive r chunk) with ⟨_ | _ | _, r'⟩
    · exact ih r'
    · rfl
    · rfl

theorem serveShorter {r : Request} {chunks : List Bytes} (decided : (serve r chunks).1 ≠ .incomplete) :
    (serve r chunks).2.2.length < chunks.length := by
  induction chunks generalizing r with
  | nil => exact absurd rfl decided
  | cons chunk rest ih =>
    rw [serve] at decided ⊢
    rcases parsed : parse (receive r chunk) with ⟨_ | _ | _, r'⟩
    · simp only [parsed] at decided
      exact Nat.lt_succ_of_lt (ih decided)
    · exact Nat.lt_succ_self _
    · exact Nat.lt_succ_self _

theorem serveClientTurn (keepAliveCount : Nat) (handle : Nat → Handling) (reqCount : Nat) (r : Request)
    (chunks : List Bytes) : serveClient keepAliveCount handle reqCount r chunks =
    match serve r chunks with
    | (.incomplete, _, _) => []
    | (state, r', later) =>
      match write keepAliveCount reqCount (handle reqCount) state r' with
      | some next => ⟨state, r', later, some next⟩ :: serveClient keepAliveCount handle (reqCount + 1) next later
      | none => [⟨state, r', later, none⟩] := by
  induction chunks generalizing r with
  | nil => rfl
  | cons chunk rest ih =>
    rw [serveClient, serve]
    rcases parse (receive r chunk) with ⟨_ | _ | _, r'⟩
    · exact ih r'
    · rfl
    · rfl

theorem serveOwn {r r' : Request} {state : HttpState} {own later : List Bytes} (decided : state ≠ .incomplete)
    (served : serve r (own ++ later) = (state, r', later)) : serve r own = (state, r', []) := by
  have split := serveAppend r own later
  rw [served] at split
  rcases first : serve r own with ⟨_ | _ | _, r'', rest⟩
  · simp only [first] at split
    have shorter : (serve r'' later).2.2.length < later.length := serveShorter (by rw [← split]; exact decided)
    rw [← split] at shorter
    exact absurd shorter (Nat.lt_irrefl _)
  all_goals
    simp only [first, Prod.mk.injEq] at split
    obtain ⟨rfl, rfl, same⟩ := split
    rw [List.self_eq_append_left.mp same]

theorem parseLooped {r : Request} (valid : Buffer.Valid r.buffer) (open' : r.state ≠ .finish) :
    Looped r (parse r) := by
  unfold parse
  cases state : r.state with
  | start =>
    rw [if_pos rfl]
    obtain ⟨looped, -⟩ := parseLoopLooped (r := { r with state := .requestLine }) valid (.inl rfl)
    exact ⟨looped.begun, looped.valid, looped.size, looped.feeds, looped.done, looped.open'⟩
  | requestLine =>
    rw [if_neg nofun]
    exact (parseLoopLooped valid (.inl state)).1
  | header =>
    rw [if_neg nofun]
    exact (parseLoopLooped valid (.inr state)).1
  | body =>
    rw [if_neg nofun, parseLoopBody state]
    exact parseBodyLooped state valid
  | finish => exact absurd state open'

theorem serveValid {r : Request} {chunks : List Bytes} (valid : Buffer.Valid r.buffer) (open' : r.state ≠ .finish)
    (fits : r.buffer.unread.length + chunks.flatten.length ≤ int32Max) : Buffer.Valid (serve r chunks).2.1.buffer := by
  induction chunks generalizing r with
  | nil => exact valid
  | cons chunk rest ih =>
    simp only [List.flatten_cons, List.length_append] at fits
    obtain ⟨received, unread⟩ := receiveAppends valid chunk (by omega)
    have looped := parseLooped (r := receive r chunk) received open'
    rw [serve]
    rcases parsed : parse (receive r chunk) with ⟨_ | _ | _, r'⟩
    · rw [parsed] at looped
      have size : r'.buffer.unread.length ≤ _ := looped.size
      rw [unread, List.length_append] at size
      exact ih looped.valid (looped.open' rfl) (by omega)
    · rw [parsed] at looped
      exact looped.valid
    · rw [parsed] at looped
      exact looped.valid

theorem resetIdle {r : Request} (valid : Buffer.Valid r.buffer) (reads : Nat) : Idle (reset (retrieveBody^[reads] r)) := by
  have kept : Buffer.Valid (retrieveBody^[reads] r).buffer := by
    induction reads with
    | zero => exact valid
    | succ n ih =>
      rw [Function.iterate_succ_apply']
      exact Buffer.retrieveValid ih _
  exact ⟨rfl, rfl, rfl, Buffer.resetValid kept, Buffer.resetUnread _⟩

end Serve

section Turns
variable {keepAliveCount : Nat} {handle : Nat → Handling} {q : CompleteRequest} {extra : Bytes} {r : Request}
  {chunks own later : List Bytes}

theorem marksAppend (own : List Bytes) (n : Nat) : n + later.flatten.length ∈ marks (own ++ later) ↔ n ∈ marks own := by
  induction own with
  | nil =>
    simp only [List.nil_append, marks, List.mem_singleton]
    constructor
    · intro mark
      have := marksBelow mark
      omega
    · rintro rfl
      simpa using marksHere later
  | cons chunk rest ih =>
    simp only [List.cons_append, marks, List.mem_cons, ih, List.flatten_cons, List.flatten_append, List.length_append]
    refine or_congr_left ⟨fun same => ?_, fun same => ?_⟩ <;> omega

theorem ownTaken (idle : Idle r) (whole : own.flatten = q.raw) (sent : later.flatten = extra) (visible : [] ∉ own ++ later) :
    Taken q [] (serve r own) ↔ HeadKept q (cutsIn extra (own ++ later)) ∧ BodyKept q (cutsIn extra (own ++ later)) := by
  have fits : (q.raw ++ []).length ≤ int32Max := by simpa [CompleteRequest.raw] using q.fits
  cases own with
  | nil =>
    have size := congrArg List.length whole
    simp [CompleteRequest.raw, wireCons, crlf] at size
  | cons chunk rest =>
    have same (n : Nat) : n ∈ cutsIn extra (chunk :: rest ++ later) ↔ n + ([] : Bytes).length ∈ boundaries (chunk :: rest) := by
      rw [memCutsIn, ← sent]
      exact marksAppend rest n
    rw [takenIff q idle (by simpa using whole) fits (fun inside => visible (List.mem_append_left _ inside)) same, headKeptIff]

theorem lastTaken (idle : Idle r) (whole : chunks.flatten = q.raw ++ extra) (fits : (q.raw ++ extra).length ≤ int32Max)
    (visible : [] ∉ chunks) :
    Taken q extra (serve r chunks) ↔ HeadKept q (cutsIn extra chunks) ∧ BodyKept q (cutsIn extra chunks) := by
  rw [takenIff q idle whole fits visible (fun n => memCutsIn n), headKeptIff]

theorem takenOwn {r' : Request} (sent : later.flatten = extra) :
    Taken q extra (.ok, r', later) ↔ Taken q [] (.ok, r', []) := by
  refine ⟨fun taken => ?_, fun taken => ?_⟩
  · exact ⟨taken.state, taken.method, taken.path, taken.mapHeader, taken.keepAlive, taken.body, [], rfl, List.nil_suffix⟩
  · exact ⟨taken.state, taken.method, taken.path, taken.mapHeader, taken.keepAlive, taken.body, [], sent, List.nil_suffix⟩

theorem writeTaken (keepAliveCount : Nat) (handle : Nat → Handling) {result : HttpState × Request × List Bytes} (taken : Taken q extra result) (reqCount : Nat) :
    write keepAliveCount reqCount (handle reqCount) result.1 result.2.1 =
      if staysOpen keepAliveCount handle reqCount q then
        some (reset (retrieveBody^[(handle reqCount).bodyReads] result.2.1)) else none := by
  rw [write, taken.state, taken.keepAlive]
  refine if_congr ?_ rfl rfl
  simp only [staysOpen, true_and]

theorem keepsReset : Keeps extra later (reset r) ↔ later.flatten = extra := by
  have empty : (reset r).buffer.unread = [] := Buffer.resetUnread _
  constructor
  · rintro ⟨came, all, kept⟩
    rw [empty, List.prefix_nil] at kept
    simpa [kept] using all
  · exact fun same => ⟨[], same, List.nil_prefix⟩

theorem losslessTurn (reqCount : Nat) (qs : List CompleteRequest) :
    Lossless (q :: qs) (serveClient keepAliveCount handle reqCount r chunks) ↔
      Taken q (stream qs) (serve r chunks) ∧
        (staysOpen keepAliveCount handle reqCount q → (serve r chunks).2.2.flatten = stream qs ∧
          Lossless qs (serveClient keepAliveCount handle (reqCount + 1)
            (reset (retrieveBody^[(handle reqCount).bodyReads] (serve r chunks).2.1)) (serve r chunks).2.2)) := by
  rw [serveClientTurn]
  rcases served : serve r chunks with ⟨_ | _ | _, r', later⟩
  · exact iff_of_false id fun both => nomatch both.1.state
  · by_cases taken : Taken q (stream qs) (.ok, r', later)
    · have written := writeTaken keepAliveCount handle taken reqCount
      simp only at written ⊢
      rw [written]
      by_cases stays : staysOpen keepAliveCount handle reqCount q
      · simp only [stays, if_true, Lossless, keepsReset, forall_const]
      · simp only [stays, if_false, Lossless, and_true, false_implies]
    · refine iff_of_false ?_ fun both => taken both.1
      intro lossless
      cases next : write keepAliveCount reqCount (handle reqCount) .ok r' with
      | none =>
        simp only [next, Lossless] at lossless
        exact taken lossless.1
      | some r'' =>
        simp only [next, Lossless] at lossless
        exact taken lossless.1
  · refine iff_of_false ?_ fun both => nomatch both.1.state
    simp only [write, reduceCtorEq, false_and, and_false, if_false, Lossless]
    exact fun both => nomatch both.1.state

theorem ownIdle {result : HttpState × Request × List Bytes} (idle : Idle r) (whole : own.flatten = q.raw)
    (served : serve r own = result) (reads : Nat) : Idle (reset (retrieveBody^[reads] result.2.1)) := by
  have fits := q.fits
  rw [← CompleteRequest.raw, ← whole] at fits
  subst served
  refine resetIdle (serveValid idle.valid (by simp [idle.state]) ?_) reads
  simpa [idle.unread] using fits

end Turns

section Connection
variable {keepAliveCount : Nat} {handle : Nat → Handling}

theorem losslessFrom {qs : List CompleteRequest} {reqCount : Nat} {r : Request} {chunks : List Bytes} (idle : Idle r)
    (whole : chunks.flatten = stream qs) (visible : [] ∉ chunks) (fits : Fits keepAliveCount handle reqCount qs) :
    Lossless qs (serveClient keepAliveCount handle reqCount r chunks) ↔
      Unsplit keepAliveCount handle reqCount qs chunks := by
  induction qs generalizing reqCount r chunks with
  | nil =>
    have none : chunks = [] := by
      refine List.eq_nil_iff_forall_not_mem.mpr fun chunk inside => ?_
      obtain rfl := List.flatten_eq_nil_iff.mp whole chunk inside
      exact visible inside
    simp [none, serveClient, Lossless, Unsplit]
  | cons q qs ih =>
    have all : chunks.flatten = q.raw ++ stream qs := whole
    rw [losslessTurn, Unsplit]
    by_cases stays : staysOpen keepAliveCount handle reqCount q
    · rw [Fits, if_pos stays] at fits
      simp only [stays, forall_const]
      constructor
      · rintro ⟨taken, sent, lossless⟩
        obtain ⟨own, parts⟩ := serveLater r chunks
        rcases served : serve r chunks with ⟨state, r', later⟩
        rw [served] at taken sent lossless parts
        obtain rfl : state = .ok := taken.state
        subst parts
        have ownSent : own.flatten = q.raw := by
          rw [List.flatten_append, sent] at all
          exact List.append_cancel_right all
        have ownServed : serve r own = (.ok, r', []) := serveOwn nofun served
        have ownTook := (takenOwn sent).mp taken
        rw [← ownServed, ownTaken idle ownSent sent visible] at ownTook
        have next := ownIdle idle ownSent ownServed
        refine ⟨ownTook.1, ownTook.2, own, later, rfl, ownSent, ?_⟩
        exact (ih (next _) sent (fun inside => visible (List.mem_append_right _ inside)) fits).mp lossless
      · rintro ⟨head, body, own, later, rfl, ownSent, unsplit⟩
        have sent : later.flatten = stream qs := by
          rw [List.flatten_append, ownSent] at all
          exact List.append_cancel_left all
        have ownVisible : [] ∉ own := fun inside => visible (List.mem_append_left _ inside)
        have ownTook := (ownTaken idle ownSent sent visible).mpr ⟨head, body⟩
        have arrived := ((takenAccepted ownVisible).mp ownTook).arrived
        rcases ownServed : serve r own with ⟨state, r', rest⟩
        rw [ownServed] at ownTook arrived
        obtain rfl : state = .ok := ownTook.state
        obtain rfl : rest = [] := arrived
        have served : serve r (own ++ later) = (.ok, r', later) := by
          rw [serveAppend, ownServed]
          rfl
        rw [served]
        refine ⟨(takenOwn sent).mpr ownTook, sent, ?_⟩
        exact (ih (ownIdle idle ownSent ownServed _) sent (fun inside => visible (List.mem_append_right _ inside)) fits).mpr unsplit
    · rw [Fits, if_neg stays] at fits
      simp only [stays, false_implies, and_true]
      exact lastTaken idle all fits visible

/- The requests parsed on a connection are the ones sent, and no byte received between two
of them is lost, exactly when every request survives the boundaries within it and every
request behind which the connection is kept alive ends with a read. -/
theorem losslessIff (keepAliveCount : Nat) (handle : Nat → Handling) {qs : List CompleteRequest} {chunks : List Bytes}
    (whole : chunks.flatten = stream qs) (visible : [] ∉ chunks) (fits : Fits keepAliveCount handle 0 qs) :
    Lossless qs (serveClient keepAliveCount handle 0 .fresh chunks) ↔ Unsplit keepAliveCount handle 0 qs chunks :=
  losslessFrom idleFresh whole visible fits

def answers (_ : Nat) : Handling := ⟨1, true, true⟩

theorem uploadsKept : Lossless [upload, upload] (serveClient 100 answers 0 .fresh
    [bytes "POST / HTTP/1.1\r\nContent-Length: 2\r\n\r\na", bytes "b", upload.raw]) := by
  have stays (n : Nat) (early : n + 1 < 100) : staysOpen 100 answers n upload := ⟨rfl, rfl, rfl, early⟩
  have kept (cuts : List Nat) (late : cuts = [1, 0] ∨ cuts = [0]) : HeadKept upload cuts ∧ BodyKept upload cuts := by
    obtain rfl | rfl := late
    all_goals
      exact ⟨⟨by decide, by decide, fun key => congrArg (lastValue key) (by decide)⟩, fun behind => absurd behind (by decide)⟩
  refine (losslessIff 100 answers (by decide) (by decide) (by simp [Fits, stays])).mpr ?_
  obtain ⟨head, body⟩ := kept _ (.inl rfl)
  obtain ⟨lastHead, lastBody⟩ := kept _ (.inr rfl)
  exact ⟨head, body, fun _ => ⟨[bytes "POST / HTTP/1.1\r\nContent-Length: 2\r\n\r\na", bytes "b"], [upload.raw], rfl, by decide,
    lastHead, lastBody, fun _ => ⟨[upload.raw], [], rfl, by decide, trivial⟩⟩⟩

theorem uploadDropped : ¬ Lossless [upload, upload] (serveClient 100 answers 0 .fresh [upload.raw ++ upload.raw]) := by
  have stays : staysOpen 100 answers 0 upload := ⟨rfl, rfl, rfl, by decide⟩
  have fits : Fits 100 answers 0 [upload, upload] := by simp [Fits, staysOpen, answers, upload]
  rw [losslessFrom idleFresh (by decide) (by decide) fits]
  rintro ⟨-, -, split⟩
  obtain ⟨own, later, parts, sent, -⟩ := split stays
  have size := congrArg List.length sent
  cases own with
  | nil => exact absurd size (by decide)
  | cons chunk rest =>
    obtain ⟨rfl, -⟩ := List.cons.inj parts
    have some : 0 < upload.raw.length := by decide
    simp only [List.flatten_cons, List.length_append] at size
    omega

end Connection
end Uco.KeepAlive
