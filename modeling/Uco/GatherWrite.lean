import Uco.FileResponse
import Uco.StaticPath

/-! The writev phase of HttpConnection::Write: the header and the content of a response, offered
as one or two iovecs until advance_iov has passed them all. -/
namespace Uco.GatherWrite
open Interleaving Sendfile FileResponse StaticPath

section Model

inductive Region where
  | header
  | content
  deriving DecidableEq, Repr

structure Iovec where
  region : Region
  base : ℕ
  len : ℕ
  deriving DecidableEq, Repr

/- cached is whether m_pCache is set; the status line makes the header non-empty. -/
structure HttpResponse where
  method : Bytes
  header : Buffer
  content : Buffer
  cached : Bool
  headerPlaced : header.Placed
  contentPlaced : content.Placed
  headerSome : header.readableBytes ≠ 0

namespace HttpResponse

def buffer (r : HttpResponse) : Region → Buffer
  | .header => r.header
  | .content => r.content

def readable (r : HttpResponse) (region : Region) : Iovec :=
  ⟨region,(r.buffer region).readPosition,(r.buffer region).readableBytes⟩

def setUp (r : HttpResponse) : List Iovec × Bool :=
  if httpMethodStr2Enum r.method = .head then ([r.readable .header],false)
  else if r.cached then ([r.readable .header],true)
  else if r.content.readableBytes ≠ 0 then ([r.readable .header,r.readable .content],false)
  else ([r.readable .header],false)

def memory (r : HttpResponse) (v : Iovec) : Bytes := ((r.buffer v.region).vecBuffer.drop v.base).take v.len

end HttpResponse

def Iovec.adjusted (v : Iovec) (written : ℕ) : Iovec := {v with base := v.base + written, len := v.len - written}

structure Cursor where
  iov : List Iovec
  position : ℕ
  iovcnt : ℕ
  deriving DecidableEq, Repr

def advanceLoop (iov : List Iovec) (position : ℕ) : ℕ → ℕ → Option Cursor
  | 0,_ => some ⟨iov,position,0⟩
  | iovcnt + 1,0 => some ⟨iov,position,iovcnt + 1⟩
  | iovcnt + 1,written + 1 => do
    let v ← iov[position]?
    if v.len ≤ written + 1 then advanceLoop iov (position + 1) iovcnt (written + 1 - v.len)
    else some ⟨iov.set position (v.adjusted (written + 1)),position,iovcnt + 1⟩

def advanceIov (c : Cursor) (written : ℕ) : Option (Cursor × Bool) :=
  (advanceLoop c.iov c.position c.iovcnt written).map fun c => (c,decide (c.iovcnt > 0))

structure Result where
  ret : Int
  dr : ℕ
  deriving DecidableEq, Repr

inductive Stage where
  | sending
  | finished
  | returnedFalse
  | outside
  deriving DecidableEq, Repr

structure Writev where
  stage : Stage
  cursor : Cursor
  ts : Time
  sent : Bytes
  deriving DecidableEq, Repr

variable (r : HttpResponse)

def offered (c : Cursor) : Bytes := ((c.iov.drop c.position).take c.iovcnt).flatMap r.memory

def ready (ts : Time) : Writev := ⟨.sending,⟨r.setUp.1,0,r.setUp.1.length⟩,ts,[]⟩

def returned (s : Writev) (a : Result) : Writev :=
  let ts := advanceTs s.ts a.dr
  let s := {s with ts := ts, sent := s.sent ++ (offered r s.cursor).take a.ret.toNat}
  if ts = ⟨0,0⟩ then {s with stage := .returnedFalse}
  else if a.ret = -ECANCELED then s
  else if a.ret < 0 then {s with stage := .returnedFalse}
  else match advanceIov s.cursor a.ret.toNat with
    | none => {s with stage := .outside}
    | some (cursor,_) => {s with cursor := cursor}

inductive Writes : Writev → Writev → Prop where
  | call {s} (a : Result) (here : s.stage = .sending) (more : s.cursor.iovcnt > 0)
      (atMost : a.ret ≤ (offered r s.cursor).length) : Writes s (returned r s a)
  | finish {s} (here : s.stage = .sending) (all : ¬s.cursor.iovcnt > 0) : Writes s {s with stage := .finished}

end Model

section Purpose

def HttpResponse.payload (r : HttpResponse) : Bytes :=
  if httpMethodStr2Enum r.method = .head ∨ r.cached then r.header.unread else r.header.unread ++ r.content.unread

structure Sound (r : HttpResponse) (c : Cursor) : Prop where
  count : c.position + c.iovcnt = c.iov.length
  inside : ∀ v ∈ c.iov, v.base + v.len ≤ (r.buffer v.region).vecBuffer.length
  some' : ∀ v ∈ c.iov.drop c.position, v.len ≠ 0

structure Complete (r : HttpResponse) (s : Writev) : Prop where
  sound : Sound r s.cursor
  size : s.cursor.iov.length = r.setUp.1.length
  never : s.stage ≠ .outside
  part : s.sent <+: r.payload
  rest : s.stage = .sending → s.sent ++ offered r s.cursor = r.payload
  all : s.stage = .finished → s.sent = r.payload

end Purpose

section Advance
variable {r : HttpResponse} {iov : List Iovec} {position iovcnt written : ℕ}

theorem memoryLength {v : Iovec} (inside : v.base + v.len ≤ (r.buffer v.region).vecBuffer.length) :
    (r.memory v).length = v.len := by
  rw [HttpResponse.memory, List.length_take, List.length_drop]
  omega

theorem memoryAdjusted (v : Iovec) (written : ℕ) : r.memory (v.adjusted written) = (r.memory v).drop written := by
  rw [HttpResponse.memory, HttpResponse.memory, List.drop_take, List.drop_drop]
  rfl

theorem offeredAll {c : Cursor} (count : c.position + c.iovcnt = c.iov.length) :
    offered r c = (c.iov.drop c.position).flatMap r.memory := by
  rw [offered, List.take_of_length_le]
  rw [List.length_drop]
  omega

theorem setFront (within : position < iov.length) (v : Iovec) :
    (iov.set position v).drop position = v :: iov.drop (position + 1) := by
  rw [List.drop_eq_getElem_cons (by rwa [List.length_set]), List.getElem_set_self, List.drop_set,
    if_pos (Nat.lt_succ_self position)]

theorem soundNext (sound : Sound r ⟨iov,position,iovcnt + 1⟩) : Sound r ⟨iov,position + 1,iovcnt⟩ := by
  obtain ⟨count,inside,some'⟩ := sound
  refine ⟨?_,inside,fun v mem => some' v ?_⟩
  · simp only at count ⊢
    omega
  · rw [← List.drop_drop] at mem
    exact List.mem_of_mem_drop mem

theorem soundAdjusted (sound : Sound r ⟨iov,position,iovcnt + 1⟩) (within : position < iov.length)
    (part : written < iov[position].len) :
    Sound r ⟨iov.set position (iov[position].adjusted written),position,iovcnt + 1⟩ := by
  obtain ⟨count,inside,some'⟩ := sound
  refine ⟨by rwa [List.length_set],fun v mem => ?_,?_⟩
  · rcases List.mem_or_eq_of_mem_set mem with old | rfl
    · exact inside v old
    · have fits := inside iov[position] (List.getElem_mem within)
      simp only [Iovec.adjusted]
      omega
  · simp only
    rw [setFront within]
    refine List.forall_mem_cons.mpr ⟨?_,fun v mem => some' v ?_⟩
    · simp only [Iovec.adjusted]
      omega
    · rw [List.drop_eq_getElem_cons within]
      exact List.mem_cons_of_mem _ mem

theorem offeredFront (sound : Sound r ⟨iov,position,iovcnt + 1⟩) (within : position < iov.length) :
    offered r ⟨iov,position,iovcnt + 1⟩ = r.memory iov[position] ++ offered r ⟨iov,position + 1,iovcnt⟩ := by
  rw [offeredAll sound.count, offeredAll (soundNext sound).count, List.drop_eq_getElem_cons within, List.flatMap_cons]

theorem loopDrops (sound : Sound r ⟨iov,position,iovcnt⟩)
    (atMost : written ≤ (offered r ⟨iov,position,iovcnt⟩).length) :
    ∃ c, advanceLoop iov position iovcnt written = some c ∧ Sound r c ∧ c.iov.length = iov.length ∧
      offered r c = (offered r ⟨iov,position,iovcnt⟩).drop written := by
  induction iovcnt generalizing position written with
  | zero =>
    have nothing : offered r ⟨iov,position,0⟩ = [] := by rw [offered, List.take_zero, List.flatMap_nil]
    exact ⟨_,rfl,sound,rfl,by rw [nothing, List.drop_nil]⟩
  | succ iovcnt ih =>
    cases written with
    | zero => exact ⟨_,rfl,sound,rfl,rfl⟩
    | succ written =>
      have count := sound.count
      simp only at count
      have within : position < iov.length := by omega
      have length := memoryLength (sound.inside iov[position] (List.getElem_mem within))
      rw [offeredFront sound within] at atMost ⊢
      rw [advanceLoop, List.getElem?_eq_getElem within]
      by_cases whole : iov[position].len ≤ written + 1
      · rw [List.length_append, length] at atMost
        have less : written + 1 - iov[position].len ≤ (offered r ⟨iov,position + 1,iovcnt⟩).length := by omega
        obtain ⟨c,ended,kept,same,rest⟩ := ih (soundNext sound) less
        refine ⟨c,?_,kept,same,?_⟩
        · simp only [bind, Option.bind, if_pos whole, ended]
        · have passed : (r.memory iov[position]).drop (written + 1) = [] := List.drop_eq_nil_of_le (by omega)
          rw [rest, List.drop_append, passed, length, List.nil_append]
      · have moved := soundAdjusted sound within (not_le.mp whole)
        refine ⟨_,by simp only [bind, Option.bind, if_neg whole],moved,List.length_set,?_⟩
        rw [offeredAll moved.count]
        simp only
        rw [setFront within, List.flatMap_cons, memoryAdjusted, offeredAll (soundNext sound).count,
          List.drop_append_of_le_length (by omega)]

theorem advanceDrops {c : Cursor} (sound : Sound r c) (atMost : written ≤ (offered r c).length) :
    ∃ d, advanceIov c written = some (d,decide (d.iovcnt > 0)) ∧ Sound r d ∧ d.iov.length = c.iov.length ∧
      offered r d = (offered r c).drop written := by
  obtain ⟨d,ended,kept,same,rest⟩ := loopDrops sound atMost
  exact ⟨d,by rw [advanceIov, ended, Option.map_some],kept,same,rest⟩

end Advance

section Runs
variable {r : HttpResponse} {ts : Time} {s t : Writev} {a : Result}

theorem readableMemory (region : Region) : r.memory (r.readable region) = (r.buffer region).unread := by
  rw [HttpResponse.memory, Buffer.unread, List.drop_take]
  rfl

theorem placed (r : HttpResponse) (region : Region) : (r.buffer region).Placed := by
  cases region with
  | header => exact r.headerPlaced
  | content => exact r.contentPlaced

theorem readableInside (region : Region) : (r.readable region).base + (r.readable region).len ≤
    (r.buffer (r.readable region).region).vecBuffer.length := by
  obtain ⟨ordered,inside⟩ := placed r region
  simp only [HttpResponse.readable, Buffer.readableBytes]
  omega

theorem setUpPayload (r : HttpResponse) : r.setUp.1.flatMap r.memory = r.payload := by
  have header : r.memory (r.readable .header) = r.header.unread := readableMemory .header
  have content : r.memory (r.readable .content) = r.content.unread := readableMemory .content
  rw [HttpResponse.setUp, HttpResponse.payload]
  by_cases head : httpMethodStr2Enum r.method = .head
  · rw [if_pos head, if_pos (.inl head), List.flatMap_singleton, header]
  · rw [if_neg head]
    by_cases cached : r.cached
    · rw [if_pos cached, if_pos (.inr cached), List.flatMap_singleton, header]
    · rw [if_neg cached, if_neg (not_or.mpr ⟨head,cached⟩)]
      by_cases more : r.content.readableBytes ≠ 0
      · rw [if_pos more, List.flatMap_cons, List.flatMap_singleton, header, content]
      · have empty : r.content.unread = [] :=
          List.eq_nil_of_length_eq_zero (by rw [Buffer.unreadLength r.contentPlaced, not_not.mp more])
        rw [if_neg more, List.flatMap_singleton, header, empty, List.append_nil]

theorem setUpSome (r : HttpResponse) : r.setUp.1.length ≤ 2 ∧
    ∀ v ∈ r.setUp.1, ∃ region, v = r.readable region ∧ v.len ≠ 0 := by
  have header : ∃ region, r.readable .header = r.readable region ∧ (r.readable .header).len ≠ 0 :=
    ⟨.header,rfl,r.headerSome⟩
  rw [HttpResponse.setUp]
  split
  · exact ⟨Nat.le_succ _,List.forall_mem_singleton.mpr header⟩
  · split
    · exact ⟨Nat.le_succ _,List.forall_mem_singleton.mpr header⟩
    · split
      · rename_i more
        exact ⟨Nat.le_refl _,List.forall_mem_cons.mpr ⟨header,List.forall_mem_singleton.mpr ⟨.content,rfl,more⟩⟩⟩
      · exact ⟨Nat.le_succ _,List.forall_mem_singleton.mpr header⟩

theorem readyComplete (r : HttpResponse) (ts : Time) : Complete r (ready r ts) := by
  have sound : Sound r (ready r ts).cursor := by
    refine ⟨Nat.zero_add _,fun v mem => ?_,fun v mem => ?_⟩
    · obtain ⟨region,rfl,-⟩ := (setUpSome r).2 v mem
      exact readableInside region
    · obtain ⟨region,-,some'⟩ := (setUpSome r).2 v mem
      exact some'
  refine ⟨sound,rfl,nofun,List.nil_prefix,fun _ => ?_,nofun⟩
  rw [offeredAll sound.count]
  exact setUpPayload r

theorem returnedComplete (old : Complete r s) (here : s.stage = .sending)
    (atMost : a.ret ≤ (offered r s.cursor).length) : Complete r (returned r s a) := by
  have rest := old.rest here
  have part : s.sent ++ (offered r s.cursor).take a.ret.toNat <+: r.payload := by
    rw [← rest]
    exact (List.prefix_append_right_inj _).mpr (List.take_prefix _ _)
  rw [returned]
  simp only
  split
  · exact ⟨old.sound,old.size,nofun,part,nofun,nofun⟩
  · split
    · rename_i cancelled
      have none' : (offered r s.cursor).take a.ret.toNat = [] := by
        rw [cancelled]
        rfl
      rw [none', List.append_nil]
      exact ⟨old.sound,old.size,old.never,old.part,old.rest,old.all⟩
    · split
      · exact ⟨old.sound,old.size,nofun,part,nofun,nofun⟩
      · have counted : a.ret.toNat ≤ (offered r s.cursor).length := by omega
        obtain ⟨c,ended,sound,same,dropped⟩ := advanceDrops old.sound counted
        rw [ended]
        refine ⟨sound,same.trans old.size,old.never,part,fun _ => ?_,fun finished => ?_⟩
        · simp only
          rw [dropped, List.append_assoc, List.take_append_drop, rest]
        · exact absurd (here.symm.trans finished) nofun

theorem writesComplete (old : Complete r s) (taken : Writes r s t) : Complete r t := by
  cases taken with
  | call a here more atMost => exact returnedComplete old here atMost
  | finish here all =>
    have rest := old.rest here
    rw [offered, Nat.eq_zero_of_not_pos all, List.take_zero, List.flatMap_nil, List.append_nil] at rest
    exact ⟨old.sound,old.size,nofun,old.part,nofun,fun _ => rest⟩

theorem runComplete (reached : Reachable (Writes r) (ready r ts) s) : Complete r s :=
  reachableInvariant (Complete r) (readyComplete r ts) (fun _ _ => writesComplete) reached

/- The writev phase sends the payload once, and its cursor stays in the array. -/
theorem sentOnce (reached : Reachable (Writes r) (ready r ts) s) :
    (s.stage = .finished → s.sent = r.payload) ∧ s.sent <+: r.payload ∧ s.stage ≠ .outside ∧
      s.cursor.position + s.cursor.iovcnt = r.setUp.1.length := by
  have complete := runComplete reached
  exact ⟨complete.all,complete.part,complete.never,complete.sound.count.trans complete.size⟩

def twoBuffers : HttpResponse where
  method := bytes "GET"
  header := ⟨[1,2,3,0],0,3⟩
  content := ⟨[9,4,5],1,3⟩
  cached := false
  headerPlaced := ⟨by decide,by decide⟩
  contentPlaced := ⟨by decide,by decide⟩
  headerSome := by decide

theorem shortWrites : ∃ s, Reachable (Writes twoBuffers) (ready twoBuffers ⟨1,0⟩) s ∧ s.stage = .finished ∧
    s.sent = [1,2,3,4,5] := by
  have r0 : Reachable (Writes twoBuffers) (ready twoBuffers ⟨1,0⟩) (ready twoBuffers ⟨1,0⟩) := .refl
  have r1 := r0.tail (.call ⟨3,0⟩ rfl (by decide) (by decide))
  have r2 := r1.tail (.call ⟨-125,0⟩ (by decide) (by decide) (by decide))
  have r3 := r2.tail (.call ⟨1,0⟩ (by decide) (by decide) (by decide))
  have r4 := r3.tail (.call ⟨1,0⟩ (by decide) (by decide) (by decide))
  have r5 := r4.tail (.finish (by decide) (by decide))
  refine ⟨_,r5,rfl,?_⟩
  rw [(sentOnce r5).1 rfl]
  decide

end Runs

end Uco.GatherWrite
