import Uco.Scheduler

/-! One thread's io_uring under thread_co_env::schedule: the entries of the submission
queue, the ones the kernel holds, and the timeout requests timer_refresh keeps among
them. Coroutine code between a resume and its return is arbitrary: it takes entries,
sleeps and cleans up after sleeps in any order. -/
namespace Uco.TimerArm
open Interleaving TimerHeap Scheduler

def queueEntries : ℕ := 8192

inductive Entry where
  | io
  | sync
  | cancel (userData : ℕ)
  | timeout (userData : ℕ) (deadline : Int)
  deriving DecidableEq, Repr

def isTimeout : Entry → Bool
  | .timeout _ _ => true
  | _ => false

def isSync (e : Entry) : Bool := decide (e = .sync)

/- The read of sync_fd is the one entry that io_event_count does not count. -/
def isCounted (e : Entry) : Bool := !isSync e

structure Ring where
  sq : List Entry
  kernel : List Entry
  asked : List ℕ
  counters : Counters

def Ring.requests (r : Ring) : List Entry := r.sq ++ r.kernel

def Ring.room (r : Ring) : Bool := decide (r.sq.length < queueEntries)

def Ring.getSqe (r : Ring) (e : Entry) : Ring :=
  {r with sq := if r.room then r.sq ++ [e] else r.sq, counters := r.counters.getSqe r.room}

/- io_uring_prep_cancel64 for timer_armed_user_data, where an entry is left for it. -/
def Ring.cancelArmed (r : Ring) : Ring :=
  {r.getSqe (.cancel r.counters.armedUserData) with
    asked := if r.room then r.counters.armedUserData :: r.asked else r.asked}

def Ring.setPending (r : Ring) (pending : Bool) : Ring :=
  {r with counters := {r.counters with armPending := pending}}

def Ring.armTimeout (r : Ring) (top : Int) : Ring :=
  let ud := (r.counters.gen + 1) * 256 + 2
  let taken := r.getSqe (.timeout ud top)
  if r.room then
    {taken with counters := {taken.counters with gen := r.counters.gen + 1, armedUserData := ud, armedDeadline := top,
                                                 inflight := r.counters.inflight + 1, armPending := false}}
  else taken.setPending true

def Ring.refresh {N : Type*} (r : Ring) (t : Timers N) : Ring :=
  match t.heap.head? with
  | none => if 0 < r.counters.inflight then r.cancelArmed.setPending !r.room else r.setPending false
  | some n =>
    if 0 < r.counters.inflight ∧ r.counters.armedDeadline ≤ t.deadline n ∧ r.counters.armPending = false then r else
    (if 0 < r.counters.inflight then r.cancelArmed else r).armTimeout (t.deadline n)

/- REGISTER_READ_SYNCFD; it asks to be retried when there is no room. -/
def Ring.register (r : Ring) : Ring :=
  let taken := r.getSqe .sync
  if r.room then {taken with counters := {taken.counters with ioEvents := taken.counters.ioEvents - 1}} else taken

/- One completion leaves the kernel and is counted out of io_event_count. -/
def Ring.complete (r : Ring) (rest : List Entry) : Ring :=
  {r with kernel := rest, counters := {r.counters with ioEvents := r.counters.ioEvents - 1}}

def Ring.submit (r : Ring) : Ring := {r with sq := [], kernel := r.kernel ++ r.sq}

structure Env (N : Type*) where
  timers : Timers N
  ring : Ring
  retryRegister : Bool
  synced : ℕ
  pc : Pc N

section Moves
variable {N : Type*} [DecidableEq N]

def quiet (r : Ring) (synced : ℕ) : Prop :=
  r.counters.ioEvents = 0 ∧ r.counters.syncEvents = 0 ∧ r.counters.yields = 0 ∧ r.counters.sqes = 0 ∧ synced = 0

def timerActive (t : Timers N) (r : Ring) : Prop :=
  t.heap ≠ [] ∨ 0 < r.counters.inflight ∨ r.counters.armPending = true

/- Coroutine code; where no entry is left, the coroutine waits in wait_sqe_list. -/
inductive RunMove : Env N → Env N → Prop where
  | getSqe {t r b y ret} : RunMove ⟨t,r,b,y,.running ret⟩ ⟨t,r.getSqe .io,b,y,.running ret⟩
  | other {t r b y ret} (sync : Int) (yields sqes : ℕ) : RunMove ⟨t,r,b,y,.running ret⟩
      ⟨t,{r with counters := {r.counters with syncEvents := sync, yields := yields, sqes := sqes}},b,y,.running ret⟩
  | sleep {t r b y ret} (n : N) (deadline : Int) : RunMove ⟨t,r,b,y,.running ret⟩
      ⟨{t with deadline := Function.update t.deadline n deadline},r,b,y,.parking n ret⟩
  | push {t r b y n ret} (out : t.inHeap n = false) :
      RunMove ⟨t,r,b,y,.parking n ret⟩ ⟨t.push n,r.refresh (t.push n),b,y,.running ret⟩
  | pushFatal {t r b y n ret} (broken : t.inHeap n = true) :
      RunMove ⟨t,r,b,y,.parking n ret⟩ ⟨t,r,b,y,.fatal⟩
  | awake {t r b y ret} (n : N) (inside : t.inHeap n = true) :
      RunMove ⟨t,r,b,y,.running ret⟩ ⟨t.remove n,r.refresh (t.remove n),b,y,.running ret⟩
  | finish {t r b y ret} : RunMove ⟨t,r,b,y,.running ret⟩ ⟨t,r,b,y,ret.pc⟩

/- The arm of the timer and then the read of sync_fd are retried, just before the wait. -/
def retryArm (t : Timers N) (r : Ring) : Ring := if r.counters.armPending then r.refresh t else r

inductive LoopMove : Env N → Env N → Prop where
  | test {t r b y} (idle : quiet r y) : LoopMove ⟨t,r,b,y,.top⟩ ⟨t,r,b,y,.active⟩
  | busy {t r b y} (work : ¬quiet r y) : LoopMove ⟨t,r,b,y,.top⟩ ⟨t,r,b,y,.drainSqe⟩
  | stay {t r b y} (timer : timerActive t r) : LoopMove ⟨t,r,b,y,.active⟩ ⟨t,r.refresh t,b,y,.drainSqe⟩
  | exit {t r b y} (done : ¬timerActive t r) : LoopMove ⟨t,r,b,y,.active⟩ ⟨t,r,b,y,.exited⟩
  | sqe {t r b y left} (some : r.counters.sqes = left + 1) : LoopMove ⟨t,r,b,y,.drainSqe⟩
      ⟨t,{r with counters := {r.counters with sqes := left}},b,y,.running .sqeNext⟩
  | sqeNext {t r b y} : LoopMove ⟨t,r,b,y,.sqeNext⟩
      ⟨t,r,b,y,if r.counters.sqeFailed then .drainSync true else .drainSqe⟩
  | sqeEmpty {t r b y} (none : r.counters.sqes = 0) : LoopMove ⟨t,r,b,y,.drainSqe⟩ ⟨t,r,b,y,.drainSync false⟩
  | sync {t r b y noSqe} : LoopMove ⟨t,r,b,y + 1,.drainSync noSqe⟩ ⟨t,r,b,y,.running (.drainSync noSqe)⟩
  | syncEmpty {t r b noSqe} : LoopMove ⟨t,r,b,0,.drainSync noSqe⟩ ⟨t,r,b,0,.drainYield noSqe⟩
  | yield {t r b y noSqe left} (some : r.counters.yields = left + 1) : LoopMove ⟨t,r,b,y,.drainYield noSqe⟩
      ⟨t,{r with counters := {r.counters with yields := left}},b,y,.running (.drainYield noSqe)⟩
  | yieldEmpty {t r b y noSqe} (none : r.counters.yields = 0) :
      LoopMove ⟨t,r,b,y,.drainYield noSqe⟩ ⟨t,r,b,y,.drained noSqe⟩
  | again {t r b y noSqe} (work : ¬((r.counters.sqes = 0 ∨ noSqe = true) ∧ r.counters.yields = 0)) :
      LoopMove ⟨t,r,b,y,.drained noSqe⟩ ⟨t,r,b,y,.drainSqe⟩
  | drained {t r b y noSqe} (done : (r.counters.sqes = 0 ∨ noSqe = true) ∧ r.counters.yields = 0) :
      LoopMove ⟨t,r,b,y,.drained noSqe⟩ ⟨t,r,b,y,.arm⟩
  | retry {t r y} : LoopMove ⟨t,r,true,y,.arm⟩ ⟨t,(retryArm t r).register,!(retryArm t r).room,y,.wait⟩
  | noRetry {t r y} : LoopMove ⟨t,r,false,y,.arm⟩ ⟨t,retryArm t r,false,y,.wait⟩
  | noWait {t r b y} (none : r.counters.ioEvents ≤ 0) : LoopMove ⟨t,r,b,y,.wait⟩ ⟨t,r,b,y,.top⟩
  | wait {t r b y} (some : 0 < r.counters.ioEvents) : LoopMove ⟨t,r,b,y,.wait⟩ ⟨t,r.submit,b,y,.events⟩

/- The completions of what the kernel holds, in any order, and timer_on_fire. -/
inductive EventMove : Env N → Env N → Prop where
  | canceled {t r b y before after ud} (held : r.kernel = before ++ .cancel ud :: after) :
      EventMove ⟨t,r,b,y,.events⟩ ⟨t,r.complete (before ++ after),b,y,.events⟩
  | ignored {t r b y before after} (held : r.kernel = before ++ .io :: after) :
      EventMove ⟨t,r,b,y,.events⟩ ⟨t,r.complete (before ++ after),b,y,.events⟩
  | completion {t r b y before after} (held : r.kernel = before ++ .io :: after) :
      EventMove ⟨t,r,b,y,.events⟩ ⟨t,r.complete (before ++ after),b,y,.running .events⟩
  | notify {t r b y before after} (held : r.kernel = before ++ .sync :: after) : EventMove ⟨t,r,b,y,.events⟩
      ⟨t,{(r.complete (before ++ after)).register with
            counters := {(r.complete (before ++ after)).register.counters with
                         ioEvents := (r.complete (before ++ after)).register.counters.ioEvents + 1}},
        !r.room,y,.events⟩
  | timer {t r b y before after ud d} (now : Int) (held : r.kernel = before ++ .timeout ud d :: after) :
      EventMove ⟨t,r,b,y,.events⟩
        ⟨t,{r.complete (before ++ after) with
              counters := {(r.complete (before ++ after)).counters with inflight := r.counters.inflight - 1}},
          b,y,.fire now⟩
  | done {t r b y} : EventMove ⟨t,r,b,y,.events⟩ ⟨t,r,b,y,.top⟩
  | pop {t r b y now n} (front : t.heap.head? = some n) (due : t.deadline n ≤ now) :
      EventMove ⟨t,r,b,y,.fire now⟩ ⟨t.popFront n,r,b,y,.fired now n⟩
  | expire {t r b y now n} : EventMove ⟨t,r,b,y,.fired now n⟩ ⟨t,r,b,y,.running (.fire now)⟩
  | lost {t r b y now n} : EventMove ⟨t,r,b,y,.fired now n⟩ ⟨t,r,b,y,.fire now⟩
  | fired {t r b y now} (later : ∀ n, t.heap.head? = some n → now < t.deadline n) :
      EventMove ⟨t,r,b,y,.fire now⟩ ⟨t,r.refresh t,b,y,.events⟩

inductive ThreadMove : Env N → Env N → Prop where
  | run {e e'} (taken : RunMove e e') : ThreadMove e e'
  | loop {e e'} (taken : LoopMove e e') : ThreadMove e e'
  | event {e e'} (taken : EventMove e e') : ThreadMove e e'
  | post {t r b y pc} : ThreadMove ⟨t,r,b,y,pc⟩ ⟨t,r,b,y + 1,pc⟩

end Moves

/- thread_co_env::thread_co_env has submitted the read of sync_fd. -/
def start {N : Type*} (deadline : N → Int) (idx : N → ℕ) : Env N :=
  ⟨⟨[],deadline,idx,fun _ => false⟩,⟨[],[.sync],[],⟨0,0,0,0,false,0,false,0,0,0⟩⟩,false,0,.running .top⟩

section Counters

@[simp] theorem getSqeInflight (k : Counters) (ok : Bool) : (k.getSqe ok).inflight = k.inflight := by
  cases ok <;> rfl

@[simp] theorem getSqeGen (k : Counters) (ok : Bool) : (k.getSqe ok).gen = k.gen := by
  cases ok <;> rfl

@[simp] theorem getSqeUserData (k : Counters) (ok : Bool) : (k.getSqe ok).armedUserData = k.armedUserData := by
  cases ok <;> rfl

@[simp] theorem getSqeDeadline (k : Counters) (ok : Bool) : (k.getSqe ok).armedDeadline = k.armedDeadline := by
  cases ok <;> rfl

@[simp] theorem getSqeEvents (k : Counters) (ok : Bool) : (k.getSqe ok).ioEvents = k.ioEvents + if ok then 1 else 0 := by
  cases ok <;> simp [Counters.getSqe]

@[simp] theorem ringAsked (r : Ring) (e : Entry) : (r.getSqe e).asked = r.asked := rfl

@[simp] theorem ringCounters (r : Ring) (e : Entry) : (r.getSqe e).counters = r.counters.getSqe r.room := rfl

end Counters

section Requests

theorem memGetSqe (r : Ring) (e x : Entry) : x ∈ (r.getSqe e).requests ↔ x ∈ r.requests ∨ r.room = true ∧ x = e := by
  cases room : r.room <;> simp [Ring.getSqe, Ring.requests, room]
  tauto

theorem countGetSqe (p : Entry → Bool) (r : Ring) (e : Entry) : (r.getSqe e).requests.countP p =
    r.requests.countP p + if r.room = true ∧ p e = true then 1 else 0 := by
  cases room : r.room <;> simp [Ring.getSqe, Ring.requests, room, List.countP_cons]
  omega

theorem countComplete (p : Entry → Bool) {r : Ring} {e : Entry} {before after : List Entry}
    (held : r.kernel = before ++ e :: after) :
    r.requests.countP p = (r.complete (before ++ after)).requests.countP p + if p e = true then 1 else 0 := by
  simp only [Ring.requests, Ring.complete, held, List.countP_append, List.countP_cons]
  omega

theorem memComplete {r : Ring} {e x : Entry} {before after : List Entry} (held : r.kernel = before ++ e :: after)
    (left : x ∈ (r.complete (before ++ after)).requests) : x ∈ r.requests := by
  simp only [Ring.requests, Ring.complete, held, List.mem_append, List.mem_cons] at left ⊢
  tauto

end Requests

section Requested

/- io_event_count and timer_inflight count the requests, the queue holds no more than its
entries, and every timeout request but the last one armed was asked to be cancelled. -/
structure Invariant (r : Ring) (retryRegister : Bool) : Prop where
  fits : r.sq.length ≤ queueEntries
  inflight : r.counters.inflight = r.requests.countP isTimeout
  events : r.counters.ioEvents = r.requests.countP isCounted
  registered : r.requests.countP isSync + retryRegister.toNat = 1
  latest : ∀ ud d, .timeout ud d ∈ r.requests → ud ∈ r.asked ∨ ud = r.counters.armedUserData ∧ d = r.counters.armedDeadline

variable {r : Ring} {b : Bool}

theorem pendingInvariant (pending : Bool) (inv : Invariant r b) : Invariant (r.setPending pending) b :=
  ⟨inv.fits,inv.inflight,inv.events,inv.registered,inv.latest⟩

theorem getSqeFits (e : Entry) (fits : r.sq.length ≤ queueEntries) : (r.getSqe e).sq.length ≤ queueEntries := by
  cases room : r.room with
  | false => simpa [Ring.getSqe, room] using fits
  | true =>
    have := of_decide_eq_true room
    simp only [Ring.getSqe, room, if_true, List.length_append, List.length_singleton]
    omega

theorem getSqeInvariant (e : Entry) (notSync : isSync e = false) (notTimeout : isTimeout e = false)
    (inv : Invariant r b) : Invariant (r.getSqe e) b := by
  have counts : isCounted e = true := by simp [isCounted, notSync]
  refine ⟨getSqeFits e inv.fits,?_,?_,?_,fun ud d asks => ?_⟩
  · simp [countGetSqe, notTimeout, inv.inflight]
  · cases room : r.room <;> simp [countGetSqe, counts, room, inv.events]
  · simp [countGetSqe, notSync, inv.registered]
  · obtain old | ⟨-,same⟩ := (memGetSqe r e _).mp asks
    · simpa using inv.latest ud d old
    · simp [← same, isTimeout] at notTimeout

theorem cancelInvariant (inv : Invariant r b) : Invariant r.cancelArmed b := by
  have taken := getSqeInvariant (.cancel r.counters.armedUserData) rfl rfl inv
  refine ⟨taken.fits,taken.inflight,taken.events,taken.registered,fun ud d asks => ?_⟩
  refine (taken.latest ud d asks).imp_left (fun old => ?_)
  simp only [Ring.cancelArmed]
  split
  · exact .tail _ old
  · exact old

theorem cancelAsks (inv : Invariant r b) (room : r.room = true) {ud : ℕ} {d : Int}
    (asks : .timeout ud d ∈ r.cancelArmed.requests) : ud ∈ r.cancelArmed.asked := by
  have old : .timeout ud d ∈ r.requests := by
    obtain old | ⟨-,same⟩ := (memGetSqe r (.cancel _) _).mp asks
    · exact old
    · cases same
  simp only [Ring.cancelArmed, room, if_true, List.mem_cons]
  exact (inv.latest ud d old).symm.imp_left And.left

@[simp] theorem armRequests (r : Ring) (top : Int) : (r.armTimeout top).requests =
    (r.getSqe (.timeout ((r.counters.gen + 1) * 256 + 2) top)).requests := by
  unfold Ring.armTimeout
  split <;> rfl

theorem armInflight (r : Ring) (top : Int) :
    (r.armTimeout top).counters.inflight = r.counters.inflight + if r.room then 1 else 0 := by
  cases room : r.room <;> simp [Ring.armTimeout, Ring.setPending, room]

theorem armEvents (r : Ring) (top : Int) :
    (r.armTimeout top).counters.ioEvents = r.counters.ioEvents + if r.room then 1 else 0 := by
  cases room : r.room <;> simp [Ring.armTimeout, Ring.setPending, room]

theorem armInvariant (top : Int) (inv : Invariant r b)
    (replaces : r.room = true → ∀ ud d, .timeout ud d ∈ r.requests → ud ∈ r.asked) : Invariant (r.armTimeout top) b := by
  refine ⟨?_,?_,?_,?_,fun ud d asks => ?_⟩
  · have fits := getSqeFits (.timeout ((r.counters.gen + 1) * 256 + 2) top) inv.fits
    unfold Ring.armTimeout
    split <;> exact fits
  · rw [armInflight, armRequests, countGetSqe, inv.inflight]
    cases room : r.room <;> simp [isTimeout]
  · rw [armEvents, armRequests, countGetSqe, inv.events]
    cases room : r.room <;> simp [isCounted, isSync]
  · simp [countGetSqe, isSync, inv.registered]
  · rw [armRequests, memGetSqe] at asks
    cases room : r.room with
    | false =>
      have old := inv.latest ud d (asks.resolve_right (by simp [room]))
      simpa [Ring.armTimeout, Ring.setPending, Ring.getSqe, room] using old
    | true =>
      simp only [Ring.armTimeout, room, if_true]
      obtain old | ⟨-,same⟩ := asks
      · exact .inl (replaces room ud d old)
      · cases same
        exact .inr ⟨rfl,rfl⟩

def served (r : Ring) (top : Int) : Prop :=
  ∃ ud d, .timeout ud d ∈ r.requests ∧ (d ≤ top ∨ ud ∈ r.asked)

theorem requestedOf (inv : Invariant r b) (inflight : 0 < r.counters.inflight) : ∃ ud d, .timeout ud d ∈ r.requests := by
  have some : 0 < r.requests.countP isTimeout := by
    have := inv.inflight
    omega
  obtain ⟨e,inside,is⟩ := List.countP_pos_iff.mp some
  cases e with
  | timeout ud d => exact ⟨ud,d,inside⟩
  | _ => cases is

theorem armServes (r : Ring) (top : Int) (room : r.room = true) : served (r.armTimeout top) top := by
  refine ⟨(r.counters.gen + 1) * 256 + 2,top,?_,.inl (le_refl _)⟩
  rw [armRequests, memGetSqe]
  exact .inr ⟨room,rfl⟩

@[simp] theorem armAsked (r : Ring) (top : Int) : (r.armTimeout top).asked = r.asked := by
  unfold Ring.armTimeout
  split <;> rfl

theorem armKeeps {r : Ring} {e : Entry} (top : Int) (old : e ∈ r.requests) : e ∈ (r.armTimeout top).requests := by
  rw [armRequests, memGetSqe]
  exact .inl old

section Refresh
variable {N : Type*} {t : Timers N}

theorem refreshCases (r : Ring) (t : Timers N) :
    (t.heap.head? = none ∧ ∃ pending, r.refresh t = r.setPending pending ∨ r.refresh t = r.cancelArmed.setPending pending) ∨
    ∃ n, t.heap.head? = some n ∧
      (0 < r.counters.inflight ∧ r.counters.armedDeadline ≤ t.deadline n ∧ r.refresh t = r ∨
        0 < r.counters.inflight ∧ r.refresh t = r.cancelArmed.armTimeout (t.deadline n) ∨
        r.counters.inflight ≤ 0 ∧ r.refresh t = r.armTimeout (t.deadline n)) := by
  unfold Ring.refresh
  cases t.heap.head? with
  | none =>
    refine .inl ⟨rfl,?_⟩
    by_cases inflight : 0 < r.counters.inflight
    · exact ⟨!r.room,.inr (by simp [inflight])⟩
    · exact ⟨false,.inl (by simp [inflight])⟩
  | some n =>
    refine .inr ⟨n,rfl,?_⟩
    by_cases valid : 0 < r.counters.inflight ∧ r.counters.armedDeadline ≤ t.deadline n ∧ r.counters.armPending = false
    · exact .inl ⟨valid.1,valid.2.1,by simp [valid]⟩
    · simp only [valid, if_false]
      by_cases inflight : 0 < r.counters.inflight
      · exact .inr (.inl ⟨inflight,by simp [inflight]⟩)
      · exact .inr (.inr ⟨not_lt.mp inflight,by simp [inflight]⟩)

theorem noneRequested (inv : Invariant r b) (none : r.counters.inflight ≤ 0) (ud : ℕ) (d : Int) :
    .timeout ud d ∉ r.requests := by
  intro inside
  have some : 0 < r.requests.countP isTimeout := List.countP_pos_iff.mpr ⟨_,inside,rfl⟩
  have := inv.inflight
  omega

/- Where the queue is full, get_sqe fails and changes its flag only. -/
structure Refused (r r' : Ring) : Prop where
  sq : r'.sq = r.sq
  kernel : r'.kernel = r.kernel
  asked : r'.asked = r.asked

theorem Refused.room {r r' : Ring} (refused : Refused r r') : r'.room = r.room := by
  simp [Ring.room, refused.sq]

theorem Refused.requests {r r' : Ring} (refused : Refused r r') : r'.requests = r.requests := by
  simp [Ring.requests, refused.sq, refused.kernel]

theorem cancelRefused (full : r.room = false) : Refused r r.cancelArmed := by
  refine ⟨?_,rfl,?_⟩ <;> simp [Ring.cancelArmed, Ring.getSqe, full]

theorem armRefused (top : Int) (full : r.room = false) : Refused r (r.armTimeout top) := by
  refine ⟨?_,?_,?_⟩ <;> simp [Ring.armTimeout, Ring.setPending, Ring.getSqe, full]

theorem armRoom {top : Int} (armed : (r.armTimeout top).counters.armPending = false) : r.room = true := by
  cases own : r.room with
  | true => rfl
  | false => simp [Ring.armTimeout, Ring.setPending, own] at armed

theorem cancelRoom (room : r.cancelArmed.room = true) : r.room = true := by
  cases own : r.room with
  | true => rfl
  | false =>
    rw [(cancelRefused own).room, own] at room
    cases room

theorem refreshRefused (t : Timers N) (full : r.room = false) : Refused r (r.refresh t) := by
  have first := cancelRefused full
  obtain ⟨-,pending,same | same⟩ | ⟨n,-,⟨-,-,same⟩ | ⟨-,same⟩ | ⟨-,same⟩⟩ := refreshCases r t <;> rw [same]
  · exact ⟨rfl,rfl,rfl⟩
  · exact ⟨first.sq,first.kernel,first.asked⟩
  · exact ⟨rfl,rfl,rfl⟩
  · have second := armRefused (t.deadline n) (first.room.trans full)
    exact ⟨second.sq.trans first.sq,second.kernel.trans first.kernel,second.asked.trans first.asked⟩
  · exact armRefused _ full

theorem refreshInvariant (t : Timers N) (inv : Invariant r b) : Invariant (r.refresh t) b := by
  obtain ⟨-,pending,same | same⟩ | ⟨n,-,⟨-,-,same⟩ | ⟨-,same⟩ | ⟨none,same⟩⟩ := refreshCases r t <;> rw [same]
  · exact pendingInvariant pending inv
  · exact pendingInvariant pending (cancelInvariant inv)
  · exact inv
  · exact armInvariant _ (cancelInvariant inv) (fun room ud d asks => cancelAsks inv (cancelRoom room) asks)
  · exact armInvariant _ inv (fun _ ud d asks => (noneRequested inv none ud d asks).elim)

theorem refreshServes {n : N} (inv : Invariant r b) (front : t.heap.head? = some n)
    (found : r.room = true ∨ (r.refresh t).counters.armPending = false) : served (r.refresh t) (t.deadline n) := by
  obtain ⟨none,-⟩ | ⟨m,front',⟨inflight,due,same⟩ | ⟨inflight,same⟩ | ⟨-,same⟩⟩ := refreshCases r t
  · cases none.symm.trans front
  · cases Option.some.inj (front'.symm.trans front)
    obtain ⟨ud,d,asks⟩ := requestedOf inv inflight
    rw [same]
    refine ⟨ud,d,asks,?_⟩
    obtain asked | ⟨-,last⟩ := inv.latest ud d asks
    · exact .inr asked
    · exact .inl (last ▸ due)
  · cases Option.some.inj (front'.symm.trans front)
    have room : r.room = true := found.elim id (fun armed => cancelRoom (armRoom (same ▸ armed)))
    obtain ⟨ud,d,asks⟩ := requestedOf inv inflight
    have kept : .timeout ud d ∈ r.cancelArmed.requests := (memGetSqe r (.cancel _) _).mpr (.inl asks)
    rw [same]
    exact ⟨ud,d,armKeeps _ kept,.inr (by rw [armAsked]; exact cancelAsks inv room kept)⟩
  · cases Option.some.inj (front'.symm.trans front)
    have room : r.room = true := found.elim id (fun armed => armRoom (same ▸ armed))
    rw [same]
    exact armServes r _ room

end Refresh

section Completions
variable {before after : List Entry}

theorem registerInvariant (inv : Invariant r true) : Invariant r.register (!r.room) := by
  have taken := getSqeFits .sync inv.fits
  have sync := inv.registered
  have same : r.register.requests = (r.getSqe .sync).requests := by
    unfold Ring.register
    split <;> rfl
  refine ⟨?_,?_,?_,?_,fun ud d asks => ?_⟩
  · unfold Ring.register
    split <;> exact taken
  · rw [same, countGetSqe]
    cases room : r.room <;> simp [Ring.register, room, isTimeout, inv.inflight]
  · rw [same, countGetSqe]
    cases room : r.room <;> simp [Ring.register, room, isCounted, isSync, inv.events]
  · rw [same, countGetSqe]
    cases room : r.room <;> simp_all [isSync]
  · rw [same, memGetSqe] at asks
    have old := inv.latest ud d (asks.resolve_right nofun)
    cases room : r.room <;> simpa [Ring.register, room] using old

theorem completeInvariant {e : Entry} (notSync : isSync e = false) (notTimeout : isTimeout e = false)
    (held : r.kernel = before ++ e :: after) (inv : Invariant r b) : Invariant (r.complete (before ++ after)) b := by
  have counts : isCounted e = true := by simp [isCounted, notSync]
  have inflight := countComplete isTimeout held
  have events := countComplete isCounted held
  have sync := countComplete isSync held
  simp only [notTimeout, counts, notSync, if_true, Bool.false_eq_true, if_false] at inflight events sync
  refine ⟨inv.fits,?_,?_,?_,fun ud d asks => inv.latest ud d (memComplete held asks)⟩
  · exact inv.inflight.trans (by omega)
  · have := inv.events
    simp only [Ring.complete] at events ⊢
    omega
  · have := inv.registered
    omega

theorem notifySame (r : Ring) (rest : List Entry) :
    {(r.complete rest).register with
      counters := {(r.complete rest).register.counters with
                   ioEvents := (r.complete rest).register.counters.ioEvents + 1}} =
      ({r with kernel := rest} : Ring).register := by
  by_cases few : r.sq.length < queueEntries <;>
    simp [Ring.register, Ring.room, few, Ring.getSqe, Ring.complete, Counters.getSqe]

theorem notifyInvariant (held : r.kernel = before ++ .sync :: after) (inv : Invariant r b) :
    Invariant {r with kernel := before ++ after} true := by
  have inflight := countComplete isTimeout held
  have events := countComplete isCounted held
  have sync := countComplete isSync held
  simp only [isTimeout, isCounted, isSync, decide_true, Bool.not_true, Bool.false_eq_true, if_true, if_false,
    Nat.add_zero] at inflight events sync
  refine ⟨inv.fits,?_,?_,?_,fun ud d asks => inv.latest ud d (memComplete held asks)⟩
  · exact inv.inflight.trans (congrArg _ inflight)
  · exact inv.events.trans (congrArg _ events)
  · have := inv.registered
    have one : ({r with kernel := before ++ after} : Ring).requests = (r.complete (before ++ after)).requests := rfl
    rw [one]
    simp only [Bool.toNat_true] at this ⊢
    omega

theorem timerInvariant {ud : ℕ} {d : Int} (held : r.kernel = before ++ .timeout ud d :: after) (inv : Invariant r b) :
    Invariant {r.complete (before ++ after) with
      counters := {(r.complete (before ++ after)).counters with inflight := r.counters.inflight - 1}} b := by
  have inflight := countComplete isTimeout held
  have events := countComplete isCounted held
  have sync := countComplete isSync held
  simp only [isTimeout, isCounted, isSync, reduceCtorEq, decide_false, Bool.not_false, Bool.false_eq_true, if_true, if_false,
    Nat.add_zero] at inflight events sync
  refine ⟨inv.fits,?_,?_,?_,fun ud d asks => inv.latest ud d (memComplete held asks)⟩
  · have := inv.inflight
    simp only [Ring.complete, Ring.requests] at inflight this ⊢
    omega
  · have := inv.events
    simp only [Ring.complete, Ring.requests] at events this ⊢
    omega
  · have := inv.registered
    simp only [Ring.complete, Ring.requests] at sync this ⊢
    omega

theorem submitInvariant (inv : Invariant r b) : Invariant r.submit b := by
  have count (p : Entry → Bool) : r.submit.requests.countP p = r.requests.countP p := by
    simp only [Ring.requests, Ring.submit, List.nil_append, List.countP_append]
    omega
  refine ⟨Nat.zero_le _,?_,?_,?_,fun ud d asks => inv.latest ud d ?_⟩
  · rw [count]
    exact inv.inflight
  · rw [count]
    exact inv.events
  · rw [count]
    exact inv.registered
  · simp only [Ring.requests, Ring.submit, List.nil_append, List.mem_append] at asks ⊢
    exact asks.symm

end Completions
end Requested

section Runs
variable {N : Type*} [DecidableEq N]

/- Outside timer_on_fire and timer_push, every change of the heap was followed by a refresh. -/
def settled : Pc N → Prop
  | .fire _ | .fired _ _ | .running (.fire _) | .parking _ _ | .fatal => False
  | _ => True

def covered (t : Timers N) (r : Ring) : Prop :=
  r.counters.armPending = false → ∀ n, t.heap.head? = some n → served r (t.deadline n)

structure Kept (e : Env N) : Prop where
  ring : Invariant e.ring e.retryRegister
  covered : settled e.pc → covered e.timers e.ring

omit [DecidableEq N] in
theorem refreshKept {t : Timers N} {r : Ring} {b : Bool} {y : ℕ} {pc : Pc N} (inv : Invariant r b) :
    Kept ⟨t,r.refresh t,b,y,pc⟩ :=
  ⟨refreshInvariant t inv,fun _ armed _ front => refreshServes inv front (.inr armed)⟩

theorem servedKept {r r' : Ring} {top : Int} (served' : served r top)
    (requests : ∀ ud d, .timeout ud d ∈ r.requests → .timeout ud d ∈ r'.requests) (asked : r'.asked = r.asked) :
    served r' top := by
  obtain ⟨ud,d,asks,serves⟩ := served'
  exact ⟨ud,d,requests ud d asks,asked ▸ serves⟩

theorem runKept {e e' : Env N} (taken : RunMove e e') (kept : Kept e) : Kept e' := by
  obtain ⟨inv,cover⟩ := kept
  cases taken with
  | @getSqe t r b y ret =>
    refine ⟨getSqeInvariant .io rfl rfl inv,fun here armed n front => ?_⟩
    have pending : (r.getSqe .io).counters.armPending = r.counters.armPending := by
      cases room : r.room <;> simp [room, Counters.getSqe]
    exact servedKept (cover here (pending ▸ armed) n front) (fun ud d asks => (memGetSqe r .io _).mpr (.inl asks)) rfl
  | other => exact ⟨⟨inv.fits,inv.inflight,inv.events,inv.registered,inv.latest⟩,cover⟩
  | sleep => exact ⟨inv,by rintro ⟨⟩⟩
  | push => exact refreshKept inv
  | pushFatal => exact ⟨inv,by rintro ⟨⟩⟩
  | awake => exact refreshKept inv
  | @finish t r b y ret => exact ⟨inv,fun here => cover (by cases ret <;> exact here)⟩

omit [DecidableEq N] in
theorem retryArmKept {t : Timers N} {r : Ring} {b : Bool} (inv : Invariant r b) (cover : covered t r) :
    Invariant (retryArm t r) b ∧ covered t (retryArm t r) := by
  unfold retryArm
  split
  · exact ⟨refreshInvariant t inv,fun armed n front => refreshServes inv front (.inr armed)⟩
  · exact ⟨inv,cover⟩

theorem registerServed {r : Ring} {top : Int} (old : served r top) : served r.register top := by
  refine servedKept old (fun ud d asks => ?_) (by unfold Ring.register; split <;> rfl)
  have taken := (memGetSqe r .sync (.timeout ud d)).mpr (.inl asks)
  unfold Ring.register
  split <;> exact taken

theorem registerPending (r : Ring) : r.register.counters.armPending = r.counters.armPending := by
  cases room : r.room <;> simp [Ring.register, room, Counters.getSqe]

omit [DecidableEq N] in
theorem loopKept {e e' : Env N} (taken : LoopMove e e') (kept : Kept e) : Kept e' := by
  obtain ⟨inv,cover⟩ := kept
  cases taken with
  | test => exact ⟨inv,fun _ => cover trivial⟩
  | busy => exact ⟨inv,fun _ => cover trivial⟩
  | stay => exact refreshKept inv
  | exit => exact ⟨inv,fun _ => cover trivial⟩
  | sqe => exact ⟨⟨inv.fits,inv.inflight,inv.events,inv.registered,inv.latest⟩,fun _ => cover trivial⟩
  | sqeNext => exact ⟨inv,fun _ => cover trivial⟩
  | sqeEmpty => exact ⟨inv,fun _ => cover trivial⟩
  | sync => exact ⟨inv,fun _ => cover trivial⟩
  | syncEmpty => exact ⟨inv,fun _ => cover trivial⟩
  | yield => exact ⟨⟨inv.fits,inv.inflight,inv.events,inv.registered,inv.latest⟩,fun _ => cover trivial⟩
  | yieldEmpty => exact ⟨inv,fun _ => cover trivial⟩
  | again => exact ⟨inv,fun _ => cover trivial⟩
  | drained => exact ⟨inv,fun _ => cover trivial⟩
  | @retry t r y =>
    obtain ⟨inv,cover⟩ := retryArmKept inv (cover trivial)
    refine ⟨registerInvariant inv,fun _ armed n front => registerServed (cover ?_ n front)⟩
    exact (registerPending _).symm.trans armed
  | noRetry =>
    obtain ⟨inv,cover⟩ := retryArmKept inv (cover trivial)
    exact ⟨inv,fun _ => cover⟩
  | noWait => exact ⟨inv,fun _ => cover trivial⟩
  | @wait t r b y =>
    refine ⟨submitInvariant inv,fun _ armed n front => servedKept (cover trivial armed n front) (fun ud d asks => ?_) rfl⟩
    simp only [Ring.requests, Ring.submit, List.nil_append, List.mem_append] at asks ⊢
    exact asks.symm

theorem completeServed {r : Ring} {top : Int} {e : Entry} {before after : List Entry}
    (held : r.kernel = before ++ e :: after) (notTimeout : isTimeout e = false) (old : served r top) :
    served (r.complete (before ++ after)) top := by
  refine servedKept old (fun ud d asks => ?_) rfl
  simp only [Ring.requests, Ring.complete, held, List.mem_append, List.mem_cons] at asks ⊢
  rcases asks with queued | first | same | last
  · exact .inl queued
  · exact .inr (.inl first)
  · simp [← same, isTimeout] at notTimeout
  · exact .inr (.inr last)

theorem eventKept {e e' : Env N} (taken : EventMove e e') (kept : Kept e) : Kept e' := by
  obtain ⟨inv,cover⟩ := kept
  have completed {e : Entry} {t : Timers N} {r : Ring} {before after : List Entry} (held : r.kernel = before ++ e :: after)
      (notTimeout : isTimeout e = false) (cover : covered t r) : covered t (r.complete (before ++ after)) :=
    fun armed n front => completeServed held notTimeout (cover armed n front)
  cases taken with
  | canceled held => exact ⟨completeInvariant rfl rfl held inv,fun _ => completed held rfl (cover trivial)⟩
  | ignored held => exact ⟨completeInvariant rfl rfl held inv,fun _ => completed held rfl (cover trivial)⟩
  | completion held => exact ⟨completeInvariant rfl rfl held inv,fun _ => completed held rfl (cover trivial)⟩
  | @notify t r b y before after held =>
    rw [notifySame]
    have pending := registerPending {r with kernel := before ++ after}
    refine ⟨registerInvariant (notifyInvariant held inv),fun _ armed n front => registerServed ?_⟩
    exact completed held rfl (cover trivial) (pending.symm.trans armed) n front
  | timer now held => exact ⟨timerInvariant held inv,nofun⟩
  | done => exact ⟨inv,fun _ => cover trivial⟩
  | pop => exact ⟨inv,nofun⟩
  | expire => exact ⟨inv,nofun⟩
  | lost => exact ⟨inv,nofun⟩
  | fired => exact refreshKept inv

theorem moveKept {e e' : Env N} (kept : Kept e) (taken : ThreadMove e e') : Kept e' := by
  cases taken with
  | run taken => exact runKept taken kept
  | loop taken => exact loopKept taken kept
  | event taken => exact eventKept taken kept
  | post => exact ⟨kept.ring,kept.covered⟩

omit [DecidableEq N] in
theorem startKept (deadline : N → Int) (idx : N → ℕ) : Kept (start deadline idx) := by
  refine ⟨⟨Nat.zero_le _,rfl,rfl,rfl,fun ud d asks => ?_⟩,fun _ _ n front => ?_⟩
  · simp [start, Ring.requests] at asks
  · simp [start] at front

/- schedule() is about to call io_uring_submit_and_wait, the wait without a timeout. -/
def entersUntimed (e : Env N) : Prop := e.pc = .wait ∧ e.retryRegister = false ∧ 0 < e.ring.counters.ioEvents

/- It does so with a sleeper only when a timeout request will end the wait in time or was
asked to be cancelled; timer_inflight is the number of timeout requests. -/
def neverOversleeps (e : Env N) : Prop :=
  (entersUntimed e → ∀ n, e.timers.heap.head? = some n → served e.ring (e.timers.deadline n)) ∧
    e.ring.counters.inflight = e.ring.requests.countP isTimeout

/- A deferred arm is retried with an entry left, or with an earlier request serving the top.
While the registration is retried as well, the wait has a timeout. -/
def retryFits (e e' : Env N) : Prop :=
  e.pc = .arm → e'.pc = .wait → e.ring.counters.armPending = true → e.retryRegister = false →
    ∀ n, e.timers.heap.head? = some n → e.ring.sq.length < queueEntries ∨ served e.ring (e.timers.deadline n)

omit [DecidableEq N] in
theorem fullEvents {r : Ring} {b : Bool} (inv : Invariant r b) (full : r.room = false) : 0 < r.counters.ioEvents := by
  have size : ¬r.sq.length < queueEntries := of_decide_eq_false full
  have parts : r.requests.length = r.requests.countP isSync + r.requests.countP isCounted := by
    rw [show isCounted = fun e => !isSync e from rfl]
    simpa using List.length_eq_countP_add_countP isSync (l := r.requests)
  have whole : r.sq.length ≤ r.requests.length := by simp [Ring.requests]
  have events := inv.events
  have registered := inv.registered
  simp only [queueEntries] at size
  omega

omit [DecidableEq N] in
theorem retryArmServes {t : Timers N} {r : Ring} {b : Bool} {n : N} (inv : Invariant r b) (cover : covered t r)
    (front : t.heap.head? = some n) (fits : r.counters.armPending = true → r.room = true) :
    served (retryArm t r) (t.deadline n) := by
  unfold retryArm
  split
  next pending => exact refreshServes inv front (.inl (fits pending))
  next armed => exact cover (Bool.eq_false_of_not_eq_true armed) n front

omit [DecidableEq N] in
theorem retryArmRefused {t : Timers N} {r : Ring} (full : r.room = false) : Refused r (retryArm t r) := by
  unfold retryArm
  split
  · exact refreshRefused t full
  · exact ⟨rfl,rfl,rfl⟩

omit [DecidableEq N] in
theorem waitsUntimed {t : Timers N} {r : Ring} {y : ℕ} (kept : Kept ⟨t,r,false,y,.arm⟩) :
    neverOversleeps ⟨t,retryArm t r,false,y,.wait⟩ ↔ retryFits ⟨t,r,false,y,.arm⟩ ⟨t,retryArm t r,false,y,.wait⟩ := by
  have cover := kept.covered trivial
  have next := (retryArmKept kept.ring cover).1
  cases room : r.room with
  | true =>
    refine ⟨fun _ _ _ _ _ n _ => .inl (of_decide_eq_true room),fun _ => ⟨fun _ n front => ?_,next.inflight⟩⟩
    exact retryArmServes kept.ring cover front (fun _ => room)
  | false =>
    have refused := retryArmRefused (t := t) room
    have back {top : Int} : served (retryArm t r) top ↔ served r top := by
      rw [served, served, refused.requests, refused.asked]
    constructor
    · intro good _ _ _ _ n front
      exact .inr (back.mp (good.1 ⟨rfl,rfl,fullEvents next (refused.room.trans room)⟩ n front))
    · refine fun fits => ⟨fun _ n front => ?_,next.inflight⟩
      cases pending : r.counters.armPending with
      | true => exact back.mpr ((fits rfl rfl pending rfl n front).resolve_left (of_decide_eq_false room))
      | false => exact back.mpr (cover pending n front)

omit [DecidableEq N] in
theorem waitsTimed {t : Timers N} {r : Ring} {y : ℕ} (kept : Kept ⟨t,r,true,y,.arm⟩) :
    neverOversleeps ⟨t,(retryArm t r).register,!(retryArm t r).room,y,.wait⟩ := by
  have next := (retryArmKept kept.ring (kept.covered trivial)).1
  refine ⟨fun ⟨_,registered,_⟩ n front => registerServed ?_,(registerInvariant next).inflight⟩
  refine retryArmServes kept.ring (kept.covered trivial) front (fun _ => ?_)
  cases own : r.room with
  | true => rfl
  | false => simp [(retryArmRefused own).room, own] at registered

theorem stepOversleeps {e e' : Env N} (kept : Kept e) (taken : ThreadMove e e') (old : neverOversleeps e) :
    neverOversleeps e' ↔ retryFits e e' := by
  have next := moveKept kept taken
  by_cases waits : e'.pc = .wait
  · cases taken with
    | run taken =>
      cases taken with
      | @finish t r b y ret => cases ret <;> cases waits
      | _ => cases waits
    | loop taken =>
      cases taken with
      | retry => exact ⟨fun _ _ _ _ registers => (nomatch registers),fun _ => waitsTimed kept⟩
      | noRetry => exact waitsUntimed kept
      | sqeNext =>
        simp only at waits
        split at waits <;> cases waits
      | _ => cases waits
    | event taken => cases taken <;> cases waits
    | post =>
      refine ⟨fun _ here => ?_,fun _ => old⟩
      cases waits.symm.trans here
  · exact ⟨fun _ _ here => (waits here).elim,fun _ => ⟨fun enters => (waits enters.1).elim,next.ring.inflight⟩⟩

/- A run never blocks past its earliest sleeper exactly when every deferred arm fits. -/
theorem neverOversleepsIff {deadline : N → Int} {idx : N → ℕ} {run : List (Env N)}
    (chain : List.IsChain ThreadMove (start deadline idx :: run)) :
    (∀ e ∈ run, neverOversleeps e) ↔ List.IsChain retryFits (start deadline idx :: run) := by
  have always : ∀ {e : Env N}, Reachable ThreadMove (start deadline idx) e → Kept e :=
    reachableInvariant Kept (startKept deadline idx) (fun _ _ kept taken => moveKept kept taken)
  refine runGoodIff neverOversleeps (fun e e' reached old taken => stepOversleeps (always reached) taken old) .refl ?_ chain
  exact ⟨fun _ n front => by simp [start] at front,(startKept deadline idx).ring.inflight⟩

end Runs

section Sleeping

def outHeap : Timers Unit := ⟨[],Function.update (fun _ => 0) () 5,fun _ => 0,fun _ => false⟩
def inHeap : Timers Unit := outHeap.push ()

theorem inHeapFront : inHeap.heap.head? = some () := by simp [inHeap, outHeap, Timers.push, siftUp]

theorem inHeapDue : inHeap.deadline () = 5 := by simp [inHeap, outHeap, Timers.push, siftUp]

def armed : Ring := ⟨[.timeout 258 5],[.sync],[],⟨1,0,0,0,false,1,false,5,258,1⟩⟩

theorem armedRefresh : (start (fun _ => 0) (fun _ => 0) : Env Unit).ring.refresh inHeap = armed := by
  simp [Ring.refresh, inHeapFront, inHeapDue, start, armed, Ring.armTimeout, Ring.getSqe, Ring.room, queueEntries,
    Counters.getSqe]

def loopAt (r : Ring) (pc : Pc Unit) : Env Unit := ⟨inHeap,r,false,0,pc⟩

theorem passesLoop {r : Ring} (some : r.counters.ioEvents ≠ 0) (sqes : r.counters.sqes = 0) (yields : r.counters.yields = 0) :
    List.IsChain ThreadMove ([.running .top,.top,.drainSqe,.drainSync false,.drainYield false,.drained false,.arm].map (loopAt r)) := by
  refine .cons_cons (.run .finish) (.cons_cons (.loop (.busy fun idle => some idle.1)) ?_)
  refine .cons_cons (.loop (.sqeEmpty sqes)) (.cons_cons (.loop .syncEmpty) ?_)
  exact .cons_cons (.loop (.yieldEmpty yields)) (.cons_cons (.loop (.drained ⟨.inl sqes,yields⟩)) (.singleton _))

theorem armsAndWaits : neverOversleeps (loopAt armed .wait) := by
  have push : ThreadMove (⟨outHeap,(start (fun _ => 0) (fun _ => 0) : Env Unit).ring,false,0,.parking () .top⟩ : Env Unit)
      (loopAt armed (.running .top)) := armedRefresh ▸ .run (.push rfl)
  have arm : ThreadMove (loopAt armed .arm) (loopAt armed .wait) := .loop .noRetry
  have loop := (passesLoop (r := armed) (by decide) rfl rfl).append (.singleton (loopAt armed .wait)) (by simpa using arm)
  refine (neverOversleepsIff (.cons_cons (.run (.sleep () 5)) (.cons_cons push loop))).mpr ?_ _ (by simp)
  simp [retryFits, loopAt, start, armed]

def reads (k : ℕ) (failed pending : Bool) : Ring :=
  ⟨List.replicate k .io,[.sync],[],⟨k,0,0,0,failed,0,pending,0,0,0⟩⟩

theorem readsReached (k : ℕ) (few : k ≤ queueEntries) : Reachable ThreadMove (start (fun _ => 0) (fun _ => 0))
    (⟨(start (fun _ => 0) (fun _ => 0)).timers,reads k false false,false,0,.running .top⟩ : Env Unit) := by
  induction k with
  | zero => exact .refl
  | succ k ih =>
    have next : (reads k false false).getSqe .io = reads (k + 1) false false := by
      have room : k < queueEntries := few
      simp [Ring.getSqe, Ring.room, reads, room, Counters.getSqe, List.replicate_succ']
    exact (ih (Nat.le_of_succ_le few)).tail (next ▸ .run .getSqe)

theorem fullRefresh (failed pending : Bool) :
    (reads queueEntries failed pending).refresh inHeap = reads queueEntries true true := by
  simp [Ring.refresh, inHeapFront, reads, Ring.armTimeout, Ring.getSqe, Ring.room, Counters.getSqe, Ring.setPending]

theorem sleepsUnarmed : ∃ e : Env Unit, Reachable ThreadMove (start (fun _ => 0) (fun _ => 0)) e ∧ ¬neverOversleeps e := by
  have r1 := readsReached queueEntries (Nat.le_refl _)
  have push : ThreadMove (⟨outHeap,reads queueEntries false false,false,0,.parking () .top⟩ : Env Unit)
      (loopAt (reads queueEntries true true) (.running .top)) := fullRefresh false false ▸ .run (.push rfl)
  have r2 := (r1.tail (.run (.sleep () 5))).tail push
  have loop := passesLoop (r := reads queueEntries true true) (by decide) rfl rfl
  have r3 := r2.trans (List.relationReflTransGen_of_exists_isChain_cons _ loop (List.getLast_cons_cons ..))
  have wait : ThreadMove (loopAt (reads queueEntries true true) .arm) (loopAt (reads queueEntries true true) .wait) := by
    have same : retryArm inHeap (reads queueEntries true true) = reads queueEntries true true := fullRefresh true true
    have step : ThreadMove (loopAt (reads queueEntries true true) .arm)
        (loopAt (retryArm inHeap (reads queueEntries true true)) .wait) := .loop .noRetry
    rwa [same] at step
  refine ⟨_,r3.tail wait,fun good => ?_⟩
  obtain ⟨ud,d,asks,-⟩ := good.1 ⟨rfl,rfl,by decide⟩ () inHeapFront
  simp [loopAt, reads, Ring.requests] at asks

end Sleeping
end Uco.TimerArm
