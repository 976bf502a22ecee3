import Uco.Scheduler
import Mathlib.Data.Multiset.Count

/-! Coroutines that wait at synchronization objects, on any number of threads, each with its loop of
thread_co_env::schedule. The waiter lists of all objects are taken together, and a section under one
of their spin locks is one step. A waker pushes the nodes that it took onto the lists of their
threads, and only then writes to the descriptors of the threads other than its own. Whether a timer is
active, and what else the coroutines do, is left open. -/
namespace Uco.SyncWait
open Interleaving
open Scheduler (Ret)

section Model

inductive Node (T N : Type*) where
  | waiter (n : N)
  | sleeper (tid : T)
  deriving DecidableEq

/- Where a thread is. It runs coroutine code, whose node may be published but not yet counted, pushes
the nodes it took and writes to the descriptors it owes, takes a resumed coroutine back, or is in
schedule(). -/
inductive Pc (T N : Type*) where
  | code (published : Bool) (ret : Ret)
  | waking (nodes : List (Node T N)) (fds : Finset T) (published : Bool) (ret : Ret)
  | resumed (ret : Ret)
  | top
  | active
  | drainSqe
  | sqeNext
  | drainSync (noSqe : Bool)
  | drainYield (noSqe : Bool)
  | drained (noSqe : Bool)
  | arm
  | register
  | wait
  | blocked
  | polling
  | events
  | exited
  | fatal

/- `noticed`: the counter of the thread's sync_fd is not zero. `reading`: the read of sync_fd is in
the ring. `told`: that read has completed, and the thread has not seen it. For the statements only,
`asleep` holds the coroutines that have put their nodes into a waiter list and are not resumed, and
`late` the threads that have pushed a node onto their own list since they found it empty. -/
structure Shared (T N : Type*) where
  waiting : Multiset N
  tid : N → T
  asleep : Finset N
  syncList : T → List (Node T N)
  noticed : T → Bool
  reading : T → Bool
  told : T → Bool
  late : T → Bool

structure Env (T N : Type*) where
  ioEvents : Int
  syncEvents : Int
  yields : ℕ
  sqes : ℕ
  sqeFailed : Bool
  retryRegister : Bool
  pc : Pc T N

variable {T N : Type*}

def back : Ret → Pc T N
  | .top => .top
  | .sqeNext => .sqeNext
  | .drainSync b => .drainSync b
  | .drainYield b => .drainYield b
  | .events => .events
  | .fire _ => .events

def behind : Ret → Bool
  | .drainYield _ => true
  | _ => false

def home (g : Shared T N) : Node T N → T
  | .waiter n => g.tid n
  | .sleeper tid => tid

def Quiet (t : T) (g : Shared T N) (e : Env T N) : Prop :=
  e.ioEvents = 0 ∧ e.syncEvents = 0 ∧ e.yields = 0 ∧ e.sqes = 0 ∧ g.syncList t = []

inductive Local (t : T) (g : Shared T N) : Env T N → Env T N → Prop where
  | other {e p ret} (here : e.pc = .code p ret) (io : Int) (yields sqes : ℕ) (failed : Bool) :
      Local t g e {e with ioEvents := io, yields := yields, sqes := sqes, sqeFailed := failed}
  | finish {e ret} (here : e.pc = .code false ret) : Local t g e {e with pc := back ret}
  | suspend {e ret} (here : e.pc = .code true ret) :
      Local t g e {e with syncEvents := e.syncEvents + 1, pc := back ret}
  | awake {e ret} (here : e.pc = .resumed ret) :
      Local t g e {e with syncEvents := e.syncEvents - 1, pc := .code false ret}
  | rouse {e p ret} (here : e.pc = .code p ret) (tid : T) : Local t g e {e with pc := .waking [.sleeper tid] ∅ p ret}
  | woke {e p ret} (here : e.pc = .waking [] ∅ p ret) : Local t g e {e with pc := .code p ret}
  | test {e} (here : e.pc = .top) (quiet : Quiet t g e) : Local t g e {e with pc := .active}
  | busy {e} (here : e.pc = .top) (work : ¬Quiet t g e) : Local t g e {e with pc := .drainSqe}
  | stay {e} (here : e.pc = .active) (io : Int) (failed : Bool) :
      Local t g e {e with ioEvents := io, sqeFailed := failed, pc := .drainSqe}
  | exit {e} (here : e.pc = .active) : Local t g e {e with pc := .exited}
  | sqe {e left} (here : e.pc = .drainSqe) (some : e.sqes = left + 1) :
      Local t g e {e with sqes := left, pc := .code false .sqeNext}
  | sqeNext {e} (here : e.pc = .sqeNext) :
      Local t g e {e with pc := if e.sqeFailed then .drainSync true else .drainSqe}
  | sqeEmpty {e} (here : e.pc = .drainSqe) (none : e.sqes = 0) : Local t g e {e with pc := .drainSync false}
  | yield {e b left} (here : e.pc = .drainYield b) (some : e.yields = left + 1) :
      Local t g e {e with yields := left, pc := .code false (.drainYield b)}
  | yieldEmpty {e b} (here : e.pc = .drainYield b) (none : e.yields = 0) : Local t g e {e with pc := .drained b}
  | again {e b} (here : e.pc = .drained b) (work : ¬((e.sqes = 0 ∨ b = true) ∧ e.yields = 0)) :
      Local t g e {e with pc := .drainSqe}
  | drained {e b} (here : e.pc = .drained b) (done : (e.sqes = 0 ∨ b = true) ∧ e.yields = 0) :
      Local t g e {e with pc := .arm}
  | arm {e} (here : e.pc = .arm) (io : Int) (failed : Bool) :
      Local t g e {e with ioEvents := io, sqeFailed := failed, pc := .register}
  | registered {e} (here : e.pc = .register) (done : e.retryRegister = false) : Local t g e {e with pc := .wait}
  | noWait {e} (here : e.pc = .wait) (none : e.ioEvents ≤ 0) : Local t g e {e with pc := .top}
  | wait {e} (here : e.pc = .wait) (some : 0 < e.ioEvents) (done : e.retryRegister = false) :
      Local t g e {e with pc := .blocked}
  | poll {e} (here : e.pc = .wait) (some : 0 < e.ioEvents) (retry : e.retryRegister = true) :
      Local t g e {e with pc := .polling}
  | returns {e} (here : e.pc = .blocked ∨ e.pc = .polling) : Local t g e {e with pc := .events}
  | canceled {e} (here : e.pc = .events) : Local t g e {e with ioEvents := e.ioEvents - 1}
  | completion {e} (here : e.pc = .events) :
      Local t g e {e with ioEvents := e.ioEvents - 1, pc := .code false .events}
  | expire {e} (here : e.pc = .events) (now : Int) : Local t g e {e with pc := .code false (.fire now)}
  | done {e} (here : e.pc = .events) : Local t g e {e with pc := .top}

variable [DecidableEq T] [DecidableEq N]

def Shared.publish (g : Shared T N) (t : T) (n : N) : Shared T N :=
  {g with waiting := n ::ₘ g.waiting, tid := Function.update g.tid n t, asleep := insert n g.asleep}

def Shared.push (g : Shared T N) (t : T) (ret : Ret) (node : Node T N) : Shared T N :=
  {g with
    syncList := Function.update g.syncList (home g node) (node :: g.syncList (home g node)),
    late := if home g node = t ∧ behind ret = true then Function.update g.late t true else g.late}

abbrev State (T N : Type*) := Config (Shared T N) (Env T N) T

/- The kernel completes the read of sync_fd when its counter is not zero. -/
inductive Step : State T N → State T N → Prop where
  | own {c e} (t : T) (taken : Local t c.shared (c.locals t) e) : Step c (c.set t c.shared e)
  | parks {c ret} (t : T) (n : N) (here : (c.locals t).pc = .code false ret) (free : n ∉ c.shared.asleep) :
      Step c (c.set t (c.shared.publish t n) {c.locals t with pc := .code true ret})
  | takes {c p ret} (t : T) (taken : List N) (rest : Multiset N) (here : (c.locals t).pc = .code p ret)
      (split : c.shared.waiting = ↑taken + rest) :
      Step c (c.set t {c.shared with waiting := rest} {c.locals t with pc := .waking (taken.map .waiter) ∅ p ret})
  | pushes {c node nodes fds p ret} (t : T) (here : (c.locals t).pc = .waking (node :: nodes) fds p ret) :
      Step c (c.set t (c.shared.push t ret node)
        {c.locals t with pc := .waking nodes (if home c.shared node = t then fds else insert (home c.shared node) fds) p ret})
  | writes {c fds p ret} (t u : T) (here : (c.locals t).pc = .waking [] fds p ret) (owes : u ∈ fds) :
      Step c (c.set t {c.shared with noticed := Function.update c.shared.noticed u true}
        {c.locals t with pc := .waking [] (fds.erase u) p ret})
  | resumes {c b n rest} (t : T) (here : (c.locals t).pc = .drainSync b)
      (head : c.shared.syncList t = .waiter n :: rest) :
      Step c (c.set t
        {c.shared with syncList := Function.update c.shared.syncList t rest, asleep := c.shared.asleep.erase n}
        {c.locals t with pc := if c.shared.tid n = t then .resumed (.drainSync b) else .fatal})
  | resumesSleeper {c b tid rest} (t : T) (here : (c.locals t).pc = .drainSync b)
      (head : c.shared.syncList t = .sleeper tid :: rest) :
      Step c (c.set t {c.shared with syncList := Function.update c.shared.syncList t rest}
        {c.locals t with pc := if tid = t then .code false (.drainSync b) else .fatal})
  | syncEmpty {c b} (t : T) (here : (c.locals t).pc = .drainSync b) (none : c.shared.syncList t = []) :
      Step c (c.set t {c.shared with late := Function.update c.shared.late t false}
        {c.locals t with pc := .drainYield b})
  | registers {c} (t : T) (ok : Bool) (here : (c.locals t).pc = .register) (retry : (c.locals t).retryRegister = true) :
      Step c (c.set t {c.shared with reading := Function.update c.shared.reading t ok}
        {c.locals t with sqeFailed := !ok, retryRegister := !ok, pc := .wait})
  | notified {c} (t : T) (ok : Bool) (here : (c.locals t).pc = .events) (told : c.shared.told t = true) :
      Step c (c.set t
        {c.shared with told := Function.update c.shared.told t false, reading := Function.update c.shared.reading t ok}
        {c.locals t with sqeFailed := !ok, retryRegister := !ok})
  | reads {c} (t : T) (reading : c.shared.reading t = true) (noticed : c.shared.noticed t = true) :
      Step c ⟨{c.shared with reading := Function.update c.shared.reading t false,
                             noticed := Function.update c.shared.noticed t false,
                             told := Function.update c.shared.told t true},c.locals⟩

/- All threads have registered the read of their sync_fd, and run the code before schedule(). -/
def start [Inhabited T] : State T N :=
  ⟨⟨0,fun _ => default,∅,fun _ => [],fun _ => false,fun _ => true,fun _ => false,fun _ => false⟩,
    fun _ => ⟨0,0,0,0,false,false,.code false .top⟩⟩

end Model

section Weights
variable {T N : Type*}

def carried : Pc T N → List (Node T N)
  | .waking nodes _ _ _ => nodes
  | _ => []

def owed : Pc T N → Finset T
  | .waking _ fds _ _ => fds
  | _ => ∅

def published : Pc T N → Int
  | .code b _ | .waking _ _ b _ => if b then 1 else 0
  | _ => 0

def returning : Pc T N → Int
  | .resumed _ => 1
  | _ => 0

def afterDrain : Pc T N → Bool
  | .code _ ret | .waking _ _ _ ret | .resumed ret => behind ret
  | .drainYield _ | .drained _ | .arm | .register | .wait | .blocked => true
  | _ => false

theorem backAfter (ret : Ret) : afterDrain (back ret : Pc T N) = behind ret := by cases ret <;> rfl

theorem backPlain (ret : Ret) : published (back ret : Pc T N) = 0 ∧ returning (back ret : Pc T N) = 0 ∧
    carried (back ret : Pc T N) = [] ∧ owed (back ret : Pc T N) = ∅ ∧
    (back ret : Pc T N) ≠ .active ∧ (back ret : Pc T N) ≠ .exited ∧ (back ret : Pc T N) ≠ .fatal ∧
    (back ret : Pc T N) ≠ .blocked := by
  cases ret <;> simp [back, published, returning, carried, owed]

end Weights

section Invariant
variable {T N : Type*} [DecidableEq T]

def parked (g : Shared T N) (t : T) : Finset N := g.asleep.filter fun n => g.tid n = t

theorem memParked {g : Shared T N} {t : T} {n : N} : n ∈ parked g t ↔ n ∈ g.asleep ∧ g.tid n = t := Finset.mem_filter

/- What holds of a thread by itself: the count of its coroutines that wait is right up to the one on
its way into or out of a wait, and the read of its sync_fd is on its way or will be retried. -/
structure Own (g : Shared T N) (t : T) (e : Env T N) : Prop where
  counted : e.syncEvents + published e.pc = (parked g t).card + returning e.pc
  settled : e.pc = .active ∨ e.pc = .exited → e.syncEvents = 0
  sane : e.pc ≠ .fatal
  reads : g.reading t = true ∨ g.told t = true ∨ e.retryRegister = true
  waits : e.pc = .blocked → e.retryRegister = false

theorem ownLocal {g : Shared T N} {t : T} {e e' : Env T N} (own : Own g t e) (retry : e'.retryRegister = e.retryRegister)
    (balance : e'.syncEvents + published e'.pc - returning e'.pc = e.syncEvents + published e.pc - returning e.pc)
    (settled : e'.pc = .active ∨ e'.pc = .exited → e'.syncEvents = 0) (sane : e'.pc ≠ .fatal)
    (waits : e'.pc = .blocked → e.retryRegister = false) : Own g t e' := by
  have counted := own.counted
  exact ⟨by omega,settled,sane,by rw [retry]; exact own.reads,fun blocked => by rw [retry]; exact waits blocked⟩

theorem ownSame {g g' : Shared T N} {t : T} {e : Env T N} (own : Own g t e) (tid : g'.tid = g.tid)
    (asleep : g'.asleep = g.asleep) (reads : g'.reading t = true ∨ g'.told t = true ∨ e.retryRegister = true) : Own g' t e := by
  have same : parked g' t = parked g t := by rw [parked, parked, tid, asleep]
  exact ⟨by rw [same]; exact own.counted,own.settled,own.sane,reads,own.waits⟩

structure Kept (g : Shared T N) (t : T) (e e' : Env T N) : Prop where
  old : carried e.pc = [] ∧ owed e.pc = ∅
  new : (carried e'.pc = [] ∨ ∃ tid, carried e'.pc = [.sleeper tid]) ∧ owed e'.pc = ∅
  drained : afterDrain e'.pc = true → afterDrain e.pc = true
  own : Own g t e → Own g t e'

theorem localKept {t : T} {g : Shared T N} {e e' : Env T N} (taken : Local t g e e') : Kept g t e e' := by
  cases taken with
  | other here =>
    exact ⟨by simp [here, carried, owed],by simp [here, carried, owed],by simp [here],
      fun own => ownLocal own rfl (by simp) (by simp [here]) (by simp [here]) (by simp [here])⟩
  | finish here | suspend here =>
    rename_i ret
    obtain ⟨uncounted,away,empty,none,active,exited,fatal,blocked⟩ := backPlain (T := T) (N := N) ret
    exact ⟨by simp [here, carried, owed],by simp [empty, none],fun after => by rw [here]; exact (backAfter ret).symm.trans after,
      fun own => ownLocal own rfl (by simp only [here, uncounted, away]; simp [published, returning]) (by simp [active, exited]) fatal
        (by simp [blocked])⟩
  | awake here | rouse here | woke here =>
    exact ⟨by simp [here, carried, owed],by simp [carried, owed],by simp [here, afterDrain],
      fun own => ownLocal own rfl (by simp [here, published, returning]) (by simp) (by simp) (by simp)⟩
  | test here quiet =>
    exact ⟨by simp [here, carried, owed],by simp [carried, owed],by simp [afterDrain],
      fun own => ownLocal own rfl (by simp [here, published, returning]) (fun _ => quiet.2.1) (by simp) (by simp)⟩
  | exit here =>
    exact ⟨by simp [here, carried, owed],by simp [carried, owed],by simp [afterDrain],
      fun own => ownLocal own rfl (by simp [here, published, returning]) (fun _ => own.settled (.inl here)) (by simp)
        (by simp)⟩
  | wait here some done =>
    exact ⟨by simp [here, carried, owed],by simp [carried, owed],by simp [here, afterDrain],
      fun own => ownLocal own rfl (by simp [here, published, returning]) (by simp) (by simp) (fun _ => done)⟩
  | sqeNext here =>
    refine ⟨by simp [here, carried, owed],?_,?_,fun own => ownLocal own rfl ?_ ?_ ?_ ?_⟩ <;>
      cases e.sqeFailed <;> simp [here, carried, owed, afterDrain, published, returning]
  | returns here =>
    rcases here with here | here <;>
      exact ⟨by simp [here, carried, owed],by simp [carried, owed],by simp [afterDrain],
        fun own => ownLocal own rfl (by simp [here, published, returning]) (by simp) (by simp) (by simp)⟩
  | canceled here =>
    exact ⟨by simp [here, carried, owed],by simp [here, carried, owed],by simp [here],
      fun own => ownLocal own rfl (by simp) (by simp [here]) (by simp [here]) (by simp [here])⟩
  | busy here | stay here | sqe here | sqeEmpty here | yield here | yieldEmpty here | again here | drained here
  | arm here | registered here | noWait here | poll here | completion here | expire here | done here =>
    exact ⟨by simp [here, carried, owed],by simp [carried, owed],by simp [here, afterDrain, behind],
      fun own => ownLocal own rfl (by simp [here, published, returning]) (by simp) (by simp) (by simp)⟩

def Announced (c : State T N) (t : T) : Prop :=
  c.shared.late t = true ∨ c.shared.told t = true ∨ c.shared.noticed t = true ∨ ∃ u, t ∈ owed (c.locals u).pc

theorem announcedSet {c : State T N} {t u : T} {g : Shared T N} {e : Env T N} (announced : Announced c u)
    (late : c.shared.late u = true → g.late u = true) (told : c.shared.told u = true → g.told u = true)
    (noticed : c.shared.noticed u = true → g.noticed u = true)
    (owes : u ∈ owed (c.locals t).pc → u ∈ owed e.pc ∨ g.noticed u = true) : Announced (c.set t g e) u := by
  rcases announced with pushed | seen | counted | ⟨v,inside⟩
  · exact .inl (late pushed)
  · exact .inr (.inl (told seen))
  · exact .inr (.inr (.inl (noticed counted)))
  · by_cases mine : v = t
    · subst mine
      rcases owes inside with still | written
      · exact .inr (.inr (.inr ⟨v,by rw [setSelf]; exact still⟩))
      · exact .inr (.inr (.inl written))
    · exact .inr (.inr (.inr ⟨v,by rw [setOther c g e mine]; exact inside⟩))

theorem ownSet {c : State T N} {t : T} {g : Shared T N} {e : Env T N} (mine : Own g t e)
    (others : ∀ u, u ≠ t → Own g u (c.locals u)) (u : T) : Own g u ((c.set t g e).locals u) := by
  by_cases same : u = t
  · subst same
    rw [setSelf]
    exact mine
  · rw [setOther c g e same]
    exact others u same

variable [DecidableEq N]

def places (g : Shared T N) (n : N) : ℕ := g.waiting.count n + (g.syncList (g.tid n)).count (.waiter n)

def sleeps (g : Shared T N) (n : N) : ℕ := if n ∈ g.asleep then 1 else 0

def carries (n : N) (e : Env T N) : ℕ := (carried e.pc).count (.waiter n)

variable [Fintype T]

structure Inv (c : State T N) : Prop where
  place : ∀ n, places c.shared n + c.total (carries n) = sleeps c.shared n
  listed : ∀ t, ∀ node ∈ c.shared.syncList t, home c.shared node = t
  own : ∀ t, Own c.shared t (c.locals t)
  heard : ∀ t, afterDrain (c.locals t).pc = true → c.shared.syncList t = [] ∨ Announced c t

theorem invSet {c : State T N} (inv : Inv c) (t : T) {g : Shared T N} {e : Env T N}
    (place : ∀ n, places g n + carries n e + sleeps c.shared n = places c.shared n + carries n (c.locals t) + sleeps g n)
    (listed : ∀ u, ∀ node ∈ g.syncList u, home g node = u) (mine : Own g t e) (others : ∀ u, u ≠ t → Own g u (c.locals u))
    (heard : ∀ u, afterDrain (if u = t then e else c.locals u).pc = true →
      g.syncList u = [] ∨ Announced (c.set t g e) u) : Inv (c.set t g e) := by
  refine ⟨fun n => ?_,listed,ownSet mine others,fun u after => heard u ?_⟩
  · have counted := totalSet c (carries n) t g e
    have before := inv.place n
    have balance := place n
    rw [setShared]
    omega
  · by_cases same : u = t
    · subst same
      rw [setSelf] at after
      rwa [if_pos rfl]
    · rw [setOther c g e same] at after
      rwa [if_neg same]

theorem heardKept {c : State T N} (inv : Inv c) {t : T} {g : Shared T N} {e : Env T N} (u : T)
    (list : g.syncList u = c.shared.syncList u) (drained : afterDrain e.pc = true → afterDrain (c.locals t).pc = true)
    (late : c.shared.late u = true → g.late u = true) (told : c.shared.told u = true → g.told u = true)
    (noticed : c.shared.noticed u = true → g.noticed u = true)
    (owes : u ∈ owed (c.locals t).pc → u ∈ owed e.pc ∨ g.noticed u = true)
    (after : afterDrain (if u = t then e else c.locals u).pc = true) :
    g.syncList u = [] ∨ Announced (c.set t g e) u := by
  have before : afterDrain (c.locals u).pc = true := by
    by_cases same : u = t
    · subst same
      rw [if_pos rfl] at after
      exact drained after
    · rwa [if_neg same] at after
  rw [list]
  exact (inv.heard u before).imp_right fun announced => announcedSet announced late told noticed owes

theorem startInv [Inhabited T] : Inv (start : State T N) := by
  refine ⟨fun n => ?_,by simp [start],fun t => ?_,by simp [start, afterDrain, behind]⟩
  · rw [totalConst _ (carries n) (fun _ => rfl) rfl]
    simp [start, places, sleeps]
  · exact ⟨by simp [start, parked, published, returning]; rfl,by simp [start],by simp [start],.inl rfl,by simp [start]⟩

theorem localInv {c : State T N} (inv : Inv c) {t : T} {e : Env T N} (taken : Local t c.shared (c.locals t) e) :
    Inv (c.set t c.shared e) := by
  have kept := localKept taken
  refine invSet inv t (fun n => ?_) inv.listed (kept.own (inv.own t)) (fun u _ => inv.own u)
    (fun u => heardKept inv u rfl kept.drained id id id (by simp [kept.old.2]))
  have none : carries n e = 0 := by
    rcases kept.new.1 with empty | ⟨tid,sleeper⟩
    · simp [carries, empty]
    · simp [carries, sleeper]
  rw [none, carries, kept.old.1, List.count_nil]

theorem awakeNowhere {c : State T N} (inv : Inv c) {n : N} (awake : n ∉ c.shared.asleep) :
    places c.shared n = 0 ∧ ∀ t, Node.waiter n ∉ c.shared.syncList t := by
  have place := inv.place n
  rw [sleeps, if_neg awake] at place
  refine ⟨by omega,fun t inside => ?_⟩
  have listed := inv.listed t _ inside
  have positive := List.count_pos_iff.mpr inside
  simp only [home] at listed
  rw [← listed] at positive
  rw [places] at place
  omega

omit [Fintype T] in
theorem parkedPublish (g : Shared T N) {t : T} {n : N} (free : n ∉ g.asleep) (u : T) :
    parked (g.publish t n) u = if u = t then insert n (parked g u) else parked g u := by
  ext m
  by_cases same : u = t
  · rw [if_pos same, memParked, Finset.mem_insert, memParked]
    by_cases self : m = n
    · simp [Shared.publish, self, same]
    · simp [Shared.publish, self]
  · rw [if_neg same, memParked, memParked]
    by_cases self : m = n
    · subst self
      simp [Shared.publish, free, Ne.symm same]
    · simp [Shared.publish, self]

theorem parksInv {c : State T N} (inv : Inv c) {t : T} {n : N} {ret : Ret} (here : (c.locals t).pc = .code false ret)
    (free : n ∉ c.shared.asleep) : Inv (c.set t (c.shared.publish t n) {c.locals t with pc := .code true ret}) := by
  obtain ⟨nowhere,unlisted⟩ := awakeNowhere inv free
  refine invSet inv t (fun m => ?_) (fun u node inside => ?_) ?_ (fun u other => ?_)
    (fun u => heardKept inv u rfl (by rw [here]; exact id) id id id (by simp [here, owed]))
  · by_cases same : m = n
    · subst same
      simp only [places] at nowhere
      simp [places, Shared.publish, carries, carried, here, sleeps, free, List.count_eq_zero.mpr (unlisted t)]
      omega
    · simp [places, Shared.publish, carries, carried, here, sleeps, same]
  · cases node with
    | sleeper tid => exact inv.listed u _ inside
    | waiter m =>
      have other : m ≠ n := fun same => unlisted u (same ▸ inside)
      simp only [home, Shared.publish, Function.update_of_ne other]
      exact inv.listed u _ inside
  · have own := inv.own t
    have counted := own.counted
    refine ⟨?_,by simp,by simp,own.reads,by simp⟩
    rw [parkedPublish _ free, if_pos rfl, Finset.card_insert_of_notMem fun inside => free (memParked.mp inside).1]
    simp [here, published, returning] at counted ⊢
    omega
  · have own := inv.own u
    refine ⟨?_,own.settled,own.sane,own.reads,own.waits⟩
    rw [parkedPublish _ free, if_neg other]
    exact own.counted

theorem takesInv {c : State T N} (inv : Inv c) {t : T} {p : Bool} {ret : Ret} {taken : List N} {rest : Multiset N}
    (here : (c.locals t).pc = .code p ret) (split : c.shared.waiting = ↑taken + rest) :
    Inv (c.set t {c.shared with waiting := rest} {c.locals t with pc := .waking (taken.map .waiter) ∅ p ret}) := by
  refine invSet inv t (fun m => ?_) inv.listed ?_
    (fun u _ => ownSame (inv.own u) rfl rfl (inv.own u).reads)
    (fun u => heardKept inv u rfl (by rw [here]; exact id) id id id (by simp [here, owed]))
  · have counted : (taken.map Node.waiter : List (Node T N)).count (.waiter m) = taken.count m :=
      List.count_map_of_injective taken _ (fun _ _ same => Node.waiter.inj same) m
    have same : sleeps {c.shared with waiting := rest} m = sleeps c.shared m := rfl
    simp only [places, carries, carried, here, split, counted, same, Multiset.count_add, Multiset.coe_count, List.count_nil]
    omega
  · have own := inv.own t
    have counted := own.counted
    rw [here] at counted
    exact ⟨counted,by simp,by simp,own.reads,by simp⟩

omit [Fintype T] in
theorem placesPush (g : Shared T N) (t : T) (ret : Ret) (node : Node T N) (n : N) :
    places (g.push t ret node) n = places g n + if node = .waiter n then 1 else 0 := by
  simp only [places, Shared.push]
  by_cases there : g.tid n = home g node
  · rw [there, Function.update_self, List.count_cons]
    simp only [beq_iff_eq]
    omega
  · have other : node ≠ .waiter n := fun same => there (by rw [same, home])
    rw [Function.update_of_ne there, if_neg other, Nat.add_zero]

theorem pushesInv {c : State T N} (inv : Inv c) {t : T} {node : Node T N} {nodes : List (Node T N)} {fds : Finset T}
    {p : Bool} {ret : Ret} (here : (c.locals t).pc = .waking (node :: nodes) fds p ret) :
    Inv (c.set t (c.shared.push t ret node)
      {c.locals t with pc := .waking nodes (if home c.shared node = t then fds else insert (home c.shared node) fds) p ret}) := by
  have own := inv.own t
  refine invSet inv t (fun m => ?_) (fun u old inside => ?_) ?_ (fun u _ => ownSame (inv.own u) rfl rfl (inv.own u).reads)
    (fun u after => ?_)
  · rw [placesPush]
    simp only [carries, carried, here, List.count_cons, beq_iff_eq]
    have same : sleeps (c.shared.push t ret node) m = sleeps c.shared m := rfl
    omega
  · by_cases there : u = home c.shared node
    · subst there
      simp only [Shared.push, Function.update_self, List.mem_cons] at inside
      rcases inside with rfl | inside
      · rfl
      · exact inv.listed _ old inside
    · simp only [Shared.push, Function.update_of_ne there] at inside
      exact inv.listed u old inside
  · have counted := own.counted
    rw [here] at counted
    exact ownSame (e := {c.locals t with pc := _}) ⟨counted,by simp,by simp,own.reads,by simp⟩ rfl rfl own.reads
  · have late : c.shared.late u = true → (c.shared.push t ret node).late u = true := by
      intro old
      simp only [Shared.push]
      split
      · by_cases self : u = t <;> simp [self, old]
      · exact old
    by_cases there : u = home c.shared node
    · subst there
      refine .inr ?_
      by_cases self : home c.shared node = t
      · rw [if_pos self] at after
        refine .inl ?_
        rw [setShared]
        simp only [Shared.push, self]
        rw [if_pos ⟨trivial,after⟩, Function.update_self]
      · refine .inr (.inr (.inr ⟨t,?_⟩))
        rw [setSelf, if_neg self]
        exact Finset.mem_insert_self _ _
    · refine heardKept inv u (by simp [Shared.push, Function.update_of_ne there]) (by rw [here]; exact id) late id id ?_ after
      rw [here]
      intro owes
      refine .inl ?_
      simp only [owed] at owes ⊢
      split
      · exact owes
      · exact Finset.mem_insert_of_mem owes

theorem writesInv {c : State T N} (inv : Inv c) {t u : T} {fds : Finset T} {p : Bool} {ret : Ret}
    (here : (c.locals t).pc = .waking [] fds p ret) :
    Inv (c.set t {c.shared with noticed := Function.update c.shared.noticed u true}
      {c.locals t with pc := .waking [] (fds.erase u) p ret}) := by
  have own := inv.own t
  have noticed (v : T) (old : c.shared.noticed v = true) : Function.update c.shared.noticed u true v = true := by
    by_cases same : v = u <;> simp [same, old]
  refine invSet inv t (fun m => ?_) inv.listed ?_ (fun v _ => ownSame (inv.own v) rfl rfl (inv.own v).reads)
    (fun v => heardKept inv v rfl (by rw [here]; exact id) id id (noticed v) ?_)
  · simp only [carries, carried, here]
    rfl
  · have counted := own.counted
    rw [here] at counted
    exact ⟨counted,by simp,by simp,own.reads,by simp⟩
  · rw [here]
    intro owes
    by_cases same : v = u
    · exact .inr (by simp [same])
    · exact .inl (Finset.mem_erase.mpr ⟨same,owes⟩)

theorem popListed {c : State T N} (inv : Inv c) {t : T} {node : Node T N} {rest : List (Node T N)}
    (head : c.shared.syncList t = node :: rest) :
    ∀ u, ∀ old ∈ Function.update c.shared.syncList t rest u, home c.shared old = u := by
  intro u old inside
  by_cases same : u = t
  · subst same
    rw [Function.update_self] at inside
    exact inv.listed u old (by rw [head]; exact List.mem_cons_of_mem _ inside)
  · rw [Function.update_of_ne same] at inside
    exact inv.listed u old inside

theorem resumesInv {c : State T N} (inv : Inv c) {t : T} {b : Bool} {n : N} {rest : List (Node T N)}
    (here : (c.locals t).pc = .drainSync b) (head : c.shared.syncList t = .waiter n :: rest) :
    Inv (c.set t
      {c.shared with syncList := Function.update c.shared.syncList t rest, asleep := c.shared.asleep.erase n}
      {c.locals t with pc := if c.shared.tid n = t then .resumed (.drainSync b) else .fatal}) := by
  have mine : c.shared.tid n = t := inv.listed t (.waiter n) (by rw [head]; exact List.mem_cons_self)
  have asleep : n ∈ c.shared.asleep := by
    by_contra awake
    exact (awakeNowhere inv awake).2 t (by rw [head]; exact List.mem_cons_self)
  have parkedThen (u : T) : parked {c.shared with syncList := Function.update c.shared.syncList t rest,
                                                  asleep := c.shared.asleep.erase n} u =
      (parked c.shared u).erase n := by
    ext m
    rw [memParked, Finset.mem_erase, Finset.mem_erase, memParked, and_assoc]
  have own := inv.own t
  have counted := own.counted
  rw [if_pos mine]
  refine invSet inv t (fun m => ?_) (popListed inv head) ⟨?_,by simp,by simp,own.reads,by simp⟩ (fun u other => ?_)
    (fun u after => ?_)
  · have place := inv.place m
    simp only [places, carries, carried, here, sleeps] at place ⊢
    by_cases same : m = n
    · subst same
      simp [mine, head, asleep]
      omega
    · by_cases there : c.shared.tid m = t
      · simp [there, head, same, Ne.symm same]
      · simp [there, same]
  · rw [parkedThen, Finset.card_erase_of_mem (memParked.mpr ⟨asleep,mine⟩)]
    have some : 0 < (parked c.shared t).card := Finset.card_pos.mpr ⟨n,memParked.mpr ⟨asleep,mine⟩⟩
    simp [here, published, returning] at counted ⊢
    omega
  · have elsewhere : n ∉ parked c.shared u := fun inside => other ((memParked.mp inside).2.symm.trans mine)
    have own := inv.own u
    refine ⟨?_,own.settled,own.sane,own.reads,own.waits⟩
    rw [parkedThen, Finset.erase_eq_of_notMem elsewhere]
    exact own.counted
  · by_cases same : u = t
    · subst same
      simp [afterDrain, behind] at after
    · refine heardKept inv u (by simp [same]) (by simp [afterDrain, behind]) id id id (by simp [here, owed]) after

theorem sleeperInv {c : State T N} (inv : Inv c) {t tid : T} {b : Bool} {rest : List (Node T N)}
    (here : (c.locals t).pc = .drainSync b) (head : c.shared.syncList t = .sleeper tid :: rest) :
    Inv (c.set t {c.shared with syncList := Function.update c.shared.syncList t rest}
      {c.locals t with pc := if tid = t then .code false (.drainSync b) else .fatal}) := by
  have mine : tid = t := inv.listed t (.sleeper tid) (by rw [head]; exact List.mem_cons_self)
  have own := inv.own t
  have counted := own.counted
  rw [here] at counted
  rw [if_pos mine]
  refine invSet inv t (fun m => ?_) (popListed inv head) ⟨counted,by simp,by simp,own.reads,by simp⟩
    (fun u _ => ownSame (inv.own u) rfl rfl (inv.own u).reads) (fun u after => ?_)
  · simp only [places, carries, carried, here, sleeps]
    by_cases there : c.shared.tid m = t
    · simp [there, head]
    · simp [there]
  · by_cases same : u = t
    · subst same
      simp [afterDrain, behind] at after
    · exact heardKept inv u (by simp [same]) (by simp [afterDrain, behind]) id id id (by simp [here, owed]) after

theorem syncEmptyInv {c : State T N} (inv : Inv c) {t : T} {b : Bool} (here : (c.locals t).pc = .drainSync b)
    (none : c.shared.syncList t = []) :
    Inv (c.set t {c.shared with late := Function.update c.shared.late t false} {c.locals t with pc := .drainYield b}) := by
  have own := inv.own t
  have counted := own.counted
  rw [here] at counted
  refine invSet inv t (fun m => ?_) inv.listed ⟨counted,by simp,by simp,own.reads,by simp⟩
    (fun u _ => ownSame (inv.own u) rfl rfl (inv.own u).reads) (fun u after => ?_)
  · simp only [carries, carried, here]
    rfl
  · by_cases same : u = t
    · subst same
      exact .inl none
    · refine (inv.heard u (by rwa [if_neg same] at after)).imp_right fun announced =>
        announcedSet announced (by simp [same]) id id (by simp [here, owed])

theorem registersInv {c : State T N} (inv : Inv c) {t : T} {ok : Bool} (here : (c.locals t).pc = .register) :
    Inv (c.set t {c.shared with reading := Function.update c.shared.reading t ok}
      {c.locals t with sqeFailed := !ok, retryRegister := !ok, pc := .wait}) := by
  have own := inv.own t
  have counted := own.counted
  rw [here] at counted
  refine invSet inv t (fun m => ?_) inv.listed ⟨counted,by simp,by simp,by cases ok <;> simp,by simp⟩ (fun u other => ?_)
    (fun u => heardKept inv u rfl (by rw [here]; exact id) id id id (by simp [here, owed]))
  · simp only [carries, carried, here]
    rfl
  · exact ownSame (inv.own u) rfl rfl (by simp only [Function.update_of_ne other]; exact (inv.own u).reads)

theorem notifiedInv {c : State T N} (inv : Inv c) {t : T} {ok : Bool} (here : (c.locals t).pc = .events) :
    Inv (c.set t
      {c.shared with told := Function.update c.shared.told t false, reading := Function.update c.shared.reading t ok}
      {c.locals t with sqeFailed := !ok, retryRegister := !ok}) := by
  have own := inv.own t
  refine invSet inv t (fun m => ?_) inv.listed
    ⟨own.counted,own.settled,own.sane,by cases ok <;> simp,by simp [here]⟩ (fun u other => ?_) (fun u after => ?_)
  · rfl
  · exact ownSame (inv.own u) rfl rfl (by simp only [Function.update_of_ne other]; exact (inv.own u).reads)
  · by_cases same : u = t
    · subst same
      simp [here, afterDrain] at after
    · exact heardKept inv u rfl id id (by simp [same]) id (fun owes => .inl owes) after

theorem readsInv {c : State T N} (inv : Inv c) (t : T) :
    Inv ⟨{c.shared with reading := Function.update c.shared.reading t false,
                        noticed := Function.update c.shared.noticed t false,
                        told := Function.update c.shared.told t true},c.locals⟩ := by
  refine ⟨inv.place,inv.listed,fun u => ownSame (inv.own u) rfl rfl ?_,fun u after => (inv.heard u after).imp_right ?_⟩
  · by_cases same : u = t
    · simp [same]
    · simpa [same] using (inv.own u).reads
  · intro announced
    by_cases same : u = t
    · exact .inr (.inl (by simp [same]))
    · simpa [Announced, same] using announced

theorem stepInv {c d : State T N} (inv : Inv c) (taken : Step c d) : Inv d := by
  cases taken with
  | own t taken => exact localInv inv taken
  | parks t n here free => exact parksInv inv here free
  | takes t taken rest here split => exact takesInv inv here split
  | pushes t here => exact pushesInv inv here
  | writes t u here owes => exact writesInv inv here
  | resumes t here head => exact resumesInv inv here head
  | resumesSleeper t here head => exact sleeperInv inv here head
  | syncEmpty t here none => exact syncEmptyInv inv here none
  | registers t ok here retry => exact registersInv inv here
  | notified t ok here told => exact notifiedInv inv here
  | reads t reading noticed => exact readsInv inv t

theorem reachedInv [Inhabited T] {c : State T N} (reached : Reachable Step start c) : Inv c :=
  reachableInvariant Inv startInv (fun _ _ => stepInv) reached

end Invariant

section Runs

theorem setAgain {T N : Type*} [DecidableEq T] (c : State T N) (t : T) (g g' : Shared T N) (e e' : Env T N) :
    (c.set t g e).set t g' e' = c.set t g' e' := by simp [Config.set]

def alone (g : Shared (Fin 2) Unit) (e : Env (Fin 2) Unit) : State (Fin 2) Unit := start.set 0 g e

theorem aloneStep {g g' : Shared (Fin 2) Unit} {e e' : Env (Fin 2) Unit}
    (step : Step (alone g e) ((alone g e).set 0 g' e')) : Step (alone g e) (alone g' e') := by
  rwa [alone, setAgain] at step

theorem aloneRun {g : Shared (Fin 2) Unit} {e e' : Env (Fin 2) Unit} (run : Relation.ReflTransGen (Local 0 g) e e') :
    Reachable Step (alone g e) (alone g e') := by
  induction run with
  | refl => rfl
  | tail _ taken ih => exact ih.tail (aloneStep (.own 0 (by rw [alone, setSelf]; exact taken)))

def noticing : Shared (Fin 2) Unit := (start : State (Fin 2) Unit).shared

def drainedList : Shared (Fin 2) Unit := {noticing with late := Function.update noticing.late 0 false}

def signalled : Shared (Fin 2) Unit :=
  {drainedList.publish 0 () with waiting := 0}.push 0 (.drainYield false) (.waiter ())

def stalled : State (Fin 2) Unit := alone signalled ⟨1,1,0,0,false,false,.blocked⟩

theorem yieldsDrained : Reachable Step start (alone drainedList ⟨1,0,1,0,false,false,.code false (.drainYield false)⟩) := by
  have begins : (start : State (Fin 2) Unit) = alone noticing ⟨0,0,0,0,false,false,.code false .top⟩ := by
    rw [alone, Config.set]
    exact congrArg _ (Function.update_eq_self _ _).symm
  rw [begins]
  have drains : Reachable Step (alone noticing ⟨0,0,0,0,false,false,.code false .top⟩)
      (alone noticing ⟨1,0,2,0,false,false,.drainSync false⟩) :=
    aloneRun (.tail (.tail (.tail (.single (.other rfl 1 2 0 false)) (.finish rfl)) (.busy rfl fun quiet => absurd quiet.1 (by decide)))
      (.sqeEmpty rfl rfl))
  refine (drains.tail (aloneStep (.syncEmpty 0 rfl rfl))).trans (aloneRun (.single (.yield rfl rfl)))

theorem toWait (g : Shared (Fin 2) Unit) (sync : Int) : Relation.ReflTransGen (Local 0 g)
    ⟨1,sync,0,0,false,false,.code false (.drainYield false)⟩ ⟨1,sync,0,0,false,false,.blocked⟩ := by
  have drained : Relation.ReflTransGen (Local 0 g) ⟨1,sync,0,0,false,false,.code false (.drainYield false)⟩
      ⟨1,sync,0,0,false,false,.arm⟩ := .tail (.tail (.single (.finish rfl)) (.yieldEmpty rfl rfl)) (.drained rfl ⟨.inl rfl,rfl⟩)
  exact .tail (.tail (drained.tail (.arm rfl 1 false)) (.registered rfl rfl)) (.wait rfl (show (0 : Int) < 1 by decide) rfl)

theorem waits : Reachable Step start
    (alone (drainedList.publish 0 ()) ⟨1,1,0,0,false,false,.code false (.drainYield false)⟩) :=
  (yieldsDrained.tail (aloneStep (.parks 0 () rfl (by decide)))).trans
    (aloneRun (.tail (.single (.suspend rfl)) (.yield rfl rfl)))

theorem stalledReached : Reachable Step start stalled :=
  ((waits.tail (aloneStep (.takes 0 [()] 0 rfl rfl))).tail (aloneStep (.pushes 0 rfl))).trans
    (aloneRun ((Relation.ReflTransGen.single (.woke rfl)).trans (toWait signalled 1)))

def pushed : State (Fin 2) Unit :=
  (alone (drainedList.publish 0 ()) ⟨1,1,0,0,false,false,.blocked⟩).set 1
    ({drainedList.publish 0 () with waiting := 0}.push 1 .top (.waiter ()))
    ⟨0,0,0,0,false,false,.waking [] {0} false .top⟩

theorem pushedReached : Reachable Step start pushed := by
  have takes := (waits.trans (aloneRun (toWait (drainedList.publish 0 ()) 1))).tail (.takes 1 [()] 0 rfl rfl)
  have pushes := takes.tail (.pushes 1 rfl)
  rw [setAgain] at pushes
  exact pushes

end Runs

section Results
variable {T N : Type*} [DecidableEq T] [DecidableEq N] [Fintype T] [Inhabited T] {c : State T N}

/- A coroutine that waits at an object has its node in one place and no other has any, so that it is
resumed once; its thread counts it and does not leave schedule() before, so that no node is pushed
onto the list of a scheduler that has exited. -/
theorem waitersKept (reached : Reachable Step start c) :
    (∀ n, places c.shared n + c.total (carries n) = sleeps c.shared n) ∧
      (∀ n ∈ c.shared.asleep, (c.locals (c.shared.tid n)).pc ≠ .exited) ∧
      (∀ t, (c.locals t).pc = .top → (c.locals t).syncEvents = (parked c.shared t).card) ∧
      ∀ t, (c.locals t).pc ≠ .fatal := by
  have inv := reachedInv reached
  refine ⟨inv.place,fun n asleep exited => ?_,fun t here => ?_,fun t => (inv.own t).sane⟩
  · have own := inv.own (c.shared.tid n)
    have counted := own.counted
    rw [own.settled (.inr exited), exited] at counted
    have some : 0 < (parked c.shared (c.shared.tid n)).card := Finset.card_pos.mpr ⟨n,memParked.mpr ⟨asleep,rfl⟩⟩
    simp [published, returning] at counted
    omega
  · have counted := (inv.own t).counted
    rw [here] at counted
    simpa [published, returning] using counted

theorem pushedKept : places pushed.shared () + pushed.total (carries ()) = sleeps pushed.shared () ∧
    (pushed.locals (pushed.shared.tid ())).pc ≠ .exited := by
  obtain ⟨place,kept,-⟩ := waitersKept pushedReached
  exact ⟨place (),kept () (by decide)⟩

theorem announced (reached : Reachable Step start c) {t : T} (blocked : (c.locals t).pc = .blocked)
    (nodes : c.shared.syncList t ≠ []) :
    c.shared.told t = true ∨ (c.shared.reading t = true ∧ c.shared.noticed t = true) ∨
      (∃ u, t ∈ owed (c.locals u).pc) ∨ c.shared.late t = true := by
  have inv := reachedInv reached
  have heard := (inv.heard t (by rw [blocked]; rfl)).resolve_left nodes
  rcases heard with late | told | noticed | writer
  · exact .inr (.inr (.inr late))
  · exact .inl told
  · rcases (inv.own t).reads with reading | told | retry
    · exact .inr (.inl ⟨reading,noticed⟩)
    · exact .inl told
    · rw [(inv.own t).waits blocked] at retry
      cases retry
  · exact .inr (.inr (.inl writer))

end Results

end Uco.SyncWait
