import Uco.Interleaving
import Uco.Sleeper
import Uco.TimerHeap

/-! One thread's thread_co_env::schedule with the sleeps registered on it, against wakes
from any other threads. Coroutines other than sleepers are arbitrary: they change the
event counters and the yield and sqe lists at will. A wake's exchange and its push are
two steps; asleep marks a registered sleep that has not been resumed. -/
namespace Uco.Scheduler
open Interleaving TimerHeap
open Sleeper (Slot)

inductive Ret where
  | top
  | sqeNext
  | drainSync (noSqe : Bool)
  | drainYield (noSqe : Bool)
  | events
  | fire (now : Int)
  deriving DecidableEq, Repr

inductive Pc (N : Type*) where
  | running (ret : Ret)
  | register (n : N) (ret : Ret)
  | parking (n : N) (ret : Ret)
  | resumed (n : N) (ret : Ret)
  | top
  | active
  | drainSqe
  | sqeNext
  | drainSync (noSqe : Bool)
  | drainYield (noSqe : Bool)
  | drained (noSqe : Bool)
  | arm
  | wait
  | events
  | fire (now : Int)
  | fired (now : Int) (n : N)
  | exited
  | fatal
  deriving DecidableEq, Repr

variable {N : Type*}

def Ret.pc : Ret → Pc N
  | .top => .top
  | .sqeNext => .sqeNext
  | .drainSync b => .drainSync b
  | .drainYield b => .drainYield b
  | .events => .events
  | .fire now => .fire now

structure Sleeps (N : Type*) where
  timers : Timers N
  st : N → Slot
  asleep : N → Bool
  syncList : List (Option N)

structure Counters where
  ioEvents : Int
  syncEvents : Int
  yields : ℕ
  sqes : ℕ
  sqeFailed : Bool
  inflight : Int
  armPending : Bool
  armedDeadline : Int
  armedUserData : ℕ
  gen : ℕ
  deriving DecidableEq, Repr

structure Shared (N : Type*) where
  sleeps : Sleeps N
  counters : Counters
  pc : Pc N

def Counters.getSqe (k : Counters) (ok : Bool) : Counters :=
  if ok then {k with sqeFailed := false, ioEvents := k.ioEvents + 1} else {k with sqeFailed := true}

/- timer_refresh; the arguments say which of its two get_sqe calls succeed. -/
def Counters.refresh (k : Counters) (t : Timers N) (first second : Bool) : Counters :=
  match t.heap.head? with
  | none =>
    if 0 < k.inflight then {k.getSqe first with armPending := !first} else {k with armPending := false}
  | some n =>
    if 0 < k.inflight ∧ k.armedDeadline ≤ t.deadline n ∧ k.armPending = false then k else
    let k := if 0 < k.inflight then k.getSqe first else k
    let k := k.getSqe second
    if second then
      {k with gen := k.gen + 1, armedUserData := (k.gen + 1) * 256 + 2, armedDeadline := t.deadline n,
              inflight := k.inflight + 1, armPending := false}
    else {k with armPending := true}

def timerActive (g : Shared N) : Prop :=
  g.sleeps.timers.heap ≠ [] ∨ 0 < g.counters.inflight ∨ g.counters.armPending = true

def quiet (g : Shared N) : Prop :=
  g.counters.ioEvents = 0 ∧ g.counters.syncEvents = 0 ∧ g.counters.yields = 0 ∧ g.counters.sqes = 0 ∧
    g.sleeps.syncList = []

inductive WakePc (N : Type*) where
  | idle
  | pushing (n : N)
  deriving DecidableEq, Repr

def keeps : Pc N → N → Prop
  | .parking m _, n => m = n
  | .fired _ m, n => m = n
  | _, _ => False

def resuming : Pc N → N → Prop
  | .resumed m _, n => m = n
  | _, _ => False

def registering : Pc N → N → Prop
  | .register m _, n => m = n
  | _, _ => False

def held (s : Sleeps N) (pc : Pc N) (n : N) : Prop := n ∈ s.timers.heap ∨ keeps pc n

def plain : Pc N → Prop
  | .parking _ _ | .fired _ _ | .resumed _ _ | .register _ _ => False
  | _ => True

theorem plainRet (ret : Ret) : plain (ret.pc : Pc N) := by cases ret <;> trivial

theorem plainKeeps {pc : Pc N} (here : plain pc) (n : N) : ¬keeps pc n := by
  cases pc <;> simp_all [plain, keeps]

variable [DecidableEq N]

inductive RunMove : Shared N → Shared N → Prop where
  | other {s k ret} (io sync : Int) (yields sqes : ℕ) (failed : Bool) : RunMove ⟨s,k,.running ret⟩
      ⟨s,{k with ioEvents := io, syncEvents := sync, yields := yields, sqes := sqes, sqeFailed := failed},.running ret⟩
  | finish {s k ret} : RunMove ⟨s,k,.running ret⟩ ⟨s,k,ret.pc⟩
  | claim {s k ret} (n : N) (free : s.st n = .idle) : RunMove ⟨s,k,.running ret⟩
      ⟨{s with st := Function.update s.st n .registering},k,.register n ret⟩
  | park {s k n ret} (deadline : Int) : RunMove ⟨s,k,.register n ret⟩
      ⟨{s with timers := {s.timers with deadline := Function.update s.timers.deadline n deadline},
               st := Function.update s.st n .parked, asleep := Function.update s.asleep n true},k,.parking n ret⟩
  | push {s k n ret} (first second : Bool) (out : s.timers.inHeap n = false) : RunMove ⟨s,k,.parking n ret⟩
      ⟨{s with timers := s.timers.push n},k.refresh (s.timers.push n) first second,.running ret⟩
  | pushFatal {s k n ret} (broken : s.timers.inHeap n = true) : RunMove ⟨s,k,.parking n ret⟩ ⟨s,k,.fatal⟩
  | awake {s k n ret} (first second : Bool) (inside : s.timers.inHeap n = true) : RunMove ⟨s,k,.resumed n ret⟩
      ⟨{s with timers := s.timers.remove n, st := Function.update s.st n .idle},
        k.refresh (s.timers.remove n) first second,.running ret⟩
  | awakeOut {s k n ret} (out : s.timers.inHeap n = false) : RunMove ⟨s,k,.resumed n ret⟩
      ⟨{s with timers := s.timers.remove n, st := Function.update s.st n .idle},k,.running ret⟩

inductive LoopMove : Shared N → Shared N → Prop where
  | test {s k} (idle : quiet ⟨s,k,.top⟩) : LoopMove ⟨s,k,.top⟩ ⟨s,k,.active⟩
  | busy {s k} (work : ¬quiet ⟨s,k,.top⟩) : LoopMove ⟨s,k,.top⟩ ⟨s,k,.drainSqe⟩
  | stay {s k} (first second : Bool) (timer : timerActive ⟨s,k,.active⟩) :
      LoopMove ⟨s,k,.active⟩ ⟨s,k.refresh s.timers first second,.drainSqe⟩
  | exit {s k} (done : ¬timerActive ⟨s,k,.active⟩) : LoopMove ⟨s,k,.active⟩ ⟨s,k,.exited⟩
  | sqe {s k left} (some : k.sqes = left + 1) :
      LoopMove ⟨s,k,.drainSqe⟩ ⟨s,{k with sqes := left},.running .sqeNext⟩
  | sqeNext {s k} : LoopMove ⟨s,k,.sqeNext⟩ ⟨s,k,if k.sqeFailed then .drainSync true else .drainSqe⟩
  | sqeEmpty {s k} (none : k.sqes = 0) : LoopMove ⟨s,k,.drainSqe⟩ ⟨s,k,.drainSync false⟩
  | syncSleeper {s k b n rest} (head : s.syncList = some n :: rest) : LoopMove ⟨s,k,.drainSync b⟩
      ⟨{s with syncList := rest, asleep := Function.update s.asleep n false},k,.resumed n (.drainSync b)⟩
  | syncOther {s k b rest} (head : s.syncList = none :: rest) : LoopMove ⟨s,k,.drainSync b⟩
      ⟨{s with syncList := rest},k,.running (.drainSync b)⟩
  | syncEmpty {s k b} (none : s.syncList = []) : LoopMove ⟨s,k,.drainSync b⟩ ⟨s,k,.drainYield b⟩
  | yield {s k b left} (some : k.yields = left + 1) :
      LoopMove ⟨s,k,.drainYield b⟩ ⟨s,{k with yields := left},.running (.drainYield b)⟩
  | yieldEmpty {s k b} (none : k.yields = 0) : LoopMove ⟨s,k,.drainYield b⟩ ⟨s,k,.drained b⟩
  | again {s k b} (work : ¬((k.sqes = 0 ∨ b = true) ∧ k.yields = 0)) : LoopMove ⟨s,k,.drained b⟩ ⟨s,k,.drainSqe⟩
  | drained {s k b} (done : (k.sqes = 0 ∨ b = true) ∧ k.yields = 0) : LoopMove ⟨s,k,.drained b⟩ ⟨s,k,.arm⟩
  | arm {s k} (first second : Bool) (deferred : k.armPending = true) :
      LoopMove ⟨s,k,.arm⟩ ⟨s,k.refresh s.timers first second,.wait⟩
  | armed {s k} (done : k.armPending = false) : LoopMove ⟨s,k,.arm⟩ ⟨s,k,.wait⟩
  | noWait {s k} (none : k.ioEvents ≤ 0) : LoopMove ⟨s,k,.wait⟩ ⟨s,k,.top⟩
  | wait {s k} (some : 0 < k.ioEvents) : LoopMove ⟨s,k,.wait⟩ ⟨s,k,.events⟩

/- The completions and timer_on_fire. The kernel completes only requests it was given. -/
inductive EventMove : Shared N → Shared N → Prop where
  | canceled {s k} (open' : 0 < k.ioEvents) :
      EventMove ⟨s,k,.events⟩ ⟨s,{k with ioEvents := k.ioEvents - 1},.events⟩
  | notify {s k} (failed : Bool) : EventMove ⟨s,k,.events⟩ ⟨s,{k with sqeFailed := failed},.events⟩
  | completion {s k} (open' : 0 < k.ioEvents) :
      EventMove ⟨s,k,.events⟩ ⟨s,{k with ioEvents := k.ioEvents - 1},.running .events⟩
  | timer {s k} (now : Int) (open' : 0 < k.ioEvents) (armed : 0 < k.inflight) : EventMove ⟨s,k,.events⟩
      ⟨s,{k with ioEvents := k.ioEvents - 1, inflight := k.inflight - 1},.fire now⟩
  | done {s k} : EventMove ⟨s,k,.events⟩ ⟨s,k,.top⟩
  | pop {s k now n} (front : s.timers.heap.head? = some n) (due : s.timers.deadline n ≤ now) :
      EventMove ⟨s,k,.fire now⟩ ⟨{s with timers := s.timers.popFront n},k,.fired now n⟩
  | expire {s k now n} (parked : s.st n = .parked) : EventMove ⟨s,k,.fired now n⟩
      ⟨{s with st := Function.update s.st n .expired, asleep := Function.update s.asleep n false},k,
        .resumed n (.fire now)⟩
  | lost {s k now n} (other : s.st n ≠ .parked) : EventMove ⟨s,k,.fired now n⟩ ⟨s,k,.fire now⟩
  | fired {s k now} (first second : Bool)
      (later : ∀ n, s.timers.heap.head? = some n → now < s.timers.deadline n) :
      EventMove ⟨s,k,.fire now⟩ ⟨s,k.refresh s.timers first second,.events⟩

def ThreadMove (g g' : Shared N) : Prop := RunMove g g' ∨ LoopMove g g' ∨ EventMove g g'

/- usleeper::wake from another thread, and any other push to this thread's sync list. -/
inductive WakeMove : Shared N → WakePc N → Shared N → WakePc N → Prop where
  | win {s k pc} (n : N) (parked : s.st n = .parked) : WakeMove ⟨s,k,pc⟩ .idle
      ⟨{s with st := Function.update s.st n .woken},k,pc⟩ (.pushing n)
  | push {s k pc n} : WakeMove ⟨s,k,pc⟩ (.pushing n) ⟨{s with syncList := some n :: s.syncList},k,pc⟩ .idle
  | post {s k pc} : WakeMove ⟨s,k,pc⟩ .idle ⟨{s with syncList := none :: s.syncList},k,pc⟩ .idle

def system (N : Type*) [DecidableEq N] : System (Shared N) (WakePc N) := ⟨ThreadMove, WakeMove⟩

abbrev State (T N : Type*) := Config (Shared N) (WakePc N) T

def start (T N : Type*) (deadline : N → Int) (idx : N → ℕ) : State T N :=
  ⟨⟨⟨⟨[],deadline,idx,fun _ => false⟩,fun _ => .idle,fun _ => false,[]⟩,⟨0,0,0,0,false,0,false,0,0,0⟩,
    .running .top⟩,fun _ => .idle⟩

/- schedule() has left its loop, scheduler_state is 2, and every sleep was resumed. -/
def abandonsNone (g : Shared N) : Prop := g.pc = .exited → ∀ n, g.sleeps.asleep n = false

def pushing (n : N) : WakePc N → ℕ
  | .pushing m => if m = n then 1 else 0
  | .idle => 0

def due (s : Sleeps N) (n : N) : ℕ := if s.asleep n = true ∧ s.st n = .woken then 1 else 0

structure Invariant (s : Sleeps N) (pc : Pc N) (wakes : N → ℕ) : Prop where
  valid : Valid s.timers
  kept : ∀ n, s.asleep n = true → s.st n = .parked ∧ held s pc n ∨ s.st n = .woken
  parked : ∀ n, s.st n = .parked → s.asleep n = true
  owed : ∀ n, wakes n + s.syncList.count (some n) = due s n
  resumed : ∀ n, resuming pc n → s.asleep n = false
  registered : ∀ n, registering pc n → s.st n = .registering

section Moves
variable {s s' : Sleeps N} {k k' : Counters} {pc pc' : Pc N} {wakes : N → ℕ}

omit [DecidableEq N] in
theorem keptMove (next : Pc N) {n : N} (old : s.st n = .parked ∧ held s pc n ∨ s.st n = .woken)
    (drops : ¬keeps pc n) : s.st n = .parked ∧ held s next n ∨ s.st n = .woken :=
  old.imp_left (And.imp_right fun here => .inl (here.resolve_right drops))

theorem plainMove (inv : Invariant s pc wakes) (from' : plain pc) (here : plain pc') : Invariant s pc' wakes := by
  refine ⟨inv.valid,fun n asleep => keptMove pc' (inv.kept n asleep) (plainKeeps from' n),inv.parked,inv.owed,?_,?_⟩
  · intro n resumes
    cases pc' <;> simp_all [plain, resuming]
  · intro n registers
    cases pc' <;> simp_all [plain, registering]

theorem notAsleep {n : N} (inv : Invariant s pc wakes) (parked : s.st n ≠ .parked) (woken : s.st n ≠ .woken) :
    s.asleep n = false := by
  cases asleep : s.asleep n with
  | false => rfl
  | true => exact ((inv.kept n asleep).elim (fun h => parked h.1) woken).elim

theorem awakeMove {n : N} {ret ret' : Ret} (inv : Invariant s (.resumed n ret) wakes) :
    Invariant {s with timers := s.timers.remove n, st := Function.update s.st n .idle} (.running ret') wakes := by
  obtain ⟨valid,members⟩ := removeValid n inv.valid
  have away := inv.resumed n rfl
  refine ⟨valid,fun m asleep => ?_,fun m parked => ?_,fun m => ?_,fun m h => h.elim,fun m h => h.elim⟩
  · have other : m ≠ n := by
      rintro rfl
      simp_all
    have old := keptMove (.running ret') (inv.kept m asleep) id
    simpa [held, keeps, other, members] using old
  · by_cases same : m = n
    · simp [same] at parked
    · exact inv.parked m (by simpa [same] using parked)
  · rw [inv.owed]
    by_cases same : m = n
    · simp [due, same, away]
    · simp [due, same]

theorem runInvariant (taken : RunMove ⟨s,k,pc⟩ ⟨s',k',pc'⟩) (inv : Invariant s pc wakes) :
    Invariant s' pc' wakes := by
  cases taken with
  | other => exact plainMove inv trivial trivial
  | finish => exact plainMove inv trivial (plainRet _)
  | @claim s k ret n free =>
    have away := notAsleep (n := n) inv (by simp_all) (by simp_all)
    refine ⟨inv.valid,fun m asleep => ?_,fun m parked => ?_,fun m => ?_,fun m h => h.elim,?_⟩
    · have other : m ≠ n := by
        rintro rfl
        simp_all
      have old := keptMove (.register n ret) (inv.kept m asleep) id
      simpa [held, other] using old
    · by_cases same : m = n
      · simp [same] at parked
      · exact inv.parked m (by simpa [same] using parked)
    · rw [inv.owed]
      by_cases same : m = n
      · simp [due, same, away]
      · simp [due, same]
    · rintro m rfl
      exact Function.update_self ..
  | @park s k n ret deadline =>
    have away := notAsleep (n := n) inv (by simp [inv.registered n rfl]) (by simp [inv.registered n rfl])
    refine ⟨⟨inv.valid.indexed,inv.valid.member⟩,fun m asleep => ?_,fun m parked => ?_,fun m => ?_,
      fun m h => h.elim,fun m h => h.elim⟩
    · by_cases same : m = n
      · subst same
        exact .inl ⟨Function.update_self ..,.inr rfl⟩
      · simp only [Function.update_of_ne same] at asleep
        have old := keptMove (.parking n ret) (inv.kept m asleep) id
        simpa [held, same] using old
    · by_cases same : m = n
      · simp [same]
      · simpa [same] using inv.parked m (by simpa [same] using parked)
    · rw [inv.owed]
      by_cases same : m = n
      · simp [due, same, away]
      · simp [due, same]
  | @push s k n ret first second out =>
    obtain ⟨valid,members⟩ := pushValid inv.valid out
    refine ⟨valid,fun m asleep => ?_,inv.parked,inv.owed,fun m h => h.elim,fun m h => h.elim⟩
    refine (inv.kept m asleep).imp_left (And.imp_right ?_)
    rintro (here | same)
    · exact .inl ((members m).mpr (.inl here))
    · exact .inl ((members m).mpr (.inr same.symm))
  | @pushFatal s k n ret broken =>
    refine ⟨inv.valid,fun m asleep => ?_,inv.parked,inv.owed,fun m h => h.elim,fun m h => h.elim⟩
    refine (inv.kept m asleep).imp_left (And.imp_right ?_)
    rintro (here | same)
    · exact .inl here
    · exact .inl (same ▸ (inv.valid.member n).mp broken)
  | awake first second inside => exact awakeMove inv
  | awakeOut out => exact awakeMove inv

theorem loopInvariant (taken : LoopMove ⟨s,k,pc⟩ ⟨s',k',pc'⟩) (inv : Invariant s pc wakes) :
    Invariant s' pc' wakes := by
  cases taken with
  | @syncSleeper s k b n rest head =>
    have owed := inv.owed
    simp only [head] at owed
    refine ⟨inv.valid,fun m asleep => ?_,fun m parked => ?_,fun m => ?_,?_,fun m h => h.elim⟩
    · have other : m ≠ n := by
        rintro rfl
        simp at asleep
      simp only [Function.update_of_ne other] at asleep
      exact keptMove _ (inv.kept m asleep) id
    · replace parked : s.st m = .parked := parked
      have other : m ≠ n := by
        rintro rfl
        have := owed m
        simp [due, parked] at this
      simpa [other] using inv.parked m parked
    · have old := owed m
      by_cases same : m = n
      · subst same
        simp only [due, List.count_cons_self, Function.update_self] at old ⊢
        grind
      · simpa [due, same, Ne.symm same] using old
    · rintro m rfl
      exact Function.update_self ..
  | @syncOther s k b rest head =>
    refine ⟨inv.valid,fun m asleep => keptMove _ (inv.kept m asleep) id,inv.parked,fun m => ?_,
      fun m h => h.elim,fun m h => h.elim⟩
    simpa [head, due] using inv.owed m
  | @sqeNext s k =>
    refine plainMove inv trivial ?_
    split <;> trivial
  | _ => exact plainMove inv trivial trivial

theorem eventInvariant (taken : EventMove ⟨s,k,pc⟩ ⟨s',k',pc'⟩) (inv : Invariant s pc wakes) :
    Invariant s' pc' wakes := by
  cases taken with
  | @pop s k now n front due =>
    have first : s.timers.heap[0]? = some n := by rw [← List.head?_eq_getElem?]; exact front
    obtain ⟨valid,members⟩ := popFrontValid inv.valid first
    refine ⟨valid,fun m asleep => ?_,inv.parked,inv.owed,fun m h => h.elim,fun m h => h.elim⟩
    refine (inv.kept m asleep).imp_left (And.imp_right ?_)
    rintro (here | none)
    · by_cases same : n = m
      · exact .inr same
      · exact .inl ((members m).mpr ⟨here,Ne.symm same⟩)
    · exact none.elim
  | @expire s k now n parked =>
    refine ⟨inv.valid,fun m asleep => ?_,fun m parked => ?_,fun m => ?_,?_,fun m h => h.elim⟩
    · have other : m ≠ n := by
        rintro rfl
        simp at asleep
      simp only [Function.update_of_ne other] at asleep
      have old := keptMove (.resumed n (.fire now)) (inv.kept m asleep) (Ne.symm other)
      simpa [held, other] using old
    · by_cases same : m = n
      · simp [same] at parked
      · simpa [same] using inv.parked m (by simpa [same] using parked)
    · rw [inv.owed]
      by_cases same : m = n
      · simp [due, same, parked]
      · simp [due, same]
    · rintro m rfl
      exact Function.update_self ..
  | @lost s k now n other =>
    refine ⟨inv.valid,fun m asleep => ?_,inv.parked,inv.owed,fun m h => h.elim,fun m h => h.elim⟩
    rcases inv.kept m asleep with ⟨parked,here⟩ | woken
    · refine .inl ⟨parked,.inl (here.resolve_right ?_)⟩
      rintro rfl
      exact other parked
    · exact .inr woken
  | _ => exact plainMove inv trivial trivial

theorem threadInvariant {g g' : Shared N} (taken : ThreadMove g g') (inv : Invariant g.sleeps g.pc wakes) :
    Invariant g'.sleeps g'.pc wakes := by
  rcases taken with run | loop | event
  · exact runInvariant run inv
  · exact loopInvariant loop inv
  · exact eventInvariant event inv

theorem wakeInvariant {g g' : Shared N} {l l' : WakePc N} {wakes' : N → ℕ} (taken : WakeMove g l g' l')
    (posted : ∀ n, wakes' n + pushing n l = wakes n + pushing n l') (inv : Invariant g.sleeps g.pc wakes) :
    Invariant g'.sleeps g'.pc wakes' := by
  cases taken with
  | @win s k pc n parked =>
    have asleep := inv.parked n parked
    simp only at asleep parked
    refine ⟨inv.valid,fun m asleep => ?_,fun m parked => ?_,fun m => ?_,inv.resumed,fun m h => ?_⟩
    · by_cases same : m = n
      · exact .inr (by simp [same])
      · have old := inv.kept m asleep
        simpa [held, same] using old
    · by_cases same : m = n
      · simp [same] at parked
      · exact inv.parked m (by simpa [same] using parked)
    · have old := inv.owed m
      have new := posted m
      by_cases same : n = m
      · subst same
        simp [due, pushing, asleep, parked] at old new ⊢
        omega
      · simp [due, pushing, same, Ne.symm same] at old new ⊢
        omega
    · have registered := inv.registered m h
      have other : m ≠ n := by
        rintro rfl
        simp_all
      simpa [other] using registered
  | @push s k pc n =>
    refine ⟨inv.valid,inv.kept,inv.parked,fun m => ?_,inv.resumed,inv.registered⟩
    have old := inv.owed m
    have new := posted m
    by_cases same : n = m
    · subst same
      simp [due, pushing] at old new ⊢
      omega
    · simp [due, pushing, same] at old new ⊢
      omega
  | @post s k pc =>
    refine ⟨inv.valid,inv.kept,inv.parked,fun m => ?_,inv.resumed,inv.registered⟩
    have old := inv.owed m
    have new := posted m
    simp [due, pushing] at old new ⊢
    omega

end Moves

section Runs
variable {T : Type*} [Fintype T]

def Invariant.of (c : State T N) : Prop := Invariant c.shared.sleeps c.shared.pc (fun n => c.total (pushing n))

/- When the exit test succeeds, no sleeper has reached the sync list since the test read it
empty, and no wake that won has its push still to make. -/
def exitsClean (c d : State T N) : Prop :=
  c.shared.pc = .active → d.shared.pc = .exited →
    (∀ n, some n ∉ c.shared.sleeps.syncList) ∧ ∀ t n, c.locals t ≠ .pushing n

theorem startInvariant (deadline : N → Int) (idx : N → ℕ) : Invariant.of (start T N deadline idx) := by
  refine ⟨⟨nofun,fun n => ?_⟩,nofun,nofun,fun n => ?_,fun n h => h.elim,fun n h => h.elim⟩
  · simp [start]
  · have none : (start T N deadline idx).total (pushing n) = 0 := totalConst _ _ (fun _ => rfl) rfl
    rw [none]
    simp [start, due]

variable [DecidableEq T]

theorem stepInvariant {c d : State T N} (inv : Invariant.of c) (taken : Step (system N) c d) : Invariant.of d := by
  cases taken with
  | solo taken => exact threadInvariant taken inv
  | @move t g l taken => exact wakeInvariant taken (fun n => totalSet c (pushing n) t g l) inv

omit [DecidableEq T] in
theorem exitIff {c : State T N} (inv : Invariant.of c) (here : c.shared.pc = .active)
    (empty : c.shared.sleeps.timers.heap = []) : (∀ n, c.shared.sleeps.asleep n = false) ↔
      (∀ n, some n ∉ c.shared.sleeps.syncList) ∧ ∀ t n, c.locals t ≠ .pushing n := by
  constructor
  · intro none
    have zero : ∀ n, due c.shared.sleeps n = 0 := fun n => by simp [due, none n]
    refine ⟨fun n listed => ?_,fun t n pushes => ?_⟩
    · have := inv.owed n
      have := List.count_pos_iff.mpr listed
      rw [zero] at *
      omega
    · have := inv.owed n
      have mine := leTotal c (pushing n) t
      simp only [pushes, pushing, if_true] at mine
      rw [zero] at *
      omega
  · rintro ⟨unlisted,noPush⟩ n
    have owed := inv.owed n
    rw [List.count_eq_zero.mpr (unlisted n)] at owed
    have none : c.total (pushing n) = 0 := by
      refine Finset.sum_eq_zero (fun t _ => ?_)
      cases h : c.locals t with
      | idle => rfl
      | pushing m => 
        have : m ≠ n := fun same => noPush t n (same ▸ h)
        simp [pushing, this]
    cases asleep : c.shared.sleeps.asleep n with
    | false => rfl
    | true =>
      rcases inv.kept n asleep with ⟨-,inside | kept⟩ | woken
      · rw [empty] at inside
        cases inside
      · rw [here] at kept
        exact kept.elim
      · simp [none, due, asleep, woken] at owed

omit [Fintype T] [DecidableEq T] in
theorem exitOnly {g g' : Shared N} (taken : ThreadMove g g') (exits : g'.pc = .exited) :
    g.pc = .active ∧ g.sleeps.timers.heap = [] ∧ g'.sleeps = g.sleeps := by
  rcases taken with run | loop | event
  · cases run with
    | @finish s k ret => cases ret <;> cases exits
    | _ => cases exits
  · cases loop with
    | @exit s k done =>
      refine ⟨rfl,?_,rfl⟩
      by_contra some
      exact done (.inl some)
    | @sqeNext s k =>
      simp only at exits
      split at exits <;> cases exits
    | _ => cases exits
  · cases event <;> cases exits

theorem stepAbandons {c d : State T N} (inv : Invariant.of c) (old : abandonsNone c.shared)
    (taken : Step (system N) c d) : abandonsNone d.shared ↔ exitsClean c d := by
  by_cases exits : d.shared.pc = .exited
  · cases taken with
    | @solo g taken =>
      obtain ⟨here,empty,same⟩ := exitOnly taken exits
      have iff := exitIff inv here empty
      refine ⟨fun none _ _ => iff.mp (fun n => ?_),fun clean _ n => ?_⟩
      · rw [← same]
        exact none exits n
      · simp only [same]
        exact iff.mpr (clean here exits) n
    | @move t g l taken =>
      have kept : g.pc = c.shared.pc ∧ g.sleeps.asleep = c.shared.sleeps.asleep := by
        generalize c.shared = g₀ at taken
        generalize c.locals t = l₀ at taken
        cases taken <;> exact ⟨rfl,rfl⟩
      rw [setShared] at exits
      have left : c.shared.pc = .exited := kept.1.symm.trans exits
      refine ⟨fun _ here => ?_,fun _ _ n => ?_⟩
      · rw [left] at here
        cases here
      · rw [setShared, kept.2]
        exact old left n
  · exact ⟨fun _ _ left => (exits left).elim,fun _ left => (exits left).elim⟩

/- A run never abandons a sleep exactly when all its exits are clean. -/
theorem abandonsNoneIff {deadline : N → Int} {idx : N → ℕ} {run : List (State T N)}
    (chain : List.IsChain (Step (system N)) (start T N deadline idx :: run)) :
    (∀ c ∈ run, abandonsNone c.shared) ↔ List.IsChain exitsClean (start T N deadline idx :: run) := by
  have always : ∀ {c : State T N}, Reachable (Step (system N)) (start T N deadline idx) c → Invariant.of c :=
    reachableInvariant Invariant.of (startInvariant deadline idx) (fun _ _ inv taken => stepInvariant inv taken)
  exact runGoodIff (fun c => abandonsNone c.shared) (fun _ _ reached old taken => stepAbandons (always reached) old taken)
    .refl nofun chain

end Runs

section Abandoned

def outHeap : Timers Unit := ⟨[],Function.update (fun _ => 0) () 5,fun _ => 0,fun _ => false⟩
def inHeap : Timers Unit := outHeap.push ()
def popped : Timers Unit := inHeap.popFront ()

theorem inHeapHeap : inHeap.heap = [()] := by simp [inHeap, outHeap, Timers.push, siftUp]

theorem inHeapDue : inHeap.deadline () = 5 := by simp [inHeap, outHeap, Timers.push, siftUp]

theorem inHeapValid : Valid inHeap :=
  (pushValid (t := outHeap) (n := ()) ⟨nofun,fun n => by simp [outHeap]⟩ rfl).1

theorem poppedHeap : popped.heap = [] := by
  have members := (popFrontValid inHeapValid (show inHeap.heap[0]? = some () by simp [inHeapHeap])).2
  exact List.eq_nil_iff_forall_not_mem.mpr (fun n here => ((members n).mp here).2 rfl)

def oneSleep (timers : Timers Unit) (st : Slot) (inflight : Int) (pc : Pc Unit) : Shared Unit :=
  ⟨⟨timers,fun _ => st,fun _ => true,[]⟩,⟨inflight,0,0,0,false,inflight,false,5,258,1⟩,pc⟩

theorem armedRefresh : (⟨0,0,0,0,false,0,false,0,0,0⟩ : Counters).refresh inHeap true true =
    ⟨1,0,0,0,false,1,false,5,258,1⟩ := by
  simp [Counters.refresh, Counters.getSqe, inHeapHeap, inHeapDue]

theorem poppedRefresh : (⟨0,0,0,0,false,0,false,5,258,1⟩ : Counters).refresh popped true true =
    ⟨0,0,0,0,false,0,false,5,258,1⟩ := by
  simp [Counters.refresh, poppedHeap]

theorem registers : Relation.ReflTransGen ThreadMove
    (start (Fin 1) Unit (fun _ => 0) (fun _ => 0)).shared (oneSleep inHeap .parked 1 (.running .top)) := by
  have push : RunMove ⟨_,_,.parking () .top⟩ _ :=
    RunMove.push (s := ⟨outHeap,fun _ => .parked,fun _ => true,[]⟩) (k := ⟨0,0,0,0,false,0,false,0,0,0⟩)
      (n := ()) true true rfl
  rw [show outHeap.push () = inHeap from rfl, armedRefresh] at push
  refine .tail ?_ (.inl push)
  have park : RunMove ⟨_,_,.register () .top⟩ _ :=
    RunMove.park (s := ⟨⟨[],fun _ => 0,fun _ => 0,fun _ => false⟩,fun _ => .registering,fun _ => false,[]⟩)
      (k := ⟨0,0,0,0,false,0,false,0,0,0⟩) (n := ()) 5
  refine .tail ?_ (.inl park)
  exact .single (.inl (.claim () rfl))

theorem sleepsOn : Relation.ReflTransGen ThreadMove (oneSleep inHeap .parked 1 (.running .top))
    (oneSleep inHeap .parked 1 .events) := by
  refine .tail ?_ (.inr (.inl (.wait Int.one_pos)))
  refine .tail ?_ (.inr (.inl (.armed rfl)))
  refine .tail ?_ (.inr (.inl (.drained (b := false) ⟨.inl rfl,rfl⟩)))
  refine .tail ?_ (.inr (.inl (.yieldEmpty rfl)))
  refine .tail ?_ (.inr (.inl (.syncEmpty rfl)))
  refine .tail ?_ (.inr (.inl (.sqeEmpty rfl)))
  refine .tail ?_ (.inr (.inl (.busy fun idle => absurd idle.1 Int.one_ne_zero)))
  exact .single (.inl .finish)

theorem firesAndExits : Relation.ReflTransGen ThreadMove (oneSleep inHeap .woken 1 .events)
    (oneSleep popped .woken 0 .exited) := by
  have later : ∀ n, popped.heap.head? = some n → (10 : Int) < popped.deadline n := by simp [poppedHeap]
  have none : ¬timerActive (oneSleep popped .woken 0 .active) := by simp [timerActive, oneSleep, poppedHeap]
  refine .tail ?_ (.inr (.inl (.exit none)))
  refine .tail ?_ (.inr (.inl (.test ⟨rfl,rfl,rfl,rfl,rfl⟩)))
  refine .tail ?_ (.inr (.inr .done))
  have fired := EventMove.fired (s := ⟨popped,fun _ => .woken,fun _ => true,[]⟩)
    (k := ⟨0,0,0,0,false,0,false,5,258,1⟩) true true later
  rw [poppedRefresh] at fired
  refine .tail ?_ (.inr (.inr fired))
  refine .tail ?_ (.inr (.inr (.lost (n := ()) nofun)))
  have pop := EventMove.pop (s := ⟨inHeap,fun _ => .woken,fun _ => true,[]⟩) (k := ⟨0,0,0,0,false,0,false,5,258,1⟩)
    (show inHeap.heap.head? = some () by rw [inHeapHeap]; rfl) (show inHeap.deadline () ≤ 10 by rw [inHeapDue]; decide)
  refine .tail ?_ (.inr (.inr pop))
  exact .single (.inr (.inr (.timer 10 Int.one_pos Int.one_pos)))

/- The wake wins before the timeout completes and pushes only after the thread has exited. -/
theorem sleepAbandoned : ∃ c : State (Fin 1) Unit,
    Reachable (Step (system Unit)) (start (Fin 1) Unit (fun _ => 0) (fun _ => 0)) c ∧
      c.locals 0 = .pushing () ∧ ¬abandonsNone c.shared := by
  have r1 : Reachable (Step (system Unit)) (start (Fin 1) Unit (fun _ => 0) (fun _ => 0))
      ⟨oneSleep inHeap .parked 1 .events,fun _ => .idle⟩ := soloReachable (registers.trans sleepsOn)
  have r2 := r1.tail (.move 0 (.win () rfl))
  have r3 := r2.trans (soloReachable firesAndExits)
  refine ⟨_,r3,rfl,fun none => ?_⟩
  exact absurd (none rfl ()) (by decide)

def cleanly (c d : State (Fin 1) Unit) : Prop := Step (system Unit) c d ∧ exitsClean c d

theorem soloClean {c : State (Fin 1) Unit} {g : Shared Unit} (moves : Relation.ReflTransGen ThreadMove c.shared g)
    (here : g.pc ≠ .exited) : Reachable cleanly c ⟨g,c.locals⟩ := by
  induction moves with
  | refl => exact .refl
  | @tail a b _ taken ih =>
    refine (ih fun left => ?_).tail ⟨.solo taken,fun _ exits => (here exits).elim⟩
    obtain ⟨s,k,pc⟩ := a
    obtain rfl : pc = .exited := left
    rcases taken with run | loop | event
    · cases run
    · cases loop
    · cases event

def removed : Timers Unit := inHeap.remove ()

theorem inHeapFlag : inHeap.inHeap () = true := (inHeapValid.member ()).mpr (by simp [inHeapHeap])

theorem removedHeap : removed.heap = [] :=
  List.eq_nil_iff_forall_not_mem.mpr (fun n here => (((removeValid () inHeapValid).2 n).mp here).2 rfl)

theorem removedRefresh : (⟨1,0,0,0,false,1,false,5,258,1⟩ : Counters).refresh removed true true =
    ⟨2,0,0,0,false,1,false,5,258,1⟩ := by
  simp [Counters.refresh, Counters.getSqe, removedHeap]

theorem firedRefresh : (⟨0,0,0,0,false,0,false,5,258,1⟩ : Counters).refresh removed true true =
    ⟨0,0,0,0,false,0,false,5,258,1⟩ := by
  simp [Counters.refresh, removedHeap]

theorem resumesAndIdles : ∃ g, Relation.ReflTransGen ThreadMove
    (⟨⟨inHeap,Function.update (fun _ => .parked) () .woken,fun _ => true,[some ()]⟩,
      ⟨1,0,0,0,false,1,false,5,258,1⟩,.events⟩ : Shared Unit) g ∧
      g.pc = .active ∧ g.sleeps.timers.heap = [] ∧ g.sleeps.syncList = [] ∧ g.counters.inflight = 0 ∧
      g.counters.armPending = false ∧ g.sleeps.asleep () = false := by
  have m1 := Relation.ReflTransGen.single (r := ThreadMove) (.inr (.inr (EventMove.done
    (s := ⟨inHeap,Function.update (fun _ => .parked) () .woken,fun _ => true,[some ()]⟩)
    (k := ⟨1,0,0,0,false,1,false,5,258,1⟩))))
  have m2 := m1.tail (.inr (.inl (.busy fun idle => absurd idle.1 Int.one_ne_zero)))
  have m3 := m2.tail (.inr (.inl (.sqeEmpty rfl)))
  have m4 := m3.tail (.inr (.inl (.syncSleeper rfl)))
  have awake : RunMove ⟨⟨inHeap,Function.update (fun _ => .parked) () .woken,
      Function.update (fun _ => true) () false,[]⟩,⟨1,0,0,0,false,1,false,5,258,1⟩,.resumed () (.drainSync false)⟩ _ :=
    .awake true true inHeapFlag
  rw [show inHeap.remove () = removed from rfl, removedRefresh] at awake
  have m5 := m4.tail (.inl awake)
  have m6 := m5.tail (.inl .finish)
  have m7 := m6.tail (.inr (.inl (.syncEmpty rfl)))
  have m8 := m7.tail (.inr (.inl (.yieldEmpty rfl)))
  have m9 := m8.tail (.inr (.inl (.drained ⟨.inl rfl,rfl⟩)))
  have m10 := m9.tail (.inr (.inl (.armed rfl)))
  have m11 := m10.tail (.inr (.inl (.wait (by decide))))
  have m12 := m11.tail (.inr (.inr (.canceled (by decide))))
  have m13 := m12.tail (.inr (.inr (.timer 10 Int.one_pos Int.one_pos)))
  have fired : EventMove ⟨⟨removed,Function.update (Function.update (fun _ => .parked) () .woken) () .idle,
      Function.update (fun _ => true) () false,[]⟩,⟨0,0,0,0,false,0,false,5,258,1⟩,.fire 10⟩ _ :=
    .fired true true (by simp [removedHeap])
  rw [firedRefresh] at fired
  have m14 := m13.tail (.inr (.inr fired))
  have m15 := m14.tail (.inr (.inr .done))
  have m16 := m15.tail (.inr (.inl (.test ⟨rfl,rfl,rfl,rfl,rfl⟩)))
  exact ⟨_,m16,rfl,removedHeap,rfl,rfl,rfl,rfl⟩

theorem wokenExit : ∃ run : List (State (Fin 1) Unit),
    List.IsChain (Step (system Unit)) (start (Fin 1) Unit (fun _ => 0) (fun _ => 0) :: run) ∧
      (∃ c ∈ run, c.shared.sleeps.asleep () = true ∧ c.locals 0 = .pushing ()) ∧
      (∃ c ∈ run, c.shared.pc = .exited ∧ c.shared.sleeps.asleep () = false) ∧
      ∀ c ∈ run, abandonsNone c.shared := by
  have slept := soloClean (c := start (Fin 1) Unit (fun _ => 0) (fun _ => 0)) (registers.trans sleepsOn) nofun
  have won := slept.tail ⟨.move 0 (.win () rfl),nofun⟩
  obtain ⟨g,moves,here,empty,unlisted,unarmed,noPending,resumed⟩ := resumesAndIdles
  have pushed : Reachable cleanly ⟨oneSleep inHeap .woken 1 .events,Function.update (fun _ => .idle) (0 : Fin 1) (.pushing ())⟩ _ :=
    .single ⟨.move 0 (.push (n := ())),nofun⟩
  have idles := pushed.trans (soloClean moves (by simp [here]))
  obtain ⟨s,k,pc⟩ := g
  subst here
  have none : ¬timerActive (⟨s,k,.active⟩ : Shared Unit) := by simp_all [timerActive]
  have exits := idles.tail ⟨.solo (.inr (.inl (.exit none))),fun _ _ => ⟨by simp_all,fun t n => ?_⟩⟩
  swap
  · obtain rfl := Subsingleton.elim t 0
    nofun
  obtain ⟨run,chain,through,ends⟩ := runThrough won exits
  have steps := chain.imp (fun _ _ fair => fair.1)
  refine ⟨run,steps,⟨_,List.mem_of_ne_of_mem ?_ through,rfl,rfl⟩,⟨_,List.mem_of_ne_of_mem ?_ ends,rfl,resumed⟩,
    (abandonsNoneIff steps).mpr (chain.imp fun _ _ fair => fair.2)⟩
  · intro same
    exact absurd (congrArg (fun c => c.shared.sleeps.asleep ()) same) (show true ≠ false by decide)
  · intro same
    exact absurd (congrArg (fun c => c.shared.pc) same) nofun

end Abandoned
end Uco.Scheduler
