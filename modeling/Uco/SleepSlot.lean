import Uco.Sleeper
import Uco.TimerHeap

/-! usleeper with any number of sleepers, coroutines and threads. A thread runs one
thing at a time: its scheduler, a coroutine, or timer_on_fire, which resumes the
sleep it has expired on the spot. The fields other than st are written by the
owner of the slot; idx and in_heap, like the heap itself, by the sleeping thread
alone, so a heap operation is one step. -/
namespace Uco.SleepSlot
open Interleaving TimerHeap
open Sleeper (Slot Result)

/- winners and resumes record, for the last sleep that has taken the slot, who left
PARKED and how often its coroutine was resumed. nullRead, stray and fatal record a
winner that read a null prom, a resumption of a coroutine that does not sleep, and
the SYSFTL of timer_push. -/
structure Shared (U K Θ : Type*) where
  st : U → Slot
  prom : U → Option K
  tid : U → Option Θ
  deadline : U → Int
  idx : U → ℕ
  inHeap : U → Bool
  pending : U → ℕ
  heap : Θ → List U
  sync : Θ → List K
  sleeping : K → Option U
  winners : U → List Result
  resumes : U → ℕ
  nullRead : Bool
  stray : Bool
  fatal : Bool

/- `outside` is a thread that runs no coroutines. A call of wake returns to the
coroutine that made it, if one did. -/
inductive Pc (U K : Type*) where
  | outside
  | scheduler
  | user (k : K)
  | exchange (k : K) (u : U) (ns : Int)
  | duration (k : K) (u : U) (ns : Int)
  | claim (k : K) (u : U) (ns : Int)
  | register (k : K) (u : U) (ns : Int)
  | park (k : K) (u : U)
  | push (k : K) (u : U)
  | load (k : K) (u : U)
  | remove (k : K) (u : U) (s : Slot)
  | clear (k : K) (u : U) (s : Slot)
  | free (k : K) (u : U) (s : Slot)
  | returned (k : K) (r : Result)
  | wakeSwap (back : Option K) (u : U)
  | wakeWon (back : Option K) (u : U)
  | wakePush (back : Option K) (k : K)
  | wakeAdd (back : Option K) (u : U)
  | popped (u : U)
  | fired (u : U)

/- `firing` is the time that a timer_on_fire in progress has read. -/
structure Local (U K Θ : Type*) where
  self : Θ
  firing : Option Int
  pc : Pc U K

section Model
variable {U K Θ : Type*} [DecidableEq U] [DecidableEq K] [DecidableEq Θ] (home : K → Θ)

def Shared.timers (g : Shared U K Θ) (self : Θ) : Timers U := ⟨g.heap self, g.deadline, g.idx, g.inHeap⟩

def Shared.store (g : Shared U K Θ) (self : Θ) (t : Timers U) : Shared U K Θ :=
  {g with heap := Function.update g.heap self t.heap, idx := t.idx, inHeap := t.inHeap}

def resultOf (s : Slot) : Result := if s = .expired then .expired else .woken

def back : Option K → Pc U K
  | some k => .user k
  | none => .outside

def Shared.wakeUp (g : Shared U K Θ) (k : K) (u : U) : Shared U K Θ :=
  {g with
    sleeping := Function.update g.sleeping k none
    resumes := Function.update g.resumes u (g.resumes u + 1)}

/- sleep_for and usleeper_raw_sleep. A coroutine that parks leaves the thread to its scheduler. -/
inductive SleepMove (self : Θ) : Shared U K Θ → Pc U K → Shared U K Θ → Pc U K → Prop where
  | call {g k} (u : U) (ns : Int) : SleepMove self g (.user k) g (.exchange k u ns)
  | consume {g k u ns} (some : 0 < g.pending u) : SleepMove self g (.exchange k u ns)
      {g with pending := Function.update g.pending u 0} (.returned k .woken)
  | none {g k u ns} (zero : g.pending u = 0) : SleepMove self g (.exchange k u ns) g (.duration k u ns)
  | elapsed {g k u ns} (due : ns ≤ 0) : SleepMove self g (.duration k u ns) g (.returned k .expired)
  | positive {g k u ns} (later : 0 < ns) : SleepMove self g (.duration k u ns) g (.claim k u ns)
  | claim {g k u ns} (idle : g.st u = .idle) : SleepMove self g (.claim k u ns)
      {g with
        st := Function.update g.st u .registering
        winners := Function.update g.winners u []
        resumes := Function.update g.resumes u 0} (.register k u ns)
  | reject {g k u ns} (taken : g.st u ≠ .idle) : SleepMove self g (.claim k u ns) g (.returned k .busy)
  | register {g k u ns} (now : Int) : SleepMove self g (.register k u ns)
      {g with
        prom := Function.update g.prom u (some k)
        tid := Function.update g.tid u (some self)
        deadline := Function.update g.deadline u (now + ns)} (.park k u)
  | park {g k u} : SleepMove self g (.park k u) {g with st := Function.update g.st u .parked} (.push k u)
  | push {g k u} (out : g.inHeap u = false) : SleepMove self g (.push k u)
      {g.store self ((g.timers self).push u) with sleeping := Function.update g.sleeping k (some u)} .scheduler
  | pushAgain {g k u} (inside : g.inHeap u = true) : SleepMove self g (.push k u) {g with fatal := true} (.push k u)
  | load {g k u} : SleepMove self g (.load k u) g (.remove k u (g.st u))
  | remove {g k u s} : SleepMove self g (.remove k u s) (g.store self ((g.timers self).remove u)) (.clear k u s)
  | clear {g k u s} : SleepMove self g (.clear k u s) {g with prom := Function.update g.prom u none} (.free k u s)
  | free {g k u s} : SleepMove self g (.free k u s) {g with st := Function.update g.st u .idle}
      (.returned k (resultOf s))
  | returns {g k r} : SleepMove self g (.returned k r) g (.user k)

inductive WakeMove : Shared U K Θ → Pc U K → Shared U K Θ → Pc U K → Prop where
  | call {g k} (u : U) : WakeMove g (.user k) g (.wakeSwap (some k) u)
  | callOutside {g} (u : U) : WakeMove g .outside g (.wakeSwap none u)
  | win {g b u} (parked : g.st u = .parked) : WakeMove g (.wakeSwap b u)
      {g with
        st := Function.update g.st u .woken
        winners := Function.update g.winners u (g.winners u ++ [.woken])} (.wakeWon b u)
  | lose {g b u} (other : g.st u ≠ .parked) : WakeMove g (.wakeSwap b u) g (.wakeAdd b u)
  | read {g b u k} (there : g.prom u = some k) : WakeMove g (.wakeWon b u) g (.wakePush b k)
  | readNull {g b u} (null : g.prom u = none) : WakeMove g (.wakeWon b u) {g with nullRead := true} (back b)
  | push {g b k} : WakeMove g (.wakePush b k)
      {g with sync := Function.update g.sync (home k) (k :: g.sync (home k))} (back b)
  | add {g b u} : WakeMove g (.wakeAdd b u)
      {g with pending := Function.update g.pending u (g.pending u + 1)} (back b)

/- The scheduler and timer_on_fire. A coroutine that yields in the middle of
timer_on_fire returns to its loop. -/
inductive ThreadMove (self : Θ) : Shared U K Θ → Option Int → Pc U K → Shared U K Θ → Option Int → Pc U K → Prop where
  | run {g k} (mine : home k = self) (awake : g.sleeping k = none) :
      ThreadMove self g none .scheduler g none (.user k)
  | switch {g f k} (k' : K) (mine : home k' = self) (awake : g.sleeping k' = none) :
      ThreadMove self g f (.user k) g f (.user k')
  | yield {g f k} : ThreadMove self g f (.user k) g f .scheduler
  | deliver {g k rest u} (next : g.sync self = k :: rest) (asleep : g.sleeping k = some u) :
      ThreadMove self g none .scheduler ({g with sync := Function.update g.sync self rest}.wakeUp k u) none (.load k u)
  | deliverStray {g k rest} (next : g.sync self = k :: rest) (awake : g.sleeping k = none) :
      ThreadMove self g none .scheduler {g with sync := Function.update g.sync self rest, stray := true} none .scheduler
  | fire {g} (now : Int) : ThreadMove self g none .scheduler g (some now) .scheduler
  | pop {g u now} (front : (g.heap self)[0]? = some u) (due : g.deadline u ≤ now) :
      ThreadMove self g (some now) .scheduler (g.store self ((g.timers self).popFront u)) (some now) (.popped u)
  | ended {g now} (later : ∀ u, (g.heap self)[0]? = some u → now < g.deadline u) :
      ThreadMove self g (some now) .scheduler g none .scheduler
  | expire {g f u} (parked : g.st u = .parked) : ThreadMove self g f (.popped u)
      {g with
        st := Function.update g.st u .expired
        winners := Function.update g.winners u (g.winners u ++ [.expired])} f (.fired u)
  | lost {g f u} (other : g.st u ≠ .parked) : ThreadMove self g f (.popped u) g f .scheduler
  | resume {g f u v k} (there : g.prom u = some k) (asleep : g.sleeping k = some v) :
      ThreadMove self g f (.fired u) (g.wakeUp k v) f (.load k v)
  | resumeStray {g f u k} (there : g.prom u = some k) (awake : g.sleeping k = none) :
      ThreadMove self g f (.fired u) {g with stray := true} f .scheduler
  | resumeNull {g f u} (null : g.prom u = none) :
      ThreadMove self g f (.fired u) {g with nullRead := true} f .scheduler

inductive Move : Shared U K Θ → Local U K Θ → Shared U K Θ → Local U K Θ → Prop where
  | sleep {g g' self f p p'} (taken : SleepMove self g p g' p') : Move g ⟨self,f,p⟩ g' ⟨self,f,p'⟩
  | wake {g g' self f p p'} (taken : WakeMove home g p g' p') : Move g ⟨self,f,p⟩ g' ⟨self,f,p'⟩
  | thread {g g' self f f' p p'} (taken : ThreadMove home self g f p g' f' p') : Move g ⟨self,f,p⟩ g' ⟨self,f',p'⟩

def system : System (Shared U K Θ) (Local U K Θ) := ⟨fun _ _ => False, Move home⟩

abbrev State (U K Θ : Type*) := Config (Shared U K Θ) (Local U K Θ) Θ

def start (U K : Type*) {Θ : Type*} (uco : Θ → Bool) : State U K Θ where
  shared := ⟨fun _ => .idle, fun _ => none, fun _ => none, fun _ => 0, fun _ => 0, fun _ => false, fun _ => 0,
    fun _ => [], fun _ => [], fun _ => none, fun _ => [], fun _ => 0, false, false, false⟩
  locals self := ⟨self, none, if uco self then .scheduler else .outside⟩

end Model

inductive Token (Θ : Type*) where
  | won (θ : Θ)
  | sending (θ : Θ)
  | queued

/- The life of one sleep, seen from its node. A token stands for WOKEN, no token for PARKED. -/
inductive Stage (K Θ : Type*) where
  | free
  | registering (k : K)
  | parking (k : K)
  | pushing (k : K) (token : Option (Token Θ))
  | parked (k : K) (heaped : Bool) (token : Option (Token Θ))
  | expired (k : K)
  | resumed (k : K) (heaped : Bool) (woken : Bool)
  | removing (k : K) (heaped : Bool) (woken : Bool)
  | clearing (k : K) (woken : Bool)
  | freeing (k : K) (woken : Bool)

inductive Tag where
  | register
  | park
  | push
  | load
  | remove (s : Slot)
  | clear (s : Slot)
  | free (s : Slot)

section Stages
variable {U K Θ : Type*}

def slotOf (woken : Bool) : Slot := if woken then .woken else .expired

def tokenSlot : Option (Token Θ) → Slot
  | none => .parked
  | some _ => .woken

namespace Stage

def st : Stage K Θ → Slot
  | free => .idle
  | registering _ | parking _ => .registering
  | pushing _ token | parked _ _ token => tokenSlot token
  | expired _ => .expired
  | resumed _ _ woken | removing _ _ woken | clearing _ woken | freeing _ woken => slotOf woken

def prom : Stage K Θ → Option K
  | free | registering _ | freeing _ _ => none
  | parking k | pushing k _ | parked k _ _ | expired k | resumed k _ _ | removing k _ _ | clearing k _ => some k

def owner : Stage K Θ → Option K
  | free => none
  | registering k | parking k | pushing k _ | parked k _ _ | expired k | resumed k _ _ | removing k _ _
  | clearing k _ | freeing k _ => some k

def heaped : Stage K Θ → Bool
  | parked _ heaped _ | resumed _ heaped _ | removing _ heaped _ => heaped
  | _ => false

def sleeps : Stage K Θ → Option K
  | parked k _ _ | expired k => some k
  | _ => none

def runs : Stage K Θ → Option (K × Tag)
  | registering k => some (k,.register)
  | parking k => some (k,.park)
  | pushing k _ => some (k,.push)
  | resumed k _ _ => some (k,.load)
  | removing k _ woken => some (k,.remove (slotOf woken))
  | clearing k woken => some (k,.clear (slotOf woken))
  | freeing k woken => some (k,.free (slotOf woken))
  | free | parked _ _ _ | expired _ => none

def notice : Stage K Θ → Option (K × Token Θ)
  | pushing k (some token) | parked k _ (some token) => some (k,token)
  | _ => none

def Recorded : Stage K Θ → List Result → ℕ → Prop
  | free, winners, resumes => winners.length ≤ 1 ∧ resumes = winners.length
  | registering _, winners, resumes | parking _, winners, resumes | pushing _ none, winners, resumes
  | parked _ _ none, winners, resumes => winners = [] ∧ resumes = 0
  | pushing _ (some _), winners, resumes | parked _ _ (some _), winners, resumes => winners = [.woken] ∧ resumes = 0
  | expired _, winners, resumes => winners = [.expired] ∧ resumes = 0
  | resumed _ _ woken, winners, resumes | removing _ _ woken, winners, resumes | clearing _ woken, winners, resumes
  | freeing _ woken, winners, resumes => winners = [resultOf (slotOf woken)] ∧ resumes = 1

def signal (token : Token Θ) : Stage K Θ → Stage K Θ
  | pushing k _ => pushing k (some token)
  | parked k heaped _ => parked k heaped (some token)
  | s => s

end Stage

namespace Pc

def role : Pc U K → Option (U × K × Tag)
  | register k u _ => some (u,k,.register)
  | park k u => some (u,k,.park)
  | push k u => some (u,k,.push)
  | load k u => some (u,k,.load)
  | remove k u s => some (u,k,.remove s)
  | clear k u s => some (u,k,.clear s)
  | free k u s => some (u,k,.free s)
  | _ => none

def runner : Pc U K → Option K
  | user k | exchange k _ _ | duration k _ _ | claim k _ _ | register k _ _ | park k _ | push k _ | load k _
  | remove k _ _ | clear k _ _ | free k _ _ | returned k _ => some k
  | wakeSwap back _ | wakeWon back _ | wakePush back _ | wakeAdd back _ => back
  | _ => none

def Plain : Pc U K → Prop
  | popped _ | fired _ | wakeWon _ _ | wakePush _ _ => False
  | _ => True

end Pc

structure Node (g : Shared U K Θ) (u : U) (s : Stage K Θ) : Prop where
  st : g.st u = s.st
  prom : g.prom u = s.prom
  inHeap : g.inHeap u = s.heaped
  recorded : s.Recorded (g.winners u) (g.resumes u)

variable (home : K → Θ)

structure Heaps (g : Shared U K Θ) (stage : U → Stage K Θ) : Prop where
  indexed : ∀ θ, Indexed (g.timers θ)
  member : ∀ θ u, u ∈ g.heap θ ↔ (stage u).heaped = true ∧ ∃ k, (stage u).owner = some k ∧ home k = θ

structure Stands (g : Shared U K Θ) (stage : U → Stage K Θ) (θ : Θ) (l : Local U K Θ) : Prop where
  self : l.self = θ
  running : ∀ k, l.pc.runner = some k → home k = θ ∧ g.sleeping k = none
  roles : ∀ u k tag, l.pc.role = some (u,k,tag) ↔ (stage u).runs = some (k,tag) ∧ home k = θ
  popped : ∀ u, l.pc = .popped u → ∃ k token, stage u = .parked k false token ∧ home k = θ
  fired : ∀ u, l.pc = .fired u → ∃ k, stage u = .expired k ∧ home k = θ
  won : ∀ b u, l.pc = .wakeWon b u → ∃ k, (stage u).notice = some (k,.won θ)
  sending : ∀ b k, l.pc = .wakePush b k → ∃ u, (stage u).notice = some (k,.sending θ)

structure Notices (g : Shared U K Θ) (stage : U → Stage K Θ) : Prop where
  queued : ∀ θ k, k ∈ g.sync θ → home k = θ ∧ ∃ u, (stage u).notice = some (k,.queued)
  once : ∀ θ, (g.sync θ).Nodup

structure Agrees (c : State U K Θ) (stage : U → Stage K Θ) : Prop where
  nodes : ∀ u, Node c.shared u (stage u)
  heaps : Heaps home c.shared stage
  stands : ∀ θ, Stands home c.shared stage θ (c.locals θ)
  sleepers : ∀ k u, c.shared.sleeping k = some u ↔ (stage u).sleeps = some k
  notices : Notices home c.shared stage
  sound : c.shared.nullRead = false ∧ c.shared.stray = false ∧ c.shared.fatal = false

theorem startAgrees (uco : Θ → Bool) : Agrees home (start U K uco) fun _ => .free := by
  constructor
  · exact fun u => ⟨rfl,rfl,rfl,by simp [Stage.Recorded, start]⟩
  · exact ⟨fun θ _ _ here => by simp [start, Shared.timers] at here,fun θ u => by simp [start, Stage.heaped]⟩
  · intro θ
    cases on : uco θ <;> constructor <;> simp [start, on, Pc.runner, Pc.role, Stage.runs]
  · simp [start, Stage.sleeps]
  · exact ⟨by simp [start],by simp [start]⟩
  · exact ⟨rfl,rfl,rfl⟩

end Stages

section Owners
variable {U K Θ : Type*} {home : K → Θ} {s : Stage K Θ} {k : K}

theorem runsOwner {tag : Tag} (runs : s.runs = some (k,tag)) : s.owner = some k := by
  cases s <;> simp_all [Stage.runs, Stage.owner]

theorem sleepsOwner (asleep : s.sleeps = some k) : s.owner = some k := by
  cases s <;> simp_all [Stage.sleeps, Stage.owner]

theorem ownerActs (own : s.owner = some k) : (∃ tag, s.runs = some (k,tag)) ∨ s.sleeps = some k := by
  cases s <;> simp_all [Stage.runs, Stage.owner, Stage.sleeps]

theorem noticeCases {token : Token Θ} (sent : s.notice = some (k,token)) :
    s = .pushing k (some token) ∨ ∃ heaped, s = .parked k heaped (some token) := by
  cases s with
  | pushing j t => cases t <;> simp_all [Stage.notice]
  | parked j h t => cases t <;> simp_all [Stage.notice]
  | _ => simp [Stage.notice] at sent

theorem parkedCases (here : s.st = .parked) : ∃ k, s = .pushing k none ∨ ∃ heaped, s = .parked k heaped none := by
  cases s with
  | pushing j t => cases t <;> simp_all [Stage.st, tokenSlot]
  | parked j h t => cases t <;> simp_all [Stage.st, tokenSlot]
  | resumed j h w => cases w <;> simp [Stage.st, slotOf] at here
  | removing j h w => cases w <;> simp [Stage.st, slotOf] at here
  | clearing j w => cases w <;> simp [Stage.st, slotOf] at here
  | freeing j w => cases w <;> simp [Stage.st, slotOf] at here
  | _ => simp [Stage.st] at here

theorem runsInv {tag : Tag} (runs : s.runs = some (k,tag)) :
    match tag with
    | .register => s = .registering k
    | .park => s = .parking k
    | .push => ∃ token, s = .pushing k token
    | .load => ∃ heaped woken, s = .resumed k heaped woken
    | .remove r => ∃ heaped woken, r = slotOf woken ∧ s = .removing k heaped woken
    | .clear r => ∃ woken, r = slotOf woken ∧ s = .clearing k woken
    | .free r => ∃ woken, r = slotOf woken ∧ s = .freeing k woken := by
  cases s <;> simp only [Stage.runs, Option.some.injEq, Prod.mk.injEq, reduceCtorEq] at runs <;>
    obtain ⟨rfl,rfl⟩ := runs <;> simp

theorem roleAt {pc : Pc U K} {u : U} (role : pc.role = s.runs.map (Prod.mk u)) (v : U) (j : K) (tag : Tag) :
    pc.role = some (v,j,tag) ↔ v = u ∧ s.runs = some (j,tag) := by
  rw [role]
  cases s.runs with
  | none => simp
  | some r => simp [eq_comm]

theorem noticeOwner {token : Token Θ} (sent : s.notice = some (k,token)) : s.owner = some k := by
  rcases noticeCases sent with rfl | ⟨heaped,rfl⟩ <;> rfl

@[simp] theorem signalRuns (s : Stage K Θ) (token : Token Θ) : (s.signal token).runs = s.runs := by cases s <;> rfl

@[simp] theorem signalOwner (s : Stage K Θ) (token : Token Θ) : (s.signal token).owner = s.owner := by cases s <;> rfl

@[simp] theorem signalSleeps (s : Stage K Θ) (token : Token Θ) : (s.signal token).sleeps = s.sleeps := by cases s <;> rfl

@[simp] theorem signalHeaped (s : Stage K Θ) (token : Token Θ) : (s.signal token).heaped = s.heaped := by cases s <;> rfl

theorem signalNotice {token : Token Θ} (sent : s.notice = some (k,token)) (token' : Token Θ) :
    (s.signal token').notice = some (k,token') := by
  rcases noticeCases sent with rfl | ⟨heaped,rfl⟩ <;> rfl

theorem nodeSignal {g : Shared U K Θ} {u : U} {token : Token Θ} (old : Node g u s) (sent : s.notice = some (k,token))
    (token' : Token Θ) : Node g u (s.signal token') := by
  obtain ⟨st,prom,inHeap,recorded⟩ := old
  rcases noticeCases sent with rfl | ⟨heaped,rfl⟩ <;> exact ⟨st,prom,inHeap,recorded⟩

theorem noticeProm {g : Shared U K Θ} {u : U} {token : Token Θ} (node : Node g u s) (sent : s.notice = some (k,token)) :
    g.prom u = some k := by
  rcases noticeCases sent with rfl | ⟨heaped,rfl⟩ <;> exact node.prom

theorem roleRunner {pc : Pc U K} {u : U} {tag : Tag} (at' : pc.role = some (u,k,tag)) : pc.runner = some k := by
  cases pc <;> simp_all [Pc.role, Pc.runner]

theorem idleIff (s : Stage K Θ) : s.st = .idle ↔ s = .free := by
  cases s with
  | pushing j t => cases t <;> simp [Stage.st, tokenSlot]
  | parked j h t => cases t <;> simp [Stage.st, tokenSlot]
  | resumed j h w => cases w <;> simp [Stage.st, slotOf]
  | removing j h w => cases w <;> simp [Stage.st, slotOf]
  | clearing j w => cases w <;> simp [Stage.st, slotOf]
  | freeing j w => cases w <;> simp [Stage.st, slotOf]
  | _ => simp [Stage.st]

variable {c : State U K Θ} {stage : U → Stage K Θ}

theorem nodeAt {u : U} (old : Agrees home c stage) (stood : stage u = s) : Node c.shared u s :=
  stood ▸ old.nodes u

theorem ownerUnique (old : Agrees home c stage) {u v : U} (first : (stage u).owner = some k)
    (second : (stage v).owner = some k) : u = v := by
  have awake : ∀ {w tag}, (stage w).runs = some (k,tag) → c.shared.sleeping k = none := fun runs =>
    ((old.stands (home k)).running k (roleRunner (((old.stands (home k)).roles _ k _).mpr ⟨runs,rfl⟩))).2
  rcases ownerActs first with ⟨tag,runs⟩ | asleep <;> rcases ownerActs second with ⟨tag',runs'⟩ | asleep'
  · have role := ((old.stands (home k)).roles u k tag).mpr ⟨runs,rfl⟩
    have role' := ((old.stands (home k)).roles v k tag').mpr ⟨runs',rfl⟩
    exact (Prod.mk.inj (Option.some.inj (role.symm.trans role'))).1
  · have := (old.sleepers k v).mpr asleep'
    rw [awake runs] at this
    cases this
  · have := (old.sleepers k u).mpr asleep
    rw [awake runs'] at this
    cases this
  · exact Option.some.inj (((old.sleepers k u).mpr asleep).symm.trans ((old.sleepers k v).mpr asleep'))

end Owners

end Uco.SleepSlot
