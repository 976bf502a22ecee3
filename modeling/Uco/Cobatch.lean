import Uco.Interleaving

/-! cobatch on one thread: any number of batches, each with its dispatch and its tasks,
and the flag that they share. What runs between two suspensions is one step, or several;
the semaphores are counters. -/
namespace Uco.Cobatch
open Interleaving

/- A task between `go run_one` and the end of run_one. In a serial batch it goes straight
from waiting to running to reported. -/
inductive TaskPhase where
  | waiting
  | spawned
  | running
  | ended
  | released
  | reported
  deriving DecidableEq, Repr

inductive Phase where
  | unused
  | queued
  | serial (i : ℕ) (busy : Bool)
  | submitting (i : ℕ)
  | collecting (i : ℕ)
  | finished
  deriving DecidableEq, Repr

/- One start of the cobatch `owner`. `inside` is the batch and the task that called it. -/
structure Batch (O B : Type*) where
  owner : O
  size : ℕ
  concurrent : ℕ
  inside : Option (B × ℕ)
  phase : Phase
  slot : ℕ
  taskDone : ℕ
  task : ℕ → TaskPhase
  started : ℕ → ℕ
  returned : Bool

/- `done` is the owner's semaphore and `current` the batch it started last. -/
structure State (O B : Type*) where
  doBatching : Bool
  inFlight : O → Bool
  awaiting : O → Bool
  done : O → ℕ
  current : O → Option B
  batch : B → Batch O B

section Moves
variable {O B : Type*}

def maxSlots : ℕ := 50

def setTask (b : Batch O B) (j : ℕ) (q : TaskPhase) : Batch O B := {b with task := Function.update b.task j q}

def startTask (b : Batch O B) (j : ℕ) : Batch O B :=
  {setTask b j .running with started := Function.update b.started j (b.started j + 1)}

def Parallel : Phase → Prop | .submitting _ | .collecting _ => True | _ => False

/- dispatch and run_one; the flag before and after, and whether pDone is signalled. -/
inductive BatchMove : Bool → Batch O B → Bool → Batch O B → Bool → Prop where
  | nests {b} (queued : b.phase = .queued) : BatchMove true b true {b with phase := .serial 0 false} false
  | serialBegins {flag b i} (here : b.phase = .serial i false) (more : i < b.size) :
      BatchMove flag b flag {startTask b i with phase := .serial i true} false
  | serialEnds {flag b i} (here : b.phase = .serial i true) :
      BatchMove flag b flag {setTask b i .reported with phase := .serial (i + 1) false} false
  | serialCloses {flag b i} (here : b.phase = .serial i false) (all : b.size ≤ i) :
      BatchMove flag b flag {b with phase := .finished} true
  | opens {b} (queued : b.phase = .queued) :
      BatchMove false b true {b with phase := .submitting 0, slot := min b.concurrent maxSlots} false
  | submits {flag b i n} (here : b.phase = .submitting i) (more : i < b.size) (free : b.slot = n + 1) :
      BatchMove flag b flag {setTask b i .spawned with phase := .submitting (i + 1), slot := n} false
  | submitted {flag b i} (here : b.phase = .submitting i) (all : b.size ≤ i) :
      BatchMove flag b flag {b with phase := .collecting 0} false
  | collects {flag b i n} (here : b.phase = .collecting i) (more : i < b.size) (reported : b.taskDone = n + 1) :
      BatchMove flag b flag {b with phase := .collecting (i + 1), taskDone := n} false
  | closes {flag b i} (here : b.phase = .collecting i) (all : b.size ≤ i) :
      BatchMove flag b false {b with phase := .finished} true
  | begins {flag b j} (spawned : b.task j = .spawned) : BatchMove flag b flag (startTask b j) false
  | ends {flag b j} (running : b.task j = .running) (parallel : Parallel b.phase) :
      BatchMove flag b flag (setTask b j .ended) false
  | releases {flag b j} (ended : b.task j = .ended) :
      BatchMove flag b flag {setTask b j .released with slot := b.slot + 1} false
  | reports {flag b j} (released : b.task j = .released) :
      BatchMove flag b flag {setTask b j .reported with taskDone := b.taskDone + 1} false

variable [DecidableEq O] [DecidableEq B]

/- An owner starts when it has waited for the batch before; a start inside a task is made
while the task runs. A start without tasks, and a wait without a start, do nothing. -/
inductive Step : State O B → State O B → Prop where
  | batch {s flag b signal} (x : B) (taken : BatchMove s.doBatching (s.batch x) flag b signal) : Step s
      {s with
        doBatching := flag
        done := Function.update s.done b.owner (s.done b.owner + if signal then 1 else 0)
        batch := Function.update s.batch x b}
  | start {s} (o : O) (x : B) (inside : Option (B × ℕ)) {size concurrent : ℕ} (tasks : 0 < size)
      (positive : 0 < concurrent) (unused : (s.batch x).phase = .unused) (idle : s.inFlight o = false)
      (waited : s.awaiting o = false) (real : ∀ y j, inside = some (y,j) → (s.batch y).task j = .running) : Step s
      {s with
        inFlight := Function.update s.inFlight o true
        current := Function.update s.current o (Option.some x)
        batch := Function.update s.batch x
          ⟨o,size,concurrent,inside,.queued,0,0,fun _ => .waiting,fun _ => 0,false⟩}
  | wait {s} (o : O) (started : s.inFlight o = true) : Step s
      {s with inFlight := Function.update s.inFlight o false, awaiting := Function.update s.awaiting o true}
  | returns {s n x} (o : O) (waits : s.awaiting o = true) (done : s.done o = n + 1) (last : s.current o = some x) :
      Step s
      {s with
        done := Function.update s.done o n
        awaiting := Function.update s.awaiting o false
        batch := Function.update s.batch x {s.batch x with returned := true}}

def start (B : Type*) (o : O) : State O B :=
  ⟨false,fun _ => false,fun _ => false,fun _ => 0,fun _ => none,
    fun _ => ⟨o,0,0,none,.unused,0,0,fun _ => .waiting,fun _ => 0,false⟩⟩

end Moves

section Batches
variable {O B : Type*}

def busy : TaskPhase → ℕ | .running => 1 | _ => 0
def holding : TaskPhase → ℕ | .spawned | .running | .ended => 1 | _ => 0
def reporting : TaskPhase → ℕ | .reported => 1 | _ => 0
def begun : TaskPhase → ℕ | .waiting | .spawned => 0 | _ => 1

def amount (b : Batch O B) (f : TaskPhase → ℕ) : ℕ := ∑ j ∈ Finset.range b.size, f (b.task j)

def Placed (b : Batch O B) : Prop :=
  match b.phase with
  | .unused | .queued => (∀ j, b.task j = .waiting) ∧ b.taskDone = 0
  | .serial i busy => (∀ j < i, b.task j = .reported) ∧ (b.task i = if busy then .running else .waiting) ∧
      (∀ j, i < j → b.task j = .waiting) ∧ (if busy then i < b.size else i ≤ b.size)
  | .submitting i => i ≤ b.size ∧ (∀ j < i, b.task j ≠ .waiting) ∧ (∀ j, i ≤ j → b.task j = .waiting) ∧
      b.slot + amount b holding = min b.concurrent maxSlots ∧ b.taskDone = amount b reporting
  | .collecting i => i ≤ b.size ∧ (∀ j < b.size, b.task j ≠ .waiting) ∧ (∀ j, b.size ≤ j → b.task j = .waiting) ∧
      b.slot + amount b holding = min b.concurrent maxSlots ∧ i + b.taskDone = amount b reporting
  | .finished => (∀ j < b.size, b.task j = .reported) ∧ ∀ j, b.size ≤ j → b.task j = .waiting

structure Sound (b : Batch O B) : Prop where
  placed : Placed b
  started : ∀ j, b.started j = begun (b.task j)
  positive : b.phase ≠ .unused → 0 < b.concurrent

variable {b b' : Batch O B} {flag flag' signal : Bool}

@[simp] theorem setSelf (b : Batch O B) (j : ℕ) (q : TaskPhase) : (setTask b j q).task j = q :=
  Function.update_self ..

theorem setOther (b : Batch O B) {i j : ℕ} (q : TaskPhase) (other : i ≠ j) : (setTask b j q).task i = b.task i :=
  Function.update_of_ne other ..

theorem amountSet {j : ℕ} (inside : j < b.size) (q : TaskPhase) (f : TaskPhase → ℕ) :
    amount (setTask b j q) f + f (b.task j) = amount b f + f q := by
  have here : j ∈ Finset.range b.size := Finset.mem_range.mpr inside
  have old := Finset.add_sum_erase (Finset.range b.size) (fun i => f (b.task i)) here
  have new := Finset.add_sum_erase (Finset.range b.size) (fun i => f ((setTask b j q).task i)) here
  have same : ∑ i ∈ (Finset.range b.size).erase j, f ((setTask b j q).task i) =
      ∑ i ∈ (Finset.range b.size).erase j, f (b.task i) :=
    Finset.sum_congr rfl (fun i rest => congrArg f (setOther b q (Finset.ne_of_mem_erase rest)))
  rw [same, setSelf] at new
  have whole : amount (setTask b j q) f = ∑ i ∈ Finset.range b.size, f ((setTask b j q).task i) := rfl
  rw [whole]
  simp only [amount]
  omega

theorem amountNone {f : TaskPhase → ℕ} (none : ∀ j < b.size, f (b.task j) = 0) : amount b f = 0 :=
  Finset.sum_eq_zero (fun j inside => none j (Finset.mem_range.mp inside))

theorem amountLe {f g : TaskPhase → ℕ} (small : ∀ q, f q ≤ g q) : amount b f ≤ amount b g :=
  Finset.sum_le_sum (fun _ _ => small _)

theorem amountLeSize {f : TaskPhase → ℕ} (small : ∀ q, f q ≤ 1) : amount b f ≤ b.size := by
  have bound := Finset.sum_le_sum (fun j (_ : j ∈ Finset.range b.size) => small (b.task j))
  simpa [amount] using bound

theorem allReported (full : b.size ≤ amount b reporting) : ∀ j < b.size, b.task j = .reported := by
  intro j inside
  by_contra other
  have zero : reporting (b.task j) = 0 := by
    cases here : b.task j <;> simp_all [reporting]
  have counted := amountSet inside .reported reporting
  have bound := amountLeSize (b := setTask b j .reported) (f := reporting) (fun q => by cases q <;> decide)
  have size : (setTask b j .reported).size = b.size := rfl
  simp only [reporting] at counted zero
  omega

theorem spawnedParallel (placed : Placed b) (j : ℕ) (notWaiting : b.task j ≠ .waiting)
    (notRunning : b.task j ≠ .running) (notReported : b.task j ≠ .reported) : Parallel b.phase := by
  unfold Placed at placed
  cases here : b.phase with
  | submitting i => trivial
  | collecting i => trivial
  | unused => simp only [here] at placed; exact absurd (placed.1 j) notWaiting
  | queued => simp only [here] at placed; exact absurd (placed.1 j) notWaiting
  | finished =>
    simp only [here] at placed
    rcases Nat.lt_or_ge j b.size with inside | beyond
    · exact absurd (placed.1 j inside) notReported
    · exact absurd (placed.2 j beyond) notWaiting
  | serial i busy =>
    simp only [here] at placed
    obtain ⟨before,now,after,_⟩ := placed
    rcases lt_trichotomy j i with lower | same | higher
    · exact absurd (before j lower) notReported
    · subst same
      cases busy
      · exact absurd now notWaiting
      · exact absurd now notRunning
    · exact absurd (after j higher) notWaiting

theorem movedInside (placed : Placed b) (j : ℕ) (notWaiting : b.task j ≠ .waiting) : j < b.size := by
  by_contra beyond
  refine notWaiting ?_
  unfold Placed at placed
  cases here : b.phase with
  | unused => simp only [here] at placed; exact placed.1 j
  | queued => simp only [here] at placed; exact placed.1 j
  | finished => simp only [here] at placed; exact placed.2 j (by omega)
  | submitting i => simp only [here] at placed; exact placed.2.2.1 j (by omega)
  | collecting i => simp only [here] at placed; exact placed.2.2.1 j (by omega)
  | serial i busy =>
    simp only [here] at placed
    obtain ⟨_,now,after,bound⟩ := placed
    cases busy with
    | true => exact after j (by simp at bound; omega)
    | false =>
      simp only [Bool.false_eq_true, if_false] at bound now
      rcases Nat.eq_or_lt_of_le (show i ≤ j by omega) with same | higher
      · exact same ▸ now
      · exact after j higher

theorem taskMoves (placed : Placed b) (parallel : Parallel b.phase) {j slot done : ℕ} {q : TaskPhase}
    (notWaiting : b.task j ≠ .waiting) (kept : q ≠ .waiting)
    (slots : slot + holding q = b.slot + holding (b.task j))
    (reports : done + reporting (b.task j) = b.taskDone + reporting q) :
    Placed {setTask b j q with slot := slot, taskDone := done} := by
  have others : ∀ i, b.task i = .waiting → (setTask b j q).task i = .waiting := by
    intro i idle
    by_cases same : i = j
    · exact absurd (same ▸ idle) notWaiting
    · rw [setOther b q same, idle]
  have busies : ∀ i, b.task i ≠ .waiting → (setTask b j q).task i ≠ .waiting := by
    intro i moving
    by_cases same : i = j
    · rw [same, setSelf]; exact kept
    · rw [setOther b q same]; exact moving
  have inside : j < b.size := movedInside placed j notWaiting
  cases here : b.phase with
  | submitting i =>
    simp only [Placed, here] at placed
    obtain ⟨bound,before,after,held,reported⟩ := placed
    have heldSet := amountSet inside q holding
    have reportedSet := amountSet inside q reporting
    simp only [Placed, setTask, here]
    refine ⟨bound,fun i lower => busies i (before i lower),fun i higher => others i (after i higher),?_,?_⟩
    · exact (show slot + amount (setTask b j q) holding = _ by omega)
    · exact (show done = amount (setTask b j q) reporting by omega)
  | collecting i =>
    simp only [Placed, here] at placed
    obtain ⟨bound,before,after,held,reported⟩ := placed
    have heldSet := amountSet inside q holding
    have reportedSet := amountSet inside q reporting
    simp only [Placed, setTask, here]
    refine ⟨bound,fun i lower => busies i (before i lower),fun i higher => others i (after i higher),?_,?_⟩
    · exact (show slot + amount (setTask b j q) holding = _ by omega)
    · exact (show i + done = amount (setTask b j q) reporting by omega)
  | unused => simp [here, Parallel] at parallel
  | queued => simp [here, Parallel] at parallel
  | serial i busy => simp [here, Parallel] at parallel
  | finished => simp [here, Parallel] at parallel

theorem startedSet (sound : Sound b) (j : ℕ) {q : TaskPhase} (begins : begun q = begun (b.task j)) (i : ℕ) :
    b.started i = begun ((setTask b j q).task i) := by
  rw [sound.started i]
  by_cases same : i = j
  · rw [same, setSelf, begins]
  · rw [setOther b q same]

theorem startedStarts (sound : Sound b) (j : ℕ) (idle : begun (b.task j) = 0) (i : ℕ) :
    (startTask b j).started i = begun ((startTask b j).task i) := by
  have before := sound.started i
  by_cases same : i = j
  · subst same
    simp [startTask, setTask, before, idle]
    rfl
  · simpa [startTask, setTask, Function.update_of_ne same] using before

theorem moveSound (sound : Sound b) (taken : BatchMove flag b flag' b' signal) : Sound b' := by
  have placed := sound.placed
  cases taken with
  | nests queued =>
    simp only [Placed, queued] at placed
    refine ⟨?_,sound.started,fun _ => sound.positive (by simp [queued])⟩
    simp [Placed, placed]
  | @serialBegins _ _ i here more =>
    simp only [Placed, here] at placed
    obtain ⟨before,now,after,_⟩ := placed
    refine ⟨?_,startedStarts sound _ (by simp [now, begun]),fun _ => sound.positive (by simp [here])⟩
    simp only [Placed, startTask]
    refine ⟨fun j lower => ?_,setSelf ..,fun j higher => ?_,more⟩
    · rw [setOther b _ (by omega), before j lower]
    · rw [setOther b _ (by omega), after j higher]
  | @serialEnds _ _ i here =>
    simp only [Placed, here] at placed
    obtain ⟨before,now,after,inside⟩ := placed
    refine ⟨?_,startedSet sound _ (by simp [now, begun]),fun _ => sound.positive (by simp [here])⟩
    simp only [Placed]
    refine ⟨fun j lower => ?_,?_,fun j higher => ?_,inside⟩
    · by_cases same : j = i
      · rw [same, setSelf]
      · rw [setOther b _ same, before j (by omega)]
    · rw [setOther b _ (by omega), after (i + 1) (by omega)]; rfl
    · rw [setOther b _ (by omega), after j (by omega)]
  | @serialCloses _ _ i here all =>
    simp only [Placed, here] at placed
    obtain ⟨before,now,after,bound⟩ := placed
    refine ⟨?_,sound.started,fun _ => sound.positive (by simp [here])⟩
    simp only [Placed]
    refine ⟨fun j inside => before j (by omega),fun j beyond => ?_⟩
    have atEnd : i ≤ b.size := bound
    have beyond : b.size ≤ j := beyond
    rcases Nat.eq_or_lt_of_le (show i ≤ j by omega) with same | higher
    · rw [← same, now]; rfl
    · exact after j higher
  | opens queued =>
    simp only [Placed, queued] at placed
    obtain ⟨idle,nothing⟩ := placed
    refine ⟨?_,sound.started,fun _ => sound.positive (by simp [queued])⟩
    have held : amount b holding = 0 := amountNone (fun j _ => by rw [idle j]; rfl)
    have reported : amount b reporting = 0 := amountNone (fun j _ => by rw [idle j]; rfl)
    refine ⟨Nat.zero_le _,fun j lower => absurd lower (Nat.not_lt_zero j),fun j _ => idle j,?_,?_⟩
    · exact (show min b.concurrent maxSlots + amount b holding = min b.concurrent maxSlots by omega)
    · exact (show b.taskDone = amount b reporting by omega)
  | @submits _ _ i n here more free =>
    simp only [Placed, here] at placed
    obtain ⟨_,before,after,held,reported⟩ := placed
    have idle : b.task i = .waiting := after i le_rfl
    have heldSet := amountSet more .spawned holding
    have reportedSet := amountSet more .spawned reporting
    simp only [idle, holding, reporting] at heldSet reportedSet
    refine ⟨?_,startedSet sound _ (by rw [idle]; rfl),fun _ => sound.positive (by simp [here])⟩
    refine ⟨more,fun j lower => ?_,fun j higher => ?_,?_,?_⟩
    · by_cases same : j = i
      · rw [same, setSelf]; decide
      · rw [setOther b _ same]; exact before j (by omega)
    · rw [setOther b _ (by omega)]; exact after j (by omega)
    · exact (show n + amount (setTask b i .spawned) holding = min b.concurrent maxSlots by omega)
    · exact (show b.taskDone = amount (setTask b i .spawned) reporting by omega)
  | @submitted _ _ i here all =>
    simp only [Placed, here] at placed
    obtain ⟨bound,before,after,held,reported⟩ := placed
    refine ⟨?_,sound.started,fun _ => sound.positive (by simp [here])⟩
    exact ⟨Nat.zero_le _,fun j (inside : j < b.size) => before j (by omega),
      fun j (beyond : b.size ≤ j) => after j (by omega),held,
      (Nat.zero_add _).trans reported⟩
  | @collects _ _ i n here more reported =>
    simp only [Placed, here] at placed
    obtain ⟨_,before,after,held,counted⟩ := placed
    refine ⟨?_,sound.started,fun _ => sound.positive (by simp [here])⟩
    exact ⟨more,before,after,held,show i + 1 + n = amount b reporting by omega⟩
  | @closes _ _ i here all =>
    simp only [Placed, here] at placed
    obtain ⟨bound,_,after,_,counted⟩ := placed
    refine ⟨?_,sound.started,fun _ => sound.positive (by simp [here])⟩
    exact ⟨allReported (show b.size ≤ amount b reporting by omega),after⟩
  | @begins _ _ j spawned =>
    have parallel : Parallel b.phase :=
      spawnedParallel placed j (by simp [spawned]) (by simp [spawned]) (by simp [spawned])
    refine ⟨?_,startedStarts sound j (by simp [spawned, begun]),sound.positive⟩
    exact taskMoves placed parallel (by simp [spawned]) (by decide) (by rw [spawned]; rfl) (by rw [spawned]; rfl)
  | @ends _ _ j running parallel =>
    refine ⟨?_,startedSet sound j (by rw [running]; rfl),sound.positive⟩
    exact taskMoves placed parallel (by simp [running]) (by decide) (by rw [running]; rfl) (by rw [running]; rfl)
  | @releases _ _ j ended =>
    have parallel : Parallel b.phase := spawnedParallel placed j (by simp [ended]) (by simp [ended]) (by simp [ended])
    refine ⟨?_,startedSet sound j (by rw [ended]; rfl),sound.positive⟩
    exact taskMoves placed parallel (by simp [ended]) (by decide) (by rw [ended]; rfl) (by rw [ended]; rfl)
  | @reports _ _ j released =>
    have parallel : Parallel b.phase :=
      spawnedParallel placed j (by simp [released]) (by simp [released]) (by simp [released])
    refine ⟨?_,startedSet sound j (by rw [released]; rfl),sound.positive⟩
    exact taskMoves placed parallel (by simp [released]) (by decide) (by rw [released]; rfl) (by rw [released]; rfl)

/- What dispatch and run_one leave alone, and how the batch and the flag change together. -/
structure Kept (flag : Bool) (b : Batch O B) (flag' : Bool) (b' : Batch O B) (signal : Bool) : Prop where
  owner : b'.owner = b.owner
  size : b'.size = b.size
  concurrent : b'.concurrent = b.concurrent
  inside : b'.inside = b.inside
  returned : b'.returned = b.returned
  unused : b'.phase = .unused ↔ b.phase = .unused
  queued : b'.phase = .queued → b.phase = .queued
  finishes : b'.phase = .finished ↔ b.phase = .finished ∨ signal = true
  once : signal = true → b.phase ≠ .finished ∧ b.phase ≠ .unused
  parallel : Parallel b'.phase → ¬Parallel b.phase → b.phase = .queued ∧ flag = false ∧ flag' = true
  ended : Parallel b.phase → ¬Parallel b'.phase → flag' = false
  steady : (Parallel b.phase ↔ Parallel b'.phase) → flag' = flag

theorem moveKept (taken : BatchMove flag b flag' b' signal) : Kept flag b flag' b' signal := by
  cases taken <;> constructor <;> simp_all [Parallel, setTask, startTask]

def toGo : TaskPhase → ℕ | .waiting => 5 | .spawned => 4 | .running => 3 | .ended => 2 | .released => 1 | .reported => 0

def phaseRank (b : Batch O B) : ℕ :=
  match b.phase with
  | .unused | .finished => 0
  | .queued => b.size + 3
  | .serial _ _ => 1
  | .submitting _ => b.size + 2
  | .collecting i => b.size - i + 1

def rank (b : Batch O B) : ℕ := phaseRank b + amount b toGo

theorem moveRank (sound : Sound b) (taken : BatchMove flag b flag' b' signal) : rank b' < rank b := by
  have steps : ∀ j q, b.task j ≠ .waiting ∨ j < b.size →
      amount (setTask b j q) toGo + toGo (b.task j) = amount b toGo + toGo q := by
    intro j q moving
    exact amountSet (moving.elim (movedInside sound.placed j) id) q toGo
  have taskLess : ∀ j q, b.task j ≠ .waiting → toGo q < toGo (b.task j) →
      phaseRank b + amount (setTask b j q) toGo < rank b := by
    intro j q moving less
    have counted := steps j q (.inl moving)
    simp only [rank]
    omega
  have placed := sound.placed
  cases taken with
  | nests queued => simp [rank, phaseRank, queued, amount]
  | @serialBegins _ _ i here more =>
    simp only [Placed, here] at placed
    have idle : b.task i = .waiting := placed.2.1
    have less := steps i .running (.inr more)
    simp only [idle, toGo] at less
    have after : rank {startTask b i with phase := .serial i true} = 1 + amount (setTask b i .running) toGo := rfl
    have before : rank b = 1 + amount b toGo := by simp [rank, phaseRank, here]
    omega
  | @serialEnds _ _ i here =>
    simp only [Placed, here] at placed
    have running : b.task i = .running := placed.2.1
    have less := steps i .reported (.inl (by simp [running]))
    simp only [running, toGo] at less
    have after : rank {setTask b i .reported with phase := .serial (i + 1) false} =
        1 + amount (setTask b i .reported) toGo := rfl
    have before : rank b = 1 + amount b toGo := by simp [rank, phaseRank, here]
    omega
  | serialCloses here all => simp [rank, phaseRank, here, amount]
  | opens queued => simp [rank, phaseRank, queued, amount]
  | @submits _ _ i n here more free =>
    simp only [Placed, here] at placed
    have idle : b.task i = .waiting := placed.2.2.1 i le_rfl
    have less := steps i .spawned (.inr more)
    simp only [idle, toGo] at less
    have after : rank {setTask b i .spawned with phase := .submitting (i + 1), slot := n} =
        b.size + 2 + amount (setTask b i .spawned) toGo := rfl
    have before : rank b = b.size + 2 + amount b toGo := by simp [rank, phaseRank, here]
    omega
  | submitted here all => simp [rank, phaseRank, here, amount]
  | @collects _ _ i n here more reported =>
    have after : rank {b with phase := .collecting (i + 1), taskDone := n} = b.size - (i + 1) + 1 + amount b toGo := rfl
    have before : rank b = b.size - i + 1 + amount b toGo := by simp [rank, phaseRank, here]
    omega
  | closes here all => simp [rank, phaseRank, here, amount]
  | @begins _ _ j spawned => exact taskLess j .running (by simp [spawned]) (by rw [spawned]; decide)
  | @ends _ _ j running parallel => exact taskLess j .ended (by simp [running]) (by rw [running]; decide)
  | @releases _ _ j ended => exact taskLess j .released (by simp [ended]) (by rw [ended]; decide)
  | @reports _ _ j released => exact taskLess j .reported (by simp [released]) (by rw [released]; decide)

theorem taskGoes (parallel : Parallel b.phase) (j : ℕ) (notWaiting : b.task j ≠ .waiting)
    (notReported : b.task j ≠ .reported) (flag : Bool) : ∃ flag' b' signal, BatchMove flag b flag' b' signal := by
  cases here : b.task j with
  | waiting => exact absurd here notWaiting
  | spawned => exact ⟨_,_,_,.begins here⟩
  | running => exact ⟨_,_,_,.ends here parallel⟩
  | ended => exact ⟨_,_,_,.releases here⟩
  | released => exact ⟨_,_,_,.reports here⟩
  | reported => exact absurd here notReported

theorem batchGoes (sound : Sound b) (used : b.phase ≠ .unused) (unfinished : b.phase ≠ .finished) (flag : Bool) :
    ∃ flag' b' signal, BatchMove flag b flag' b' signal := by
  have placed := sound.placed
  have positive := sound.positive used
  cases here : b.phase with
  | unused => exact absurd here used
  | finished => exact absurd here unfinished
  | queued =>
    cases flag with
    | true => exact ⟨_,_,_,.nests here⟩
    | false => exact ⟨_,_,_,.opens here⟩
  | serial i busy =>
    cases busy with
    | true => exact ⟨_,_,_,.serialEnds here⟩
    | false =>
      rcases Nat.lt_or_ge i b.size with more | all
      · exact ⟨_,_,_,.serialBegins here more⟩
      · exact ⟨_,_,_,.serialCloses here all⟩
  | submitting i =>
    rcases Nat.lt_or_ge i b.size with more | all
    · cases free : b.slot with
      | succ n => exact ⟨_,_,_,.submits here more free⟩
      | zero =>
        have held := placed
        simp only [Placed, here] at held
        have some : amount b holding ≠ 0 := by
          have slots : 0 < maxSlots := by decide
          omega
        obtain ⟨j,_,holds⟩ := Finset.exists_ne_zero_of_sum_ne_zero some
        refine taskGoes (by simp [here, Parallel]) j ?_ ?_ flag <;>
          · intro other
            rw [other] at holds
            exact holds rfl
    · exact ⟨_,_,_,.submitted here all⟩
  | collecting i =>
    rcases Nat.lt_or_ge i b.size with more | all
    · cases counted : b.taskDone with
      | succ n => exact ⟨_,_,_,.collects here more counted⟩
      | zero =>
        have inside := placed
        simp only [Placed, here] at inside
        obtain ⟨_,begun,_,_,reported⟩ := inside
        have left : ∃ j < b.size, b.task j ≠ .reported := by
          by_contra all
          push Not at all
          have full : amount b reporting = b.size := by
            have ones : ∀ j ∈ Finset.range b.size, reporting (b.task j) = 1 :=
              fun j mem => by rw [all j (Finset.mem_range.mp mem)]; rfl
            simpa [amount] using Finset.sum_congr rfl ones
          omega
        obtain ⟨j,lower,notReported⟩ := left
        exact taskGoes (by simp [here, Parallel]) j (begun j lower) notReported flag
    · exact ⟨_,_,_,.closes here all⟩

theorem parallelCollects (sound : Sound b) (parallel : Parallel b.phase) :
    ∃ b' i, Relation.ReflTransGen (fun b b' => BatchMove true b true b' false) b b' ∧ b'.phase = .collecting i ∧
      b'.size ≤ i := by
  induction left : rank b using Nat.strongRecOn generalizing b with
  | _ n ih =>
    have used : b.phase ≠ .unused := by intro h; simp [h, Parallel] at parallel
    have unfinished : b.phase ≠ .finished := by intro h; simp [h, Parallel] at parallel
    obtain ⟨flag,c,signal,taken⟩ := batchGoes sound used unfinished true
    have closes : (∃ i, b.phase = .collecting i ∧ b.size ≤ i) ∨ flag = true ∧ signal = false ∧ Parallel c.phase := by
      cases taken with
      | closes here all => exact .inl ⟨_,here,all⟩
      | nests queued => simp [queued, Parallel] at parallel
      | serialBegins here _ => simp [here, Parallel] at parallel
      | serialEnds here => simp [here, Parallel] at parallel
      | serialCloses here _ => simp [here, Parallel] at parallel
      | submits _ _ _ => exact .inr ⟨rfl,rfl,trivial⟩
      | submitted _ _ => exact .inr ⟨rfl,rfl,trivial⟩
      | collects _ _ _ => exact .inr ⟨rfl,rfl,trivial⟩
      | begins _ => exact .inr ⟨rfl,rfl,parallel⟩
      | ends _ _ => exact .inr ⟨rfl,rfl,parallel⟩
      | releases _ => exact .inr ⟨rfl,rfl,parallel⟩
      | reports _ => exact .inr ⟨rfl,rfl,parallel⟩
    rcases closes with ⟨i,here,all⟩ | ⟨rfl,rfl,stays⟩
    · exact ⟨b,i,.refl,here,all⟩
    · obtain ⟨b',i,moves,here,all⟩ := ih (rank c) (left ▸ moveRank sound taken) (moveSound sound taken) stays rfl
      exact ⟨b',i,.head taken moves,here,all⟩

end Batches

section Owners
variable {O B : Type*} {s t : State O B}

structure Owned (s : State O B) : Prop where
  last : ∀ x, (s.batch x).phase ≠ .unused → (s.batch x).returned = false → s.current (s.batch x).owner = some x
  mine : ∀ o x, s.current o = some x → (s.batch x).owner = o ∧ (s.batch x).phase ≠ .unused
  signalled : ∀ o x, s.current o = some x →
    s.done o = if (s.batch x).phase = .finished ∧ (s.batch x).returned = false then 1 else 0
  silent : ∀ o, s.current o = none → s.done o = 0
  pending : ∀ o, s.inFlight o = true ∨ s.awaiting o = true → ∃ x, s.current o = some x ∧ (s.batch x).returned = false
  idle : ∀ o x, s.inFlight o = false → s.awaiting o = false → s.current o = some x → (s.batch x).returned = true
  one : ∀ o, s.inFlight o = true → s.awaiting o = false
  finished : ∀ x, (s.batch x).returned = true → (s.batch x).phase = .finished

structure Flagged (s : State O B) : Prop where
  set : s.doBatching = true ↔ ∃ x, Parallel (s.batch x).phase
  one : ∀ x y, Parallel (s.batch x).phase → Parallel (s.batch y).phase → x = y

structure Inv (s : State O B) : Prop where
  sound : ∀ x, Sound (s.batch x)
  owned : Owned s
  flagged : Flagged s

theorem flaggedSame (flagged : Flagged s) (flag : t.doBatching = s.doBatching)
    (same : ∀ y, Parallel (t.batch y).phase ↔ Parallel (s.batch y).phase) : Flagged t := by
  refine ⟨?_,fun y z hy hz => flagged.one y z ((same y).mp hy) ((same z).mp hz)⟩
  simp only [flag, same]
  exact flagged.set

theorem startInv (o : O) : Inv (start B o) := by
  refine ⟨fun _ => ⟨⟨fun _ => rfl,rfl⟩,fun _ => rfl,fun used => absurd rfl used⟩,?_,?_⟩
  · constructor <;> simp [start]
  · constructor <;> simp [start, Parallel]

variable [DecidableEq O] [DecidableEq B]

section Dispatch
variable {b : Batch O B} {flag signal : Bool} (x : B)

theorem batchOwned (owned : Owned s) (kept : Kept s.doBatching (s.batch x) flag b signal) :
    Owned {s with
      doBatching := flag
      done := Function.update s.done b.owner (s.done b.owner + if signal then 1 else 0)
      batch := Function.update s.batch x b} := by
  have same : ∀ y, (Function.update s.batch x b y).owner = (s.batch y).owner := by
    intro y
    by_cases here : y = x
    · subst here; simp [kept.owner]
    · simp [here]
  have returns : ∀ y, (Function.update s.batch x b y).returned = (s.batch y).returned := by
    intro y
    by_cases here : y = x
    · subst here; simp [kept.returned]
    · simp [here]
  have unused : ∀ y, (Function.update s.batch x b y).phase = .unused ↔ (s.batch y).phase = .unused := by
    intro y
    by_cases here : y = x
    · subst here; simp [kept.unused]
    · simp [here]
  have current : signal = true → s.current (s.batch x).owner = some x := by
    intro signalled
    obtain ⟨running,used⟩ := kept.once signalled
    refine owned.last x used ?_
    cases returned : (s.batch x).returned with
    | false => rfl
    | true => exact absurd (owned.finished x returned) running
  refine ⟨?_,?_,?_,?_,?_,?_,owned.one,?_⟩
  · intro y used returned
    rw [same y]
    exact owned.last y (fun h => used ((unused y).mpr h)) (returns y ▸ returned)
  · intro o y last
    rw [same y]
    exact ⟨(owned.mine o y last).1,fun h => (owned.mine o y last).2 ((unused y).mp h)⟩
  · intro o y last
    have before := owned.signalled o y last
    have mine := (owned.mine o y last).1
    simp only [returns y]
    by_cases here : y = x
    · subst here
      have away : b.owner = o := kept.owner.trans mine
      simp only [away, Function.update_self, before]
      cases signal with
      | false => simp [kept.finishes]
      | true =>
        have running := (kept.once rfl).1
        have unreturned : (s.batch y).returned = false := by
          cases returned : (s.batch y).returned with
          | false => rfl
          | true => exact absurd (owned.finished y returned) running
        simp [kept.finishes, running, unreturned]
    · simp only [Function.update_of_ne here]
      rw [← before]
      by_cases away : o = b.owner
      · subst away
        have quiet : signal = false := by
          cases signalled : signal with
          | false => rfl
          | true =>
            have other := current signalled
            rw [← kept.owner, last] at other
            exact absurd (Option.some.inj other) here
        simp [quiet]
      · simp [away]
  · intro o none
    by_cases away : o = b.owner
    · subst away
      have quiet : signal = false := by
        cases signalled : signal with
        | false => rfl
        | true =>
          have other := current signalled
          rw [← kept.owner, none] at other
          cases other
      simp [quiet, owned.silent _ none]
    · simp [away, owned.silent _ none]
  · intro o waits
    obtain ⟨y,last,returned⟩ := owned.pending o waits
    exact ⟨y,last,(returns y).trans returned⟩
  · intro o y still notWaiting last
    exact (returns y).trans (owned.idle o y still notWaiting last)
  · intro y returned
    have done := owned.finished y ((returns y).symm.trans returned)
    by_cases here : y = x
    · subst here
      simpa [kept.finishes] using Or.inl done
    · simpa [here] using done

omit [DecidableEq O] in
theorem batchFlagged (flagged : Flagged s) (kept : Kept s.doBatching (s.batch x) flag b signal) {done : O → ℕ} :
    Flagged {s with doBatching := flag, done := done, batch := Function.update s.batch x b} := by
  have steady : (Parallel (s.batch x).phase ↔ Parallel b.phase) →
      Flagged {s with doBatching := flag, done := done, batch := Function.update s.batch x b} := by
    intro both
    refine flaggedSame flagged (kept.steady both) (fun y => ?_)
    by_cases here : y = x
    · subst here; simp [both]
    · simp [here]
  have others : ∀ y, Parallel (Function.update s.batch x b y).phase → y ≠ x → Parallel (s.batch y).phase := by
    intro y parallel other
    rwa [Function.update_of_ne other] at parallel
  by_cases before : Parallel (s.batch x).phase <;> by_cases after : Parallel b.phase
  · exact steady ⟨fun _ => after,fun _ => before⟩
  · have none : ∀ y, ¬Parallel (Function.update s.batch x b y).phase := by
      intro y parallel
      by_cases here : y = x
      · subst here
        rw [Function.update_self] at parallel
        exact after parallel
      · exact here (flagged.one y x (others y parallel here) before)
    refine ⟨?_,fun y _ hy => absurd hy (none y)⟩
    simp [kept.ended before after, none]
  · obtain ⟨_,lowered,raised⟩ := kept.parallel after before
    have alone : ∀ y, Parallel (Function.update s.batch x b y).phase → y = x := by
      intro y parallel
      by_contra other
      exact absurd (flagged.set.mpr ⟨y,others y parallel other⟩) (by simp [lowered])
    refine ⟨?_,fun y z hy hz => (alone y hy).trans (alone z hz).symm⟩
    simp only [raised, true_iff]
    exact ⟨x,by simpa using after⟩
  · exact steady ⟨fun h => absurd h before,fun h => absurd h after⟩

end Dispatch

theorem startOwned (owned : Owned s) (o : O) (x : B) (unused : (s.batch x).phase = .unused)
    (idle : s.inFlight o = false) (waited : s.awaiting o = false) {b : Batch O B} (mine : b.owner = o)
    (queued : b.phase = .queued) (unreturned : b.returned = false) :
    Owned {s with
      inFlight := Function.update s.inFlight o true
      current := Function.update s.current o (some x)
      batch := Function.update s.batch x b} := by
  have returned : ∀ y, s.current o = some y → (s.batch y).returned = true :=
    fun y last => owned.idle o y idle waited last
  have other : ∀ {p y}, s.current p = some y → y ≠ x := by
    intro p y last same
    exact (owned.mine p y last).2 (same ▸ unused)
  have silent : s.done o = 0 := by
    cases last : s.current o with
    | none => exact owned.silent o last
    | some y => simp [owned.signalled o y last, returned y last]
  constructor
  · intro y used unreturned'
    by_cases here : y = x
    · subst here; simp [mine]
    · simp only [Function.update_of_ne here] at used unreturned' ⊢
      have last := owned.last y used unreturned'
      by_cases same : (s.batch y).owner = o
      · rw [same] at last
        simp [returned y last] at unreturned'
      · simpa [same] using last
  · intro p y last
    by_cases here : p = o
    · subst here
      have same : x = y := by simpa using last
      subst same
      simp [mine, queued]
    · have last : s.current p = some y := by simpa [here] using last
      simpa [other last] using owned.mine p y last
  · intro p y last
    by_cases here : p = o
    · subst here
      have same : x = y := by simpa using last
      subst same
      simp [queued, silent]
    · have last : s.current p = some y := by simpa [here] using last
      simpa [other last] using owned.signalled p y last
  · intro p none
    by_cases here : p = o
    · subst here; simp at none
    · exact owned.silent p (by simpa [here] using none)
  · intro p waits
    by_cases here : p = o
    · subst here
      exact ⟨x,by simp,by simpa using unreturned⟩
    · obtain ⟨y,last,unreturned'⟩ := owned.pending p (by simpa [here] using waits)
      exact ⟨y,by simpa [here] using last,by simpa [other last] using unreturned'⟩
  · intro p y still notWaiting last
    by_cases here : p = o
    · subst here; simp at still
    · have last : s.current p = some y := by simpa [here] using last
      simpa [other last] using owned.idle p y (by simpa [here] using still) notWaiting last
  · intro p started
    by_cases here : p = o
    · subst here; exact waited
    · exact owned.one p (by simpa [here] using started)
  · intro y done
    by_cases here : y = x
    · subst here
      simp [unreturned] at done
    · simpa [here] using owned.finished y (by simpa [here] using done)

omit [DecidableEq B] in
theorem waitOwned (owned : Owned s) (o : O) (started : s.inFlight o = true) :
    Owned {s with inFlight := Function.update s.inFlight o false, awaiting := Function.update s.awaiting o true} := by
  refine ⟨owned.last,owned.mine,owned.signalled,owned.silent,?_,?_,?_,owned.finished⟩
  · intro p waits
    by_cases here : p = o
    · subst here
      exact owned.pending p (.inl started)
    · exact owned.pending p (by simpa [here] using waits)
  · intro p y still notWaiting last
    by_cases here : p = o
    · subst here; simp at notWaiting
    · exact owned.idle p y (by simpa [here] using still) (by simpa [here] using notWaiting) last
  · intro p inFlight
    by_cases here : p = o
    · subst here; simp at inFlight
    · simpa [here] using owned.one p (by simpa [here] using inFlight)

theorem returnsOwned (owned : Owned s) (o : O) {x : B} {n : ℕ} (waits : s.awaiting o = true)
    (done : s.done o = n + 1) (last : s.current o = some x) :
    Owned {s with
      done := Function.update s.done o n
      awaiting := Function.update s.awaiting o false
      batch := Function.update s.batch x {s.batch x with returned := true}} := by
  have signalled := owned.signalled o x last
  have finished : (s.batch x).phase = .finished ∧ n = 0 := by
    split at signalled <;> simp_all
  have mine := owned.mine o x last
  have quiet : s.inFlight o = false := by
    cases started : s.inFlight o with
    | false => rfl
    | true => simp [owned.one o started] at waits
  have other : ∀ {p y}, s.current p = some y → p ≠ o → y ≠ x := by
    intro p y hy away same
    subst same
    exact away ((owned.mine p y hy).1.symm.trans mine.1)
  constructor
  · intro y used unreturned
    by_cases here : y = x
    · subst here; simp at unreturned
    · simpa [here] using owned.last y (by simpa [here] using used) (by simpa [here] using unreturned)
  · intro p y hy
    by_cases here : y = x
    · subst here; simpa using owned.mine p y hy
    · simpa [here] using owned.mine p y hy
  · intro p y hy
    by_cases here : p = o
    · subst here
      have same : y = x := Option.some.inj (hy.symm.trans last)
      subst same
      simp [finished.2]
    · simpa [here, other hy here] using owned.signalled p y hy
  · intro p none
    by_cases here : p = o
    · subst here; simp [finished.2]
    · simpa [here] using owned.silent p none
  · intro p pending
    by_cases here : p = o
    · subst here; simp [quiet] at pending
    · obtain ⟨y,hy,unreturned⟩ := owned.pending p (by simpa [here] using pending)
      exact ⟨y,hy,by simpa [other hy here] using unreturned⟩
  · intro p y still notWaiting hy
    by_cases here : y = x
    · subst here; simp
    · by_cases away : p = o
      · subst away
        exact absurd (Option.some.inj (hy.symm.trans last)) here
      · simpa [here] using owned.idle p y still (by simpa [away] using notWaiting) hy
  · intro p started
    by_cases here : p = o
    · subst here; simp
    · simpa [here] using owned.one p started
  · intro y returned
    by_cases here : y = x
    · subst here; simpa using finished.1
    · simpa [here] using owned.finished y (by simpa [here] using returned)

theorem stepInv (inv : Inv s) (taken : Step s t) : Inv t := by
  obtain ⟨sound,owned,flagged⟩ := inv
  cases taken with
  | @batch flag b signal x taken =>
    have kept := moveKept taken
    refine ⟨fun y => ?_,batchOwned x owned kept,batchFlagged x flagged kept⟩
    by_cases here : y = x
    · subst here
      simpa using moveSound (sound y) taken
    · simpa [here] using sound y
  | start o x inside tasks positive unused idle waited real =>
    refine ⟨fun y => ?_,startOwned owned o x unused idle waited rfl rfl rfl,?_⟩
    · by_cases here : y = x
      · subst here
        simp only [Function.update_self]
        exact ⟨⟨fun _ => rfl,rfl⟩,fun _ => rfl,fun _ => positive⟩
      · simpa [here] using sound y
    · refine flaggedSame flagged rfl (fun y => ?_)
      by_cases here : y = x
      · subst here; simp [unused, Parallel]
      · simp [here]
  | wait o started => exact ⟨sound,waitOwned owned o started,flagged.set,flagged.one⟩
  | @returns n x o waits done last =>
    refine ⟨fun y => ?_,returnsOwned owned o waits done last,?_⟩
    · by_cases here : y = x
      · subst here
        simpa using ⟨(sound y).placed,(sound y).started,(sound y).positive⟩
      · simpa [here] using sound y
    · refine flaggedSame flagged rfl (fun y => ?_)
      by_cases here : y = x
      · subst here; simp
      · simp [here]

def limit (b : Batch O B) : ℕ := if b.inside.isSome then 1 else min b.concurrent maxSlots

/- No task starts twice and no batch exceeds its bound; a batch that has ended has started
and finished every task; one that has not goes on, and not for ever; the flag is set only
while a batch is dispatched in parallel. -/
structure Works (s : State O B) : Prop where
  once : ∀ x j, (s.batch x).started j ≤ if j < (s.batch x).size then 1 else 0
  bounded : ∀ x, amount (s.batch x) busy ≤ limit (s.batch x)
  waits : ∀ x, (s.batch x).returned = true → (s.batch x).phase = .finished
  complete : ∀ x, (s.batch x).phase = .finished → ∀ j < (s.batch x).size,
    (s.batch x).started j = 1 ∧ (s.batch x).task j = .reported
  goes : ∀ x, (s.batch x).phase ≠ .unused → (s.batch x).phase ≠ .finished →
    ∃ flag b signal, BatchMove s.doBatching (s.batch x) flag b signal
  ends : ∀ x flag b signal, BatchMove s.doBatching (s.batch x) flag b signal → rank b < rank (s.batch x)
  lowered : s.doBatching = true → ∃ x, Parallel (s.batch x).phase

def Exposed (b : Batch O B) : Prop := b.inside.isSome ∧ 2 ≤ b.size ∧ 2 ≤ b.concurrent

/- dispatch finds the flag set when it gets to such a batch. -/
def Sheltered (s t : State O B) : Prop :=
  ∀ x, Exposed (s.batch x) → (s.batch x).phase = .queued → (t.batch x).phase ≠ .queued → s.doBatching = true

def Degraded (s : State O B) : Prop := ∀ x, Exposed (s.batch x) → ¬Parallel (s.batch x).phase

theorem stepDegraded (degraded : Degraded s) (taken : Step s t) (sheltered : Sheltered s t) : Degraded t := by
  intro y exposed parallel
  cases taken with
  | @batch flag b signal x taken =>
    have kept := moveKept taken
    by_cases here : y = x
    · subst here
      simp only [Function.update_self, Exposed, kept.inside, kept.size, kept.concurrent] at exposed parallel
      obtain ⟨queued,lowered,_⟩ := kept.parallel parallel (degraded y exposed)
      have raised := sheltered y exposed queued (by
        intro still
        simp only [Function.update_self] at still
        simp [still, Parallel] at parallel)
      simp [raised] at lowered
    · simp only [Function.update_of_ne here] at exposed parallel
      exact degraded y exposed parallel
  | start o x inside tasks positive unused idle waited real =>
    by_cases here : y = x
    · subst here; simp [Parallel] at parallel
    · simp only [Function.update_of_ne here] at exposed parallel
      exact degraded y exposed parallel
  | wait o started => exact degraded y exposed parallel
  | @returns n x o waits done last =>
    by_cases here : y = x
    · subst here
      simp only [Function.update_self] at exposed parallel
      exact degraded y exposed parallel
    · simp only [Function.update_of_ne here] at exposed parallel
      exact degraded y exposed parallel

theorem busyNone {q : TaskPhase} (other : q ≠ .running) : busy q = 0 := by
  cases q <;> first | rfl | exact absurd rfl other

omit [DecidableEq O] [DecidableEq B] in
theorem busyBound {b : Batch O B} (sound : Sound b) (degraded : Exposed b → ¬Parallel b.phase) :
    amount b busy ≤ limit b := by
  have placed := sound.placed
  have still : (∀ j < b.size, b.task j ≠ .running) → amount b busy ≤ limit b := by
    intro none
    rw [amountNone (fun j inside => ?_)]
    · exact Nat.zero_le _
    · exact busyNone (none j inside)
  have parallel : Parallel b.phase → b.slot + amount b holding = min b.concurrent maxSlots →
      amount b busy ≤ limit b := by
    intro parallel held
    have busyHolds : amount b busy ≤ amount b holding := amountLe (fun q => by cases q <;> decide)
    have busySize : amount b busy ≤ b.size := amountLeSize (fun q => by cases q <;> decide)
    unfold limit
    split
    · next nested =>
      by_contra many
      exact degraded ⟨nested,by omega,by omega⟩ parallel
    · omega
  cases here : b.phase with
  | unused => simp only [Placed, here] at placed; exact still (fun j _ => by rw [placed.1 j]; decide)
  | queued => simp only [Placed, here] at placed; exact still (fun j _ => by rw [placed.1 j]; decide)
  | finished => simp only [Placed, here] at placed; exact still (fun j inside => by rw [placed.1 j inside]; decide)
  | submitting i =>
    simp only [Placed, here] at placed
    exact parallel (by simp [here, Parallel]) placed.2.2.2.1
  | collecting i =>
    simp only [Placed, here] at placed
    exact parallel (by simp [here, Parallel]) placed.2.2.2.1
  | serial i running =>
    simp only [Placed, here] at placed
    obtain ⟨before,now,after,_⟩ := placed
    have others : ∀ j, j ≠ i → b.task j ≠ .running := by
      intro j other
      rcases Nat.lt_or_gt_of_ne other with lower | higher
      · rw [before j lower]; decide
      · rw [after j higher]; decide
    have positive := sound.positive (by simp [here])
    have one : 1 ≤ limit b := by
      have slots : 0 < maxSlots := by decide
      unfold limit
      split <;> omega
    rcases Nat.lt_or_ge i b.size with inside | beyond
    · have counted := amountSet inside .reported busy
      have rest : amount (setTask b i .reported) busy = 0 := by
        refine amountNone (fun j _ => ?_)
        by_cases same : j = i
        · rw [same, setSelf]; rfl
        · rw [setOther b _ same]
          exact busyNone (others j same)
      have small : busy (b.task i) ≤ 1 := by cases b.task i <;> decide
      have idle : busy .reported = 0 := rfl
      omega
    · exact still (fun j (lower : j < b.size) => others j (by omega))

omit [DecidableEq O] [DecidableEq B] in
theorem invWorks (inv : Inv s) (degraded : Degraded s) : Works s := by
  refine ⟨?_,fun x => busyBound (inv.sound x) (degraded x),inv.owned.finished,?_,?_,?_,inv.flagged.set.mp⟩
  · intro x j
    have sound := inv.sound x
    rw [sound.started j]
    split
    · cases (s.batch x).task j <;> decide
    · next beyond =>
      have idle : (s.batch x).task j = .waiting := by
        by_contra moving
        exact beyond (movedInside sound.placed j moving)
      rw [idle]; decide
  · intro x finished j inside
    have sound := inv.sound x
    have reported : (s.batch x).task j = .reported := by
      have placed := sound.placed
      simp only [Placed, finished] at placed
      exact placed.1 j inside
    exact ⟨by rw [sound.started j, reported]; rfl,reported⟩
  · exact fun x used unfinished => batchGoes (inv.sound x) used unfinished s.doBatching
  · exact fun x flag b signal taken => moveRank (inv.sound x) taken

theorem movesReachable {flag : Bool} (raised : s.doBatching = flag) (x : B) {b b' : Batch O B} (here : s.batch x = b)
    (moves : Relation.ReflTransGen (fun b b' => BatchMove flag b flag b' false) b b') :
    Reachable Step s {s with batch := Function.update s.batch x b'} := by
  induction moves with
  | refl =>
    subst here
    rw [Function.update_eq_self]
  | @tail c d _ taken ih =>
    subst raised
    refine ih.tail ?_
    have here : BatchMove s.doBatching (Function.update s.batch x c x) s.doBatching d false := by simpa using taken
    simpa using Step.batch (s := {s with batch := Function.update s.batch x c}) x here

omit [DecidableEq O] [DecidableEq B] in
theorem opensTwo {b : Batch O B} {n : ℕ} (here : b.phase = .submitting 0) (two : 2 ≤ b.size) (free : b.slot = n + 2) :
    ∃ b', Relation.ReflTransGen (fun b b' => BatchMove true b true b' false) b b' ∧ b'.inside = b.inside ∧
      b'.size = b.size ∧ b'.task 0 = .running ∧ b'.task 1 = .running := by
  let handed : Batch O B := {setTask b 0 .spawned with phase := .submitting 1, slot := n + 1}
  let both : Batch O B := {setTask (setTask b 0 .spawned) 1 .spawned with phase := .submitting 2, slot := n}
  have first : BatchMove true b true handed false := .submits here (by omega) free
  have second : BatchMove true handed true both false := .submits rfl two rfl
  have third : BatchMove true both true (startTask both 0) false := .begins rfl
  have fourth : BatchMove true (startTask both 0) true (startTask (startTask both 0) 1) false := .begins rfl
  exact ⟨_,(((Relation.ReflTransGen.single first).tail second).tail third).tail fourth,
    by simp [both, startTask, setTask],by simp [both, startTask, setTask],by simp [startTask, setTask],
    by simp [startTask, setTask]⟩

omit [DecidableEq O] [DecidableEq B] in
theorem busyTwo {b : Batch O B} (two : 2 ≤ b.size) (first : b.task 0 = .running) (second : b.task 1 = .running) :
    2 ≤ amount b busy := by
  have pair : ({0,1} : Finset ℕ) ⊆ Finset.range b.size := by
    intro j mem
    simp only [Finset.mem_insert, Finset.mem_singleton] at mem
    exact Finset.mem_range.mpr (by omega)
  have sum := Finset.sum_le_sum_of_subset (f := fun j => busy (b.task j)) pair
  simpa [first, second, busy, amount] using sum

omit [DecidableEq O] [DecidableEq B] in
theorem leavesQueued {b b' : Batch O B} {flag signal : Bool} (taken : BatchMove false b flag b' signal)
    (queued : b.phase = .queued) (left : b'.phase ≠ .queued) :
    flag = true ∧ b' = {b with phase := .submitting 0, slot := min b.concurrent maxSlots} := by
  cases taken with
  | opens _ => exact ⟨rfl,rfl⟩
  | begins _ => exact absurd queued left
  | ends _ _ => exact absurd queued left
  | releases _ => exact absurd queued left
  | reports _ => exact absurd queued left
  | serialBegins here _ => simp [here] at queued
  | serialEnds here => simp [here] at queued
  | serialCloses here _ => simp [here] at queued
  | submits here _ _ => simp [here] at queued
  | submitted here _ => simp [here] at queued
  | collects here _ _ => simp [here] at queued
  | closes here _ => simp [here] at queued

theorem opensUnsheltered (taken : Step s t) (unsheltered : ¬Sheltered s t) :
    ∃ u, Reachable Step t u ∧ ¬Works u := by
  unfold Sheltered at unsheltered
  push Not at unsheltered
  obtain ⟨x,⟨nested,two,concurrent⟩,queued,left,lowered⟩ := unsheltered
  cases taken with
  | start o y inside tasks positive unused idle waited real =>
    by_cases here : x = y
    · subst here; simp [queued] at unused
    · exact absurd (by simpa [here] using queued) left
  | wait o started => exact absurd queued left
  | @returns n y o waits done last =>
    by_cases here : x = y
    · subst here; exact absurd (by simpa using queued) left
    · exact absurd (by simpa [here] using queued) left
  | @batch flag b signal y taken =>
    by_cases here : x = y
    · subst here
      obtain ⟨rfl,rfl⟩ := leavesQueued (Bool.eq_false_iff.mpr lowered ▸ taken) queued (by simpa using left)
      obtain ⟨n,free⟩ : ∃ n, min (s.batch x).concurrent maxSlots = n + 2 :=
        Nat.exists_eq_add_of_le' (le_min concurrent (by decide))
      obtain ⟨b',moves,inside,size,first,second⟩ := opensTwo
        (b := {s.batch x with phase := .submitting 0, slot := min (s.batch x).concurrent maxSlots}) rfl two free
      refine ⟨_,movesReachable rfl x (Function.update_self ..) moves,fun works => ?_⟩
      have bound := works.bounded x
      have many := busyTwo (by rw [size]; exact two) first second
      simp only [Function.update_self, limit, inside, nested, if_true] at bound
      omega
    · exact absurd (by simpa [here] using queued) left

/- Where every nested batch finds the flag set, batches keep their word; where one does
not, it can go on to run two tasks at once. -/
theorem batchesComplete (o : O) :
    (∀ s, Reachable (fun s t => Step s t ∧ Sheltered s t) (start B o) s → Works s) ∧
    ∀ s t : State O B, Step s t → ¬Sheltered s t → ∃ u, Reachable Step t u ∧ ¬Works u := by
  refine ⟨fun s run => ?_,fun s t => opensUnsheltered⟩
  have kept := reachableInvariant (fun s => Inv s ∧ Degraded s)
    ⟨startInv o,fun x exposed parallel => absurd exposed (by simp [start, Exposed])⟩
    (fun c d inv taken => ⟨stepInv inv.1 taken.1,stepDegraded inv.2 taken.1 taken.2⟩) run
  exact invWorks kept.1 kept.2

end Owners

section Runs
variable {s : State ℕ ℕ}

def Spare (s : State ℕ ℕ) (n : ℕ) : Prop :=
  ∀ y, n ≤ y → (s.batch y).phase = .unused ∧ s.inFlight y = false ∧ s.awaiting y = false

theorem starts {x size concurrent : ℕ} (spare : Spare s x) (tasks : 0 < size) (positive : 0 < concurrent)
    (inside : Option (ℕ × ℕ)) (real : ∀ y j, inside = some (y,j) → (s.batch y).task j = .running) :
    ∃ t, Step s t ∧ t.doBatching = s.doBatching ∧ Spare t (x + 1) ∧ t.batch = Function.update s.batch x
      ⟨x,size,concurrent,inside,.queued,0,0,fun _ => .waiting,fun _ => 0,false⟩ := by
  obtain ⟨unused,idle,waited⟩ := spare x le_rfl
  refine ⟨_,.start x x inside tasks positive unused idle waited real,rfl,?_,rfl⟩
  intro y above
  have other : y ≠ x := by omega
  simpa [other] using spare y (by omega)

theorem moves {x n : ℕ} {b : Batch ℕ ℕ} {flag signal : Bool} (spare : Spare s n) (before : x < n)
    (taken : BatchMove s.doBatching (s.batch x) flag b signal) :
    ∃ t, Step s t ∧ t.doBatching = flag ∧ Spare t n ∧ t.batch = Function.update s.batch x b := by
  refine ⟨_,.batch x taken,rfl,?_,rfl⟩
  intro y above
  have other : y ≠ x := by omega
  simpa [other] using spare y above

/- Two first-level batches: the second is serial, the first ends and lowers the flag, and
then the task of the second starts a batch. -/
theorem unrelatedNests : ∃ s : State ℕ ℕ, Reachable Step (start ℕ 0) s ∧ ¬Works s := by
  have none : Spare (start ℕ 0) 0 := fun _ _ => ⟨rfl,rfl,rfl⟩
  obtain ⟨s1,run1,flag1,spare1,batch1⟩ := starts none Nat.one_pos Nat.one_pos Option.none (by simp)
  obtain ⟨s2,run2,flag2,spare2,batch2⟩ := moves (x := 0) spare1 Nat.one_pos
    (by rw [flag1, batch1, Function.update_self]; exact .opens rfl)
  obtain ⟨s3,run3,flag3,spare3,batch3⟩ := starts spare2 Nat.one_pos Nat.one_pos Option.none (by simp)
  obtain ⟨s4,run4,flag4,spare4,batch4⟩ := moves (x := 1) spare3 (by decide)
    (by rw [flag3, flag2, batch3, Function.update_self]; exact .nests rfl)
  obtain ⟨s5,run5,flag5,spare5,batch5⟩ := moves (x := 1) spare4 (by decide)
    (by rw [batch4, Function.update_self]; exact .serialBegins rfl Nat.one_pos)
  have reached : Reachable Step (start ℕ 0) s5 :=
    ((((Relation.ReflTransGen.single run1).tail run2).tail run3).tail run4).tail run5
  have inv := reachableInvariant Inv (startInv 0) (fun _ _ => stepInv) reached
  have zero : (s5.batch 0).phase = .submitting 0 := by simp [batch5, batch4, batch3, batch2]
  obtain ⟨b,i,rest,here,all⟩ := parallelCollects (inv.sound 0) (by rw [zero]; trivial)
  have reached := reached.trans (movesReachable (flag5.trans flag4) 0 rfl rest)
  have spare6 : Spare {s5 with batch := Function.update s5.batch 0 b} 2 := by
    intro y above
    have other : y ≠ 0 := by omega
    simpa [other] using spare5 y above
  have ready : Function.update s5.batch 0 b 0 = b := Function.update_self ..
  obtain ⟨s7,run7,flag7,spare7,batch7⟩ := moves (x := 0) spare6 (by decide)
    (ready.symm ▸ BatchMove.closes here all)
  obtain ⟨s8,run8,flag8,spare8,batch8⟩ := starts spare7 Nat.two_pos Nat.two_pos (some (1,0)) (by
    rintro y j ⟨rfl,rfl⟩
    simp [batch7, batch5, startTask])
  obtain ⟨s9,run9,_,_,batch9⟩ := moves (x := 2) spare8 (by decide)
    (by rw [flag8, flag7, batch8, Function.update_self]; exact .opens rfl)
  have unsheltered : ¬Sheltered s8 s9 := by
    intro sheltered
    have raised := sheltered 2 (by simp [batch8, Exposed]) (by simp [batch8]) (by simp [batch9])
    simp [flag8, flag7] at raised
  obtain ⟨u,further,broken⟩ := opensUnsheltered run9 unsheltered
  exact ⟨u,(((reached.tail run7).tail run8).tail run9).trans further,broken⟩

theorem nestedSerial : ∃ s : State ℕ ℕ, (s.batch 1).phase = .serial 0 false ∧ Exposed (s.batch 1) ∧ Works s := by
  have none : Spare (start ℕ 0) 0 := fun _ _ => ⟨rfl,rfl,rfl⟩
  obtain ⟨s1,run1,flag1,spare1,batch1⟩ := starts none Nat.one_pos Nat.one_pos Option.none (by simp)
  obtain ⟨s2,run2,flag2,spare2,batch2⟩ := moves (x := 0) spare1 Nat.one_pos
    (by rw [flag1, batch1, Function.update_self]; exact .opens rfl)
  obtain ⟨s3,run3,flag3,spare3,batch3⟩ := moves (x := 0) spare2 Nat.one_pos
    (by rw [batch2, Function.update_self]; exact .submits rfl Nat.one_pos rfl)
  obtain ⟨s4,run4,flag4,spare4,batch4⟩ := moves (x := 0) spare3 Nat.one_pos
    (by rw [batch3, Function.update_self]; exact .begins (Function.update_self ..))
  obtain ⟨s5,run5,flag5,spare5,batch5⟩ := starts spare4 Nat.two_pos Nat.two_pos (some (0,0)) (by
    rintro y j ⟨rfl,rfl⟩
    simp [batch4, startTask])
  have raised : s5.doBatching = true := by rw [flag5, flag4, flag3, flag2]
  obtain ⟨s6,run6,_,_,batch6⟩ := moves (x := 1) spare5 (by decide)
    (by rw [raised, batch5, Function.update_self]; exact .nests rfl)
  have alone : ∀ {s t : State ℕ ℕ}, (∀ x, (s.batch x).inside = Option.none) → Sheltered s t := by
    intro s t alone x exposed
    simp [Exposed, alone x] at exposed
  have open' : ∀ {s t : State ℕ ℕ}, s.doBatching = true → Sheltered s t := fun raised _ _ _ _ => raised
  have reached : Reachable (fun s t => Step s t ∧ Sheltered s t) (start ℕ 0) s6 := by
    refine (((((Relation.ReflTransGen.single ⟨run1,alone ?_⟩).tail ⟨run2,alone ?_⟩).tail ⟨run3,open' flag2⟩).tail
      ⟨run4,open' (flag3.trans flag2)⟩).tail ⟨run5,open' (flag4.trans (flag3.trans flag2))⟩).tail ⟨run6,open' raised⟩
    · exact fun _ => rfl
    · intro x
      rw [batch1]
      by_cases here : x = 0
      · subst here; rfl
      · rw [Function.update_of_ne here]; rfl
  exact ⟨s6,by simp [batch6],by simp [batch6, Exposed],(batchesComplete 0).1 s6 reached⟩

end Runs
end Uco.Cobatch
