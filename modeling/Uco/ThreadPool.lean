import Uco.Interleaving

/-! The thread pool. A section under the pool's mutex is one step, and so is every signal
and every write to a caller's ret_code. Which sleeper a notify wakes is left open, and a
sleeper may wake without one. -/
namespace Uco.ThreadPool
open Interleaving

inductive RetCode where
  | ok
  | exit
  | exception
  | busy
  deriving DecidableEq, Repr

inductive Outcome where
  | finished
  | threw
  | discarded
  deriving DecidableEq, Repr

def Outcome.code : Outcome → RetCode
  | .finished => .ok
  | .threw => .exception
  | .discarded => .exit

/- Tasks are numbered as they are accepted. `waited` tells execute from addtask: the task
has a ret_code and a notify_sema. `live` are the workers that have not left their loop,
`sleepers` wait at the condition variable and `woken` have been notified. The last seven
are recorded. -/
structure Shared where
  numWorkers : ℕ
  closeMtx : Bool
  isClosed : Bool
  tasks : List ℕ
  sleepers : ℕ
  woken : ℕ
  live : ℕ
  waited : ℕ → Bool
  retCode : ℕ → RetCode
  sema : ℕ → ℕ
  next : ℕ
  started : ℕ → ℕ
  discarded : ℕ → ℕ
  written : ℕ → ℕ
  signals : ℕ → ℕ
  outcome : ℕ → Option Outcome
  returned : Bool

inductive Pc where
  | idle
  | notify (id : ℕ)
  | await (id : ℕ)
  | executed (id : ℕ) (code : RetCode)
  | refused (code : RetCode)
  | closeCheck
  | notifyAll
  | join
  | ready
  | waiting
  | job (id : ℕ)
  | ended (id : ℕ) (outcome : Outcome)
  | signal (id : ℕ)
  | draining (ids : List ℕ)
  | drainSignal (id : ℕ) (ids : List ℕ)
  | exited
  deriving DecidableEq, Repr

section Moves

def increment (f : ℕ → ℕ) (id : ℕ) : ℕ → ℕ := Function.update f id (f id + 1)

def notifyOne (g : Shared) : Shared :=
  if g.sleepers = 0 then g else {g with sleepers := g.sleepers - 1, woken := g.woken + 1}

def writeCode (g : Shared) (id : ℕ) (code : RetCode) : Shared :=
  {g with retCode := Function.update g.retCode id code, written := increment g.written id}

def signalTask (g : Shared) (id : ℕ) : Shared :=
  {g with sema := increment g.sema id, signals := increment g.signals id}

def discard (g : Shared) (id : ℕ) : Shared :=
  {g with
    discarded := increment g.discarded id
    outcome := Function.update g.outcome id (some .discarded)}

inductive CallMove (maxPending : ℕ) : Shared → Pc → Shared → Pc → Prop where
  | noWorker {g} (none : g.numWorkers = 0) : CallMove maxPending g .idle g (.refused .busy)
  | closed {g} (some : g.numWorkers ≠ 0) (closed : g.isClosed = true) :
      CallMove maxPending g .idle g (.refused .exit)
  | full {g} (some : g.numWorkers ≠ 0) (isOpen : g.isClosed = false) (full : maxPending ≤ g.tasks.length) :
      CallMove maxPending g .idle g (.refused .busy)
  | accepts {g} (waits : Bool) (some : g.numWorkers ≠ 0) (isOpen : g.isClosed = false)
      (room : g.tasks.length < maxPending) : CallMove maxPending g .idle
      {g with
        tasks := g.tasks ++ [g.next]
        next := g.next + 1
        waited := Function.update g.waited g.next waits}
      (.notify g.next)
  | notifies {g id} : CallMove maxPending g (.notify id) (notifyOne g) (if g.waited id then .await id else .idle)
  | wakes {g id n} (signalled : g.sema id = n + 1) : CallMove maxPending g (.await id)
      {g with sema := Function.update g.sema id n} (.executed id (g.retCode id))
  | returns {g id code} : CallMove maxPending g (.executed id code) g .idle
  | givesUp {g code} : CallMove maxPending g (.refused code) g .idle

inductive CloseMove : Shared → Pc → Shared → Pc → Prop where
  | enters {g} (free : g.closeMtx = false) : CloseMove g .idle {g with closeMtx := true} .closeCheck
  | again {g} (closed : g.isClosed = true) :
      CloseMove g .closeCheck {g with closeMtx := false, returned := true} .idle
  | shuts {g} (isOpen : g.isClosed = false) : CloseMove g .closeCheck {g with isClosed := true} .notifyAll
  | notifies {g} : CloseMove g .notifyAll {g with sleepers := 0, woken := g.woken + g.sleepers} .join
  | joins {g} (left : g.live = 0) : CloseMove g .join {g with closeMtx := false, returned := true} .idle

inductive LoopMove : Shared → Pc → Shared → Pc → Prop where
  | exits {g} (closed : g.isClosed = true) : LoopMove g .ready {g with tasks := []} (.draining g.tasks)
  | takes {g id rest} (isOpen : g.isClosed = false) (first : g.tasks = id :: rest) :
      LoopMove g .ready {g with tasks := rest, started := increment g.started id} (.job id)
  | sleeps {g} (isOpen : g.isClosed = false) (none : g.tasks = []) :
      LoopMove g .ready {g with sleepers := g.sleepers + 1} .waiting
  | woken {g n} (notified : g.woken = n + 1) : LoopMove g .waiting {g with woken := n} .ready
  | spurious {g n} (asleep : g.sleepers = n + 1) : LoopMove g .waiting {g with sleepers := n} .ready
  | finishes {g id} : LoopMove g (.job id)
      {g with outcome := Function.update g.outcome id (some .finished)} (.ended id .finished)
  | throws {g id} : LoopMove g (.job id)
      {g with outcome := Function.update g.outcome id (some .threw)} (.ended id .threw)
  | writes {g id outcome} (waited : g.waited id = true) :
      LoopMove g (.ended id outcome) (writeCode g id outcome.code) (.signal id)
  | skips {g id outcome} (unwaited : g.waited id = false) : LoopMove g (.ended id outcome) g .ready
  | signals {g id} : LoopMove g (.signal id) (signalTask g id) .ready
  | discards {g id rest} (waited : g.waited id = true) :
      LoopMove g (.draining (id :: rest)) (writeCode (discard g id) id .exit) (.drainSignal id rest)
  | drops {g id rest} (unwaited : g.waited id = false) :
      LoopMove g (.draining (id :: rest)) (discard g id) (.draining rest)
  | signalsExit {g id rest} : LoopMove g (.drainSignal id rest) (signalTask g id) (.draining rest)
  | leaves {g} : LoopMove g (.draining []) {g with live := g.live - 1} .exited

inductive Move (maxPending : ℕ) (g : Shared) (p : Pc) (g' : Shared) (p' : Pc) : Prop where
  | call (taken : CallMove maxPending g p g' p')
  | close (taken : CloseMove g p g' p')
  | loop (taken : LoopMove g p g' p')

def system (maxPending : ℕ) : System Shared Pc := ⟨fun _ _ => False, Move maxPending⟩

abbrev State (T : Type*) := Config Shared Pc T

def start {T : Type*} [Fintype T] (worker : T → Bool) : State T :=
  let count := ∑ t, if worker t then 1 else 0
  ⟨⟨count,false,false,[],0,0,count,fun _ => false,fun _ => .ok,fun _ => 0,0,fun _ => 0,fun _ => 0,fun _ => 0,
    fun _ => 0,fun _ => none,false⟩, fun t => if worker t then .ready else .idle⟩

end Moves

section Weights

@[simp] def unwritten (id : ℕ) : Pc → ℕ | .job i | .ended i _ => if i = id then 1 else 0 | _ => 0
@[simp] def signalling (id : ℕ) : Pc → ℕ | .signal i | .drainSignal i _ => if i = id then 1 else 0 | _ => 0
@[simp] def drainable (id : ℕ) : Pc → ℕ | .draining ids | .drainSignal _ ids => ids.count id | _ => 0
@[simp] def active : Pc → ℕ | .ready | .job _ | .ended _ _ | .signal _ => 1 | _ => 0
@[simp] def asleep : Pc → ℕ | .waiting => 1 | _ => 0
@[simp] def leaving : Pc → ℕ | .draining _ | .drainSignal _ _ => 1 | _ => 0
@[simp] def gone : Pc → ℕ | .exited => 1 | _ => 0
@[simp] def notifying : Pc → ℕ | .notify _ => 1 | _ => 0
@[simp] def alerting : Pc → ℕ | .notifyAll => 1 | _ => 0
@[simp] def joining : Pc → ℕ | .notifyAll | .join => 1 | _ => 0
@[simp] def checking : Pc → ℕ | .closeCheck => 1 | _ => 0

end Weights

structure Tasks (maxPending : ℕ) (g : Shared) (n : Tally Pc) : Prop where
  bounded : g.tasks.length ≤ maxPending
  place : ∀ id, g.tasks.count id + n (drainable id) + g.started id + g.discarded id = if id < g.next then 1 else 0
  signals : ∀ id, g.signals id + n (signalling id) = g.written id
  written : ∀ id, g.waited id = true → g.written id + n (unwritten id) = g.started id + g.discarded id
  unwaited : ∀ id, g.waited id = false → g.written id = 0
  running : ∀ id, n (unwritten id) ≤ g.started id
  sema : ∀ id, g.sema id ≤ g.signals id

structure Workers (g : Shared) (n : Tally Pc) : Prop where
  each : n active + n asleep + n leaving + n gone = g.numWorkers
  live : g.live + n gone = g.numWorkers
  asleep : n asleep = g.sleepers + g.woken
  emptied : n leaving + n gone ≠ 0 → g.isClosed = true ∧ g.tasks = []
  none : g.numWorkers = 0 → g.next = 0 ∧ g.tasks = []
  awake : g.tasks ≠ [] → n active + g.woken + n notifying ≠ 0
  alerted : g.isClosed = true → g.sleepers = 0 ∨ n alerting ≠ 0

structure Closing (g : Shared) (n : Tally Pc) : Prop where
  locked : n checking + n joining = if g.closeMtx then 1 else 0
  shut : n joining ≠ 0 → g.isClosed = true
  joined : g.isClosed = true → g.live = 0 ∨ n joining ≠ 0
  returned : g.returned = true → g.isClosed = true ∧ g.live = 0

section Steps
variable {maxPending : ℕ} {g g' : Shared} {p p' : Pc} {n n' : Tally Pc} {id : ℕ}

theorem incrementSelf (f : ℕ → ℕ) (id : ℕ) : increment f id id = f id + 1 := Function.update_self ..

theorem incrementOther (f : ℕ → ℕ) {id j : ℕ} (other : j ≠ id) : increment f id j = f j := Function.update_of_ne other ..

theorem incrementIf (f : ℕ → ℕ) (id j : ℕ) : increment f id j = f j + if id = j then 1 else 0 := by
  by_cases same : id = j
  · rw [if_pos same, same, incrementSelf]
  · rw [if_neg same, incrementOther f (Ne.symm same)]; rfl

theorem tasksMoves (recount : Recount p p' n n') (old : Tasks maxPending g n) (next : g'.next = g.next)
    (waited : g'.waited = g.waited) (fewer : g'.tasks.length ≤ g.tasks.length)
    (place : ∀ id, g'.tasks.count id + drainable id p' + g'.started id + g'.discarded id =
      g.tasks.count id + drainable id p + g.started id + g.discarded id)
    (signals : ∀ id, g'.signals id + signalling id p' + g.written id = g.signals id + signalling id p + g'.written id)
    (written : ∀ id, g.waited id = true → g'.written id + unwritten id p' + g.started id + g.discarded id =
      g.written id + unwritten id p + g'.started id + g'.discarded id)
    (unwaited : ∀ id, g.waited id = false → g'.written id = g.written id)
    (running : ∀ id, unwritten id p' + g.started id ≤ unwritten id p + g'.started id)
    (sema : ∀ id, g'.sema id + g.signals id ≤ g.sema id + g'.signals id) : Tasks maxPending g' n' := by
  refine ⟨fewer.trans old.bounded, fun id => ?_, fun id => ?_, fun id waits => ?_, fun id none => ?_, fun id => ?_,
    fun id => ?_⟩
  · have c := recount.change (drainable id)
    have here := old.place id
    have same := place id
    rw [next]
    omega
  · have c := recount.change (signalling id)
    have here := old.signals id
    have same := signals id
    omega
  · rw [waited] at waits
    have c := recount.change (unwritten id)
    have here := old.written id waits
    have same := written id waits
    omega
  · rw [waited] at none
    exact (unwaited id none).trans (old.unwaited id none)
  · have c := recount.change (unwritten id)
    have here := old.running id
    have same := running id
    omega
  · have here := old.sema id
    have same := sema id
    omega

theorem tasksKept (recount : Recount p p' n n') (old : Tasks maxPending g n) (tasks : g'.tasks = g.tasks)
    (next : g'.next = g.next) (started : g'.started = g.started) (discarded : g'.discarded = g.discarded)
    (waited : g'.waited = g.waited) (written : g'.written = g.written) (signals : g'.signals = g.signals)
    (sema : ∀ id, g'.sema id ≤ g.sema id) (drains : ∀ id, drainable id p' = drainable id p)
    (signalling : ∀ id, signalling id p' = signalling id p)
    (unwritten : ∀ id, unwritten id p' = unwritten id p) : Tasks maxPending g' n' := by
  refine tasksMoves recount old next waited (by rw [tasks]) (fun id => ?_) (fun id => ?_) (fun id _ => ?_)
    (fun id _ => congrFun written id) (fun id => ?_) (fun id => ?_)
  · rw [tasks, started, discarded, drains]
  · rw [signals, written, signalling]
  · rw [written, started, discarded, unwritten]
  · rw [started, unwritten]
  · rw [signals]
    exact Nat.add_le_add_right (sema id) _

theorem tasksAccepts (recount : Recount p p' n n') (old : Tasks maxPending g n) (waits : Bool)
    (room : g.tasks.length < maxPending) (drains : ∀ id, drainable id p' = drainable id p)
    (signalling : ∀ id, signalling id p' = signalling id p)
    (unwritten : ∀ id, unwritten id p' = unwritten id p) : Tasks maxPending
      {g with
        tasks := g.tasks ++ [g.next]
        next := g.next + 1
        waited := Function.update g.waited g.next waits} n' := by
  have fresh := old.place g.next
  simp only [Nat.lt_irrefl, if_false] at fresh
  -- nothing is written yet for the number that is taken
  have before : g.written g.next = 0 := by
    cases waits : g.waited g.next with
    | true =>
      have here := old.written g.next waits
      omega
    | false => exact old.unwaited g.next waits
  have running := old.running g.next
  refine ⟨by simp only [List.length_append, List.length_singleton]; omega, fun id => ?_, fun id => ?_,
    fun id waiting => ?_, fun id none => ?_, fun id => ?_, old.sema⟩
  · have c := recount.change (drainable id)
    have here := old.place id
    have same := drains id
    simp only [List.count_append, List.count_singleton, beq_iff_eq]
    by_cases new : g.next = id
    · subst new
      simp only [Nat.lt_irrefl, if_false, if_true, Nat.lt_succ_self] at here ⊢
      omega
    · rw [if_neg new]
      split at here <;> split <;> omega
  · have c := recount.change (ThreadPool.signalling id)
    have here := old.signals id
    have same := signalling id
    simp only
    omega
  · have c := recount.change (ThreadPool.unwritten id)
    have same := unwritten id
    simp only at waiting ⊢
    by_cases new : id = g.next
    · subst new
      omega
    · rw [Function.update_of_ne new] at waiting
      have here := old.written id waiting
      omega
  · simp only at none ⊢
    by_cases new : id = g.next
    · subst new
      exact before
    · rw [Function.update_of_ne new] at none
      exact old.unwaited id none
  · have c := recount.change (ThreadPool.unwritten id)
    have here := old.running id
    have same := unwritten id
    simp only
    omega

theorem afterNotify (g : Shared) (id : ℕ) :
    (if g.waited id then Pc.await id else .idle) = .await id ∨ (if g.waited id then Pc.await id else .idle) = .idle := by
  cases g.waited id
  · exact .inr rfl
  · exact .inl rfl

theorem callTasks (taken : CallMove maxPending g p g' p') (recount : Recount p p' n n')
    (old : Tasks maxPending g n) : Tasks maxPending g' n' := by
  cases taken with
  | accepts waits some isOpen room =>
    exact tasksAccepts recount old waits room (fun _ => rfl) (fun _ => rfl) (fun _ => rfl)
  | @notifies id =>
    unfold notifyOne
    split <;> rcases afterNotify g id with same | same <;> rw [same] at recount <;>
      exact tasksKept recount old rfl rfl rfl rfl rfl rfl rfl (fun _ => Nat.le_refl _) (fun _ => rfl) (fun _ => rfl)
        (fun _ => rfl)
  | @wakes id n signalled =>
    refine tasksKept recount old rfl rfl rfl rfl rfl rfl rfl (fun j => ?_) (fun _ => rfl) (fun _ => rfl) (fun _ => rfl)
    by_cases same : j = id
    · subst same
      simp only [Function.update_self]
      omega
    · simp [same]
  | _ =>
    exact tasksKept recount old rfl rfl rfl rfl rfl rfl rfl (fun _ => Nat.le_refl _) (fun _ => rfl) (fun _ => rfl)
      (fun _ => rfl)

theorem closeTasks (taken : CloseMove g p g' p') (recount : Recount p p' n n') (old : Tasks maxPending g n) :
    Tasks maxPending g' n' := by
  cases taken <;> exact tasksKept recount old rfl rfl rfl rfl rfl rfl rfl (fun _ => Nat.le_refl _) (fun _ => rfl)
    (fun _ => rfl) (fun _ => rfl)

theorem loopTasks (taken : LoopMove g p g' p') (recount : Recount p p' n n') (old : Tasks maxPending g n) :
    Tasks maxPending g' n' := by
  have other {i j : ℕ} (waits : g.waited i = true) (none : g.waited j = false) : i ≠ j := by
    rintro rfl
    rw [waits] at none
    cases none
  cases taken with
  | exits closed =>
    refine tasksMoves recount old rfl rfl (Nat.zero_le _) (fun j => ?_) (fun _ => rfl) (fun _ _ => rfl)
      (fun _ _ => rfl) (fun _ => Nat.le_refl _) (fun _ => Nat.le_refl _)
    simp only [drainable, List.count_nil]
    omega
  | @takes id rest isOpen first =>
    refine tasksMoves recount old rfl rfl (by simp [first]) (fun j => ?_) (fun j => rfl) (fun j _ => ?_)
      (fun j _ => rfl) (fun j => ?_) (fun _ => Nat.le_refl _)
    · simp only [drainable, first, List.count_cons, beq_iff_eq, incrementIf]
      omega
    · simp only [unwritten, incrementIf]
      omega
    · simp only [unwritten, incrementIf]
      omega
  | @writes id outcome waited =>
    refine tasksMoves recount old rfl rfl (Nat.le_refl _) (fun j => rfl) (fun j => ?_) (fun j _ => ?_)
      (fun j none => ?_) (fun j => ?_) (fun _ => Nat.le_refl _)
    · simp only [signalling, writeCode, incrementIf]
      omega
    · simp only [unwritten, writeCode, incrementIf]
      omega
    · exact incrementOther _ (Ne.symm (other waited none))
    · simp only [unwritten, writeCode]
      omega
  | @skips id outcome unwaited =>
    refine tasksMoves recount old rfl rfl (Nat.le_refl _) (fun j => rfl) (fun j => rfl) (fun j waits => ?_)
      (fun j none => rfl) (fun j => ?_) (fun _ => Nat.le_refl _)
    · simp [unwritten, Ne.symm (other waits unwaited)]
    · simp only [unwritten]
      omega
  | signals =>
    refine tasksMoves recount old rfl rfl (Nat.le_refl _) (fun j => rfl) (fun j => ?_) (fun j _ => rfl)
      (fun j _ => rfl) (fun j => Nat.le_refl _) (fun j => ?_)
    · simp only [signalling, signalTask, incrementIf]
      omega
    · simp only [signalTask, incrementIf]
      omega
  | @discards id rest waited =>
    refine tasksMoves recount old rfl rfl (Nat.le_refl _) (fun j => ?_) (fun j => ?_) (fun j _ => ?_)
      (fun j none => ?_) (fun j => Nat.le_refl _) (fun _ => Nat.le_refl _)
    · simp only [drainable, writeCode, discard, List.count_cons, beq_iff_eq, incrementIf]
      omega
    · simp only [signalling, writeCode, discard, incrementIf]
      omega
    · simp only [unwritten, writeCode, discard, incrementIf]
      omega
    · exact incrementOther _ (Ne.symm (other waited none))
  | @drops id rest unwaited =>
    refine tasksMoves recount old rfl rfl (Nat.le_refl _) (fun j => ?_) (fun j => rfl) (fun j waits => ?_)
      (fun j none => rfl) (fun j => Nat.le_refl _) (fun _ => Nat.le_refl _)
    · simp only [drainable, discard, List.count_cons, beq_iff_eq, incrementIf]
      omega
    · simp [discard, unwritten, incrementIf, Ne.symm (other waits unwaited)]
  | signalsExit =>
    refine tasksMoves recount old rfl rfl (Nat.le_refl _) (fun j => rfl) (fun j => ?_) (fun j _ => rfl)
      (fun j _ => rfl) (fun j => Nat.le_refl _) (fun j => ?_)
    · simp only [signalling, signalTask, incrementIf]
      omega
    · simp only [signalTask, incrementIf]
      omega
  | _ =>
    exact tasksKept recount old rfl rfl rfl rfl rfl rfl rfl (fun _ => Nat.le_refl _) (fun _ => rfl) (fun _ => rfl)
      (fun _ => rfl)

theorem workersKept (recount : Recount p p' n n') (old : Workers g n) (numWorkers : g'.numWorkers = g.numWorkers)
    (live : g'.live = g.live) (next : g'.next = g.next) (closed : g'.isClosed = g.isClosed)
    (tasks : g'.tasks = g.tasks) (sleepers : g'.sleepers = g.sleepers) (woken : g'.woken = g.woken)
    (actives : active p' = active p) (sleeps : asleep p' = asleep p) (leaves : leaving p' = leaving p)
    (goes : gone p' = gone p) (notifies : notifying p' = notifying p) (alerts : alerting p' = alerting p) :
    Workers g' n' := by
  have c1 := recount.change active
  have c2 := recount.change ThreadPool.asleep
  have c3 := recount.change leaving
  have c4 := recount.change gone
  have c5 := recount.change notifying
  have c6 := recount.change alerting
  have each := old.each
  have alive := old.live
  have sum := old.asleep
  refine ⟨by omega, by omega, by omega, fun some => ?_, fun none => ?_,
    fun some => ?_, fun shut => ?_⟩
  · rw [closed, tasks]
    exact old.emptied (by omega)
  · rw [next, tasks]
    exact old.none (numWorkers ▸ none)
  · rw [tasks] at some
    have awake := old.awake some
    omega
  · rw [closed] at shut
    rw [sleepers]
    exact (old.alerted shut).imp_right (by omega)

theorem callWorkers (taken : CallMove maxPending g p g' p') (recount : Recount p p' n n') (old : Workers g n) :
    Workers g' n' := by
  have each := old.each
  have alive := old.live
  have sum := old.asleep
  have c1 := recount.change active
  have c2 := recount.change asleep
  have c3 := recount.change leaving
  have c4 := recount.change gone
  have c5 := recount.change notifying
  have c6 := recount.change alerting
  cases taken with
  | accepts waits some isOpen room =>
    simp only [active, asleep, leaving, gone, notifying, alerting] at c1 c2 c3 c4 c5 c6
    refine ⟨by simp only; omega, by simp only; omega, by simp only; omega, fun left => ?_,
      fun none => absurd none some, fun _ => by simp only; omega, fun shut => ?_⟩
    · have emptied := (old.emptied (by omega)).1
      rw [isOpen] at emptied; cases emptied
    · simp only [isOpen] at shut; cases shut
  | @notifies id =>
    have after (f : Pc → ℕ) (idle : f .idle = 0) (await : f (.await id) = 0) :
        f (if g.waited id then Pc.await id else .idle) = 0 := by
      split
      · exact await
      · exact idle
    rw [after active rfl rfl] at c1
    rw [after asleep rfl rfl] at c2
    rw [after leaving rfl rfl] at c3
    rw [after gone rfl rfl] at c4
    rw [after notifying rfl rfl] at c5
    rw [after alerting rfl rfl] at c6
    simp only [active, asleep, leaving, gone, notifying, alerting] at c1 c2 c3 c4 c5 c6
    unfold notifyOne
    split
    · rename_i none
      refine ⟨by omega, by omega, by omega, fun left => old.emptied (by omega), old.none, fun some => ?_,
        fun shut => (old.alerted shut).imp_right (by omega)⟩
      -- nobody sleeps unnotified, so without a woken worker all of them are at work
      have here : n leaving + n gone = 0 := by
        by_contra left
        exact some (old.emptied left).2
      have present : g.numWorkers ≠ 0 := fun zero => some (old.none zero).2
      omega
    · rename_i some
      refine ⟨by simp only; omega, by simp only; omega, by simp only; omega, fun left => old.emptied (by omega),
        old.none, fun _ => by simp only; omega, fun shut => ?_⟩
      rcases old.alerted shut with zero | alert
      · exact absurd zero some
      · exact .inr (by omega)
  | _ => exact workersKept recount old rfl rfl rfl rfl rfl rfl rfl rfl rfl rfl rfl rfl rfl

theorem closeWorkers (taken : CloseMove g p g' p') (recount : Recount p p' n n') (old : Workers g n) :
    Workers g' n' := by
  have each := old.each
  have alive := old.live
  have sum := old.asleep
  have c1 := recount.change active
  have c2 := recount.change asleep
  have c3 := recount.change leaving
  have c4 := recount.change gone
  have c5 := recount.change notifying
  have c6 := recount.change alerting
  cases taken with
  | shuts isOpen =>
    simp only [active, asleep, leaving, gone, notifying, alerting] at c1 c2 c3 c4 c5 c6
    refine ⟨by simp only; omega, by simp only; omega, by simp only; omega, fun left => ⟨rfl, (old.emptied (by omega)).2⟩,
      old.none, fun some => ?_, fun _ => .inr (by omega)⟩
    have awake := old.awake some
    simp only
    omega
  | notifies =>
    simp only [active, asleep, leaving, gone, notifying, alerting] at c1 c2 c3 c4 c5 c6
    refine ⟨by simp only; omega, by simp only; omega, by simp only; omega, fun left => old.emptied (by omega),
      old.none, fun some => ?_, fun _ => .inl rfl⟩
    have awake := old.awake some
    simp only
    omega
  | _ => exact workersKept recount old rfl rfl rfl rfl rfl rfl rfl rfl rfl rfl rfl rfl rfl

theorem loopWorkers (taken : LoopMove g p g' p') (recount : Recount p p' n n') (old : Workers g n) :
    Workers g' n' := by
  have each := old.each
  have alive := old.live
  have sum := old.asleep
  have c1 := recount.change active
  have c2 := recount.change asleep
  have c3 := recount.change leaving
  have c4 := recount.change gone
  have c5 := recount.change notifying
  have c6 := recount.change alerting
  have mine := recount.own leaving
  have others := recount.own asleep
  have working := recount.own active
  cases taken with
  | exits closed =>
    simp only [active, asleep, leaving, gone, notifying, alerting] at c1 c2 c3 c4 c5 c6
    exact ⟨by simp only; omega, by simp only; omega, by simp only; omega, fun _ => ⟨closed, rfl⟩,
      fun none => ⟨(old.none none).1, rfl⟩, fun some => absurd rfl some, fun shut => (old.alerted shut).imp_right (by omega)⟩
  | @takes id rest isOpen first =>
    have some : g.tasks ≠ [] := by simp [first]
    simp only [active, asleep, leaving, gone, notifying, alerting] at c1 c2 c3 c4 c5 c6 working
    refine ⟨by simp only; omega, by simp only; omega, by simp only; omega, fun left => ?_, fun none => ?_,
      fun _ => by simp only; omega, fun shut => (old.alerted shut).imp_right (by omega)⟩
    · exact absurd (old.emptied (by omega)).2 some
    · exact absurd (old.none none).2 some
  | sleeps isOpen none =>
    simp only [active, asleep, leaving, gone, notifying, alerting] at c1 c2 c3 c4 c5 c6
    refine ⟨by simp only; omega, by simp only; omega, by simp only; omega, fun left => old.emptied (by omega),
      old.none, fun some => absurd none some, fun shut => ?_⟩
    simp only [isOpen] at shut; cases shut
  | woken notified =>
    simp only [active, asleep, leaving, gone, notifying, alerting] at c1 c2 c3 c4 c5 c6 others
    refine ⟨by simp only; omega, by simp only; omega, by simp only; omega, fun left => old.emptied (by omega),
      old.none, fun _ => by simp only; omega, fun shut => (old.alerted shut).imp_right (by omega)⟩
  | spurious asleep =>
    simp only [active, ThreadPool.asleep, leaving, gone, notifying, alerting] at c1 c2 c3 c4 c5 c6 others
    refine ⟨by simp only; omega, by simp only; omega, by simp only; omega, fun left => old.emptied (by omega),
      old.none, fun _ => by simp only; omega, fun shut => ?_⟩
    rcases old.alerted shut with zero | alert
    · omega
    · exact .inr (by omega)
  | leaves =>
    simp only [active, asleep, leaving, gone, notifying, alerting] at c1 c2 c3 c4 c5 c6 mine
    have emptied := old.emptied (by omega)
    exact ⟨by simp only; omega, by simp only; omega, by simp only; omega, fun _ => emptied, old.none,
      fun some => absurd emptied.2 some, fun shut => (old.alerted shut).imp_right (by omega)⟩
  | _ => exact workersKept recount old rfl rfl rfl rfl rfl rfl rfl rfl rfl rfl rfl rfl rfl

theorem closingKept (recount : Recount p p' n n') (old : Closing g n) (mtx : g'.closeMtx = g.closeMtx)
    (closed : g'.isClosed = g.isClosed) (live : g'.live ≤ g.live) (returned : g'.returned = g.returned)
    (checks : checking p' = checking p) (joins : joining p' = joining p) : Closing g' n' := by
  have c1 := recount.change checking
  have c2 := recount.change joining
  have locked := old.locked
  refine ⟨by rw [mtx]; omega, fun some => closed.trans (old.shut (by omega)), fun shut => ?_, fun back => ?_⟩
  · rcases old.joined (closed ▸ shut) with zero | some
    · exact .inl (by omega)
    · exact .inr (by omega)
  · obtain ⟨shut, zero⟩ := old.returned (returned ▸ back)
    exact ⟨closed.trans shut, by omega⟩

theorem closeClosing (taken : CloseMove g p g' p') (recount : Recount p p' n n') (old : Closing g n) :
    Closing g' n' := by
  have c1 := recount.change checking
  have c2 := recount.change joining
  have o1 := recount.own checking
  have o2 := recount.own joining
  have locked := old.locked
  have one : n checking + n joining ≤ 1 := by rw [locked]; split <;> omega
  cases taken with
  | enters free =>
    simp only [checking, joining] at c1 c2
    simp only [free, Bool.false_eq_true, if_false] at locked
    exact ⟨by simp only [if_true]; omega, fun some => old.shut (by omega),
      fun shut => (old.joined shut).imp_right (by omega), old.returned⟩
  | again closed =>
    simp only [checking, joining] at c1 c2 o1
    have zero : g.live = 0 := (old.joined closed).resolve_right (by omega)
    exact ⟨by simp only [Bool.false_eq_true, if_false]; omega, fun _ => closed, fun _ => .inl zero,
      fun _ => ⟨closed, zero⟩⟩
  | shuts isOpen =>
    simp only [checking, joining] at c1 c2
    refine ⟨by simp only; omega, fun _ => rfl, fun _ => .inr (by omega), fun back => ?_⟩
    have shut := (old.returned back).1
    rw [isOpen] at shut; cases shut
  | notifies => exact closingKept recount old rfl rfl (Nat.le_refl _) rfl rfl rfl
  | joins left =>
    simp only [checking, joining] at c1 c2 o2
    have closed := old.shut (by omega)
    exact ⟨by simp only [Bool.false_eq_true, if_false]; omega, fun _ => closed, fun _ => .inl left,
      fun _ => ⟨closed, left⟩⟩

theorem callClosing (taken : CallMove maxPending g p g' p') (recount : Recount p p' n n') (old : Closing g n) :
    Closing g' n' := by
  cases taken with
  | @notifies id =>
    unfold notifyOne
    split <;> rcases afterNotify g id with same | same <;> rw [same] at recount <;>
      exact closingKept recount old rfl rfl (Nat.le_refl _) rfl rfl rfl
  | _ => exact closingKept recount old rfl rfl (Nat.le_refl _) rfl rfl rfl

theorem loopClosing (taken : LoopMove g p g' p') (recount : Recount p p' n n') (old : Closing g n) :
    Closing g' n' := by
  cases taken with
  | leaves => exact closingKept recount old rfl rfl (Nat.sub_le _ _) rfl rfl rfl
  | _ => exact closingKept recount old rfl rfl (Nat.le_refl _) rfl rfl rfl

theorem onePlace (old : Tasks maxPending g n) (id : ℕ) :
    n (drainable id) + n (unwritten id) + n (signalling id) + g.signals id ≤ 1 := by
  have place := old.place id
  have signals := old.signals id
  have running := old.running id
  have most : g.tasks.count id + n (drainable id) + g.started id + g.discarded id ≤ 1 := by
    rw [place]
    split <;> omega
  cases waits : g.waited id with
  | true =>
    have written := old.written id waits
    omega
  | false =>
    have none := old.unwaited id waits
    omega

def Coded (g : Shared) (id : ℕ) : Prop := ∃ o, g.outcome id = some o ∧ g.retCode id = o.code

def Told (g : Shared) : Pc → Prop
  | .ended id outcome => g.outcome id = some outcome
  | .signal id | .drainSignal id _ => Coded g id
  | .executed id code => (∃ o, g.outcome id = some o ∧ code = o.code) ∧ g.signals id ≠ 0
  | _ => True

structure Outcomes (g : Shared) : Prop where
  signalled : ∀ id, g.signals id ≠ 0 → Coded g id
  settled : ∀ id o, g.outcome id = some o → if o = .discarded then g.discarded id ≠ 0 else g.started id ≠ 0

theorem moveElsewhere (taken : Move maxPending g p g' p') (away : drainable id p = 0 ∧ unwritten id p = 0) :
    g'.outcome id = g.outcome id ∧ g'.retCode id = g.retCode id := by
  obtain ⟨drained, unwritten⟩ := away
  rcases taken with taken | taken | taken
  · cases taken with
    | notifies => unfold notifyOne; split <;> exact ⟨rfl, rfl⟩
    | _ => exact ⟨rfl, rfl⟩
  · cases taken <;> exact ⟨rfl, rfl⟩
  · cases taken <;> simp_all [ThreadPool.unwritten, drainable, writeCode, discard, signalTask, List.count_cons,
      Function.update_of_ne, Ne.symm]

theorem moveSignals (id : ℕ) (taken : Move maxPending g p g' p') :
    g.signals id ≤ g'.signals id ∧ (g'.signals id ≠ 0 → g.signals id ≠ 0 ∨ signalling id p ≠ 0) := by
  rcases taken with taken | taken | taken
  · cases taken with
    | notifies => unfold notifyOne; split <;> exact ⟨Nat.le_refl _, .inl⟩
    | _ => exact ⟨Nat.le_refl _, .inl⟩
  · cases taken <;> exact ⟨Nat.le_refl _, .inl⟩
  · cases taken with
    | signals =>
      simp only [signalTask, incrementIf, signalling]
      exact ⟨by omega, fun some => by split <;> simp_all⟩
    | signalsExit =>
      simp only [signalTask, incrementIf, signalling]
      exact ⟨by omega, fun some => by split <;> simp_all⟩
    | _ => exact ⟨Nat.le_refl _, .inl⟩

theorem codedKept (coded : Coded g id) (same : g'.outcome id = g.outcome id ∧ g'.retCode id = g.retCode id) :
    Coded g' id := by
  obtain ⟨o, outcome, code⟩ := coded
  exact ⟨o, same.1.trans outcome, same.2.trans code⟩

theorem moveTold (taken : Move maxPending g p g' p') (old : Tasks maxPending g n) (outcomes : Outcomes g)
    (told : Told g p) : Told g' p' := by
  rcases taken with taken | taken | taken
  · cases taken with
    | @notifies id => rcases afterNotify g id with same | same <;> rw [same] <;> trivial
    | @wakes id k signalled =>
      have sema := old.sema id
      exact ⟨outcomes.signalled id (by omega), by simp only; omega⟩
    | _ => trivial
  · cases taken <;> trivial
  · cases taken with
    | finishes => exact Function.update_self ..
    | throws => exact Function.update_self ..
    | writes => exact ⟨_, told, Function.update_self ..⟩
    | discards => exact ⟨.discarded, Function.update_self .., Function.update_self ..⟩
    | _ => trivial

theorem toldKept (taken : Move maxPending g p g' p') {q : Pc} (told : Told g q)
    (away : ∀ id, unwritten id q + signalling id q + g.signals id ≠ 0 → drainable id p = 0 ∧ unwritten id p = 0) :
    Told g' q := by
  cases q with
  | ended id outcome =>
    have same := moveElsewhere taken (away id (by simp [unwritten]))
    exact same.1.trans told
  | signal id => exact codedKept told (moveElsewhere taken (away id (by simp [signalling])))
  | drainSignal id ids => exact codedKept told (moveElsewhere taken (away id (by simp [signalling])))
  | executed id code =>
    obtain ⟨⟨o, outcome, same⟩, signalled⟩ := told
    have kept := moveElsewhere taken (away id (by omega))
    have more := (moveSignals id taken).1
    exact ⟨⟨o, kept.1.trans outcome, same⟩, by omega⟩
  | _ => trivial

theorem settledSets (old : Outcomes g) {i : ℕ} {o : Outcome} {started discarded : ℕ → ℕ}
    (mine : if o = .discarded then discarded i ≠ 0 else started i ≠ 0)
    (others : ∀ id ≠ i, started id = g.started id ∧ discarded id = g.discarded id) (id : ℕ) (o' : Outcome)
    (ends : Function.update g.outcome i (some o) id = some o') :
    if o' = .discarded then discarded id ≠ 0 else started id ≠ 0 := by
  by_cases same : id = i
  · subst same
    simp only [Function.update_self, Option.some.injEq] at ends
    exact ends ▸ mine
  · rw [Function.update_of_ne same] at ends
    rw [(others id same).1, (others id same).2]
    exact old.settled id o' ends

theorem moveOutcomes (taken : Move maxPending g p g' p') (recount : Recount p p' n n') (tasks : Tasks maxPending g n)
    (old : Outcomes g) (told : Told g p) : Outcomes g' := by
  have away {id : ℕ} (busy : g.signals id ≠ 0 ∨ signalling id p ≠ 0) : drainable id p = 0 ∧ unwritten id p = 0 := by
    have one := onePlace tasks id
    have o1 := recount.own (drainable id)
    have o2 := recount.own (unwritten id)
    have o3 := recount.own (signalling id)
    omega
  refine ⟨fun id some => ?_, ?_⟩
  · have before := (moveSignals id taken).2 some
    have same := moveElsewhere taken (away before)
    rcases before with earlier | mine
    · exact codedKept (old.signalled id earlier) same
    · refine codedKept ?_ same
      cases p <;> simp only [signalling, ne_eq, not_true, ite_eq_right_iff, one_ne_zero, imp_false, not_not] at mine
      · subst mine; exact told
      · subst mine; exact told
  · have running := fun id => tasks.running id
    rcases taken with taken | taken | taken
    · cases taken with
      | notifies => unfold notifyOne; split <;> exact old.settled
      | _ => exact old.settled
    · cases taken <;> exact old.settled
    · cases taken with
      | @takes i rest isOpen first =>
        intro id o ends
        have settled := old.settled id o ends
        have more := incrementIf g.started i id
        simp only at ends ⊢
        split at settled
        · rename_i same
          rw [if_pos same]
          exact settled
        · rename_i other
          rw [if_neg other]
          omega
      | @finishes i =>
        have mine := recount.own (unwritten i)
        have here := running i
        simp only [unwritten, if_true] at mine
        exact settledSets old (by simp only [reduceCtorEq, if_false]; omega) (fun _ _ => ⟨rfl, rfl⟩)
      | @throws i =>
        have mine := recount.own (unwritten i)
        have here := running i
        simp only [unwritten, if_true] at mine
        exact settledSets old (by simp only [reduceCtorEq, if_false]; omega) (fun _ _ => ⟨rfl, rfl⟩)
      | @discards i =>
        exact settledSets old (by simp [writeCode, discard, incrementSelf])
          (fun id other => ⟨rfl, incrementOther _ other⟩)
      | @drops i =>
        exact settledSets old (by simp [discard, incrementSelf]) (fun id other => ⟨rfl, incrementOther _ other⟩)
      | _ => exact old.settled

end Steps

section Runs
variable {T : Type*} [Fintype T] {maxPending : ℕ} {worker : T → Bool}

structure Kept (maxPending : ℕ) (c : State T) : Prop where
  tasks : Tasks maxPending c.shared c.total
  workers : Workers c.shared c.total
  closing : Closing c.shared c.total
  outcomes : Outcomes c.shared
  told : ∀ t, Told c.shared (c.locals t)

theorem existsWeight {c : State T} {f : Pc → ℕ} (some : c.total f ≠ 0) : ∃ t, f (c.locals t) ≠ 0 := by
  obtain ⟨t, pos⟩ := existsOfTotal (Nat.pos_of_ne_zero some)
  exact ⟨t, Nat.ne_of_gt pos⟩

theorem startKept : Kept maxPending (start worker) := by
  have none (f : Pc → ℕ) (idle : f .idle = 0) (ready : f .ready = 0) : (start worker).total f = 0 := by
    apply Finset.sum_eq_zero
    intro t _
    simp only [start]
    split
    · exact ready
    · exact idle
  have all : (start worker).total active = ∑ t, if worker t then 1 else 0 := by
    apply Finset.sum_congr rfl
    intro t _
    simp only [start]
    split <;> rfl
  refine ⟨⟨Nat.zero_le _, fun id => ?_, fun id => ?_, fun id => nofun, fun id _ => rfl, fun id => ?_,
    fun id => Nat.le_refl _⟩, ⟨?_, ?_, ?_, fun some => ?_, fun _ => ⟨rfl, rfl⟩, fun some => absurd rfl some, nofun⟩,
    ⟨?_, fun some => ?_, nofun, nofun⟩, ⟨fun id some => absurd rfl some, nofun⟩, fun t => ?_⟩
  · rw [none (drainable id) rfl rfl]; rfl
  · rw [none (signalling id) rfl rfl]; rfl
  · rw [none (unwritten id) rfl rfl]; exact Nat.zero_le _
  · rw [all, none asleep rfl rfl, none leaving rfl rfl, none gone rfl rfl]; rfl
  · rw [none gone rfl rfl]; rfl
  · rw [none asleep rfl rfl]; rfl
  · rw [none leaving rfl rfl, none gone rfl rfl] at some
    exact absurd rfl some
  · rw [none checking rfl rfl, none joining rfl rfl]; rfl
  · rw [none joining rfl rfl] at some
    exact absurd rfl some
  · simp only [start]
    split <;> trivial

def Quiet (c : State T) : Prop :=
  c.shared.tasks = [] ∧ (∀ t id, c.locals t ≠ .job id) ∧
  ∀ id < c.shared.next, c.shared.started id + c.shared.discarded id = 1 ∧
    (c.shared.waited id = true → c.shared.signals id = 1)

variable [DecidableEq T]

structure SettlesOnce (maxPending : ℕ) (c : State T) : Prop where
  bounded : c.shared.tasks.length ≤ maxPending
  once : ∀ id, c.shared.started id + c.shared.discarded id ≤ if id < c.shared.next then 1 else 0
  unlost : ∀ id < c.shared.next, c.shared.started id + c.shared.discarded id = 1 ∨ id ∈ c.shared.tasks ∨
    ∃ t, drainable id (c.locals t) ≠ 0
  signalled : ∀ id, c.shared.signals id ≤ c.shared.written id ∧ c.shared.written id ≤ 1 ∧
    (c.shared.waited id = false → c.shared.signals id = 0)
  reported : ∀ id, c.shared.waited id = true → c.shared.started id + c.shared.discarded id = 1 →
    c.shared.signals id = 1 ∨ ∃ t, unwritten id (c.locals t) + signalling id (c.locals t) ≠ 0
  result : ∀ t id code, c.locals t = .executed id code → ∃ o, c.shared.outcome id = some o ∧ code = o.code
  outcome : ∀ id o, c.shared.outcome id = some o →
    if o = .discarded then c.shared.discarded id = 1 ∧ c.shared.started id = 0
    else c.shared.started id = 1 ∧ c.shared.discarded id = 0
  awake : c.shared.tasks ≠ [] → c.total active + c.shared.woken + c.total notifying ≠ 0
  alerted : c.shared.isClosed = true → c.shared.sleepers = 0 ∨ ∃ t, c.locals t = .notifyAll
  closed : c.shared.returned = true → Quiet c
  after : c.shared.returned = true → ∀ d, Reachable (Step (system maxPending)) c d →
    d.shared.returned = true ∧ d.shared.started = c.shared.started

theorem stepKept {c d : State T} (old : Kept maxPending c) (taken : Step (system maxPending) c d) :
    Kept maxPending d := by
  cases taken with
  | solo taken => exact taken.elim
  | @move t g p taken =>
    have recount : Recount (c.locals t) p c.total (c.set t g p).total := recountOf c (fun p => p) t g p
    refine ⟨?_, ?_, ?_, moveOutcomes taken recount old.tasks old.outcomes (old.told t), fun u => ?_⟩
    · rcases taken with taken | taken | taken
      · exact callTasks taken recount old.tasks
      · exact closeTasks taken recount old.tasks
      · exact loopTasks taken recount old.tasks
    · rcases taken with taken | taken | taken
      · exact callWorkers taken recount old.workers
      · exact closeWorkers taken recount old.workers
      · exact loopWorkers taken recount old.workers
    · rcases taken with taken | taken | taken
      · exact callClosing taken recount old.closing
      · exact closeClosing taken recount old.closing
      · exact loopClosing taken recount old.closing
    · by_cases same : u = t
      · subst same
        rw [setSelf]
        exact moveTold taken old.tasks old.outcomes (old.told u)
      · rw [setOther c g p same]
        refine toldKept taken (old.told u) (fun id busy => ?_)
        have one := onePlace old.tasks id
        rw [← totalAdd, ← totalAdd] at one
        have mine := leTotal c (fun l => drainable id l + unwritten id l + signalling id l) t
        by_cases handles : drainable id (c.locals t) + unwritten id (c.locals t) + signalling id (c.locals t) = 0
        · omega
        · have theirs := leTotal c (fun l => drainable id l + unwritten id l + signalling id l) u
          exact absurd (totalUnique (c := c) (f := fun l => drainable id l + unwritten id l + signalling id l)
            (by omega) (by omega) (by omega)) same

theorem runKept {c : State T} (reached : Reachable (Step (system maxPending)) (start worker) c) :
    Kept maxPending c :=
  reachableInvariant (Kept maxPending) startKept (fun _ _ old taken => stepKept old taken) reached

omit [DecidableEq T] in
theorem leftAlone {c : State T} (kept : Kept maxPending c) (back : c.shared.returned = true) :
    c.shared.tasks = [] ∧ c.total active = 0 ∧ c.total leaving = 0 := by
  have live := (kept.closing.returned back).2
  have each := kept.workers.each
  have sum := kept.workers.live
  refine ⟨?_, by omega, by omega⟩
  by_cases none : c.shared.numWorkers = 0
  · exact (kept.workers.none none).2
  · exact (kept.workers.emptied (by omega)).2

omit [DecidableEq T] in
theorem quietOf {c : State T} (kept : Kept maxPending c) (back : c.shared.returned = true) : Quiet c := by
  obtain ⟨empty, idle, left⟩ := leftAlone kept back
  refine ⟨empty, fun t id at' => ?_, fun id accepted => ?_⟩
  · have mine := leTotal c active t
    rw [at', idle] at mine
    cases mine
  · have place := kept.tasks.place id
    have drained : c.total (drainable id) = 0 :=
      totalZeroOf (fun l away => by cases l <;> simp_all [leaving, drainable]) left
    rw [empty, drained, if_pos accepted] at place
    simp only [List.count_nil] at place
    refine ⟨by omega, fun waits => ?_⟩
    have unwritten : c.total (unwritten id) = 0 :=
      totalZeroOf (fun l away => by cases l <;> simp_all [active, unwritten]) idle
    have signalling : c.total (signalling id) = 0 :=
      totalZeroOf (g := fun l => active l + leaving l)
        (fun l away => by cases l <;> simp_all [active, leaving, signalling]) (by rw [totalAdd]; omega)
    have written := kept.tasks.written id waits
    have signals := kept.tasks.signals id
    omega

theorem moveReturned {g g' : Shared} {p p' : Pc} (taken : Move maxPending g p g' p') :
    (g.returned = true → g'.returned = true) ∧ (g'.started = g.started ∨ p = .ready) := by
  rcases taken with taken | taken | taken
  · cases taken with
    | notifies => unfold notifyOne; split <;> exact ⟨id, .inl rfl⟩
    | _ => exact ⟨id, .inl rfl⟩
  · cases taken with
    | again | joins => exact ⟨fun _ => rfl, .inl rfl⟩
    | _ => exact ⟨id, .inl rfl⟩
  · cases taken with
    | takes => exact ⟨id, .inr rfl⟩
    | _ => exact ⟨id, .inl rfl⟩

theorem staysQuiet {c d : State T} (kept : Kept maxPending c) (back : c.shared.returned = true)
    (reached : Reachable (Step (system maxPending)) c d) :
    d.shared.returned = true ∧ d.shared.started = c.shared.started := by
  have all := reachableInvariant
    (fun d : State T => Kept maxPending d ∧ d.shared.returned = true ∧ d.shared.started = c.shared.started)
    ⟨kept, back, rfl⟩ (fun d e old taken => ?_) reached
  · exact all.2
  · obtain ⟨kept, back, same⟩ := old
    have next := stepKept kept taken
    cases taken with
    | solo taken => exact taken.elim
    | @move t g p taken =>
      obtain ⟨stays, starts⟩ := moveReturned taken
      refine ⟨next, stays back, ?_⟩
      rcases starts with unchanged | ready
      · exact unchanged.trans same
      · have mine := leTotal d active t
        rw [ready, (leftAlone kept back).2.1] at mine
        exact absurd mine (by decide)

theorem settlesOnce {c : State T} (reached : Reachable (Step (system maxPending)) (start worker) c) :
    SettlesOnce maxPending c := by
  have kept := runKept reached
  have tasks := kept.tasks
  have most (id : ℕ) : c.shared.started id + c.shared.discarded id ≤ if id < c.shared.next then 1 else 0 := by
    have place := tasks.place id
    omega
  refine ⟨tasks.bounded, most, fun id accepted => ?_, fun id => ?_, fun id waits done => ?_, fun t id code at' => ?_,
    fun id o ends => ?_, kept.workers.awake, fun shut => ?_, quietOf kept, fun back d => staysQuiet kept back⟩
  · have place := tasks.place id
    rw [if_pos accepted] at place
    by_cases queued : id ∈ c.shared.tasks
    · exact .inr (.inl queued)
    · rw [List.count_eq_zero.mpr queued] at place
      by_cases drained : c.total (drainable id) = 0
      · exact .inl (by omega)
      · exact .inr (.inr (existsWeight drained))
  · have signals := tasks.signals id
    have some := most id
    refine ⟨by omega, ?_, fun unwaited => ?_⟩
    · cases waits : c.shared.waited id with
      | true =>
        have written := tasks.written id waits
        split at some <;> omega
      | false =>
        rw [tasks.unwaited id waits]
        exact Nat.zero_le _
    · have none := tasks.unwaited id unwaited
      omega
  · have written := tasks.written id waits
    have signals := tasks.signals id
    by_cases busy : c.total (fun l => unwritten id l + signalling id l) = 0
    · rw [totalAdd] at busy
      exact .inl (by omega)
    · exact .inr (existsWeight busy)
  · have knows := kept.told t
    rw [at'] at knows
    exact knows.1
  · have settled := kept.outcomes.settled id o ends
    have some := most id
    split at settled
    · rename_i same
      rw [if_pos same]
      split at some <;> omega
    · rename_i other
      rw [if_neg other]
      split at some <;> omega
  · rcases kept.workers.alerted shut with none | alert
    · exact .inl none
    · obtain ⟨t, at'⟩ := existsWeight alert
      refine .inr ⟨t, ?_⟩
      cases here : c.locals t <;> simp_all [alerting]

end Runs

section Uses

theorem throwsThenCloses : ∃ c : State (Fin 2), SettlesOnce 8 c ∧ c.shared.returned = true ∧
    c.shared.signals 0 = 1 ∧ c.shared.retCode 0 = .exception := by
  have r1 := Relation.ReflTransGen.refl.tail (r := Step (system 8)) (a := start (T := Fin 2) (· == 0))
    (.move 1 (.call (.accepts true (by decide) rfl (by decide))))
  have r2 := r1.tail (.move 1 (.call .notifies))
  have r3 := r2.tail (.move 0 (.loop (.takes rfl rfl)))
  have r4 := r3.tail (.move 0 (.loop .throws))
  have r5 := r4.tail (.move 0 (.loop (.writes rfl)))
  have r6 := r5.tail (.move 0 (.loop .signals))
  have r7 := r6.tail (.move 1 (.call (.wakes rfl)))
  have r8 := r7.tail (.move 1 (.call .returns))
  have r9 := r8.tail (.move 1 (.close (.enters rfl)))
  have r10 := r9.tail (.move 1 (.close (.shuts rfl)))
  have r11 := r10.tail (.move 1 (.close .notifies))
  have r12 := r11.tail (.move 0 (.loop (.exits rfl)))
  have r13 := r12.tail (.move 0 (.loop .leaves))
  have r14 := r13.tail (.move 1 (.close (.joins rfl)))
  exact ⟨_, settlesOnce r14, rfl, rfl, rfl⟩

end Uses

end Uco.ThreadPool
