import Mathlib.Data.List.Basic
import Uco.Interleaving

/-! Coroutines of one thread that await each other: task_awaiter, final_suspend,
__go_dispatch and the scheduler's resume(). Coroutines are numbered in the order in which
they first run, so a new one is `next`. The stack holds the calls of handle.resume() that
have not returned; what a coroutine does between two suspensions is left open. -/
namespace Uco.AwaitChain
open Interleaving

inductive Caller where
  | null
  | inline
  | addr (p : ℕ)
  deriving DecidableEq, Repr

inductive Status where
  | unborn
  | parked
  | running
  | awaiting (d : ℕ)
  | finished
  | destroyed (x : ℕ)
  deriving DecidableEq, Repr

structure Promise (E : Type*) where
  caller : Caller
  error : Option E
  status : Status
  deriving DecidableEq, Repr

inductive Control where
  | idle
  | run (c : ℕ)
  | back
  | terminated
  | goAfterExit
  | neverYield
  | broken
  deriving DecidableEq, Repr

/- Who called handle.resume(): resume() with the caller it has read before, await_ready of
p, or __go_dispatch, which returns to the control it was called from. -/
inductive Ctx where
  | resume (cur : ℕ) (caller : Caller)
  | ready (p d : ℕ)
  | go (ret : Control) (c : ℕ)
  deriving DecidableEq, Repr

def Ctx.callee : Ctx → ℕ
  | .resume c _ => c
  | .ready _ c => c
  | .go _ c => c

inductive SchedulerState where
  | notStarted
  | running
  | exited
  deriving DecidableEq, Repr

/- The last four are recorded: who awaits a coroutine, how it ended, what its co_awaits
gave it and whom resume() has resumed. -/
structure State (E : Type*) where
  scheduler : SchedulerState
  promise : ℕ → Promise E
  next : ℕ
  stack : List Ctx
  control : Control
  awaiter : ℕ → Option ℕ
  outcome : ℕ → Option (Option E)
  received : ℕ → List (ℕ × Option E)
  resumed : List ℕ

section Model
variable {E : Type*}

def start : State E where
  scheduler := .notStarted
  promise := fun _ => ⟨.null, none, .unborn⟩
  next := 0
  stack := []
  control := .idle
  awaiter := fun _ => none
  outcome := fun _ => none
  received := fun _ => []
  resumed := []

def Status.live : Status → Bool
  | .unborn => false
  | .destroyed _ => false
  | _ => true

def State.put (s : State E) (c : ℕ) (own : Promise E) : State E :=
  {s with promise := Function.update s.promise c own}

def wake (s : State E) (c : ℕ) : State E :=
  {s.put c {s.promise c with status := .running} with control := .run c}

def awaitResume (s : State E) (p d : ℕ) : State E :=
  if (s.promise d).status = .finished then
    {s.put d {s.promise d with status := .destroyed p} with
      control := .run p,
      received := Function.update s.received p (s.received p ++ [(d, (s.promise d).error)])}
  else {s with control := .broken}

/- coroutine_handle::resume() of a coroutine that has run before. -/
def handleResume (s : State E) (c : ℕ) : State E :=
  match (s.promise c).status with
  | .parked => wake s c
  | .awaiting d => awaitResume (wake s c) c d
  | _ => {s with control := .broken}

def resume (s : State E) (c : ℕ) : State E :=
  if (s.promise c).status.live then
    handleResume
      {s with stack := .resume c (s.promise c).caller :: s.stack, resumed := s.resumed ++ [c]} c
  else {s with control := .broken}

def begin (s : State E) (caller : Caller) (awaiter : Option ℕ) (ctx : Ctx) : State E :=
  {s.put s.next ⟨caller, none, .running⟩ with
    next := s.next + 1, stack := ctx :: s.stack, control := .run s.next,
    awaiter := Function.update s.awaiter s.next awaiter}

def awaitReady (s : State E) (p : ℕ) : State E := begin s .inline (some p) (.ready p s.next)

def goDispatch (s : State E) : State E :=
  match s.scheduler with
  | .running => begin s .null none (.go s.control s.next)
  | .notStarted => {s.put s.next ⟨.null, none, .parked⟩ with next := s.next + 1}
  | .exited => {s with control := .goAfterExit}

def park (s : State E) (c : ℕ) : State E :=
  {s.put c {s.promise c with status := .parked} with control := .back}

def finalSuspend (s : State E) (c : ℕ) (error : Option E) : State E :=
  let outcome := Function.update s.outcome c (some error)
  if (s.promise c).caller = .null then
    if error.isSome then {s with control := .terminated}
    else {s.put c ⟨.null, error, .destroyed c⟩ with control := .back, outcome := outcome}
  else {s.put c ⟨.null, error, .finished⟩ with control := .back, outcome := outcome}

def awaitSuspend (s : State E) (p d : ℕ) : State E :=
  let s := s.put d {s.promise d with caller := .addr p}
  {s.put p {s.promise p with status := .awaiting d} with control := .back}

def back (s : State E) : State E :=
  match s.stack with
  | [] => {s with control := .broken}
  | .ready p d :: rest =>
    match (s.promise d).status with
    | .finished => awaitResume {s with stack := rest} p d
    | .parked => awaitSuspend {s with stack := rest} p d
    | .awaiting _ => awaitSuspend {s with stack := rest} p d
    | _ => {s with control := .broken}
  | .go ret _ :: rest => {s with stack := rest, control := ret}
  | .resume cur caller :: rest =>
    if caller = .null then {s with stack := rest, control := .idle}
    else if (s.promise cur).status.live = false then {s with control := .broken}
    else if caller ≠ (s.promise cur).caller then
      match caller with
      | .addr p => resume {s with stack := rest} p
      | _ => {s with control := .neverYield}
    else {s with stack := rest, control := .idle}

/- Plain code runs before and after schedule(). The scheduler calls resume() on suspended
innermost coroutines only: those of its ready lists and of the completions. -/
inductive Step : State E → State E → Prop where
  | plainGo {s} (here : s.control = .idle) (plain : s.scheduler ≠ .running) : Step s (goDispatch s)
  | schedule {s} (here : s.control = .idle) : Step s {s with scheduler := .running}
  | leave {s} (here : s.control = .idle) (scheduling : s.scheduler = .running) : Step s {s with scheduler := .exited}
  | resume {s} (c : ℕ) (here : s.control = .idle) (scheduling : s.scheduler = .running)
      (parked : (s.promise c).status = .parked) : Step s (resume s c)
  | park {s c} (here : s.control = .run c) : Step s (park s c)
  | await {s p} (here : s.control = .run p) : Step s (awaitReady s p)
  | go {s c} (here : s.control = .run c) : Step s (goDispatch s)
  | finish {s c} (error : Option E) (here : s.control = .run c) : Step s (finalSuspend s c error)
  | back {s} (here : s.control = .back) : Step s (back s)

end Model

section Invariant
variable {E : Type*}

def Status.going : Status → Bool
  | .parked => true
  | .running => true
  | .awaiting _ => true
  | _ => false

theorem updateStatus (f : ℕ → Promise E) (c x : ℕ) (own : Promise E) :
    (Function.update f c own x).status = if x = c then own.status else (f x).status := by
  rw [Function.update_apply]
  split_ifs <;> rfl

theorem updateCaller (f : ℕ → Promise E) (c x : ℕ) (own : Promise E) :
    (Function.update f c own x).caller = if x = c then own.caller else (f x).caller := by
  rw [Function.update_apply]
  split_ifs <;> rfl

section Update
variable {f : ℕ → Promise E} {c : ℕ} {own : Promise E}

theorem bornUpdate {n : ℕ} (born : ∀ d, (f d).status = .unborn ↔ n ≤ d) (was : (f c).status ≠ .unborn)
    (is : own.status ≠ .unborn) : ∀ d, (Function.update f c own d).status = .unborn ↔ n ≤ d :=
  (Function.forall_update_iff f fun d q => q.status = .unborn ↔ n ≤ d).mpr
    ⟨iff_of_false is fun big => was ((born c).mpr big),fun d _ => born d⟩

theorem rootUpdate {awaiter : ℕ → Option ℕ}
    (root : ∀ d, (f d).status.going → awaiter d = none → (f d).caller = .null)
    (here : own.status.going → awaiter c = none → own.caller = .null) :
    ∀ d, (Function.update f c own d).status.going → awaiter d = none →
      (Function.update f c own d).caller = .null :=
  (Function.forall_update_iff f fun d q => q.status.going → awaiter d = none → q.caller = .null).mpr
    ⟨here,fun d _ => root d⟩

theorem endedUpdate (ended : ∀ d, (f d).status = .finished → (f d).caller = .null)
    (here : own.status = .finished → own.caller = .null) :
    ∀ d, (Function.update f c own d).status = .finished → (Function.update f c own d).caller = .null :=
  (Function.forall_update_iff f fun _ q => q.status = .finished → q.caller = .null).mpr
    ⟨here,fun d _ => ended d⟩

end Update

def outer : Option ℕ → Caller
  | none => .null
  | some p => .addr p

inductive Stacked (awaiter : ℕ → Option ℕ) : List Ctx → Prop where
  | base (c : ℕ) : Stacked awaiter [.resume c (outer (awaiter c))]
  | ready {d ctx rest} (awaits : awaiter d = some ctx.callee) (older : ctx.callee < d)
      (below : Stacked awaiter (ctx :: rest)) : Stacked awaiter (.ready ctx.callee d :: ctx :: rest)
  | go {d ctx rest} (root : awaiter d = none) (older : ctx.callee < d)
      (below : Stacked awaiter (ctx :: rest)) :
      Stacked awaiter (.go (.run ctx.callee) d :: ctx :: rest)

theorem stackedSorted {awaiter : ℕ → Option ℕ} {stack : List Ctx} (stacked : Stacked awaiter stack) :
    (stack.map Ctx.callee).Pairwise (· > ·) := by
  rw [← List.isChain_iff_pairwise]
  induction stacked with
  | base c => exact .singleton c
  | ready awaits older below ih => exact .cons_cons older ih
  | go root older below ih => exact .cons_cons older ih

theorem stackedUnique {awaiter : ℕ → Option ℕ} {stack : List Ctx} (stacked : Stacked awaiter stack)
    {a b : Ctx} (ha : a ∈ stack) (hb : b ∈ stack) (same : a.callee = b.callee) : a = b :=
  List.inj_on_of_nodup_map ((stackedSorted stacked).imp (fun older => Nat.ne_of_gt older)) ha hb same

theorem stackedCongr {f g : ℕ → Option ℕ} {stack : List Ctx} (stacked : Stacked f stack)
    (same : ∀ ctx ∈ stack, g ctx.callee = f ctx.callee) : Stacked g stack := by
  induction stacked with
  | base c =>
    have here := same _ (List.mem_singleton_self _)
    simp only [Ctx.callee] at here
    rw [← here]
    exact .base c
  | ready awaits older below ih =>
    refine .ready ?_ older (ih (fun ctx mem => same ctx (List.mem_cons_of_mem _ mem)))
    exact (same _ List.mem_cons_self).trans awaits
  | go root older below ih =>
    refine .go ?_ older (ih (fun ctx mem => same ctx (List.mem_cons_of_mem _ mem)))
    exact (same _ List.mem_cons_self).trans root

def State.active (s : State E) : List ℕ :=
  if s.control = .back then (s.stack.map Ctx.callee).tail else s.stack.map Ctx.callee

structure Inv (s : State E) : Prop where
  born : ∀ c, (s.promise c).status = .unborn ↔ s.next ≤ c
  fresh : ∀ c, s.next ≤ c → s.awaiter c = none
  stackBorn : ∀ ctx ∈ s.stack, ctx.callee < s.next
  root : ∀ c, (s.promise c).status.going → s.awaiter c = none → (s.promise c).caller = .null
  older : ∀ c p, s.awaiter c = some p → p < c
  awaited : ∀ c p, (s.promise c).status.going → s.awaiter c = some p →
    (s.promise c).caller = .inline ∧ .ready p c ∈ s.stack ∨
      (s.promise c).caller = .addr p ∧ (s.promise p).status = .awaiting c
  awaits : ∀ p d, (s.promise p).status = .awaiting d → s.awaiter d = some p ∧
    ((s.promise d).status.going ∨ (s.promise d).status = .finished)
  ended : ∀ c, (s.promise c).status = .finished → (s.promise c).caller = .null
  finished : ∀ d, (s.promise d).status = .finished → s.control = .back ∧ ∃ p rest, s.awaiter d = some p ∧
    (s.stack = .ready p d :: rest ∨ s.stack = .resume d (.addr p) :: rest ∧ (s.promise p).status = .awaiting d)
  running : ∀ c, (s.promise c).status = .running ↔ c ∈ s.active
  quiet : s.control = .idle ∨ s.control = .goAfterExit → s.stack = []
  stacked : s.control ≠ .idle → s.control ≠ .goAfterExit → Stacked s.awaiter s.stack
  entered : ∀ c, s.control = .run c → ∃ ctx rest, s.stack = ctx :: rest ∧ ctx.callee = c
  left : s.control = .back → ∀ ctx rest, s.stack = ctx :: rest → (s.promise ctx.callee).status.going ∨
    (s.promise ctx.callee).status = .finished ∨ s.awaiter ctx.callee = none
  scheduling : s.control ≠ .idle → s.control ≠ .goAfterExit → s.scheduler = .running
  sane : s.control ≠ .neverYield ∧ s.control ≠ .broken

theorem startInv : Inv (start : State E) := by
  constructor <;> simp [start, State.active, Status.going]

theorem activeRun {s : State E} {c : ℕ} (here : s.control = .run c) : s.active = s.stack.map Ctx.callee := by
  simp [State.active, here]

theorem beginInv {s : State E} (inv : Inv s) {c : ℕ} (here : s.control = .run c) {caller : Caller}
    {awaiter : Option ℕ} {ctx : Ctx}
    (kind : caller = .inline ∧ awaiter = some c ∧ ctx = .ready c s.next ∨
      caller = .null ∧ awaiter = none ∧ ctx = .go (.run c) s.next) :
    Inv (begin s caller awaiter ctx) := by
  obtain ⟨top,rest,stack,rfl⟩ := inv.entered c here
  have stacked := inv.stacked (by simp [here]) (by simp [here])
  have active := activeRun here
  have callee : ctx.callee = s.next := by rcases kind with ⟨_,_,rfl⟩ | ⟨_,_,rfl⟩ <;> rfl
  have older : top.callee < s.next := inv.stackBorn top (by simp [stack])
  have live : ∀ d, (s.promise d).status ≠ .unborn → d ≠ s.next := by
    rintro d alive rfl
    exact alive ((inv.born _).mpr le_rfl)
  have same : ∀ x ∈ s.stack, Function.update s.awaiter s.next awaiter x.callee = s.awaiter x.callee := by
    intro x mem
    rw [Function.update_of_ne (Nat.ne_of_lt (inv.stackBorn x mem))]
  have below := stackedCongr stacked same
  rw [stack] at below
  constructor
  case born => 
    intro d
    simp only [begin, State.put, Function.update_apply]
    split_ifs with h
    · simp [h]
    · rw [inv.born]; omega
  case fresh =>
    intro d big
    simp only [begin] at big ⊢
    rw [Function.update_of_ne (by omega)]
    exact inv.fresh d (by omega)
  case stackBorn =>
    intro x mem
    simp only [begin, List.mem_cons] at mem ⊢
    rcases mem with rfl | mem
    · omega
    · have := inv.stackBorn x mem; omega
  case root =>
    intro d
    simp only [begin, State.put, Function.update_apply]
    split_ifs with h
    · rcases kind with ⟨rfl,rfl,_⟩ | ⟨rfl,rfl,_⟩ <;> simp
    · exact inv.root d
  case older =>
    intro d p
    simp only [begin, Function.update_apply]
    have := inv.older d p
    grind
  case awaited =>
    intro d p
    simp only [begin, State.put, Function.update_apply, List.mem_cons]
    have := inv.awaited d p
    grind
  case awaits =>
    intro p d
    simp only [begin, State.put, Function.update_apply]
    have := inv.awaits p d
    have := live d
    grind [Status.going]
  case ended =>
    intro d
    simp only [begin, State.put, Function.update_apply]
    have := inv.ended d
    grind
  case finished =>
    intro d
    simp only [begin, State.put, Function.update_apply]
    have := inv.finished d
    grind
  case running =>
    intro d
    have := inv.running d
    have := live d
    simp only [begin, State.put, Function.update_apply, State.active]
    grind
  case quiet => simp [begin]
  case stacked =>
    intro _ _
    simp only [begin, stack]
    rcases kind with ⟨_,rfl,rfl⟩ | ⟨_,rfl,rfl⟩
    · exact .ready (by simp) older below
    · exact .go (by simp) older below
  case entered =>
    intro d hd
    simp only [begin, Control.run.injEq] at hd ⊢
    exact ⟨_,_,rfl,by omega⟩
  case left => simp [begin]
  case scheduling =>
    intro _ _
    exact inv.scheduling (by simp [here]) (by simp [here])
  case sane => simp [begin]

theorem stackedAbove {awaiter : ℕ → Option ℕ} {top : Ctx} {rest : List Ctx}
    (stacked : Stacked awaiter (top :: rest)) : ∀ ctx ∈ rest, ctx.callee < top.callee := by
  have sorted := stackedSorted stacked
  rw [List.map_cons, List.pairwise_cons] at sorted
  exact fun ctx mem => sorted.1 _ (List.mem_map_of_mem mem)

structure Inside (s : State E) (c : ℕ) (top : Ctx) (rest : List Ctx) : Prop where
  stack : s.stack = top :: rest
  callee : top.callee = c
  stacked : Stacked s.awaiter (top :: rest)
  above : ∀ ctx ∈ rest, ctx.callee < c
  running : ∀ d, (s.promise d).status = .running ↔ d = c ∨ d ∈ rest.map Ctx.callee
  here : (s.promise c).status = .running
  scheduling : s.scheduler = .running

theorem insideOf {s : State E} (inv : Inv s) {c : ℕ} (here : s.control = .run c) :
    ∃ top rest, Inside s c top rest := by
  obtain ⟨top,rest,stack,callee⟩ := inv.entered c here
  have stacked := inv.stacked (by simp [here]) (by simp [here])
  rw [stack] at stacked
  have running : ∀ d, (s.promise d).status = .running ↔ d = c ∨ d ∈ rest.map Ctx.callee := by
    intro d
    rw [inv.running, activeRun here, stack, List.map_cons, List.mem_cons, callee]
  exact ⟨top,rest,stack,callee,stacked,callee ▸ stackedAbove stacked,running,(running c).mpr (.inl rfl),
    inv.scheduling (by simp [here]) (by simp [here])⟩

theorem insideAwaiter {s : State E} (inv : Inv s) {c p : ℕ} {top : Ctx} {rest : List Ctx}
    (inside : Inside s c top rest) (waiting : s.awaiter c = some p) :
    top = .ready p c ∨ top = .resume c (.addr p) ∧ (s.promise p).status = .awaiting c := by
  have stacked := inside.stacked
  have callee := inside.callee
  rcases stacked with c' | ⟨awaits,_,_⟩ | ⟨root,_,_⟩
  · obtain rfl : c' = c := callee
    refine .inr ⟨by rw [waiting, outer], ?_⟩
    rcases (inv.awaited c' p (by simp [inside.here, Status.going]) waiting) with ⟨_,mem⟩ | ⟨_,status⟩
    · simp [inside.stack] at mem
    · exact status
  · simp only [Ctx.callee] at callee
    subst callee
    obtain rfl := Option.some.inj (awaits.symm.trans waiting)
    exact .inl rfl
  · simp only [Ctx.callee] at callee
    subst callee
    simp [root] at waiting

theorem notFinished {s : State E} (inv : Inv s) (away : s.control ≠ .back) (d : ℕ) :
    (s.promise d).status ≠ .finished :=
  fun finished => away (inv.finished d finished).1

theorem leaveInv {s : State E} (inv : Inv s) {c : ℕ} (here : s.control = .run c) {own : Promise E}
    {outcome : ℕ → Option (Option E)}
    (kind : own.status = .parked ∧ own.caller = (s.promise c).caller ∨
      own.caller = .null ∧ own.status = .finished ∧ s.awaiter c ≠ none ∨
      own.caller = .null ∧ own.status = .destroyed c ∧ s.awaiter c = none) :
    Inv {s.put c own with control := .back, outcome := outcome} := by
  obtain ⟨top,rest,inside⟩ := insideOf inv here
  have status := inside.here
  have away := notFinished inv (by simp [here])
  constructor
  case born =>
    refine bornUpdate inv.born (by simp [status]) ?_
    rcases kind with ⟨h,_⟩ | ⟨_,h,_⟩ | ⟨_,h,_⟩ <;> simp [h]
  case fresh => exact inv.fresh
  case stackBorn => exact inv.stackBorn
  case root =>
    refine rootUpdate inv.root fun _ none' => ?_
    rcases kind with ⟨_,h⟩ | ⟨h,_⟩ | ⟨h,_⟩
    · rw [h]
      exact inv.root c (by simp [status, Status.going]) none'
    · exact h
    · exact h
  case older => exact inv.older
  case awaited =>
    intro d p
    have := inv.awaited d p
    simp only [State.put, updateStatus, updateCaller]
    grind [Status.going]
  case awaits =>
    intro p d
    have := inv.awaits p d
    simp only [State.put, updateStatus]
    grind [Status.going]
  case ended =>
    refine endedUpdate inv.ended fun finished => ?_
    rcases kind with ⟨h,_⟩ | ⟨h,_⟩ | ⟨h,_⟩
    · simp [h] at finished
    · exact h
    · exact h
  case finished =>
    intro d
    have gone := away d
    simp only [State.put, updateStatus, inside.stack]
    split_ifs with self
    · subst self
      intro finished
      obtain ⟨p,waiting⟩ : ∃ p, s.awaiter d = some p := by
        rw [← Option.ne_none_iff_exists']
        rcases kind with ⟨h,_⟩ | ⟨_,_,h⟩ | ⟨_,h,_⟩
        · simp [h] at finished
        · exact h
        · simp [h] at finished
      refine ⟨trivial,p,rest,waiting,?_⟩
      rcases insideAwaiter inv inside waiting with rfl | ⟨rfl,awaits⟩
      · exact .inl rfl
      · have other : p ≠ d := by
          rintro rfl
          simp [status] at awaits
        exact .inr ⟨rfl,by rw [if_neg other]; exact awaits⟩
    · exact fun finished => absurd finished gone
  case running =>
    intro d
    have old := inside.running d
    have above : c ∉ rest.map Ctx.callee := by
      rw [List.mem_map]
      rintro ⟨ctx,mem,same⟩
      exact absurd (inside.above ctx mem) (by omega)
    simp only [State.put, updateStatus, State.active, inside.stack, if_true, List.map_cons, List.tail_cons]
    grind
  case quiet => simp
  case stacked => exact fun _ _ => inside.stack ▸ inside.stacked
  case entered => simp
  case left =>
    intro _ ctx below same
    simp only [State.put] at same ⊢
    rw [inside.stack] at same
    cases same
    rw [inside.callee, Function.update_self]
    rcases kind with ⟨h,_⟩ | ⟨_,h,_⟩ | ⟨_,_,h⟩
    · exact .inl (by rw [h]; rfl)
    · exact .inr (.inl h)
    · exact .inr (.inr h)
  case scheduling => exact fun _ _ => inside.scheduling
  case sane => simp

theorem callerNull {s : State E} (inv : Inv s) {c : ℕ} (going : (s.promise c).status.going) :
    (s.promise c).caller = .null ↔ s.awaiter c = none := by
  rcases waiting : s.awaiter c with _ | p
  · simp [inv.root c going waiting]
  · rcases inv.awaited c p going waiting with ⟨h,_⟩ | ⟨h,_⟩ <;> simp [h]

theorem finalSuspendInv {s : State E} (inv : Inv s) {c : ℕ} (here : s.control = .run c) (error : Option E) :
    Inv (finalSuspend s c error) := by
  obtain ⟨top,rest,inside⟩ := insideOf inv here
  have away := notFinished inv (by simp [here])
  have awaiter := callerNull inv (c := c) (by simp [inside.here, Status.going])
  simp only [finalSuspend]
  split_ifs with root failed
  · exact
    { inv with
      finished := fun d finished => absurd finished (away d)
      running := by simpa [State.active, here] using inv.running
      quiet := by simp
      stacked := fun _ _ => inside.stack ▸ inside.stacked
      entered := by simp
      left := by simp
      scheduling := fun _ _ => inside.scheduling
      sane := by simp }
  · exact leaveInv inv here (.inr (.inr ⟨rfl,rfl,awaiter.mp root⟩))
  · exact leaveInv inv here (.inr (.inl ⟨rfl,rfl,fun none' => root (awaiter.mpr none')⟩))

theorem receiveInv {s : State E} (inv : Inv s) (here : s.control = .back) {p d : ℕ}
    (done : (s.promise d).status = .finished) (waiting : s.awaiter d = some p)
    (awaiter : (s.promise p).status = .running ∨ (s.promise p).status = .awaiting d)
    {received : ℕ → List (ℕ × Option E)} {resumed : List ℕ} {stack : List Ctx}
    (kept : ∀ q c, c ≠ d → .ready q c ∈ s.stack → .ready q c ∈ stack) (stacked : Stacked s.awaiter stack)
    (entered : ∃ ctx rest, stack = ctx :: rest ∧ ctx.callee = p)
    (active : ∀ c, c ∈ stack.map Ctx.callee ↔ c = p ∨ (s.promise c).status = .running) :
    Inv {(s.put p {s.promise p with status := .running}).put d {s.promise d with status := .destroyed p} with
      stack := stack, control := .run p, received := received, resumed := resumed} := by
  have other : p ≠ d := Nat.ne_of_lt (inv.older d p waiting)
  have only : ∀ c, (s.promise c).status = .finished → c = d := by
    intro c ended
    obtain ⟨_,q,rest,_,top⟩ := inv.finished c ended
    obtain ⟨_,q',rest',_,top'⟩ := inv.finished d done
    grind
  have alive : (s.promise p).status.going := by rcases awaiter with h | h <;> rw [h] <;> rfl
  have present : (s.promise p).status ≠ .unborn := by rcases awaiter with h | h <;> simp [h]
  constructor
  case born =>
    refine bornUpdate (bornUpdate inv.born present (by simp)) ?_ (by simp)
    simp [State.put, Function.update_of_ne other.symm, done]
  case fresh => exact inv.fresh
  case stackBorn =>
    intro ctx mem
    have alive : (s.promise ctx.callee).status ≠ .unborn := by
      rcases (active ctx.callee).mp (List.mem_map_of_mem mem) with same | h
      · rw [same]
        rcases awaiter with h | h <;> simp [h]
      · simp [h]
    exact Nat.lt_of_not_le (fun big => alive ((inv.born _).mpr big))
  case root =>
    exact rootUpdate (rootUpdate inv.root fun _ none' => inv.root p alive none') fun going => nomatch going
  case older => exact inv.older
  case awaited =>
    intro c q
    have old := inv.awaited c q
    have unique := inv.older c q
    have := inv.awaits p d
    simp only [State.put, updateStatus, updateCaller]
    grind [Status.going]
  case awaits =>
    intro q c
    have := inv.awaits q c
    have := only c
    simp only [State.put, updateStatus]
    grind [Status.going]
  case ended =>
    exact endedUpdate (endedUpdate inv.ended (fun finished => nomatch finished)) fun finished => nomatch finished
  case finished =>
    intro c
    have := only c
    simp only [State.put, updateStatus]
    grind
  case running =>
    intro c
    have := active c
    simp only [State.put, updateStatus, State.active]
    grind
  case quiet => simp
  case stacked => exact fun _ _ => stacked
  case entered =>
    intro c same
    cases same
    exact entered
  case left => simp
  case scheduling => exact fun _ _ => inv.scheduling (by simp [here]) (by simp [here])
  case sane => simp

theorem awaitSuspendInv {s : State E} (inv : Inv s) (here : s.control = .back) {p d : ℕ} {rest : List Ctx}
    (stack : s.stack = .ready p d :: rest) (going : (s.promise d).status.going) :
    Inv (awaitSuspend {s with stack := rest} p d) := by
  have stacked := inv.stacked (by simp [here]) (by simp [here])
  rw [stack] at stacked
  have above := stackedAbove stacked
  have unique := fun a b => stackedUnique stacked (a := a) (b := b)
  cases stacked with | @ready _ ctx rest waiting older below =>
  have running : ∀ c, (s.promise c).status = .running ↔ c ∈ (ctx :: rest).map Ctx.callee := by
    intro c
    rw [inv.running]
    simp [State.active, here, stack]
  have status := (running ctx.callee).mpr List.mem_cons_self
  have away : ∀ c, (s.promise c).status ≠ .finished := by
    intro c ended
    obtain ⟨_,q,below,_,top⟩ := inv.finished c ended
    rw [stack] at top
    grind [Status.going]
  constructor
  case born =>
    have present : (s.promise d).status ≠ .unborn := fun unborn => by simp [unborn, Status.going] at going
    refine bornUpdate (bornUpdate inv.born present present) ?_ (by simp)
    simp [State.put, Function.update_of_ne (Nat.ne_of_lt older), status]
  case fresh => exact inv.fresh
  case stackBorn =>
    intro x mem
    exact inv.stackBorn x (by rw [stack]; exact List.mem_cons_of_mem _ mem)
  case root =>
    refine rootUpdate (rootUpdate inv.root fun _ none' => ?_) fun _ none' => ?_
    · cases waiting.symm.trans none'
    · show (Function.update s.promise d _ ctx.callee).caller = .null
      rw [Function.update_of_ne (Nat.ne_of_lt older)]
      exact inv.root _ (by simp [status, Status.going]) none'
  case older => exact inv.older
  case awaited =>
    intro c q
    have old := inv.awaited c q
    simp only [awaitSuspend, State.put, updateStatus, updateCaller]
    rw [stack, List.mem_cons] at old
    rcases eq_or_ne c d with rfl | other
    · rw [if_neg (Nat.ne_of_gt older), if_pos rfl, if_neg (Nat.ne_of_gt older), if_pos rfl, waiting]
      rintro _ same
      obtain rfl := Option.some.inj same
      exact .inr ⟨rfl,by rw [if_pos rfl]⟩
    · have apart : ctx.callee ≠ d := Nat.ne_of_lt older
      have free : (s.promise q).status = .awaiting c → q ≠ ctx.callee := by
        rintro waits rfl
        rw [status] at waits
        cases waits
      simp only [if_neg other, if_neg apart]
      intro alive awaits
      have alive : (s.promise c).status.going := by
        split_ifs at alive with self
        · rw [self, status]
          rfl
        · exact alive
      rcases old alive awaits with ⟨inline,same | mem⟩ | ⟨caller,waits⟩
      · cases same
        exact absurd rfl other
      · refine .inl ⟨?_,mem⟩
        split_ifs with self
        · rw [← self]
          exact inline
        · exact inline
      · refine .inr ⟨?_,?_⟩
        · split_ifs with self
          · rw [← self]
            exact caller
          · exact caller
        · rw [if_neg (free waits)]
          split_ifs with self
          · rw [← self]
            exact waits
          · exact waits
  case awaits =>
    intro q c
    have := inv.awaits q c
    simp only [awaitSuspend, State.put, updateStatus]
    grind [Status.going]
  case ended =>
    refine endedUpdate (endedUpdate inv.ended fun finished => ?_) fun finished => nomatch finished
    exact absurd finished (away d)
  case finished =>
    intro c
    have := away c
    simp only [awaitSuspend, State.put, updateStatus]
    grind
  case running =>
    intro c
    have := running c
    have apart := stackedAbove below
    have : ctx.callee ∉ rest.map Ctx.callee := by
      rw [List.mem_map]
      rintro ⟨x,mem,same⟩
      exact absurd (apart x mem) (by omega)
    simp only [awaitSuspend, State.put, updateStatus, State.active, if_true, List.map_cons, List.tail_cons]
    grind
  case quiet => simp [awaitSuspend]
  case stacked => exact fun _ _ => below
  case entered => simp [awaitSuspend]
  case left =>
    intro _ x more same
    simp only [awaitSuspend, State.put] at same ⊢
    cases same
    simp [Status.going]
  case scheduling => exact fun _ _ => inv.scheduling (by simp [here]) (by simp [here])
  case sane => simp [awaitSuspend]

theorem putSelf (s : State E) {c : ℕ} (running : (s.promise c).status = .running) :
    s.put c {s.promise c with status := .running} = s := by
  have same : ({s.promise c with status := .running} : Promise E) = s.promise c := by rw [← running]
  rw [State.put, same, Function.update_eq_self]

theorem suspendedCaller {s : State E} (inv : Inv s) {c : ℕ} (going : (s.promise c).status.going)
    (away : ∀ p, .ready p c ∉ s.stack) : (s.promise c).caller = outer (s.awaiter c) := by
  rcases waiting : s.awaiter c with _ | p
  · exact inv.root c going waiting
  · rcases inv.awaited c p going waiting with ⟨_,mem⟩ | ⟨h,_⟩
    · exact absurd mem (away p)
    · exact h

theorem resumeInv {s : State E} (inv : Inv s) {c : ℕ} (here : s.control = .idle)
    (scheduling : s.scheduler = .running) (parked : (s.promise c).status = .parked) : Inv (resume s c) := by
  have stack := inv.quiet (.inl here)
  have away := notFinished inv (by simp [here])
  have caller := suspendedCaller inv (c := c) (by simp [parked, Status.going]) (by simp [stack])
  have idle : ∀ d, (s.promise d).status ≠ .running := by
    intro d
    rw [ne_eq, inv.running]
    simp [State.active, stack, here]
  simp only [resume, parked, Status.live, if_true, handleResume, wake, stack]
  constructor
  case born => exact bornUpdate inv.born (by simp [parked]) (by simp)
  case fresh => exact inv.fresh
  case stackBorn =>
    intro ctx mem
    obtain rfl := List.mem_singleton.mp mem
    exact Nat.lt_of_not_le (fun big => by simp [(inv.born c).mpr big] at parked)
  case root => exact rootUpdate inv.root fun _ none' => inv.root c (by simp [parked, Status.going]) none'
  case older => exact inv.older
  case awaited =>
    intro d p
    have := inv.awaited d p
    simp only [State.put, updateStatus, updateCaller]
    grind [Status.going]
  case awaits =>
    intro p d
    have := inv.awaits p d
    simp only [State.put, updateStatus]
    grind [Status.going]
  case ended => exact endedUpdate inv.ended fun finished => nomatch finished
  case finished =>
    intro d
    have := away d
    simp only [State.put, updateStatus]
    grind
  case running =>
    intro d
    have := idle d
    simp only [State.put, updateStatus, State.active]
    grind [Ctx.callee]
  case quiet => simp
  case stacked =>
    intro _ _
    rw [caller]
    exact .base c
  case entered =>
    intro d same
    cases same
    exact ⟨_,[],rfl,rfl⟩
  case left => simp
  case scheduling => exact fun _ _ => scheduling
  case sane => simp

theorem returnInv {s : State E} (inv : Inv s) (here : s.control = .back) {c : ℕ} {caller : Caller}
    (stack : s.stack = [.resume c caller]) (away : ∀ d, (s.promise d).status ≠ .finished) :
    Inv {s with stack := [], control := .idle} :=
  { inv with
    stackBorn := by simp
    awaited := by
      intro d p going waiting
      rcases inv.awaited d p going waiting with ⟨_,mem⟩ | h
      · simp [stack] at mem
      · exact .inr h
    finished := fun d finished => absurd finished (away d)
    running := by
      intro d
      rw [inv.running]
      simp [State.active, here, stack]
    quiet := by simp
    stacked := by simp
    entered := by simp
    left := by simp
    scheduling := by simp
    sane := by simp }

theorem finishedTop {s : State E} (inv : Inv s) {ctx : Ctx} {rest : List Ctx} (stack : s.stack = ctx :: rest)
    {d : ℕ} (finished : (s.promise d).status = .finished) : ctx.callee = d := by
  obtain ⟨_,p,below,_,top | ⟨top,_⟩⟩ := inv.finished d finished
  all_goals
    rw [stack] at top
    cases top
    rfl

theorem activeBack {s : State E} (inv : Inv s) (here : s.control = .back) {top : Ctx} {rest : List Ctx}
    (stack : s.stack = top :: rest) (c : ℕ) :
    (s.promise c).status = .running ↔ c ∈ rest.map Ctx.callee := by
  rw [inv.running]
  simp [State.active, here, stack]

inductive Returned (s : State E) : State E → Prop where
  | received {p d rest} (stack : s.stack = .ready p d :: rest) (done : (s.promise d).status = .finished)
      (waiting : s.awaiter d = some p) (awaiter : (s.promise p).status = .running) :
      Returned s {s.put d {s.promise d with status := .destroyed p} with
        stack := rest, control := .run p,
        received := Function.update s.received p (s.received p ++ [(d, (s.promise d).error)])}
  | suspended {p d rest} (stack : s.stack = .ready p d :: rest) (going : (s.promise d).status.going)
      (waiting : s.awaiter d = some p) (awaiter : (s.promise p).status = .running) :
      Returned s (awaitSuspend {s with stack := rest} p d)
  | launched {p d rest} (stack : s.stack = .go (.run p) d :: rest) :
      Returned s {s with stack := rest, control := .run p}
  | left {c caller} (stack : s.stack = [.resume c caller])
      (settled : caller = .null ∧ s.awaiter c = none ∨ (s.promise c).status.going) :
      Returned s {s with stack := [], control := .idle}
  | woken {p d} (stack : s.stack = [.resume d (.addr p)]) (done : (s.promise d).status = .finished)
      (waiting : s.awaiter d = some p) (awaiter : (s.promise p).status = .awaiting d) :
      Returned s {(s.put p {s.promise p with status := .running}).put d
          {s.promise d with status := .destroyed p} with
        stack := [.resume p (s.promise p).caller], control := .run p,
        received := Function.update s.received p (s.received p ++ [(d, (s.promise d).error)]),
        resumed := s.resumed ++ [p]}

theorem readyReturned {s : State E} (inv : Inv s) (here : s.control = .back) {p d : ℕ} {rest : List Ctx}
    (stack : s.stack = .ready p d :: rest) : Returned s (back s) := by
  have running := activeBack inv here stack
  have left := inv.left here _ _ stack
  have stacked := inv.stacked (by simp [here]) (by simp [here])
  rw [stack] at stacked
  have above := stackedAbove stacked
  cases stacked with | @ready _ ctx rest waiting older below =>
  have notRunning : (s.promise d).status ≠ .running := by
    rw [ne_eq, running, List.mem_map]
    rintro ⟨x,mem,same⟩
    exact absurd (above x mem) (same ▸ lt_irrefl _)
  have parent := (running ctx.callee).mpr List.mem_cons_self
  simp only [Ctx.callee] at left
  simp only [back, stack]
  cases status : (s.promise d).status with
  | finished =>
    simp only [awaitResume, status, if_true]
    exact .received stack status waiting parent
  | parked => exact .suspended stack (by simp [status, Status.going]) waiting parent
  | awaiting x => exact .suspended stack (by simp [status, Status.going]) waiting parent
  | running => exact absurd status notRunning
  | unborn => simp [status, Status.going, waiting] at left
  | destroyed x => simp [status, Status.going, waiting] at left

theorem goReturned {s : State E} (inv : Inv s) (here : s.control = .back) {ret : Control} {d : ℕ}
    {rest : List Ctx} (stack : s.stack = .go ret d :: rest) : Returned s (back s) := by
  have stacked := inv.stacked (by simp [here]) (by simp [here])
  rw [stack] at stacked
  cases stacked with | @go _ ctx rest root older below =>
  simp only [back, stack]
  exact .launched stack

theorem backAddr {s : State E} {cur p : ℕ} {rest : List Ctx} (stack : s.stack = .resume cur (.addr p) :: rest)
    (live : (s.promise cur).status.live = true) :
    back s = if (s.promise cur).caller = .addr p then {s with stack := rest, control := .idle}
      else resume {s with stack := rest} p := by
  simp only [back, stack, live]
  split_ifs with h <;> simp_all

theorem resumeReturned {s : State E} (inv : Inv s) (here : s.control = .back) {cur : ℕ} {caller : Caller}
    {rest : List Ctx} (stack : s.stack = .resume cur caller :: rest) : Returned s (back s) := by
  have left := inv.left here _ _ stack
  have stacked := inv.stacked (by simp [here]) (by simp [here])
  rw [stack] at stacked
  cases stacked with | base c =>
  simp only [Ctx.callee] at left
  rcases waiting : s.awaiter cur with _ | p
  · rw [waiting, outer] at stack
    simp only [back, stack, if_true]
    exact .left stack (.inl ⟨rfl,waiting⟩)
  · have live : (s.promise cur).status.live = true := by
      rcases left with going | ended | root
      · revert going
        cases (s.promise cur).status <;> simp [Status.going, Status.live]
      · rw [ended]
        rfl
      · simp [root] at waiting
    rw [waiting, outer] at stack
    rw [backAddr stack live]
    by_cases ended : (s.promise cur).status = .finished
    · obtain ⟨_,q,below,awaits,shape | ⟨shape,status⟩⟩ := inv.finished cur ended
      · simp [stack] at shape
      obtain rfl : p = q := Option.some.inj (waiting.symm.trans awaits)
      have other : cur ≠ p := Nat.ne_of_gt (inv.older cur p waiting)
      rw [if_neg (by simp [inv.ended cur ended])]
      simp only [resume, status, Status.live, if_true, handleResume, wake, awaitResume, State.put, ended,
        Function.update_of_ne other]
      exact .woken stack ended waiting status
    · have going : (s.promise cur).status.going := by
        rcases left with going | h | root
        · exact going
        · exact absurd h ended
        · simp [root] at waiting
      have same : (s.promise cur).caller = .addr p := by
        rcases inv.awaited cur p going waiting with ⟨_,mem⟩ | ⟨h,_⟩
        · simp [stack] at mem
        · exact h
      rw [if_pos same]
      exact .left stack (.inr going)

theorem backReturned {s : State E} (inv : Inv s) (here : s.control = .back) : Returned s (back s) := by
  have stacked := inv.stacked (by simp [here]) (by simp [here])
  rcases stack : s.stack with _ | ⟨top,rest⟩
  · rw [stack] at stacked
    cases stacked
  · cases top with
    | resume cur caller => exact resumeReturned inv here stack
    | ready p d => exact readyReturned inv here stack
    | go ret d => exact goReturned inv here stack

theorem receivedInv {s : State E} (inv : Inv s) (here : s.control = .back) {p d : ℕ} {rest : List Ctx}
    (stack : s.stack = .ready p d :: rest) (done : (s.promise d).status = .finished)
    (waiting : s.awaiter d = some p) (awaiter : (s.promise p).status = .running)
    (received : ℕ → List (ℕ × Option E)) :
    Inv {s.put d {s.promise d with status := .destroyed p} with
      stack := rest, control := .run p, received := received} := by
  have running := activeBack inv here stack
  have stacked := inv.stacked (by simp [here]) (by simp [here])
  rw [stack] at stacked
  cases stacked with | @ready _ ctx rest awaits older below =>
  have kept : ∀ q c, c ≠ d → Ctx.ready q c ∈ s.stack → Ctx.ready q c ∈ ctx :: rest := by
    intro q c other mem
    rw [stack, List.mem_cons] at mem
    rcases mem with same | mem
    · cases same
      exact absurd rfl other
    · exact mem
  have active : ∀ c, c ∈ (ctx :: rest).map Ctx.callee ↔ c = ctx.callee ∨ (s.promise c).status = .running := by
    intro c
    rw [running, List.map_cons, List.mem_cons]
    tauto
  have whole := @receiveInv E s inv here _ d done waiting (.inl awaiter) received s.resumed _ kept below
    ⟨ctx,rest,rfl,rfl⟩ active
  rw [putSelf s awaiter] at whole
  exact whole

theorem launchedInv {s : State E} (inv : Inv s) (here : s.control = .back) {p d : ℕ} {rest : List Ctx}
    (stack : s.stack = .go (.run p) d :: rest) : Inv {s with stack := rest, control := .run p} := by
  have running := activeBack inv here stack
  have stacked := inv.stacked (by simp [here]) (by simp [here])
  have born := inv.stackBorn
  have awaited := inv.awaited
  have finished := inv.finished
  rw [stack] at stacked born awaited finished
  cases stacked with | @go _ ctx rest root older below =>
  exact
    { inv with
      stackBorn := fun x mem => born x (List.mem_cons_of_mem _ mem)
      awaited := by
        intro c p going waiting
        rcases awaited c p going waiting with ⟨inline,mem⟩ | h
        · exact .inl ⟨inline,by simpa using mem⟩
        · exact .inr h
      finished := by
        intro c ended
        obtain ⟨_,_,_,_,top | ⟨top,_⟩⟩ := finished c ended <;> cases top
      running := by simpa [State.active] using running
      quiet := by simp
      stacked := fun _ _ => below
      entered := by
        intro c same
        cases same
        exact ⟨ctx,rest,rfl,rfl⟩
      left := by simp
      scheduling := fun _ _ => inv.scheduling (by simp [here]) (by simp [here])
      sane := by simp }

theorem wokenInv {s : State E} (inv : Inv s) (here : s.control = .back) {p d : ℕ}
    (stack : s.stack = [.resume d (.addr p)]) (done : (s.promise d).status = .finished)
    (waiting : s.awaiter d = some p) (awaiter : (s.promise p).status = .awaiting d)
    (received : ℕ → List (ℕ × Option E)) (resumed : List ℕ) :
    Inv {(s.put p {s.promise p with status := .running}).put d {s.promise d with status := .destroyed p} with
      stack := [.resume p (s.promise p).caller], control := .run p, received := received, resumed := resumed} := by
  have running := activeBack inv here stack
  have caller := suspendedCaller inv (c := p) (by simp [awaiter, Status.going]) (by simp [stack])
  exact receiveInv inv here done waiting (.inr awaiter) (by simp [stack]) (caller ▸ .base p) ⟨_,_,rfl,rfl⟩
    (by simp [running, Ctx.callee])

theorem backInv {s : State E} (inv : Inv s) (here : s.control = .back) : Inv (back s) := by
  have returned := backReturned inv here
  generalize back s = s' at returned ⊢
  cases returned with
  | received stack done waiting awaiter => exact receivedInv inv here stack done waiting awaiter _
  | suspended stack going _ _ => exact awaitSuspendInv inv here stack going
  | launched stack => exact launchedInv inv here stack
  | left stack settled =>
    refine returnInv inv here stack (fun d ended => ?_)
    obtain rfl : _ = d := finishedTop inv stack ended
    obtain ⟨_,p,_,waiting,_⟩ := inv.finished _ ended
    rcases settled with ⟨_,root⟩ | going
    · exact absurd (waiting.symm.trans root) (by simp)
    · simp only [Ctx.callee] at ended
      rw [ended] at going
      cases going
  | woken stack done waiting awaiter => exact wokenInv inv here stack done waiting awaiter _ _

theorem goDispatchInv {s : State E} (inv : Inv s)
    (here : s.control = .idle ∧ s.scheduler ≠ .running ∨ ∃ c, s.control = .run c) : Inv (goDispatch s) := by
  rcases here with ⟨here,plain⟩ | ⟨c,here⟩
  · have stack := inv.quiet (.inl here)
    have away := notFinished inv (by simp [here])
    cases mode : s.scheduler with
    | running => exact absurd mode plain
    | notStarted =>
      have live : ∀ d, (s.promise d).status ≠ .unborn → d ≠ s.next := by
        rintro d alive rfl
        exact alive ((inv.born _).mpr le_rfl)
      simp only [goDispatch, mode]
      constructor
      case born =>
        intro d
        have := inv.born d
        simp only [State.put, updateStatus]
        grind
      case fresh => exact fun d big => inv.fresh d (Nat.le_of_succ_le big)
      case stackBorn => simp [State.put, stack]
      case root =>
        intro d
        have := inv.root d
        simp only [State.put, updateStatus, updateCaller]
        grind
      case older => exact inv.older
      case awaited =>
        intro d p
        have := inv.awaited d p
        have := inv.fresh d
        have := live p
        simp only [State.put, updateStatus, updateCaller]
        grind
      case awaits =>
        intro p d
        have := inv.awaits p d
        simp only [State.put, updateStatus]
        grind [Status.going]
      case ended =>
        intro d
        have := inv.ended d
        simp only [State.put, updateStatus, updateCaller]
        grind
      case finished =>
        intro d
        have := away d
        simp only [State.put, updateStatus]
        grind
      case running =>
        intro d
        have := inv.running d
        have active : s.active = [] := by simp [State.active, stack]
        simp only [State.put, updateStatus, State.active, stack]
        grind
      case quiet => exact fun _ => stack
      case stacked => exact fun away' _ => absurd here away'
      case entered => simp [State.put, here]
      case left => simp [State.put, here]
      case scheduling => exact fun away' _ => absurd here away'
      case sane => exact inv.sane
    | exited =>
      simp only [goDispatch, mode]
      exact
        { inv with
          finished := fun d ended => absurd ended (away d)
          running := by simpa [State.active, here, stack] using inv.running
          quiet := fun _ => stack
          stacked := by simp
          entered := by simp
          left := by simp
          scheduling := by simp
          sane := by simp }
  · obtain ⟨top,rest,inside⟩ := insideOf inv here
    simp only [goDispatch, inside.scheduling, here]
    exact beginInv inv here (.inr ⟨rfl,rfl,rfl⟩)

theorem stepInv {s s' : State E} (inv : Inv s) (step : Step s s') : Inv s' := by
  cases step with
  | plainGo here plain => exact goDispatchInv inv (.inl ⟨here,plain⟩)
  | schedule here =>
    exact
      { inv with
        stacked := fun away => absurd here away
        scheduling := fun away => absurd here away }
  | leave here _ =>
    exact
      { inv with
        stacked := fun away => absurd here away
        scheduling := fun away => absurd here away }
  | resume c here scheduling parked => exact resumeInv inv here scheduling parked
  | park here => exact leaveInv inv here (.inl ⟨rfl,rfl⟩)
  | await here => exact beginInv inv here (.inl ⟨rfl,rfl,rfl⟩)
  | go here => exact goDispatchInv inv (.inr ⟨_,here⟩)
  | finish error here => exact finalSuspendInv inv here error
  | back here => exact backInv inv here

theorem reachableInv {s : State E} (run : Reachable Step start s) : Inv s :=
  reachableInvariant Inv startInv (fun _ _ inv step => stepInv inv step) run

end Invariant
end Uco.AwaitChain
