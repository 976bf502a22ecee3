import Mathlib.Data.List.Basic
import Mathlib.Data.List.Range
import Mathlib.Order.Basic
import Mathlib.Algebra.Group.Nat.Defs

/-! The middleware chain. One index is advanced by every call of Next and by the
loop of every call in progress; what they run together is one bracket inside
the other, each handler once. The index is a size_t that starts at its
greatest value, so that the first call wraps it to zero. -/
namespace Uco.MiddlewareChain

variable {S : Type}

inductive Script (S : Type) where
  | done
  | throw
  | act (effect : S → S) (rest : S → Script S)
  | next (rest : S → Script S)

inductive Event where
  | started (i : Nat)
  | acted (i : Nat)
  | called (i : Nat)
  | resumed (i : Nat)
  | finished (i : Nat)
  | threw (i : Nat)
  deriving DecidableEq, Repr

def Event.handler : Event → Nat
  | started i | acted i | called i | resumed i | finished i | threw i => i

structure HttpContext (S : Type) where
  curHandleIndex : Nat
  state : S
  log : List Event

def HttpContext.record (ctx : HttpContext S) (event : Event) : HttpContext S := {ctx with log := ctx.log ++ [event]}

def increment (i : Nat) : Nat := (i + 1) % 2 ^ 64

def fresh (state : S) : HttpContext S := ⟨2 ^ 64 - 1, state, []⟩

mutual

def next (handles : List (Script S)) : Nat → HttpContext S → Option (Bool × HttpContext S)
  | 0, _ => none
  | fuel + 1, ctx => loop handles fuel {ctx with curHandleIndex := increment ctx.curHandleIndex}

def loop (handles : List (Script S)) : Nat → HttpContext S → Option (Bool × HttpContext S)
  | 0, _ => none
  | fuel + 1, ctx =>
    match handles[ctx.curHandleIndex]? with
    | none => some (true, ctx)
    | some handle =>
      (runHandler handles fuel ctx.curHandleIndex handle (ctx.record (.started ctx.curHandleIndex))).bind
        fun (returned, after) =>
          if returned then loop handles fuel {after with curHandleIndex := increment after.curHandleIndex}
          else some (false, after)

@[simp] def runHandler (handles : List (Script S)) : Nat → Nat → Script S → HttpContext S → Option (Bool × HttpContext S)
  | 0, _, _, _ => none
  | _ + 1, i, .done, ctx => some (true, ctx.record (.finished i))
  | _ + 1, i, .throw, ctx => some (false, ctx.record (.threw i))
  | fuel + 1, i, .act effect rest, ctx =>
    runHandler handles fuel i (rest (effect ctx.state)) ({ctx with state := effect ctx.state}.record (.acted i))
  | fuel + 1, i, .next rest, ctx =>
    (next handles fuel (ctx.record (.called i))).bind fun (returned, after) =>
      if returned then runHandler handles fuel i (rest after.state) (after.record (.resumed i))
      else some (false, after)

end

/- The chain as it is meant: each handler around all later ones, which run at its
first Next or, where it never calls Next, after it. -/
structure Run (S : Type) where
  returned : Bool
  state : S
  log : List Event

def Run.after (events : List Event) (run : Run S) : Run S := {run with log := events ++ run.log}

@[simp] def within (i : Nat) (later : S → Run S) : Bool → Script S → S → Run S
  | true, .done, state => ⟨true, state, [.finished i]⟩
  | false, .done, state => (later state).after [.finished i]
  | _, .throw, state => ⟨false, state, [.threw i]⟩
  | passed, .act effect rest, state => (within i later passed (rest (effect state)) (effect state)).after [.acted i]
  | true, .next rest, state => (within i later true (rest state) state).after [.called i, .resumed i]
  | false, .next rest, state =>
    let run := later state
    if run.returned then
      (within i later true (rest run.state) run.state).after (.called i :: run.log ++ [.resumed i])
    else run.after [.called i]

def nest : Nat → List (Script S) → S → Run S
  | _, [], state => ⟨true, state, []⟩
  | i, handle :: rest, state => (within i (nest (i + 1) rest) false handle state).after [.started i]

def Event.isCall : Event → Bool
  | called _ => true
  | _ => false

def calls (log : List Event) : Nat := log.countP Event.isCall

section Refinement

theorem incrementSmall {i : Nat} (small : i + 1 < 2 ^ 64) : increment i = i + 1 := Nat.mod_eq_of_lt small

theorem incrementFresh (state : S) : increment (fresh state).curHandleIndex = 0 := by
  simp [increment, fresh]

@[simp] theorem callsAppend (a b : List Event) : calls (a ++ b) = calls a + calls b := List.countP_append

@[simp] theorem callsCons (e : Event) (log : List Event) :
    calls (e :: log) = (if e.isCall then 1 else 0) + calls log := by
  simp [calls, List.countP_cons, Nat.add_comm]

@[simp] theorem callsNil : calls [] = 0 := rfl

variable {handles : List (Script S)}

def proceed (handles : List (Script S)) (fuel : Nat) : Bool × HttpContext S → Option (Bool × HttpContext S)
  | (returned, after) =>
    if returned then loop handles fuel {after with curHandleIndex := increment after.curHandleIndex}
    else some (false, after)

theorem loopPast {fuel : Nat} {ctx : HttpContext S} (past : handles.length ≤ ctx.curHandleIndex) :
    loop handles (fuel + 1) ctx = some (true, ctx) := by
  rw [loop, List.getElem?_eq_none past]

theorem fuelAbove {fuel enough k : Nat} (plenty : fuel ≥ enough + k) : ∃ n, fuel = n + k ∧ n ≥ enough :=
  ⟨fuel - k, by omega, by omega⟩

theorem nextPast {fuel k : Nat} {state : S} {log : List Event} (past : handles.length ≤ k) (small : k + 1 < 2 ^ 64) :
    next handles (fuel + 2) ⟨k, state, log⟩ = some (true, ⟨k + 1, state, log⟩) := by
  rw [next, incrementSmall small, loopPast (by simp only; omega)]

theorem loopHandler {fuel : Nat} {ctx : HttpContext S} {handle : Script S}
    (current : handles[ctx.curHandleIndex]? = some handle) :
    loop handles (fuel + 1) ctx =
      (runHandler handles fuel ctx.curHandleIndex handle (ctx.record (.started ctx.curHandleIndex))).bind
        (proceed handles fuel) := by
  rw [loop, current]
  rfl

/- The outcome of a call is that of the nested run, and where it returns it leaves the index at `m`. -/
def Agrees (outcome : Option (Bool × HttpContext S)) (log : List Event) (run : Run S) (m : Nat) : Prop :=
  ∃ k, outcome = some (run.returned, ⟨k, run.state, log ++ run.log⟩) ∧ (run.returned = true → k = m)

theorem agreesAfter {outcome : Option (Bool × HttpContext S)} {log events : List Event} {run : Run S} {m : Nat}
    (agrees : Agrees outcome (log ++ events) run m) : Agrees outcome log (run.after events) m := by
  obtain ⟨k, eq, last⟩ := agrees
  exact ⟨k, by simpa [Run.after] using eq, last⟩

/- From the index `i` on, the loop does what the nested run does, given enough fuel. -/
def LoopAgrees (handles : List (Script S)) (i : Nat) (rest : List (Script S)) : Prop :=
  ∀ state log, i + calls (nest i rest state).log + rest.length < 2 ^ 64 →
    ∃ enough, ∀ fuel ≥ enough, Agrees (loop handles fuel ⟨i, state, log⟩) log (nest i rest state)
      (i + calls (nest i rest state).log + rest.length)

theorem handlerPassed {i : Nat} {later : S → Run S} (script : Script S) {k : Nat} (past : handles.length ≤ k)
    (state : S) (log : List Event) (bound : k + 1 + calls (within i later true script state).log < 2 ^ 64) :
    ∃ enough, ∀ fuel ≥ enough, ∀ more ≥ enough,
      Agrees ((runHandler handles fuel i script ⟨k, state, log⟩).bind (proceed handles more)) log
        (within i later true script state) (k + 1 + calls (within i later true script state).log) := by
  induction script generalizing k state log with
  | done =>
    refine ⟨1, fun fuel hf more hm => ⟨k + 1, ?_, fun _ => by simp [Event.isCall]⟩⟩
    obtain ⟨fuel, rfl⟩ := Nat.exists_eq_add_of_le' hf
    obtain ⟨more, rfl⟩ := Nat.exists_eq_add_of_le' hm
    have small : k + 1 < 2 ^ 64 := by omega
    rw [runHandler, Option.bind_some, proceed, if_pos rfl]
    simp only [HttpContext.record, incrementSmall small]
    rw [loopPast (by simp only; omega), within]
  | throw =>
    refine ⟨1, fun fuel hf more hm => ⟨k, ?_, nofun⟩⟩
    obtain ⟨fuel, rfl⟩ := Nat.exists_eq_add_of_le' hf
    rfl
  | act effect rest ih =>
    rw [within] at bound ⊢
    obtain ⟨enough, run⟩ := ih (effect state) past (effect state) (log ++ [Event.acted i])
      (by simpa [Run.after, Event.isCall] using bound)
    refine ⟨enough + 1, fun fuel hf more hm => ?_⟩
    obtain ⟨fuel, rfl, hf⟩ := fuelAbove hf
    have result := agreesAfter (run fuel (by omega) more (by omega))
    simpa [HttpContext.record, Run.after, Event.isCall] using result
  | next rest ih =>
    have same : within i later true (.next rest) state =
        (within i later true (rest state) state).after [Event.called i, Event.resumed i] := by rw [within]
    rw [same] at bound ⊢
    simp only [Run.after, callsAppend, callsCons, callsNil, Event.isCall, if_true, Bool.false_eq_true,
      if_false] at bound
    obtain ⟨enough, run⟩ := ih state (Nat.le_succ_of_le past) state (log ++ [Event.called i, Event.resumed i]) (by omega)
    refine ⟨enough + 3, fun fuel hf more hm => ?_⟩
    obtain ⟨fuel, rfl, hf⟩ := fuelAbove hf
    have result := agreesAfter (run (fuel + 2) (by omega) more (by omega))
    have small : k + 1 < 2 ^ 64 := by omega
    rw [runHandler, HttpContext.record, nextPast past small, Option.bind_some]
    simp only [if_true]
    have count : k + 1 + 1 + calls (within i later true (rest state) state).log =
        k + 1 + calls ((within i later true (rest state) state).after [.called i, .resumed i]).log := by
      simp only [Run.after, callsAppend, callsCons, callsNil, Event.isCall, if_true, Bool.false_eq_true, if_false]
      omega
    rw [← count]
    simpa [HttpContext.record] using result

theorem handlerFirst {i : Nat} {rest : List (Script S)} (place : i + 1 + rest.length = handles.length)
    (later : LoopAgrees handles (i + 1) rest) (script : Script S) (state : S) (log : List Event)
    (bound : i + 1 + calls (within i (nest (i + 1) rest) false script state).log + rest.length < 2 ^ 64) :
    ∃ enough, ∀ fuel ≥ enough, ∀ more ≥ enough,
      Agrees ((runHandler handles fuel i script ⟨i, state, log⟩).bind (proceed handles more)) log
        (within i (nest (i + 1) rest) false script state)
        (i + 1 + calls (within i (nest (i + 1) rest) false script state).log + rest.length) := by
  have small : i + 1 < 2 ^ 64 := by omega
  induction script generalizing state log with
  | done =>
    rw [within] at bound ⊢
    obtain ⟨enough, run⟩ := later state (log ++ [Event.finished i]) (by simpa [Run.after, Event.isCall] using bound)
    refine ⟨enough + 1, fun fuel hf more hm => ?_⟩
    obtain ⟨fuel, rfl, hf⟩ := fuelAbove hf
    have result := agreesAfter (run more (by omega))
    rw [runHandler, Option.bind_some, proceed, if_pos rfl]
    simpa [HttpContext.record, incrementSmall small, Run.after, Event.isCall] using result
  | throw =>
    refine ⟨1, fun fuel hf more hm => ⟨i, ?_, nofun⟩⟩
    obtain ⟨fuel, rfl⟩ := Nat.exists_eq_add_of_le' hf
    rfl
  | act effect rest' ih =>
    rw [within] at bound ⊢
    obtain ⟨enough, run⟩ := ih (effect state) (effect state) (log ++ [Event.acted i])
      (by simpa [Run.after, Event.isCall] using bound)
    refine ⟨enough + 1, fun fuel hf more hm => ?_⟩
    obtain ⟨fuel, rfl, hf⟩ := fuelAbove hf
    have result := agreesAfter (run fuel (by omega) more (by omega))
    simpa [HttpContext.record, Run.after, Event.isCall] using result
  | next rest' ih =>
    have same : within i (nest (i + 1) rest) false (.next rest') state =
        if (nest (i + 1) rest state).returned then
          (within i (nest (i + 1) rest) true (rest' (nest (i + 1) rest state).state)
            (nest (i + 1) rest state).state).after (Event.called i :: (nest (i + 1) rest state).log ++ [Event.resumed i])
        else (nest (i + 1) rest state).after [.called i] := by rw [within]
    rw [same] at bound ⊢
    cases returned : (nest (i + 1) rest state).returned with
    | false =>
      simp only [returned, Bool.false_eq_true, if_false] at bound ⊢
      obtain ⟨enough, run⟩ := later state (log ++ [Event.called i]) (by
        simp only [Run.after, callsAppend, callsCons, callsNil, Event.isCall, if_true] at bound
        omega)
      refine ⟨enough + 2, fun fuel hf more hm => agreesAfter ?_⟩
      obtain ⟨fuel, rfl, hf⟩ := fuelAbove hf
      obtain ⟨m, result, _⟩ := run fuel (by omega)
      refine ⟨m, ?_, fun h => absurd (h.symm.trans returned) (by decide)⟩
      rw [runHandler, HttpContext.record, next, incrementSmall small, result, returned]
      rfl
    | true =>
      simp only [returned, if_true] at bound ⊢
      simp only [Run.after, callsAppend, callsCons, callsNil, Event.isCall, if_true, Bool.false_eq_true,
        if_false] at bound
      obtain ⟨enough, run⟩ := later state (log ++ [Event.called i]) (by omega)
      have past : handles.length ≤ i + 1 + calls (nest (i + 1) rest state).log + rest.length := by omega
      obtain ⟨more', behind⟩ := @handlerPassed S handles i (nest (i + 1) rest)
        (rest' (nest (i + 1) rest state).state) _ past (nest (i + 1) rest state).state
        (log ++ (Event.called i :: (nest (i + 1) rest state).log ++ [Event.resumed i])) (by omega)
      refine ⟨enough + more' + 2, fun fuel hf more hm => ?_⟩
      obtain ⟨fuel, rfl, hf⟩ := fuelAbove hf
      obtain ⟨m, result, last⟩ := run fuel (by omega)
      have step := agreesAfter (behind (fuel + 1) (by omega) more (by omega))
      have count : i + 1 + calls ((within i (nest (i + 1) rest) true (rest' (nest (i + 1) rest state).state)
            (nest (i + 1) rest state).state).after (Event.called i :: (nest (i + 1) rest state).log ++ [Event.resumed i])).log +
          rest.length = i + 1 + calls (nest (i + 1) rest state).log + rest.length + 1 +
            calls (within i (nest (i + 1) rest) true (rest' (nest (i + 1) rest state).state)
              (nest (i + 1) rest state).state).log := by
        simp only [Run.after, callsAppend, callsCons, callsNil, Event.isCall, if_true, Bool.false_eq_true, if_false]
        omega
      rw [count, runHandler, HttpContext.record, next, incrementSmall small, result, last returned, returned]
      simp only [Option.bind_some, if_true]
      simpa only [HttpContext.record, List.append_assoc, List.cons_append, List.nil_append] using step

theorem loopAgrees {rest : List (Script S)} {i : Nat} (place : i + rest.length = handles.length)
    (tail : handles.drop i = rest) : LoopAgrees handles i rest := by
  induction rest generalizing i with
  | nil =>
    intro state log _
    have past : handles.length ≤ (⟨i, state, log⟩ : HttpContext S).curHandleIndex := by
      simpa using Nat.le_of_eq place.symm
    refine ⟨1, fun fuel hf => ⟨i, ?_, fun _ => by simp [nest]⟩⟩
    obtain ⟨fuel, rfl⟩ := Nat.exists_eq_add_of_le' hf
    rw [loopPast past, nest, List.append_nil]
  | cons handle rest ih =>
    intro state log bound
    have current : handles[i]? = some handle := by
      rw [← List.head?_drop, tail, List.head?_cons]
    have next : handles.drop (i + 1) = rest := by
      rw [← List.tail_drop, tail, List.tail_cons]
    simp only [List.length_cons] at place
    have count (events : List Event) : calls (.started i :: events) = calls events := by simp [Event.isCall]
    simp only [nest, Run.after, List.singleton_append, count, List.length_cons] at bound ⊢
    obtain ⟨enough, run⟩ := handlerFirst (by omega) (ih (by omega) next) handle state (log ++ [Event.started i]) (by omega)
    refine ⟨enough + 1, fun fuel hf => ?_⟩
    obtain ⟨fuel, rfl, hf⟩ := fuelAbove hf
    obtain ⟨m, result, last⟩ := run fuel (by omega) fuel (by omega)
    refine ⟨m, ?_, fun returned => (last returned).trans (by omega)⟩
    rw [loopHandler current]
    simpa [HttpContext.record] using result

theorem nextAgrees (handles : List (Script S)) (state : S)
    (bound : calls (nest 0 handles state).log + handles.length < 2 ^ 64) :
    ∃ enough, ∀ fuel ≥ enough, ∃ m, next handles fuel (fresh state) =
      some ((nest 0 handles state).returned, ⟨m, (nest 0 handles state).state, (nest 0 handles state).log⟩) := by
  obtain ⟨enough, run⟩ := loopAgrees (Nat.zero_add _) handles.drop_zero state [] (by omega)
  refine ⟨enough + 1, fun fuel hf => ?_⟩
  obtain ⟨fuel, rfl, hf⟩ := fuelAbove hf
  obtain ⟨m, result, _⟩ := run fuel (by omega)
  refine ⟨m, ?_⟩
  rw [next, incrementFresh]
  exact result

end Refinement

section Brackets

def Event.startOf : Event → Option Nat
  | started i => some i
  | _ => none

inductive Tail (i : Nat) : List Event → Bool → Prop where
  | finished : Tail i [.finished i] true
  | threw : Tail i [.threw i] false
  | acted {log ok} (rest : Tail i log ok) : Tail i (.acted i :: log) ok
  | called {log ok} (rest : Tail i log ok) : Tail i (.called i :: .resumed i :: log) ok

inductive Around (i : Nat) (later : List Event → Bool → Prop) : List Event → Bool → Prop where
  | silent {log ok} (behind : later log ok) : Around i later (.finished i :: log) ok
  | threw : Around i later [.threw i] false
  | acted {log ok} (rest : Around i later log ok) : Around i later (.acted i :: log) ok
  | failed {log} (inside : later log false) : Around i later (.called i :: log) false
  | passed {log tail ok} (inside : later log true) (rest : Tail i tail ok) :
      Around i later (.called i :: (log ++ .resumed i :: tail)) ok

/- The logs of the chain from the handler `i` on, `m` handlers in all. -/
def Brackets : Nat → Nat → List Event → Bool → Prop
  | 0, _, log, ok => log = [] ∧ ok = true
  | m + 1, i, log, ok => ∃ rest, log = .started i :: rest ∧ Around i (Brackets m (i + 1)) rest ok

theorem withinTail (i : Nat) (later : S → Run S) (script : Script S) (state : S) :
    Tail i (within i later true script state).log (within i later true script state).returned := by
  induction script generalizing state with
  | done => exact .finished
  | throw => exact .threw
  | act effect rest ih => exact .acted (ih _ _)
  | next rest ih =>
    rw [within]
    exact .called (ih _ _)

theorem withinAround (i : Nat) {later : S → Run S} {P : List Event → Bool → Prop}
    (runs : ∀ state, P (later state).log (later state).returned) (script : Script S) (state : S) :
    Around i P (within i later false script state).log (within i later false script state).returned := by
  induction script generalizing state with
  | done => exact .silent (runs state)
  | throw => exact .threw
  | act effect rest ih => exact .acted (ih _ _)
  | next rest ih =>
    rw [within]
    cases returned : (later state).returned with
    | false =>
      have inside := runs state
      rw [returned] at inside
      simpa [Run.after, returned] using @Around.failed i P _ inside
    | true =>
      have inside := runs state
      rw [returned] at inside
      simpa [Run.after] using Around.passed inside (withinTail i later (rest (later state).state) (later state).state)

theorem nestBrackets (i : Nat) (handles : List (Script S)) (state : S) :
    Brackets handles.length i (nest i handles state).log (nest i handles state).returned := by
  induction handles generalizing i state with
  | nil => exact ⟨rfl, rfl⟩
  | cons handle rest ih => exact ⟨_, rfl, withinAround i (fun s => ih (i + 1) s) handle state⟩

def Follows (a b : Event) : Prop :=
  match a with
  | .threw _ => False
  | .resumed i => b.handler ≤ i
  | _ => True

/- What every bracketed log of the handlers from `lo` up to `n` satisfies. -/
structure Sound (lo n : Nat) (starts : List Nat) (log : List Event) (ok : Bool) : Prop where
  inside : ∀ e ∈ log, lo ≤ e.handler ∧ e.handler < n
  ordered : log.Pairwise Follows
  started : log.filterMap Event.startOf <+: starts
  all : ok = true → log.filterMap Event.startOf = starts
  finishes : ok = true → ∀ j, lo ≤ j → j < n → .finished j ∈ log
  resumes : ∀ j k, .resumed j ∈ log → j < k → k < n → .finished k ∈ log
  successor : ∀ j, j + 1 < n → .finished j ∈ log → .called j ∉ log → [.finished j, .started (j + 1)] <:+: log
  quiet : ok = true ↔ ∀ j, .threw j ∉ log

theorem tailOwn {i : Nat} {log : List Event} {ok : Bool} (tail : Tail i log ok) :
    (∀ e ∈ log, e.handler = i ∧ e.startOf = none) ∧ log.Pairwise Follows ∧ (ok = true → .finished i ∈ log) ∧
      (ok = true ↔ ∀ j, .threw j ∉ log) := by
  induction tail with
  | finished => simp [Event.handler, Event.startOf]
  | threw => simp [Event.handler, Event.startOf]
  | acted rest ih =>
    obtain ⟨own, ordered, finishes, quiet⟩ := ih
    refine ⟨?_, List.pairwise_cons.mpr ⟨fun _ _ => trivial, ordered⟩, fun h => List.mem_cons_of_mem _ (finishes h),
      by simp [quiet]⟩
    simpa [Event.handler, Event.startOf] using own
  | called rest ih =>
    obtain ⟨own, ordered, finishes, quiet⟩ := ih
    refine ⟨by simpa [Event.handler, Event.startOf] using own, ?_, fun h => by simp [finishes h], by simp [quiet]⟩
    refine List.pairwise_cons.mpr ⟨fun _ _ => trivial, List.pairwise_cons.mpr ⟨fun e he => ?_, ordered⟩⟩
    exact Nat.le_of_eq (own e he).1

theorem soundCons {lo n : Nat} {starts : List Nat} {log : List Event} {ok : Bool} (sound : Sound lo n starts log ok)
    (below : lo < n) {e : Event} (own : e = .acted lo ∨ e = .started lo) :
    Sound lo n (e.startOf.toList ++ starts) (e :: log) ok := by
  obtain ⟨inside, ordered, started, all, finishes, resumes, successor, quiet⟩ := sound
  have handler : e.handler = lo := by rcases own with rfl | rfl <;> rfl
  have filter : (e :: log).filterMap Event.startOf = e.startOf.toList ++ log.filterMap Event.startOf := by
    rcases own with rfl | rfl <;> rfl
  refine ⟨?_, ?_, ?_, ?_, fun h j lower upper => List.mem_cons_of_mem _ (finishes h j lower upper), ?_, ?_, ?_⟩
  · rw [List.forall_mem_cons]
    exact ⟨by omega, inside⟩
  · refine List.pairwise_cons.mpr ⟨fun b _ => ?_, ordered⟩
    rcases own with rfl | rfl <;> trivial
  · rw [filter]
    exact List.prefix_append_right_inj _ |>.mpr started
  · intro h
    rw [filter, all h]
  · intro j k resumed lower upper
    have resumed : .resumed j ∈ log := by rcases own with rfl | rfl <;> simpa using resumed
    exact List.mem_cons_of_mem _ (resumes j k resumed lower upper)
  · intro j next finished called
    have finished : .finished j ∈ log := by rcases own with rfl | rfl <;> simpa using finished
    exact List.infix_cons (successor j next finished fun h => called (List.mem_cons_of_mem _ h))
  · rcases own with rfl | rfl <;> simpa using quiet

theorem aroundSound {i n : Nat} {starts : List Nat} {P : List Event → Bool → Prop} {log : List Event} {ok : Bool}
    (below : i < n) (later : ∀ log ok, P log ok → Sound (i + 1) n starts log ok ∧
      (i + 1 < n → ∃ rest, log = .started (i + 1) :: rest))
    (around : Around i P log ok) : Sound i n starts log ok := by
  induction around with
  | @silent log ok behind =>
    obtain ⟨⟨inside, ordered, started, all, finishes, resumes, successor, quiet⟩, opens⟩ := later _ _ behind
    refine ⟨?_, List.pairwise_cons.mpr ⟨fun _ _ => trivial, ordered⟩, started, all, fun h j lower upper => ?_,
      fun j k resumed lower upper => ?_, fun j next finished called => ?_, by simpa using quiet⟩
    · rw [List.forall_mem_cons]
      exact ⟨⟨Nat.le_refl i, below⟩, fun e he => ⟨Nat.le_of_succ_le (inside e he).1, (inside e he).2⟩⟩
    · rcases Nat.eq_or_lt_of_le lower with rfl | more
      · exact List.mem_cons_self
      · exact List.mem_cons_of_mem _ (finishes h j more upper)
    · exact List.mem_cons_of_mem _ (resumes j k (by simpa using resumed) lower upper)
    · by_cases own : j = i
      · subst own
        obtain ⟨rest, rfl⟩ := opens next
        exact ⟨[], rest, rfl⟩
      · exact List.infix_cons (successor j next (by simpa [own] using finished) fun h =>
          called (List.mem_cons_of_mem _ h))
  | threw =>
    refine ⟨by simpa [Event.handler] using below, List.pairwise_singleton _ _, List.nil_prefix, nofun, nofun,
      by simp, by simp, by simp⟩
  | acted rest ih => simpa [Event.startOf] using soundCons ih below (.inl rfl)
  | @failed log behind =>
    obtain ⟨⟨inside, ordered, started, all, finishes, resumes, successor, quiet⟩, _⟩ := later _ _ behind
    refine ⟨?_, List.pairwise_cons.mpr ⟨fun _ _ => trivial, ordered⟩, started, nofun, nofun,
      fun j k resumed lower upper => ?_, fun j next finished called => ?_, by simpa using quiet⟩
    · rw [List.forall_mem_cons]
      exact ⟨⟨Nat.le_refl i, below⟩, fun e he => ⟨Nat.le_of_succ_le (inside e he).1, (inside e he).2⟩⟩
    · exact List.mem_cons_of_mem _ (resumes j k (by simpa using resumed) lower upper)
    · exact List.infix_cons (successor j next (by simpa using finished) fun h => called (List.mem_cons_of_mem _ h))
  | @passed log tail ok behind rest =>
    obtain ⟨⟨inside, ordered, started, all, finishes, resumes, successor, quiet⟩, _⟩ := later _ _ behind
    obtain ⟨own, tailOrdered, last, tailQuiet⟩ := tailOwn rest
    have silent : tail.filterMap Event.startOf = [] := List.filterMap_eq_nil_iff.mpr fun e he => (own e he).2
    have starts' : (Event.called i :: (log ++ .resumed i :: tail)).filterMap Event.startOf = starts := by
      have here : (Event.called i :: (log ++ .resumed i :: tail)).filterMap Event.startOf =
          (log ++ .resumed i :: tail).filterMap Event.startOf := rfl
      have there : (Event.resumed i :: tail).filterMap Event.startOf = tail.filterMap Event.startOf := rfl
      rw [here, List.filterMap_append, there, silent, List.append_nil, all rfl]
    have elsewhere (j : Nat) (other : j ≠ i) (e : Event) (he : e.handler = j) : e ∉ tail := fun h =>
      other (he.symm.trans (own e h).1)
    refine ⟨?_, List.pairwise_cons.mpr ⟨fun _ _ => trivial, ?_⟩, starts' ▸ List.prefix_rfl, fun _ => starts',
      fun h j lower upper => ?_, fun j k resumed lower upper => ?_, fun j next finished called => ?_, ?_⟩
    · intro e he
      simp only [List.mem_cons, List.mem_append] at he
      rcases he with rfl | he | rfl | he
      · exact ⟨Nat.le_refl i, below⟩
      · exact ⟨Nat.le_of_succ_le (inside e he).1, (inside e he).2⟩
      · exact ⟨Nat.le_refl i, below⟩
      · exact (own e he).1 ▸ ⟨Nat.le_refl _, (own e he).1 ▸ below⟩
    · refine List.pairwise_append.mpr ⟨ordered, List.pairwise_cons.mpr ⟨fun b hb => Nat.le_of_eq (own b hb).1,
        tailOrdered⟩, fun a ha b hb => ?_⟩
      have outer : b.handler = i := by
        rcases List.mem_cons.mp hb with rfl | hb
        · rfl
        · exact (own b hb).1
      cases a with
      | threw j => exact quiet.mp rfl j ha
      | resumed j =>
        have inner : i + 1 ≤ j := (inside _ ha).1
        exact Nat.le_of_eq outer |>.trans (by omega)
      | started | acted | called | finished => trivial
    · rcases Nat.eq_or_lt_of_le lower with rfl | more
      · simp [last h]
      · simp [finishes rfl j more upper]
    · have found : .finished k ∈ log := by
        by_cases mine : j = i
        · exact finishes rfl k (by omega) upper
        · refine resumes j k ?_ lower upper
          have := elsewhere j mine (.resumed j) rfl
          simpa [mine, this] using resumed
      simp [found]
    · by_cases mine : j = i
      · simp [mine] at called
      · have found : .finished j ∈ log := by
          have := elsewhere j mine (.finished j) rfl
          simpa [this] using finished
        have between := successor j next found fun h => called (by simp [h])
        exact List.infix_cons (between.trans (List.prefix_append _ _).isInfix)
    · simp only [List.mem_cons, List.mem_append, reduceCtorEq, false_or, not_or, tailQuiet]
      exact ⟨fun h j => ⟨quiet.mp rfl j, h j⟩, fun h j => (h j).2⟩

theorem bracketsSound {m i : Nat} {log : List Event} {ok : Bool} (brackets : Brackets m i log ok) :
    Sound i (i + m) (List.range' i m) log ok := by
  induction m generalizing i log ok with
  | zero =>
    obtain ⟨rfl, rfl⟩ := brackets
    exact ⟨by simp, .nil, List.nil_prefix, fun _ => rfl, fun _ j lower upper => by omega, by simp, by simp, by simp⟩
  | succ m ih =>
    obtain ⟨rest, rfl, around⟩ := brackets
    have sound := @aroundSound i (i + (m + 1)) (List.range' (i + 1) m) (Brackets m (i + 1)) _ _ (by omega)
      (fun log ok inner => ⟨by
        have := ih inner
        rwa [show i + 1 + m = i + (m + 1) by omega] at this, fun more => by
        cases m with
        | zero => omega
        | succ m =>
          obtain ⟨rest, rfl, _⟩ := inner
          exact ⟨rest, rfl⟩⟩) around
    exact soundCons sound (by omega) (.inr rfl)

end Brackets

/- One run of a chain of `n` handlers: each is started once, in order; a resumed
handler finds all later ones finished and is followed by none of their events; a
handler that never calls Next is followed by its successor; and an exception is
the last event. -/
structure Bracketed (n : Nat) (log : List Event) : Prop where
  once : (∀ j, .threw j ∉ log) → log.filterMap Event.startOf = List.range n
  inOrder : log.filterMap Event.startOf <+: List.range n
  innerFirst : ∀ i before after, log = before ++ .resumed i :: after →
    (∀ j, i < j → j < n → .finished j ∈ before) ∧ ∀ e ∈ after, e.handler ≤ i
  successor : ∀ i, i + 1 < n → .finished i ∈ log → .called i ∉ log → [.finished i, .started (i + 1)] <:+: log
  thrown : ∀ i before after, log = before ++ .threw i :: after → after = []

theorem soundBracketed {n : Nat} {log : List Event} {ok : Bool} (sound : Sound 0 n (List.range' 0 n) log ok) :
    Bracketed n log where
  once quiet := by rw [sound.all (sound.quiet.mpr quiet), List.range_eq_range']
  inOrder := List.range_eq_range' ▸ sound.started
  innerFirst i before after eq := by
    have ordered := sound.ordered
    rw [eq] at ordered
    obtain ⟨_, behind, across⟩ := List.pairwise_append.mp ordered
    have later := (List.pairwise_cons.mp behind).1
    refine ⟨fun j lower upper => ?_, later⟩
    have finished := sound.resumes i j (eq ▸ by simp) lower upper
    rw [eq] at finished
    rcases List.mem_append.mp finished with found | found
    · exact found
    · have impossible : j ≤ i := later _ ((List.mem_cons.mp found).resolve_left (by simp))
      omega
  successor := sound.successor
  thrown i before after eq := by
    have ordered := sound.ordered
    rw [eq] at ordered
    have later := (List.pairwise_cons.mp (List.pairwise_append.mp ordered).2.1).1
    exact List.eq_nil_iff_forall_not_mem.mpr fun e he => later e he

def nexts : Nat → Script S
  | 0 => .done
  | k + 1 => .next fun _ => nexts k

/- A call of Next on a fresh context returns with a bracketed log, whatever the
handlers do, as long as the index, which every call of Next and every handler
advances once, does not wrap to zero a second time. -/
theorem chainBracketed (handles : List (Script S)) (state : S)
    (bound : calls (nest 0 handles state).log + handles.length < 2 ^ 64) :
    ∃ enough, ∀ fuel ≥ enough, ∃ returned ctx, next handles fuel (fresh state) = some (returned, ctx) ∧
      (returned = true ↔ ∀ j, .threw j ∉ ctx.log) ∧ ctx.state = (nest 0 handles state).state ∧
      ctx.log = (nest 0 handles state).log ∧ Bracketed handles.length ctx.log := by
  have sound := bracketsSound (nestBrackets 0 handles state)
  rw [Nat.zero_add] at sound
  obtain ⟨enough, run⟩ := nextAgrees handles state bound
  refine ⟨enough, fun fuel hf => ?_⟩
  obtain ⟨m, result⟩ := run fuel hf
  exact ⟨_, _, result, sound.quiet, rfl, rfl, soundBracketed sound⟩

theorem twiceNested : ∃ enough, ∀ fuel ≥ enough, ∃ returned ctx,
    next [nexts 2, nexts 0] fuel (fresh ()) = some (returned, ctx) ∧
    ctx.log = [.started 0, .called 0, .started 1, .finished 1, .resumed 0, .called 0, .resumed 0, .finished 0] := by
  obtain ⟨enough, run⟩ := chainBracketed [nexts 2, nexts 0] () (by decide)
  refine ⟨enough, fun fuel hf => ?_⟩
  obtain ⟨returned, ctx, result, _, _, log, _⟩ := run fuel hf
  exact ⟨returned, ctx, result, log⟩

def Quiet : Script S → Prop
  | .done => True
  | .throw => False
  | .act _ rest | .next rest => ∀ state, Quiet (rest state)

theorem nextsQuiet (k : Nat) : Quiet (nexts k : Script S) := by
  induction k with
  | zero => trivial
  | succ k ih => exact fun _ => ih

theorem nextsWrap (times : Nat) (full : times = 2 ^ 64) (fuel k : Nat) (some' : 1 ≤ k) (most : k ≤ times)
    (state : S) (log : List Event) :
    runHandler [nexts times] fuel 0 (nexts k) ⟨times - k, state, log⟩ = none := by
  induction fuel using Nat.strongRecOn generalizing k state log with
  | ind fuel ih =>
    obtain ⟨k, rfl⟩ := Nat.exists_eq_add_of_le' some'
    match fuel with
    | 0 => rfl
    | 1 => rfl
    | 2 => rfl
    | fuel + 3 =>
      rw [nexts, runHandler, next]
      by_cases last : k = 0
      · have wrap : increment (times - (k + 1)) = 0 := by
          rw [increment, last, full, Nat.sub_add_cancel (Nat.one_le_two_pow), Nat.mod_self]
        have again := ih fuel (by omega) times (by omega) (Nat.le_refl _) state (log ++ [Event.called 0] ++ [Event.started 0])
        rw [Nat.sub_self] at again
        simp only [HttpContext.record, wrap]
        rw [@loopHandler _ _ _ _ (nexts times) rfl]
        simp only [HttpContext.record, again, Option.bind_none]
      · have small : times - (k + 1) + 1 < 2 ^ 64 := by omega
        have further : times - (k + 1) + 1 = times - k := by omega
        have onward := ih (fuel + 2) (by omega) k (by omega) (by omega) state (log ++ [Event.called 0] ++ [Event.resumed 0])
        have pastEnd : [nexts (S := S) times].length ≤ times - k := by
          simp only [List.length_singleton]
          omega
        simp only [HttpContext.record, incrementSmall small, further]
        rw [loopPast pastEnd]
        simpa [HttpContext.record] using onward

/- A handler that awaits Next so often makes the depth wrap, and the chain has no end. -/
theorem nextNeverReturns :
    ¬ ∀ (handles : List (Script Unit)), (∀ handle ∈ handles, Quiet handle) →
      ∃ fuel returned ctx, next handles fuel (fresh ()) = some (returned, ctx) ∧
        ctx.log.filterMap Event.startOf = List.range handles.length := by
  intro all
  obtain ⟨times, full⟩ : ∃ times, times = 2 ^ 64 := ⟨_, rfl⟩
  obtain ⟨fuel, returned, ctx, result, _⟩ := all [nexts times] fun handle mem =>
    List.mem_singleton.mp mem ▸ nextsQuiet times
  match fuel with
  | 0 => exact absurd result (by simp [next])
  | 1 => exact absurd result (by simp [next, loop])
  | fuel + 2 =>
    have wraps := nextsWrap times full fuel times (by omega) (Nat.le_refl _) () [.started 0]
    rw [Nat.sub_self] at wraps
    rw [next, incrementFresh, @loopHandler _ _ _ _ (nexts times) rfl] at result
    simp [HttpContext.record, fresh, wraps] at result

end Uco.MiddlewareChain
