import Uco.HeapOrder
import Uco.TimerHeap
import Mathlib.Data.Int.Order.Basic
import Mathlib.Data.List.Induction

/-! The timer heap of one thread over whole runs: timer_push and timer_remove in any order, and
the loop of timer_on_fire with whatever the coroutines it resumes push and remove in between. -/
namespace Uco.TimerRun
open TimerHeap HeapOrder

section Model
variable {N : Type*} [DecidableEq N]

/- `firing` is the time that a timer_on_fire in progress has read. -/
structure Env (N : Type*) where
  timers : Timers N
  firing : Option Int

/- The calls, and what the loop of timer_on_fire does: it pops a node or it ends. -/
inductive Event (N : Type*) where
  | push (n : N) (deadline : Int)
  | remove (n : N)
  | fire (now : Int)
  | pop (n : N)
  | done
  deriving DecidableEq

def due (t : Timers N) (now : Int) : Option N :=
  t.heap.head?.filter fun front => t.deadline front ≤ now

def Env.step (e : Env N) : Event N → Option (Env N)
  | .push n deadline =>
    if e.timers.inHeap n then none
    else some {e with timers := {e.timers with deadline := Function.update e.timers.deadline n deadline}.push n}
  | .remove n => some {e with timers := e.timers.remove n}
  | .fire now => if e.firing = none then some {e with firing := some now} else none
  | .pop n =>
    match e.firing with
    | none => none
    | some now => if due e.timers now = some n then some {e with timers := e.timers.popFront n} else none
  | .done =>
    match e.firing with
    | none => none
    | some now => if due e.timers now = none then some {e with firing := none} else none

def Env.start : Env N := ⟨⟨[],fun _ => 0,fun _ => 0,fun _ => false⟩,none⟩

def run (trace : List (Event N)) : Option (Env N) := trace.foldlM Env.step .start

end Model

section Purpose
variable {N : Type*}

def key (t : Timers N) (k : ℕ) : Option Int := t.heap[k]?.map t.deadline

structure MinHeap (t : Timers N) : Prop where
  valid : Valid t
  ordered : Ordered (key t)

def Standing (trace : List (Event N)) (n : N) (deadline : Int) : Prop :=
  ∃ before after, trace = before ++ Event.push n deadline :: after ∧ ∀ e ∈ after, e ≠ Event.remove n ∧ e ≠ Event.pop n

structure Fired (before : List (Event N)) (now : Int) (during : List (Event N)) : Prop where
  popped : ∀ front n rest, during = front ++ Event.pop n :: rest →
    ∃ deadline, Standing (before ++ Event.fire now :: front) n deadline ∧ deadline ≤ now
  left : ∀ n deadline, Standing (before ++ Event.fire now :: during ++ [Event.done]) n deadline → now < deadline

end Purpose

section Sifting
variable {N : Type*} {t : Timers N} {i : ℕ}

theorem keySome {k : ℕ} {x : N} (here : t.heap[k]? = some x) : key t k = some (t.deadline x) := by
  rw [key, here, Option.map_some]

theorem keyNone {k : ℕ} (out : t.heap.length ≤ k) : key t k = none := by
  rw [key, List.getElem?_eq_none out, Option.map_none]

theorem keyIs {k : ℕ} : (key t k).isSome ↔ k < t.heap.length := by
  simp [key]

theorem beforeKeys {c b : ℕ} (due : t.before c b = true) :
    ∃ x y, key t c = some x ∧ key t b = some y ∧ x < y := by
  unfold Timers.before at due
  split at due
  · rename_i x y hc hb
    exact ⟨_,_,keySome hc,keySome hb,of_decide_eq_true due⟩
  · cases due

theorem notBefore {c b : ℕ} (later : t.before c b = false) : Below (key t) b c := by
  intro y x keyB keyC
  obtain ⟨_,hb,rfl⟩ := Option.map_eq_some_iff.mp keyB
  obtain ⟨_,hc,rfl⟩ := Option.map_eq_some_iff.mp keyC
  rw [Timers.before, hb, hc] at later
  exact not_lt.mp (of_decide_eq_false later)

theorem beforeBelow {c b : ℕ} (due : t.before c b = true) : Below (key t) c b := by
  obtain ⟨x,y,hc,hb,lt⟩ := beforeKeys due
  exact belowOf hc hb lt.le

theorem bestLeast (present : (key t i).isSome) : ∀ k, Child i k → Below (key t) (t.best i) k := by
  have split : ∀ b, Below (key t) b (2 * i + 1) → Below (key t) b (2 * i + 2) → ∀ k, Child i k → Below (key t) b k := by
    rintro b left right k (rfl | rfl)
    · exact left
    · exact right
  unfold Timers.best
  cases left : t.before (2 * i + 1) i with
  | true =>
    simp only [left, if_true]
    cases right : t.before (2 * i + 1 + 1) (2 * i + 1) with
    | true =>
      simp only [if_true]
      exact split _ (beforeBelow right) (belowRefl _ _)
    | false =>
      simp only [Bool.false_eq_true, if_false]
      exact split _ (belowRefl _ _) (notBefore right)
  | false =>
    simp only [left, Bool.false_eq_true, if_false]
    cases right : t.before (2 * i + 1 + 1) i with
    | true =>
      simp only [if_true]
      exact split _ (belowTrans (beforeBelow right) (notBefore left) present) (belowRefl _ _)
    | false =>
      simp only [Bool.false_eq_true, if_false]
      exact split _ (notBefore left) (notBefore right)

theorem bestChild (other : t.best i ≠ i) :
    Child i (t.best i) ∧ ∃ x y, key t (t.best i) = some x ∧ key t i = some y ∧ x < y := by
  unfold Timers.best at other ⊢
  cases left : t.before (2 * i + 1) i with
  | true =>
    obtain ⟨x,y,hx,hy,lt⟩ := beforeKeys left
    simp only [left, if_true]
    cases right : t.before (2 * i + 1 + 1) (2 * i + 1) with
    | true =>
      obtain ⟨z,x',hz,hx',lt'⟩ := beforeKeys right
      cases hx.symm.trans hx'
      simp only [if_true]
      exact ⟨.inr rfl,z,y,hz,hy,lt'.trans lt⟩
    | false =>
      simp only [Bool.false_eq_true, if_false]
      exact ⟨.inl rfl,x,y,hx,hy,lt⟩
  | false =>
    simp only [left, Bool.false_eq_true, if_false] at other ⊢
    cases right : t.before (2 * i + 1 + 1) i with
    | true =>
      obtain ⟨z,y,hz,hy,lt⟩ := beforeKeys right
      simp only [if_true]
      exact ⟨.inr rfl,z,y,hz,hy,lt⟩
    | false => simp [right] at other

variable [DecidableEq N]

theorem exchangeKey {a b : ℕ} {x y : N} (ha : t.heap[a]? = some x) (hb : t.heap[b]? = some y) :
    key (t.exchange a b x y) = key t ∘ Equiv.swap a b := by
  funext k
  have get := exchangeGet ha hb k
  rw [key, get, Function.comp_apply, key]
  by_cases atB : k = b
  · subst atB
    rw [if_pos rfl, Equiv.swap_apply_right, ha]
    rfl
  · by_cases atA : k = a
    · subst atA
      rw [if_neg atB, if_pos rfl, Equiv.swap_apply_left, hb]
      rfl
    · rw [if_neg atB, if_neg atA, Equiv.swap_apply_of_ne_of_ne atA atB]
      rfl

theorem siftUpOrdered (t : Timers N) (i : ℕ) (up : UpOrder (key t) i) : Ordered (key (siftUp t i).1) := by
  fun_induction siftUp t i with
  | case1 t i pos parent x y hy hx le =>
    refine upOrdered up fun p child => ?_
    obtain rfl := childOne child (childParent pos)
    exact belowOf (keySome hx) (keySome hy) le
  | case2 t i pos parent x y hy hx late ih =>
    refine ih ?_
    rw [exchangeKey hx hy]
    exact upSwap up (childParent pos) (keySome hx) (keySome hy) (not_le.mp late)
  | case3 t i pos parent missing =>
    refine upOrdered up fun p child => ?_
    obtain rfl := childOne child (childParent pos)
    intro x y hx hy
    obtain ⟨a,ha,-⟩ := Option.map_eq_some_iff.mp hx
    obtain ⟨b,hb,-⟩ := Option.map_eq_some_iff.mp hy
    exact absurd hb (missing a b ha)
  | case4 t i root =>
    refine upOrdered up fun p child => ?_
    have := childLt child
    omega

theorem siftDownOrder (t : Timers N) (i : ℕ) (gap : Gap (key t) i) (present : (key t i).isSome) :
    UpOrder (key (siftDown t i).1) (siftDown t i).2 ∧ (Above (key t) i → Ordered (key (siftDown t i).1)) := by
  fun_induction siftDown t i with
  | case1 t i best stop =>
    have up := gapUp gap fun k child => by
      have least := bestLeast present k child
      rwa [show t.best i = i from stop] at least
    exact ⟨up,upOrdered up⟩
  | case2 t i best go x y hy hx ih =>
    obtain ⟨child,a,b,ha,hb,lt⟩ := bestChild go
    have gap' : Gap (key (t.exchange best i x y)) best := by
      rw [exchangeKey hx hy]
      exact gapSwap gap child (bestLeast present)
    have above : Above (key (t.exchange best i x y)) best := by
      rw [exchangeKey hx hy]
      exact aboveSwap child ha hb lt
    have there : (key (t.exchange best i x y) best).isSome := by
      rw [exchangeKey hx hy, Function.comp_apply, Equiv.swap_apply_left, hb]
      rfl
    obtain ⟨up,ordered⟩ := ih gap' there
    exact ⟨up,fun _ => ordered above⟩
  | case3 t i best go missing =>
    obtain ⟨child,a,b,ha,hb,lt⟩ := bestChild go
    obtain ⟨x,hx,-⟩ := Option.map_eq_some_iff.mp ha
    obtain ⟨y,hy,-⟩ := Option.map_eq_some_iff.mp hb
    exact absurd hy (missing x y hx)

end Sifting

section Operations
variable {N : Type*} [DecidableEq N] {t : Timers N} {n : N}

omit [DecidableEq N] in
theorem frontLeast (heap : MinHeap t) {front : N} (first : t.heap[0]? = some front) :
    ∀ m ∈ t.heap, t.deadline front ≤ t.deadline m := by
  intro m mem
  obtain ⟨k,here⟩ := List.mem_iff_getElem?.mp mem
  refine rootLeast heap.ordered (fun k there j less => ?_) k _ _ (keySome first) (keySome here)
  rw [keyIs] at there ⊢
  omega

theorem deadlineMinHeap (heap : MinHeap t) (out : n ∉ t.heap) (deadline : Int) :
    MinHeap {t with deadline := Function.update t.deadline n deadline} := by
  refine ⟨⟨heap.valid.indexed,heap.valid.member⟩,fun p k child x y hx hy => ?_⟩
  have same : ∀ {k : ℕ} {x : Int}, key {t with deadline := Function.update t.deadline n deadline} k = some x →
      key t k = some x := by
    intro k x here
    obtain ⟨z,at',rfl⟩ := Option.map_eq_some_iff.mp here
    have other : z ≠ n := fun eq => out (eq ▸ List.mem_of_getElem? at')
    rw [keySome (t := t) at']
    exact congrArg some (Function.update_of_ne other ..).symm
  exact heap.ordered p k child x y (same hx) (same hy)

theorem pushMinHeap (heap : MinHeap t) (absent : t.inHeap n = false) : MinHeap (t.push n) := by
  refine ⟨(pushValid heap.valid absent).1,?_⟩
  let added : Timers N := {t with inHeap := Function.update t.inHeap n true, heap := t.heap ++ [n]}
  have old : ∀ {k : ℕ} {x : Int}, k ≠ t.heap.length → key added k = some x → key t k = some x := by
    intro k x other here
    obtain ⟨z,at',rfl⟩ := Option.map_eq_some_iff.mp here
    have bound := (List.getElem?_eq_some_iff.mp at').1
    simp only [added, List.length_append, List.length_singleton] at bound
    rw [show added.heap = t.heap ++ [n] from rfl, List.getElem?_append_left (by omega)] at at'
    exact keySome at'
  have beyond : ∀ k, t.heap.length < k → key added k = none := fun k far => keyNone (by simp [added]; omega)
  have up : UpOrder (key added) t.heap.length := by
    refine ⟨fun p k child other x y hx hy => ?_,fun p k _ child x y _ hy => ?_⟩
    · have low := childLt child
      by_cases last : p = t.heap.length
      · rw [beyond k (by omega)] at hy
        cases hy
      · exact heap.ordered p k child x y (old last hx) (old other hy)
    · rw [beyond k (childLt child)] at hy
      cases hy
  exact siftUpOrdered added t.heap.length up

theorem unlinkDeadline (t : Timers N) (i : ℕ) (n : N) : (t.unlink i n).deadline = t.deadline := by
  unfold Timers.unlink
  split <;> rfl

theorem unlinkKey {z : N} {i : ℕ} (last : t.heap[t.heap.length - 1]? = some z) (k : ℕ) :
    key (t.unlink i n) k =
      if k < t.heap.length - 1 then if k = i then some (t.deadline z) else key t k else none := by
  rw [key, unlinkGet last, unlinkDeadline]
  split
  · split <;> rfl
  · rfl

theorem unlinkGap (heap : MinHeap t) {i : ℕ} (here : t.heap[i]? = some n) : Gap (key (t.unlink i n)) i := by
  have size := (List.getElem?_eq_some_iff.mp here).1
  obtain ⟨z,last⟩ : ∃ z, t.heap[t.heap.length - 1]? = some z := ⟨_,List.getElem?_eq_getElem (by omega)⟩
  have old : ∀ {k : ℕ} {x : Int}, k ≠ i → key (t.unlink i n) k = some x → key t k = some x := by
    intro k x other there
    rw [unlinkKey last] at there
    split at there
    · simpa only [other, if_false] using there
    · cases there
  constructor
  · intro p k child pi ki x y hx hy
    exact heap.ordered p k child x y (old pi hx) (old ki hy)
  · intro p k above below x y hx hy
    have high := childLt above
    have low := childLt below
    exact belowTrans (heap.ordered p i above) (heap.ordered i k below) (by rw [keySome here]; rfl) x y
      (old (Nat.ne_of_lt high) hx) (old (Nat.ne_of_gt low) hy)

theorem gapOrdered {f : ℕ → Option Int} {i : ℕ} (gap : Gap f i) (empty : f i = none) : Ordered f := by
  intro p k child x y hx hy
  have pi : p ≠ i := fun same => by simp [same, empty] at hx
  have ki : k ≠ i := fun same => by simp [same, empty] at hy
  exact gap.others p k child pi ki x y hx hy

theorem removeMinHeap (heap : MinHeap t) (n : N) : MinHeap (t.remove n) := by
  refine ⟨(removeValid n heap.valid).1,?_⟩
  unfold Timers.remove
  split
  · rename_i present
    obtain ⟨k,here⟩ := List.mem_iff_getElem?.mp ((heap.valid.member n).mp present)
    have own : t.heap[t.idx n]? = some n := by rwa [heap.valid.indexed here]
    have gap := unlinkGap heap own
    simp only
    split
    · rename_i inside
      obtain ⟨up,_⟩ := siftDownOrder _ _ gap (keyIs.mpr inside)
      exact siftUpOrdered _ _ up
    · rename_i outside
      exact gapOrdered gap (keyNone (Nat.not_lt.mp outside))
  · exact heap.ordered

theorem popMinHeap (heap : MinHeap t) (front : t.heap[0]? = some n) : MinHeap (t.popFront n) := by
  refine ⟨(popFrontValid heap.valid front).1,?_⟩
  have gap := unlinkGap heap front
  by_cases more : 0 < (t.unlink 0 n).heap.length
  · refine (siftDownOrder _ _ gap (keyIs.mpr more)).2 fun p child => ?_
    have := childLt child
    omega
  · have empty : key (t.unlink 0 n) 0 = none := keyNone (Nat.not_lt.mp more)
    have stop : siftDown (t.unlink 0 n) 0 = (t.unlink 0 n,0) := by
      have best : (t.unlink 0 n).best 0 = 0 := by
        by_contra other
        obtain ⟨_,_,_,_,there,_⟩ := bestChild other
        rw [empty] at there
        cases there
      rw [siftDown]
      simp only [best, dite_true]
    rw [Timers.popFront, stop]
    exact gapOrdered gap empty

theorem pushDeadline (t : Timers N) (n : N) : (t.push n).deadline = t.deadline :=
  (siftUpSifted {t with inHeap := Function.update t.inHeap n true, heap := t.heap ++ [n]} t.heap.length).deadline

theorem removeDeadline (t : Timers N) (n : N) : (t.remove n).deadline = t.deadline := by
  unfold Timers.remove
  split
  · simp only
    split
    · rw [(siftUpSifted _ _).deadline, (siftDownSifted _ _).deadline, unlinkDeadline]
    · exact unlinkDeadline ..
  · rfl

theorem popDeadline (t : Timers N) (n : N) : (t.popFront n).deadline = t.deadline := by
  rw [Timers.popFront, (siftDownSifted _ _).deadline, unlinkDeadline]

end Operations

section Traces
variable {N : Type*} {trace : List (Event N)} {n : N} {deadline : Int}

theorem standingSnoc {e : Event N} : Standing (trace ++ [e]) n deadline ↔
    e = .push n deadline ∨ (Standing trace n deadline ∧ e ≠ .remove n ∧ e ≠ .pop n) := by
  constructor
  · rintro ⟨before,after,whole,since⟩
    rcases List.eq_nil_or_concat after with rfl | ⟨front,last,rfl⟩
    · exact .inl (List.cons.inj (List.append_inj' whole rfl).2).1
    · rw [List.concat_eq_append] at whole since
      rw [← List.cons_append, ← List.append_assoc] at whole
      obtain ⟨rfl,same⟩ := List.append_inj' whole rfl
      cases same
      exact .inr ⟨⟨before,front,rfl,fun e inside => since e (List.mem_append_left _ inside)⟩,
        since e (List.mem_append_right _ List.mem_cons_self)⟩
  · rintro (rfl | ⟨⟨before,after,rfl,since⟩,stays⟩)
    · exact ⟨trace,[],rfl,fun e inside => absurd inside List.not_mem_nil⟩
    · refine ⟨before,after ++ [e],by simp,fun e' inside => ?_⟩
      rcases List.mem_append.mp inside with inside | inside
      · exact since e' inside
      · rw [List.mem_singleton.mp inside]
        exact stays

theorem standingNil : ¬Standing ([] : List (Event N)) n deadline := by
  rintro ⟨before,after,whole,_⟩
  simp at whole

end Traces

section Runs
variable {N : Type*} {trace : List (Event N)} {e e' : Env N}

theorem dueSome {t : Timers N} {now : Int} {n : N} (due' : due t now = some n) :
    t.heap[0]? = some n ∧ t.deadline n ≤ now := by
  obtain ⟨first,soon⟩ := Option.filter_eq_some_iff.mp due'
  exact ⟨List.head?_eq_getElem? ▸ first,of_decide_eq_true soon⟩

theorem dueNone {t : Timers N} {now : Int} (none' : due t now = none) (heap : MinHeap t) :
    ∀ n ∈ t.heap, now < t.deadline n := by
  intro n mem
  obtain ⟨front,rest,same⟩ := List.exists_cons_of_ne_nil (List.ne_nil_of_mem mem)
  have first : t.heap[0]? = some front := by rw [same, List.getElem?_cons_zero]
  have late : now < t.deadline front := by
    simpa [due, same, Option.filter] using none'
  exact late.trans_le (frontLeast heap first n mem)

structure Holds (trace : List (Event N)) (e : Env N) : Prop where
  heap : MinHeap e.timers
  standing : ∀ n deadline, Standing trace n deadline ↔ n ∈ e.timers.heap ∧ e.timers.deadline n = deadline

theorem leaveHolds {n : N} {event : Event N} {t : Timers N} (holds : Holds trace e) (heap : MinHeap t)
    (left : ∀ m, m ∈ t.heap ↔ m ∈ e.timers.heap ∧ m ≠ n) (same : t.deadline = e.timers.deadline)
    (ends : ∀ m, (event ≠ .remove m ∧ event ≠ .pop m) ↔ m ≠ n) (noPush : ∀ m d, event ≠ .push m d) :
    Holds (trace ++ [event]) {e with timers := t} := by
  refine ⟨heap,fun m d => ?_⟩
  rw [standingSnoc, holds.standing, left, same, ends]
  simp only [noPush, false_or]
  tauto

theorem quietHolds {event : Event N} (holds : Holds trace e) (same : e'.timers = e.timers)
    (noPush : ∀ m d, event ≠ .push m d) (ends : ∀ m, event ≠ .remove m ∧ event ≠ .pop m) :
    Holds (trace ++ [event]) e' := by
  refine ⟨same ▸ holds.heap,fun m d => ?_⟩
  rw [standingSnoc, holds.standing, same]
  simp only [noPush, false_or, ends, ne_eq, not_false_eq_true, and_self, and_true]

theorem startHolds : Holds [] (.start : Env N) :=
  ⟨⟨⟨fun {k z} here => by simp [Env.start] at here,fun n => by simp [Env.start]⟩,
    fun p k _ x y hx _ => by simp [key, Env.start] at hx⟩,
    fun n d => iff_of_false standingNil (by simp [Env.start])⟩

variable [DecidableEq N]

theorem runSnoc (trace : List (Event N)) (event : Event N) :
    run (trace ++ [event]) = (run trace).bind (·.step event) := by
  rw [run, List.foldlM_append, ← run]
  cases run trace with
  | none => rfl
  | some e => exact bind_pure (m := Option) (e.step event)

theorem pushHolds {n : N} {deadline : Int} (holds : Holds trace e) (absent : e.timers.inHeap n = false) :
    Holds (trace ++ [Event.push n deadline])
      {e with timers := {e.timers with deadline := Function.update e.timers.deadline n deadline}.push n} := by
  have out : n ∉ e.timers.heap := fun inside => by
    rw [(holds.heap.valid.member n).mpr inside] at absent
    cases absent
  have heap := deadlineMinHeap holds.heap out deadline
  refine ⟨pushMinHeap heap absent,fun m d => ?_⟩
  rw [standingSnoc, holds.standing, (pushValid heap.valid absent).2, pushDeadline]
  simp only [Event.push.injEq, ne_eq, reduceCtorEq, not_false_eq_true, and_true]
  by_cases same : m = n
  · subst same
    simp [out]
  · simp [same, Ne.symm same]

theorem stepHolds {event : Event N} (holds : Holds trace e) (step : e.step event = some e') :
    Holds (trace ++ [event]) e' := by
  cases event with
  | push n deadline =>
    rw [Env.step] at step
    split at step
    · cases step
    · rename_i absent
      cases step
      exact pushHolds holds (by simpa using absent)
  | remove n =>
    cases step
    refine leaveHolds holds (removeMinHeap holds.heap n) (removeValid n holds.heap.valid).2 (removeDeadline _ n)
      (fun m => ?_) (by simp)
    simp [eq_comm]
  | fire now =>
    rw [Env.step] at step
    split at step
    · cases step
      exact quietHolds holds rfl (by simp) (by simp)
    · cases step
  | pop n =>
    rw [Env.step] at step
    split at step
    · cases step
    · split at step
      · rename_i due'
        cases step
        have front := (dueSome due').1
        refine leaveHolds holds (popMinHeap holds.heap front) (popFrontValid holds.heap.valid front).2
          (popDeadline _ n) (fun m => ?_) (by simp)
        simp [eq_comm]
      · cases step
  | done =>
    rw [Env.step] at step
    split at step
    · cases step
    · split at step
      · cases step
        exact quietHolds holds rfl (by simp) (by simp)
      · cases step

theorem runHolds (ran : run trace = some e) : Holds trace e := by
  induction trace using List.reverseRecOn generalizing e with
  | nil =>
    cases ran
    exact startHolds
  | append_singleton trace event ih =>
    rw [runSnoc] at ran
    obtain ⟨before,ran,step⟩ := Option.bind_eq_some_iff.mp ran
    exact stepHolds (ih ran) step

theorem runPrefix {front rest : List (Event N)} (ran : run (front ++ rest) = some e) : ∃ mid, run front = some mid := by
  rw [run, List.foldlM_append] at ran
  obtain ⟨mid,first,_⟩ := Option.bind_eq_some_iff.mp ran
  exact ⟨mid,first⟩

theorem firingKept {event : Event N} {now : Int} (firing : e.firing = some now) (step : e.step event = some e')
    (more : event ≠ .done) : e'.firing = some now := by
  cases event with
  | push n deadline =>
    rw [Env.step] at step
    split at step <;> cases step
    exact firing
  | remove n =>
    cases step
    exact firing
  | fire now' =>
    rw [Env.step, firing] at step
    simp at step
  | pop n =>
    rw [Env.step, firing] at step
    simp only at step
    split at step <;> cases step
    rfl
  | done => exact absurd rfl more

theorem stillFiring {before during : List (Event N)} {now : Int} (more : .done ∉ during)
    (ran : run (before ++ Event.fire now :: during) = some e) : e.firing = some now := by
  induction during using List.reverseRecOn generalizing e with
  | nil =>
    rw [runSnoc] at ran
    obtain ⟨mid,_,step⟩ := Option.bind_eq_some_iff.mp ran
    rw [Env.step] at step
    split at step <;> cases step
    rfl
  | append_singleton during event ih =>
    rw [← List.cons_append, ← List.append_assoc, runSnoc] at ran
    obtain ⟨mid,ran,step⟩ := Option.bind_eq_some_iff.mp ran
    rw [List.mem_append, not_or] at more
    exact firingKept (ih more.1 ran) step fun eq => more.2 (eq ▸ List.mem_cons_self)

theorem firedExactly {before during : List (Event N)} {now : Int} (more : .done ∉ during)
    (ran : run (before ++ Event.fire now :: during ++ [Event.done]) = some e) : Fired before now during := by
  constructor
  · rintro front n rest rfl
    have whole : before ++ Event.fire now :: (front ++ Event.pop n :: rest) ++ [Event.done] =
        (before ++ Event.fire now :: front ++ [Event.pop n]) ++ (rest ++ [Event.done]) := by simp
    rw [whole] at ran
    obtain ⟨mid,ran⟩ := runPrefix ran
    rw [runSnoc] at ran
    obtain ⟨mid',ran,step⟩ := Option.bind_eq_some_iff.mp ran
    have firing := stillFiring (fun inside => more (List.mem_append_left _ inside)) ran
    rw [Env.step, firing] at step
    simp only at step
    split at step
    · rename_i due'
      obtain ⟨first,soon⟩ := dueSome due'
      exact ⟨_,((runHolds ran).standing n _).mpr ⟨List.mem_of_getElem? first,rfl⟩,soon⟩
    · cases step
  · intro n deadline standing
    have heap := (runHolds ran).heap
    obtain ⟨inside,rfl⟩ := ((runHolds ran).standing n deadline).mp standing
    rw [runSnoc] at ran
    obtain ⟨mid,ran,step⟩ := Option.bind_eq_some_iff.mp ran
    rw [Env.step, stillFiring more ran] at step
    simp only at step
    split at step
    · rename_i none'
      cases step
      exact dueNone none' heap n inside
    · cases step

theorem timerHeapKept (ran : run trace = some e) :
    MinHeap e.timers ∧
    (∀ n deadline, Standing trace n deadline ↔ n ∈ e.timers.heap ∧ e.timers.deadline n = deadline) ∧
    ∀ before now during, trace = before ++ Event.fire now :: during ++ [Event.done] → Event.done ∉ during → Fired before now during := by
  refine ⟨(runHolds ran).heap,(runHolds ran).standing,?_⟩
  rintro before now during rfl more
  exact firedExactly more ran

theorem reentered : ∃ e, run [.push 1 5,.push 2 3,.push 3 9,.fire 6,.pop 2,.push 4 4,.remove 1,.pop 4,.done] = some e ∧
    MinHeap e.timers ∧ Fired [.push 1 5,.push 2 3,.push 3 9] 6 [.pop 2,.push 4 4,.remove 1,.pop 4] := by
  obtain ⟨e,ran⟩ := Option.isSome_iff_exists.mp (show (run [.push 1 5,.push 2 3,.push 3 9,.fire 6,.pop 2,.push 4 4,
    .remove 1,.pop 4,.done]).isSome by decide +kernel)
  obtain ⟨heap,_,fired⟩ := timerHeapKept ran
  exact ⟨e,ran,heap,fired _ _ _ rfl (by decide)⟩

end Runs

end Uco.TimerRun
