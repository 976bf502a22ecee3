import Uco.Interleaving

/-! usema, without kill_broadcast. Every atomic operation and every access made while
the spin lock is held is a step of its own. waited and tried count the permits that
went to wait and to try_wait, signalled those that signal has added. -/
namespace Uco.Semaphore
open Interleaving

def maxSpin : ℕ := 32

structure Shared (T : Type*) where
  count : ℕ
  nwait : ℕ
  lock : Bool
  waiterList : List T
  synced : List T
  signalled : ℕ
  waited : ℕ
  tried : ℕ
  deriving DecidableEq, Repr

/- `cur` is the count a try_wait has loaded. A waiter is `woken` from its resumption
until its first try has seen no permit. -/
inductive Pc (T : Type*) where
  | idle
  | spin (lifo : Bool) (i : ℕ) (woken : Bool)
  | swap (lifo : Bool) (i : ℕ) (woken : Bool) (cur : ℕ)
  | waitLock (lifo : Bool)
  | register (lifo : Bool)
  | check (lifo : Bool)
  | checkSwap (lifo : Bool) (cur : ℕ)
  | leave
  | leaveUnlock
  | push (lifo : Bool)
  | pushUnlock (lifo : Bool)
  | parked (lifo : Bool)
  | tryWait
  | trySwap (cur : ℕ)
  | signal
  | peek
  | signalLock
  | recheck
  | pop
  | popped (waiter : T)
  | popUnlock (waiter : T)
  | resume (waiter : T)
  | signalUnlock
  deriving DecidableEq, Repr

structure Local (T : Type*) where
  self : T
  pc : Pc T
  deriving DecidableEq, Repr

variable {T : Type*}

def afterSpin (lifo : Bool) (i : ℕ) : Pc T :=
  if i + 1 < maxSpin then .spin lifo (i + 1) false else .waitLock lifo

def pushed (lifo : Bool) (self : T) (waiters : List T) : List T :=
  if lifo then self :: waiters else waiters ++ [self]

inductive WaitMove [DecidableEq T] (self : T) : Shared T → Pc T → Shared T → Pc T → Prop where
  | call {g} (lifo : Bool) : WaitMove self g .idle g (.spin lifo 0 false)
  | spinNone {g lifo i woken} (none : g.count = 0) :
      WaitMove self g (.spin lifo i woken) g (afterSpin lifo i)
  | spinSome {g lifo i woken} (some : g.count ≠ 0) :
      WaitMove self g (.spin lifo i woken) g (.swap lifo i woken g.count)
  | swap {g lifo i woken n} (same : g.count = n + 1) : WaitMove self g (.swap lifo i woken (n + 1))
      {g with count := n, waited := g.waited + 1} .idle
  | swapFails {g lifo i woken cur} (other : g.count ≠ cur) :
      WaitMove self g (.swap lifo i woken cur) g (.spin lifo i woken)
  | lock {g lifo} (free : g.lock = false) :
      WaitMove self g (.waitLock lifo) {g with lock := true} (.register lifo)
  | register {g lifo} : WaitMove self g (.register lifo) {g with nwait := g.nwait + 1} (.check lifo)
  | checkNone {g lifo} (none : g.count = 0) : WaitMove self g (.check lifo) g (.push lifo)
  | checkSome {g lifo} (some : g.count ≠ 0) :
      WaitMove self g (.check lifo) g (.checkSwap lifo g.count)
  | checkSwap {g lifo n} (same : g.count = n + 1) : WaitMove self g (.checkSwap lifo (n + 1))
      {g with count := n, waited := g.waited + 1} .leave
  | checkFails {g lifo cur} (other : g.count ≠ cur) :
      WaitMove self g (.checkSwap lifo cur) g (.check lifo)
  | leave {g} : WaitMove self g .leave {g with nwait := g.nwait - 1} .leaveUnlock
  | leaveUnlock {g} : WaitMove self g .leaveUnlock {g with lock := false} .idle
  | push {g lifo} : WaitMove self g (.push lifo)
      {g with waiterList := pushed lifo self g.waiterList} (.pushUnlock lifo)
  | pushUnlock {g lifo} : WaitMove self g (.pushUnlock lifo) {g with lock := false} (.parked lifo)
  | resumed {g lifo} (synced : self ∈ g.synced) : WaitMove self g (.parked lifo)
      {g with synced := g.synced.erase self} (.spin lifo 0 true)

inductive TryMove : Shared T → Pc T → Shared T → Pc T → Prop where
  | call {g} : TryMove g .idle g .tryWait
  | none {g} (none : g.count = 0) : TryMove g .tryWait g .idle
  | some {g} (some : g.count ≠ 0) : TryMove g .tryWait g (.trySwap g.count)
  | swap {g n} (same : g.count = n + 1) :
      TryMove g (.trySwap (n + 1)) {g with count := n, tried := g.tried + 1} .idle
  | swapFails {g cur} (other : g.count ≠ cur) : TryMove g (.trySwap cur) g .tryWait

inductive SignalMove : Shared T → Pc T → Shared T → Pc T → Prop where
  | call {g} : SignalMove g .idle g .signal
  | count {g} : SignalMove g .signal {g with count := g.count + 1, signalled := g.signalled + 1} .peek
  | nobody {g} (none : g.nwait = 0) : SignalMove g .peek g .idle
  | somebody {g} (some : g.nwait ≠ 0) : SignalMove g .peek g .signalLock
  | lock {g} (free : g.lock = false) : SignalMove g .signalLock {g with lock := true} .recheck
  | gone {g} (none : g.nwait = 0) : SignalMove g .recheck g .signalUnlock
  | there {g} (some : g.nwait ≠ 0) : SignalMove g .recheck g .pop
  | empty {g} (none : g.waiterList = []) : SignalMove g .pop g .signalUnlock
  | pop {g w rest} (first : g.waiterList = w :: rest) :
      SignalMove g .pop {g with waiterList := rest} (.popped w)
  | discount {g w} : SignalMove g (.popped w) {g with nwait := g.nwait - 1} (.popUnlock w)
  | popUnlock {g w} : SignalMove g (.popUnlock w) {g with lock := false} (.resume w)
  | resume {g w} : SignalMove g (.resume w) {g with synced := g.synced ++ [w]} .idle
  | unlock {g} : SignalMove g .signalUnlock {g with lock := false} .idle

inductive Move [DecidableEq T] (self : T) (g : Shared T) (p : Pc T) (g' : Shared T) (p' : Pc T) : Prop where
  | wait (taken : WaitMove self g p g' p')
  | tryWait (taken : TryMove g p g' p')
  | signal (taken : SignalMove g p g' p')

def system (T : Type*) [DecidableEq T] : System (Shared T) (Local T) where
  solo _ _ := False
  move g l g' l' := l'.self = l.self ∧ Move l.self g l.pc g' l'.pc

abbrev State (T : Type*) := Config (Shared T) (Local T) T

def start (T : Type*) (cnt : ℕ) : State T := ⟨⟨cnt,0,false,[],[],0,0,0⟩, fun t => ⟨t,.idle⟩⟩

@[simp] def pushing : Pc T → ℕ | .push _ => 1 | _ => 0
@[simp] def inLock : Pc T → ℕ
  | .register _ | .check _ | .checkSwap _ _ | .leave | .leaveUnlock | .pushUnlock _ => 1
  | .recheck | .pop | .popped _ | .popUnlock _ | .signalUnlock => 1
  | _ => 0
@[simp] def registered : Pc T → ℕ
  | .check _ | .checkSwap _ _ | .leave | .popped _ => 1
  | _ => 0
@[simp] def looking : Pc T → ℕ
  | .peek | .signalLock | .recheck | .pop => 1
  | _ => 0
@[simp] def handing : Pc T → ℕ
  | .popped _ | .popUnlock _ | .resume _ => 1
  | _ => 0
@[simp] def retrying : Pc T → ℕ
  | .spin _ _ true | .swap _ _ true _ => 1
  | _ => 0
def signalling : Pc T → Prop
  | .signal | .peek | .signalLock | .recheck | .pop | .popped _ | .popUnlock _ | .resume _
  | .signalUnlock => True
  | _ => False

abbrev Totals (T : Type*) := (Pc T → ℕ) → ℕ

structure Balanced (cnt : ℕ) (g : Shared T) (n : Totals T) : Prop where
  permits : g.waited + g.tried + g.count = cnt + g.signalled
  nwait : g.nwait = g.waiterList.length + n registered + n pushing
  lock : n inLock + n pushing = g.lock.toNat
  covered : 0 < g.waiterList.length + n pushing →
    g.count ≤ n looking + n handing + n retrying + g.synced.length

structure Posted (p p' : Pc T) (n n' : Totals T) : Prop where
  own : ∀ f, f p ≤ n f
  pushing : n' pushing + pushing p = n pushing + pushing p'
  inLock : n' inLock + inLock p = n inLock + inLock p'
  registered : n' registered + registered p = n registered + registered p'
  looking : n' looking + looking p = n looking + looking p'
  handing : n' handing + handing p = n handing + handing p'
  retrying : n' retrying + retrying p = n retrying + retrying p'

section Steps
variable {cnt : ℕ} {g g' : Shared T} {p p' : Pc T} {n n' : Totals T}

def weights (p : Pc T) : List ℕ := [pushing p,inLock p,registered p,looking p,handing p,retrying p]

theorem quietBalanced (posted : Posted p p' n n') (quiet : weights p' = weights p) (old : Balanced cnt g n) :
    Balanced cnt g n' := by
  obtain ⟨permits,nwait,lock,covered⟩ := old
  obtain ⟨own,c1,c2,c3,c4,c5,c6⟩ := posted
  simp only [weights, List.cons.injEq, and_true] at quiet
  obtain ⟨q1,q2,q3,q4,q5,q6⟩ := quiet
  rw [q1, Nat.add_right_cancel_iff] at c1
  rw [q2, Nat.add_right_cancel_iff] at c2
  rw [q3, Nat.add_right_cancel_iff] at c3
  rw [q4, Nat.add_right_cancel_iff] at c4
  rw [q5, Nat.add_right_cancel_iff] at c5
  rw [q6, Nat.add_right_cancel_iff] at c6
  rw [← c1, ← c3] at nwait
  rw [← c1, ← c2] at lock
  rw [← c1, ← c4, ← c5, ← c6] at covered
  exact ⟨permits,nwait,lock,covered⟩

theorem tryBalanced (taken : TryMove g p g' p') (posted : Posted p p' n n') (old : Balanced cnt g n) :
    Balanced cnt g' n' := by
  have quiet : weights p' = weights p → Balanced cnt g n' := fun same => quietBalanced posted same old
  obtain ⟨permits,nwait,lock,covered⟩ := old
  obtain ⟨own,c1,c2,c3,c4,c5,c6⟩ := posted
  cases taken with
  | swap same =>
    simp only [pushing, inLock, registered, looking, handing, retrying] at *
    refine ⟨?_,?_,?_,?_⟩ <;> (try dsimp only) <;> omega
  | _ => exact quiet rfl

theorem signalBalanced (taken : SignalMove g p g' p') (posted : Posted p p' n n')
    (old : Balanced cnt g n) : Balanced cnt g' n' := by
  have quiet : weights p' = weights p → Balanced cnt g n' := fun same => quietBalanced posted same old
  obtain ⟨permits,nwait,lock,covered⟩ := old
  obtain ⟨own,c1,c2,c3,c4,c5,c6⟩ := posted
  have mine := own inLock
  have counted := own registered
  clear own
  cases taken with
  | call | somebody | there => exact quiet rfl
  | empty none =>
    -- the list is empty, and nobody else is in the lock to push
    have := Bool.toNat_le g.lock
    have nobody : g.waiterList.length = 0 := by rw [none]; rfl
    simp only [pushing, inLock, registered, looking, handing, retrying] at *
    refine ⟨?_,?_,?_,?_⟩ <;> omega
  | pop first =>
    simp only [pushing, inLock, registered, looking, handing, retrying, first, List.length_cons] at *
    refine ⟨?_,?_,?_,?_⟩ <;> (try dsimp only) <;> omega
  | resume =>
    simp only [pushing, inLock, registered, looking, handing, retrying] at *
    refine ⟨?_,?_,?_,?_⟩ <;> (try simp only [List.length_append, List.length_singleton]) <;> omega
  | lock free =>
    simp only [pushing, inLock, registered, looking, handing, retrying, free, Bool.toNat_false] at *
    refine ⟨?_,?_,?_,?_⟩ <;> (try simp only [Bool.toNat_true]) <;> omega
  | popUnlock =>
    have := Bool.toNat_le g.lock
    simp only [pushing, inLock, registered, looking, handing, retrying] at *
    refine ⟨?_,?_,?_,?_⟩ <;> (try simp only [Bool.toNat_false]) <;> omega
  | unlock =>
    have := Bool.toNat_le g.lock
    simp only [pushing, inLock, registered, looking, handing, retrying] at *
    refine ⟨?_,?_,?_,?_⟩ <;> (try simp only [Bool.toNat_false]) <;> omega
  | _ =>
    simp only [pushing, inLock, registered, looking, handing, retrying] at *
    refine ⟨?_,?_,?_,?_⟩ <;> (try dsimp only) <;> omega

theorem afterSpinWeights (lifo : Bool) (i : ℕ) :
    pushing (afterSpin lifo i : Pc T) = 0 ∧ inLock (afterSpin lifo i : Pc T) = 0 ∧
    registered (afterSpin lifo i : Pc T) = 0 ∧ looking (afterSpin lifo i : Pc T) = 0 ∧
    handing (afterSpin lifo i : Pc T) = 0 ∧ retrying (afterSpin lifo i : Pc T) = 0 := by
  unfold afterSpin
  split <;> exact ⟨rfl,rfl,rfl,rfl,rfl,rfl⟩

theorem pushedLength (lifo : Bool) (self : T) (waiters : List T) :
    (pushed lifo self waiters).length = waiters.length + 1 := by
  unfold pushed
  split <;> simp

theorem waitBalanced [DecidableEq T] {self : T} (taken : WaitMove self g p g' p') (posted : Posted p p' n n')
    (old : Balanced cnt g n) : Balanced cnt g' n' := by
  have quiet : weights p' = weights p → Balanced cnt g n' := fun same => quietBalanced posted same old
  obtain ⟨permits,nwait,lock,covered⟩ := old
  obtain ⟨own,c1,c2,c3,c4,c5,c6⟩ := posted
  have mine := own inLock
  have counted := own registered
  have tries := own retrying
  clear own
  cases taken with
  | call lifo | checkSome some | checkFails other => exact quiet rfl
  | @spinNone lifo i woken none =>
    obtain ⟨w1,w2,w3,w4,w5,w6⟩ := afterSpinWeights (T := T) lifo i
    rw [w1] at c1; rw [w2] at c2; rw [w3] at c3; rw [w4] at c4; rw [w5] at c5; rw [w6] at c6
    simp only [pushing, inLock, registered, looking, handing] at *
    refine ⟨?_,?_,?_,?_⟩ <;> omega
  | @spinSome lifo i woken some => exact quiet (by cases woken <;> rfl)
  | @swapFails lifo i woken cur other => exact quiet (by cases woken <;> rfl)
  | push =>
    simp only [pushing, inLock, registered, looking, handing, retrying] at *
    refine ⟨?_,?_,?_,?_⟩ <;> (try simp only [pushedLength]) <;> omega
  | lock free =>
    simp only [pushing, inLock, registered, looking, handing, retrying, free, Bool.toNat_false] at *
    refine ⟨?_,?_,?_,?_⟩ <;> (try simp only [Bool.toNat_true]) <;> omega
  | leaveUnlock =>
    have := Bool.toNat_le g.lock
    simp only [pushing, inLock, registered, looking, handing, retrying] at *
    refine ⟨?_,?_,?_,?_⟩ <;> (try simp only [Bool.toNat_false]) <;> omega
  | pushUnlock =>
    have := Bool.toNat_le g.lock
    simp only [pushing, inLock, registered, looking, handing, retrying] at *
    refine ⟨?_,?_,?_,?_⟩ <;> (try simp only [Bool.toNat_false]) <;> omega
  | resumed synced =>
    have shorter := List.length_erase_add_one synced
    simp only [pushing, inLock, registered, looking, handing, retrying] at *
    refine ⟨?_,?_,?_,?_⟩ <;> (try dsimp only) <;> omega
  | @swap lifo i woken n same =>
    cases woken <;> simp only [pushing, inLock, registered, looking, handing, retrying] at * <;>
      refine ⟨?_,?_,?_,?_⟩ <;> dsimp only <;> omega
  | _ =>
    simp only [pushing, inLock, registered, looking, handing, retrying] at *
    refine ⟨?_,?_,?_,?_⟩ <;> (try dsimp only) <;> omega

theorem signalsNot {p : Pc T} (none : ¬signalling p) : looking p = 0 ∧ handing p = 0 := by
  cases p <;> simp [signalling, looking, handing] at none ⊢

end Steps

section Runs
variable [Fintype T]

def pcTotal (c : State T) (f : Pc T → ℕ) : ℕ := c.total (fun l => f l.pc)

def unretried (c : State T) : ℕ := c.shared.synced.length + pcTotal c retrying

structure Sound (cnt : ℕ) (c : State T) : Prop where
  permits : c.shared.waited + c.shared.tried + c.shared.count = cnt + c.shared.signalled
  awake : (∀ t, ¬signalling (c.locals t).pc) → c.shared.waiterList ≠ [] → c.shared.count ≤ unretried c
  quiet : (∀ t, ¬signalling (c.locals t).pc) → unretried c = 0 → 0 < c.shared.count →
    c.shared.waiterList = []

theorem startBalanced (cnt : ℕ) : Balanced cnt (start T cnt).shared (pcTotal (start T cnt)) := by
  have none : ∀ f : Pc T → ℕ, f .idle = 0 → pcTotal (start T cnt) f = 0 := fun f zero =>
    Finset.sum_eq_zero (fun _ _ => zero)
  refine ⟨by simp [start],?_,?_,fun some => ?_⟩
  · rw [none registered rfl, none pushing rfl]; rfl
  · rw [none inLock rfl, none pushing rfl]; rfl
  · rw [none pushing rfl] at some
    exact absurd some (Nat.lt_irrefl 0)

theorem noSignalTotals {c : State T} (none : ∀ t, ¬signalling (c.locals t).pc) :
    pcTotal c looking = 0 ∧ pcTotal c handing = 0 :=
  ⟨Finset.sum_eq_zero fun t _ => (signalsNot (none t)).1,Finset.sum_eq_zero fun t _ => (signalsNot (none t)).2⟩

theorem soundOf {cnt : ℕ} {c : State T} (inv : Balanced cnt c.shared (pcTotal c)) : Sound cnt c := by
  have awake : (∀ t, ¬signalling (c.locals t).pc) → c.shared.waiterList ≠ [] →
      c.shared.count ≤ unretried c := by
    intro none waiting
    obtain ⟨looks,hands⟩ := noSignalTotals none
    have some := List.length_pos_iff.mpr waiting
    have covered := inv.covered (by omega)
    rw [looks, hands] at covered
    simp only [unretried]
    omega
  refine ⟨inv.permits,awake,fun none tried permit => ?_⟩
  by_contra waiting
  have := awake none waiting
  omega

variable [DecidableEq T]

theorem stepBalanced {cnt : ℕ} {c d : State T} (old : Balanced cnt c.shared (pcTotal c))
    (taken : Step (system T) c d) : Balanced cnt d.shared (pcTotal d) := by
  cases taken with
  | solo taken => exact taken.elim
  | @move t g l taken =>
    have posted : Posted (c.locals t).pc l.pc (pcTotal c) (pcTotal (c.set t g l)) := by
      constructor
      · exact fun f => leTotal c (fun l => f l.pc) t
      all_goals exact totalSet c _ t g l
    rcases taken.2 with wait | tries | signal
    · exact waitBalanced wait posted old
    · exact tryBalanced tries posted old
    · exact signalBalanced signal posted old

/- No permit is lost or made up, and none lies idle while a waiter sleeps. -/
theorem semaphoreSound {cnt : ℕ} {c : State T} (reached : Reachable (Step (system T)) (start T cnt) c) :
    Sound cnt c :=
  soundOf (reachableInvariant (fun c => Balanced cnt c.shared (pcTotal c)) (startBalanced cnt)
    (fun _ _ old taken => stepBalanced old taken) reached)

omit [Fintype T] in
theorem spinsOn {g : Shared T} (none : g.count = 0) {t : T} {lifo : Bool} {n : ℕ} (few : n < maxSpin) :
    Moves (system T) g ⟨t,.spin lifo 0 false⟩ g ⟨t,.spin lifo n false⟩ := by
  induction n with
  | zero => exact .refl
  | succ n ih =>
    have next : afterSpin lifo n = (.spin lifo (n+1) false : Pc T) := if_pos few
    exact (ih (by omega)).tail ⟨rfl,.wait (next ▸ .spinNone none)⟩

omit [Fintype T] in
theorem moveReachable {a c : State T} (reached : Reachable (Step (system T)) a c) (t : T) {g : Shared T} {p : Pc T}
    (taken : Move (c.locals t).self c.shared (c.locals t).pc g p) :
    Reachable (Step (system T)) a (c.set t g ⟨(c.locals t).self,p⟩) :=
  reached.tail (.move t ⟨rfl,taken⟩)

theorem signalledWaiter : ∃ b c : State (Fin 2),
    (b.locals 1).pc = .parked false ∧ b.shared.waiterList = [1] ∧ Sound 0 b ∧
    (c.locals 1).pc = .idle ∧ c.shared.signalled = 1 ∧ c.shared.waited = 1 ∧ Sound 0 c := by
  have r1 := moveReachable (a := start (Fin 2) 0) .refl 1 (.wait (.call false))
  have r2 := r1.trans (movesReachable (t := 1) (spinsOn (n := 31) rfl (by decide)))
  have r3 := moveReachable r2 1 (.wait (.spinNone rfl))
  have r4 := moveReachable r3 1 (.wait (.lock rfl))
  have r5 := moveReachable r4 1 (.wait .register)
  have r6 := moveReachable r5 1 (.wait (.checkNone rfl))
  have r7 := moveReachable r6 1 (.wait .push)
  have parked := moveReachable r7 1 (.wait .pushUnlock)
  have r9 := moveReachable parked 0 (.signal .call)
  have r10 := moveReachable r9 0 (.signal .count)
  have r11 := moveReachable r10 0 (.signal (.somebody (by decide)))
  have r12 := moveReachable r11 0 (.signal (.lock rfl))
  have r13 := moveReachable r12 0 (.signal (.there (by decide)))
  have r14 := moveReachable r13 0 (.signal (.pop rfl))
  have r15 := moveReachable r14 0 (.signal .discount)
  have r16 := moveReachable r15 0 (.signal .popUnlock)
  have r17 := moveReachable r16 0 (.signal .resume)
  have r18 := moveReachable r17 1 (.wait (.resumed (by decide)))
  have r19 := moveReachable r18 1 (.wait (.spinSome (by decide)))
  have taken := moveReachable r19 1 (.wait (.swap rfl))
  exact ⟨_,_,rfl,rfl,semaphoreSound parked,rfl,rfl,rfl,semaphoreSound taken⟩

end Runs
end Uco.Semaphore
