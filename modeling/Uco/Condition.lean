import Uco.Interleaving

/-! The condition variable: coroutines of any threads that wait under a mutex for a predicate over
shared data, and notify. A section under the condition's spin lock is one step. A node goes from the
queue to the one that took it and from there to the thread that it resumes on, which takes it up
only when its coroutine has suspended. -/
namespace Uco.Condition
open Interleaving

section Model

inductive Notify where
  | none
  | one
  | all
  deriving DecidableEq, Repr

structure Use (S D : Type*) where
  ready : S → D → Prop
  change : S → D → D → Notify → Prop

/- `waiters` is the queue, oldest first; `delivered` holds the nodes in the lists of their threads. -/
structure Shared (D T : Type*) where
  locked : Bool
  data : D
  waiters : List T
  delivered : List T

/- Where a coroutine is. It holds the mutex while it tests, has found its predicate false, has put
itself into the queue, has changed the data, or delivers the nodes it took with `held`. -/
inductive Pc (S T : Type*) where
  | idle
  | testing (s : S) (woken : Bool)
  | failed (s : S)
  | pushed (s : S)
  | unlocked (s : S)
  | asleep (s : S)
  | resumed (s : S)
  | changed (k : Notify)
  | owing (k : Notify)
  | delivering (nodes : List T) (held : Bool)

def take {T : Type*} : Notify → List T → List T × List T
  | .none, waiters => ([],waiters)
  | .one, waiters => (waiters.take 1,waiters.drop 1)
  | .all, waiters => (waiters,[])

variable {S D T : Type*} [DecidableEq T]

abbrev State (S D T : Type*) := Config (Shared D T) (Pc S T) T

inductive Step (use : Use S D) : State S D T → State S D T → Prop where
  | locks {c} (t : T) (s : S) (idle : c.locals t = .idle) (free : c.shared.locked = false) :
      Step use c (c.set t {c.shared with locked := true} (.testing s false))
  | passes {c s woken d k} (t : T) (here : c.locals t = .testing s woken) (ready : use.ready s c.shared.data)
      (change : use.change s c.shared.data d k) : Step use c (c.set t {c.shared with data := d} (.changed k))
  | fails {c s woken} (t : T) (here : c.locals t = .testing s woken) (unready : ¬ use.ready s c.shared.data) :
      Step use c (c.set t c.shared (.failed s))
  | pushes {c s} (t : T) (here : c.locals t = .failed s) :
      Step use c (c.set t {c.shared with waiters := c.shared.waiters ++ [t]} (.pushed s))
  | unlocks {c s} (t : T) (here : c.locals t = .pushed s) :
      Step use c (c.set t {c.shared with locked := false} (.unlocked s))
  | suspends {c s} (t : T) (here : c.locals t = .unlocked s) : Step use c (c.set t c.shared (.asleep s))
  | resumes {c s} (t : T) (here : c.locals t = .asleep s) (node : t ∈ c.shared.delivered) :
      Step use c (c.set t {c.shared with delivered := c.shared.delivered.erase t} (.resumed s))
  | relocks {c s} (t : T) (here : c.locals t = .resumed s) (free : c.shared.locked = false) :
      Step use c (c.set t {c.shared with locked := true} (.testing s true))
  | unlocksFirst {c k} (t : T) (here : c.locals t = .changed k) :
      Step use c (c.set t {c.shared with locked := false} (.owing k))
  | notifies {c k} (t : T) (here : c.locals t = .changed k) :
      Step use c (c.set t {c.shared with waiters := (take k c.shared.waiters).2}
        (.delivering (take k c.shared.waiters).1 true))
  | notifiesLate {c k} (t : T) (here : c.locals t = .owing k) :
      Step use c (c.set t {c.shared with waiters := (take k c.shared.waiters).2}
        (.delivering (take k c.shared.waiters).1 false))
  | delivers {c node nodes held} (t : T) (here : c.locals t = .delivering (node :: nodes) held) :
      Step use c (c.set t {c.shared with delivered := c.shared.delivered ++ [node]} (.delivering nodes held))
  | leaves {c held} (t : T) (here : c.locals t = .delivering [] held) :
      Step use c (c.set t {c.shared with locked := c.shared.locked && !held} .idle)

def start (S T : Type*) (data : D) : State S D T := ⟨⟨false,data,[],[]⟩,fun _ => .idle⟩

end Model

section Weights
variable {S T : Type*}

def holds : Pc S T → ℕ
  | .testing _ _ | .failed _ | .pushed _ | .changed _ | .delivering _ true => 1
  | _ => 0

def queued : Pc S T → Option S
  | .pushed s | .unlocked s | .asleep s => some s
  | _ => none

def carries [DecidableEq T] (t : T) : Pc S T → ℕ
  | .delivering nodes _ => nodes.count t
  | _ => 0

/- Coroutines that were taken from the queue and have not tested yet, and those still to be taken by
a notify_one. -/
def rousing : Pc S T → ℕ
  | .delivering nodes _ => nodes.length
  | .resumed _ | .testing _ true | .changed .one | .owing .one => 1
  | _ => 0

def sweeping : Pc S T → ℕ
  | .changed .all | .owing .all => 1
  | _ => 0

end Weights

section Nodes
variable {S D T : Type*} [DecidableEq T]

theorem takeCount (k : Notify) (waiters : List T) (t : T) :
    (take k waiters).1.count t + (take k waiters).2.count t = waiters.count t := by
  cases k with
  | none => simp [take]
  | one =>
    simp only [take]
    rw [← List.count_append, List.take_append_drop]
  | all => simp [take]

omit [DecidableEq T] in
theorem takeSubset (k : Notify) (waiters : List T) : ∀ u ∈ (take k waiters).2, u ∈ waiters := by
  intro u inside
  cases k with
  | none => exact inside
  | one => exact List.mem_of_mem_drop inside
  | all => cases inside

variable [Fintype T] {use : Use S D} {c d : State S D T}

structure Inv (use : Use S D) (c : State S D T) : Prop where
  mutex : c.total holds = if c.shared.locked then 1 else 0
  node : ∀ t, c.shared.waiters.count t + c.shared.delivered.count t + c.total (carries t) =
    if (queued (c.locals t)).isSome then 1 else 0
  failed : ∀ t s, c.locals t = .failed s → ¬ use.ready s c.shared.data

theorem invStart (data : D) : Inv use (start S T data) := by
  refine ⟨totalConst _ _ (fun _ => rfl) rfl,fun t => ?_,fun t s here => by cases here⟩
  rw [totalConst (start S T data) (carries t) (fun _ => rfl) rfl]
  simp [start, queued]

def own (t u : T) (l : Pc S T) : ℕ := if u = t ∧ (queued l).isSome then 1 else 0

theorem invSet (inv : Inv use c) (t : T) {g : Shared D T} {old l : Pc S T} (here : c.locals t = old)
    (mutex : holds l + (if c.shared.locked then 1 else 0) = holds old + if g.locked then 1 else 0)
    (node : ∀ u, g.waiters.count u + g.delivered.count u + carries u l + own t u old =
      c.shared.waiters.count u + c.shared.delivered.count u + carries u old + own t u l)
    (failed : ∀ s, l = .failed s → ¬ use.ready s g.data) (data : g.data = c.shared.data ∨ holds old = 1) :
    Inv use (c.set t g l) := by
  subst here
  refine ⟨?_,fun u => ?_,fun u s same => ?_⟩
  · have counted := totalSet c holds t g l
    have before := inv.mutex
    rw [setShared]
    omega
  · have counted := totalSet c (carries u) t g l
    have before := inv.node u
    have moved := node u
    rw [setShared]
    by_cases mine : u = t
    · subst mine
      simp only [own, true_and, setSelf] at moved ⊢
      omega
    · simp only [own, mine, false_and, if_false] at moved
      rw [setOther c g l mine]
      omega
  · by_cases mine : u = t
    · subst mine
      rw [setSelf] at same
      exact failed s same
    · rw [setOther c g l mine] at same
      rw [setShared]
      rcases data with kept | mutexed
      · rw [kept]
        exact inv.failed u s same
      · -- the one who has found its predicate false holds the mutex
        have one : c.total holds ≤ 1 := by
          rw [inv.mutex]
          split <;> omega
        exact absurd (totalUnique one (by rw [same]; exact Nat.one_pos) (by omega)) mine

omit [DecidableEq T] in
theorem holderLocked {t : T} (mutex : c.total holds = if c.shared.locked then 1 else 0)
    (holder : holds (c.locals t) = 1) : c.shared.locked = true := by
  have mine := leTotal c holds t
  rw [holder, mutex] at mine
  by_contra free
  simp [free] at mine

theorem invStep (inv : Inv use c) (taken : Step use c d) : Inv use d := by
  cases taken with
  | locks t s idle free =>
    exact invSet inv t idle (by simp [holds, free]) (fun u => by simp [carries, own, queued]) (by simp) (.inl rfl)
  | passes t here ready change =>
    exact invSet inv t here (by simp [holds]) (fun u => by simp [carries, own, queued]) (by simp) (.inr rfl)
  | fails t here unready =>
    refine invSet inv t here (by simp [holds]) (fun u => by simp [carries, own, queued]) (fun s same => ?_) (.inl rfl)
    cases same
    exact unready
  | pushes t here =>
    refine invSet inv t here (by simp [holds]) (fun u => ?_) (by simp) (.inl rfl)
    simp only [carries, own, queued, List.count_append, List.count_cons, List.count_nil]
    by_cases mine : u = t
    · subst mine
      simp
      omega
    · simp [mine, Ne.symm mine]
  | unlocks t here =>
    exact invSet inv t here (by simp [holds, holderLocked inv.mutex (by rw [here]; rfl)]) (fun u => by simp [carries, own, queued]) (by simp) (.inl rfl)
  | suspends t here =>
    exact invSet inv t here (by simp [holds]) (fun u => by simp [carries, own, queued]) (by simp) (.inl rfl)
  | resumes t here node =>
    refine invSet inv t here (by simp [holds]) (fun u => ?_) (by simp) (.inl rfl)
    have some := List.count_pos_iff.mpr node
    simp only [carries, own, queued, List.count_erase]
    by_cases mine : u = t
    · subst mine
      simp
      omega
    · simp [mine, Ne.symm mine]
  | relocks t here free =>
    exact invSet inv t here (by simp [holds, free]) (fun u => by simp [carries, own, queued]) (by simp) (.inl rfl)
  | unlocksFirst t here =>
    exact invSet inv t here (by simp [holds, holderLocked inv.mutex (by rw [here]; rfl)]) (fun u => by simp [carries, own, queued]) (by simp) (.inl rfl)
  | notifies t here =>
    rename_i k
    refine invSet inv t here (by simp [holds]) (fun u => ?_) (by simp) (.inl rfl)
    have parts := takeCount k c.shared.waiters u
    simp only [carries, own, queued]
    simp
    omega
  | notifiesLate t here =>
    rename_i k
    refine invSet inv t here (by simp [holds]) (fun u => ?_) (by simp) (.inl rfl)
    have parts := takeCount k c.shared.waiters u
    simp only [carries, own, queued]
    simp
    omega
  | delivers t here =>
    rename_i node nodes held
    refine invSet inv t here (by cases held <;> simp [holds]) (fun u => ?_) (by simp) (.inl rfl)
    simp only [carries, own, queued, List.count_append, List.count_cons, List.count_nil]
    simp
    omega
  | leaves t here =>
    rename_i held
    cases held with
    | false =>
      exact invSet inv t here (by simp [holds]) (fun u => by simp [carries, own, queued]) (by simp) (.inl rfl)
    | true =>
      exact invSet inv t here (by simp [holds, holderLocked inv.mutex (by rw [here]; rfl)]) (fun u => by simp [carries, own, queued]) (by simp) (.inl rfl)

theorem reachedInv {data : D} (reached : Reachable (Step use) (start S T data) c) : Inv use c :=
  reachableInvariant (Inv use) (invStart data) (fun _ _ => invStep) reached

/- A coroutine that waits has one node, in the queue, with the one that took it, or in the list of its
thread; any other has none. So a wait is woken once, and only after it was taken from the queue. -/
theorem flagWakesOnce {data : D} (reached : Reachable (Step use) (start S T data) c) (t : T) :
    c.shared.waiters.count t + c.shared.delivered.count t + c.total (carries t) =
      if (queued (c.locals t)).isSome then 1 else 0 :=
  (reachedInv reached).node t

def flagUse : Use Bool Bool where
  ready setter up := setter = true ∨ up = true
  change setter up up' k := if setter then up' = true ∧ k = .all else up' = up ∧ k = .none

def flagWaits : State Bool Bool (Fin 2) :=
  ((((start Bool (Fin 2) false).set 0 ⟨true,false,[],[]⟩ (.testing false false)).set 0 ⟨true,false,[],[]⟩
    (.failed false)).set 0 ⟨true,false,[0],[]⟩ (.pushed false)).set 0 ⟨false,false,[0],[]⟩ (.unlocked false)

theorem flagWaitsReached : Reachable (Step flagUse) (start Bool (Fin 2) false) flagWaits := by
  have locks : Reachable (Step flagUse) (start Bool (Fin 2) false)
      ((start Bool (Fin 2) false).set 0 ⟨true,false,[],[]⟩ (.testing false false)) := .single (.locks 0 false rfl rfl)
  have fails := locks.tail (.fails 0 rfl (by simp [flagUse, start]))
  exact (fails.tail (.pushes 0 rfl)).tail (.unlocks 0 rfl)

theorem flagWaitsOnce : flagWaits.shared.waiters.count 0 + flagWaits.shared.delivered.count 0 +
    flagWaits.total (carries 0) = 1 :=
  flagWakesOnce flagWaitsReached 0

end Nodes

section Sweeps
variable {S D T : Type*} [DecidableEq T] [Fintype T] {use : Use S D} {c d : State S D T}

/- A change that makes a predicate true is followed by notify_all. -/
def SweepsAll (use : Use S D) : Prop :=
  ∀ s d d' k, use.change s d d' k → k = .all ∨ ∀ other, use.ready other d' → use.ready other d

def Swept (use : Use S D) (c : State S D T) : Prop :=
  0 < c.total sweeping ∨ ∀ t ∈ c.shared.waiters, ∀ s, queued (c.locals t) = some s → ¬ use.ready s c.shared.data

theorem sweptSet (swept : Swept use c) (t : T) {g : Shared D T} {old l : Pc S T} (here : c.locals t = old)
    (kept : sweeping old ≤ sweeping l ∨ g.waiters = [])
    (waiters : ∀ u ∈ g.waiters, u ∈ c.shared.waiters ∨ u = t)
    (mine : ∀ s, queued l = some s → ¬ use.ready s g.data ∨ (queued old = some s ∧ t ∈ c.shared.waiters) ∨ t ∉ g.waiters)
    (data : ∀ s, use.ready s g.data → use.ready s c.shared.data) : Swept use (c.set t g l) := by
  have counted := totalSet c sweeping t g l
  rw [here] at counted
  rcases kept with more | none
  · rcases swept with some | quiet
    · exact .inl (by omega)
    · refine .inr fun u inside s waits => ?_
      by_cases same : u = t
      · subst same
        rw [setSelf] at waits
        rcases mine s waits with unready | ⟨before,listed⟩ | outside
        · exact unready
        · exact fun ready => quiet u listed s (by rw [here]; exact before) (data s ready)
        · exact absurd inside outside
      · rw [setOther c g l same] at waits
        have listed := (waiters u inside).resolve_right same
        exact fun ready => quiet u listed s waits (data s ready)
  · exact .inr fun u inside => by
      rw [setShared, none] at inside
      cases inside

theorem sweptStep (sweeps : SweepsAll use) (inv : Inv use c) (swept : Swept use c) (taken : Step use c d) :
    Swept use d := by
  cases taken with
  | passes t here ready change =>
    rename_i s woken d' k
    rcases sweeps _ _ _ _ change with rfl | steady
    · have counted := totalSet c sweeping t {c.shared with data := d'} (.changed .all)
      have due : sweeping (.changed .all : Pc S T) = 1 := rfl
      have before : sweeping (.testing s woken : Pc S T) = 0 := rfl
      rw [here, due, before] at counted
      exact .inl (by omega)
    · exact sweptSet swept t here (.inl (Nat.zero_le _)) (fun u inside => .inl inside) (by simp [queued]) steady
  | pushes t here =>
    refine sweptSet swept t here (.inl le_rfl) (fun u inside => ?_) (fun s waits => ?_) (fun _ => id)
    · simpa using inside
    · cases waits
      exact .inl (inv.failed t _ here)
  | unlocks t here =>
    refine sweptSet swept t here (.inl le_rfl) (fun u inside => .inl inside) (fun s waits => ?_) (fun _ => id)
    by_cases inside : t ∈ c.shared.waiters
    · exact .inr (.inl ⟨waits,inside⟩)
    · exact .inr (.inr inside)
  | suspends t here =>
    refine sweptSet swept t here (.inl le_rfl) (fun u inside => .inl inside) (fun s waits => ?_) (fun _ => id)
    by_cases inside : t ∈ c.shared.waiters
    · exact .inr (.inl ⟨waits,inside⟩)
    · exact .inr (.inr inside)
  | unlocksFirst t here =>
    rename_i k
    exact sweptSet swept t here (.inl (by cases k <;> rfl)) (fun u inside => .inl inside) (by simp [queued]) (fun _ => id)
  | notifies t here =>
    rename_i k
    refine sweptSet swept t here ?_ (fun u inside => .inl (takeSubset k _ u inside)) (by simp [queued]) (fun _ => id)
    cases k with
    | all => exact .inr rfl
    | _ => exact .inl le_rfl
  | notifiesLate t here =>
    rename_i k
    refine sweptSet swept t here ?_ (fun u inside => .inl (takeSubset k _ u inside)) (by simp [queued]) (fun _ => id)
    cases k with
    | all => exact .inr rfl
    | _ => exact .inl le_rfl
  | locks t s idle free =>
    exact sweptSet swept t idle (.inl le_rfl) (fun u inside => .inl inside) (by simp [queued]) (fun _ => id)
  | fails t here unready =>
    exact sweptSet swept t here (.inl le_rfl) (fun u inside => .inl inside) (by simp [queued]) (fun _ => id)
  | resumes t here node =>
    exact sweptSet swept t here (.inl le_rfl) (fun u inside => .inl inside) (by simp [queued]) (fun _ => id)
  | relocks t here free =>
    exact sweptSet swept t here (.inl le_rfl) (fun u inside => .inl inside) (by simp [queued]) (fun _ => id)
  | delivers t here =>
    exact sweptSet swept t here (.inl le_rfl) (fun u inside => .inl inside) (by simp [queued]) (fun _ => id)
  | leaves t here =>
    exact sweptSet swept t here (.inl le_rfl) (fun u inside => .inl inside) (by simp [queued]) (fun _ => id)

omit [DecidableEq T] in
theorem sweepers (some : 0 < c.total sweeping) : ∃ u, c.locals u = .changed .all ∨ c.locals u = .owing .all := by
  obtain ⟨u,sweeps⟩ := existsOfTotal some
  refine ⟨u,?_⟩
  cases place : c.locals u with
  | changed k => cases k <;> simp [place, sweeping] at sweeps ⊢
  | owing k => cases k <;> simp [place, sweeping] at sweeps ⊢
  | _ => simp [place, sweeping] at sweeps

theorem flagSweeps : SweepsAll flagUse := by
  intro setter up up' k change
  cases setter with
  | false => exact .inr fun other => by simp [flagUse, change.1]
  | true => exact .inl change.2

def flagUp : State Bool Bool (Fin 2) :=
  (flagWaits.set 1 ⟨true,false,[0],[]⟩ (.testing true false)).set 1 ⟨true,true,[0],[]⟩ (.changed .all)

theorem flagUpReached : Reachable (Step flagUse) (start Bool (Fin 2) false) flagUp :=
  (flagWaitsReached.tail (.locks 1 true rfl rfl)).tail (.passes 1 rfl (.inl rfl) ⟨rfl,rfl⟩)

end Sweeps

section Slots
variable {S D T : Type*} [DecidableEq T] [Fintype T] {use : Use S D} {c d : State S D T} {slots : D → ℕ}
  {waits : S → Bool}

/- A section that waits is ready while there is a slot, and takes one; a change that makes one more
is followed by notify_one, and any other that makes more by notify_all. -/
structure Announces (use : Use S D) (slots : D → ℕ) (waits : S → Bool) : Prop where
  ready : ∀ s d, use.ready s d ↔ waits s = false ∨ 0 < slots d
  change : ∀ s d d' k, use.change s d d' k →
    k = .all ∨ slots d' + (if waits s then 1 else 0) ≤ slots d + if k = .one then 1 else 0

def waited : Pc S T → Option S
  | .failed s | .pushed s | .unlocked s | .asleep s | .resumed s | .testing s true => some s
  | _ => none

structure Roused (slots : D → ℕ) (waits : S → Bool) (c : State S D T) : Prop where
  slots : 0 < c.total sweeping ∨ c.shared.waiters = [] ∨
    slots c.shared.data ≤ c.shared.delivered.length + c.total rousing
  waited : ∀ t s, waited (c.locals t) = some s → waits s = true

theorem rousedSet (roused : Roused slots waits c) (t : T) {g : Shared D T} {old l : Pc S T} (here : c.locals t = old)
    (step : g.waiters = [] ∨ 0 < sweeping l ∨ slots g.data = 0 ∨ sweeping old ≤ sweeping l ∧
      (c.shared.waiters = [] → g.waiters = []) ∧
      slots g.data + c.shared.delivered.length + rousing old ≤ slots c.shared.data + g.delivered.length + rousing l)
    (mine : ∀ s, Condition.waited l = some s → Condition.waited old = some s ∨ waits s = true) :
    Roused slots waits (c.set t g l) := by
  subst here
  refine ⟨?_,fun u s same => ?_⟩
  · have swept := totalSet c sweeping t g l
    have woken := totalSet c rousing t g l
    have bound := leTotal c sweeping t
    simp only [setShared]
    rcases step with none | due | free | ⟨sweeps,empty,fewer⟩
    · exact .inr (.inl none)
    · exact .inl (by omega)
    · exact .inr (.inr (by omega))
    · rcases roused.slots with some | none | few
      · exact .inl (by omega)
      · exact .inr (.inl (empty none))
      · exact .inr (.inr (by omega))
  · by_cases same' : u = t
    · subst same'
      rw [setSelf] at same
      exact (mine s same).elim (roused.waited u s) id
    · rw [setOther c g l same'] at same
      exact roused.waited u s same

omit [DecidableEq T] [Fintype T] in
theorem takeOne (k : Notify) (waiters : List T) : (take k waiters).2 = [] ∨
    (rousing (.changed k : Pc S T)) ≤ (take k waiters).1.length ∧ sweeping (.changed k : Pc S T) = 0 := by
  cases k with
  | none => exact .inr ⟨Nat.zero_le _,rfl⟩
  | one =>
    cases waiters with
    | nil => exact .inl rfl
    | cons w rest => exact .inr ⟨le_rfl,rfl⟩
  | all => exact .inl rfl

theorem rousedStep (announces : Announces use slots waits) (inv : Inv use c) (roused : Roused slots waits c)
    (taken : Step use c d) : Roused slots waits d := by
  cases taken with
  | passes t here ready change =>
    rename_i s woken d' k
    refine rousedSet roused t here ?_ (by simp [waited])
    rcases announces.change _ _ _ _ change with rfl | few
    · exact .inr (.inl Nat.one_pos)
    · refine .inr (.inr (.inr ⟨Nat.zero_le _,id,?_⟩))
      have asked : woken = true → waits s = true := by
        rintro rfl
        exact roused.waited t s (by rw [here]; rfl)
      have told : (if k = .one then 1 else 0) ≤ rousing (.changed k : Pc S T) := by cases k <;> simp [rousing]
      cases woken with
      | false =>
        have free : rousing (.testing s false : Pc S T) = 0 := rfl
        simp only
        omega
      | true =>
        have one : rousing (.testing s true : Pc S T) = 1 := rfl
        rw [if_pos (asked rfl)] at few
        simp only
        omega
  | fails t here unready =>
    rename_i s woken
    have some : waits s = true ∧ slots c.shared.data = 0 := by
      rw [announces.ready] at unready
      simp only [not_or, Bool.not_eq_false, not_lt, Nat.le_zero] at unready
      exact unready
    refine rousedSet roused t here (.inr (.inr (.inl some.2))) fun s' same => ?_
    cases same
    exact .inr some.1
  | pushes t here =>
    rename_i s
    have unready := inv.failed t s here
    rw [announces.ready] at unready
    have full : slots c.shared.data = 0 := by omega
    exact rousedSet roused t here (.inr (.inr (.inl full))) fun s' same => .inl same
  | notifies t here =>
    rename_i k
    refine rousedSet roused t here ?_ (by simp [waited])
    rcases takeOne (S := S) k c.shared.waiters with none | ⟨more,quiet⟩
    · exact .inl none
    · refine .inr (.inr (.inr ⟨quiet.le.trans (Nat.zero_le _),fun none => ?_,?_⟩))
      · simp only [none]
        cases k <;> rfl
      · simp only [rousing] at more ⊢
        omega
  | notifiesLate t here =>
    rename_i k
    refine rousedSet roused t here ?_ (by simp [waited])
    rcases takeOne (S := S) k c.shared.waiters with none | ⟨more,quiet⟩
    · exact .inl none
    · have same : rousing (.owing k : Pc S T) = rousing (.changed k : Pc S T) := by cases k <;> rfl
      have calm : sweeping (.owing k : Pc S T) = sweeping (.changed k : Pc S T) := by cases k <;> rfl
      refine .inr (.inr (.inr ⟨(calm.trans quiet).le.trans (Nat.zero_le _),fun none => ?_,?_⟩))
      · simp only [none]
        cases k <;> rfl
      · have size : rousing (.delivering (take k c.shared.waiters).1 false : Pc S T) = (take k c.shared.waiters).1.length := rfl
        simp only
        omega
  | resumes t here node =>
    rename_i s
    have some := List.length_erase_add_one node
    refine rousedSet roused t here (.inr (.inr (.inr ⟨le_rfl,id,?_⟩))) fun s' same => .inl same
    have zero : rousing (.asleep s : Pc S T) = 0 := rfl
    have one : rousing (.resumed s : Pc S T) = 1 := rfl
    simp only
    omega
  | delivers t here =>
    rename_i node nodes held
    refine rousedSet roused t here (.inr (.inr (.inr ⟨le_rfl,id,?_⟩))) (by simp [waited])
    simp only [rousing, List.length_append, List.length_cons, List.length_nil]
    omega
  | unlocksFirst t here =>
    rename_i k
    refine rousedSet roused t here (.inr (.inr (.inr ⟨by cases k <;> rfl,id,?_⟩))) (by simp [waited])
    cases k <;> rfl
  | locks t s idle free => exact rousedSet roused t idle (.inr (.inr (.inr ⟨le_rfl,id,le_rfl⟩))) (by simp [waited])
  | unlocks t here => exact rousedSet roused t here (.inr (.inr (.inr ⟨le_rfl,id,le_rfl⟩))) fun s same => .inl same
  | suspends t here => exact rousedSet roused t here (.inr (.inr (.inr ⟨le_rfl,id,le_rfl⟩))) fun s same => .inl same
  | relocks t here free =>
    exact rousedSet roused t here (.inr (.inr (.inr ⟨le_rfl,id,le_rfl⟩))) fun s same => .inl same
  | leaves t here => exact rousedSet roused t here (.inr (.inr (.inr ⟨le_rfl,id,le_rfl⟩))) (by simp [waited])

def itemUse : Use Bool ℕ where
  ready maker n := maker = true ∨ 0 < n
  change maker n n' k := if maker then n' = n + 1 ∧ k = .one else n = n' + 1 ∧ k = .none

theorem itemAnnounces : Announces itemUse id (!·) := by
  refine ⟨fun maker n => by simp [itemUse],fun maker n n' k change => .inr ?_⟩
  cases maker with
  | false => simp [change.1]
  | true => simp [change.1, change.2]

def itemMade : State Bool ℕ (Fin 2) :=
  ((((((start Bool (Fin 2) 0).set 0 ⟨true,0,[],[]⟩ (.testing false false)).set 0 ⟨true,0,[],[]⟩
    (.failed false)).set 0 ⟨true,0,[0],[]⟩ (.pushed false)).set 0 ⟨false,0,[0],[]⟩ (.unlocked false)).set 1
    ⟨true,0,[0],[]⟩ (.testing true false)).set 1 ⟨true,1,[0],[]⟩ (.changed .one)

theorem itemMadeReached : Reachable (Step itemUse) (start Bool (Fin 2) 0) itemMade := by
  have locks : Reachable (Step itemUse) (start Bool (Fin 2) 0)
      ((start Bool (Fin 2) 0).set 0 ⟨true,0,[],[]⟩ (.testing false false)) := .single (.locks 0 false rfl rfl)
  have fails := locks.tail (.fails 0 rfl (by simp [itemUse, start]))
  have waits := (fails.tail (.pushes 0 rfl)).tail (.unlocks 0 rfl)
  exact (waits.tail (.locks 1 true rfl rfl)).tail (.passes 1 rfl (.inl rfl) ⟨rfl,rfl⟩)

end Slots

end Uco.Condition
