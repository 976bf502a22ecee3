import Uco.Channel

/-! uchan of a positive capacity with one close at any time. A usema is a count of
permits and, once killed, lets a waiter pass with or without one; _M_lock is held
or free. The closed flag, the two kills, the check under the lock and the push are
steps of their own, and a write to a closed channel ends the process. pushed and
received record the items in the order they went into and out of the queue. -/
namespace Uco.BufferedChannel
open Interleaving

structure Shared (V : Type*) where
  space : ℕ
  full : ℕ
  lock : Bool
  closed : Bool
  fullKilled : Bool
  spaceKilled : Bool
  halted : Bool
  items : List V
  pushed : List V
  received : List V
  deriving DecidableEq, Repr

/- `permit` says whether the caller took one when it passed the semaphore. A read
numbers the item it has popped by its position in received. -/
inductive Pc (V : Type*) where
  | idle
  | waitSpace (v : V)
  | writerLock (v : V) (permit : Bool)
  | checkClosed (v : V) (permit : Bool)
  | push (v : V) (permit : Bool)
  | writerUnlock
  | signalFull
  | waitFull
  | readerLock (permit : Bool)
  | look (permit : Bool)
  | missed
  | returnsFalse
  | readerUnlock (v : V) (k : ℕ)
  | signalSpace (v : V) (k : ℕ)
  | returnsTrue (v : V) (k : ℕ)
  deriving DecidableEq, Repr

variable {V : Type*}

inductive WriterMove : Shared V → Pc V → Shared V → Pc V → Prop where
  | call {g} (v : V) : WriterMove g .idle g (.waitSpace v)
  | waitSpace {g v n} (permit : g.space = n + 1) :
      WriterMove g (.waitSpace v) {g with space := n} (.writerLock v true)
  | passSpace {g v} (killed : g.spaceKilled = true) : WriterMove g (.waitSpace v) g (.writerLock v false)
  | lock {g v permit} (free : g.lock = false) :
      WriterMove g (.writerLock v permit) {g with lock := true} (.checkClosed v permit)
  | refuse {g v permit} (closed : g.closed = true) :
      WriterMove g (.checkClosed v permit) {g with halted := true} (.checkClosed v permit)
  | accept {g v permit} (opened : g.closed = false) : WriterMove g (.checkClosed v permit) g (.push v permit)
  | push {g v permit} : WriterMove g (.push v permit)
      {g with items := g.items ++ [v], pushed := g.pushed ++ [v]} .writerUnlock
  | unlock {g} : WriterMove g .writerUnlock {g with lock := false} .signalFull
  | signal {g} : WriterMove g .signalFull {g with full := g.full + 1} .idle

inductive ReaderMove : Shared V → Pc V → Shared V → Pc V → Prop where
  | call {g} : ReaderMove g .idle g .waitFull
  | waitFull {g n} (permit : g.full = n + 1) : ReaderMove g .waitFull {g with full := n} (.readerLock true)
  | passFull {g} (killed : g.fullKilled = true) : ReaderMove g .waitFull g (.readerLock false)
  | lock {g permit} (free : g.lock = false) : ReaderMove g (.readerLock permit) {g with lock := true} (.look permit)
  | found {g v rest permit} (front : g.items = v :: rest) : ReaderMove g (.look permit)
      {g with items := rest, received := g.received ++ [v]} (.readerUnlock v g.received.length)
  | empty {g permit} (none : g.items = []) : ReaderMove g (.look permit) g .missed
  | missUnlock {g} : ReaderMove g .missed {g with lock := false} .returnsFalse
  | unlock {g v k} : ReaderMove g (.readerUnlock v k) {g with lock := false} (.signalSpace v k)
  | signal {g v k} : ReaderMove g (.signalSpace v k) {g with space := g.space + 1} (.returnsTrue v k)
  | missReturn {g} : ReaderMove g .returnsFalse g .idle
  | foundReturn {g v k} : ReaderMove g (.returnsTrue v k) g .idle

inductive CloseMove : Shared V → Shared V → Prop where
  | store {g} (opened : g.closed = false) : CloseMove g {g with closed := true}
  | killFull {g} (closed : g.closed = true) (alive : g.fullKilled = false) : CloseMove g {g with fullKilled := true}
  | killSpace {g} (killed : g.fullKilled = true) (alive : g.spaceKilled = false) :
      CloseMove g {g with spaceKilled := true}

def Move (g : Shared V) (p : Pc V) (g' : Shared V) (p' : Pc V) : Prop :=
  g.halted = false ∧ (WriterMove g p g' p' ∨ ReaderMove g p g' p')

def system (V : Type*) : System (Shared V) (Pc V) := ⟨fun g g' => g.halted = false ∧ CloseMove g g', Move⟩

abbrev State (T V : Type*) := Config (Shared V) (Pc V) T

def start (T V : Type*) (size : ℕ) : State T V :=
  ⟨⟨size,0,false,false,false,false,false,[],[],[]⟩, fun _ => .idle⟩

@[simp] def claiming : Pc V → ℕ
  | .writerLock _ permit | .checkClosed _ permit | .push _ permit => permit.toNat
  | _ => 0
@[simp] def returning : Pc V → ℕ
  | .readerUnlock _ _ | .signalSpace _ _ => 1
  | _ => 0

@[simp] def carrying : Pc V → ℕ
  | .writerUnlock | .signalFull => 1
  | .readerLock permit | .look permit => permit.toNat
  | _ => 0

@[simp] def freeWriter : Pc V → ℕ
  | .writerLock _ permit | .checkClosed _ permit => (!permit).toNat
  | _ => 0
@[simp] def freePush : Pc V → ℕ
  | .push _ permit => (!permit).toNat
  | _ => 0
@[simp] def freeReader : Pc V → ℕ
  | .readerLock permit | .look permit => (!permit).toNat
  | _ => 0

@[simp] def pushing : Pc V → ℕ
  | .push _ _ => 1
  | _ => 0
@[simp] def inside : Pc V → ℕ
  | .checkClosed _ _ | .writerUnlock | .look _ | .missed | .readerUnlock _ _ => 1
  | _ => 0

@[simp] def failing : Pc V → ℕ
  | .missed | .returnsFalse => 1
  | _ => 0

def ticket : Pc V → Option (V × ℕ)
  | .readerUnlock v k | .signalSpace v k | .returnsTrue v k => some (v,k)
  | _ => none

abbrev Totals (V : Type*) := (Pc V → ℕ) → ℕ

structure Account (size : ℕ) (g : Shared V) (n : Totals V) : Prop where
  space : g.space + n claiming + g.items.length + n returning = size
  full : g.fullKilled.toNat = 0 → g.full + n carrying = g.items.length
  lock : n pushing + n inside = g.lock.toNat
  flag : g.fullKilled.toNat ≤ g.closed.toNat
  kills : g.spaceKilled.toNat ≤ g.fullKilled.toNat
  readers : g.fullKilled.toNat = 0 → n freeReader = 0
  writers : g.spaceKilled.toNat = 0 → n freeWriter = 0
  pushes : n freePush = 0
  order : g.pushed = g.received ++ g.items

def Over (g : Shared V) (n : Totals V) : Prop := g.closed = true ∧ g.items = [] ∧ n pushing = 0

structure Posted (p p' : Pc V) (n n' : Totals V) : Prop where
  own : ∀ f, f p ≤ n f
  moved : ∀ f, n' f + f p = n f + f p'

section Steps
variable {size : ℕ} {g g' : Shared V} {p p' : Pc V} {n n' : Totals V}

theorem permitOrFree (permit : Bool) : permit.toNat + (!permit).toNat = 1 := by cases permit <;> rfl

theorem writerAccount (taken : WriterMove g p g' p') (posted : Posted p p' n n') (old : Account size g n) :
    Account size g' n' := by
  obtain ⟨space,full,lock,flag,kills,readers,writers,pushes,order⟩ := old
  obtain ⟨own,moved⟩ := posted
  have m1 := moved claiming
  have m2 := moved returning
  have m3 := moved carrying
  have m4 := moved freeWriter
  have m5 := moved freePush
  have m6 := moved freeReader
  have m7 := moved pushing
  have m8 := moved inside
  have o1 := own freePush
  have o2 := own freeWriter
  have o3 := own inside
  clear own moved
  have locked := Bool.toNat_le g.lock
  cases taken with
  | @push v permit =>
    have one := permitOrFree permit
    simp only [claiming, returning, carrying, freeWriter, freePush, freeReader, pushing, inside] at *
    refine ⟨?_,?_,?_,?_,?_,?_,?_,?_,by simp [order]⟩ <;> (try simp only [List.length_append, List.length_singleton]) <;>
      omega
  | accept opened =>
    -- nobody has passed without a permit while the channel is open
    have low : g.closed.toNat = 0 := by rw [opened]; rfl
    simp only [claiming, returning, carrying, freeWriter, freePush, freeReader, pushing, inside] at *
    refine ⟨?_,?_,?_,?_,?_,?_,?_,?_,order⟩ <;> omega
  | passSpace killed =>
    have high : g.spaceKilled.toNat = 1 := by rw [killed]; rfl
    simp only [claiming, returning, carrying, freeWriter, freePush, freeReader, pushing, inside, Bool.toNat_true,
      Bool.toNat_false, Bool.not_false] at *
    refine ⟨?_,?_,?_,?_,?_,?_,?_,?_,order⟩ <;> omega
  | lock free =>
    simp only [claiming, returning, carrying, freeWriter, freePush, freeReader, pushing, inside, free,
      Bool.toNat_false] at *
    refine ⟨?_,?_,?_,?_,?_,?_,?_,?_,order⟩ <;> (try simp only [Bool.toNat_true]) <;> omega
  | _ =>
    simp only [claiming, returning, carrying, freeWriter, freePush, freeReader, pushing, inside, Bool.toNat_true,
      Bool.not_true, Bool.toNat_false] at *
    refine ⟨?_,?_,?_,?_,?_,?_,?_,?_,order⟩ <;> (try simp only [Bool.toNat_false]) <;> omega

theorem readerAccount (taken : ReaderMove g p g' p') (posted : Posted p p' n n') (old : Account size g n) :
    Account size g' n' := by
  obtain ⟨space,full,lock,flag,kills,readers,writers,pushes,order⟩ := old
  obtain ⟨own,moved⟩ := posted
  have m1 := moved claiming
  have m2 := moved returning
  have m3 := moved carrying
  have m4 := moved freeWriter
  have m5 := moved freePush
  have m6 := moved freeReader
  have m7 := moved pushing
  have m8 := moved inside
  have o1 := own freeReader
  have o2 := own inside
  clear own moved
  have locked := Bool.toNat_le g.lock
  cases taken with
  | @found v rest permit front =>
    have one := permitOrFree permit
    simp only [claiming, returning, carrying, freeWriter, freePush, freeReader, pushing, inside, front,
      List.length_cons] at *
    refine ⟨?_,?_,?_,?_,?_,?_,?_,?_,by simp [order]⟩ <;> (try dsimp only) <;> omega
  | @empty permit none =>
    -- a permit would have come with an item
    have one := permitOrFree permit
    have nothing : g.items.length = 0 := by rw [none]; rfl
    simp only [claiming, returning, carrying, freeWriter, freePush, freeReader, pushing, inside] at *
    refine ⟨?_,?_,?_,?_,?_,?_,?_,?_,order⟩ <;> omega
  | passFull killed =>
    have high : g.fullKilled.toNat = 1 := by rw [killed]; rfl
    simp only [claiming, returning, carrying, freeWriter, freePush, freeReader, pushing, inside, Bool.toNat_true,
      Bool.toNat_false, Bool.not_false] at *
    refine ⟨?_,?_,?_,?_,?_,?_,?_,?_,order⟩ <;> omega
  | lock free =>
    simp only [claiming, returning, carrying, freeWriter, freePush, freeReader, pushing, inside, free,
      Bool.toNat_false] at *
    refine ⟨?_,?_,?_,?_,?_,?_,?_,?_,order⟩ <;> (try simp only [Bool.toNat_true]) <;> omega
  | _ =>
    simp only [claiming, returning, carrying, freeWriter, freePush, freeReader, pushing, inside, Bool.toNat_true,
      Bool.not_true, Bool.toNat_false] at *
    refine ⟨?_,?_,?_,?_,?_,?_,?_,?_,order⟩ <;> (try simp only [Bool.toNat_false]) <;> omega

theorem closeAccount (taken : CloseMove g g') (old : Account size g n) : Account size g' n := by
  obtain ⟨space,full,lock,flag,kills,readers,writers,pushes,order⟩ := old
  cases taken with
  | store opened =>
    have := Bool.toNat_le g.fullKilled
    exact ⟨space,full,lock,by simpa using this,kills,readers,writers,pushes,order⟩
  | killFull closed alive =>
    rw [alive] at kills
    exact ⟨space,nofun,lock,by simp [closed],by simp_all,nofun,writers,pushes,order⟩
  | killSpace killed alive => exact ⟨space,full,lock,flag,by simp [killed],readers,nofun,pushes,order⟩

theorem moveAccount (taken : Move g p g' p') (posted : Posted p p' n n') (old : Account size g n) :
    Account size g' n' :=
  taken.2.elim (fun writer => writerAccount writer posted old) (fun reader => readerAccount reader posted old)

theorem moveOver (taken : Move g p g' p') (posted : Posted p p' n n') (finished : Over g n) :
    Over g' n' ∧ g'.pushed = g.pushed := by
  obtain ⟨closed,empty,nobody⟩ := finished
  have mine := posted.own pushing
  have moved := posted.moved pushing
  rcases taken.2 with writer | reader
  · cases writer with
    | accept opened => simp [closed] at opened
    | push => simp only [pushing] at mine; omega
    | _ => exact ⟨⟨closed,empty,by simp only [pushing] at *; omega⟩,rfl⟩
  · cases reader with
    | found front => simp [empty] at front
    | _ => exact ⟨⟨closed,empty,by simp only [pushing] at *; omega⟩,rfl⟩

theorem closeOver (taken : CloseMove g g') (finished : Over g n) : Over g' n ∧ g'.pushed = g.pushed := by
  obtain ⟨closed,empty,nobody⟩ := finished
  cases taken with
  | store => exact ⟨⟨rfl,empty,nobody⟩,rfl⟩
  | killFull | killSpace => exact ⟨⟨closed,empty,nobody⟩,rfl⟩

theorem emptyOver {permit : Bool} (none : g.items = []) (posted : Posted (.look permit) .missed n n')
    (old : Account size g n) : Over g n' := by
  have o1 := posted.own inside
  have o2 := posted.own carrying
  have o3 := posted.own freeReader
  have m1 := posted.moved pushing
  have one := permitOrFree permit
  have locked := Bool.toNat_le g.lock
  have lock := old.lock
  have nothing : g.items.length = 0 := by rw [none]; rfl
  simp only [inside, carrying, freeReader, pushing] at o1 o2 o3 m1
  refine ⟨?_,none,by omega⟩
  have closed : g.closed.toNat ≠ 0 := by
    have full := old.full
    have readers := old.readers
    have flag := old.flag
    omega
  cases h : g.closed with
  | false => rw [h] at closed; exact absurd rfl closed
  | true => rfl

theorem moveReceived (taken : Move g p g' p') : g.received <+: g'.received := by
  rcases taken.2 with writer | reader
  · cases writer <;> simp
  · cases reader <;> simp

theorem moveTicket (taken : Move g p g' p') {v : V} {k : ℕ} (mine : ticket p' = some (v,k)) :
    ticket p = some (v,k) ∨ k = g.received.length ∧ g'.received = g.received ++ [v] := by
  rcases taken.2 with writer | reader
  · cases writer <;> simp_all [ticket]
  · cases reader <;> simp_all [ticket]

theorem moveFails (taken : Move g p g' p') (fails : failing p' = 1) :
    failing p = 1 ∨ ∃ permit, p = .look permit ∧ g.items = [] ∧ g' = g ∧ p' = .missed := by
  rcases taken.2 with writer | reader
  · cases writer <;> simp_all [failing]
  · cases reader <;> simp_all [failing]

end Steps

section Runs
variable {T : Type*} [Fintype T]

structure Invariant (size : ℕ) (c : State T V) : Prop where
  account : Account size c.shared c.total
  finished : ∀ {t}, failing (c.locals t) = 1 → Over c.shared c.total
  receipts : ∀ {t v k}, ticket (c.locals t) = some (v,k) → c.shared.received[k]? = some v
  once : ∀ {t u v w k}, ticket (c.locals t) = some (v,k) → ticket (c.locals u) = some (w,k) → t = u

theorem startInvariant (size : ℕ) : Invariant size (start T V size) := by
  have none (f : Pc V → ℕ) (zero : f .idle = 0) : (start T V size).total f = 0 := totalConst _ f (fun _ => rfl) zero
  refine ⟨⟨?_,fun _ => ?_,?_,Nat.le_refl 0,Nat.le_refl 0,fun _ => none _ rfl,fun _ => none _ rfl,none _ rfl,rfl⟩,
    fun fails => by simp [start, failing] at fails,fun mine => by simp [start, ticket] at mine,
    fun mine => by simp [start, ticket] at mine⟩
  · rw [none claiming rfl, none returning rfl]; rfl
  · rw [none carrying rfl]; rfl
  · rw [none pushing rfl, none inside rfl]; rfl

variable [DecidableEq T]

theorem postedOf (c : State T V) (t : T) (g : Shared V) (l : Pc V) :
    Posted (c.locals t) l c.total (c.set t g l).total :=
  ⟨fun f => leTotal c f t,fun f => totalSet c f t g l⟩

theorem stepInvariant {size : ℕ} {c d : State T V} (old : Invariant size c) (taken : Step (system V) c d) :
    Invariant size d := by
  cases taken with
  | @solo g taken =>
    refine ⟨closeAccount taken.2 old.account,fun fails => (closeOver taken.2 (old.finished fails)).1,?_,old.once⟩
    have same : g.received = c.shared.received := by cases taken.2 <;> rfl
    intro t v k mine
    rw [same]
    exact old.receipts mine
  | @move t g l taken =>
    have posted := postedOf c t g l
    refine ⟨moveAccount taken posted old.account,?_,?_,?_⟩
    · intro u fails
      by_cases same : u = t
      · subst same
        rw [setSelf] at fails
        rcases moveFails taken fails with before | ⟨permit,here,none,rfl,rfl⟩
        · exact (moveOver taken posted (old.finished before)).1
        · exact emptyOver none (here ▸ posted) old.account
      · rw [setOther c g l same] at fails
        exact (moveOver taken posted (old.finished fails)).1
    · intro u v k mine
      by_cases same : u = t
      · subst same
        rw [setSelf] at mine
        rcases moveTicket taken mine with kept | ⟨rfl,grown⟩
        · exact Channel.getPrefix (moveReceived taken) (old.receipts kept)
        · simp [grown]
      · rw [setOther c g l same] at mine
        exact Channel.getPrefix (moveReceived taken) (old.receipts mine)
    · -- a new ticket is the length of received, beyond every ticket that is out
      have fresh {u : T} {v w : V} {k : ℕ} (other : u ≠ t) (new : ticket l = some (v,k))
          (held : ticket (c.locals u) = some (w,k)) : ticket (c.locals t) = some (v,k) := by
        rcases moveTicket taken new with kept | ⟨rfl,-⟩
        · exact kept
        · exact absurd (List.getElem?_eq_some_iff.mp (old.receipts held)).1 (Nat.lt_irrefl _)
      intro u u' v w k mine yours
      by_cases same : u = t <;> by_cases same' : u' = t
      · rw [same, same']
      · subst same
        rw [setSelf] at mine
        rw [setOther c g l same'] at yours
        exact old.once (fresh same' mine yours) yours
      · subst same'
        rw [setOther c g l same] at mine
        rw [setSelf] at yours
        exact old.once mine (fresh same yours mine)
      · rw [setOther c g l same] at mine
        rw [setOther c g l same'] at yours
        exact old.once mine yours

theorem runInvariant {size : ℕ} {c : State T V} (reached : Reachable (Step (system V)) (start T V size) c) :
    Invariant size c :=
  reachableInvariant (Invariant size) (startInvariant size) (fun _ _ old taken => stepInvariant old taken) reached

theorem stepOver {c d : State T V} (taken : Step (system V) c d) (finished : Over c.shared c.total) :
    Over d.shared d.total ∧ d.shared.pushed = c.shared.pushed := by
  cases taken with
  | solo taken => exact closeOver taken.2 finished
  | @move t g l taken => exact moveOver taken (postedOf c t g l) finished

theorem runOver {c d : State T V} (run : Reachable (Step (system V)) c d) (finished : Over c.shared c.total) :
    Over d.shared d.total ∧ d.shared.pushed = c.shared.pushed :=
  reachableInvariant (fun d => Over d.shared d.total ∧ d.shared.pushed = c.shared.pushed) ⟨finished,rfl⟩
    (fun _ _ old taken => ⟨(stepOver taken old.1).1,(stepOver taken old.1).2.trans old.2⟩) run

def arrived : Pc V → Option Bool
  | .readerLock permit | .look permit => some permit
  | _ => none

structure BoundedFifo (size : ℕ) (c : State T V) : Prop where
  bounded : c.shared.items.length ≤ size
  found : c.shared.closed = false → ∀ t permit, arrived (c.locals t) = some permit →
    permit = true ∧ c.shared.items ≠ []
  order : c.shared.pushed = c.shared.received ++ c.shared.items
  receipts : ∀ t v k, ticket (c.locals t) = some (v,k) → c.shared.received[k]? = some v
  once : ∀ t u v w k, ticket (c.locals t) = some (v,k) → ticket (c.locals u) = some (w,k) → t = u
  ending : ∀ t, failing (c.locals t) = 1 → c.shared.closed = true ∧ c.shared.items = [] ∧
    ∀ d, Reachable (Step (system V)) c d → d.shared.pushed = c.shared.pushed

theorem bufferedFifo {size : ℕ} {c : State T V} (reached : Reachable (Step (system V)) (start T V size) c) :
    BoundedFifo size c := by
  have inv := runInvariant reached
  have account := inv.account
  refine ⟨by have := account.space; omega,fun opened t permit here => ?_,account.order,fun t v k => inv.receipts,
    fun t u v w k => inv.once,fun t fails => ?_⟩
  · have alive : c.shared.fullKilled.toNat = 0 := by
      have := account.flag
      rw [opened] at this
      exact Nat.le_zero.mp this
    have free := leTotal c freeReader t
    have carried := leTotal c carrying t
    rw [account.readers alive] at free
    have full := account.full alive
    cases pc : c.locals t <;> rw [pc] at here free carried <;> simp only [arrived, reduceCtorEq] at here
    all_goals
      cases here
      simp only [freeReader, carrying] at free carried
      have one := permitOrFree permit
      have some' : permit = true := by
        cases permit
        · exact absurd free (by decide)
        · rfl
      subst some'
      refine ⟨rfl,fun none => ?_⟩
      rw [none] at full
      simp only [Bool.toNat_true, List.length_nil] at carried full
      omega
  · obtain ⟨closed,empty,_⟩ := inv.finished fails
    exact ⟨closed,empty,fun d run => (runOver run (inv.finished fails)).2⟩

theorem closedReadFails :
    ∃ c : State (Fin 1) ℕ, c.locals 0 = .missed ∧ c.shared.closed = true ∧ BoundedFifo 2 c := by
  have r0 : Reachable (Step (system ℕ)) (start (Fin 1) ℕ 2) (start (Fin 1) ℕ 2) := .refl
  have r1 := r0.tail (.solo ⟨rfl,.store rfl⟩)
  have r2 := r1.tail (.solo ⟨rfl,.killFull rfl rfl⟩)
  have r3 := r2.tail (.move 0 ⟨rfl,.inr .call⟩)
  have r4 := r3.tail (.move 0 ⟨rfl,.inr (.passFull rfl)⟩)
  have r5 := r4.tail (.move 0 ⟨rfl,.inr (.lock rfl)⟩)
  have r6 := r5.tail (.move 0 ⟨rfl,.inr (.empty rfl)⟩)
  exact ⟨_,rfl,rfl,bufferedFifo r6⟩

end Runs

end Uco.BufferedChannel
