import Uco.Interleaving

/-! uchan of capacity 0, not closed. A usema is a count of permits that any waiter may
take and _M_lock is held or free; what happens between lock and unlock is one step.
placed and taken record the values in the order they went into and out of the slot. -/
namespace Uco.Channel
open Interleaving

structure Shared (V : Type*) where
  canWrite : ℕ
  canRead : ℕ
  readDone : ℕ
  lock : Bool
  slot : Option V
  placed : List V
  taken : List V
  deriving DecidableEq, Repr

inductive Pc (V : Type*) where
  | idle
  | waitWrite (v : V)
  | writerLock (v : V)
  | place (v : V)
  | writerUnlock (v : V) (k : ℕ)
  | signalRead (v : V) (k : ℕ)
  | waitDone (v : V) (k : ℕ)
  | wrote (v : V) (k : ℕ)
  | waitRead
  | readerLock
  | take
  | missed
  | readerUnlock (v : V)
  | signalDone (v : V)
  | signalWrite (v : V)
  deriving DecidableEq, Repr

variable {V : Type*}

inductive WriterMove : Shared V → Pc V → Shared V → Pc V → Prop where
  | call {g} (v : V) : WriterMove g .idle g (.waitWrite v)
  | waitWrite {g v n} (permit : g.canWrite = n + 1) :
      WriterMove g (.waitWrite v) {g with canWrite := n} (.writerLock v)
  | lock {g v} (free : g.lock = false) : WriterMove g (.writerLock v) {g with lock := true} (.place v)
  | place {g v} : WriterMove g (.place v) {g with slot := some v, placed := g.placed ++ [v]}
      (.writerUnlock v g.placed.length)
  | unlock {g v k} : WriterMove g (.writerUnlock v k) {g with lock := false} (.signalRead v k)
  | signalRead {g v k} : WriterMove g (.signalRead v k) {g with canRead := g.canRead + 1} (.waitDone v k)
  | waitDone {g v k n} (permit : g.readDone = n + 1) :
      WriterMove g (.waitDone v k) {g with readDone := n} (.wrote v k)
  | returns {g v k} : WriterMove g (.wrote v k) g .idle

inductive ReaderMove : Shared V → Pc V → Shared V → Pc V → Prop where
  | call {g} : ReaderMove g .idle g .waitRead
  | waitRead {g n} (permit : g.canRead = n + 1) : ReaderMove g .waitRead {g with canRead := n} .readerLock
  | lock {g} (free : g.lock = false) : ReaderMove g .readerLock {g with lock := true} .take
  | take {g v} (full : g.slot = some v) :
      ReaderMove g .take {g with slot := none, taken := g.taken ++ [v]} (.readerUnlock v)
  | miss {g} (empty : g.slot = none) : ReaderMove g .take g .missed
  | missUnlock {g} : ReaderMove g .missed {g with lock := false} .idle
  | unlock {g v} : ReaderMove g (.readerUnlock v) {g with lock := false} (.signalDone v)
  | signalDone {g v} : ReaderMove g (.signalDone v) {g with readDone := g.readDone + 1} (.signalWrite v)
  | signalWrite {g v} : ReaderMove g (.signalWrite v) {g with canWrite := g.canWrite + 1} .idle

def Move (g : Shared V) (p : Pc V) (g' : Shared V) (p' : Pc V) : Prop :=
  WriterMove g p g' p' ∨ ReaderMove g p g' p'

def system (V : Type*) : System (Shared V) (Pc V) := ⟨fun _ _ => False, Move⟩

abbrev State (T V : Type*) := Config (Shared V) (Pc V) T

def start (T V : Type*) : State T V := ⟨⟨1,0,0,false,none,[],[]⟩, fun _ => .idle⟩

@[simp] def clearing : Pc V → ℕ
  | .writerLock _ | .place _ | .readerUnlock _ | .signalDone _ | .signalWrite _ => 1
  | _ => 0
@[simp] def carrying : Pc V → ℕ
  | .writerUnlock _ _ | .signalRead _ _ | .readerLock | .take => 1
  | _ => 0
@[simp] def missing : Pc V → ℕ | .missed => 1 | _ => 0
@[simp] def inLock : Pc V → ℕ
  | .place _ | .writerUnlock _ _ | .take | .missed | .readerUnlock _ => 1
  | _ => 0

/- From place to the permit of _M_read_done a write is awaiting a reader's answer. -/
@[simp] def awaiting : Pc V → ℕ
  | .writerUnlock _ _ | .signalRead _ _ | .waitDone _ _ => 1
  | _ => 0
@[simp] def answering : Pc V → ℕ
  | .readerUnlock _ | .signalDone _ => 1
  | _ => 0
/- A write under way holds or has used up a permit of _M_can_write and awaits its answer. -/
@[simp] def underWay : Pc V → ℕ
  | .writerLock _ | .place _ => 1
  | p => awaiting p

def filled (slot : Option V) : ℕ := slot.toList.length

def ticket : Pc V → Option (V × ℕ)
  | .writerUnlock v k | .signalRead v k | .waitDone v k | .wrote v k => some (v,k)
  | _ => none

structure Turn (g : Shared V) (n : Tally (Pc V)) : Prop where
  turn : g.canWrite + n clearing + g.canRead + n carrying = 1
  slot : filled g.slot = g.canRead + n carrying
  lock : n inLock = g.lock.toNat
  order : g.placed = g.taken ++ g.slot.toList
  missing : n missing = 0

section Steps
variable {g g' : Shared V} {p p' : Pc V} {n n' : Tally (Pc V)}

theorem slotNone {slot : Option V} (empty : filled slot = 0) : slot = none := by
  cases slot <;> simp_all [filled]

theorem writerTurn (taken : WriterMove g p g' p') (posted : Recount p p' n n') (old : Turn g n) : Turn g' n' := by
  obtain ⟨turn,slot,lock,order,missed⟩ := old
  obtain ⟨own,change⟩ := posted
  have c1 := change clearing
  have c2 := change carrying
  have c3 := change inLock
  have c4 := change missing
  have o1 := own inLock
  have o2 := own carrying
  clear own change
  cases taken with
  | place =>
    simp only [clearing, carrying, inLock, missing] at *
    have none : g.slot = none := slotNone (by omega)
    refine ⟨?_,?_,?_,?_,?_⟩ <;> (try dsimp only)
    · omega
    · simp only [filled, Option.toList_some, List.length_singleton]; omega
    · omega
    · simp [order, none]
    · omega
  | lock free =>
    simp only [clearing, carrying, inLock, missing, free, Bool.toNat_false] at *
    refine ⟨?_,?_,?_,order,?_⟩ <;> (try simp only [Bool.toNat_true]) <;> omega
  | unlock =>
    have := Bool.toNat_le g.lock
    simp only [clearing, carrying, inLock, missing] at *
    refine ⟨?_,?_,?_,order,?_⟩ <;> (try simp only [Bool.toNat_false]) <;> omega
  | _ =>
    simp only [clearing, carrying, inLock, missing] at *
    refine ⟨?_,?_,?_,order,?_⟩ <;> (try dsimp only) <;> omega

theorem readerTurn (taken : ReaderMove g p g' p') (posted : Recount p p' n n') (old : Turn g n) : Turn g' n' := by
  obtain ⟨turn,slot,lock,order,missed⟩ := old
  obtain ⟨own,change⟩ := posted
  have c1 := change clearing
  have c2 := change carrying
  have c3 := change inLock
  have c4 := change missing
  have o1 := own inLock
  have o2 := own carrying
  have o3 := own missing
  clear own change
  cases taken with
  | take full =>
    simp only [clearing, carrying, inLock, missing, full, filled, Option.toList_some, List.length_singleton] at *
    refine ⟨?_,?_,?_,?_,?_⟩ <;> (try dsimp only)
    · omega
    · simp only [filled, Option.toList_none, List.length_nil]; omega
    · omega
    · simp [order]
    · omega
  | miss empty =>
    simp only [carrying, empty, filled, Option.toList_none, List.length_nil] at *
    omega
  | missUnlock =>
    simp only [missing] at o3
    omega
  | lock free =>
    simp only [clearing, carrying, inLock, missing, free, Bool.toNat_false] at *
    refine ⟨?_,?_,?_,order,?_⟩ <;> (try simp only [Bool.toNat_true]) <;> omega
  | unlock =>
    have := Bool.toNat_le g.lock
    simp only [clearing, carrying, inLock, missing] at *
    refine ⟨?_,?_,?_,order,?_⟩ <;> (try simp only [Bool.toNat_false]) <;> omega
  | _ =>
    simp only [clearing, carrying, inLock, missing] at *
    refine ⟨?_,?_,?_,order,?_⟩ <;> (try dsimp only) <;> omega

/- Each awaiting write is answered by the value in the slot, by the reader that has just moved
one out, or by a permit of _M_read_done. -/
def Answered (g : Shared V) (n : Tally (Pc V)) : Prop :=
  n awaiting = filled g.slot + n answering + g.readDone

theorem moveAnswered (taken : Move g p g' p') (posted : Recount p p' n n') (turn : Turn g n)
    (old : Answered g n) : Answered g' n' := by
  have c1 := posted.change awaiting
  have c2 := posted.change answering
  have mine := posted.own clearing
  have slot := turn.slot
  have one := turn.turn
  unfold Answered at old ⊢
  rcases taken with writer | reader
  · cases writer with
    | place =>
      simp only [clearing, awaiting, answering, filled, Option.toList_some, List.length_singleton] at *
      omega
    | _ =>
      simp only [awaiting, answering] at *
      omega
  · cases reader with
    | take full =>
      simp only [awaiting, answering, full, filled, Option.toList_some, Option.toList_none, List.length_singleton,
        List.length_nil] at *
      omega
    | _ =>
      simp only [awaiting, answering] at *
      omega

theorem moveHistory (taken : Move g p g' p') : g.placed <+: g'.placed ∧ g.taken <+: g'.taken := by
  rcases taken with writer | reader
  · cases writer <;> simp
  · cases reader <;> simp

theorem moveTicket (taken : Move g p g' p') {v : V} {k : ℕ} (mine : ticket p' = some (v,k)) :
    ticket p = some (v,k) ∨ p = .place v ∧ k = g.placed.length ∧ g'.placed = g.placed ++ [v] := by
  rcases taken with writer | reader
  · cases writer <;> simp_all [ticket]
  · cases reader <;> simp_all [ticket]

end Steps

section Runs
variable {T : Type*} [Fintype T]

structure Invariant (c : State T V) : Prop where
  turn : Turn c.shared c.total
  answered : Answered c.shared c.total
  tickets : ∀ {t v k}, ticket (c.locals t) = some (v,k) → c.shared.placed[k]? = some v

def carries : Pc V → Prop
  | .writerUnlock _ _ | .signalRead _ _ | .readerLock | .take => True
  | _ => False

structure Rendezvous (c : State T V) : Prop where
  acknowledged : ∀ {t v k}, c.locals t = .wrote v k → c.shared.taken[k]? = some v
  order : c.shared.placed = c.shared.taken ++ c.shared.slot.toList
  noMiss : ∀ t, c.locals t ≠ .missed
  carried : c.shared.slot ≠ none → 0 < c.shared.canRead ∨ ∃ t, carries (c.locals t)

/- A write takes the _M_can_write permit only when no other still waits for its answer. -/
def apart (c d : State T V) : Prop :=
  ∀ t v, c.locals t = .waitWrite v → d.locals t = .writerLock v → ∀ u w k, c.locals u ≠ .waitDone w k

def run [DecidableEq T] (c d : State T V) : Prop := Step (system V) c d ∧ apart c d

theorem startInvariant : Invariant (start T V) := by
  have none : ∀ f : Pc V → ℕ, f .idle = 0 → (start T V).total f = 0 := fun f zero => totalConst _ f (fun _ => rfl) zero
  refine ⟨⟨?_,?_,?_,rfl,none missing rfl⟩,?_,fun mine => by simp [start, ticket] at mine⟩
  · rw [none clearing rfl, none carrying rfl]; rfl
  · rw [none carrying rfl]; rfl
  · rw [none inLock rfl]; rfl
  · rw [Answered, none awaiting rfl, none answering rfl]; rfl

theorem getPrefix {xs ys : List V} (grows : xs <+: ys) {k : ℕ} {v : V} (here : xs[k]? = some v) :
    ys[k]? = some v := by
  obtain ⟨more,rfl⟩ := grows
  rw [List.getElem?_append_left (List.getElem?_eq_some_iff.mp here).1, here]

theorem rendezvousOf {c : State T V} (inv : Invariant c)
    (acknowledged : ∀ {t v k}, c.locals t = .wrote v k → c.shared.taken[k]? = some v) : Rendezvous c := by
  refine ⟨acknowledged,inv.turn.order,?_,?_⟩
  · intro t misses
    have mine := leTotal c missing t
    rw [misses, inv.turn.missing] at mine
    exact absurd mine (show ¬1 ≤ 0 by decide)
  · intro full
    by_cases permit : 0 < c.shared.canRead
    · exact .inl permit
    · have slot := inv.turn.slot
      have some : 0 < filled c.shared.slot := by
        by_contra empty
        exact full (slotNone (by omega))
      obtain ⟨t,here⟩ := existsOfTotal (show 0 < c.total carrying by omega)
      refine .inr ⟨t,?_⟩
      cases h : c.locals t <;> simp_all [carrying, carries]

variable [DecidableEq T]

theorem stepInvariant {c d : State T V} (old : Invariant c) (taken : Step (system V) c d) : Invariant d := by
  cases taken with
  | solo taken => exact taken.elim
  | @move t g l taken =>
    have posted := recountOf c id t g l
    refine ⟨taken.elim (fun writer => writerTurn writer posted old.turn)
      (fun reader => readerTurn reader posted old.turn),moveAnswered taken posted old.turn old.answered,?_⟩
    intro u v k mine
    by_cases same : u = t
    · rw [same, setSelf] at mine
      rcases moveTicket taken mine with kept | ⟨-,rfl,grown⟩
      · exact getPrefix (moveHistory taken).1 (old.tickets kept)
      · simp [grown]
    · rw [setOther c g l same] at mine
      exact getPrefix (moveHistory taken).1 (old.tickets mine)

theorem wroteCases {g g' : Shared V} {p : Pc V} {v : V} {k : ℕ} (taken : Move g p g' (.wrote v k)) :
    ∃ n, p = .waitDone v k ∧ g.readDone = n + 1 ∧ g'.taken = g.taken := by
  rcases taken with writer | reader
  · cases writer with
    | waitDone permit => exact ⟨_,rfl,permit,rfl⟩
  · cases reader

omit [DecidableEq T] in
theorem slotEmpty {c : State T V} {n : ℕ} (inv : Invariant c) (one : c.total underWay ≤ 1)
    (permit : c.shared.readDone = n + 1) : c.shared.slot = none := by
  have answered := inv.answered
  have fewer : c.total awaiting ≤ c.total underWay :=
    Finset.sum_le_sum fun t _ => by cases c.locals t <;> simp [underWay, awaiting]
  exact slotNone (by unfold Answered at answered; omega)

/- While a permit of _M_can_write is there, no caller is between the two permits and nobody
holds _M_lock. -/
structure Rests (c : State T V) : Prop where
  clearing : c.total clearing = 0
  carrying : c.total carrying = 0
  slot : c.shared.slot = none
  free : c.shared.lock = false

omit [DecidableEq T] in
theorem permitRests {c : State T V} {n : ℕ} (inv : Invariant c) (permit : c.shared.canWrite = n + 1) : Rests c := by
  obtain ⟨turn,slot,lock,order,missed⟩ := inv.turn
  refine ⟨by omega,by omega,slotNone (by omega),?_⟩
  have within : c.total inLock ≤ c.total clearing + c.total carrying + c.total missing := by
    rw [← totalAdd, ← totalAdd]
    exact Finset.sum_le_sum fun t _ => by cases c.locals t <;> simp [inLock, clearing, carrying, missing]
  cases h : c.shared.lock with
  | false => rfl
  | true =>
    rw [h, Bool.toNat_true] at lock
    omega

omit [DecidableEq T] in
theorem answerReady {c : State T V} (inv : Invariant c) (rests : Rests c) {t : T} {v : V} {k : ℕ}
    (waits : c.locals t = .waitDone v k) : ∃ n, c.shared.readDone = n + 1 := by
  have waiting : 1 ≤ c.total awaiting := by
    have mine := leTotal c awaiting t
    rwa [waits] at mine
  have noReader := totalZeroOf (c := c) (f := answering) (g := clearing)
    (fun l none => by cases l <;> simp_all [answering, clearing]) rests.clearing
  have answered := inv.answered
  rw [Answered, rests.slot, noReader] at answered
  exact Nat.exists_eq_add_one.mpr (by simp only [filled, Option.toList_none, List.length_nil] at answered; omega)

structure Alone (c : State T V) : Prop where
  inv : Invariant c
  one : c.total underWay ≤ 1
  acknowledged : ∀ {t v k}, c.locals t = .wrote v k → c.shared.taken[k]? = some v

theorem underWayMove {g g' : Shared V} {p p' : Pc V} (taken : Move g p g' p') :
    underWay p' ≤ underWay p ∨ ∃ v n, p = .waitWrite v ∧ p' = .writerLock v ∧ g.canWrite = n + 1 := by
  rcases taken with writer | reader
  · cases writer with
    | waitWrite permit => exact .inr ⟨_,_,rfl,rfl,permit⟩
    | _ => exact .inl (by simp [underWay, awaiting])
  · cases reader <;> exact .inl (by simp [underWay, awaiting])

theorem stepAlone {c d : State T V} (old : Alone c) (taken : run c d) : Alone d := by
  obtain ⟨taken,fair⟩ := taken
  have inv := stepInvariant old.inv taken
  cases taken with
  | solo taken => exact taken.elim
  | @move t g l taken =>
    refine ⟨inv,?_,?_⟩
    · have change := totalSet c underWay t g l
      rcases underWayMove taken with less | ⟨v,n,here,rfl,permit⟩
      · have := old.one
        omega
      · have alone : c.total underWay = 0 := by
          have rests := permitRests old.inv permit
          refine Finset.sum_eq_zero (fun u _ => ?_)
          have noWait := fair t v here (setSelf c t g _) u
          have noClearing := rests.clearing ▸ leTotal c clearing u
          have noCarrying := rests.carrying ▸ leTotal c carrying u
          cases h : c.locals u <;> simp_all [underWay, awaiting, clearing, carrying]
        have one : underWay (.writerLock v : Pc V) = 1 := rfl
        omega
    · intro u v k wrote
      by_cases same : u = t
      · subst same
        rw [setSelf] at wrote
        subst wrote
        obtain ⟨n,waits,permit,kept⟩ := wroteCases taken
        have placed := old.inv.tickets (show ticket (c.locals u) = some (v,k) by rw [waits]; rfl)
        have order := old.inv.turn.order
        rw [slotEmpty old.inv old.one permit, Option.toList_none, List.append_nil] at order
        rw [setShared, kept, ← order, placed]
      · rw [setOther c g l same] at wrote
        exact getPrefix (moveHistory taken).2 (old.acknowledged wrote)

theorem overtakes {g : Shared V} {v : V} {m : ℕ} (free : g.lock = false) (permit : g.readDone = m + 1) :
    Moves (system V) g (.writerLock v) ⟨g.canWrite,g.canRead + 1,m,false,some v,g.placed ++ [v],g.taken⟩
      (.wrote v g.placed.length) := by
  obtain ⟨canWrite,canRead,readDone,lock,slot,placed,taken⟩ := g
  subst free permit
  have r1 : Moves (system V) ⟨canWrite,canRead,m + 1,false,slot,placed,taken⟩ (.writerLock v) _ _ :=
    .tail .refl (.inl (.lock rfl))
  have r2 := r1.tail (.inl .place)
  have r3 := r2.tail (.inl .unlock)
  have r4 := r3.tail (.inl .signalRead)
  exact r4.tail (.inl (.waitDone rfl))

/- Every run whose writes take turns is a rendezvous throughout, and from there the first
write that does not wait for its turn can return with its value still in the slot. -/
theorem rendezvousKept {c : State T V} (reached : Reachable run (start T V) c) :
    Rendezvous c ∧ ∀ d, Step (system V) c d → ¬apart c d →
      ∃ e, Reachable (Step (system V)) d e ∧ ¬Rendezvous e := by
  have alone : Alone c := reachableInvariant Alone
    ⟨startInvariant,(totalConst (start T V) underWay (fun _ => rfl) rfl).trans_le zero_le_one,fun mine => by simp [start] at mine⟩
    (fun _ _ old taken => stepAlone old taken) reached
  refine ⟨rendezvousOf alone.inv alone.acknowledged,fun d taken early => ?_⟩
  simp only [apart, not_forall, not_not] at early
  obtain ⟨t,v,here,done,u,w,k,waits⟩ := early
  cases taken with
  | solo taken => exact taken.elim
  | @move t' g l taken =>
    have same : t = t' := by
      by_contra other
      rw [setOther c g l other, here] at done
      cases done
    subst same
    rw [setSelf] at done
    subst done
    change Move c.shared (c.locals t) g _ at taken
    rw [here] at taken
    obtain ⟨n,permit,rfl⟩ : ∃ n, c.shared.canWrite = n + 1 ∧ g = {c.shared with canWrite := n} := by
      rcases taken with writer | reader
      · cases writer with
        | waitWrite permit => exact ⟨_,permit,rfl⟩
      · cases reader
    have rests := permitRests alone.inv permit
    obtain ⟨m,answer⟩ := answerReady alone.inv rests waits
    have moves := overtakes (g := {c.shared with canWrite := n}) (v := v) rests.free answer
    refine ⟨_,movesReachable (setSelf c t _ (.writerLock v) ▸ moves),fun good => ?_⟩
    have ack := good.acknowledged (setSelf _ t _ _)
    have order := alone.inv.turn.order
    rw [rests.slot, Option.toList_none, List.append_nil] at order
    simp [order] at ack

theorem bothReceived : ∃ c : State (Fin 3) ℕ, Reachable run (start (Fin 3) ℕ) c ∧
    c.locals 0 = .idle ∧ c.locals 1 = .wrote 8 1 ∧ c.shared.taken = [7,8] ∧ Rendezvous c := by
  have move : ∀ {c : State (Fin 3) ℕ} (t : Fin 3) {g l}, Move c.shared (c.locals t) g l →
      (∀ v, l ≠ .writerLock v) → run c (c.set t g l) := by
    refine fun {c} t {g l} taken other => ⟨.move t taken,fun u v here done => ?_⟩
    by_cases same : u = t
    · subst same
      exact absurd ((setSelf c u g l).symm.trans done) (other v)
    · rw [setOther c g l same, here] at done
      cases done
  have turn : ∀ {c : State (Fin 3) ℕ} (t : Fin 3) {g v}, Move c.shared (c.locals t) g (.writerLock v) →
      (∀ u, awaiting (c.locals u) = 0) → run c (c.set t g (.writerLock v)) := by
    refine fun {c} t {g v} taken alone => ⟨.move t taken,fun _ _ _ _ u w k waits => ?_⟩
    have none := alone u
    rw [waits] at none
    cases none
  have r0 : Reachable run (start (Fin 3) ℕ) (start (Fin 3) ℕ) := .refl
  have r1 := r0.tail (move 0 (.inl (.call 7)) nofun)
  have r2 := r1.tail (turn 0 (.inl (.waitWrite rfl)) (by decide))
  have r3 := r2.tail (move 0 (.inl (.lock rfl)) nofun)
  have r4 := r3.tail (move 0 (.inl .place) nofun)
  have r5 := r4.tail (move 1 (.inl (.call 8)) nofun)
  have r6 := r5.tail (move 0 (.inl .unlock) nofun)
  have r7 := r6.tail (move 0 (.inl .signalRead) nofun)
  have r8 := r7.tail (move 2 (.inr .call) nofun)
  have r9 := r8.tail (move 2 (.inr (.waitRead rfl)) nofun)
  have r10 := r9.tail (move 2 (.inr (.lock rfl)) nofun)
  have r11 := r10.tail (move 2 (.inr (.take rfl)) nofun)
  have r12 := r11.tail (move 2 (.inr .unlock) nofun)
  have r13 := r12.tail (move 2 (.inr .signalDone) nofun)
  have r14 := r13.tail (move 2 (.inr .signalWrite) nofun)
  have r15 := r14.tail (move 0 (.inl (.waitDone rfl)) nofun)
  have r16 := r15.tail (move 0 (.inl .returns) nofun)
  have r17 := r16.tail (turn 1 (.inl (.waitWrite rfl)) (by decide))
  have r18 := r17.tail (move 1 (.inl (.lock rfl)) nofun)
  have r19 := r18.tail (move 1 (.inl .place) nofun)
  have r20 := r19.tail (move 1 (.inl .unlock) nofun)
  have r21 := r20.tail (move 1 (.inl .signalRead) nofun)
  have r22 := r21.tail (move 2 (.inr .call) nofun)
  have r23 := r22.tail (move 2 (.inr (.waitRead rfl)) nofun)
  have r24 := r23.tail (move 2 (.inr (.lock rfl)) nofun)
  have r25 := r24.tail (move 2 (.inr (.take rfl)) nofun)
  have r26 := r25.tail (move 2 (.inr .unlock) nofun)
  have r27 := r26.tail (move 2 (.inr .signalDone) nofun)
  have r28 := r27.tail (move 1 (.inl (.waitDone rfl)) nofun)
  exact ⟨_,r28,rfl,rfl,rfl,(rendezvousKept r28).1⟩

/- Two writers and one reader: the second write takes the permit signalled for the first
one's value, and returns while its own value 8 is still in the slot. -/
theorem writeReturnsEarly :
    ∃ c : State (Fin 3) ℕ, Reachable (Step (system ℕ)) (start (Fin 3) ℕ) c ∧
      c.locals 1 = .wrote 8 1 ∧ c.shared.slot = some 8 ∧ ¬Rendezvous c := by
  have r0 : Reachable (Step (system ℕ)) (start (Fin 3) ℕ) (start (Fin 3) ℕ) := .refl
  have r1 := r0.tail (.move 0 (.inl (.call 7)))
  have r2 := r1.tail (.move 0 (.inl (.waitWrite rfl)))
  have r3 := r2.tail (.move 0 (.inl (.lock rfl)))
  have r4 := r3.tail (.move 0 (.inl .place))
  have r5 := r4.tail (.move 0 (.inl .unlock))
  have r6 := r5.tail (.move 0 (.inl .signalRead))
  have r7 := r6.tail (.move 2 (.inr .call))
  have r8 := r7.tail (.move 2 (.inr (.waitRead rfl)))
  have r9 := r8.tail (.move 2 (.inr (.lock rfl)))
  have r10 := r9.tail (.move 2 (.inr (.take rfl)))
  have r11 := r10.tail (.move 2 (.inr .unlock))
  have r12 := r11.tail (.move 2 (.inr .signalDone))
  have r13 := r12.tail (.move 2 (.inr .signalWrite))
  have r14 := r13.tail (.move 1 (.inl (.call 8)))
  have r15 := r14.tail (.move 1 (.inl (.waitWrite rfl)))
  have r16 := r15.tail (.move 1 (.inl (.lock rfl)))
  have r17 := r16.tail (.move 1 (.inl .place))
  have r18 := r17.tail (.move 1 (.inl .unlock))
  have r19 := r18.tail (.move 1 (.inl .signalRead))
  have r20 := r19.tail (.move 1 (.inl (.waitDone rfl)))
  refine ⟨_,r20,rfl,rfl,fun good => ?_⟩
  exact absurd (good.acknowledged (setSelf _ 1 _ _)) (by decide)

end Runs
end Uco.Channel
