import Uco.Interleaving

/-! The connection pool that the Redis and the MySQL client share. A section under the
pool's mutex is one step, and so is every access to a connection; who opens, takes, closes
or still reads a connection is recorded per connection. -/
namespace Uco.ConnectionPool
open Interleaving

inductive Reaper (C : Type*) where
  | asleep
  | awake
  | victim (x : C)
  | done
  deriving DecidableEq, Repr

structure Shared (C : Type*) where
  closed : Bool
  pendingPermitWaits : ℕ
  permits : ℕ
  idle : List C
  all : Finset C
  reaper : Reaper C
  created : Finset C
  closes : C → ℕ
  late : ℕ

inductive Pc (C : Type*) where
  | idle
  | waitPermit
  | granted
  | connecting
  | failed
  | connected (x : C)
  | lost (x : C)
  | lent (x : C)
  | judged (x : C) (broken : Bool)
  | signal (dead : Option C)
  | destroy (x : C)
  | wake (count : ℕ) (victims : List C)
  | closing (victims : List C)
  deriving DecidableEq, Repr

variable {C : Type*} [DecidableEq C]

def touch (g : Shared C) (x : C) : Shared C :=
  {g with late := g.late + if g.closes x = 0 then 0 else 1}

def uclose (g : Shared C) (x : C) : Shared C :=
  {touch g x with closes := Function.update g.closes x (g.closes x + 1)}

inductive ReaperMove (minIdle : ℕ) : Shared C → Shared C → Prop where
  | wakes {g} (asleep : g.reaper = .asleep) (isOpen : g.closed = false) :
      ReaperMove minIdle g {g with reaper := .awake}
  | leaves {g} (asleep : g.reaper = .asleep) (closed : g.closed = true) :
      ReaperMove minIdle g {g with reaper := .done}
  | takes {g x rest} (awake : g.reaper = .awake) (isOpen : g.closed = false)
      (first : g.idle = x :: rest) (many : minIdle < g.idle.length) :
      ReaperMove minIdle g {g with idle := rest, all := g.all.erase x, reaper := .victim x}
  | spares {g} (awake : g.reaper = .awake) (few : g.closed = true ∨ g.idle.length ≤ minIdle) :
      ReaperMove minIdle g {g with reaper := .asleep}
  | closes {g x} (victim : g.reaper = .victim x) :
      ReaperMove minIdle g {uclose g x with reaper := .asleep}

inductive AcquireMove : Shared C → Pc C → Shared C → Pc C → Prop where
  | refused {g} (closed : g.closed = true) : AcquireMove g .idle g .idle
  | registers {g} (isOpen : g.closed = false) :
      AcquireMove g .idle {g with pendingPermitWaits := g.pendingPermitWaits + 1} .waitPermit
  | permit {g n} (permit : g.permits = n + 1) : AcquireMove g .waitPermit {g with permits := n} .granted
  | tooLate {g} (closed : g.closed = true) :
      AcquireMove g .granted {g with pendingPermitWaits := g.pendingPermitWaits - 1} .idle
  | reuses {g x rest} (isOpen : g.closed = false) (first : g.idle = x :: rest) : AcquireMove g .granted
      {g with pendingPermitWaits := g.pendingPermitWaits - 1, idle := rest} (.lent x)
  | creates {g} (isOpen : g.closed = false) (none : g.idle = []) : AcquireMove g .granted
      {g with pendingPermitWaits := g.pendingPermitWaits - 1} .connecting
  | connectFails {g} : AcquireMove g .connecting g .failed
  | giveBack {g} : AcquireMove g .failed {g with permits := g.permits + 1} .idle
  | connects {g} (x : C) (fresh : x ∉ g.created) :
      AcquireMove g .connecting {g with created := insert x g.created} (.connected x)
  | joins {g x} (isOpen : g.closed = false) :
      AcquireMove g (.connected x) {g with all := insert x g.all} (.lent x)
  | closedMeanwhile {g x} (closed : g.closed = true) : AcquireMove g (.connected x) g (.lost x)
  | drops {g x} : AcquireMove g (.lost x) (uclose g x) .failed
  | command {g x} : AcquireMove g (.lent x) (touch g x) (.lent x)

inductive ReleaseMove : Shared C → Pc C → Shared C → Pc C → Prop where
  | judges {g x} (broken : Bool) : ReleaseMove g (.lent x) (touch g x) (.judged x broken)
  | recycles {g x} (isOpen : g.closed = false) :
      ReleaseMove g (.judged x false) {g with idle := g.idle ++ [x]} (.signal none)
  | discards {g x broken} (useless : broken = true ∨ g.closed = true) :
      ReleaseMove g (.judged x broken) {g with all := g.all.erase x} (.signal (some x))
  | signals {g} : ReleaseMove g (.signal none) {g with permits := g.permits + 1} .idle
  | signalsDead {g x} :
      ReleaseMove g (.signal (some x)) {g with permits := g.permits + 1} (.destroy x)
  | destroys {g x} : ReleaseMove g (.destroy x) (uclose g x) .idle

inductive CloseMove : Shared C → Pc C → Shared C → Pc C → Prop where
  | again {g} (closed : g.closed = true) : CloseMove g .idle g .idle
  | closes {g victims} (isOpen : g.closed = false) (once : victims.Nodup)
      (listed : ∀ x, x ∈ victims ↔ x ∈ g.all) : CloseMove g .idle
      {g with closed := true, all := ∅, idle := []} (.wake g.pendingPermitWaits victims)
  | wakes {g n victims} :
      CloseMove g (.wake (n + 1) victims) {g with permits := g.permits + 1} (.wake n victims)
  | wakesReaper {g victims} : CloseMove g (.wake 0 victims) g (.closing victims)
  | uclose {g x victims} : CloseMove g (.closing (x :: victims)) (uclose g x) (.closing victims)
  | returns {g} : CloseMove g (.closing []) g .idle

inductive Move (g : Shared C) (p : Pc C) (g' : Shared C) (p' : Pc C) : Prop where
  | acquire (taken : AcquireMove g p g' p')
  | release (taken : ReleaseMove g p g' p')
  | close (taken : CloseMove g p g' p')

def system (C : Type*) [DecidableEq C] (minIdle : ℕ) : System (Shared C) (Pc C) :=
  ⟨ReaperMove minIdle, Move⟩

abbrev State (T C : Type*) := Config (Shared C) (Pc C) T

def start (T C : Type*) [DecidableEq C] (maxSize : ℕ) : State T C :=
  ⟨⟨false,0,maxSize,[],∅,.asleep,∅,fun _ => 0,0⟩, fun _ => .idle⟩

@[simp] def borrows (x : C) : Pc C → ℕ
  | .lent y | .judged y _ => if y = x then 1 else 0
  | _ => 0
@[simp] def handles (x : C) : Pc C → ℕ
  | .connected y | .lost y | .signal (some y) | .destroy y => if y = x then 1 else 0
  | .wake _ victims | .closing victims => victims.count x
  | _ => 0
@[simp] def borrowing : Pc C → ℕ | .lent _ | .judged _ _ => 1 | _ => 0
@[simp] def creating : Pc C → ℕ | .connecting | .connected _ => 1 | _ => 0
@[simp] def spare : Pc C → ℕ | .granted | .failed | .lost _ | .signal _ => 1 | _ => 0
@[simp] def shutting : Pc C → ℕ | .wake _ _ | .closing _ => 1 | _ => 0
@[simp] def reaped (x : C) : Reaper C → ℕ | .victim y => if y = x then 1 else 0 | _ => 0

abbrev Totals (C : Type*) := (Pc C → ℕ) → ℕ

structure Accounted (g : Shared C) (n : Totals C) : Prop where
  place : ∀ x, g.idle.count x + n (borrows x) + n (handles x) + reaped x g.reaper + g.closes x =
    if x ∈ g.created then 1 else 0
  late : g.late = 0
  emptied : g.closed = true → g.idle = []

structure Lending (maxSize : ℕ) (g : Shared C) (n : Totals C) : Prop where
  member : ∀ x, g.idle.count x + n (borrows x) = if x ∈ g.all then 1 else 0
  permits : g.permits + n borrowing + n creating + n spare = maxSize
  room : g.idle.length + n borrowing + n creating ≤ maxSize
  size : g.all.card = g.idle.length + n borrowing
  notShut : n shutting = 0

structure Balanced (maxSize : ℕ) (g : Shared C) (n : Totals C) : Prop where
  accounted : Accounted g n
  lending : g.closed = false → Lending maxSize g n

structure Posted (p p' : Pc C) (n n' : Totals C) : Prop where
  own : ∀ f, f p ≤ n f
  change : ∀ f, n' f + f p = n f + f p'

section Steps
variable {maxSize minIdle : ℕ} {g g' : Shared C} {p p' : Pc C} {n n' : Totals C}

omit [DecidableEq C] in
theorem touchOpen {x : C} (isOpen : g.closes x = 0) : touch g x = g := by
  simp [touch, isOpen]

theorem heldOpen (old : Accounted g n) {x : C}
    (held : 0 < n (borrows x) + n (handles x) + reaped x g.reaper) : g.closes x = 0 := by
  have place := old.place x
  split at place <;> omega

theorem ucloseAccounted (old : Accounted g n) {x : C} (reaper : Reaper C)
    (leaves : ∀ y, n' (borrows y) + n' (handles y) + reaped y reaper + (if x = y then 1 else 0) =
      n (borrows y) + n (handles y) + reaped y g.reaper) :
    Accounted {uclose g x with reaper := reaper} n' := by
  have isOpen : g.closes x = 0 := by
    have left := leaves x
    rw [if_pos rfl] at left
    exact heldOpen old (by omega)
  rw [uclose, touchOpen isOpen, isOpen]
  refine ⟨fun y => ?_,old.late,old.emptied⟩
  have here := old.place y
  have left := leaves y
  by_cases same : x = y
  · subst same
    simp only [if_true, Function.update_self] at *
    omega
  · simp only [same, if_false, Function.update_of_ne (Ne.symm same)] at *
    omega

theorem accountedMoves (posted : Posted p p' n n') (old : Accounted g n) (created : g'.created = g.created)
    (reaper : g'.reaper = g.reaper) (closes : g'.closes = g.closes) (late : g'.late = g.late)
    (emptied : g'.closed = true → g'.idle = [])
    (moves : ∀ x, g'.idle.count x + borrows x p' + handles x p' = g.idle.count x + borrows x p + handles x p) :
    Accounted g' n' := by
  refine ⟨fun x => ?_,late.trans old.late,emptied⟩
  have here := old.place x
  have kept := moves x
  have b := posted.change (borrows x)
  have h := posted.change (handles x)
  rw [created,reaper,closes]
  omega

theorem acquireAccounted (taken : AcquireMove g p g' p') (posted : Posted p p' n n')
    (old : Accounted g n) : Accounted g' n' := by
  cases taken with
  | reuses isOpen first =>
    refine accountedMoves posted old rfl rfl rfl rfl (fun closed => by simp [isOpen] at closed) (fun y => ?_)
    simp only [borrows, handles, first, List.count_cons, beq_iff_eq]
  | @connects x fresh =>
    refine ⟨fun y => ?_,old.late,old.emptied⟩
    have here := old.place y
    have b := posted.change (borrows y)
    have h := posted.change (handles y)
    simp only [borrows, handles, Finset.mem_insert] at *
    by_cases same : x = y
    · subst same
      simp only [fresh, if_false, if_true, true_or] at *
      omega
    · simp only [same, Ne.symm same, if_false, false_or] at *
      omega
  | @drops x =>
    refine ucloseAccounted old g.reaper (fun y => ?_)
    have b := posted.change (borrows y)
    have h := posted.change (handles y)
    simp only [borrows, handles] at *
    omega
  | @command x =>
    have mine := posted.own (borrows x)
    simp only [borrows, if_true] at mine
    rw [touchOpen (heldOpen old (by omega))]
    exact accountedMoves posted old rfl rfl rfl rfl old.emptied (fun y => rfl)
  | @joins x =>
    exact accountedMoves posted old rfl rfl rfl rfl old.emptied (fun y => Nat.add_right_comm _ _ _)
  | _ => exact accountedMoves posted old rfl rfl rfl rfl old.emptied (fun y => rfl)

theorem releaseAccounted (taken : ReleaseMove g p g' p') (posted : Posted p p' n n')
    (old : Accounted g n) : Accounted g' n' := by
  cases taken with
  | @judges x broken =>
    have mine := posted.own (borrows x)
    simp only [borrows, if_true] at mine
    rw [touchOpen (heldOpen old (by omega))]
    exact accountedMoves posted old rfl rfl rfl rfl old.emptied (fun y => rfl)
  | @recycles x isOpen =>
    refine accountedMoves posted old rfl rfl rfl rfl (fun closed => by simp [isOpen] at closed) (fun y => ?_)
    simp only [borrows, handles, List.count_append, List.count_singleton, beq_iff_eq]
  | @discards x =>
    refine accountedMoves posted old rfl rfl rfl rfl old.emptied (fun y => ?_)
    simp only [borrows, handles]
    omega
  | @destroys x =>
    refine ucloseAccounted old g.reaper (fun y => ?_)
    have b := posted.change (borrows y)
    have h := posted.change (handles y)
    simp only [borrows, handles] at *
    omega
  | _ => exact accountedMoves posted old rfl rfl rfl rfl old.emptied (fun y => rfl)

theorem closeAccounted (taken : CloseMove g p g' p') (posted : Posted p p' n n')
    (old : Accounted g n) (lending : g.closed = false → Lending maxSize g n)
    (unborrowed : g.closed = false → g'.closed = true → ∀ x, n (borrows x) = 0) :
    Accounted g' n' := by
  cases taken with
  | @closes victims isOpen once listed =>
    refine accountedMoves posted old rfl rfl rfl rfl (fun _ => rfl) (fun y => ?_)
    have member := (lending isOpen).member y
    have none := unborrowed isOpen rfl y
    have count : victims.count y = if y ∈ g.all then 1 else 0 := by
      rw [List.Nodup.count once]
      simp only [listed]
    simp only [borrows, handles, List.count_nil]
    omega
  | @uclose x victims =>
    refine ucloseAccounted old g.reaper (fun y => ?_)
    have b := posted.change (borrows y)
    have h := posted.change (handles y)
    simp only [borrows, handles, List.count_cons, beq_iff_eq] at *
    omega
  | _ =>
    exact accountedMoves posted old rfl rfl rfl rfl old.emptied
      (fun y => by simp only [borrows, handles, List.count_nil])

theorem reaperAccounted (taken : ReaperMove minIdle g g') (old : Accounted g n) : Accounted g' n := by
  cases taken with
  | @takes x rest awake isOpen first many =>
    refine ⟨fun y => ?_,old.late,fun closed => by simp [isOpen] at closed⟩
    have here := old.place y
    simp only [awake, reaped, first, List.count_cons, beq_iff_eq] at *
    omega
  | @closes x victim =>
    refine ucloseAccounted old _ (fun y => ?_)
    simp only [victim, reaped]
    omega
  | _ =>
    refine ⟨fun y => ?_,old.late,old.emptied⟩
    have here := old.place y
    simp only [reaped, *] at *
    omega

theorem touchLending {x : C} (old : Lending maxSize g n) : Lending maxSize (touch g x) n :=
  ⟨old.member,old.permits,old.room,old.size,old.notShut⟩

theorem ucloseLending {x : C} (old : Lending maxSize g n) : Lending maxSize (uclose g x) n :=
  ⟨old.member,old.permits,old.room,old.size,old.notShut⟩

theorem lendingMoves (posted : Posted p p' n n') (old : Lending maxSize g n)
    (member : ∀ x, g'.idle.count x + borrows x p' + (if x ∈ g.all then 1 else 0) =
      g.idle.count x + borrows x p + (if x ∈ g'.all then 1 else 0))
    (permits : g'.permits + borrowing p' + creating p' + spare p' = g.permits + borrowing p + creating p + spare p)
    (room : g'.idle.length + borrowing p' + creating p' ≤ g.idle.length + borrowing p + creating p)
    (size : g'.all.card + g.idle.length + borrowing p = g.all.card + g'.idle.length + borrowing p')
    (notShut : shutting p' = 0) : Lending maxSize g' n' := by
  have c1 := posted.change borrowing
  have c2 := posted.change creating
  have c3 := posted.change spare
  have c4 := posted.change shutting
  have before := old.permits
  have fits := old.room
  have even := old.size
  have calm := old.notShut
  refine ⟨fun x => ?_,?_,?_,?_,?_⟩
  · have here := old.member x
    have kept := member x
    have b := posted.change (borrows x)
    omega
  all_goals omega

theorem acquireLending (taken : AcquireMove g p g' p') (posted : Posted p p' n n')
    (accounted : Accounted g n) (old : Lending maxSize g n) (isOpen : g'.closed = false) :
    Lending maxSize g' n' := by
  cases taken with
  | reuses isOpen first =>
    refine lendingMoves posted old (fun y => ?_) ?_ ?_ ?_ rfl
    · simp only [borrows, first, List.count_cons, beq_iff_eq, Nat.add_zero]
    all_goals simp only [borrowing, creating, spare, first, List.length_cons] <;> omega
  | creates isOpen none =>
    -- the permit is what makes room for the new connection
    have mine := posted.own spare
    have c1 := posted.change borrowing
    have c2 := posted.change creating
    have c3 := posted.change spare
    have c4 := posted.change shutting
    obtain ⟨member,permits,room,size,notShut⟩ := old
    refine ⟨fun y => ?_,?_,?_,?_,?_⟩
    · have here := member y
      have b := posted.change (borrows y)
      simp only [borrows] at *
      omega
    all_goals
      simp only [borrowing, creating, spare, shutting, none, List.length_nil] at *
      omega
  | @joins x isOpen =>
    have outside : x ∉ g.all := by
      have here := old.member x
      have place := accounted.place x
      have mine := posted.own (handles x)
      simp only [handles, if_true] at mine
      intro inside
      rw [if_pos inside] at here
      split at place <;> omega
    refine lendingMoves posted old (fun y => ?_) ?_ ?_ ?_ rfl
    · simp only [borrows, Finset.mem_insert]
      by_cases same : x = y
      · subst same
        simp only [outside, if_false, if_true, true_or]
      · simp only [same, Ne.symm same, if_false, false_or]
    all_goals
      simp only [borrowing, creating, spare, Finset.card_insert_of_notMem outside] <;> omega
  | tooLate closed => simp [closed] at isOpen
  | closedMeanwhile closed => simp [closed] at isOpen
  | drops => exact ucloseLending (lendingMoves posted old (fun y => rfl) rfl (Nat.le_refl _) rfl rfl)
  | command => exact touchLending (lendingMoves posted old (fun y => rfl) rfl (Nat.le_refl _) rfl rfl)
  | _ =>
    refine lendingMoves posted old (fun y => rfl) ?_ ?_ rfl rfl
    all_goals simp only [borrowing, creating, spare, *] <;> omega

theorem releaseLending (taken : ReleaseMove g p g' p') (posted : Posted p p' n n')
    (old : Lending maxSize g n) (isOpen : g'.closed = false) : Lending maxSize g' n' := by
  cases taken with
  | @recycles x isOpen =>
    refine lendingMoves posted old (fun y => ?_) ?_ ?_ ?_ rfl
    · simp only [borrows, List.count_append, List.count_singleton, beq_iff_eq, Nat.add_zero]
    all_goals simp only [borrowing, creating, spare, List.length_append, List.length_singleton] <;> omega
  | @discards x broken useless =>
    have inside : x ∈ g.all := by
      have here := old.member x
      have mine := posted.own (borrows x)
      simp only [borrows, if_true] at mine
      by_contra outside
      rw [if_neg outside] at here
      omega
    have some := Finset.card_pos.mpr ⟨x,inside⟩
    refine lendingMoves posted old (fun y => ?_) ?_ ?_ ?_ rfl
    · simp only [borrows, Finset.mem_erase]
      by_cases same : x = y
      · subst same
        simp only [inside, if_true, ne_eq, not_true, false_and, if_false]
      · simp only [same, Ne.symm same, if_false, ne_eq, not_false_eq_true, true_and]
    all_goals
      simp only [borrowing, creating, spare, Finset.card_erase_of_mem inside] <;> omega
  | judges => exact touchLending (lendingMoves posted old (fun y => rfl) rfl (Nat.le_refl _) rfl rfl)
  | destroys => exact ucloseLending (lendingMoves posted old (fun y => rfl) rfl (Nat.le_refl _) rfl rfl)
  | _ =>
    refine lendingMoves posted old (fun y => rfl) ?_ ?_ rfl rfl
    all_goals simp only [borrowing, creating, spare, *] <;> omega

theorem closeLending (taken : CloseMove g p g' p') (posted : Posted p p' n n')
    (old : Lending maxSize g n) (isOpen : g'.closed = false) : Lending maxSize g' n' := by
  have mine := posted.own shutting
  rw [old.notShut] at mine
  cases taken with
  | again closed => simp [closed] at isOpen
  | closes => simp at isOpen
  | _ => simp [shutting] at mine

theorem reaperLending (taken : ReaperMove minIdle g g') (old : Lending maxSize g n)
    (isOpen : g'.closed = false) : Lending maxSize g' n := by
  obtain ⟨member,permits,room,size,notShut⟩ := old
  cases taken with
  | @takes x rest awake isOpen first many =>
    have inside : x ∈ g.all := by
      have here := member x
      simp only [first, List.count_cons_self] at here
      by_contra outside
      rw [if_neg outside] at here
      omega
    refine ⟨fun y => ?_,permits,?_,?_,notShut⟩
    · have here := member y
      simp only [first, List.count_cons, beq_iff_eq, Finset.mem_erase] at *
      by_cases same : x = y
      · subst same
        simp only [inside, if_true, ne_eq, not_true, false_and, if_false] at *
        omega
      · simp only [same, Ne.symm same, if_false, ne_eq, not_false_eq_true, true_and] at *
        omega
    all_goals
      simp only [first, List.length_cons, Finset.card_erase_of_mem inside] at *
      omega
  | _ => exact ⟨member,permits,room,size,notShut⟩

end Steps

section Runs
variable {T : Type*} [Fintype T] {maxSize minIdle : ℕ}

structure ClosedOnce (c : State T C) : Prop where
  once : ∀ x, c.shared.closes x ≤ 1
  untouched : c.shared.late = 0
  complete : c.shared.closed = true → (∀ t, c.locals t = .idle) →
    (∀ x, c.shared.reaper ≠ .victim x) → ∀ x ∈ c.shared.created, c.shared.closes x = 1

def holdsPermit (p : Pc C) : ℕ := borrowing p + creating p + spare p

structure Exclusive (maxSize : ℕ) (c : State T C) : Prop where
  capacity : c.shared.all.card ≤ maxSize
  placed : ∀ x ∈ c.shared.all, c.shared.idle.count x = 1 ∧ (∀ t, borrows x (c.locals t) = 0) ∨
    x ∉ c.shared.idle ∧ ∃! t, borrows x (c.locals t) = 1
  alone : ∀ x t u, borrows x (c.locals t) = 1 → borrows x (c.locals u) = 1 → t = u ∧ x ∉ c.shared.idle
  permits : c.shared.permits + c.total holdsPermit = maxSize

/- When Close shuts the pool, no caller has a connection. -/
def closesUnborrowed (c d : State T C) : Prop :=
  c.shared.closed = false → d.shared.closed = true → ∀ t x, borrows x (c.locals t) = 0

theorem startBalanced : Balanced maxSize (start T C maxSize).shared (start T C maxSize).total := by
  have none : ∀ f : Pc C → ℕ, f .idle = 0 → (start T C maxSize).total f = 0 :=
    fun f zero => totalConst _ f (fun _ => rfl) zero
  refine ⟨⟨fun x => ?_,rfl,fun _ => rfl⟩,fun _ => ⟨fun x => ?_,?_,?_,?_,none shutting rfl⟩⟩
  · rw [none (borrows x) rfl, none (handles x) rfl]; rfl
  · rw [none (borrows x) rfl]; rfl
  · rw [none borrowing rfl, none creating rfl, none spare rfl]; rfl
  · rw [none borrowing rfl, none creating rfl]; exact Nat.zero_le _
  · rw [none borrowing rfl]; rfl

theorem closedStays {g g' : Shared C} {p p' : Pc C} (taken : Move g p g' p') (isOpen : g'.closed = false) :
    g.closed = false := by
  rcases taken with acquire | release | close
  · cases acquire <;> assumption
  · cases release <;> assumption
  · cases close <;> assumption

theorem shuts {g g' : Shared C} {p p' : Pc C} (taken : Move g p g' p') (isOpen : g.closed = false)
    (shut : g'.closed = true) : p = .idle ∧ ∃ k victims, p' = .wake k victims ∧ ∀ x ∈ g.all, x ∈ victims := by
  rcases taken with acquire | release | close
  · cases acquire <;> simp_all [uclose, touch]
  · cases release <;> simp_all [uclose, touch]
  · cases close with
    | closes _ once listed => exact ⟨rfl,_,_,rfl,fun x member => (listed x).mpr member⟩
    | _ => simp_all [uclose, touch]

theorem reaperClosed {g g' : Shared C} (taken : ReaperMove minIdle g g') : g'.closed = g.closed := by
  cases taken <;> rfl

variable [DecidableEq T]

def run (minIdle : ℕ) (c d : State T C) : Prop :=
  Step (system C minIdle) c d ∧ closesUnborrowed c d

theorem stepBalanced {c d : State T C} (old : Balanced maxSize c.shared c.total)
    (taken : Step (system C minIdle) c d) (unborrowed : closesUnborrowed c d) :
    Balanced maxSize d.shared d.total := by
  obtain ⟨accounted,lending⟩ := old
  cases taken with
  | solo taken =>
    have same := reaperClosed taken
    exact ⟨reaperAccounted taken accounted,
      fun isOpen => reaperLending taken (lending (same ▸ isOpen)) isOpen⟩
  | @move t g l taken =>
    have posted : Posted (c.locals t) l c.total (c.set t g l).total :=
      ⟨fun f => leTotal c f t,fun f => totalSet c f t g l⟩
    have before := closedStays taken
    have none : c.shared.closed = false → g.closed = true → ∀ x, c.total (borrows x) = 0 :=
      fun isOpen shut x => Finset.sum_eq_zero (fun t _ => unborrowed isOpen shut t x)
    rcases taken with acquire | release | close
    · exact ⟨acquireAccounted acquire posted accounted,
        fun isOpen => acquireLending acquire posted accounted (lending (before isOpen)) isOpen⟩
    · exact ⟨releaseAccounted release posted accounted,
        fun isOpen => releaseLending release posted (lending (before isOpen)) isOpen⟩
    · exact ⟨closeAccounted close posted accounted lending none,
        fun isOpen => closeLending close posted (lending (before isOpen)) isOpen⟩

omit [Fintype T] in
theorem runReachable {b c : State T C} (reached : Reachable (run minIdle) b c) :
    Reachable (Step (system C minIdle)) b c :=
  reached.lift id (fun _ _ taken => taken.1)

theorem runBalanced {c : State T C} (reached : Reachable (run minIdle) (start T C maxSize) c) :
    Balanced maxSize c.shared c.total :=
  reachableInvariant (fun c => Balanced maxSize c.shared c.total) startBalanced
    (fun _ _ old taken => stepBalanced old taken.1 taken.2) reached

omit [Fintype T] in
theorem stepStays {c d : State T C} (taken : Step (system C minIdle) c d) (isOpen : d.shared.closed = false) :
    c.shared.closed = false := by
  cases taken with
  | solo taken => rw [← reaperClosed taken]; exact isOpen
  | move t taken => exact closedStays taken isOpen

theorem openBalanced {c : State T C} (reached : Reachable (Step (system C minIdle)) (start T C maxSize) c)
    (isOpen : c.shared.closed = false) : Balanced maxSize c.shared c.total :=
  reachableInvariant (fun c : State T C => c.shared.closed = false → Balanced maxSize c.shared c.total)
    (fun _ => startBalanced)
    (fun _ _ old taken isOpen => stepBalanced (old (stepStays taken isOpen)) taken
      (fun _ shut => by simp [isOpen] at shut)) reached isOpen

omit [DecidableEq T] in
theorem closedOnceOf {c : State T C} (inv : Balanced maxSize c.shared c.total) : ClosedOnce c := by
  obtain ⟨accounted,-⟩ := inv
  refine ⟨fun x => ?_,accounted.late,fun closed calls reaper x created => ?_⟩
  · have place := accounted.place x
    split at place <;> omega
  · have place := accounted.place x
    have none : ∀ f : Pc C → ℕ, f .idle = 0 → c.total f = 0 := fun f zero => totalConst c f calls zero
    have free : reaped x c.shared.reaper = 0 := by
      cases at' : c.shared.reaper with
      | victim y =>
        refine if_neg (fun same => reaper x ?_)
        rw [at', same]
      | _ => rfl
    rw [accounted.emptied closed, none (borrows x) rfl, none (handles x) rfl, free, if_pos created] at place
    simpa using place

omit [Fintype T] in
variable (minIdle) in
theorem closingReaches {c : State T C} {u : T} {x : C} {victims : List C}
    (closing : c.locals u = .closing victims) (listed : x ∈ victims) :
    ∃ e, Reachable (Step (system C minIdle)) c e ∧ 0 < e.shared.closes x ∧
      e.shared.closed = c.shared.closed ∧ ∀ v, v ≠ u → e.locals v = c.locals v := by
  induction victims generalizing c with
  | nil => cases listed
  | cons y rest ih =>
    have taken : Step (system C minIdle) c (c.set u (uclose c.shared y) (.closing rest)) :=
      .move u (.close (closing ▸ .uclose))
    by_cases same : y = x
    · subst same
      exact ⟨_,.single taken,by simp [uclose],rfl,fun v other => setOther _ _ _ other⟩
    · have later : x ∈ rest := (List.mem_cons.mp listed).resolve_left (Ne.symm same)
      obtain ⟨e,reached,done,closed,others⟩ := ih (setSelf c u _ _) later
      exact ⟨e,.head taken reached,done,closed,
        fun v other => (others v other).trans (setOther _ _ _ other)⟩

omit [Fintype T] in
variable (minIdle) in
theorem wakingReaches {c : State T C} {u : T} {k : ℕ} {x : C} {victims : List C}
    (waking : c.locals u = .wake k victims) (listed : x ∈ victims) :
    ∃ e, Reachable (Step (system C minIdle)) c e ∧ 0 < e.shared.closes x ∧
      e.shared.closed = c.shared.closed ∧ ∀ v, v ≠ u → e.locals v = c.locals v := by
  induction k generalizing c with
  | zero =>
    have taken : Step (system C minIdle) c (c.set u c.shared (.closing victims)) :=
      .move u (.close (waking ▸ .wakesReaper))
    obtain ⟨e,reached,done,closed,others⟩ := closingReaches minIdle (setSelf c u _ _) listed
    exact ⟨e,.head taken reached,done,closed,
      fun v other => (others v other).trans (setOther _ _ _ other)⟩
  | succ k ih =>
    have taken : Step (system C minIdle) c
        (c.set u {c.shared with permits := c.shared.permits + 1} (.wake k victims)) :=
      .move u (.close (waking ▸ .wakes))
    obtain ⟨e,reached,done,closed,others⟩ := ih (setSelf c u _ _)
    exact ⟨e,.head taken reached,done,closed,
      fun v other => (others v other).trans (setOther _ _ _ other)⟩

omit [DecidableEq C] in
theorem touchLate {g : Shared C} {x : C} (closed : 0 < g.closes x) : (touch g x).late ≠ 0 := by
  have := Nat.pos_iff_ne_zero.mp closed
  simp [touch, this]

omit [Fintype T] in
variable (minIdle) in
theorem borrowerTouches {c : State T C} {t : T} {x : C} (borrowed : borrows x (c.locals t) ≠ 0)
    (closes : 0 < c.shared.closes x) (closed : c.shared.closed = true) :
    ∃ e, Reachable (Step (system C minIdle)) c e ∧ ¬ClosedOnce e := by
  cases at' : c.locals t with
  | lent y =>
    simp only [at', borrows, ne_eq, ite_eq_right_iff, one_ne_zero, imp_false, not_not] at borrowed
    subst borrowed
    refine ⟨c.set t (touch c.shared y) (.lent y),.single (.move t (.acquire ?_)),fun good => ?_⟩
    · rw [at']; exact .command
    · exact touchLate closes good.untouched
  | judged y broken =>
    simp only [at', borrows, ne_eq, ite_eq_right_iff, one_ne_zero, imp_false, not_not] at borrowed
    subst borrowed
    have r1 : Reachable (Step (system C minIdle)) c
        (c.set t {c.shared with all := c.shared.all.erase y} (.signal (some y))) :=
      .single (.move t (.release (at' ▸ .discards (.inr closed))))
    have r2 := r1.tail (.move t (.release (by rw [setSelf]; exact .signalsDead)))
    have r3 := r2.tail (.move t (.release (by rw [setSelf]; exact .destroys)))
    exact ⟨_,r3,fun good => touchLate (by simpa using closes) good.untouched⟩
  | _ => simp [at', borrows] at borrowed

/- Runs in which Close finds no borrowed connection close every connection once; from any
such run, a Close that finds one can go on to a double close or a late access. -/
theorem closedOnceKept {c : State T C} (reached : Reachable (run minIdle) (start T C maxSize) c) :
    ClosedOnce c ∧ ∀ d, Step (system C minIdle) c d → ¬closesUnborrowed c d →
      ∃ e, Reachable (Step (system C minIdle)) d e ∧ ¬ClosedOnce e := by
  have inv := runBalanced reached
  refine ⟨closedOnceOf inv,fun d taken borrowed => ?_⟩
  simp only [closesUnborrowed, not_forall] at borrowed
  obtain ⟨isOpen,shut,t,x,mine⟩ := borrowed
  cases taken with
  | solo taken =>
    have same := reaperClosed taken
    simp_all
  | @move u g l taken =>
    obtain ⟨idle,k,victims,rfl,listed⟩ := shuts taken isOpen shut
    have other : t ≠ u := by
      rintro rfl
      rw [idle] at mine
      exact mine rfl
    have member : x ∈ c.shared.all := by
      have here := (inv.lending isOpen).member x
      have total := leTotal c (borrows x) t
      by_contra outside
      rw [if_neg outside] at here
      omega
    obtain ⟨e,closing,closes,closed,others⟩ :=
      wakingReaches minIdle (setSelf c u g (.wake k victims)) (listed x member)
    rw [← setOther c g (.wake k victims) other, ← others t other] at mine
    obtain ⟨f,touching,bad⟩ := borrowerTouches minIdle mine closes (closed.trans shut)
    exact ⟨f,closing.trans touching,bad⟩

theorem borrowsLe (x : C) (p : Pc C) : borrows x p ≤ 1 := by
  cases p <;> simp only [borrows] <;> first | omega | (split <;> omega)

omit [DecidableEq C] [DecidableEq T] in
theorem holdsPermitTotal (c : State T C) :
    c.total holdsPermit = c.total borrowing + c.total creating + c.total spare := by
  rw [← totalAdd, ← totalAdd]
  rfl

theorem exclusiveOf {c : State T C} (inv : Lending maxSize c.shared c.total) : Exclusive maxSize c := by
  obtain ⟨member,permits,room,size,-⟩ := inv
  have lone : ∀ x t u, borrows x (c.locals t) = 1 → borrows x (c.locals u) = 1 →
      t = u ∧ x ∉ c.shared.idle := by
    intro x t u ht hu
    have here := member x
    have mine := leTotal c (borrows x) t
    have few : c.shared.idle.count x + c.total (borrows x) ≤ 1 := by
      rw [here]; split <;> omega
    refine ⟨totalUnique (c := c) (f := borrows x) (by omega) (by omega) (by omega),fun waiting => ?_⟩
    have := List.count_pos_iff.mpr waiting
    omega
  refine ⟨by omega,fun x inside => ?_,lone,?_⟩
  · have here := member x
    rw [if_pos inside] at here
    by_cases waiting : x ∈ c.shared.idle
    · have := List.count_pos_iff.mpr waiting
      refine .inl ⟨by omega,fun t => ?_⟩
      have mine := leTotal c (borrows x) t
      omega
    · have := List.count_eq_zero.mpr waiting
      obtain ⟨t,mine⟩ := existsOfTotal (c := c) (f := borrows x) (by omega)
      have one : borrows x (c.locals t) = 1 := by
        have := borrowsLe x (c.locals t)
        omega
      exact .inr ⟨waiting,t,one,fun u hu => (lone x u t hu one).1⟩
  · rw [holdsPermitTotal]
    omega

/- Until Close the pool stays within its size and lends each connection to one caller. -/
theorem exclusiveLending {c : State T C}
    (reached : Reachable (Step (system C minIdle)) (start T C maxSize) c) (isOpen : c.shared.closed = false) :
    Exclusive maxSize c :=
  exclusiveOf ((openBalanced reached isOpen).lending isOpen)

end Runs

section Uses

abbrev Pool := State (Fin 2) ℕ

def opened : Pool :=
  ((((start (Fin 2) ℕ 4).set 0 ⟨false,1,4,[],∅,.asleep,∅,fun _ => 0,0⟩ .waitPermit).set 0
    ⟨false,1,3,[],∅,.asleep,∅,fun _ => 0,0⟩ .granted).set 0
    ⟨false,0,3,[],∅,.asleep,∅,fun _ => 0,0⟩ .connecting).set 0
    ⟨false,0,3,[],∅,.asleep,{7},fun _ => 0,0⟩ (.connected 7)

def borrowed : Pool := opened.set 0 ⟨false,0,3,[],{7},.asleep,{7},fun _ => 0,0⟩ (.lent 7)

theorem openedReached : Reachable (run 1) (start (Fin 2) ℕ 4) opened := by
  have r1 := Relation.ReflTransGen.refl.tail (r := run 1) (a := start (Fin 2) ℕ 4)
    ⟨.move 0 (.acquire (.registers rfl)),fun _ shut => by cases shut⟩
  have r2 := r1.tail ⟨.move 0 (.acquire (.permit rfl)),fun _ shut => by cases shut⟩
  have r3 := r2.tail ⟨.move 0 (.acquire (.creates rfl rfl)),fun _ shut => by cases shut⟩
  exact r3.tail ⟨.move 0 (.acquire (.connects 7 (by decide))),fun _ shut => by cases shut⟩

theorem borrowedReached : Reachable (run 1) (start (Fin 2) ℕ 4) borrowed :=
  openedReached.tail ⟨.move 0 (.acquire (.joins rfl)),fun _ shut => by cases shut⟩

theorem releasedClosedOnce : ∃ c : Pool, Reachable (run 1) (start (Fin 2) ℕ 4) c ∧
    (c.shared.closed = true ∧ c.shared.reaper = .done ∧ ∀ t, c.locals t = .idle) ∧
    c.shared.closes 7 = 1 ∧ c.shared.closes 8 = 1 ∧ ClosedOnce c := by
  have move : ∀ {c : Pool} (t : Fin 2) {g l}, Move c.shared (c.locals t) g l →
      (c.shared.closed = true ∨ g.closed = false) → run 1 c (c.set t g l) := fun t _ _ taken keeps =>
    ⟨.move t taken,fun isOpen shut => by simp_all⟩
  have r1 := borrowedReached.tail (move 1 (.acquire (.registers rfl)) (.inr rfl))
  have r2 := r1.tail (move 1 (.acquire (.permit rfl)) (.inr rfl))
  have r3 := r2.tail (move 1 (.acquire (.creates rfl rfl)) (.inr rfl))
  have r4 := r3.tail (move 1 (.acquire (.connects 8 (by decide))) (.inr rfl))
  have r5 := r4.tail (move 1 (.acquire (.joins rfl)) (.inr rfl))
  have r6 := r5.tail (move 0 (.acquire .command) (.inr rfl))
  have r7 := r6.tail (move 0 (.release (.judges true)) (.inr rfl))
  have r8 := r7.tail (move 0 (.release (.discards (.inl rfl))) (.inr rfl))
  have r9 := r8.tail (move 0 (.release .signalsDead) (.inr rfl))
  have r10 := r9.tail (move 0 (.release .destroys) (.inr rfl))
  have r11 := r10.tail (move 1 (.acquire .command) (.inr rfl))
  have r12 := r11.tail (move 1 (.release (.judges false)) (.inr rfl))
  have r13 := r12.tail (move 1 (.release (.recycles rfl)) (.inr rfl))
  have r14 := r13.tail (move 1 (.release .signals) (.inr rfl))
  have listed : ∀ x, x ∈ [8] ↔ x ∈ (insert 8 {7} : Finset ℕ).erase 7 := by
    intro x
    simp only [List.mem_singleton, Finset.mem_erase, Finset.mem_insert, Finset.mem_singleton]
    omega
  have r15 := r14.tail ⟨.move 0 (.close (.closes rfl (List.nodup_singleton 8) listed)),
    fun _ _ => Fin.forall_fin_two.mpr ⟨fun _ => rfl,fun _ => rfl⟩⟩
  have r16 := r15.tail (move 0 (.close .wakesReaper) (.inl rfl))
  have r17 := r16.tail (move 0 (.close .uclose) (.inl rfl))
  have r18 := r17.tail (move 0 (.close .returns) (.inl rfl))
  have r19 := r18.tail ⟨.solo (.leaves rfl rfl),nofun⟩
  exact ⟨_,r19,⟨rfl,rfl,by decide⟩,rfl,rfl,(closedOnceKept r19).1⟩

theorem borrowedExclusive : Exclusive 4 borrowed :=
  exclusiveLending (runReachable borrowedReached) rfl

/- Close takes over the borrowed connection 7 and closes it; the Release that follows
reads it and closes it again. -/
theorem closedTwice : ∃ c : Pool, Reachable (Step (system ℕ 1)) (start (Fin 2) ℕ 4) c ∧
    c.shared.closes 7 = 2 ∧ c.shared.late = 2 ∧ ¬ClosedOnce c := by
  have r0 : Reachable (Step (system ℕ 1)) (start (Fin 2) ℕ 4) borrowed :=
    runReachable borrowedReached
  have r1 := r0.tail (.move 1 (.close (.closes rfl (List.nodup_singleton 7)
    (fun x => by simp [borrowed]))))
  have r2 := r1.tail (.move 1 (.close .wakesReaper))
  have r3 := r2.tail (.move 1 (.close .uclose))
  have r4 := r3.tail (.move 0 (.release (.judges false)))
  have r5 := r4.tail (.move 0 (.release (.discards (.inr rfl))))
  have r6 := r5.tail (.move 0 (.release .signalsDead))
  have r7 := r6.tail (.move 0 (.release .destroys))
  exact ⟨_,r7,rfl,rfl,fun good => absurd (good.once 7) (by decide)⟩

end Uses
end Uco.ConnectionPool
