import Uco.Interleaving

/-! Close of a ulock against the calls and the watchdog that are under way. A section of a
call up to its next wait is one step, a section under token_mtx another. Acquire is a loop
of TryAcquire; the watchdog, where there is one, may wake at any time. -/
namespace Uco.LockShutdown
open Interleaving

/- `stopped` to `conn` are the lock's fields. The rest is recorded: which connections were
opened, how often each was closed, which commands are in progress on it, what happened to
a connection that was closed or in use, and how far Close has come. -/
structure Shared where
  stopped : Bool
  watchdogArmed : Bool
  cmdMtx : Bool
  token : Option ℕ
  conn : Option ℕ
  broken : ℕ → Bool
  opened : ℕ
  closes : ℕ → ℕ
  commands : ℕ → ℕ
  late : ℕ
  interrupted : ℕ
  cleared : Bool
  taken : Bool
  returned : Bool

inductive Command where
  | set (token : ℕ)
  | renew (token : ℕ)
  | release (token : ℕ)
  deriving DecidableEq, Repr

inductive Pc where
  | idle
  | waitTry
  | tryStopped
  | tryToken
  | tryConn
  | closeDead (dead : ℕ)
  | connect
  | waitRenew
  | renewStopped
  | renewToken
  | renewConn (token : ℕ)
  | waitRelease
  | releaseStopped
  | releaseToken
  | releaseConn (token : ℕ)
  | await (command : Command) (id : ℕ)
  | replied (command : Command) (ok : Bool)
  | returns
  | closeToken
  | closeConn
  | closeVictim (victim : Option ℕ)
  | asleep
  | woken
  | watchToken
  | watchConn
  | watchVictim (victim : Option ℕ)
  | done
  deriving DecidableEq, Repr

structure Local where
  watchdog : Bool
  pc : Pc
  deriving DecidableEq, Repr

section Moves

def touch (g : Shared) (x : ℕ) : Shared := {g with late := g.late + if g.closes x = 0 then 0 else 1}

def uclose (g : Shared) (x : ℕ) : Shared :=
  {touch g x with
    closes := Function.update g.closes x (g.closes x + 1)
    interrupted := g.interrupted + if g.commands x = 0 then 0 else 1}

def begins (g : Shared) (x : ℕ) : Shared :=
  {touch g x with commands := Function.update g.commands x (g.commands x + 1)}

def ends (g : Shared) (x : ℕ) (broken : Bool) : Shared :=
  {touch g x with
    commands := Function.update g.commands x (g.commands x - 1)
    broken := Function.update g.broken x (g.broken x || broken)}

def Unusable (g : Shared) : Prop := ∀ x, g.conn = some x → g.broken x = true

inductive TryMove (keyEmpty : Bool) : Shared → Pc → Shared → Pc → Prop where
  | calls {g} : TryMove keyEmpty g .idle g .waitTry
  | enters {g} (free : g.cmdMtx = false) : TryMove keyEmpty g .waitTry {g with cmdMtx := true} .tryStopped
  | refused {g} (closed : g.stopped = true ∨ keyEmpty = true) : TryMove keyEmpty g .tryStopped g .returns
  | goesOn {g} (isOpen : g.stopped = false) (key : keyEmpty = false) :
      TryMove keyEmpty g .tryStopped g .tryToken
  | held {g token} (held : g.token = some token) : TryMove keyEmpty g .tryToken g .returns
  | notHeld {g} (empty : g.token = none) : TryMove keyEmpty g .tryToken g .tryConn
  | usable {g x} (token : ℕ) (here : g.conn = some x) (healthy : g.broken x = false) :
      TryMove keyEmpty g .tryConn (begins g x) (.await (.set token) x)
  | dead {g x} (here : g.conn = some x) (broken : g.broken x = true) :
      TryMove keyEmpty g .tryConn {touch g x with conn := none} (.closeDead x)
  | missing {g} (none : g.conn = none) : TryMove keyEmpty g .tryConn g .connect
  | drops {g x} : TryMove keyEmpty g (.closeDead x) (uclose g x) .connect
  | connects {g} (token : ℕ) : TryMove keyEmpty g .connect
      (begins {g with conn := some g.opened, opened := g.opened + 1} g.opened) (.await (.set token) g.opened)
  | connectFails {g} : TryMove keyEmpty g .connect {g with conn := none} .returns
  | acquired {g token} : TryMove keyEmpty g (.replied (.set token) true) {g with token := some token} .returns
  | notAcquired {g token} : TryMove keyEmpty g (.replied (.set token) false) g .returns

inductive RenewMove : Shared → Pc → Shared → Pc → Prop where
  | calls {g} : RenewMove g .idle g .waitRenew
  | enters {g} (free : g.cmdMtx = false) : RenewMove g .waitRenew {g with cmdMtx := true} .renewStopped
  | refused {g} (closed : g.stopped = true) : RenewMove g .renewStopped g .returns
  | goesOn {g} (isOpen : g.stopped = false) : RenewMove g .renewStopped g .renewToken
  | notHeld {g} (empty : g.token = none) : RenewMove g .renewToken g .returns
  | held {g token} (held : g.token = some token) : RenewMove g .renewToken g (.renewConn token)
  | unusable {g token} (unusable : Unusable g) : RenewMove g (.renewConn token) {g with token := none} .returns
  | usable {g x token} (here : g.conn = some x) (healthy : g.broken x = false) :
      RenewMove g (.renewConn token) (begins g x) (.await (.renew token) x)
  | renewed {g token} : RenewMove g (.replied (.renew token) true) g .returns
  | lost {g token} : RenewMove g (.replied (.renew token) false) {g with token := none} .returns

inductive ReleaseMove : Shared → Pc → Shared → Pc → Prop where
  | calls {g} : ReleaseMove g .idle g .waitRelease
  | enters {g} (free : g.cmdMtx = false) : ReleaseMove g .waitRelease {g with cmdMtx := true} .releaseStopped
  | refused {g} (closed : g.stopped = true) : ReleaseMove g .releaseStopped g .returns
  | goesOn {g} (isOpen : g.stopped = false) : ReleaseMove g .releaseStopped g .releaseToken
  | notHeld {g} (empty : g.token = none) : ReleaseMove g .releaseToken g .returns
  | held {g token} (held : g.token = some token) :
      ReleaseMove g .releaseToken {g with token := none} (.releaseConn token)
  | unusable {g token} (unusable : Unusable g) : ReleaseMove g (.releaseConn token) g .returns
  | usable {g x token} (here : g.conn = some x) (healthy : g.broken x = false) :
      ReleaseMove g (.releaseConn token) (begins g x) (.await (.release token) x)
  | answered {g token ok} : ReleaseMove g (.replied (.release token) ok) g .returns

inductive CommandMove (watchdog : Bool) : Shared → Pc → Shared → Pc → Prop where
  | replies {g command x} (ok : Bool) : CommandMove watchdog g (.await command x) (ends g x false) (.replied command ok)
  | breaks {g command x} : CommandMove watchdog g (.await command x) (ends g x true) (.replied command false)
  | leaves {g} : CommandMove watchdog g .returns {g with cmdMtx := false} (if watchdog then .asleep else .idle)

inductive CloseMove : Shared → Pc → Shared → Pc → Prop where
  | stops {g} : CloseMove g .idle {g with stopped := true} .closeToken
  | clears {g} : CloseMove g .closeToken {g with token := none, cleared := true} .closeConn
  | wakes {g} (armed : g.watchdogArmed = true) : CloseMove g .closeConn {g with returned := true} .idle
  | takes {g} (unarmed : g.watchdogArmed = false) :
      CloseMove g .closeConn {g with conn := none, taken := true} (.closeVictim g.conn)
  | closes {g x} : CloseMove g (.closeVictim (some x)) {uclose g x with returned := true} .idle
  | nothing {g} : CloseMove g (.closeVictim none) {g with returned := true} .idle

inductive WatchMove : Shared → Pc → Shared → Pc → Prop where
  | wakes {g} : WatchMove g .asleep g .woken
  | stops {g} (closed : g.stopped = true) : WatchMove g .woken g .watchConn
  | goesOn {g} (isOpen : g.stopped = false) : WatchMove g .woken g .watchToken
  | notHeld {g} (empty : g.token = none) : WatchMove g .watchToken g .asleep
  | held {g token} (held : g.token = some token) : WatchMove g .watchToken g .waitRenew
  | takes {g} : WatchMove g .watchConn {g with conn := none, taken := true} (.watchVictim g.conn)
  | closes {g x} : WatchMove g (.watchVictim (some x)) (uclose g x) .done
  | nothing {g} : WatchMove g (.watchVictim none) g .done

inductive Move (keyEmpty watchdog : Bool) (g : Shared) (p : Pc) (g' : Shared) (p' : Pc) : Prop where
  | tries (taken : TryMove keyEmpty g p g' p')
  | renews (taken : RenewMove g p g' p')
  | releases (taken : ReleaseMove g p g' p')
  | commands (taken : CommandMove watchdog g p g' p')
  | closes (taken : CloseMove g p g' p')
  | watches (taken : WatchMove g p g' p')

def system (keyEmpty : Bool) : System Shared Local where
  solo _ _ := False
  move g l g' l' := l'.watchdog = l.watchdog ∧ Move keyEmpty l.watchdog g l.pc g' l'.pc

abbrev State (T : Type*) := Config Shared Local T

def start {T : Type*} [DecidableEq T] (watchdog : Option T) : State T :=
  ⟨⟨false,watchdog.isSome,false,none,none,fun _ => false,0,fun _ => 0,fun _ => 0,0,0,false,false,false⟩,
    fun t => if watchdog = some t then ⟨true,.asleep⟩ else ⟨false,.idle⟩⟩

end Moves

def owns (g : Shared) : Bool := g.token.isSome

def quiet : Pc → Prop | .idle | .done => True | _ => False

structure StaysClosed {T : Type*} (c : State T) : Prop where
  owns : c.shared.returned = true → owns c.shared = false
  uninterrupted : c.shared.interrupted = 0
  unused : c.shared.late = 0
  closed : c.shared.returned = true → (∀ t, quiet (c.locals t).pc) → ∀ x < c.shared.opened, c.shared.closes x = 1

/- The moves that go wrong: a SET that is answered OK is stored when Close has cleared the token,
a connection opens when Close or the watchdog has taken the old one, and one is closed on which a
call is between its command and the reply. -/
def spoils {T : Type*} (c : State T) : Pc → Pc → Prop
  | .replied (.set _) true, _ => c.shared.cleared = true
  | .connect, .await _ _ => c.shared.taken = true
  | .closeVictim (some x), _ | .watchVictim (some x), _ => ∃ u command, (c.locals u).pc = .await command x
  | _, _ => False

def harmless {T : Type*} [DecidableEq T] (keyEmpty : Bool) (c d : State T) : Prop :=
  Step (system keyEmpty) c d ∧
    ∀ t, (c.locals t).pc ≠ (d.locals t).pc → ¬ spoils c (c.locals t).pc (d.locals t).pc

section Weights

def inside : Pc → ℕ
  | .idle | .waitTry | .waitRenew | .waitRelease => 0
  | .closeToken | .closeConn | .closeVictim _ => 0
  | .asleep | .woken | .watchToken | .watchConn | .watchVictim _ | .done => 0
  | _ => 1
def unconnected : Pc → ℕ | .closeDead _ | .connect => 1 | _ => 0
def commanding (x : ℕ) : Pc → ℕ | .await _ y => if y = x then 1 else 0 | _ => 0
def holding (x : ℕ) : Pc → ℕ
  | .closeDead y | .closeVictim (some y) | .watchVictim (some y) => if y = x then 1 else 0
  | _ => 0
def clearing : Pc → ℕ | .closeConn | .closeVictim _ => 1 | _ => 0
def taking : Pc → ℕ | .closeVictim _ | .watchVictim _ | .done => 1 | _ => 0

def watches : Pc → Bool | .idle | .closeToken | .closeConn | .closeVictim _ => false | _ => true

end Weights

section Invariant

def Locked (g : Shared) (n : Tally Pc) : Prop := n inside = if g.cmdMtx then 1 else 0

structure Flags (g : Shared) (n : Tally Pc) : Prop where
  empty : g.cleared = true → g.token = none
  clearing : n clearing ≠ 0 → g.cleared = true
  taking : n taking ≠ 0 → g.taken = true
  returned : g.returned = true → g.cleared = true ∧ (g.watchdogArmed = false → g.taken = true)

structure Placed (g : Shared) (n : Tally Pc) : Prop where
  place : ∀ x, (if g.conn = some x then 1 else 0) + n (holding x) + g.closes x = if x < g.opened then 1 else 0
  connecting : n unconnected ≠ 0 → g.conn = none
  gone : g.taken = true → g.conn = none
  inProgress : ∀ x, g.commands x = n (commanding x)
  inUse : ∀ x, g.commands x ≠ 0 → g.closes x = 0
  late : g.late = 0
  uninterrupted : g.interrupted = 0

def Spoils (g : Shared) : Pc → Pc → Prop
  | .replied (.set _) true, _ => g.cleared = true
  | .connect, .await _ _ => g.taken = true
  | .closeVictim (some x), _ | .watchVictim (some x), _ => g.commands x ≠ 0
  | _, _ => False

variable {keyEmpty watchdog : Bool} {g g' : Shared} {p p' : Pc} {n n' : Tally Pc} {x : ℕ}

theorem touchOpen (isOpen : g.closes x = 0) : touch g x = g := by
  simp [touch, isOpen]

theorem lockedKept (posted : Recount p p' n n') (old : Locked g n) (same : g'.cmdMtx = g.cmdMtx)
    (stays : inside p' = inside p) : Locked g' n' := by
  have change := posted.change inside
  unfold Locked at *
  rw [same]
  omega

theorem lockedEnters (posted : Recount p p' n n') (old : Locked g n) (free : g.cmdMtx = false)
    (outside : inside p = 0) (goes : inside p' = 1) : Locked {g with cmdMtx := true} n' := by
  have change := posted.change inside
  simp only [Locked, free] at old
  simp only [Locked]
  simp at old ⊢
  omega

theorem moveLocked (taken : Move keyEmpty watchdog g p g' p') (posted : Recount p p' n n') (old : Locked g n) :
    Locked g' n' := by
  rcases taken with taken | taken | taken | taken | taken | taken
  · cases taken with
    | enters free => exact lockedEnters posted old free rfl rfl
    | _ => exact lockedKept posted old rfl rfl
  · cases taken with
    | enters free => exact lockedEnters posted old free rfl rfl
    | _ => exact lockedKept posted old rfl rfl
  · cases taken with
    | enters free => exact lockedEnters posted old free rfl rfl
    | _ => exact lockedKept posted old rfl rfl
  · cases taken with
    | leaves =>
      have change := posted.change inside
      have mine := posted.own inside
      have out : inside (if watchdog then Pc.asleep else Pc.idle) = 0 := by cases watchdog <;> rfl
      unfold Locked at *
      rw [out] at change
      simp only [inside] at mine change
      split at old
      · simp only [Bool.false_eq_true, if_false]; omega
      · omega
    | _ => exact lockedKept posted old rfl rfl
  · cases taken <;> exact lockedKept posted old rfl rfl
  · cases taken <;> exact lockedKept posted old rfl rfl

theorem flagsKept (posted : Recount p p' n n') (old : Flags g n) (cleared : g'.cleared = g.cleared)
    (token : g.cleared = true → g.token = none → g'.token = none) (taken : g'.taken = g.taken) (returned : g'.returned = g.returned)
    (armed : g'.watchdogArmed = g.watchdogArmed) (clears : clearing p' ≤ clearing p) (takes : taking p' ≤ taking p) :
    Flags g' n' := by
  have c1 := posted.change LockShutdown.clearing
  have c2 := posted.change LockShutdown.taking
  refine ⟨fun done => token (cleared ▸ done) (old.empty (cleared ▸ done)), fun some => ?_, fun some => ?_, ?_⟩
  · exact cleared.trans (old.clearing (by omega))
  · exact taken.trans (old.taking (by omega))
  · rw [returned, cleared, armed, taken]
    exact old.returned

theorem moveFlags (taken : Move keyEmpty watchdog g p g' p') (posted : Recount p p' n n') (old : Flags g n)
    (harmless : ¬ Spoils g p p') : Flags g' n' := by
  have c1 := posted.change clearing
  have c2 := posted.change taking
  have o1 := posted.own clearing
  have o2 := posted.own taking
  rcases taken with taken | taken | taken | taken | taken | taken
  · cases taken with
    | acquired =>
      exact flagsKept posted old rfl (fun done => absurd done harmless) rfl rfl rfl (Nat.le_refl _) (Nat.le_refl _)
    | _ => exact flagsKept posted old rfl (fun _ => id) rfl rfl rfl (Nat.le_refl _) (Nat.le_refl _)
  · cases taken with
    | unusable => exact flagsKept posted old rfl (fun _ _ => rfl) rfl rfl rfl (Nat.le_refl _) (Nat.le_refl _)
    | lost => exact flagsKept posted old rfl (fun _ _ => rfl) rfl rfl rfl (Nat.le_refl _) (Nat.le_refl _)
    | _ => exact flagsKept posted old rfl (fun _ => id) rfl rfl rfl (Nat.le_refl _) (Nat.le_refl _)
  · cases taken with
    | held => exact flagsKept posted old rfl (fun _ _ => rfl) rfl rfl rfl (Nat.le_refl _) (Nat.le_refl _)
    | _ => exact flagsKept posted old rfl (fun _ => id) rfl rfl rfl (Nat.le_refl _) (Nat.le_refl _)
  · cases taken with
    | leaves =>
      refine flagsKept posted old rfl (fun _ => id) rfl rfl rfl ?_ ?_
      · cases watchdog <;> exact Nat.le_refl _
      · cases watchdog <;> exact Nat.le_refl _
    | _ => exact flagsKept posted old rfl (fun _ => id) rfl rfl rfl (Nat.le_refl _) (Nat.le_refl _)
  · cases taken with
    | stops => exact flagsKept posted old rfl (fun _ => id) rfl rfl rfl (Nat.le_refl _) (Nat.le_refl _)
    | clears =>
      simp only [taking] at c2
      exact ⟨fun _ => rfl, fun _ => rfl, fun some => old.taking (by omega), fun back => ⟨rfl, (old.returned back).2⟩⟩
    | wakes armed =>
      simp only [clearing, taking] at c1 c2 o1
      exact ⟨old.empty, fun some => old.clearing (by omega), fun some => old.taking (by omega),
        fun _ => ⟨old.clearing (by omega), fun unarmed => absurd (armed.symm.trans unarmed) nofun⟩⟩
    | takes =>
      simp only [clearing] at c1
      exact ⟨old.empty, fun some => old.clearing (by omega), fun _ => rfl,
        fun back => ⟨(old.returned back).1, fun _ => rfl⟩⟩
    | closes =>
      simp only [clearing, taking] at c1 c2 o1 o2
      exact ⟨old.empty, fun some => old.clearing (by omega), fun some => old.taking (by omega),
        fun _ => ⟨old.clearing (by omega), fun _ => old.taking (by omega)⟩⟩
    | nothing =>
      simp only [clearing, taking] at c1 c2 o1 o2
      exact ⟨old.empty, fun some => old.clearing (by omega), fun some => old.taking (by omega),
        fun _ => ⟨old.clearing (by omega), fun _ => old.taking (by omega)⟩⟩
  · cases taken with
    | takes =>
      simp only [clearing] at c1
      exact ⟨old.empty, fun some => old.clearing (by omega), fun _ => rfl,
        fun back => ⟨(old.returned back).1, fun _ => rfl⟩⟩
    | _ => exact flagsKept posted old rfl (fun _ => id) rfl rfl rfl (Nat.le_refl _) (Nat.le_refl _)

theorem placedKept (posted : Recount p p' n n') (old : Placed g n) (conn : g'.conn = g.conn)
    (opened : g'.opened = g.opened) (closes : g'.closes = g.closes) (commands : g'.commands = g.commands)
    (late : g'.late = g.late) (interrupted : g'.interrupted = g.interrupted) (taken : g'.taken = g.taken)
    (unconnects : unconnected p' ≤ unconnected p ∨ g.conn = none)
    (commanding : ∀ x, commanding x p' = commanding x p) (holding : ∀ x, holding x p' = holding x p) :
    Placed g' n' := by
  have c1 := posted.change unconnected
  refine ⟨fun x => ?_, fun some => conn.trans ?_, fun gone => conn.trans (old.gone (taken ▸ gone)), fun x => ?_,
    ?_, late.trans old.late, interrupted.trans old.uninterrupted⟩
  · have c2 := posted.change (LockShutdown.holding x)
    have here := old.place x
    rw [conn, opened, closes]
    have same := holding x
    omega
  · rcases unconnects with fewer | none
    · exact old.connecting (by omega)
    · exact none
  · have c2 := posted.change (LockShutdown.commanding x)
    have same := commanding x
    have here := old.inProgress x
    rw [commands]
    omega
  · rw [commands, closes]
    exact old.inUse

theorem connOpen (old : Placed g n) (here : g.conn = some x) : g.closes x = 0 ∧ n (holding x) = 0 := by
  have place := old.place x
  rw [if_pos here] at place
  split at place <;> omega

theorem placedBegins (posted : Recount p p' n n') (old : Placed g n) (here : g.conn = some x)
    (connected : unconnected p' = 0) (before : ∀ y, commanding y p = 0)
    (after : ∀ y, commanding y p' = if x = y then 1 else 0) (holds : ∀ y, holding y p' = holding y p) :
    Placed (begins g x) n' := by
  obtain ⟨isOpen, -⟩ := connOpen old here
  have c1 := posted.change unconnected
  rw [begins, touchOpen isOpen]
  refine ⟨fun y => ?_, fun some => old.connecting (by omega), old.gone, fun y => ?_, fun y used => ?_, old.late,
    old.uninterrupted⟩
  · have c2 := posted.change (holding y)
    have place := old.place y
    have same := holds y
    simp only
    omega
  · have c2 := posted.change (commanding y)
    have b := before y
    have a := after y
    have progress := old.inProgress y
    by_cases same : x = y
    · subst same
      simp only [if_true, Function.update_self] at *
      omega
    · simp only [same, if_false, Function.update_of_ne (Ne.symm same)] at *
      omega
  · by_cases same : y = x
    · subst same
      exact isOpen
    · exact old.inUse y (by simpa [same] using used)

theorem placedEnds (posted : Recount p p' n n') (old : Placed g n) (broken : Bool)
    (connected : unconnected p' = 0) (before : ∀ y, commanding y p = if x = y then 1 else 0)
    (after : ∀ y, commanding y p' = 0) (holds : ∀ y, holding y p' = holding y p) :
    Placed (ends g x broken) n' := by
  have mine := posted.own (commanding x)
  have c1 := posted.change unconnected
  have busy : g.commands x ≠ 0 := by
    have progress := old.inProgress x
    have b := before x
    rw [if_pos rfl] at b
    omega
  have isOpen := old.inUse x busy
  rw [ends, touchOpen isOpen]
  refine ⟨fun y => ?_, fun some => old.connecting (by omega), old.gone, fun y => ?_, fun y used => ?_, old.late,
    old.uninterrupted⟩
  · have c2 := posted.change (holding y)
    have place := old.place y
    have same := holds y
    simp only
    omega
  · have c2 := posted.change (commanding y)
    have b := before y
    have a := after y
    have progress := old.inProgress y
    by_cases same : x = y
    · subst same
      simp only [if_true, Function.update_self] at *
      omega
    · simp only [same, if_false, Function.update_of_ne (Ne.symm same)] at *
      omega
  · by_cases same : y = x
    · subst same
      exact isOpen
    · exact old.inUse y (by simpa [same] using used)

theorem placedCloses (posted : Recount p p' n n') (old : Placed g n) (unused : g.commands x = 0)
    (unconnects : unconnected p' ≤ unconnected p) (commands : ∀ y, commanding y p' = commanding y p)
    (before : ∀ y, holding y p = if x = y then 1 else 0) (after : ∀ y, holding y p' = 0) : Placed (uclose g x) n' := by
  have mine := posted.own (holding x)
  have c1 := posted.change unconnected
  have isOpen : g.closes x = 0 := by
    have place := old.place x
    have b := before x
    rw [if_pos rfl] at b
    split at place <;> split at place <;> omega
  rw [uclose, touchOpen isOpen, unused, isOpen]
  refine ⟨fun y => ?_, fun some => old.connecting (by omega), old.gone, fun y => ?_, fun y used => ?_, old.late,
    old.uninterrupted⟩
  · have c2 := posted.change (holding y)
    have place := old.place y
    have b := before y
    have a := after y
    by_cases same : x = y
    · subst same
      simp only [if_true, Function.update_self] at *
      omega
    · simp only [same, if_false, Function.update_of_ne (Ne.symm same)] at *
      omega
  · have c2 := posted.change (commanding y)
    have same := commands y
    have progress := old.inProgress y
    simp only
    omega
  · by_cases same : y = x
    · subst same
      exact absurd unused used
    · simpa [same] using old.inUse y used

theorem placedTakes (posted : Recount p p' n n') (old : Placed g n)
    (commands : ∀ y, commanding y p' = commanding y p) (before : ∀ y, holding y p = 0)
    (after : ∀ y, holding y p' = if g.conn = some y then 1 else 0) (taken : Bool) :
    Placed {g with conn := none, taken := taken} n' := by
  refine ⟨fun y => ?_, fun _ => rfl, fun _ => rfl, fun y => ?_, old.inUse, old.late, old.uninterrupted⟩
  · have c2 := posted.change (holding y)
    have place := old.place y
    have b := before y
    have a := after y
    simp only [reduceCtorEq, if_false]
    omega
  · have c2 := posted.change (commanding y)
    have same := commands y
    have progress := old.inProgress y
    simp only
    omega

/- One call at a time is behind cmd_mtx, so no command is in progress meanwhile. -/
structure Alone (n : Tally Pc) : Prop where
  one : n inside ≤ 1
  split : ∀ x, n unconnected + n (commanding x) ≤ n inside

theorem unconnectedAlone (posted : Recount p p' n n') (old : Placed g n) (alone : Alone n)
    (mine : unconnected p = 1) (x : ℕ) : g.commands x = 0 ∧ n unconnected = 1 ∧ g.conn = none := by
  have own := posted.own unconnected
  have one := alone.one
  have split := alone.split x
  have progress := old.inProgress x
  exact ⟨by omega, by omega, old.connecting (by omega)⟩

theorem placedConnects (posted : Recount p p' n n') (old : Placed g n) (alone : Alone n)
    (isOpen : g.taken = false) (mine : unconnected p = 1) (connected : unconnected p' = 0)
    (before : ∀ y, commanding y p = 0) (after : ∀ y, commanding y p' = if g.opened = y then 1 else 0)
    (holds : ∀ y, holding y p' = holding y p) :
    Placed (begins {g with conn := some g.opened, opened := g.opened + 1} g.opened) n' := by
  obtain ⟨-, only, none⟩ := unconnectedAlone posted old alone mine g.opened
  have c1 := posted.change unconnected
  have fresh := old.place g.opened
  simp only [Nat.lt_irrefl, if_false] at fresh
  have unclosed : g.closes g.opened = 0 := by omega
  rw [begins, touchOpen (g := {g with conn := some g.opened, opened := g.opened + 1}) unclosed]
  refine ⟨fun y => ?_, fun some => by omega, fun taken => by simp [isOpen] at taken, fun y => ?_, fun y used => ?_,
    old.late, old.uninterrupted⟩
  · have c2 := posted.change (holding y)
    have place := old.place y
    have same := holds y
    simp only [none, Option.some.injEq, reduceCtorEq, if_false] at place ⊢
    by_cases new : g.opened = y
    · subst new
      simp only [if_true, Nat.lt_irrefl, if_false, Nat.lt_succ_self] at place ⊢
      omega
    · rw [if_neg new]
      split at place <;> split <;> omega
  · have c2 := posted.change (commanding y)
    have b := before y
    have a := after y
    have progress := old.inProgress y
    by_cases new : g.opened = y
    · subst new
      simp only [if_true, Function.update_self] at *
      omega
    · simp only [new, if_false, Function.update_of_ne (Ne.symm new)] at *
      omega
  · by_cases new : y = g.opened
    · subst new
      exact unclosed
    · exact old.inUse y (by simpa [new] using used)

theorem tryPlaced (taken : TryMove keyEmpty g p g' p') (posted : Recount p p' n n') (old : Placed g n)
    (alone : Alone n) (harmless : ¬ Spoils g p p') : Placed g' n' := by
  cases taken with
  | usable token here => exact placedBegins posted old here rfl (fun _ => rfl) (fun _ => rfl) (fun _ => rfl)
  | @dead x here broken =>
    rw [touchOpen (connOpen old here).1]
    exact placedTakes posted old (fun _ => rfl) (fun _ => rfl) (fun y => by simp [holding, here]) g.taken
  | missing none => exact placedKept posted old rfl rfl rfl rfl rfl rfl rfl (.inr none) (fun _ => rfl) (fun _ => rfl)
  | @drops x =>
    obtain ⟨unused, -, -⟩ := unconnectedAlone posted old alone rfl x
    exact placedCloses posted old unused (Nat.le_refl _) (fun _ => rfl) (fun _ => rfl) (fun _ => rfl)
  | connects token =>
    have isOpen : g.taken = false := by simpa [Spoils] using harmless
    exact placedConnects posted old alone isOpen rfl rfl (fun _ => rfl) (fun _ => rfl) (fun _ => rfl)
  | connectFails =>
    obtain ⟨-, -, none⟩ := unconnectedAlone posted old alone rfl 0
    exact placedKept posted old none.symm rfl rfl rfl rfl rfl rfl (.inl (Nat.zero_le _)) (fun _ => rfl) (fun _ => rfl)
  | _ =>
    exact placedKept posted old rfl rfl rfl rfl rfl rfl rfl (.inl (Nat.le_refl _)) (fun _ => rfl) (fun _ => rfl)

theorem movePlaced (taken : Move keyEmpty watchdog g p g' p') (posted : Recount p p' n n') (old : Placed g n)
    (alone : Alone n) (harmless : ¬ Spoils g p p') : Placed g' n' := by
  rcases taken with taken | taken | taken | taken | taken | taken
  · exact tryPlaced taken posted old alone harmless
  · cases taken with
    | usable here => exact placedBegins posted old here rfl (fun _ => rfl) (fun _ => rfl) (fun _ => rfl)
    | _ =>
      exact placedKept posted old rfl rfl rfl rfl rfl rfl rfl (.inl (Nat.le_refl _)) (fun _ => rfl) (fun _ => rfl)
  · cases taken with
    | usable here => exact placedBegins posted old here rfl (fun _ => rfl) (fun _ => rfl) (fun _ => rfl)
    | _ =>
      exact placedKept posted old rfl rfl rfl rfl rfl rfl rfl (.inl (Nat.le_refl _)) (fun _ => rfl) (fun _ => rfl)
  · cases taken with
    | replies => exact placedEnds posted old false rfl (fun _ => rfl) (fun _ => rfl) (fun _ => rfl)
    | breaks => exact placedEnds posted old true rfl (fun _ => rfl) (fun _ => rfl) (fun _ => rfl)
    | leaves =>
      cases watchdog
      · exact placedKept posted old rfl rfl rfl rfl rfl rfl rfl (.inl (Nat.le_refl _)) (fun _ => rfl) (fun _ => rfl)
      · exact placedKept posted old rfl rfl rfl rfl rfl rfl rfl (.inl (Nat.le_refl _)) (fun _ => rfl) (fun _ => rfl)
  · cases taken with
    | takes =>
      refine placedTakes posted old (fun _ => rfl) (fun _ => rfl) (fun y => ?_) true
      cases g.conn <;> simp [holding]
    | @closes x =>
      have unused : g.commands x = 0 := by simpa [Spoils] using harmless
      have closed := placedCloses posted old unused (Nat.le_refl _) (fun _ => rfl) (fun _ => rfl) (fun _ => rfl)
      exact ⟨closed.place, closed.connecting, closed.gone, closed.inProgress, closed.inUse, closed.late,
        closed.uninterrupted⟩
    | _ =>
      exact placedKept posted old rfl rfl rfl rfl rfl rfl rfl (.inl (Nat.le_refl _)) (fun _ => rfl) (fun _ => rfl)
  · cases taken with
    | takes =>
      refine placedTakes posted old (fun _ => rfl) (fun _ => rfl) (fun y => ?_) true
      cases g.conn <;> simp [holding]
    | @closes x =>
      have unused : g.commands x = 0 := by simpa [Spoils] using harmless
      exact placedCloses posted old unused (Nat.le_refl _) (fun _ => rfl) (fun _ => rfl) (fun _ => rfl)
    | _ =>
      exact placedKept posted old rfl rfl rfl rfl rfl rfl rfl (.inl (Nat.le_refl _)) (fun _ => rfl) (fun _ => rfl)

theorem moveArmed (taken : Move keyEmpty watchdog g p g' p') : g'.watchdogArmed = g.watchdogArmed := by
  rcases taken with taken | taken | taken | taken | taken | taken <;> cases taken <;> rfl

theorem moveWatches (taken : Move keyEmpty true g p g' p') (before : watches p = true) : watches p' = true := by
  rcases taken with taken | taken | taken | taken | taken | taken
  all_goals cases taken
  all_goals first | rfl | cases before

end Invariant

section Runs
variable {T : Type*} [Fintype T] [DecidableEq T] {keyEmpty : Bool} {watchdog : Option T}

structure Kept (watchdog : Option T) (c : State T) : Prop where
  locked : Locked c.shared (fun f => c.total (f ·.pc))
  flags : Flags c.shared (fun f => c.total (f ·.pc))
  placed : Placed c.shared (fun f => c.total (f ·.pc))
  armed : c.shared.watchdogArmed = watchdog.isSome
  guards : ∀ t, watchdog = some t → (c.locals t).watchdog = true ∧ watches (c.locals t).pc = true

omit [DecidableEq T] in
theorem aloneOf {c : State T} (locked : Locked c.shared (fun f => c.total (f ·.pc))) :
    Alone (fun f => c.total (f ·.pc)) := by
  refine ⟨?_, fun x => ?_⟩
  · have one : c.total (inside ·.pc) = if c.shared.cmdMtx then 1 else 0 := locked
    split at one <;> omega
  · have each (l : Local) : unconnected l.pc + commanding x l.pc ≤ inside l.pc := by
      cases l.pc <;> simp only [unconnected, commanding, inside] <;> first | omega | (split <;> omega)
    rw [← totalAdd]
    exact Finset.sum_le_sum (fun t _ => each (c.locals t))

theorem startKept : Kept watchdog (start watchdog) := by
  have none (f : Pc → ℕ) (idle : f .idle = 0) (asleep : f .asleep = 0) :
      (start watchdog).total (f ·.pc) = 0 := by
    apply Finset.sum_eq_zero
    intro t _
    simp only [start]
    split
    · exact asleep
    · exact idle
  refine ⟨none inside rfl rfl, ⟨nofun, fun some => absurd (none clearing rfl rfl) some,
    fun some => absurd (none taking rfl rfl) some, nofun⟩, ⟨fun x => ?_, fun some => absurd (none unconnected rfl rfl) some,
    nofun, fun x => (none (commanding x) rfl rfl).symm, fun x used => absurd rfl used, rfl, rfl⟩, rfl, fun t here => ?_⟩
  · rw [none (holding x) rfl rfl]
    rfl
  · have guard : (start watchdog).locals t = ⟨true,.asleep⟩ := if_pos here
    rw [guard]
    exact ⟨rfl, rfl⟩

omit [DecidableEq T] in
theorem spoilsOf {c : State T} (placed : Placed c.shared (fun f => c.total (f ·.pc))) {p p' : Pc}
    (good : ¬ spoils c p p') : ¬ Spoils c.shared p p' := by
  have waits : ∀ x, c.shared.commands x ≠ 0 → ∃ u command, (c.locals u).pc = .await command x := by
    intro x busy
    rw [placed.inProgress] at busy
    obtain ⟨u,mine⟩ := existsOfTotal (Nat.pos_of_ne_zero busy)
    cases at' : (c.locals u).pc with
    | await command y =>
      simp only [at', commanding] at mine
      split at mine
      · rename_i same
        exact ⟨u,command,same ▸ at'⟩
      · cases mine
    | _ => simp [at', commanding] at mine
  intro bad
  refine good ?_
  unfold Spoils at bad
  split at bad
  · exact bad
  · exact bad
  · exact waits _ bad
  · exact waits _ bad
  · exact bad.elim

theorem movePc {g g' : Shared} {p : Pc} {role : Bool} (taken : Move keyEmpty role g p g' p) : ¬ Spoils g p p := by
  rcases taken with taken | taken | taken | taken | taken | taken
  all_goals first | cases taken | (cases role <;> cases taken)

theorem stepKept {c d : State T} (old : Kept watchdog c) (taken : harmless keyEmpty c d) :
    Kept watchdog d := by
  obtain ⟨taken,fair⟩ := taken
  cases taken with
  | solo taken => exact taken.elim
  | @move t g l taken =>
    obtain ⟨role, taken⟩ := taken
    have harmless : ¬ Spoils c.shared (c.locals t).pc l.pc := by
      by_cases stays : (c.locals t).pc = l.pc
      · rw [← stays] at taken ⊢
        exact movePc taken
      · have good := fair t (by rwa [setSelf])
        rw [setSelf] at good
        exact spoilsOf old.placed good
    have posted := recountOf c Local.pc t g l
    have alone := aloneOf old.locked
    refine ⟨moveLocked taken posted old.locked, moveFlags taken posted old.flags harmless,
      movePlaced taken posted old.placed alone harmless, (moveArmed taken).trans old.armed, fun u here => ?_⟩
    obtain ⟨guard, watching⟩ := old.guards u here
    by_cases same : u = t
    · subst same
      rw [guard] at taken
      rw [setSelf]
      exact ⟨role.trans guard, moveWatches taken watching⟩
    · rw [setOther c g l same]
      exact ⟨guard, watching⟩

theorem runKept {c : State T} (reached : Reachable (harmless keyEmpty) (start watchdog) c) :
    Kept watchdog c :=
  reachableInvariant (Kept watchdog) startKept (fun _ _ old taken => stepKept old taken) reached

theorem quietDone {p : Pc} (rest : quiet p) (watching : watches p) : p = .done := by
  cases p <;> simp [quiet, watches] at rest watching ⊢

theorem quietHolds {p : Pc} (rest : quiet p) (x : ℕ) : holding x p = 0 := by
  cases p <;> simp [quiet, holding] at rest ⊢

end Runs

section Uses

theorem callStep {T : Type*} [DecidableEq T] {keyEmpty : Bool} {c : State T} (t : T) {g : Shared} {p : Pc}
    (taken : Move keyEmpty (c.locals t).watchdog c.shared (c.locals t).pc g p) :
    Step (system keyEmpty) c (c.set t g ⟨(c.locals t).watchdog,p⟩) := .move t ⟨rfl,taken⟩

theorem harmlessStep {T : Type*} [DecidableEq T] {keyEmpty : Bool} {c : State T} (t : T) {g : Shared} {p : Pc}
    (taken : Move keyEmpty (c.locals t).watchdog c.shared (c.locals t).pc g p)
    (good : ¬ spoils c (c.locals t).pc p) :
    harmless keyEmpty c (c.set t g ⟨(c.locals t).watchdog,p⟩) := by
  refine ⟨callStep t taken,fun u moved => ?_⟩
  by_cases same : u = t
  · subst same
    rwa [setSelf]
  · rw [setOther _ _ _ same] at moved
    exact absurd rfl moved

theorem ownsAfterClose : ∃ c : State (Fin 3), Reachable (Step (system false)) (start (some 1)) c ∧
    c.shared.returned = true ∧ owns c.shared = true ∧ ¬ StaysClosed c := by
  have r1 := Relation.ReflTransGen.refl.tail (r := Step (system false)) (a := start (some (1 : Fin 3)))
    (callStep 0 (.tries .calls))
  have r2 := r1.tail (callStep 0 (.tries (.enters rfl)))
  have r3 := r2.tail (callStep 0 (.tries (.goesOn rfl rfl)))
  have r4 := r3.tail (callStep 0 (.tries (.notHeld rfl)))
  have r5 := r4.tail (callStep 0 (.tries (.missing rfl)))
  have r6 := r5.tail (callStep 0 (.tries (.connects 5)))
  have r7 := r6.tail (callStep 2 (.closes .stops))
  have r8 := r7.tail (callStep 2 (.closes .clears))
  have r9 := r8.tail (callStep 2 (.closes (.wakes rfl)))
  have r10 := r9.tail (callStep 0 (.commands (.replies true)))
  have r11 := r10.tail (callStep 0 (.tries .acquired))
  exact ⟨_,r11,rfl,rfl,fun good => absurd (good.owns rfl) (by decide)⟩

theorem closedInUse : ∃ c : State (Fin 2), Reachable (Step (system false)) (start none) c ∧
    c.shared.interrupted = 1 ∧ c.shared.late = 1 := by
  have r1 := Relation.ReflTransGen.refl.tail (r := Step (system false)) (a := start (T := Fin 2) none)
    (callStep 0 (.tries .calls))
  have r2 := r1.tail (callStep 0 (.tries (.enters rfl)))
  have r3 := r2.tail (callStep 0 (.tries (.goesOn rfl rfl)))
  have r4 := r3.tail (callStep 0 (.tries (.notHeld rfl)))
  have r5 := r4.tail (callStep 0 (.tries (.missing rfl)))
  have r6 := r5.tail (callStep 0 (.tries (.connects 5)))
  have r7 := r6.tail (callStep 1 (.closes .stops))
  have r8 := r7.tail (callStep 1 (.closes .clears))
  have r9 := r8.tail (callStep 1 (.closes (.takes rfl)))
  have r10 := r9.tail (callStep 1 (.closes .closes))
  have r11 := r10.tail (callStep 0 (.commands (.replies true)))
  exact ⟨_,r11,rfl,rfl⟩

end Uses

end Uco.LockShutdown
