import Uco.Interleaving

/-! usleeper: one coroutine sleeping for positive times again and again, and any number
of threads calling wake(). Each atomic operation on pending_wakes_ and on the slot
state is one step. called records that a wake has taken effect since the last return. -/
namespace Uco.Sleeper
open Interleaving

inductive Slot where
  | idle
  | registering
  | parked
  | woken
  | expired
  deriving DecidableEq, Repr

inductive Result where
  | expired
  | woken
  | busy
  deriving DecidableEq, Repr

/- Where the sleeping coroutine stands in sleep_for and usleeper_raw_sleep. -/
inductive SleepPc where
  | awake
  | claim
  | register
  | push
  | suspended
  | resumed
  | clear (r : Result)
  | returned (r : Result)
  deriving DecidableEq, Repr

structure Shared where
  pending : ℕ
  st : Slot
  pc : SleepPc
  delivered : Bool
  called : Bool
  deriving DecidableEq, Repr

inductive SleepMove : Shared → Shared → Prop where
  | consume {g} (awake : g.pc = .awake) (some : 0 < g.pending) :
      SleepMove g {g with pending := 0, pc := .returned .woken}
  | sleep {g} (awake : g.pc = .awake) (none : g.pending = 0) : SleepMove g {g with pc := .claim}
  | claim {g} (here : g.pc = .claim) (free : g.st = .idle) :
      SleepMove g {g with st := .registering, pc := .register}
  | reject {g} (here : g.pc = .claim) (taken : g.st ≠ .idle) : SleepMove g {g with pc := .returned .busy}
  | park {g} (here : g.pc = .register) : SleepMove g {g with st := .parked, pc := .push}
  | push {g} (here : g.pc = .push) : SleepMove g {g with pc := .suspended}
  | expire {g} (here : g.pc = .suspended) (parked : g.st = .parked) :
      SleepMove g {g with st := .expired, delivered := true}
  | resume {g} (here : g.pc = .suspended) (ready : g.delivered = true) :
      SleepMove g {g with delivered := false, pc := .resumed}
  | load {g} (here : g.pc = .resumed) :
      SleepMove g {g with pc := .clear (if g.st = .expired then .expired else .woken)}
  | clear {g r} (here : g.pc = .clear r) : SleepMove g {g with st := .idle, pc := .returned r}
  | returns {g r} (here : g.pc = .returned r) : SleepMove g {g with pc := .awake, called := false}

inductive WakePc where
  | idle
  | won
  | adding
  deriving DecidableEq, Repr

inductive WakeMove : Shared → WakePc → Shared → WakePc → Prop where
  | win {g} (parked : g.st = .parked) : WakeMove g .idle {g with st := .woken, called := true} .won
  | lose {g} (other : g.st ≠ .parked) : WakeMove g .idle g .adding
  | deliver {g} : WakeMove g .won {g with delivered := true} .idle
  | add {g} : WakeMove g .adding {g with pending := g.pending + 1, called := true} .idle

def system : System Shared WakePc := ⟨SleepMove, WakeMove⟩

abbrev State (T : Type*) := Config Shared WakePc T

def start (T : Type*) : State T := ⟨⟨0,.idle,.awake,false,false⟩, fun _ => .idle⟩

structure Kept (g : Shared) : Prop where
  parked : g.st = .parked → g.pending = 0
  answered : ∀ {r}, g.pc = .returned r → g.called = true → r = .woken

def settled (g : Shared) : Prop :=
  g.pc = .awake ∨ g.st = .woken ∨ g.pc = .clear .woken ∨ g.pc = .returned .woken

/- The slot state each place of the sleep can see, and where a wake is then recorded. -/
def Fits (g : Shared) : Prop :=
  match g.pc with
  | .awake => g.st = .idle ∧ g.delivered = false ∧ (g.called = true → 0 < g.pending)
  | .claim => g.st = .idle ∧ g.delivered = false ∧ g.pending = 0 ∧ g.called = false
  | .register => g.st = .registering ∧ g.delivered = false ∧ g.pending = 0 ∧ g.called = false
  | .push => (g.st = .parked ∧ g.delivered = false ∧ g.pending = 0 ∧ g.called = false) ∨ g.st = .woken
  | .suspended => (g.st = .parked ∧ g.delivered = false ∧ g.pending = 0 ∧ g.called = false) ∨
      (g.st = .expired ∧ g.delivered = true ∧ g.called = false) ∨ g.st = .woken
  | .resumed => g.delivered = false ∧ ((g.st = .expired ∧ g.called = false) ∨ g.st = .woken)
  | .clear r => g.st ≠ .parked ∧ g.delivered = false ∧ (g.called = true ∨ g.st = .woken → r = .woken)
  | .returned r => g.st = .idle ∧ g.delivered = false ∧ (g.called = true → r = .woken)

def awaited (g : Shared) : Prop := g.st = .woken ∧ g.delivered = false ∧ (g.pc = .push ∨ g.pc = .suspended)

theorem keptOf {g : Shared} (fits : Fits g) : Kept g := by
  constructor
  · intro parked
    unfold Fits at fits
    split at fits <;> simp_all
  · intro r here called
    simp only [Fits, here] at fits
    exact fits.2.2 called

theorem sleepFits {g g' : Shared} (taken : SleepMove g g') (old : Fits g) : Fits g' := by
  cases taken with
  | consume awake some => simp_all [Fits]
  | sleep awake none => simp_all [Fits]
  | claim here free => simp_all [Fits]
  | reject here taken => simp_all [Fits]
  | park here => simp_all [Fits]
  | push here => 
    simp only [Fits, here] at old ⊢
    exact old.elim .inl (fun woken => .inr (.inr woken))
  | expire here parked => simp_all [Fits]
  | resume here ready => simp_all [Fits]
  | load here => 
    simp only [Fits, here] at old ⊢
    rcases old with ⟨undelivered,⟨expired,quiet⟩ | woken⟩ <;> simp_all
  | clear here => simp_all [Fits]
  | returns here => simp_all [Fits]

theorem sleepAwaited {g g' : Shared} (taken : SleepMove g g') (old : awaited g) : awaited g' := by
  obtain ⟨woken,undelivered,here⟩ := old
  cases taken <;> simp_all [awaited]

theorem wakeFits {g g' : Shared} {l l' : WakePc} (taken : WakeMove g l g' l') (fair : l = .adding → settled g)
    (mine : l = .won → awaited g) (old : Fits g) : Fits g' := by
  cases taken with
  | win parked =>
    unfold Fits at old ⊢
    split at old <;> simp_all
  | lose other => exact old
  | deliver =>
    obtain ⟨woken,undelivered,here⟩ := mine rfl
    rcases here with here | here <;> simp_all [Fits]
  | add =>
    rcases fair rfl with here | here | here | here <;> unfold Fits at old ⊢ <;> split at old <;> simp_all

theorem wakeAwaited {g g' : Shared} {l l' : WakePc} (taken : WakeMove g l g' l') (other : l ≠ .won)
    (old : awaited g) : awaited g' := by
  obtain ⟨woken,undelivered,here⟩ := old
  cases taken <;> simp_all [awaited]

theorem wonAwaited {g g' : Shared} {l l' : WakePc} (taken : WakeMove g l g' l') (old : Fits g)
    (won : l' = .won) : l = .idle ∧ g.st = .parked ∧ awaited g' := by
  cases taken with
  | win parked =>
    refine ⟨rfl,parked,?_⟩
    unfold Fits at old
    split at old <;> simp_all [awaited]
  | _ => cases won

section Runs
variable {T : Type*} [DecidableEq T]

def apart (c d : State T) : Prop :=
  ∀ t, c.locals t = .adding → d.locals t = .idle → settled c.shared

def run (c d : State T) : Prop := Step system c d ∧ apart c d

structure Invariant (c : State T) : Prop where
  fits : Fits c.shared
  awaited : ∀ t, c.locals t = .won → awaited c.shared
  once : ∀ t u, c.locals t = .won → c.locals u = .won → t = u

theorem stepInvariant {c d : State T} (old : Invariant c) (taken : run c d) : Invariant d := by
  obtain ⟨taken,fair⟩ := taken
  cases taken with
  | solo taken => exact ⟨sleepFits taken old.fits,fun t won => sleepAwaited taken (old.awaited t won),old.once⟩
  | @move t g l taken =>
    have settles : c.locals t = .adding → settled c.shared := by
      intro adding
      refine fair t adding ?_
      rw [setSelf]
      change WakeMove c.shared (c.locals t) g l at taken
      rw [adding] at taken
      cases taken
      rfl
    have alone : ∀ u, c.locals u = .won → l = .won → False := by
      intro u won wins
      have parked := (wonAwaited taken old.fits wins).2.1
      rw [(old.awaited u won).1] at parked
      cases parked
    have keeps : ∀ u, u ≠ t → c.locals u = .won → awaited g := fun u other won =>
      wakeAwaited taken (fun mine => other (old.once u t won mine)) (old.awaited u won)
    refine ⟨wakeFits taken settles (old.awaited t) old.fits,?_,?_⟩
    · intro u won
      by_cases same : u = t
      · rw [same, setSelf] at won
        exact (wonAwaited taken old.fits won).2.2
      · rw [setOther c g l same] at won
        exact keeps u same won
    · intro u v wonU wonV
      by_cases sameU : u = t <;> by_cases sameV : v = t
      · rw [sameU, sameV]
      · rw [sameU, setSelf] at wonU
        rw [setOther c g l sameV] at wonV
        exact (alone v wonV wonU).elim
      · rw [sameV, setSelf] at wonV
        rw [setOther c g l sameU] at wonU
        exact (alone u wonU wonV).elim
      · rw [setOther c g l sameU] at wonU
        rw [setOther c g l sameV] at wonV
        exact old.once u v wonU wonV

omit [DecidableEq T] in
theorem startInvariant : Invariant (start T) where
  fits := ⟨rfl,rfl,fun called => by cases called⟩
  awaited := fun _ won => by cases won
  once := fun _ _ won => by cases won

theorem runInvariant {c : State T} (reached : Reachable run (start T) c) : Invariant c :=
  reachableInvariant Invariant startInvariant (fun _ _ old taken => stepInvariant old taken) reached

theorem unsettledLoses {g : Shared} (fits : Fits g) (unsettled : ¬settled g) :
    ∃ g', Relation.ReflTransGen SleepMove {g with pending := g.pending + 1, called := true} g' ∧ ¬Kept g' := by
  obtain ⟨pending,st,pc,delivered,called⟩ := g
  simp only [settled, not_or] at unsettled
  obtain ⟨notAwake,notWoken,notClear,notReturned⟩ := unsettled
  cases pc with
  | awake => exact absurd rfl notAwake
  | claim =>
    obtain ⟨rfl,-⟩ := fits
    refine ⟨_,.tail (.single (.claim rfl rfl)) (.park rfl),fun kept => ?_⟩
    exact absurd (kept.parked rfl) (Nat.succ_ne_zero _)
  | register =>
    exact ⟨_,.single (.park rfl),fun kept => absurd (kept.parked rfl) (Nat.succ_ne_zero _)⟩
  | push =>
    obtain ⟨rfl,-⟩ | rfl := fits
    · exact ⟨_,.refl,fun kept => absurd (kept.parked rfl) (Nat.succ_ne_zero _)⟩
    · exact absurd rfl notWoken
  | suspended =>
    obtain ⟨rfl,-⟩ | ⟨rfl,rfl,-⟩ | rfl := fits
    · exact ⟨_,.refl,fun kept => absurd (kept.parked rfl) (Nat.succ_ne_zero _)⟩
    · refine ⟨_,.tail (.tail (.single (.resume rfl rfl)) (.load rfl)) (.clear rfl),fun kept => ?_⟩
      exact absurd (kept.answered rfl rfl) (show Result.expired ≠ .woken by decide)
    · exact absurd rfl notWoken
  | resumed =>
    obtain ⟨-,⟨rfl,-⟩ | rfl⟩ := fits
    · refine ⟨_,.tail (.single (.load rfl)) (.clear rfl),fun kept => ?_⟩
      exact absurd (kept.answered rfl rfl) (show Result.expired ≠ .woken by decide)
    · exact absurd rfl notWoken
  | clear r =>
    refine ⟨_,.single (.clear rfl),fun kept => ?_⟩
    exact notClear (congrArg SleepPc.clear (kept.answered rfl rfl))
  | returned r =>
    exact ⟨_,.refl,fun kept => notReturned (congrArg SleepPc.returned (kept.answered rfl rfl))⟩

/- In every run whose wakes keep apart from unsettled sleeps no wake is lost, and from
there the first step that does not can be continued to a lost wake. -/
theorem keptHistory {c : State T} (reached : Reachable run (start T) c) :
    Kept c.shared ∧ ∀ d, Step system c d → ¬apart c d →
      ∃ e, Reachable (Step system) d e ∧ ¬Kept e.shared := by
  have inv := runInvariant reached
  refine ⟨keptOf inv.fits,fun d taken unfair => ?_⟩
  simp only [apart, not_forall] at unfair
  obtain ⟨t,adding,done,unsettled⟩ := unfair
  cases taken with
  | solo taken =>
    rw [adding] at done
    cases done
  | @move u g l taken =>
    have same : t = u := by
      by_contra other
      rw [setOther c g l other, adding] at done
      cases done
    subst same
    change WakeMove c.shared (c.locals t) g l at taken
    rw [adding] at taken
    cases taken
    obtain ⟨g',moves,lost⟩ := unsettledLoses inv.fits unsettled
    exact ⟨_,soloReachable moves,lost⟩

theorem bothAnswered : ∃ b c d : State (Fin 1), Reachable run (start (Fin 1)) b ∧
    Reachable run (start (Fin 1)) c ∧ Reachable run (start (Fin 1)) d ∧
    (b.shared.pc = .returned .woken ∧ b.shared.called = true) ∧ c.shared.st = .parked ∧
    (d.shared.pc = .returned .woken ∧ d.shared.called = true) ∧
    Kept b.shared ∧ Kept c.shared ∧ Kept d.shared := by
  have solo : ∀ {c : State (Fin 1)} {g}, SleepMove c.shared g → run c ⟨g,c.locals⟩ := fun taken =>
    ⟨.solo taken,fun t adding done => by simp [adding] at done⟩
  have move : ∀ {c : State (Fin 1)} {g l}, WakeMove c.shared (c.locals 0) g l → c.locals 0 ≠ .adding →
      run c (c.set 0 g l) := fun taken other =>
    ⟨.move 0 taken,fun t adding => absurd adding (Subsingleton.elim t 0 ▸ other)⟩
  have r0 : Reachable run (start (Fin 1)) (start (Fin 1)) := .refl
  have r1 := r0.tail (move (.lose (by decide)) nofun)
  have r2 := r1.tail ⟨.move 0 .add,fun t _ _ => .inl rfl⟩
  have consumed := r2.tail (solo (.consume rfl Nat.one_pos))
  have r4 := consumed.tail (solo (.returns rfl))
  have r5 := r4.tail (solo (.sleep rfl rfl))
  have r6 := r5.tail (solo (.claim rfl rfl))
  have parked := r6.tail (solo (.park rfl))
  have r8 := parked.tail (solo (.push rfl))
  have r9 := r8.tail (move (.win rfl) nofun)
  have r10 := r9.tail (move .deliver nofun)
  have r11 := r10.tail (solo (.resume rfl rfl))
  have r12 := r11.tail (solo (.load rfl))
  have woken := r12.tail (solo (.clear rfl))
  exact ⟨_,_,_,consumed,parked,woken,⟨rfl,rfl⟩,rfl,⟨rfl,rfl⟩,(keptHistory consumed).1,(keptHistory parked).1,
    (keptHistory woken).1⟩

/- The wake looks at the slot before the sleep parks and counts itself after the sleep
has looked at the count: the sleep parks with one wake pending. -/
theorem wakeLost : ∃ c : State (Fin 1), Reachable (Step system) (start (Fin 1)) c ∧
    c.shared.st = .parked ∧ c.shared.pending = 1 ∧ ¬Kept c.shared := by
  have r0 : Reachable (Step system) (start (Fin 1)) (start (Fin 1)) := .refl
  have r1 := r0.tail (.solo (.sleep rfl rfl))
  have r2 := r1.tail (.move 0 (.lose (by decide)))
  have r3 := r2.tail (.move 0 .add)
  have r4 := r3.tail (.solo (.claim rfl rfl))
  have r5 := r4.tail (.solo (.park rfl))
  exact ⟨_,r5,rfl,rfl,fun kept => absurd (kept.parked rfl) (by decide)⟩

end Runs
end Uco.Sleeper
