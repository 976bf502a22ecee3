import Uco.ConnectionPool

/-! Close against the callers that wait for a permit. Their number is kept under the
pool's mutex, together with those that have a permit and are not back in the mutex. -/
namespace Uco.ConnectionPool
open Interleaving

variable {C : Type*} [DecidableEq C]

@[simp] def waiting : Pc C → ℕ | .waitPermit => 1 | _ => 0
@[simp] def passed : Pc C → ℕ | .granted => 1 | _ => 0
@[simp] def unsignalled : Pc C → ℕ | .wake count _ => count | _ => 0

structure Registered (g : Shared C) (n : Totals C) : Prop where
  registered : g.pendingPermitWaits = n waiting + n passed
  served : g.closed = true → n waiting ≤ g.permits + n unsignalled
  emptied : g.closed = true → g.idle = [] ∧ g.all = ∅

section Steps
variable {minIdle : ℕ} {g g' : Shared C} {p p' : Pc C} {n n' : Totals C}

omit [DecidableEq C] in
theorem registeredMoves (posted : Posted p p' n n') (old : Registered g n)
    (registered : g'.pendingPermitWaits + waiting p + passed p = g.pendingPermitWaits + waiting p' + passed p')
    (closed : g'.closed = g.closed)
    (permits : g.permits + waiting p' + unsignalled p ≤ g'.permits + waiting p + unsignalled p')
    (emptied : g.closed = true → g'.idle = [] ∧ g'.all = ∅) : Registered g' n' := by
  have c1 := posted.change waiting
  have c2 := posted.change passed
  have c3 := posted.change unsignalled
  have before := old.registered
  refine ⟨by omega, fun shut => ?_, fun shut => emptied (closed ▸ shut)⟩
  have covered := old.served (closed ▸ shut)
  omega

theorem acquireRegistered (taken : AcquireMove g p g' p') (posted : Posted p p' n n')
    (old : Registered g n) : Registered g' n' := by
  have mine := posted.own passed
  have before := old.registered
  cases taken with
  | registers isOpen =>
    have c1 := posted.change waiting
    have c2 := posted.change passed
    simp only [waiting, passed] at c1 c2
    have stays {P : Prop} (shut : g.closed = true) : P := by simp [isOpen] at shut
    exact ⟨by simp only; omega, stays, stays⟩
  | permit permit => exact registeredMoves posted old rfl rfl (by simp [waiting, unsignalled, permit]) old.emptied
  | tooLate =>
    simp only [passed] at mine
    refine registeredMoves posted old ?_ rfl (by simp [waiting, unsignalled]) old.emptied
    simp only [waiting, passed]
    omega
  | reuses isOpen =>
    simp only [passed] at mine
    refine registeredMoves posted old ?_ rfl (by simp [waiting, unsignalled]) (fun shut => by simp [isOpen] at shut)
    simp only [waiting, passed]
    omega
  | creates isOpen =>
    simp only [passed] at mine
    refine registeredMoves posted old ?_ rfl (by simp [waiting, unsignalled]) (fun shut => by simp [isOpen] at shut)
    simp only [waiting, passed]
    omega
  | joins isOpen =>
    exact registeredMoves posted old rfl rfl (by simp [waiting, unsignalled]) (fun shut => by simp [isOpen] at shut)
  | _ => exact registeredMoves posted old rfl rfl (by simp [waiting, unsignalled, uclose, touch]) old.emptied

theorem releaseRegistered (taken : ReleaseMove g p g' p') (posted : Posted p p' n n')
    (old : Registered g n) : Registered g' n' := by
  cases taken with
  | recycles isOpen =>
    exact registeredMoves posted old rfl rfl (by simp [waiting, unsignalled]) (fun shut => by simp [isOpen] at shut)
  | discards =>
    refine registeredMoves posted old rfl rfl (by simp [waiting, unsignalled]) (fun shut => ?_)
    obtain ⟨none, alone⟩ := old.emptied shut
    exact ⟨none, by simp [alone]⟩
  | _ => exact registeredMoves posted old rfl rfl (by simp [waiting, unsignalled, uclose, touch]) old.emptied

theorem closeRegistered (taken : CloseMove g p g' p') (posted : Posted p p' n n')
    (old : Registered g n) : Registered g' n' := by
  cases taken with
  | closes isOpen =>
    have c1 := posted.change waiting
    have c2 := posted.change passed
    have c3 := posted.change unsignalled
    have before := old.registered
    simp only [waiting, passed, unsignalled] at c1 c2 c3
    exact ⟨by simp only; omega, fun _ => by simp only; omega, fun _ => ⟨rfl, rfl⟩⟩
  | wakes =>
    refine registeredMoves posted old rfl rfl ?_ old.emptied
    simp only [waiting, unsignalled]
    omega
  | _ => exact registeredMoves posted old rfl rfl (by simp [waiting, unsignalled, uclose, touch]) old.emptied

theorem reaperRegistered (taken : ReaperMove minIdle g g') (old : Registered g n) : Registered g' n := by
  cases taken with
  | takes awake isOpen => exact ⟨old.registered, old.served, fun shut => by simp [isOpen] at shut⟩
  | _ => exact ⟨old.registered, old.served, old.emptied⟩

end Steps

section Runs
variable {T : Type*} [Fintype T] {maxSize minIdle : ℕ}

def Signalled (c : State T C) : Prop := c.shared.closed = true ∧ ∀ t, unsignalled (c.locals t) = 0

structure TurnedAway (c d : State T C) (t : T) : Prop where
  starts : d.locals t = .waitPermit → c.locals t = .waitPermit
  passes : c.locals t = .granted → d.locals t = .granted ∨ d.locals t = .idle
  created : ∀ x, c.locals t = .connected x → d.locals t = .connected x ∨ d.locals t = .lost x
  closes : ∀ x, c.locals t = .lost x →
    d.locals t = .lost x ∨ d.locals t = .failed ∧ d.shared.closes x = c.shared.closes x + 1
  gives : c.locals t = .failed → d.locals t = .failed ∨ d.locals t = .idle
  lends : ∀ x, d.locals t = .lent x → c.locals t = .lent x

theorem startRegistered : Registered (start T C maxSize).shared (start T C maxSize).total := by
  have none : ∀ f : Pc C → ℕ, f .idle = 0 → (start T C maxSize).total f = 0 :=
    fun f zero => totalConst _ f (fun _ => rfl) zero
  exact ⟨by rw [none waiting rfl, none passed rfl]; rfl, nofun, nofun⟩

variable [DecidableEq T]

structure NoneStranded (minIdle : ℕ) (c : State T C) : Prop where
  permits : Signalled c → c.total waiting ≤ c.shared.permits
  emptied : c.shared.closed = true → c.shared.idle = [] ∧ c.shared.all = ∅
  stays : ∀ d, Relation.ReflTransGen (Step (system C minIdle)) c d → c.shared.closed = true → d.shared.closed = true
  turned : ∀ d, Step (system C minIdle) c d → c.shared.closed = true → ∀ t, TurnedAway c d t

theorem stepRegistered {c d : State T C} (old : Registered c.shared c.total)
    (taken : Step (system C minIdle) c d) : Registered d.shared d.total := by
  cases taken with
  | solo taken => exact reaperRegistered taken old
  | @move t g l taken =>
    have posted : Posted (c.locals t) l c.total (c.set t g l).total :=
      ⟨fun f => leTotal c f t, fun f => totalSet c f t g l⟩
    rcases taken with acquire | release | close
    · exact acquireRegistered acquire posted old
    · exact releaseRegistered release posted old
    · exact closeRegistered close posted old

theorem runRegistered {c : State T C} (reached : Reachable (Step (system C minIdle)) (start T C maxSize) c) :
    Registered c.shared c.total :=
  reachableInvariant (fun c => Registered c.shared c.total) startRegistered
    (fun _ _ old taken => stepRegistered old taken) reached

omit [Fintype T] in
theorem closedKept {c d : State T C} (taken : Step (system C minIdle) c d) (shut : c.shared.closed = true) :
    d.shared.closed = true := by
  by_contra isOpen
  rw [stepStays taken (by simpa using isOpen)] at shut
  cases shut

theorem moveTurned {g g' : Shared C} {p p' : Pc C} (taken : Move g p g' p') (shut : g.closed = true) :
    (p' = .waitPermit → p = .waitPermit) ∧ (p = .granted → p' = .idle) ∧
    (∀ x, p = .connected x → p' = .lost x) ∧
    (∀ x, p = .lost x → p' = .failed ∧ g'.closes x = g.closes x + 1) ∧
    (p = .failed → p' = .idle) ∧ (∀ x, p' = .lent x → p = .lent x) := by
  rcases taken with acquire | release | close
  · cases acquire <;> simp_all [uclose, touch]
  · cases release <;> simp_all
  · cases close <;> simp_all

omit [Fintype T] in
theorem stepTurned {c d : State T C} (taken : Step (system C minIdle) c d) (shut : c.shared.closed = true) (t : T) :
    TurnedAway c d t := by
  cases taken with
  | solo taken => exact ⟨id, .inl, fun _ => .inl, fun _ => .inl, .inl, fun _ => id⟩
  | @move u g l taken =>
    by_cases same : t = u
    · subst same
      obtain ⟨starts, passes, created, closes, gives, lends⟩ := moveTurned taken shut
      have here : (c.set t g l).locals t = l := setSelf c t g l
      refine ⟨?_, ?_, ?_, ?_, ?_, ?_⟩
      · rw [here]; exact starts
      · rw [here]; exact fun at' => .inr (passes at')
      · rw [here]; exact fun x at' => .inr (created x at')
      · rw [here]; exact fun x at' => .inr (closes x at')
      · rw [here]; exact fun at' => .inr (gives at')
      · rw [here]; exact lends
    · have here := setOther c g l same
      refine ⟨?_, ?_, ?_, ?_, ?_, ?_⟩
      · rw [here]; exact id
      · rw [here]; exact .inl
      · rw [here]; exact fun _ => .inl
      · rw [here]; exact fun _ => .inl
      · rw [here]; exact .inl
      · rw [here]; exact fun _ => id

theorem closeStrandsNone {c : State T C}
    (reached : Reachable (Step (system C minIdle)) (start T C maxSize) c) : NoneStranded minIdle c := by
  have inv := runRegistered reached
  refine ⟨fun signalled => ?_, inv.emptied, fun d run shut => ?_, fun d taken shut t => stepTurned taken shut t⟩
  · have covered := inv.served signalled.1
    have issued : c.total unsignalled = 0 := Finset.sum_eq_zero (fun t _ => signalled.2 t)
    omega
  · exact reachableInvariant (fun d => d.shared.closed = true) shut (fun _ _ old taken => closedKept taken old) run

end Runs

section Uses

def shutDown : Pool :=
  (((start (Fin 2) ℕ 4).set 0 ⟨false,1,4,[],∅,.asleep,∅,fun _ => 0,0⟩ .waitPermit).set 1
    ⟨true,1,4,[],∅,.asleep,∅,fun _ => 0,0⟩ (.wake 1 [])).set 1
    ⟨true,1,5,[],∅,.asleep,∅,fun _ => 0,0⟩ (.wake 0 [])

theorem shutDownReached : Reachable (Step (system ℕ 1)) (start (Fin 2) ℕ 4) shutDown := by
  have r1 := Relation.ReflTransGen.refl.tail (r := Step (system ℕ 1)) (a := start (Fin 2) ℕ 4)
    (.move 0 (.acquire (.registers rfl)))
  have r2 := r1.tail (.move 1 (.close (.closes rfl List.nodup_nil (fun x => by simp [start]))))
  exact r2.tail (.move 1 (.close .wakes))

theorem shutDownServed : NoneStranded 1 shutDown ∧ Signalled shutDown ∧ shutDown.total waiting = 1 :=
  ⟨closeStrandsNone shutDownReached, ⟨rfl, by decide⟩, by decide⟩

end Uses
end Uco.ConnectionPool
