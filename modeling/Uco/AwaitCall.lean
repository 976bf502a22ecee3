import Uco.AwaitChain

/-! What one call of resume() wakes, and what the co_awaits are given: the records agree with
the frames, and a call follows the awaiters up to the first that suspends again. -/
namespace Uco.AwaitChain
open Interleaving

section Recorded
variable {E : Type*}

def Status.ended : Status → Bool
  | .finished => true
  | .destroyed _ => true
  | _ => false

structure Ledger (s : State E) : Prop where
  outcome : ∀ c err, s.outcome c = some err ↔ (s.promise c).status.ended ∧ (s.promise c).error = err
  destroyer : ∀ c x, (s.promise c).status = .destroyed x → x = (s.awaiter c).getD c
  once : ∀ p, ((s.received p).map Prod.fst).Nodup
  received : ∀ p d err, (d,err) ∈ s.received p ↔
    s.awaiter d = some p ∧ (s.promise d).status = .destroyed p ∧ s.outcome d = some err

theorem startLedger : Ledger (start : State E) := by
  constructor <;> simp [start, Status.ended]

theorem ledgerKeep {s s' : State E} (ledger : Ledger s) (outcome : s'.outcome = s.outcome)
    (received : s'.received = s.received)
    (same : ∀ c, (s'.promise c).status = (s.promise c).status ∧ (s'.promise c).error = (s.promise c).error ∧
        s'.awaiter c = s.awaiter c ∨
      (s.promise c).status.ended = false ∧ (s'.promise c).status.ended = false) : Ledger s' := by
  constructor
  case outcome =>
    intro c err
    have := ledger.outcome c err
    rw [outcome]
    grind
  case destroyer =>
    intro c x
    have := ledger.destroyer c x
    grind [Status.ended]
  case once =>
    rw [received]
    exact ledger.once
  case received =>
    intro p d err
    have := ledger.received p d err
    rw [received, outcome]
    grind [Status.ended]

theorem beginLedger {s : State E} (inv : Inv s) (ledger : Ledger s) (caller : Caller) (awaiter : Option ℕ)
    (ctx : Ctx) : Ledger (begin s caller awaiter ctx) := by
  refine ledgerKeep ledger rfl rfl (fun c => ?_)
  have fresh := (inv.born s.next).mpr le_rfl
  rcases eq_or_ne c s.next with rfl | other
  · simp [begin, State.put, fresh, Status.ended]
  · simp [begin, State.put, other]

theorem goDispatchLedger {s : State E} (inv : Inv s) (ledger : Ledger s) : Ledger (goDispatch s) := by
  cases mode : s.scheduler with
  | running =>
    simp only [goDispatch, mode]
    exact beginLedger inv ledger _ _ _
  | notStarted =>
    simp only [goDispatch, mode]
    refine ledgerKeep ledger rfl rfl (fun c => ?_)
    have fresh := (inv.born s.next).mpr le_rfl
    rcases eq_or_ne c s.next with rfl | other
    · simp [State.put, fresh, Status.ended]
    · simp [State.put, other]
  | exited =>
    simp only [goDispatch, mode]
    exact ledgerKeep ledger rfl rfl (fun c => .inl ⟨rfl,rfl,rfl⟩)

theorem putLedger {s s' : State E} (ledger : Ledger s) (outcome : s'.outcome = s.outcome)
    (received : s'.received = s.received) (awaiter : s'.awaiter = s.awaiter) {c : ℕ} {own : Promise E}
    (put : s'.promise = Function.update s.promise c own) (before : (s.promise c).status.ended = false)
    (after : own.status.ended = false) : Ledger s' := by
  refine ledgerKeep ledger outcome received (fun d => ?_)
  rw [put, awaiter]
  rcases eq_or_ne d c with rfl | other
  · simp [before, after]
  · simp [other]

theorem finalSuspendLedger {s : State E} (inv : Inv s) (ledger : Ledger s) {c : ℕ} (here : s.control = .run c)
    (error : Option E) : Ledger (finalSuspend s c error) := by
  obtain ⟨top,rest,inside⟩ := insideOf inv here
  have status := inside.here
  have awaiter := callerNull inv (c := c) (by simp [status, Status.going])
  simp only [finalSuspend]
  split_ifs with root failed
  · exact ledgerKeep ledger rfl rfl (fun c => .inl ⟨rfl,rfl,rfl⟩)
  all_goals
    constructor
    case outcome =>
      intro d err
      have := ledger.outcome d err
      simp only [State.put, Function.update_apply]
      grind [Status.ended]
    case destroyer =>
      intro d x
      have := ledger.destroyer d x
      simp only [State.put, updateStatus]
      grind
    case once => exact ledger.once
    case received =>
      intro p d err
      have := ledger.received p d err
      simp only [State.put, Function.update_apply]
      grind

theorem awaitResumeLedger {s s' : State E} (ledger : Ledger s) {p d : ℕ} (done : (s.promise d).status = .finished)
    (waiting : s.awaiter d = some p) (awaiter : s'.awaiter = s.awaiter) (outcome : s'.outcome = s.outcome)
    (received : s'.received = Function.update s.received p (s.received p ++ [(d,(s.promise d).error)]))
    (self : s'.promise d = {s.promise d with status := .destroyed p})
    (others : ∀ c ≠ d,
      (s'.promise c).status = (s.promise c).status ∧ (s'.promise c).error = (s.promise c).error ∨
      (s.promise c).status.ended = false ∧ (s'.promise c).status.ended = false) : Ledger s' := by
  have out : s.outcome d = some (s.promise d).error := (ledger.outcome d _).mpr ⟨by rw [done]; rfl,rfl⟩
  constructor
  case outcome =>
    intro c err
    have := ledger.outcome c err
    have := others c
    rw [outcome]
    grind [Status.ended]
  case destroyer =>
    intro c x
    have := ledger.destroyer c x
    have := others c
    rw [awaiter]
    grind [Status.ended]
  case once =>
    intro q
    have old := ledger.once q
    have fresh : d ∉ (s.received q).map Prod.fst := by
      rw [List.mem_map]
      rintro ⟨⟨_,err⟩,mem,rfl⟩
      have status := ((ledger.received q _ err).mp mem).2.1
      simp [done] at status
    rw [received, Function.update_apply]
    split_ifs with same
    · subst same
      rw [List.map_append, List.map_singleton]
      exact old.append (List.nodup_singleton d) (by simpa using fresh)
    · exact old
  case received =>
    intro q c err
    have := ledger.received q c err
    have := others c
    rw [received, awaiter, outcome, Function.update_apply]
    grind [Status.ended]

theorem awaitSuspendLedger {s : State E} (ledger : Ledger s) {p d : ℕ} {rest : List Ctx}
    (going : (s.promise d).status.going) (running : (s.promise p).status = .running) :
    Ledger (awaitSuspend {s with stack := rest} p d) := by
  refine ledgerKeep ledger rfl rfl (fun c => ?_)
  have open' : (s.promise d).status.ended = false := by
    revert going
    cases (s.promise d).status <;> simp [Status.going, Status.ended]
  simp only [awaitSuspend, State.put, Function.update_apply]
  grind [Status.ended]

theorem backLedger {s : State E} (inv : Inv s) (ledger : Ledger s) (here : s.control = .back) : Ledger (back s) := by
  have returned := backReturned inv here
  generalize back s = s' at returned ⊢
  cases returned with
  | received stack done waiting awaiter =>
    refine awaitResumeLedger ledger done waiting rfl rfl rfl (by simp [State.put]) (fun c other => .inl ?_)
    simp [State.put, other]
  | suspended stack going waiting awaiter => exact awaitSuspendLedger ledger going awaiter
  | launched stack => exact ledgerKeep ledger rfl rfl (fun c => .inl ⟨rfl,rfl,rfl⟩)
  | left stack settled => exact ledgerKeep ledger rfl rfl (fun c => .inl ⟨rfl,rfl,rfl⟩)
  | @woken p d stack done waiting awaiter =>
    refine awaitResumeLedger ledger done waiting rfl rfl rfl (by simp [State.put]) (fun c other => ?_)
    rcases eq_or_ne c p with rfl | away
    · exact .inr (by simp [State.put, other, awaiter, Status.ended])
    · exact .inl (by simp [State.put, other, away])

theorem stepLedger {s s' : State E} (inv : Inv s) (ledger : Ledger s) (step : Step s s') : Ledger s' := by
  cases step with
  | plainGo here plain => exact goDispatchLedger inv ledger
  | schedule here => exact ledgerKeep ledger rfl rfl (fun c => .inl ⟨rfl,rfl,rfl⟩)
  | leave here _ => exact ledgerKeep ledger rfl rfl (fun c => .inl ⟨rfl,rfl,rfl⟩)
  | resume c here scheduling parked =>
    simp only [resume, parked, Status.live, if_true, handleResume, wake]
    exact putLedger ledger rfl rfl rfl rfl (by simp [parked, Status.ended]) rfl
  | park here =>
    obtain ⟨top,rest,inside⟩ := insideOf inv here
    exact putLedger ledger rfl rfl rfl rfl (by simp [inside.here, Status.ended]) rfl
  | await here => exact beginLedger inv ledger _ _ _
  | go here => exact goDispatchLedger inv ledger
  | finish error here => exact finalSuspendLedger inv ledger here error
  | back here => exact backLedger inv ledger here

theorem reachableLedger {s : State E} (run : Reachable Step start s) : Ledger s :=
  (reachableInvariant (fun s => Inv s ∧ Ledger s) ⟨startInv,startLedger⟩
    (fun _ _ both step => ⟨stepInv both.1 step,stepLedger both.1 both.2 step⟩) run).2

end Recorded

section Calls
variable {E : Type*}

inductive Chain (f : ℕ → Promise E) : ℕ → Caller → List ℕ → Prop where
  | root (c : ℕ) : Chain f c .null []
  | up {c p rest} (awaits : (f p).status = .awaiting c) (above : Chain f p (f p).caller rest) :
      Chain f c (.addr p) (p :: rest)

structure Call (s : State E) (c : ℕ) (s' : State E) : Prop where
  here : s.control = .idle
  scheduling : s.scheduler = .running
  parked : (s.promise c).status = .parked
  run : Relation.ReflTransGen (fun a b => a.control ≠ .idle ∧ Step a b) (resume s c) s'
  back : s'.control = .idle

def Status.suspended : Status → Bool
  | .parked => true
  | .awaiting _ => true
  | _ => false

structure WakesExactly (s : State E) (c : ℕ) (s' : State E) (ps woken rest : List ℕ) : Prop where
  chain : Chain s.promise c (s.promise c).caller ps
  split : c :: ps = woken ++ rest
  resumed : s'.resumed = s.resumed ++ woken
  exact : ∀ p, p ∈ woken ∧ p ≠ c ↔
    ∃ d, (s.promise p).status = .awaiting d ∧ s.outcome d = none ∧ s'.outcome d ≠ none
  stops : ∃ cur, woken.getLast? = some cur ∧
    ((s'.promise cur).status.suspended ∨ rest = [] ∧ s'.outcome cur ≠ none)

theorem chainOf {s : State E} (inv : Inv s) (here : s.control = .idle) (c : ℕ) (going : (s.promise c).status.going) :
    ∃ ps, Chain s.promise c (s.promise c).caller ps := by
  induction c using Nat.strong_induction_on with
  | _ c ih =>
    rcases waiting : s.awaiter c with _ | p
    · rw [inv.root c going waiting]
      exact ⟨[],.root c⟩
    · rcases inv.awaited c p going waiting with ⟨_,mem⟩ | ⟨caller,awaits⟩
      · simp [inv.quiet (.inl here)] at mem
      · obtain ⟨rest,above⟩ := ih p (inv.older c p waiting) (by simp [awaits, Status.going])
        rw [caller]
        exact ⟨p :: rest,.up awaits above⟩

theorem chainSplit {f : ℕ → Promise E} {done : List ℕ} {c cur : ℕ} {ps later : List ℕ}
    (chain : Chain f c (f c).caller ps) (split : c :: ps = done ++ cur :: later) :
    Chain f cur (f cur).caller later ∧
      (∀ p ∈ done ++ [cur], p ≠ c → ∃ d ∈ done, (f p).status = .awaiting d) ∧
      ∀ d ∈ done, ∃ q ∈ done ++ [cur], (f q).status = .awaiting d := by
  induction done generalizing c ps with
  | nil =>
    cases split
    refine ⟨chain,?_,by simp⟩
    intro p mem other
    exact absurd (by simpa using mem) other
  | cons x done ih =>
    rw [List.cons_append, List.cons.injEq] at split
    obtain ⟨rfl,split⟩ := split
    generalize (f c).caller = caller at chain
    cases chain with
    | root => simp at split
    | @up _ q rest awaits above =>
      obtain ⟨last,before,after⟩ := ih above split
      refine ⟨last,?_,?_⟩
      · intro p mem other
        rcases eq_or_ne p q with rfl | away
        · exact ⟨c,List.mem_cons_self,awaits⟩
        · rcases List.mem_cons.mp mem with same | mem
          · exact absurd same other
          · obtain ⟨d,inside,status⟩ := before p mem away
            exact ⟨d,List.mem_cons_of_mem _ inside,status⟩
      · intro d mem
        rcases List.mem_cons.mp mem with rfl | mem
        · refine ⟨q,?_,awaits⟩
          have head : q ∈ done ++ [cur] := by
            cases done <;> simp_all
          exact List.mem_cons_of_mem _ head
        · obtain ⟨q',inside,status⟩ := after d mem
          exact ⟨q',List.mem_cons_of_mem _ inside,status⟩

theorem chainOlder {s : State E} (inv : Inv s) {c : ℕ} {caller : Caller} {ps : List ℕ}
    (chain : Chain s.promise c caller ps) : (c :: ps).Pairwise (· > ·) := by
  rw [← List.isChain_iff_pairwise]
  induction chain with
  | root c => exact .singleton c
  | up awaits above ih => exact .cons_cons (inv.older _ _ (inv.awaits _ _ awaits).1) ih

structure Inner (s s' : State E) : Prop where
  resumed : s'.resumed = s.resumed
  base : s'.stack.getLast? = s.stack.getLast?
  young : ∀ ctx ∈ s'.stack, ctx ∈ s.stack ∨ s.next ≤ ctx.callee
  next : s.next ≤ s'.next
  frame : ∀ x < s.next, x ∉ s.stack.map Ctx.callee → s'.promise x = s.promise x ∧ s'.outcome x = s.outcome x
  kept : ∀ x, s.outcome x ≠ none → s'.outcome x ≠ none

theorem beginInner {s : State E} {top : Ctx} {rest : List Ctx} (stack : s.stack = top :: rest) (caller : Caller)
    (awaiter : Option ℕ) {ctx : Ctx} (callee : ctx.callee = s.next) : Inner s (begin s caller awaiter ctx) where
  resumed := rfl
  base := by simp [begin, stack]
  young := by
    intro x mem
    rcases List.mem_cons.mp mem with rfl | mem
    · exact .inr (Nat.le_of_eq callee.symm)
    · exact .inl mem
  next := Nat.le_succ _
  frame := fun x old _ => ⟨by simp [begin, State.put, Nat.ne_of_lt old],rfl⟩
  kept := fun x h => h

theorem putInner {s s' : State E} {top : Ctx} {rest : List Ctx} (stack : s.stack = top :: rest) {own : Promise E}
    (put : s'.promise = Function.update s.promise top.callee own) (resumed : s'.resumed = s.resumed)
    (same : s'.stack = s.stack) (next : s'.next = s.next) {outcome : Option (Option E)}
    (ended : s'.outcome = Function.update s.outcome top.callee outcome)
    (kept : s.outcome top.callee ≠ none → outcome ≠ none) : Inner s s' where
  resumed := resumed
  base := by rw [same]
  young := fun x mem => .inl (same ▸ mem)
  next := by rw [next]
  frame := by
    intro x _ away
    have other : x ≠ top.callee := by
      rintro rfl
      exact away (by simp [stack])
    simp [put, ended, other]
  kept := by
    intro x h
    rw [ended, Function.update_apply]
    split_ifs with self
    · exact kept (self ▸ h)
    · exact h

theorem stepEffect {s s' : State E} (inv : Inv s) (step : Step s s') (busy : s.control ≠ .idle)
    (more : s'.control ≠ .idle) :
    Inner s s' ∨ ∃ p d, s.stack = [.resume d (.addr p)] ∧ (s.promise d).status = .finished ∧
      (s.promise p).status = .awaiting d ∧ s'.stack = [.resume p (s.promise p).caller] ∧
      s'.resumed = s.resumed ++ [p] ∧ s'.outcome = s.outcome ∧ s'.next = s.next ∧
      ∀ x, x ≠ p → x ≠ d → s'.promise x = s.promise x := by
  cases step with
  | plainGo here plain => exact absurd here busy
  | schedule here => exact absurd here busy
  | leave here _ => exact absurd here busy
  | resume c here scheduling parked => exact absurd here busy
  | @park c here =>
    obtain ⟨top,rest,inside⟩ := insideOf inv here
    obtain rfl := inside.callee
    exact .inl (putInner inside.stack rfl rfl rfl rfl (Function.update_eq_self _ _).symm (fun h => h))
  | @await p here =>
    obtain ⟨top,rest,inside⟩ := insideOf inv here
    exact .inl (beginInner inside.stack _ _ rfl)
  | @go c here =>
    obtain ⟨top,rest,inside⟩ := insideOf inv here
    simp only [goDispatch, inside.scheduling]
    exact .inl (beginInner inside.stack _ _ rfl)
  | @finish c error here =>
    obtain ⟨top,rest,inside⟩ := insideOf inv here
    obtain rfl := inside.callee
    left
    simp only [finalSuspend]
    split_ifs with root failed
    · exact ⟨rfl,rfl,fun x mem => .inl mem,le_rfl,fun x _ _ => ⟨rfl,rfl⟩,fun x h => h⟩
    · exact putInner inside.stack rfl rfl rfl rfl rfl (by simp)
    · exact putInner inside.stack rfl rfl rfl rfl rfl (by simp)
  | back here =>
    have returned := backReturned inv here
    have stacked := inv.stacked (by simp [here]) (by simp [here])
    generalize back s = s' at returned more
    cases returned with
    | @received p d rest stack done waiting awaiter =>
      left
      rw [stack] at stacked
      cases stacked with | @ready _ ctx rest _ older below =>
      exact
        { resumed := rfl
          base := by simp [stack]
          young := fun x mem => .inl (by rw [stack]; exact List.mem_cons_of_mem _ mem)
          next := le_rfl
          frame := by
            intro x _ away
            have other : x ≠ d := by
              rintro rfl
              exact away (by simp [stack, Ctx.callee])
            exact ⟨by simp [State.put, other],rfl⟩
          kept := fun x h => h }
    | @suspended p d rest stack going waiting awaiter =>
      left
      rw [stack] at stacked
      cases stacked with | @ready _ ctx rest _ older below =>
      exact
        { resumed := rfl
          base := by simp [awaitSuspend, State.put, stack]
          young := fun x mem => .inl (by rw [stack]; exact List.mem_cons_of_mem _ mem)
          next := le_rfl
          frame := by
            intro x _ away
            have hd : x ≠ d := by
              rintro rfl
              exact away (by simp [stack, Ctx.callee])
            have hp : x ≠ ctx.callee := by
              rintro rfl
              exact away (by simp [stack])
            exact ⟨by simp [awaitSuspend, State.put, hd, hp],rfl⟩
          kept := fun x h => h }
    | @launched p d rest stack =>
      left
      rw [stack] at stacked
      cases stacked with | @go _ ctx rest _ older below =>
      exact
        { resumed := rfl
          base := by simp [stack]
          young := fun x mem => .inl (by rw [stack]; exact List.mem_cons_of_mem _ mem)
          next := le_rfl
          frame := fun x _ _ => ⟨rfl,rfl⟩
          kept := fun x h => h }
    | left stack settled => exact absurd rfl more
    | @woken p d stack done waiting awaiter =>
      refine .inr ⟨p,d,stack,done,awaiter,rfl,rfl,rfl,rfl,?_⟩
      intro x hp hd
      simp [State.put, hp, hd]

structure InCall (s : State E) (c : ℕ) (ps : List ℕ) (now : State E) (done : List ℕ) (cur : ℕ)
    (later : List ℕ) : Prop where
  split : c :: ps = done ++ cur :: later
  resumed : now.resumed = s.resumed ++ (done ++ [cur])
  ended : ∀ x ∈ done, now.outcome x ≠ none
  next : s.next ≤ now.next
  frame : ∀ x < s.next, x ∉ done → x ≠ cur → now.promise x = s.promise x ∧ now.outcome x = s.outcome x

structure Underway (s : State E) (c : ℕ) (ps : List ℕ) (now : State E) (done : List ℕ) (cur : ℕ)
    (later : List ℕ) : Prop extends InCall s c ps now done cur later where
  base : now.stack.getLast? = some (.resume cur (s.promise cur).caller)
  young : ∀ ctx ∈ now.stack, ctx.callee = cur ∨ s.next ≤ ctx.callee

theorem resumeUnderway {s : State E} (inv : Inv s) {c : ℕ} (here : s.control = .idle)
    (parked : (s.promise c).status = .parked) (ps : List ℕ) : Underway s c ps (resume s c) [] c ps := by
  have stack := inv.quiet (.inl here)
  simp only [resume, parked, Status.live, if_true, handleResume, wake, stack]
  constructor
  case toInCall =>
    constructor
    case split => rfl
    case resumed => rfl
    case ended => simp
    case next => exact le_rfl
    case frame => exact fun x _ _ other => ⟨by simp [State.put, other],rfl⟩
  case base => simp [State.put]
  case young => simp [State.put, Ctx.callee]

theorem innerUnderway {s now s' : State E} {c cur : ℕ} {ps done later : List ℕ}
    (call : Underway s c ps now done cur later) (inner : Inner now s') : Underway s c ps s' done cur later := by
  constructor
  case toInCall =>
    constructor
    case split => exact call.split
    case resumed => rw [inner.resumed, call.resumed]
    case ended => exact fun x mem => inner.kept x (call.ended x mem)
    case next => exact call.next.trans inner.next
    case frame =>
      intro x old away other
      have off : x ∉ now.stack.map Ctx.callee := by
        rw [List.mem_map]
        rintro ⟨ctx,mem,rfl⟩
        rcases call.young ctx mem with h | h
        · exact other h
        · omega
      have same := inner.frame x (by have := call.next; omega) off
      rw [same.1, same.2]
      exact call.frame x old away other
  case base => rw [inner.base, call.base]
  case young =>
    intro ctx mem
    rcases inner.young ctx mem with h | h
    · exact call.young ctx h
    · exact .inr (call.next.trans h)

theorem wokenUnderway {s now s' : State E} {c cur p d : ℕ} {ps done later : List ℕ} (inv : Inv s)
    (chain : Chain s.promise c (s.promise c).caller ps)
    (call : Underway s c ps now done cur later) (stack : now.stack = [.resume d (.addr p)])
    (ended : now.outcome d ≠ none) (stack' : s'.stack = [.resume p (now.promise p).caller])
    (resumed : s'.resumed = now.resumed ++ [p]) (outcome : s'.outcome = now.outcome) (next : s'.next = now.next)
    (others : ∀ x, x ≠ p → x ≠ d → s'.promise x = now.promise x) :
    ∃ rest, later = p :: rest ∧ Underway s c ps s' (done ++ [cur]) p rest := by
  have base := call.base
  rw [stack] at base
  simp only [List.getLast?_singleton, Option.some.injEq, Ctx.resume.injEq] at base
  obtain ⟨rfl,caller⟩ := base
  have above := (chainSplit chain call.split).1
  have sorted := chainOlder inv chain
  rw [call.split] at sorted
  rw [← caller] at above
  cases above with | @up _ _ rest awaits above =>
  have born : p < s.next := Nat.lt_of_not_le (fun big => by simp [(inv.born p).mpr big] at awaits)
  obtain ⟨_,tail,apart⟩ := List.pairwise_append.mp sorted
  have older := (List.pairwise_cons.mp tail).1 p List.mem_cons_self
  have away : p ∉ done := fun mem => absurd (apart p mem p (by simp)) (lt_irrefl p)
  have same := call.frame p born away (Nat.ne_of_lt older)
  refine ⟨rest,rfl,?_⟩
  constructor
  case toInCall =>
    constructor
    case split => rw [call.split, List.append_assoc, List.singleton_append]
    case resumed => rw [resumed, call.resumed, List.append_assoc]
    case ended =>
      intro x mem
      rw [outcome]
      rcases List.mem_append.mp mem with mem | mem
      · exact call.ended x mem
      · rw [List.mem_singleton.mp mem]
        exact ended
    case next => exact next ▸ call.next
    case frame =>
      intro x old off other
      rw [List.mem_append, List.mem_singleton, not_or] at off
      rw [outcome, others x other off.2]
      exact call.frame x old off.1 off.2
  case base => rw [stack', List.getLast?_singleton, same.1]
  case young => simp [stack', Ctx.callee]

theorem leftStops {now : State E} (inv : Inv now) (ledger : Ledger now) (here : now.control = .back) {cur : ℕ}
    {caller : Caller} (stack : now.stack = [.resume cur caller])
    (settled : caller = .null ∧ now.awaiter cur = none ∨ (now.promise cur).status.going) :
    (now.promise cur).status.suspended ∨ caller = .null ∧ now.outcome cur ≠ none := by
  have running := activeBack inv here stack cur
  cases status : (now.promise cur).status with
  | parked => exact .inl rfl
  | awaiting d => exact .inl rfl
  | running => simp [status] at running
  | unborn =>
    have born := inv.stackBorn _ (stack ▸ List.mem_cons_self)
    have old := (inv.born cur).mp status
    simp only [Ctx.callee] at born
    omega
  | finished =>
    obtain ⟨_,p,_,waiting,_⟩ := inv.finished cur status
    rcases settled with ⟨_,root⟩ | going
    · simp [root] at waiting
    · simp [status, Status.going] at going
  | destroyed x =>
    have out := (ledger.outcome cur _).mpr ⟨by rw [status]; rfl,rfl⟩
    rcases settled with ⟨null,_⟩ | going
    · exact .inr ⟨null,by simp [out]⟩
    · simp [status, Status.going] at going

structure Progress (s : State E) (c : ℕ) (ps : List ℕ) (now : State E) : Prop where
  inv : Inv now
  ledger : Ledger now
  busy : now.control ≠ .idle → ∃ done cur later, Underway s c ps now done cur later
  final : now.control = .idle → ∃ done cur later, InCall s c ps now done cur later ∧
    ((now.promise cur).status.suspended ∨ later = [] ∧ now.outcome cur ≠ none)

theorem stepProgress {s now s' : State E} {c : ℕ} {ps : List ℕ} (inv : Inv s)
    (chain : Chain s.promise c (s.promise c).caller ps) (progress : Progress s c ps now)
    (busy : now.control ≠ .idle) (step : Step now s') : Progress s c ps s' := by
  obtain ⟨done,cur,later,call⟩ := progress.busy busy
  refine ⟨stepInv progress.inv step,stepLedger progress.inv progress.ledger step,?_,?_⟩
  · intro more
    have effect := stepEffect progress.inv step busy more
    rcases effect with inner | ⟨p,d,stack,status,awaits,stack',resumed,outcome,next,others⟩
    · exact ⟨done,cur,later,innerUnderway call inner⟩
    · have ended : now.outcome d ≠ none := by
        rw [(progress.ledger.outcome d _).mpr ⟨by rw [status]; rfl,rfl⟩]
        simp
      obtain ⟨rest,rfl,next'⟩ := wokenUnderway inv chain call stack ended stack' resumed outcome next others
      exact ⟨_,_,_,next'⟩
  · intro idle
    cases step with
    | plainGo here plain => exact absurd here busy
    | schedule here => exact absurd here busy
    | leave here _ => exact absurd here busy
    | resume c here scheduling parked => exact absurd here busy
    | park here => cases idle
    | await here => cases idle
    | go here =>
      obtain ⟨top,rest,inside⟩ := insideOf progress.inv here
      simp [goDispatch, inside.scheduling, begin] at idle
    | finish error here =>
      simp only [finalSuspend] at idle
      split_ifs at idle
    | back here =>
      have returned := backReturned progress.inv here
      generalize back now = s' at returned idle
      cases returned with
      | received => cases idle
      | suspended => cases idle
      | launched => cases idle
      | woken => cases idle
      | left stack settled =>
        have base := call.base
        rw [stack] at base
        simp only [List.getLast?_singleton, Option.some.injEq, Ctx.resume.injEq] at base
        obtain ⟨rfl,caller⟩ := base
        refine ⟨done,_,later,{ call.toInCall with },?_⟩
        rcases leftStops progress.inv progress.ledger here stack settled with suspended | ⟨null,ended⟩
        · exact .inl suspended
        · have above := (chainSplit chain call.split).1
          rw [← caller, null] at above
          cases above
          exact .inr ⟨rfl,ended⟩

theorem callProgress {s s' : State E} {c : ℕ} {ps : List ℕ} (inv : Inv s) (ledger : Ledger s)
    (chain : Chain s.promise c (s.promise c).caller ps) (call : Call s c s') : Progress s c ps s' := by
  obtain ⟨here,scheduling,parked,run,back⟩ := call
  clear back
  have first : Step s (resume s c) := .resume c here scheduling parked
  induction run with
  | refl =>
    refine ⟨stepInv inv first,stepLedger inv ledger first,fun _ => ⟨_,_,_,resumeUnderway inv here parked ps⟩,?_⟩
    intro idle
    simp [resume, parked, Status.live, handleResume, wake] at idle
  | tail _ step ih => exact stepProgress inv chain ih step.1 step.2

theorem chainSuspended {f : ℕ → Promise E} {c : ℕ} {caller : Caller} {ps : List ℕ}
    (chain : Chain f c caller ps) : ∀ p ∈ ps, (f p).status.suspended := by
  induction chain with
  | root c => simp
  | up awaits above ih =>
    intro p mem
    rcases List.mem_cons.mp mem with rfl | mem
    · rw [awaits]
      rfl
    · exact ih p mem

theorem suspendedGoing {st : Status} (suspended : st.suspended) : st.going ∧ st.ended = false := by
  cases st <;> simp_all [Status.suspended, Status.going, Status.ended]

theorem suspendedOpen {s : State E} (ledger : Ledger s) {c : ℕ} (suspended : (s.promise c).status.suspended) :
    s.outcome c = none := by
  rw [Option.eq_none_iff_forall_ne_some]
  intro err out
  have ended := ((ledger.outcome c err).mp out).1
  rw [(suspendedGoing suspended).2] at ended
  cases ended

theorem callWakes {s s' : State E} {c : ℕ} (inv : Inv s) (ledger : Ledger s) (call : Call s c s') :
    ∃ ps woken rest, WakesExactly s c s' ps woken rest := by
  have parked := call.parked
  obtain ⟨ps,chain⟩ := chainOf inv call.here c (by simp [parked, Status.going])
  have progress := callProgress inv ledger chain call
  obtain ⟨done,cur,later,inCall,stops⟩ := progress.final call.back
  obtain ⟨above,before,after⟩ := chainSplit chain inCall.split
  refine ⟨ps,done ++ [cur],later,chain,by rw [inCall.split]; simp,inCall.resumed,?_,cur,by simp,stops⟩
  have suspended : ∀ x ∈ c :: ps, (s.promise x).status.suspended := by
    intro x mem
    rcases List.mem_cons.mp mem with rfl | mem
    · rw [parked]
      rfl
    · exact chainSuspended chain x mem
  intro p
  constructor
  · rintro ⟨mem,other⟩
    obtain ⟨d,ended,awaits⟩ := before p mem other
    have open' := suspendedOpen ledger (suspended d (inCall.split ▸ List.mem_append_left _ ended))
    exact ⟨d,awaits,open',inCall.ended d ended⟩
  · rintro ⟨d,awaits,fresh,ended⟩
    have other : p ≠ c := by
      rintro rfl
      simp [parked] at awaits
    refine ⟨?_,other⟩
    have waiting := inv.awaits p d awaits
    have born : d < s.next := by
      refine Nat.lt_of_not_le (fun big => ?_)
      simp [inv.fresh d big] at waiting
    by_cases mem : d ∈ done
    · obtain ⟨q,inside,status⟩ := after d mem
      have same := (inv.awaits q d status).1
      rw [waiting.1] at same
      rwa [Option.some.inj same]
    · obtain rfl : d = cur := by
        by_contra away
        rw [(inCall.frame d born mem away).2] at ended
        exact ended fresh
      rcases stops with still | ⟨rfl,_⟩
      · exact absurd (suspendedOpen progress.ledger still) ended
      · have cur := suspended d (inCall.split ▸ by simp)
        have caller : (s.promise d).caller = .null := by
          generalize (s.promise d).caller = caller at above
          cases above
          rfl
        rw [(callerNull inv (suspendedGoing cur).1).mp caller] at waiting
        exact absurd waiting.1 (by simp)

theorem idleDelivered {s : State E} (inv : Inv s) (ledger : Ledger s) (here : s.control = .idle) {c : ℕ}
    (ended : s.outcome c ≠ none) : (s.promise c).status = .destroyed ((s.awaiter c).getD c) := by
  obtain ⟨err,out⟩ := Option.ne_none_iff_exists'.mp ended
  have closed := ((ledger.outcome c err).mp out).1
  cases status : (s.promise c).status with
  | destroyed x => rw [ledger.destroyer c x status]
  | finished => exact absurd status (notFinished inv (by simp [here]) c)
  | unborn => simp [status, Status.ended] at closed
  | parked => simp [status, Status.ended] at closed
  | running => simp [status, Status.ended] at closed
  | awaiting d => simp [status, Status.ended] at closed

theorem completionPropagates {s : State E} (run : Reachable Step start s) :
    (s.control ≠ .neverYield ∧ s.control ≠ .broken) ∧
      (∀ c x, (s.promise c).status = .destroyed x → x = (s.awaiter c).getD c) ∧
      (∀ p, ((s.received p).map Prod.fst).Nodup) ∧
      (∀ p d err, (d,err) ∈ s.received p ↔
        s.awaiter d = some p ∧ (s.promise d).status = .destroyed p ∧ s.outcome d = some err) ∧
      (s.control = .idle → ∀ c, s.outcome c ≠ none →
        (s.promise c).status = .destroyed ((s.awaiter c).getD c)) ∧
      ∀ c s', Call s c s' → ∃ ps woken rest, WakesExactly s c s' ps woken rest := by
  have inv := reachableInv run
  have ledger := reachableLedger run
  exact ⟨inv.sane,ledger.destroyer,ledger.once,ledger.received,
    fun here c ended => idleDelivered inv ledger here ended,fun c s' call => callWakes inv ledger call⟩

def rootAwaits : State Unit :=
  back (back (park (awaitReady (resume {(goDispatch start : State Unit) with scheduler := .running} 0) 0) 1))

theorem rootAwaitsReachable : Reachable Step start rootAwaits := by
  refine .tail (.tail (.tail (.tail (.tail (.tail (.tail .refl (.plainGo rfl (by decide))) (.schedule rfl))
    (.resume 0 rfl rfl rfl)) (.await (p := 0) rfl)) (.park (c := 1) rfl)) (.back rfl)) (.back rfl)

theorem childThrows :
    (∀ s', Call rootAwaits 1 s' → ∃ ps woken rest, WakesExactly rootAwaits 1 s' ps woken rest) ∧
      Call rootAwaits 1 (back (finalSuspend (back (finalSuspend (resume rootAwaits 1) 1 (some ()))) 0 none)) ∧
      (back (finalSuspend (back (finalSuspend (resume rootAwaits 1) 1 (some ()))) 0 none)).resumed = [0,1,0] := by
  refine ⟨(completionPropagates rootAwaitsReachable).2.2.2.2.2 1,⟨rfl,rfl,rfl,?_,rfl⟩,rfl⟩
  exact .tail (.tail (.tail (.tail .refl ⟨by decide,.finish (c := 1) _ rfl⟩) ⟨by decide,.back rfl⟩)
    ⟨by decide,.finish (c := 0) _ rfl⟩) ⟨by decide,.back rfl⟩

end Calls
end Uco.AwaitChain
