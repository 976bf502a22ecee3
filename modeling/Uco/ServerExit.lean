import Uco.Interleaving

/-! Exit of the HTTP server: the accept loops of its instances, their client coroutines and the
watchers that cut the clients off. The coroutines of an instance share one thread and hold its mutex
across no suspension, so what one of them does between two suspensions is one step. Descriptors are
numbered for the whole process, and the number of a closed one is given out again. -/
namespace Uco.ServerExit
open Interleaving

section Model

inductive Accepted where
  | connection (fd : ℕ)
  | canceled
  | failed
  | interrupted
  deriving DecidableEq, Repr

/- HttpServerInstance::run: the accept is in the kernel or has completed, a late connection is being
closed, and the wait for the clients. -/
inductive Accepting where
  | submitted
  | completed (result : Accepted)
  | closing (fd : ℕ)
  | closed
  | waiting
  | notified
  | returned
  deriving DecidableEq, Repr

/- HttpServerInstance::peek_exit: the wait for its permit, the cancellation, the end. -/
inductive Watching where
  | waiting
  | cancelling
  | canceled
  | done
  deriving DecidableEq, Repr

inductive Stage where
  | serving
  | closing
  | closed
  deriving DecidableEq, Repr

structure Client where
  fd : ℕ
  stage : Stage
  deriving DecidableEq, Repr

/- For the statements only: `missed` says that the cancellation met an accept that had just been
interrupted, and so was not in the kernel. -/
structure Instance where
  running : Bool
  clientRoutineCount : ℤ
  clientFds : Finset ℕ
  accepting : Accepting
  watching : Watching
  clients : List Client
  missed : Bool
  deriving DecidableEq

def Instance.start : Instance := ⟨true,0,∅,.submitted,.waiting,[],false⟩

def Instance.serve (i : Instance) (fd : ℕ) : Instance :=
  { i with
    clientRoutineCount := i.clientRoutineCount + 1
    clientFds := insert fd i.clientFds
    clients := i.clients ++ [⟨fd,.serving⟩] }

def Instance.awaitClients (i : Instance) : Instance :=
  { i with accepting := if i.clientRoutineCount = 0 then .returned else .waiting }

def Instance.accepted (i : Instance) (result : Accepted) : Instance :=
  match result with
  | .interrupted => { i with accepting := .submitted }
  | .connection fd =>
    if i.running then { i.serve fd with accepting := .submitted } else { i with accepting := .closing fd }
  | .canceled | .failed => if i.running then { i with accepting := .submitted } else i.awaitClients

def Instance.cancelAccept (i : Instance) : Instance :=
  { i with
    watching := .canceled
    accepting := if i.accepting = .submitted then .completed .canceled else i.accepting
    missed := i.missed || i.accepting = .completed .interrupted }

def Instance.clientDone (i : Instance) (others : List Client) : Instance :=
  { i with
    clientRoutineCount := i.clientRoutineCount - 1
    accepting := if i.clientRoutineCount - 1 = 0 ∧ i.accepting = .waiting then .notified else i.accepting
    clients := others }

/- What the instances share: the calls of exit_sema.signal that are still to come once a signal was
caught, the permits, and the sockets of connections, open and shut down. -/
structure Server where
  toSignal : Option ℕ
  exitPermits : ℕ
  sockets : Finset ℕ
  shut : Finset ℕ
  deriving DecidableEq

def Server.start : Server := ⟨none,0,∅,∅⟩

def Server.close (g : Server) (fd : ℕ) : Server := { g with sockets := g.sockets.erase fd, shut := g.shut.erase fd }

inductive Solo (numThreads : ℕ) : Server → Server → Prop where
  | caught {g} (unread : g.toSignal = none) : Solo numThreads g { g with toSignal := some numThreads }
  | signals {g k} (left : g.toSignal = some (k + 1)) :
      Solo numThreads g { g with toSignal := some k, exitPermits := g.exitPermits + 1 }

inductive Move : Server → Instance → Server → Instance → Prop where
  | connects {g i} (fd : ℕ) (submitted : i.accepting = .submitted) (free : fd ∉ g.sockets) :
      Move g i { g with sockets := insert fd g.sockets } { i with accepting := .completed (.connection fd) }
  | fails {g i} (result : Accepted) (submitted : i.accepting = .submitted)
      (noConnection : result = .failed ∨ result = .interrupted) : Move g i g { i with accepting := .completed result }
  | accepts {g i result} (completed : i.accepting = .completed result) : Move g i g (i.accepted result)
  | closesLate {g i fd} (closing : i.accepting = .closing fd) : Move g i (g.close fd) { i with accepting := .closed }
  | breaks {g i} (closed : i.accepting = .closed) : Move g i g i.awaitClients
  | rechecks {g i} (notified : i.accepting = .notified) : Move g i g i.awaitClients
  | exits {g i k} (waiting : i.watching = .waiting) (permit : g.exitPermits = k + 1) :
      Move g i { g with exitPermits := k } { i with running := false, watching := .cancelling }
  | cancels {g i} (cancelling : i.watching = .cancelling) : Move g i g i.cancelAccept
  | shutsDown {g i} (canceled : i.watching = .canceled) :
      Move g i { g with shut := g.shut ∪ (i.clientFds ∩ g.sockets) } { i with watching := .done }
  | leaves {g i before fd after} (here : i.clients = before ++ ⟨fd,.serving⟩ :: after) :
      Move g i g { i with clientFds := i.clientFds.erase fd, clients := before ++ ⟨fd,.closing⟩ :: after }
  | closes {g i before fd after} (here : i.clients = before ++ ⟨fd,.closing⟩ :: after) :
      Move g i (g.close fd) { i with clients := before ++ ⟨fd,.closed⟩ :: after }
  | ends {g i before fd after} (here : i.clients = before ++ ⟨fd,.closed⟩ :: after) :
      Move g i g (i.clientDone (before ++ after))

variable (T : Type*) [Fintype T]

def system : System Server Instance := ⟨Solo (Fintype.card T),Move⟩

abbrev State := Config Server Instance T

def start : State T := ⟨.start,fun _ => .start⟩

end Model

section Sockets

def acceptedFds : Accepting → List ℕ
  | .completed (.connection fd) => [fd]
  | .closing fd => [fd]
  | _ => []

def Client.open? (client : Client) : Option ℕ := if client.stage = .closed then none else some client.fd

def held (i : Instance) : List ℕ := acceptedFds i.accepting ++ i.clients.filterMap Client.open?

def copies (fds : Finset ℕ) (fd : ℕ) : ℕ := if fd ∈ fds then 1 else 0

theorem copiesInsert (fds : Finset ℕ) {fd : ℕ} (free : fd ∉ fds) (other : ℕ) :
    copies (insert fd fds) other = copies fds other + [fd].count other := by
  unfold copies
  by_cases same : other = fd
  · subst same
    simp [free]
  · simp [same, Ne.symm same]

theorem copiesErase (fds : Finset ℕ) {fd : ℕ} (inside : fd ∈ fds) (other : ℕ) :
    copies (fds.erase fd) other + [fd].count other = copies fds other := by
  unfold copies
  by_cases same : other = fd
  · subst same
    simp [inside]
  · simp [same, Ne.symm same]

theorem heldMoves {g g' : Server} {i i' : Instance} (taken : Move g i g' i') (opened : ∀ fd ∈ held i, fd ∈ g.sockets)
    (fd : ℕ) : (held i').count fd + copies g.sockets fd = (held i).count fd + copies g'.sockets fd := by
  cases taken with
  | connects new submitted free =>
    have more := copiesInsert g.sockets free fd
    simp only [held, acceptedFds, submitted, List.nil_append, List.cons_append, List.count_cons, List.count_nil] at more ⊢
    omega
  | fails result submitted noConnection =>
    rcases noConnection with rfl | rfl <;> simp [held, acceptedFds, submitted]
  | accepts completed =>
    rename_i result
    cases result with
    | connection new =>
      simp only [Instance.accepted]
      split
      · simp only [held, acceptedFds, completed, Instance.serve, Client.open?, List.nil_append, List.cons_append,
          List.filterMap_append, List.filterMap_cons, List.filterMap_nil, reduceCtorEq, if_false, List.count_append,
          List.count_cons, List.count_nil]
        omega
      · simp [held, acceptedFds, completed]
    | interrupted => simp [held, acceptedFds, completed, Instance.accepted]
    | _ =>
      simp only [Instance.accepted]
      split
      · simp [held, acceptedFds, completed]
      · simp only [Instance.awaitClients, held, completed]
        split <;> rfl
  | closesLate closing =>
    rename_i old
    have less := copiesErase g.sockets (opened old (by simp [held, closing, acceptedFds])) fd
    simp only [held, acceptedFds, closing, Server.close, List.nil_append, List.cons_append, List.count_cons,
      List.count_nil] at less ⊢
    omega
  | breaks closed =>
    simp only [Instance.awaitClients, held, closed]
    split <;> rfl
  | rechecks notified =>
    simp only [Instance.awaitClients, held, notified]
    split <;> rfl
  | exits => rfl
  | cancels =>
    simp only [Instance.cancelAccept, held]
    split
    · rename_i submitted
      simp [submitted, acceptedFds]
    · rfl
  | shutsDown => rfl
  | leaves here => simp [held, here, Client.open?]
  | closes here =>
    rename_i before old after
    have less := copiesErase g.sockets (opened old (by simp [held, here, Client.open?])) fd
    simp only [held, here, Server.close, List.filterMap_append, List.filterMap_cons, Client.open?, reduceCtorEq,
      if_false, if_true, List.count_append, List.count_cons, List.count_nil] at less ⊢
    omega
  | ends here =>
    simp only [Instance.clientDone, held, here, List.filterMap_append, List.filterMap_cons, Client.open?, if_true]
    split
    · rename_i both
      simp [both.2, acceptedFds]
    · rfl

end Sockets

section Own

def waitsForPermit (i : Instance) : ℕ := if i.watching = .waiting then 1 else 0

def BehindLoop : Accepting → Prop
  | .submitted | .completed _ => False
  | _ => True

structure Own (i : Instance) : Prop where
  counted : i.clientRoutineCount = i.clients.length
  listed : ∀ fd, fd ∈ i.clientFds ↔ ⟨fd,.serving⟩ ∈ i.clients
  stopped : i.running = false ↔ i.watching ≠ .waiting
  behind : BehindLoop i.accepting → i.running = false
  waits : i.accepting = .waiting → i.clients ≠ []
  left : i.accepting = .returned → i.clients = []
  canceled : i.watching = .canceled ∨ i.watching = .done →
    i.accepting = .submitted ∨ i.accepting = .completed .interrupted → i.missed = true

theorem ownStart : Own .start := by
  refine ⟨rfl,?_,?_,?_,?_,?_,?_⟩ <;> simp [Instance.start, BehindLoop]

theorem servingHeld {fd : ℕ} {clients : List Client} (serving : ⟨fd,.serving⟩ ∈ clients) :
    fd ∈ clients.filterMap Client.open? :=
  List.mem_filterMap.mpr ⟨_,serving,rfl⟩

theorem servedOnce {before after : List Client} {fd : ℕ} {stage : Stage} (isOpen : stage ≠ .closed)
    (once : ((before ++ ⟨fd,stage⟩ :: after).filterMap Client.open?).count fd ≤ 1) (other : Client)
    (inside : other ∈ before ∨ other ∈ after) : other ≠ ⟨fd,.serving⟩ := by
  rintro rfl
  simp only [List.filterMap_append, List.filterMap_cons, Client.open?, isOpen, if_false, List.count_append,
    List.count_cons_self] at once
  rcases inside with first | last
  · have := List.count_pos_iff.mpr (servingHeld first)
    omega
  · have := List.count_pos_iff.mpr (servingHeld last)
    omega

theorem ownAwait {i : Instance} (own : Own i) (stopped : i.running = false) : Own i.awaitClients := by
  have nobody : i.clientRoutineCount = 0 ↔ i.clients = [] := by
    rw [own.counted, Int.natCast_eq_zero, List.length_eq_zero_iff]
  refine ⟨own.counted,own.listed,own.stopped,fun _ => stopped,?_,?_,?_⟩
  · simp only [Instance.awaitClients]
    split
    · simp
    · rename_i some
      exact fun _ => nobody.not.mp some
  · simp only [Instance.awaitClients]
    split
    · rename_i none
      exact fun _ => nobody.mp none
    · simp
  · simp only [Instance.awaitClients]
    split <;> simp

theorem ownAccepted {i : Instance} {result : Accepted} (own : Own i) (completed : i.accepting = .completed result) :
    Own (i.accepted result) := by
  -- a loop that goes on is not behind it, and a cancellation has been missed by then
  have goesOn (missed : i.watching = .canceled ∨ i.watching = .done → i.missed = true) :
      Own { i with accepting := .submitted } :=
    ⟨own.counted,own.listed,own.stopped,by simp [BehindLoop],by simp,by simp,fun canceled _ => missed canceled⟩
  have running (on : i.running = true) (canceled : i.watching = .canceled ∨ i.watching = .done) : i.missed = true := by
    have waiting : i.watching = .waiting := by
      by_contra other
      simp [own.stopped.mpr other] at on
    rcases canceled with same | same <;> simp [waiting] at same
  cases result with
  | connection fd =>
    simp only [Instance.accepted]
    split
    · rename_i on
      refine ⟨?_,?_,own.stopped,by simp [BehindLoop],by simp,by simp,fun canceled _ => running on canceled⟩
      · simp [Instance.serve, own.counted]
      · intro other
        simp [Instance.serve, own.listed, or_comm]
    · rename_i off
      refine ⟨own.counted,own.listed,own.stopped,fun _ => by simpa using off,by simp,by simp,by simp⟩
  | interrupted => exact goesOn fun canceled => own.canceled canceled (.inr completed)
  | _ =>
    simp only [Instance.accepted]
    split
    · rename_i on
      exact goesOn (running on)
    · rename_i off
      exact ownAwait own (by simpa using off)

theorem ownDone {i : Instance} {before after : List Client} {fd : ℕ} (own : Own i)
    (here : i.clients = before ++ ⟨fd,.closed⟩ :: after) : Own (i.clientDone (before ++ after)) := by
  have fewer : i.clientRoutineCount - 1 = (before ++ after).length := by
    rw [own.counted, here]
    simp only [List.length_append, List.length_cons]
    omega
  have some : i.clients ≠ [] := by simp [here]
  refine ⟨fewer,?_,own.stopped,?_,?_,?_,?_⟩
  · intro other
    simp [Instance.clientDone, own.listed, here]
  · simp only [Instance.clientDone]
    split
    · rename_i both
      exact fun _ => own.behind (by rw [both.2]; trivial)
    · exact own.behind
  · simp only [Instance.clientDone]
    split
    · simp
    · rename_i more
      intro waiting
      rw [not_and] at more
      rw [fewer, Int.natCast_eq_zero, List.length_eq_zero_iff] at more
      exact fun none => more none waiting
  · simp only [Instance.clientDone]
    split
    · simp
    · exact fun returned => absurd (own.left returned) some
  · simp only [Instance.clientDone]
    split
    · simp
    · exact own.canceled

theorem ownMoves {g g' : Server} {i i' : Instance} (own : Own i) (once : ∀ fd, (held i).count fd ≤ 1)
    (taken : Move g i g' i') : Own i' := by
  cases taken with
  | connects new submitted free =>
    exact ⟨own.counted,own.listed,own.stopped,by simp [BehindLoop],by simp,by simp,by simp⟩
  | fails result submitted noConnection =>
    exact ⟨own.counted,own.listed,own.stopped,by simp [BehindLoop],by simp,by simp,
      fun canceled _ => own.canceled canceled (.inl submitted)⟩
  | accepts completed => exact ownAccepted own completed
  | closesLate closing =>
    have stopped := own.behind (by rw [closing]; trivial)
    exact ⟨own.counted,own.listed,own.stopped,fun _ => stopped,by simp,by simp,by simp⟩
  | breaks closed => exact ownAwait own (own.behind (by rw [closed]; trivial))
  | rechecks notified => exact ownAwait own (own.behind (by rw [notified]; trivial))
  | exits waiting permit =>
    exact ⟨own.counted,own.listed,by simp,fun _ => rfl,own.waits,own.left,by simp⟩
  | cancels cancelling =>
    have stopped := own.stopped.mpr (by simp [cancelling])
    refine ⟨own.counted,own.listed,by simp [Instance.cancelAccept, stopped],fun _ => stopped,?_,?_,?_⟩
    · simp only [Instance.cancelAccept]
      split
      · simp
      · exact own.waits
    · simp only [Instance.cancelAccept]
      split
      · simp
      · exact own.left
    · simp only [Instance.cancelAccept]
      split
      · simp
      · rename_i away
        intro _ which
        simp [which.resolve_left away]
  | shutsDown canceled =>
    refine ⟨own.counted,own.listed,?_,own.behind,own.waits,own.left,fun _ => own.canceled (.inl canceled)⟩
    simp [own.stopped.mpr (by simp [canceled])]
  | leaves here =>
    rename_i before fd after
    have once' : ((before ++ ⟨fd,.serving⟩ :: after).filterMap Client.open?).count fd ≤ 1 := by
      have all := once fd
      rw [held, List.count_append, here] at all
      omega
    have others := servedOnce (by simp) once'
    refine ⟨by simp [own.counted, here],fun other => ?_,own.stopped,own.behind,by simp,fun returned => ?_,own.canceled⟩
    · rw [Finset.mem_erase, own.listed, here]
      simp only [List.mem_append, List.mem_cons, Client.mk.injEq, reduceCtorEq, and_false, false_or]
      constructor
      · rintro ⟨differ,first | ⟨same,_⟩ | last⟩
        · exact .inl first
        · exact absurd same differ
        · exact .inr last
      · intro inside
        refine ⟨?_,inside.imp_right .inr⟩
        rintro rfl
        exact others _ inside rfl
    · exact absurd (own.left returned) (by simp [here])
  | closes here =>
    refine ⟨by simp [own.counted, here],fun other => ?_,own.stopped,own.behind,by simp,fun returned => ?_,own.canceled⟩
    · rw [own.listed, here]
      simp
    · exact absurd (own.left returned) (by simp [here])
  | ends here => exact ownDone own here

end Own

section Cut

theorem shutKept {g g' : Server} {i i' : Instance} (taken : Move g i g' i') {fd : ℕ} (cut : fd ∈ g.shut)
    (foreign : fd ∉ held i) : fd ∈ g'.shut := by
  cases taken with
  | closesLate closing =>
    refine Finset.mem_erase.mpr ⟨?_,cut⟩
    rintro rfl
    exact foreign (by simp [held, closing, acceptedFds])
  | closes here =>
    refine Finset.mem_erase.mpr ⟨?_,cut⟩
    rintro rfl
    exact foreign (by simp [held, here, Client.open?])
  | shutsDown => exact Finset.mem_union_left _ cut
  | _ => exact cut

theorem listedHeld {i : Instance} (own : Own i) {fd : ℕ} (listed : fd ∈ i.clientFds) : fd ∈ held i :=
  List.mem_append_right _ (servingHeld ((own.listed fd).mp listed))

theorem cutMoves {g g' : Server} {i i' : Instance} (own : Own i) (once : ∀ fd, (held i).count fd ≤ 1)
    (opened : ∀ fd ∈ held i, fd ∈ g.sockets) (taken : Move g i g' i')
    (cut : i.watching = .done → i.clientFds ⊆ g.shut) : i'.watching = .done → i'.clientFds ⊆ g'.shut := by
  intro done
  cases taken with
  | accepts completed =>
    rename_i result
    have still : (i.accepted result).watching = i.watching := by
      unfold Instance.accepted
      cases result <;> simp only <;> (try split) <;> rfl
    rw [still] at done
    have off : i.running = false := own.stopped.mpr (by simp [done])
    have same : (i.accepted result).clientFds = i.clientFds := by
      unfold Instance.accepted
      cases result <;> simp [off, Instance.awaitClients]
    rw [same]
    exact cut done
  | closesLate closing =>
    intro fd listed
    refine Finset.mem_erase.mpr ⟨?_,cut done listed⟩
    rintro rfl
    have twice := once fd
    rw [held, closing, List.count_append, acceptedFds, List.count_singleton_self] at twice
    have := List.count_pos_iff.mpr (servingHeld ((own.listed fd).mp listed))
    omega
  | exits => cases done
  | cancels => cases done
  | shutsDown =>
    intro fd listed
    exact Finset.mem_union_right _ (Finset.mem_inter.mpr ⟨listed,opened fd (listedHeld own listed)⟩)
  | leaves => exact (Finset.erase_subset _ _).trans (cut done)
  | closes here =>
    rename_i before old after
    intro fd listed
    refine Finset.mem_erase.mpr ⟨?_,cut done listed⟩
    rintro rfl
    have once' : ((before ++ ⟨fd,.closing⟩ :: after).filterMap Client.open?).count fd ≤ 1 := by
      have all := once fd
      rw [held, List.count_append, here] at all
      omega
    have serving := (own.listed fd).mp listed
    rw [here] at serving
    simp only [List.mem_append, List.mem_cons, Client.mk.injEq, reduceCtorEq, and_false, false_or] at serving
    exact servedOnce (by simp) once' _ serving rfl
  | _ => exact cut done

theorem permitMoves {g g' : Server} {i i' : Instance} (taken : Move g i g' i') :
    waitsForPermit i' + g.exitPermits = waitsForPermit i + g'.exitPermits ∧ g'.toSignal = g.toSignal := by
  cases taken with
  | accepts completed =>
    rename_i result
    refine ⟨congrArg (· + g.exitPermits) ?_,rfl⟩
    unfold waitsForPermit Instance.accepted
    cases result <;> simp only <;> (try split) <;> rfl
  | exits waiting permit =>
    simp only [waitsForPermit, waiting, permit]
    simp
    omega
  | cancels cancelling => simp [waitsForPermit, Instance.cancelAccept, cancelling]
  | shutsDown canceled => simp [waitsForPermit, canceled]
  | _ => exact ⟨rfl,rfl⟩

end Cut

section System
variable {T : Type*} [Fintype T] [DecidableEq T]

structure Inv (c : State T) : Prop where
  owners : ∀ fd, c.total (fun i => (held i).count fd) = copies c.shared.sockets fd
  permits : c.total waitsForPermit = c.shared.exitPermits + c.shared.toSignal.getD (Fintype.card T)
  own : ∀ t, Own (c.locals t)
  cut : ∀ t, (c.locals t).watching = .done → (c.locals t).clientFds ⊆ c.shared.shut

omit [DecidableEq T] in
theorem Inv.once {c : State T} (inv : Inv c) (t : T) (fd : ℕ) : (held (c.locals t)).count fd ≤ 1 := by
  have mine := leTotal c (fun i => (held i).count fd) t
  rw [inv.owners, copies] at mine
  split at mine <;> omega

omit [DecidableEq T] in
theorem Inv.opened {c : State T} (inv : Inv c) (t : T) (fd : ℕ) (mine : fd ∈ held (c.locals t)) :
    fd ∈ c.shared.sockets := by
  have some := leTotal c (fun i => (held i).count fd) t
  have counted := List.count_pos_iff.mpr mine
  rw [inv.owners, copies] at some
  split at some
  · assumption
  · omega

theorem Inv.apart {c : State T} (inv : Inv c) {t u : T} {fd : ℕ} (ht : fd ∈ held (c.locals t))
    (hu : fd ∈ held (c.locals u)) : t = u := by
  refine totalUnique (f := fun i => (held i).count fd) ?_ (List.count_pos_iff.mpr ht) (List.count_pos_iff.mpr hu)
  rw [inv.owners, copies]
  split <;> omega

omit [DecidableEq T] in
theorem invStart : Inv (start T) := by
  refine ⟨fun fd => ?_,?_,fun t => ownStart,fun t done => by cases done⟩
  · rw [totalConst (start T) _ (fun _ => rfl) (by simp [held, acceptedFds])]
    simp [start, Server.start, copies]
  · simp [Config.total, start, waitsForPermit, Instance.start, Server.start]

theorem invStep {c d : State T} (inv : Inv c) (taken : Step (system T) c d) : Inv d := by
  cases taken with
  | solo taken =>
    cases taken with
    | caught unread =>
      have before := inv.permits
      rw [unread] at before
      exact ⟨inv.owners,before,inv.own,inv.cut⟩
    | signals left =>
      refine ⟨inv.owners,?_,inv.own,inv.cut⟩
      have before : c.total waitsForPermit = _ := inv.permits
      rw [left] at before
      simp only [Option.getD_some] at before ⊢
      exact before.trans (by omega)
  | move t taken =>
    rename_i g i
    refine ⟨fun fd => ?_,?_,fun u => ?_,fun u => ?_⟩
    · have moved := heldMoves taken (inv.opened t) fd
      have count := totalSet c (fun i => (held i).count fd) t g i
      have before := inv.owners fd
      simp only [setShared]
      omega
    · obtain ⟨moved,same⟩ := permitMoves taken
      have count := totalSet c waitsForPermit t g i
      have before := inv.permits
      rw [setShared, same]
      omega
    · by_cases mine : u = t
      · subst mine
        rw [setSelf]
        exact ownMoves (inv.own u) (inv.once u) taken
      · rw [setOther c g i mine]
        exact inv.own u
    · by_cases mine : u = t
      · subst mine
        rw [setSelf, setShared]
        exact cutMoves (inv.own u) (inv.once u) (inv.opened u) taken (inv.cut u)
      · rw [setOther c g i mine, setShared]
        intro done fd listed
        refine shutKept taken (inv.cut u done listed) fun foreign => mine ?_
        exact inv.apart (listedHeld (inv.own u) listed) foreign

theorem reachedInv {c : State T} (reached : Reachable (Step (system T)) (start T) c) : Inv c :=
  reachableInvariant Inv invStart (fun _ _ => invStep) reached

/- Something is still to be done: the kernel has a request to carry out, a coroutine can go on, or a
client reads or writes on a socket that was shut down. -/
inductive Owes (g : Server) (i : Instance) : Prop where
  | accepted (result : Accepted) (completed : i.accepting = .completed result)
  | late (fd : ℕ) (closing : i.accepting = .closing fd)
  | closedLate (closed : i.accepting = .closed)
  | notified (notified : i.accepting = .notified)
  | permit (waiting : i.watching = .waiting) (some : 0 < g.exitPermits)
  | cancelling (cancelling : i.watching = .cancelling)
  | canceled (canceled : i.watching = .canceled)
  | leaving (client : Client) (here : client ∈ i.clients) (left : client.stage ≠ .serving)
  | cut (client : Client) (here : client ∈ i.clients) (cut : client.fd ∈ g.shut)

end System

section Example

abbrev Reached (g : Server) (i : Instance) : Prop := Reachable (Step (system Unit)) (start Unit) ⟨g,fun _ => i⟩

theorem Reached.solo {g g' : Server} {i : Instance} (reached : Reached g i) (taken : Solo 1 g g') : Reached g' i :=
  reached.tail (.solo taken)

theorem Reached.move {g g₁ : Server} {i i₁ : Instance} (g' : Server) (i' : Instance) (reached : Reached g i)
    (taken : Move g i g₁ i₁) (becomes : g₁ = g' ∧ i₁ = i') : Reached g' i' := by
  obtain ⟨rfl,rfl⟩ := becomes
  have step := reached.tail (.move () taken)
  have same : (⟨g,fun _ => i⟩ : State Unit).set () g₁ i₁ = ⟨g₁,fun _ => i₁⟩ :=
    congrArg (Config.mk g₁) (Function.update_eq_const_of_subsingleton _ _ _)
  rwa [same] at step

def servedState : State Unit :=
  ⟨⟨some 0,1,{5},∅⟩,fun _ => ⟨true,1,{5},.submitted,.waiting,[⟨5,.serving⟩],false⟩⟩

theorem servedReached : Reachable (Step (system Unit)) (start Unit) servedState := by
  have connected : Reached ⟨none,0,{5},∅⟩ ⟨true,0,∅,.completed (.connection 5),.waiting,[],false⟩ :=
    .move _ _ .refl (.connects 5 rfl (by decide)) (by decide)
  have served : Reached ⟨none,0,{5},∅⟩ ⟨true,1,{5},.submitted,.waiting,[⟨5,.serving⟩],false⟩ :=
    .move _ _ connected (.accepts rfl) (by decide)
  exact Reached.solo (.solo served (.caught rfl)) (.signals rfl)

def exitState : State Unit := ⟨⟨some 0,0,∅,∅⟩,fun _ => ⟨false,0,∅,.returned,.done,[],false⟩⟩

theorem exitReached : Reachable (Step (system Unit)) (start Unit) exitState := by
  have exits : Reached ⟨some 0,0,{5},∅⟩ ⟨false,1,{5},.submitted,.cancelling,[⟨5,.serving⟩],false⟩ :=
    .move _ _ servedReached (.exits rfl rfl) (by decide)
  have cancels : Reached ⟨some 0,0,{5},∅⟩ ⟨false,1,{5},.completed .canceled,.canceled,[⟨5,.serving⟩],false⟩ :=
    .move _ _ exits (.cancels rfl) (by decide)
  have waits : Reached ⟨some 0,0,{5},∅⟩ ⟨false,1,{5},.waiting,.canceled,[⟨5,.serving⟩],false⟩ :=
    .move _ _ cancels (.accepts rfl) (by decide)
  have shut : Reached ⟨some 0,0,{5},{5}⟩ ⟨false,1,{5},.waiting,.done,[⟨5,.serving⟩],false⟩ :=
    .move _ _ waits (.shutsDown rfl) (by decide)
  have leaves : Reached ⟨some 0,0,{5},{5}⟩ ⟨false,1,∅,.waiting,.done,[⟨5,.closing⟩],false⟩ :=
    .move _ _ shut (.leaves (show _ = [] ++ _ :: _ from rfl)) (by decide)
  have closes : Reached ⟨some 0,0,∅,∅⟩ ⟨false,1,∅,.waiting,.done,[⟨5,.closed⟩],false⟩ :=
    .move _ _ leaves (.closes (show _ = [] ++ _ :: _ from rfl)) (by decide)
  have ends : Reached ⟨some 0,0,∅,∅⟩ ⟨false,0,∅,.notified,.done,[],false⟩ :=
    .move _ _ closes (.ends (show _ = [] ++ _ :: _ from rfl)) (by decide)
  exact Reached.move _ _ ends (.rechecks rfl) (by decide)

end Example

section System
variable {T : Type*} [Fintype T] [DecidableEq T]

/- Every open socket is the one of a single connection of a single instance, and the set by which an
instance shuts its clients down names exactly the sockets that it serves. -/
theorem descriptorsOwned {c : State T} (reached : Reachable (Step (system T)) (start T) c) :
    (∀ fd, fd ∈ c.shared.sockets ↔ ∃ t, fd ∈ held (c.locals t)) ∧
    (∀ t, (held (c.locals t)).Nodup ∧ ∀ u fd, fd ∈ held (c.locals t) → fd ∈ held (c.locals u) → t = u) ∧
    ∀ t fd, fd ∈ (c.locals t).clientFds ↔ ⟨fd,.serving⟩ ∈ (c.locals t).clients := by
  have inv := reachedInv reached
  refine ⟨fun fd => ⟨fun isOpen => ?_,fun ⟨t,mine⟩ => inv.opened t fd mine⟩,fun t => ⟨?_,fun u fd => inv.apart⟩,
    fun t => (inv.own t).listed⟩
  · obtain ⟨t,some⟩ := existsOfTotal (c := c) (f := fun i => (held i).count fd) (by
      rw [inv.owners, copies, if_pos isOpen]
      omega)
    exact ⟨t,List.count_pos_iff.mp some⟩
  · exact List.nodup_iff_count_le_one.mpr (inv.once t)

theorem servedOwned :
    (∀ fd, fd ∈ servedState.shared.sockets ↔ ∃ t, fd ∈ held (servedState.locals t)) ∧
    (∀ t, (held (servedState.locals t)).Nodup ∧
      ∀ u fd, fd ∈ held (servedState.locals t) → fd ∈ held (servedState.locals u) → t = u) ∧
    ∀ t fd, fd ∈ (servedState.locals t).clientFds ↔ ⟨fd,.serving⟩ ∈ (servedState.locals t).clients :=
  descriptorsOwned servedReached

/- When run has returned in every instance, no client is left and every connection is closed. -/
theorem runReturnsClean {c : State T} (reached : Reachable (Step (system T)) (start T) c)
    (returned : ∀ t, (c.locals t).accepting = .returned) :
    (∀ t, (c.locals t).running = false ∧ (c.locals t).clients = []) ∧ c.shared.sockets = ∅ := by
  have inv := reachedInv reached
  have nobody (t : T) : (c.locals t).clients = [] := (inv.own t).left (returned t)
  refine ⟨fun t => ⟨(inv.own t).behind (by rw [returned t]; trivial),nobody t⟩,?_⟩
  refine Finset.eq_empty_of_forall_notMem fun fd isOpen => ?_
  obtain ⟨t,some⟩ := existsOfTotal (c := c) (f := fun i => (held i).count fd) (by
    rw [inv.owners, copies, if_pos isOpen]
    omega)
  simp [held, returned t, acceptedFds, nobody t] at some

theorem exitClean :
    (∀ t, (exitState.locals t).running = false ∧ (exitState.locals t).clients = []) ∧ exitState.shared.sockets = ∅ :=
  runReturnsClean exitReached fun _ => rfl

/- After a signal nothing stops short of the end: when no instance has anything left to do, run has
returned in each of them, unless the cancellation of its accept came while it was interrupted. -/
theorem exitCompletes {c : State T} (reached : Reachable (Step (system T)) (start T) c)
    (signalled : c.shared.toSignal = some 0) (settled : ∀ t, ¬ Owes c.shared (c.locals t)) (t : T) :
    (c.locals t).watching = .done ∧ (c.locals t).clients = [] ∧
      ((c.locals t).accepting = .returned ∨ (c.locals t).accepting = .submitted ∧ (c.locals t).missed = true) := by
  have inv := reachedInv reached
  have own := inv.own t
  have done : (c.locals t).watching = .done := by
    cases watching : (c.locals t).watching with
    | waiting =>
      have mine := leTotal c waitsForPermit t
      rw [inv.permits, signalled, waitsForPermit, if_pos watching] at mine
      exact absurd (.permit watching mine) (settled t)
    | cancelling => exact absurd (.cancelling watching) (settled t)
    | canceled => exact absurd (.canceled watching) (settled t)
    | done => rfl
  have nobody : (c.locals t).clients = [] := by
    refine List.eq_nil_iff_forall_not_mem.mpr fun client here => settled t ?_
    by_cases serving : client.stage = .serving
    · refine .cut client here (inv.cut t done ((own.listed client.fd).mpr ?_))
      rw [← serving]
      exact here
    · exact .leaving client here serving
  refine ⟨done,nobody,?_⟩
  cases accepting : (c.locals t).accepting with
  | submitted => exact .inr ⟨rfl,own.canceled (.inr done) (.inl accepting)⟩
  | completed result => exact absurd (.accepted result accepting) (settled t)
  | closing fd => exact absurd (.late fd accepting) (settled t)
  | closed => exact absurd (.closedLate accepting) (settled t)
  | waiting => exact absurd nobody (own.waits accepting)
  | notified => exact absurd (.notified accepting) (settled t)
  | returned => exact .inl rfl

theorem exitSettled (t : Unit) : ¬ Owes exitState.shared (exitState.locals t) := by
  intro owes
  cases owes with
  | permit waiting some => cases waiting
  | leaving client here left => cases here
  | cut client here cut => cases here
  | _ => rename_i same; cases same

theorem exitDone : (exitState.locals ()).watching = .done ∧ (exitState.locals ()).clients = [] ∧
    ((exitState.locals ()).accepting = .returned ∨
      (exitState.locals ()).accepting = .submitted ∧ (exitState.locals ()).missed = true) :=
  exitCompletes exitReached rfl exitSettled ()

end System

end Uco.ServerExit
