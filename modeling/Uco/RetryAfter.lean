import Uco.MiddlewareChain
import Uco.Bytes

/-! The fixed-window limiter in a chain of handlers. A rejection and every other Abort are
the same HttpException, and the try block of Handle reaches around Next. Handlers may catch
what comes out of their Next. -/
namespace Uco.RetryAfter
open MiddlewareChain (increment)

section Model
variable {S : Type}

inductive Thrown where
  | http
  | other
  deriving DecidableEq, Repr

inductive Exit where
  | returned
  | threw (e : Thrown)
  deriving DecidableEq, Repr

inductive Body (S : Type) where
  | exit (e : Exit)
  | act (effect : S → S) (rest : S → Body S)
  | next (rest : S → Exit → Body S)

/- key_getter, reject_handler and the counter's RetryAfter; what they do to the context and
to the counter is in the state they leave. -/
structure Limiter (S : Type) where
  keyGetter : S → Except Thrown Bytes × S
  rejectHandler : Bytes → S → Except Thrown Bool × S
  retryAfter : S → ℕ

inductive Handler (S : Type) where
  | body (body : Body S)
  | limiter (limiter : Limiter S)

inductive Event where
  | started (i : ℕ)
  | left (i : ℕ) (exit : Exit)
  | passed (i : ℕ)
  | rejected (i : ℕ)
  | retryAfter (i seconds : ℕ)
  deriving DecidableEq, Repr

structure Context (S : Type) where
  curHandleIndex : ℕ
  state : S
  log : List Event

def Context.record (ctx : Context S) (event : Event) : Context S := {ctx with log := ctx.log ++ [event]}

def fresh (state : S) : Context S := ⟨2^64 - 1,state,[]⟩

def setRetryAfter (i : ℕ) (limiter : Limiter S) (ctx : Context S) : Context S :=
  ctx.record (.retryAfter i (limiter.retryAfter ctx.state))

mutual

def next (handles : List (Handler S)) : ℕ → Context S → Option (Exit × Context S)
  | 0, _ => none
  | fuel + 1, ctx => loop handles fuel {ctx with curHandleIndex := increment ctx.curHandleIndex}

def loop (handles : List (Handler S)) : ℕ → Context S → Option (Exit × Context S)
  | 0, _ => none
  | fuel + 1, ctx =>
    let i := ctx.curHandleIndex
    match handles[i]? with
    | none => some (.returned,ctx)
    | some handler =>
      (runHandler handles fuel i handler (ctx.record (.started i))).bind fun (exit,after) =>
        let after := after.record (.left i exit)
        if exit = .returned then loop handles fuel {after with curHandleIndex := increment after.curHandleIndex}
        else some (exit,after)

def runHandler (handles : List (Handler S)) : ℕ → ℕ → Handler S → Context S → Option (Exit × Context S)
  | 0, _, _, _ => none
  | fuel + 1, _, .body body, ctx => runBody handles fuel body ctx
  | fuel + 1, i, .limiter limiter, ctx => handle handles fuel i limiter ctx

def runBody (handles : List (Handler S)) : ℕ → Body S → Context S → Option (Exit × Context S)
  | 0, _, _ => none
  | _ + 1, .exit e, ctx => some (e,ctx)
  | fuel + 1, .act effect rest, ctx =>
    runBody handles fuel (rest (effect ctx.state)) {ctx with state := effect ctx.state}
  | fuel + 1, .next rest, ctx =>
    (next handles fuel ctx).bind fun (exit,after) => runBody handles fuel (rest after.state exit) after

def handle (handles : List (Handler S)) : ℕ → ℕ → Limiter S → Context S → Option (Exit × Context S)
  | 0, _, _, _ => none
  | fuel + 1, i, limiter, ctx =>
    match limiter.keyGetter ctx.state with
    | (.error e,state) => some (.threw e,{ctx with state := state})
    | (.ok key,state) =>
      match limiter.rejectHandler key state with
      | (.ok false,state) =>
        (next handles fuel ({ctx with state := state}.record (.passed i))).map fun (exit,after) =>
          if exit = .threw .http then (exit,setRetryAfter i limiter after) else (exit,after)
      | (.ok true,state) =>
        some (.threw .http,setRetryAfter i limiter ({ctx with state := state}.record (.rejected i)))
      | (.error .http,state) =>
        some (.threw .http,setRetryAfter i limiter ({ctx with state := state}.record (.rejected i)))
      | (.error .other,state) => some (.threw .other,{ctx with state := state})

end

end Model

section Contract
variable {S : Type} (handles : List (Handler S)) (i : ℕ) (limiter : Limiter S) (ctx : Context S)

def Rejects : Prop :=
  ∃ key state, limiter.keyGetter ctx.state = (.ok key,state) ∧
    ((limiter.rejectHandler key state).1 = .ok true ∨ (limiter.rejectHandler key state).1 = .error .http)

def PassedThenAborted : Prop :=
  ∃ key state passed, limiter.keyGetter ctx.state = (.ok key,state) ∧
    limiter.rejectHandler key state = (.ok false,passed) ∧
    ∃ fuel after, next handles fuel ({ctx with state := passed}.record (.passed i)) = some (.threw .http,after)

def between (before after : Context S) : List Event := after.log.drop before.log.length

def SetsRetryAfter (after : Context S) : Prop :=
  ∃ seconds, (between ctx after).getLast? = some (.retryAfter i seconds)

structure MarksRejections (exit : Exit) (after : Context S) : Prop where
  marked : SetsRetryAfter i ctx after ↔ Rejects limiter ctx
  stopped : Rejects limiter ctx → exit = .threw .http ∧ ∀ j, .started j ∉ between ctx after

def Body.PassesOn : Body S → Prop
  | .exit _ => True
  | .act _ rest => ∀ s, (rest s).PassesOn
  | .next rest => (∀ s e, rest s (.threw e) = .exit (.threw e)) ∧ ∀ s, (rest s .returned).PassesOn

def Handler.PassesOn : Handler S → Prop
  | .body b => b.PassesOn
  | .limiter _ => True

def Ends (exit : Exit) (events : List Event) : Prop :=
  ∀ k, .rejected k ∈ events → exit = .threw .http ∧
    ∃ before behind, events = before ++ .rejected k :: behind ∧ ∀ j, .started j ∉ behind

end Contract

section Fuel
variable {S : Type} {handles : List (Handler S)}

structure Steady (handles : List (Handler S)) (fuel : ℕ) : Prop where
  next : ∀ ctx r, next handles fuel ctx = some r → next handles (fuel + 1) ctx = some r
  loop : ∀ ctx r, loop handles fuel ctx = some r → loop handles (fuel + 1) ctx = some r
  handler : ∀ i h ctx r, runHandler handles fuel i h ctx = some r → runHandler handles (fuel + 1) i h ctx = some r
  body : ∀ b ctx r, runBody handles fuel b ctx = some r → runBody handles (fuel + 1) b ctx = some r
  limiter : ∀ i l ctx r, handle handles fuel i l ctx = some r → handle handles (fuel + 1) i l ctx = some r

theorem steady (fuel : ℕ) : Steady handles fuel := by
  induction fuel with
  | zero => constructor <;> intros <;> simp_all [next, loop, runHandler, runBody, handle]
  | succ fuel ih =>
    constructor
    case next =>
      intro ctx r ran
      rw [next] at ran ⊢
      exact ih.loop _ _ ran
    case loop =>
      intro ctx r ran
      rw [loop] at ran ⊢
      split at ran
      · exact ran
      · obtain ⟨⟨exit,after⟩,handled,rest⟩ := Option.bind_eq_some_iff.mp ran
        rw [ih.handler _ _ _ _ handled, Option.bind_some]
        by_cases returned : exit = .returned
        · simp only [returned, if_true] at rest ⊢
          exact ih.loop _ _ rest
        · simp only [if_neg returned] at rest ⊢
          exact rest
    case handler =>
      intro i h ctx r ran
      cases h with
      | body b =>
        rw [runHandler] at ran ⊢
        exact ih.body _ _ _ ran
      | limiter l =>
        rw [runHandler] at ran ⊢
        exact ih.limiter _ _ _ _ ran
    case body =>
      intro b ctx r ran
      cases b with
      | exit e => exact ran
      | act effect rest =>
        rw [runBody] at ran ⊢
        exact ih.body _ _ _ ran
      | next rest =>
        rw [runBody] at ran ⊢
        obtain ⟨⟨exit,after⟩,called,more⟩ := Option.bind_eq_some_iff.mp ran
        rw [ih.next _ _ called, Option.bind_some]
        exact ih.body _ _ _ more
    case limiter =>
      intro i l ctx r ran
      rw [handle] at ran ⊢
      split
      · rename_i found
        simpa only [found] using ran
      · rename_i found
        simp only [found] at ran
        split
        · rename_i verdict
          simp only [verdict] at ran
          obtain ⟨result,called,rest⟩ := Option.map_eq_some_iff.mp ran
          rw [ih.next _ _ called, Option.map_some]
          exact congrArg some rest
        all_goals
          rename_i verdict
          simpa only [verdict] using ran

theorem nextMore {fuel : ℕ} (more : ℕ) {ctx : Context S} {r : Exit × Context S}
    (ran : next handles fuel ctx = some r) : next handles (fuel + more) ctx = some r := by
  induction more with
  | zero => exact ran
  | succ more ih => exact (steady (fuel + more)).next _ _ ih

theorem nextUnique {m n : ℕ} {ctx : Context S} {a b : Exit × Context S} (first : next handles m ctx = some a)
    (second : next handles n ctx = some b) : a = b := by
  have left := nextMore n first
  have right := nextMore m second
  rw [Nat.add_comm] at right
  exact Option.some.inj (left.symm.trans right)

end Fuel

section Logs
variable {S : Type} {handles : List (Handler S)}

theorem endsNone (exit : Exit) {events : List Event} (none' : ∀ k, .rejected k ∉ events) : Ends exit events :=
  fun k mem => absurd mem (none' k)

theorem endsReturned {events : List Event} (ends : Ends .returned events) (k : ℕ) : .rejected k ∉ events :=
  fun mem => by cases (ends k mem).1

theorem endsAfter {exit : Exit} {front events : List Event} (quiet : ∀ k, .rejected k ∉ front)
    (ends : Ends exit events) : Ends exit (front ++ events) := by
  intro k mem
  rcases List.mem_append.mp mem with mem | mem
  · exact absurd mem (quiet k)
  · obtain ⟨aborted,before,behind,rfl,stopped⟩ := ends k mem
    exact ⟨aborted,front ++ before,behind,by rw [List.append_assoc],stopped⟩

theorem endsBefore {exit : Exit} {events : List Event} {event : Event} (ends : Ends exit events)
    (last : ∀ k, event ≠ .rejected k) (begun : ∀ j, event ≠ .started j) : Ends exit (events ++ [event]) := by
  intro k mem
  rcases List.mem_append.mp mem with mem | mem
  · obtain ⟨aborted,before,behind,rfl,stopped⟩ := ends k mem
    refine ⟨aborted,before,behind ++ [event],by simp,fun j mem => ?_⟩
    rcases List.mem_append.mp mem with mem | mem
    · exact stopped j mem
    · exact begun j (List.mem_singleton.mp mem).symm
  · exact absurd (List.mem_singleton.mp mem).symm (last k)

structure Grown (quiet : Prop) (ctx : Context S) (exit : Exit) (after : Context S) (events : List Event) : Prop where
  log : after.log = ctx.log ++ events
  ends : quiet → Ends exit events

def Closed (events : List Event) : Prop := events = [] ∨ ∃ j e, events.getLast? = some (.left j e)

structure Grows (handles : List (Handler S)) (fuel : ℕ) : Prop where
  next : ∀ ctx exit after, next handles fuel ctx = some (exit,after) →
    ∃ events, Grown (∀ h ∈ handles, h.PassesOn) ctx exit after events ∧ Closed events
  loop : ∀ ctx exit after, loop handles fuel ctx = some (exit,after) →
    ∃ events, Grown (∀ h ∈ handles, h.PassesOn) ctx exit after events ∧ Closed events
  handler : ∀ i h ctx exit after, runHandler handles fuel i h ctx = some (exit,after) →
    ∃ events, Grown ((∀ h ∈ handles, h.PassesOn) ∧ h.PassesOn) ctx exit after events
  body : ∀ b ctx exit after, runBody handles fuel b ctx = some (exit,after) →
    ∃ events, Grown ((∀ h ∈ handles, h.PassesOn) ∧ b.PassesOn) ctx exit after events
  limiter : ∀ i l ctx exit after, handle handles fuel i l ctx = some (exit,after) →
    ∃ events, Grown (∀ h ∈ handles, h.PassesOn) ctx exit after events

theorem closedAfter {front events : List Event} {j : ℕ} {e : Exit} (closed : Closed events) :
    Closed (front ++ Event.left j e :: events) := by
  rcases closed with rfl | ⟨j',e',last⟩
  · exact .inr ⟨j,e,by simp⟩
  · refine .inr ⟨j',e',?_⟩
    rw [List.getLast?_append, List.getLast?_cons, last]
    rfl

theorem loopGrows {fuel : ℕ} (ih : Grows handles fuel) {ctx : Context S} {exit : Exit} {after : Context S}
    (ran : loop handles (fuel + 1) ctx = some (exit,after)) :
    ∃ events, Grown (∀ h ∈ handles, h.PassesOn) ctx exit after events ∧ Closed events := by
  rw [loop] at ran
  split at ran
  · cases ran
    exact ⟨[],⟨by simp,fun _ => endsNone _ (by simp)⟩,.inl rfl⟩
  · rename_i h found
    obtain ⟨⟨out,mid⟩,handled,rest⟩ := Option.bind_eq_some_iff.mp ran
    obtain ⟨events,grown⟩ := ih.handler _ _ _ _ _ handled
    have member := List.mem_of_getElem? found
    have log : mid.log = ctx.log ++ Event.started ctx.curHandleIndex :: events := by
      rw [grown.log, Context.record]
      simp
    by_cases returned : out = .returned
    · simp only [returned, if_true] at rest
      obtain ⟨later,grown',closed⟩ := ih.loop _ _ _ rest
      refine ⟨Event.started ctx.curHandleIndex :: events ++ Event.left ctx.curHandleIndex .returned :: later,⟨?_,?_⟩,
        closedAfter closed⟩
      · rw [grown'.log, Context.record, log]
        simp
      · intro quiet
        have ends := grown.ends ⟨quiet,quiet h member⟩
        rw [returned] at ends
        have front (k : ℕ) :
            Event.rejected k ∉ Event.started ctx.curHandleIndex :: events ++ [Event.left ctx.curHandleIndex .returned] := by
          intro mem
          simp only [List.cons_append, List.mem_cons, List.mem_append, List.not_mem_nil, or_false,
            reduceCtorEq, false_or] at mem
          exact endsReturned ends k mem
        rw [List.append_cons]
        exact endsAfter front (grown'.ends quiet)
    · simp only [if_neg returned] at rest
      cases rest
      refine ⟨Event.started ctx.curHandleIndex :: events ++ [Event.left ctx.curHandleIndex exit],⟨?_,?_⟩,
        closedAfter (.inl rfl)⟩
      · rw [Context.record, log]
        simp
      · intro quiet
        have ends := grown.ends ⟨quiet,quiet h member⟩
        have begun : Ends exit ([.started ctx.curHandleIndex] ++ events) := endsAfter (by simp) ends
        exact endsBefore begun (by simp) (by simp)

theorem bodyGrows {fuel : ℕ} (ih : Grows handles fuel) {b : Body S} {ctx : Context S} {exit : Exit}
    {after : Context S} (ran : runBody handles (fuel + 1) b ctx = some (exit,after)) :
    ∃ events, Grown ((∀ h ∈ handles, h.PassesOn) ∧ b.PassesOn) ctx exit after events := by
  cases b with
  | exit e =>
    rw [runBody] at ran
    cases ran
    exact ⟨[],by simp,fun _ => endsNone _ (by simp)⟩
  | act effect rest =>
    rw [runBody] at ran
    obtain ⟨events,grown⟩ := ih.body _ _ _ _ ran
    exact ⟨events,grown.log,fun quiet => grown.ends ⟨quiet.1,quiet.2 _⟩⟩
  | next rest =>
    rw [runBody] at ran
    obtain ⟨⟨out,mid⟩,called,more⟩ := Option.bind_eq_some_iff.mp ran
    obtain ⟨events,grown,-⟩ := ih.next _ _ _ called
    obtain ⟨later,grown'⟩ := ih.body _ _ _ _ more
    refine ⟨events ++ later,by rw [grown'.log, grown.log, List.append_assoc],fun quiet => ?_⟩
    have ends := grown.ends quiet.1
    cases out with
    | returned => exact endsAfter (endsReturned ends) (grown'.ends ⟨quiet.1,quiet.2.2 _⟩)
    | threw e =>
      -- the exception leaves the handler at once
      cases fuel with
      | zero => cases more
      | succ fuel =>
        simp only [quiet.2.1, runBody, Option.some.injEq, Prod.mk.injEq] at more
        obtain ⟨rfl,rfl⟩ := more
        have none' : later = [] := by simpa using grown'.log
        rw [none', List.append_nil]
        exact ends

theorem handleCases {fuel : ℕ} {i : ℕ} {l : Limiter S} {ctx : Context S} {exit : Exit} {after : Context S}
    (ran : handle handles (fuel + 1) i l ctx = some (exit,after)) :
    (¬Rejects l ctx ∧ (∀ key state passed, l.keyGetter ctx.state = (.ok key,state) →
      l.rejectHandler key state ≠ (.ok false,passed)) ∧ after.log = ctx.log) ∨
    (Rejects l ctx ∧ exit = .threw .http ∧
      ∃ state, after = setRetryAfter i l ({ctx with state := state}.record (.rejected i))) ∨
    (¬Rejects l ctx ∧ ∃ key state passed mid, l.keyGetter ctx.state = (.ok key,state) ∧
      l.rejectHandler key state = (.ok false,passed) ∧
      next handles fuel ({ctx with state := passed}.record (.passed i)) = some (exit,mid) ∧
      after = if exit = .threw .http then setRetryAfter i l mid else mid) := by
  rw [handle] at ran
  split at ran
  · rename_i e state key
    cases ran
    refine .inl ⟨?_,?_,rfl⟩
    · rintro ⟨k,s,got,-⟩
      simp [key] at got
    · intro k s passed got
      simp [key] at got
  · rename_i k state key
    split at ran
    · rename_i passed verdict
      obtain ⟨⟨out,mid⟩,called,rest⟩ := Option.map_eq_some_iff.mp ran
      refine .inr (.inr ⟨?_,k,state,passed,mid,key,verdict,?_,?_⟩)
      · rintro ⟨k',s',got,rejected⟩
        obtain ⟨rfl,rfl⟩ : k = k' ∧ state = s' := by simpa [key] using got
        simp [verdict] at rejected
      · by_cases aborted : out = .threw .http <;> simp_all
      · by_cases aborted : out = .threw .http <;> simp_all
    · rename_i rejected verdict
      cases ran
      exact .inr (.inl ⟨⟨k,state,key,.inl (by rw [verdict])⟩,rfl,rejected,rfl⟩)
    · rename_i rejected verdict
      cases ran
      exact .inr (.inl ⟨⟨k,state,key,.inr (by rw [verdict])⟩,rfl,rejected,rfl⟩)
    · rename_i left verdict
      cases ran
      refine .inl ⟨?_,?_,rfl⟩
      · rintro ⟨k',s',got,rejected⟩
        obtain ⟨rfl,rfl⟩ : k = k' ∧ state = s' := by simpa [key] using got
        simp [verdict] at rejected
      · intro k' s' passed got
        obtain ⟨rfl,rfl⟩ : k = k' ∧ state = s' := by simpa [key] using got
        simp [verdict]

theorem limiterGrows {fuel : ℕ} (ih : Grows handles fuel) {i : ℕ} {l : Limiter S} {ctx : Context S} {exit : Exit}
    {after : Context S} (ran : handle handles (fuel + 1) i l ctx = some (exit,after)) :
    ∃ events, Grown (∀ h ∈ handles, h.PassesOn) ctx exit after events := by
  rcases handleCases ran with ⟨-,-,log⟩ | ⟨-,rfl,state,rfl⟩ | ⟨-,-,-,passed,mid,-,-,called,rest⟩
  · exact ⟨[],by simpa using log,fun _ => endsNone _ (by simp)⟩
  · refine ⟨[.rejected i,.retryAfter i (l.retryAfter state)],by simp [setRetryAfter, Context.record],
      fun _ k mem => ?_⟩
    obtain rfl : k = i := by simpa using mem
    exact ⟨rfl,[],_,rfl,by simp⟩
  · obtain ⟨events,grown,-⟩ := ih.next _ _ _ called
    have log : mid.log = ctx.log ++ ([.passed i] ++ events) := by
      rw [grown.log, Context.record, List.append_assoc]
    have ends (quiet : ∀ h ∈ handles, h.PassesOn) : Ends exit ([.passed i] ++ events) :=
      endsAfter (by simp) (grown.ends quiet)
    by_cases aborted : exit = .threw .http
    · rw [if_pos aborted] at rest
      refine ⟨[Event.passed i] ++ events ++ [Event.retryAfter i (l.retryAfter mid.state)],?_,fun quiet => ?_⟩
      · rw [rest, setRetryAfter, Context.record, log, List.append_assoc]
      · exact endsBefore (ends quiet) (by simp) (by simp)
    · rw [if_neg aborted] at rest
      exact ⟨[.passed i] ++ events,by rw [rest, log],ends⟩

theorem grows (fuel : ℕ) : Grows handles fuel := by
  induction fuel with
  | zero => constructor <;> intros <;> simp_all [next, loop, runHandler, runBody, handle]
  | succ fuel ih =>
    constructor
    case next =>
      intro ctx exit after ran
      rw [next] at ran
      obtain ⟨events,grown,closed⟩ := ih.loop _ _ _ ran
      exact ⟨events,⟨grown.log,grown.ends⟩,closed⟩
    case loop => exact fun _ _ _ => loopGrows ih
    case handler =>
      intro i h ctx exit after ran
      cases h with
      | body b =>
        rw [runHandler] at ran
        exact ih.body _ _ _ _ ran
      | limiter l =>
        rw [runHandler] at ran
        obtain ⟨events,grown⟩ := ih.limiter _ _ _ _ _ ran
        exact ⟨events,grown.log,fun quiet => grown.ends quiet.1⟩
    case body => exact fun _ _ _ _ => bodyGrows ih
    case limiter => exact fun _ _ _ _ _ => limiterGrows ih

end Logs

section Rejections
variable {S : Type} {handles : List (Handler S)}

theorem betweenOf {ctx after : Context S} {events : List Event} (log : after.log = ctx.log ++ events) :
    between ctx after = events := by
  rw [between, log, List.drop_left]

theorem closedNotSet {i j s : ℕ} {events : List Event} (closed : Closed events) :
    ([Event.passed i] ++ events).getLast? ≠ some (.retryAfter j s) := by
  rcases closed with rfl | ⟨k,e,last⟩
  · simp
  · simp [List.getLast?_cons, last]

theorem rejectsNotPassed {i : ℕ} {l : Limiter S} {ctx : Context S} (rejects : Rejects l ctx) :
    ¬PassedThenAborted handles i l ctx := by
  rintro ⟨key,state,passed,got,verdict,-⟩
  obtain ⟨k,s,got',rejected⟩ := rejects
  obtain ⟨rfl,rfl⟩ : key = k ∧ state = s := by simpa [got] using got'
  simp [verdict] at rejected

theorem marksIff {fuel i : ℕ} {l : Limiter S} {ctx : Context S} {exit : Exit} {after : Context S}
    (ran : handle handles fuel i l ctx = some (exit,after)) :
    MarksRejections i l ctx exit after ↔ ¬PassedThenAborted handles i l ctx := by
  cases fuel with
  | zero => cases ran
  | succ fuel =>
    rcases handleCases ran with ⟨unruled,notPassed,log⟩ | ⟨rejects,rfl,state,rfl⟩ |
      ⟨unruled,key,state,passed,mid,got,verdict,called,rest⟩
    · refine iff_of_true ⟨iff_of_false ?_ unruled,fun rejects => absurd rejects unruled⟩ ?_
      · rintro ⟨seconds,last⟩
        rw [betweenOf (log.trans (List.append_nil _).symm)] at last
        cases last
      · rintro ⟨key,state,passed,got,verdict,-⟩
        exact notPassed key state passed got verdict
    · have events : between ctx (setRetryAfter i l ({ctx with state := state}.record (.rejected i))) =
          [.rejected i,.retryAfter i (l.retryAfter state)] :=
        betweenOf (by simp [setRetryAfter, Context.record])
      have set : SetsRetryAfter i ctx (setRetryAfter i l ({ctx with state := state}.record (.rejected i))) :=
        ⟨l.retryAfter state,by rw [events]; rfl⟩
      refine iff_of_true ⟨iff_of_true set rejects,fun _ => ⟨rfl,?_⟩⟩ (rejectsNotPassed rejects)
      rw [events]
      simp
    · obtain ⟨events,grown,closed⟩ := (grows fuel).next _ _ _ called
      have log : mid.log = ctx.log ++ ([.passed i] ++ events) := by
        rw [grown.log, Context.record, List.append_assoc]
      by_cases aborted : exit = .threw .http
      · refine iff_of_false (fun marks => unruled (marks.marked.mp ?_)) (not_not_intro ?_)
        · rw [if_pos aborted] at rest
          have marked : after.log = ctx.log ++ ([Event.passed i] ++ events ++ [Event.retryAfter i (l.retryAfter mid.state)]) := by
            rw [rest, setRetryAfter, Context.record, log, List.append_assoc]
          refine ⟨l.retryAfter mid.state,?_⟩
          rw [betweenOf marked]
          exact List.getLast?_concat
        · rw [aborted] at called
          exact ⟨key,state,passed,got,verdict,fuel,mid,called⟩
      · rw [if_neg aborted] at rest
        refine iff_of_true ⟨iff_of_false ?_ unruled,fun rejects => absurd rejects unruled⟩ ?_
        · rintro ⟨seconds,last⟩
          rw [rest, betweenOf log] at last
          exact closedNotSet closed last
        · rintro ⟨key',state',passed',got',verdict',more,mid',called'⟩
          obtain ⟨rfl,rfl⟩ : key = key' ∧ state = state' := by simpa [got] using got'
          obtain rfl : passed = passed' := by simpa [verdict] using verdict'
          exact aborted (congrArg Prod.fst (nextUnique called called'))

theorem rejectReturns {i : ℕ} {l : Limiter S} {ctx : Context S} (rejects : Rejects l ctx) (fuel : ℕ) :
    ∃ after, handle handles (fuel + 1) i l ctx = some (.threw .http,after) := by
  obtain ⟨key,state,got,rejected⟩ := rejects
  rw [handle, got]
  rcases verdict : l.rejectHandler key state with ⟨v,after⟩
  rw [verdict] at rejected
  rcases rejected with rfl | rfl
  · simp only [verdict]
    exact ⟨_,rfl⟩
  · simp only [verdict]
    exact ⟨_,rfl⟩

theorem rejectionEnds (quiet : ∀ h ∈ handles, h.PassesOn) {fuel : ℕ} {s : S} {exit : Exit} {after : Context S}
    (ran : next handles fuel (fresh s) = some (exit,after)) : Ends exit after.log := by
  obtain ⟨events,grown,-⟩ := (grows fuel).next _ _ _ ran
  rw [grown.log]
  exact endsAfter (by simp [fresh]) (grown.ends quiet)

/- The header goes with a rejection unless a request that was let through is aborted behind the limiter. -/
theorem retryAfterIff (handles : List (Handler S)) :
    (∀ i l ctx fuel exit after, runHandler handles fuel i (.limiter l) ctx = some (exit,after) →
      (MarksRejections i l ctx exit after ↔ ¬PassedThenAborted handles i l ctx)) ∧
    (∀ i l ctx, Rejects l ctx → ∃ after, runHandler handles 2 i (.limiter l) ctx = some (.threw .http,after)) ∧
    ((∀ h ∈ handles, h.PassesOn) → ∀ fuel s exit after, next handles fuel (fresh s) = some (exit,after) →
      Ends exit after.log) := by
  refine ⟨fun i l ctx fuel exit after ran => ?_,fun i l ctx rejects => ?_,fun quiet _ _ _ _ => rejectionEnds quiet⟩
  · cases fuel with
    | zero => cases ran
    | succ fuel => exact marksIff ran
  · exact rejectReturns rejects 0

end Rejections

section Chains

def oncePerMinute : Limiter ℕ where
  keyGetter requests := (.ok [49],requests)
  rejectHandler _ requests := (.ok (decide (1 ≤ requests)),requests + 1)
  retryAfter _ := 60

def abortsBehind : List (Handler ℕ) := [.limiter oncePerMinute,.body (.exit (.threw .http))]

theorem secondRejected :
    MarksRejections 0 oncePerMinute ⟨0,1,[]⟩ (.threw .http) ⟨0,2,[.rejected 0,.retryAfter 0 60]⟩ := by
  have passes : ¬PassedThenAborted abortsBehind 0 oncePerMinute ⟨0,1,[]⟩ := by
    rintro ⟨key,state,passed,got,verdict,-⟩
    cases got
    cases verdict
  exact ((retryAfterIff abortsBehind).1 0 oncePerMinute ⟨0,1,[]⟩ 2 _ _ rfl).mpr passes

/- The first one is let through and aborted by the handler behind: the header is set all the same. -/
theorem firstMarked : ∃ after,
    runHandler abortsBehind 6 0 (.limiter oncePerMinute) ⟨0,0,[]⟩ = some (.threw .http,after) ∧
    ¬Rejects oncePerMinute ⟨0,0,[]⟩ ∧ SetsRetryAfter 0 ⟨0,0,[]⟩ after ∧
    ¬MarksRejections 0 oncePerMinute ⟨0,0,[]⟩ (.threw .http) after := by
  have unruled : ¬Rejects oncePerMinute ⟨0,0,[]⟩ := by
    rintro ⟨key,state,got,rejected⟩
    cases got
    rcases rejected with rejected | rejected <;> cases rejected
  have set : SetsRetryAfter 0 ⟨0,0,([] : List Event)⟩
      (⟨1,1,[.passed 0,.started 1,.left 1 (.threw .http),.retryAfter 0 60]⟩ : Context ℕ) := ⟨60,rfl⟩
  exact ⟨_,rfl,unruled,set,fun marks => unruled (marks.marked.mp set)⟩

end Chains
end Uco.RetryAfter
