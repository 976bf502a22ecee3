import Uco.HttpSession

/-! Requests whose session could not be loaded because Redis failed. The contract
of the store is that such a request never overwrites the session it could not
read; Save tests for it with two flags that a failed load leaves unset. -/
namespace Uco.FailedLoad
open SessionJson HttpSession

inductive Call where
  | set (key value : Bytes)
  | delete (key : Bytes)
  | clear
  | addFlash (value key : Bytes)
  | setMaxAge (seconds : Int)
  | destroy
  | save
  deriving DecidableEq, Repr

structure Report where
  dirty : Bool
  returned : Bool
  deriving DecidableEq, Repr

def Command.Writes (key : Bytes) : Command → Prop
  | .set k _ _ => k = key
  | .del k => k = key
  | _ => False
instance (key : Bytes) (command : Command) : Decidable (Command.Writes key command) := by
  cases command <;> unfold Command.Writes <;> infer_instance

section Run
variable (store : SessionStore) (env : Environment)

def operate (s : Session) : Call → Session
  | .set key value => HttpSession.set s key value
  | .delete key => HttpSession.delete s key
  | .clear => HttpSession.clear s
  | .addFlash value key => HttpSession.addFlash store s value key
  | .setMaxAge seconds => HttpSession.setMaxAge s seconds
  | .destroy => HttpSession.destroy s
  | .save => s

def runCalls : List Call → Session → World → List Report × Session × World
  | [], s, w => ([], s, w)
  | .save :: rest, s, w =>
    let saved := save store env s w
    let after := runCalls rest saved.session saved.world
    (⟨s.written, saved.ok⟩ :: after.1, after.2)
  | call :: rest, s, w => runCalls rest (operate store s call) w

def handler (calls : List Call) (s : Session) (w : World) :
    Option (List Report) × Session × World :=
  let run := runCalls store env calls s w
  (some run.1, run.2)

def Guards (key : Bytes) (handled : Handled (List Report)) : Prop :=
  (∀ command ∈ handled.world.sent, ¬ Command.Writes key command) ∧
  (∀ report ∈ handled.answer.getD [], report.dirty = true → report.returned = false) ∧
  handled.autoSaved ≠ some true

def SavesRefused : List Call → Session → World → Prop
  | [], s, w => store.autoSave = true → s.written = true → env.exchange w.turn = none
  | .save :: rest, s, w => (s.written = true → env.exchange w.turn = none) ∧
      SavesRefused rest (save store env s w).session (save store env s w).world
  | call :: rest, s, w => SavesRefused rest (operate store s call) w

structure Degraded (id : Bytes) (s : Session) : Prop where
  named : s.sID = id
  isNew : s.isNew = true

theorem operateDegraded {id : Bytes} {s : Session} (degraded : Degraded id s) (call : Call) :
    Degraded id (operate store s call) := by
  obtain ⟨named, isNew⟩ := degraded
  cases call with
  | set key value => exact ⟨named, isNew⟩
  | delete key =>
    change Degraded id (HttpSession.delete s key)
    unfold HttpSession.delete
    split <;> exact ⟨named, isNew⟩
  | clear =>
    change Degraded id (HttpSession.clear s)
    unfold HttpSession.clear
    split <;> exact ⟨named, isNew⟩
  | addFlash value key => exact ⟨named, isNew⟩
  | setMaxAge seconds =>
    change Degraded id (HttpSession.setMaxAge s seconds)
    unfold HttpSession.setMaxAge
    split <;> exact ⟨named, isNew⟩
  | destroy => exact ⟨named, isNew⟩
  | save => exact ⟨named, isNew⟩

theorem degradedSaving {id : Bytes} {s : Session} (degraded : Degraded id s) (named : id ≠ [])
    (dirty : s.written = true) : Saving s :=
  ⟨dirty, by simp [degraded.isNew], by rw [degraded.named]; exact named⟩

theorem saveCommandWrites (s : Session) : Command.Writes (store.keyPrefix ++ s.sID) (saveCommand store s) := by
  unfold saveCommand
  split <;> rfl

theorem savedWrites {id : Bytes} {s : Session} (degraded : Degraded id s) (named : id ≠ [])
    (dirty : s.written = true) {w : World} (answered : env.exchange w.turn ≠ none) :
    ∃ command ∈ (save store env s w).world.sent, Command.Writes (store.keyPrefix ++ id) command := by
  obtain ⟨reply, found⟩ := Option.ne_none_iff_exists'.mp answered
  refine ⟨saveCommand store s, ?_, degraded.named ▸ saveCommandWrites store s⟩
  rw [saveSends store env (degradedSaving degraded named dirty), requestSome env found]
  simp

theorem runCallsGrows (calls : List Call) (s : Session) (w : World) :
    w.sent <+: (runCalls store env calls s w).2.2.sent := by
  induction calls generalizing s w with
  | nil => exact List.prefix_refl _
  | cons call rest ih =>
    cases call with
    | save => exact (saveGrows store env s w).trans (ih _ _)
    | _ => exact ih _ _

theorem runChainGrows (calls : List Call) (s : Session) (w : World) :
    w.sent <+: (runChain store env (handler store env calls) s w).world.sent := by
  have grown := runCallsGrows store env calls s w
  unfold runChain handler
  simp only
  split
  · exact grown.trans (saveGrows store env _ _)
  · exact grown

theorem writesStay (calls : List Call) (s : Session) {w : World} {key : Bytes}
    (wrote : ∃ command ∈ w.sent, Command.Writes key command) :
    ¬ Guards key (runChain store env (handler store env calls) s w) := by
  obtain ⟨command, inLog, writes⟩ := wrote
  exact fun guards => guards.1 command ((runChainGrows store env calls s w).subset inLog) writes

theorem guardsSave (key : Bytes) (rest : List Call) (s : Session) (w : World) :
    Guards key (runChain store env (handler store env (.save :: rest)) s w) ↔
      (s.written = true → (save store env s w).ok = false) ∧
      Guards key (runChain store env (handler store env rest)
        (save store env s w).session (save store env s w).world) := by
  simp only [Guards, runChain, handler, runCalls]
  split <;> simp [and_assoc, and_left_comm]

theorem guardsIff {id : Bytes} (named : id ≠ []) (calls : List Call) (s : Session) (w : World)
    (degraded : Degraded id s)
    (clean : ∀ command ∈ w.sent, ¬ Command.Writes (store.keyPrefix ++ id) command) :
    Guards (store.keyPrefix ++ id) (runChain store env (handler store env calls) s w) ↔
      SavesRefused store env calls s w := by
  induction calls generalizing s w with
  | nil =>
    by_cases acts : store.autoSave = true ∧ s.written = true
    · have written := savedWrites store env degraded named acts.2 (w := w)
      by_cases refused : env.exchange w.turn = none
      · have saved := saveRefused store env (degradedSaving degraded named acts.2) refused
        simpa [Guards, runChain, handler, runCalls, acts, SavesRefused, refused, saved] using clean
      · obtain ⟨command, inLog, writes⟩ := written refused
        have broken : ¬ Guards (store.keyPrefix ++ id) (runChain store env (handler store env []) s w) := by
          intro guards
          refine guards.1 command ?_ writes
          simpa [runChain, handler, runCalls, acts] using inLog
        simp [broken, SavesRefused, acts, refused]
    · have still : runChain store env (handler store env []) s w = ⟨some [], none, s, w⟩ := by
        simp [runChain, handler, runCalls, acts]
      have quiet : SavesRefused store env [] s w := fun auto dirty => absurd ⟨auto, dirty⟩ acts
      rw [still, iff_true_right quiet]
      simpa [Guards] using clean
  | cons call rest ih =>
    cases call with
    | save =>
      rw [guardsSave, SavesRefused]
      by_cases dirty : s.written = true
      · by_cases refused : env.exchange w.turn = none
        · have saved := saveRefused store env (degradedSaving degraded named dirty) refused
          have next := ih { s with written := false } { w with turn := w.turn + 1 }
            ⟨degraded.named, degraded.isNew⟩ clean
          simp only [saved, refused, implies_true, true_and, next]
        · have broken := writesStay store env rest (save store env s w).session
            (savedWrites store env degraded named dirty refused)
          simp [broken, dirty, refused]
      · have kept := saveClean store env (Bool.eq_false_iff.mpr dirty) w
        have next := ih s w degraded clean
        simp [kept, dirty, next]
    | _ => exact ih _ w (operateDegraded store degraded _) clean

def Marks : Call → Prop
  | .delete _ | .clear | .save => False
  | _ => True
instance (call : Call) : Decidable (Marks call) := by cases call <;> unfold Marks <;> infer_instance

theorem operateWritten {s : Session} (bare : s.written = false → s.mapValues.isEmpty = true)
    (call : Call) :
    ((operate store s call).written = true ↔ s.written = true ∨ Marks call) ∧
    ((operate store s call).written = false → (operate store s call).mapValues.isEmpty = true) := by
  cases call with
  | delete key =>
    change ((HttpSession.delete s key).written = true ↔ _) ∧ ((HttpSession.delete s key).written = false →
      (HttpSession.delete s key).mapValues.isEmpty = true)
    unfold HttpSession.delete
    split
    · rename_i inside
      have dirty : s.written = true := by
        by_contra clean
        have empty := bare (Bool.eq_false_iff.mpr clean)
        simp [Std.ExtTreeMap.isEmpty_iff.mp empty] at inside
      simp [dirty]
    · simpa [Marks] using bare
  | clear =>
    change ((HttpSession.clear s).written = true ↔ _) ∧ ((HttpSession.clear s).written = false →
      (HttpSession.clear s).mapValues.isEmpty = true)
    unfold HttpSession.clear
    split
    · simpa [Marks] using bare
    · rename_i full
      have dirty : s.written = true := by
        by_contra clean
        exact full (bare (Bool.eq_false_iff.mpr clean))
      simp [dirty]
  | setMaxAge seconds =>
    change ((HttpSession.setMaxAge s seconds).written = true ↔ _) ∧
      ((HttpSession.setMaxAge s seconds).written = false → _)
    unfold HttpSession.setMaxAge
    split <;> simp [Marks]
  | save => simpa [operate, Marks] using bare
  | _ => simp [operate, Marks, HttpSession.set, HttpSession.addFlash, HttpSession.destroy]

theorem oneSaveRefusedIff {id : Bytes} (named : id ≠ []) (calls : List Call) (plain : .save ∉ calls)
    (s : Session) (w : World) (degraded : Degraded id s)
    (bare : s.written = false → s.mapValues.isEmpty = true) :
    SavesRefused store env (calls ++ [Call.save]) s w ↔
      (s.written = true ∨ ∃ call ∈ calls, Marks call) → env.exchange w.turn = none := by
  induction calls generalizing s with
  | nil =>
    simp only [List.nil_append, SavesRefused, List.not_mem_nil, false_and, exists_false, or_false,
      and_iff_left_iff_imp]
    intro refuses _ dirtyAfter
    cases dirty : s.written with
    | false =>
      rw [saveClean store env dirty] at dirtyAfter
      simp [dirty] at dirtyAfter
    | true =>
      rw [saveRefused store env (degradedSaving degraded named dirty) (refuses dirty)] at dirtyAfter
      cases dirtyAfter
  | cons call rest ih =>
    obtain ⟨notSave, plain⟩ := not_or.mp (List.mem_cons.not.mp plain)
    have operated := operateWritten store bare call
    have step : SavesRefused store env (call :: rest ++ [Call.save]) s w ↔
        SavesRefused store env (rest ++ [Call.save]) (operate store s call) w := by
      cases call with
      | save => exact absurd rfl notSave
      | _ => rfl
    rw [step, ih plain _ (operateDegraded store degraded call) operated.2, operated.1]
    simp [or_assoc]

theorem failedLoad {cookie id : Bytes} (verified : parseSignedCookie store cookie = some id)
    (failed : (loadValues store env id .start).1 = .error) :
    initLoad store env cookie .start =
      ({ Session.fresh with sID := id }, (loadValues store env id .start).2) := by
  have some : cookie ≠ [] := by
    rintro rfl
    simp [parseSignedCookie] at verified
  simp [initLoad, some, verified, failed, loadedSession, Session.fresh]

theorem failedGuardsIff {cookie id : Bytes} (verified : parseSignedCookie store cookie = some id)
    (failed : (loadValues store env id .start).1 = .error) (calls : List Call) :
    Guards (store.keyPrefix ++ id) (sessions store env cookie (handler store env calls) .start) ↔
      SavesRefused store env calls { Session.fresh with sID := id }
        (loadValues store env id .start).2 := by
  rw [sessions, failedLoad store env verified failed]
  refine guardsIff store env (verifiedNamed store verified) calls _ _ ⟨rfl, rfl⟩ ?_
  intro command inLog
  rw [loadValuesWorld] at inLog
  rcases requestSent env _ _ command inLog with before | rfl
  · simp [World.start] at before
  · simp [Command.Writes]

/- A request whose load failed leaves the stored session alone exactly when no
dirty Save of it gets a connection. With one Save at the end of the operations,
that is when none of them marks the session or the second Acquire fails. -/
theorem failedLoadGuardsIff {cookie id : Bytes} (verified : parseSignedCookie store cookie = some id)
    (failed : (loadValues store env id .start).1 = .error) :
    (∀ calls, Guards (store.keyPrefix ++ id)
        (sessions store env cookie (handler store env calls) .start) ↔
      SavesRefused store env calls { Session.fresh with sID := id }
        (loadValues store env id .start).2) ∧
    (∀ calls, .save ∉ calls → (Guards (store.keyPrefix ++ id)
        (sessions store env cookie (handler store env (calls ++ [.save])) .start) ↔
      ((∃ call ∈ calls, Marks call) → env.exchange 1 = none))) := by
  refine ⟨failedGuardsIff store env verified failed, fun calls plain => ?_⟩
  have oneSave := oneSaveRefusedIff store env (verifiedNamed store verified) calls plain
    { Session.fresh with sID := id } (loadValues store env id .start).2 ⟨rfl, rfl⟩ (by
      simp [Session.fresh])
  rw [failedGuardsIff store env verified failed, oneSave, loadValuesWorld, requestTurn]
  simp [Session.fresh, World.start]

end Run

def down : Environment := ⟨fun _ => none, fun _ _ => 0⟩
def jitter : Environment := ⟨fun n => if n = 0 then none else some ⟨0, .status, bytes "OK"⟩, fun _ _ => 0⟩

theorem downGuards : Guards (defaultStore.keyPrefix ++ visitorID)
    (sessions defaultStore down visitorCookie
      (handler defaultStore down [.set (bytes "csrf") (bytes "t")]) .start) :=
  ((failedLoadGuardsIff defaultStore down visitorVerified (by decide)).1 _).mpr
    (by simp [SavesRefused, down])

def tokenStored : Command :=
  .set (defaultStore.keyPrefix ++ visitorID) (bytes "\x7b\"csrf\":\"t\"\x7d") 2592000

/- One failed GET, then a handler that sets a token: the auto save overwrites. -/
theorem jitterOverwrites :
    parseSignedCookie defaultStore visitorCookie = some visitorID ∧
    (loadValues defaultStore jitter visitorID .start).1 = .error ∧
    (sessions defaultStore jitter visitorCookie
      (handler defaultStore jitter [.set (bytes "csrf") (bytes "t")]) .start).world.sent =
        [tokenStored] ∧
    ¬ Guards (defaultStore.keyPrefix ++ visitorID) (sessions defaultStore jitter visitorCookie
      (handler defaultStore jitter [.set (bytes "csrf") (bytes "t")]) .start) := by
  have sent : (sessions defaultStore jitter visitorCookie
      (handler defaultStore jitter [.set (bytes "csrf") (bytes "t")]) .start).world.sent =
        [tokenStored] := by decide
  refine ⟨visitorVerified, by decide, sent, fun guards => ?_⟩
  have inLog : tokenStored ∈ (sessions defaultStore jitter visitorCookie
      (handler defaultStore jitter [.set (bytes "csrf") (bytes "t")]) .start).world.sent := by
    rw [sent]
    exact List.mem_singleton.mpr rfl
  exact guards.1 tokenStored inLog rfl

end Uco.FailedLoad
