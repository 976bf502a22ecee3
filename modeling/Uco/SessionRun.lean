import Uco.HttpSession

/-! What the operations in memory leave alone, and the ways one Save can go. -/
namespace Uco.HttpSession
open SessionJson

inductive Edit where
  | set (key value : Bytes)
  | delete (key : Bytes)
  | clear
  | addFlash (value key : Bytes)
  | flashes (key : Bytes)
  | setMaxAge (seconds : Int)
  | destroy
  deriving DecidableEq, Repr

section Run
variable (store : SessionStore) (env : Environment)

def edit (s : Session) : Edit → Session
  | .set key value => set s key value
  | .delete key => delete s key
  | .clear => clear s
  | .addFlash value key => addFlash store s value key
  | .flashes key => (flashes store s key).2
  | .setMaxAge seconds => setMaxAge s seconds
  | .destroy => destroy s

theorem deleteFrame (s : Session) (key : Bytes) :
    delete s key = s ∨ delete s key = { s with mapValues := s.mapValues.erase key, written := true } := by
  unfold delete
  split
  · exact .inr rfl
  · exact .inl rfl

theorem flashesFrame (s : Session) (key : Bytes) :
    (flashes store s key).2 = s ∨ (flashes store s key).2 = delete s (flashKeyOf store key) := by
  unfold flashes
  simp only
  split
  · exact .inl rfl
  · exact .inr rfl

structure Edited (before after : Session) : Prop where
  marked : after = before ∨ after.written = true
  sID : after.sID = before.sID
  isNew : after.isNew = before.isNew
  loadOK : after.loadOK = before.loadOK

theorem Edited.refl (s : Session) : Edited s s := ⟨.inl rfl, rfl, rfl, rfl⟩

theorem deleteEdited (s : Session) (key : Bytes) : Edited s (delete s key) := by
  rcases deleteFrame s key with same | erased
  · rw [same]
    exact .refl s
  · rw [erased]
    exact ⟨.inr rfl, rfl, rfl, rfl⟩

theorem editEdited (s : Session) (e : Edit) : Edited s (edit store s e) := by
  cases e with
  | set key value => exact ⟨.inr rfl, rfl, rfl, rfl⟩
  | delete key => exact deleteEdited s key
  | clear =>
    change Edited s (clear s)
    unfold clear
    split
    · exact .refl s
    · exact ⟨.inr rfl, rfl, rfl, rfl⟩
  | addFlash value key => exact ⟨.inr rfl, rfl, rfl, rfl⟩
  | flashes key =>
    change Edited s (flashes store s key).2
    rcases flashesFrame store s key with same | deleted
    · rw [same]
      exact .refl s
    · rw [deleted]
      exact deleteEdited s _
  | setMaxAge seconds =>
    change Edited s (setMaxAge s seconds)
    unfold setMaxAge
    split
    · exact ⟨.inr rfl, rfl, rfl, rfl⟩
    · exact ⟨.inr rfl, rfl, rfl, rfl⟩
  | destroy => exact ⟨.inr rfl, rfl, rfl, rfl⟩

def Gone (s : Session) : Prop := s.destroyed = true ∨ s.mapValues.isEmpty = true
instance (s : Session) : Decidable (Gone s) := by unfold Gone; infer_instance

structure Permitted (s : Session) : Prop where
  dirty : s.written = true
  allowed : ¬ (s.isNew = false ∧ s.loadOK = false)

def cleaned (s : Session) : Session := { s with written := false }

def writeID (s : Session) (w : World) : Bytes × World :=
  if s.sID = [] then newSessionID env w else (s.sID, w)

def writing (s : Session) (w : World) : Session := { cleaned s with sID := (writeID env s w).1 }

def delCommand (s : Session) : Command := .del (store.keyPrefix ++ s.sID)
def setCommand (s : Session) : Command :=
  .set (store.keyPrefix ++ s.sID) (dumpSessionJson s.mapValues) (ttlOf store (effectiveMaxAge store s))

inductive Saved (s : Session) (w : World) : Result → Prop
  | clean (clean : s.written = false) : Saved s w ⟨true, s, w⟩
  | skipped (dirty : s.written = true) (unread : s.isNew = false ∧ s.loadOK = false) :
      Saved s w ⟨false, s, w⟩
  | unnamed (permitted : Permitted s) (gone : Gone s) (unnamed : s.sID = []) :
      Saved s w (expired store (cleaned s) w)
  | deleted (permitted : Permitted s) (gone : Gone s) (named : s.sID ≠ [])
      (replied : (env.exchange w.turn).any (·.retCode = 0)) :
      Saved s w (expired store (cleaned s) (request env (delCommand store s) w).2)
  | keptKey (permitted : Permitted s) (gone : Gone s) (named : s.sID ≠ [])
      (failed : (env.exchange w.turn).any (·.retCode = 0) = false) :
      Saved s w ⟨false, cleaned s, (request env (delCommand store s) w).2⟩
  | stored (permitted : Permitted s) (kept : ¬ Gone s) (acked : acknowledged (env.exchange w.turn)) :
      Saved s w ⟨true, writing env s w, writeCookie store (writing env s w)
        (effectiveMaxAge store (writing env s w))
        (request env (setCommand store (writing env s w)) (writeID env s w).2).2⟩
  | unstored (permitted : Permitted s) (kept : ¬ Gone s)
      (failed : acknowledged (env.exchange w.turn) = false) :
      Saved s w ⟨false, writing env s w,
        (request env (setCommand store (writing env s w)) (writeID env s w).2).2⟩

theorem removeKeyOk (id : Bytes) (w : World) :
    (removeKey store env id w).1 = (env.exchange w.turn).any (·.retCode = 0) := by
  unfold removeKey
  cases found : env.exchange w.turn with
  | none => simp [requestNone env found]
  | some reply => simp [requestSome env found]

theorem writeIDTurn (s : Session) (w : World) : (writeID env s w).2.turn = w.turn := by
  unfold writeID
  split
  · rfl
  · rfl

theorem writeIDSent (s : Session) (w : World) : (writeID env s w).2.sent = w.sent := by
  unfold writeID
  split
  · rfl
  · rfl

theorem writeIDNamed (s : Session) (w : World) : (writeID env s w).1 ≠ [] := by
  unfold writeID
  split
  · exact newSessionIDNamed env w
  · assumption

theorem saveKept {s : Session} (permitted : Permitted s) (kept : ¬ Gone s) (w : World) :
    save store env s w = persist store env (writing env s w) (writeID env s w).2 := by
  have kept' : ¬ (s.destroyed = true ∨ s.mapValues.isEmpty = true) := kept
  simp only [save, permitted.dirty, permitted.allowed, Bool.true_eq_false, if_false, kept']
  by_cases named : s.sID = []
  · simp [named, writing, writeID, cleaned]
  · simp [named, writing, writeID, cleaned]

theorem saveGone {s : Session} (permitted : Permitted s) (gone : Gone s) (w : World) :
    save store env s w =
      if s.sID = [] then expired store (cleaned s) w
      else match removeKey store env s.sID w with
        | (false, w) => ⟨false, cleaned s, w⟩
        | (true, w) => expired store (cleaned s) w := by
  have gone' : s.destroyed = true ∨ s.mapValues.isEmpty = true := gone
  simp only [save, permitted.dirty, permitted.allowed, Bool.true_eq_false, if_false, gone', if_true]
  rfl

theorem saveSaved (s : Session) (w : World) : Saved store env s w (save store env s w) := by
  cases dirty : s.written with
  | false =>
    rw [saveClean store env dirty]
    exact .clean dirty
  | true =>
    by_cases unread : s.isNew = false ∧ s.loadOK = false
    · have same : save store env s w = ⟨false, s, w⟩ := by simp [save, dirty, unread]
      rw [same]
      exact .skipped dirty unread
    · have permitted : Permitted s := ⟨dirty, unread⟩
      by_cases gone : Gone s
      · rw [saveGone store env permitted gone]
        by_cases named : s.sID = []
        · rw [if_pos named]
          exact .unnamed permitted gone named
        · rw [if_neg named]
          have ok := removeKeyOk store env s.sID w
          have world := removeKeyWorld store env s.sID w
          cases removed : removeKey store env s.sID w with
          | mk replied after =>
            rw [removed] at ok world
            simp only at ok world
            subst world
            cases replied with
            | false => exact .keptKey permitted gone named ok.symm
            | true => exact .deleted permitted gone named ok.symm
      · rw [saveKept store env permitted gone]
        cases acked : acknowledged (env.exchange w.turn) with
        | false =>
          rw [persistFailed store env (by rw [writeIDTurn]; exact acked)]
          exact .unstored permitted gone acked
        | true =>
          rw [persistStored store env (by rw [writeIDTurn]; exact acked)]
          exact .stored permitted gone acked

def commandsOf (before after : World) : List Command := after.sent.drop before.sent.length

theorem commandsRequest {before after world : World} {command : Command} (sent : world.sent = before.sent)
    (turn : world.turn = before.turn) (log : after.sent = (request env command world).2.sent) :
    commandsOf before after = if (env.exchange before.turn).isSome then [command] else [] := by
  rw [commandsOf, log]
  cases found : env.exchange before.turn with
  | none =>
    rw [requestNone env (by rw [turn]; exact found)]
    simp [sent]
  | some reply =>
    rw [requestSome env (by rw [turn]; exact found)]
    simp [sent]

theorem savedValues {s : Session} {w : World} {result : Result} (saved : Saved store env s w result) :
    result.session.mapValues = s.mapValues := by
  cases saved <;> rfl

theorem initLoadUnverified {cookie : Bytes} (unverified : parseSignedCookie store cookie = none)
    (w : World) : initLoad store env cookie w = (.fresh, w) := by
  unfold initLoad
  split
  · rfl
  · rw [unverified]

theorem initLoadSession {cookie id : Bytes} (verified : parseSignedCookie store cookie = some id)
    (w : World) :
    (initLoad store env cookie w).1 = loadedSession id (loadValues store env id w).1 := by
  have some : cookie ≠ [] := by
    rintro rfl
    simp [parseSignedCookie] at verified
  simp only [initLoad, some, if_false, verified]
  split <;> rfl

end Run

end Uco.HttpSession
