import Mathlib.Logic.Function.Basic
import Uco.SessionRun
import Uco.SessionRoundTrip

/-! What a Save that returns true promises: the value in Redis is the session's
data, or the key is gone. The run keeps the Redis values beside the session; a
command without an acknowledgement may have been carried out or not. -/
namespace Uco.SavedSession
open SessionJson HttpSession

abbrev Redis := Bytes → Option Bytes

def execute (redis : Redis) : Command → Redis
  | .set key json _ => Function.update redis key (some json)
  | .del key => Function.update redis key none
  | _ => redis

/- The data a key stands for; a key that is not there is an empty session. -/
def decoded : Option Bytes → Option Values
  | none => some ∅
  | some raw =>
    match parseSessionJson raw with
    | (true, kv) => some kv
    | (false, _) => none

/- What the request has done to the session so far. The last three fields are for
the statement only: whether the last write is still missing, whether the last Save
that got through deleted the session, and the ids the session has had. -/
structure State where
  session : Session
  world : World
  redis : Redis
  unwritten : Bool
  ended : Bool
  ids : List Bytes

inductive Call where
  | edit (e : Edit)
  | save
  deriving DecidableEq, Repr

section Run
variable (store : SessionStore) (env : Environment) (applied : Nat → Bool)

def accepted : Command → Reply → Bool
  | .set _ _ _, reply => reply.isOK
  | _, reply => reply.retCode = 0

/- Whether Redis carried out the command sent at this turn; `applied` decides for
the commands that it did not acknowledge. -/
def carriedOut (turn : Nat) (command : Command) : Bool :=
  match env.exchange turn with
  | none => false
  | some reply => accepted command reply || applied turn

def settle (before after : World) (redis : Redis) : Redis :=
  (commandsOf before after).foldl (fun redis command =>
    if carriedOut env applied before.turn command then execute redis command else redis) redis

def performed (before after : World) : Bool :=
  (commandsOf before after).any (carriedOut env applied before.turn)

def afterSave (st : State) (saved : Result) : State :=
  { session := saved.session
    world := saved.world
    redis := settle env applied st.world saved.world st.redis
    unwritten := if st.session.written then
        !saved.ok && !performed env applied st.world saved.world
      else st.unwritten
    ended := if st.session.written && saved.ok then decide (Gone st.session) else st.ended
    ids := saved.session.sID :: st.ids }

def saveState (st : State) : State := afterSave env applied st (save store env st.session st.world)

def saveReturns (st : State) : Bool := (save store env st.session st.world).ok

def editState (st : State) (e : Edit) : State := { st with session := edit store st.session e }

structure Persisted (st : State) : Prop where
  alive : st.session.destroyed = false
  value : st.session.sID ≠ [] →
    decoded (st.redis (store.keyPrefix ++ st.session.sID)) = some st.session.mapValues
  unnamed : st.session.sID = [] → st.session.mapValues.isEmpty = true ∨ st.ended = true
  deleted : ∀ id ∈ st.ids, id ≠ [] → id ≠ st.session.sID → st.redis (store.keyPrefix ++ id) = none

structure Promised (before after : State) : Prop where
  persisted : Persisted store after
  written : after.unwritten = false
  cleared : before.session.written = true → Gone before.session → after.session.sID = []

def SavesPersist : List Call → State → Prop
  | [], _ => True
  | .edit e :: rest, st => SavesPersist rest (editState store st e)
  | .save :: rest, st =>
    let after := saveState store env applied st
    (saveReturns store env st = true → Promised store st after) ∧ SavesPersist rest after

def Retried : List Call → State → Prop
  | [], _ => True
  | .edit e :: rest, st => Retried rest (editState store st e)
  | .save :: rest, st =>
    (st.session.written = false → st.unwritten = false ∧ st.session.destroyed = false) ∧
      Retried rest (saveState store env applied st)

structure Kept (st : State) : Prop where
  allowed : ¬ (st.session.isNew = false ∧ st.session.loadOK = false)
  deleted : ∀ id ∈ st.ids, id ≠ [] → id ≠ st.session.sID → st.redis (store.keyPrefix ++ id) = none
  clean : st.session.written = false → st.unwritten = false → st.session.destroyed = false →
    Persisted store st

theorem editKept {st : State} (kept : Kept store st) (e : Edit) : Kept store (editState store st e) := by
  obtain ⟨marked, sID, isNew, loadOK⟩ := editEdited store st.session e
  rcases marked with same | dirty
  · simp only [editState, same]
    exact kept
  · refine ⟨?_, ?_, fun clean => ?_⟩
    · simpa [editState, isNew, loadOK] using kept.allowed
    · simpa [editState, sID] using kept.deleted
    · rw [editState, dirty] at clean
      cases clean

theorem carriedOutSent {turn : Nat} {command : Command} (carried : carriedOut env applied turn command = true) :
    (env.exchange turn).isSome = true := by
  unfold carriedOut at carried
  split at carried
  · cases carried
  · rename_i found
    simp [found]

theorem settleRequest (before : World) {after world : World} (command : Command) (sent : world.sent = before.sent)
    (turn : world.turn = before.turn) (log : after.sent = (request env command world).2.sent)
    (redis : Redis) : settle env applied before after redis =
      if carriedOut env applied before.turn command then execute redis command else redis := by
  rw [settle, commandsRequest env sent turn log]
  cases carried : carriedOut env applied before.turn command with
  | false => split <;> simp [carried]
  | true => simp [carriedOutSent env applied carried, carried]

theorem performedRequest (before : World) {after world : World} (command : Command) (sent : world.sent = before.sent)
    (turn : world.turn = before.turn) (log : after.sent = (request env command world).2.sent) :
    performed env applied before after = carriedOut env applied before.turn command := by
  rw [performed, commandsRequest env sent turn log]
  cases carried : carriedOut env applied before.turn command with
  | false => split <;> simp [carried]
  | true => simp [carriedOutSent env applied carried, carried]

theorem settleStill {before after : World} (log : after.sent = before.sent) (redis : Redis) :
    settle env applied before after redis = redis := by
  simp [settle, commandsOf, log]

theorem otherKey {redis after : Redis} {id other : Bytes} {value : Option Bytes}
    (redisAfter : after = Function.update redis (store.keyPrefix ++ id) value ∨ after = redis)
    (differ : other ≠ id) : after (store.keyPrefix ++ other) = redis (store.keyPrefix ++ other) := by
  rcases redisAfter with rfl | rfl
  · exact Function.update_of_ne (by simpa using differ) _ _
  · rfl

theorem updateIf {redis : Redis} {key : Bytes} {value : Option Bytes} (carried : Bool) :
    (if carried then Function.update redis key value else redis) = Function.update redis key value ∨
    (if carried then Function.update redis key value else redis) = redis := by
  cases carried
  · exact .inr rfl
  · exact .inl rfl

theorem otherID {s : Session} {w : World} {id : Bytes} (named : id ≠ [])
    (differ : id ≠ (writeID env s w).1) : id ≠ s.sID := by
  unfold writeID at differ
  split at differ
  · rename_i unnamed
    rw [unnamed]
    exact named
  · exact differ

theorem decodedDump (kv : Values) : decoded (some (dumpSessionJson kv)) = some kv := by
  simp [decoded, parseDumpedSession]

theorem leftEmpty {ids : List Bytes} {before : Bytes} {redis redisAfter : Redis}
    (after touched : Bytes) (value : Option Bytes)
    (deleted : ∀ id ∈ ids, id ≠ [] → id ≠ before → redis (store.keyPrefix ++ id) = none)
    (redisSame : redisAfter = Function.update redis (store.keyPrefix ++ touched) value ∨ redisAfter = redis)
    (apart : ∀ id, id ≠ [] → id ≠ after → id ≠ before ∧ id ≠ touched) :
    ∀ id ∈ after :: ids, id ≠ [] → id ≠ after → redisAfter (store.keyPrefix ++ id) = none := by
  intro id inside named differ
  obtain ⟨notBefore, notTouched⟩ := apart id named differ
  rw [otherKey store redisSame notTouched]
  rcases List.mem_cons.mp inside with same | earlier
  · exact absurd same differ
  · exact deleted id earlier named notBefore

theorem acknowledgedCarried {turn : Nat} (acked : acknowledged (env.exchange turn) = true)
    {key json : Bytes} {ttl : Int} : carriedOut env applied turn (.set key json ttl) = true := by
  cases found : env.exchange turn with
  | none => simp [found, acknowledged] at acked
  | some reply =>
    have ok : reply.isOK = true := by simpa [found, acknowledged] using acked
    simp [carriedOut, found, accepted, ok]

theorem repliedCarried {turn : Nat} (replied : (env.exchange turn).any (·.retCode = 0) = true)
    {key : Bytes} : carriedOut env applied turn (.del key) = true := by
  cases found : env.exchange turn with
  | none => simp [found] at replied
  | some reply =>
    have zero : reply.retCode = 0 := by simpa [found] using replied
    simp [carriedOut, found, accepted, zero]

theorem expiredStep {st : State} (world : World) (permitted : Permitted st.session)
    (gone : Gone st.session)
    (deleted : ∀ id ∈ [] :: st.ids, id ≠ [] → id ≠ [] →
      settle env applied st.world world st.redis (store.keyPrefix ++ id) = none) :
    Kept store (afterSave env applied st (expired store (cleaned st.session) world)) ∧
    Promised store st (afterSave env applied st (expired store (cleaned st.session) world)) := by
  have written : (afterSave env applied st (expired store (cleaned st.session) world)).unwritten = false := by
    simp [afterSave, expired, permitted.dirty]
  have persisted : Persisted store (afterSave env applied st (expired store (cleaned st.session) world)) := by
    refine ⟨rfl, fun named => absurd rfl named, fun _ => .inr ?_, deleted⟩
    simp [afterSave, expired, permitted.dirty, gone]
  exact ⟨⟨by simp [afterSave, expired], deleted, fun _ _ _ => persisted⟩,
    persisted, written, fun _ _ => rfl⟩

theorem writtenPersisted {st : State} {saved : Result} (kept : Kept store st)
    (full : ¬ Gone st.session) (session : saved.session = writing env st.session st.world)
    (redis : settle env applied st.world saved.world st.redis =
      Function.update st.redis (store.keyPrefix ++ (writeID env st.session st.world).1)
        (some (dumpSessionJson st.session.mapValues))) :
    Persisted store (afterSave env applied st saved) := by
  obtain ⟨alive, _⟩ := not_or.mp full
  refine ⟨?_, fun _ => ?_, fun unnamed => ?_, ?_⟩
  · simpa [afterSave, session, writing, cleaned] using alive
  · simp [afterSave, session, writing, cleaned, redis, decodedDump]
  · simp only [afterSave, session] at unnamed
    exact absurd unnamed (writeIDNamed env st.session st.world)
  · simp only [afterSave, session]
    exact leftEmpty store _ _ _ kept.deleted (.inl redis) fun id named differ => ⟨otherID env named differ, differ⟩

theorem writtenKept {st : State} {saved : Result} (kept : Kept store st) (full : ¬ Gone st.session)
    (permitted : Permitted st.session) (session : saved.session = writing env st.session st.world)
    (log : saved.world.sent = (request env (setCommand store (writing env st.session st.world))
      (writeID env st.session st.world).2).2.sent)
    (accepted : saved.ok = true → carriedOut env applied st.world.turn
      (setCommand store (writing env st.session st.world)) = true) :
    Kept store (afterSave env applied st saved) ∧
    (saved.ok = true → Promised store st (afterSave env applied st saved)) := by
  have turn := writeIDTurn env st.session st.world
  have sent := writeIDSent env st.session st.world
  have settled := settleRequest env applied _ _ sent turn log st.redis
  have carried := performedRequest env applied _ _ sent turn log
  have done (carriedOut : carriedOut env applied st.world.turn
      (setCommand store (writing env st.session st.world)) = true) :
      Persisted store (afterSave env applied st saved) := by
    rw [carriedOut, if_pos rfl] at settled
    exact writtenPersisted store env applied kept full session settled
  refine ⟨⟨?_, ?_, fun _ written _ => done ?_⟩, fun ok => ⟨done (accepted ok), ?_, fun _ gone => absurd gone full⟩⟩
  · simpa [afterSave, session, writing, cleaned] using kept.allowed
  · simp only [afterSave, session]
    refine leftEmpty store _ _ (some (dumpSessionJson st.session.mapValues)) kept.deleted ?_
      fun id named differ => ⟨otherID env named differ, differ⟩
    rw [settled]
    exact updateIf _
  · have done : saved.ok = false → performed env applied st.world saved.world = true := by
      simpa [afterSave, permitted.dirty] using written
    cases ok : saved.ok with
    | true => exact accepted ok
    | false => rw [← carried, done ok]
  · simp [afterSave, permitted.dirty, ok]

theorem keptKeyKept {st : State} (kept : Kept store st) (permitted : Permitted st.session)
    (gone : Gone st.session) (named : st.session.sID ≠ []) :
    Kept store (afterSave env applied st ⟨false, cleaned st.session,
      (request env (delCommand store st.session) st.world).2⟩) := by
  have settled := settleRequest env applied st.world (delCommand store st.session) rfl rfl rfl
    st.redis
  have carried := performedRequest env applied st.world (delCommand store st.session) rfl rfl rfl
  have deleted : ∀ id ∈ st.session.sID :: st.ids, id ≠ [] → id ≠ st.session.sID →
      settle env applied st.world (request env (delCommand store st.session) st.world).2 st.redis
        (store.keyPrefix ++ id) = none := by
    refine leftEmpty store _ _ none kept.deleted ?_ fun id _ differ => ⟨differ, differ⟩
    rw [settled]
    exact updateIf _
  refine ⟨kept.allowed, deleted, fun _ written alive => ⟨alive, fun _ => ?_, fun unnamed => absurd unnamed named,
    deleted⟩⟩
  have done : performed env applied st.world (request env (delCommand store st.session) st.world).2 = true := by
    simpa [afterSave, permitted.dirty] using written
  have empty : st.session.mapValues = ∅ := by
    rcases gone with destroyed | empty
    · exact absurd destroyed (by simpa [afterSave, cleaned] using alive)
    · exact Std.ExtTreeMap.isEmpty_iff.mp empty
  have value : settle env applied st.world (request env (delCommand store st.session) st.world).2 st.redis
      (store.keyPrefix ++ st.session.sID) = none := by
    rw [settled, ← carried, if_pos done]
    exact Function.update_self _ _ _
  change decoded (settle env applied st.world _ st.redis _) = some st.session.mapValues
  rw [empty]
  exact congrArg decoded value

theorem saveStep {st : State} (kept : Kept store st) :
    Kept store (saveState store env applied st) ∧
    ((st.session.written = false → st.unwritten = false ∧ st.session.destroyed = false) →
      saveReturns store env st = true → Promised store st (saveState store env applied st)) := by
  have saved := saveSaved store env st.session st.world
  simp only [saveState, saveReturns]
  generalize save store env st.session st.world = result at saved
  cases saved with
  | clean still =>
    have same : afterSave env applied st ⟨true, st.session, st.world⟩ =
        { st with ids := st.session.sID :: st.ids } := by
      simp [afterSave, still, settleStill env applied rfl]
    rw [same]
    have deleted := leftEmpty store st.session.sID st.session.sID none kept.deleted
      (.inr rfl) fun id _ differ => ⟨differ, differ⟩
    have persisted (written : st.unwritten = false) (alive : st.session.destroyed = false) :
        Persisted store { st with ids := st.session.sID :: st.ids } :=
      have before := kept.clean still written alive
      ⟨alive, before.value, before.unnamed, deleted⟩
    refine ⟨⟨kept.allowed, deleted, fun _ => persisted⟩, fun retried _ => ?_⟩
    obtain ⟨written, alive⟩ := retried still
    exact ⟨persisted written alive, written, fun dirty => absurd dirty (by simp [still])⟩
  | skipped dirty unread => exact absurd unread kept.allowed
  | unnamed permitted gone unnamed =>
    have step := expiredStep store env applied st.world permitted gone (by
      rw [settleStill env applied rfl]
      exact leftEmpty store _ [] none kept.deleted (.inr rfl) fun id named _ =>
        ⟨by rw [unnamed]; exact named, named⟩)
    exact ⟨step.1, fun _ _ => step.2⟩
  | deleted permitted gone named replied =>
    have carried : carriedOut env applied st.world.turn (delCommand store st.session) = true :=
      repliedCarried env applied replied
    have step := expiredStep store env applied (request env (delCommand store st.session) st.world).2
      permitted gone (by
      rw [settleRequest env applied st.world (delCommand store st.session) rfl rfl rfl,
        if_pos carried]
      intro id inside some _
      by_cases own : id = st.session.sID
      · simp [execute, delCommand, own]
      · exact leftEmpty store st.session.sID _ _ kept.deleted (.inl rfl)
          (fun id _ differ => ⟨differ, differ⟩) id (List.mem_cons.mpr (.inr (by
            simpa [some] using inside))) some own)
    exact ⟨step.1, fun _ _ => step.2⟩
  | keptKey permitted gone named failed =>
    exact ⟨keptKeyKept store env applied kept permitted gone named, fun _ ok => nomatch ok⟩
  | stored permitted full acked =>
    exact And.imp_right (fun promised _ => promised) (writtenKept store env applied kept full permitted
      rfl rfl fun _ => acknowledgedCarried env applied acked)
  | unstored permitted full failed =>
    exact And.imp_right (fun promised _ => promised) (writtenKept store env applied kept full permitted
      rfl rfl fun ok => nomatch ok)

theorem cleanReturns {st : State} (clean : st.session.written = false) :
    saveReturns store env st = true ∧ saveState store env applied st =
      { st with ids := st.session.sID :: st.ids } := by
  rw [saveReturns, saveState, saveClean store env clean]
  simp [afterSave, clean, settleStill env applied rfl]

theorem runPersistsIff (calls : List Call) (st : State) (kept : Kept store st) :
    SavesPersist store env applied calls st ↔ Retried store env applied calls st := by
  induction calls generalizing st with
  | nil => exact Iff.rfl
  | cons call rest ih =>
    cases call with
    | edit e => exact ih _ (editKept store kept e)
    | save =>
      obtain ⟨keptAfter, promises⟩ := saveStep store env applied kept
      simp only [SavesPersist, Retried, ih _ keptAfter]
      refine and_congr_left fun _ => ⟨fun promised clean => ?_, promises⟩
      obtain ⟨returns, same⟩ := cleanReturns store env applied clean
      have kept := promised returns
      rw [same] at kept
      exact ⟨kept.written, kept.persisted.alive⟩

def ReadBack (redis : Redis) (key : Bytes) : LoadResult → Prop
  | .ok raw => redis key = some raw ∧ (parseSessionJson raw).1 = true
  | .missing => redis key = none
  | .error => False

def start (redis : Redis) (loaded : Session × World) : State :=
  ⟨loaded.1, loaded.2, redis, false, false, [loaded.1.sID]⟩

theorem loadedPersisted {redis : Redis} {id : Bytes} {loaded : LoadResult}
    (read : ReadBack redis (store.keyPrefix ++ id) loaded) :
    decoded (redis (store.keyPrefix ++ id)) = some (loadedSession id loaded).mapValues := by
  cases loaded with
  | ok raw =>
    obtain ⟨found, parsed⟩ := read
    cases result : parseSessionJson raw with
    | mk ok kv =>
      rw [result] at parsed
      cases parsed
      simp [found, decoded, loadedSession, result]
  | missing =>
    have absent : redis (store.keyPrefix ++ id) = none := read
    simp [absent, decoded, loadedSession, Session.fresh]
  | error => exact False.elim read

theorem startKept {redis : Redis} {cookie : Bytes} (w : World)
    (read : ∀ id, parseSignedCookie store cookie = some id →
      ReadBack redis (store.keyPrefix ++ id) (loadValues store env id w).1) :
    Kept store (start redis (initLoad store env cookie w)) := by
  have own : ∀ id ∈ [(initLoad store env cookie w).1.sID], id ≠ [] →
      id ≠ (initLoad store env cookie w).1.sID → redis (store.keyPrefix ++ id) = none :=
    fun id inside _ differ => absurd (List.mem_singleton.mp inside) differ
  cases verified : parseSignedCookie store cookie with
  | none =>
    have fresh := initLoadUnverified store env verified w
    refine ⟨by simp [start, fresh, Session.fresh], own, fun _ _ alive => ⟨alive, ?_, ?_, own⟩⟩
    · simp [start, fresh, Session.fresh]
    · simp [start, fresh, Session.fresh]
  | some id =>
    have loaded := initLoadSession store env verified w
    obtain ⟨named, _, _, allowed⟩ := loadedFacts id (loadValues store env id w).1
    refine ⟨by simpa [start, loaded] using allowed, own, fun _ _ alive => ⟨alive, fun _ => ?_, ?_, own⟩⟩
    · simpa [start, loaded, named] using loadedPersisted store (read id verified)
    · intro unnamed
      simp only [start, loaded, named] at unnamed
      exact absurd unnamed (verifiedNamed store verified)

/- Every Save of a request that returns true has persisted the session exactly when
none finds it clean with a write missing or a destruction outstanding. -/
theorem savePersistsIff {redis : Redis} {cookie : Bytes} {w : World}
    (read : ∀ id, parseSignedCookie store cookie = some id →
      ReadBack redis (store.keyPrefix ++ id) (loadValues store env id w).1) (calls : List Call) :
    SavesPersist store env applied calls (start redis (initLoad store env cookie w)) ↔
      Retried store env applied calls (start redis (initLoad store env cookie w)) :=
  runPersistsIff store env applied calls _ (startKept store env w read)

end Run

def refusedOnce : Environment :=
  ⟨fun n => if n = 0 then none else some ⟨0, .status, bytes "OK"⟩, fun _ _ => 0⟩

def setName : Edit := .set (bytes "name") (bytes "a")

theorem touchedRetries : SavesPersist defaultStore refusedOnce (fun _ => false)
    [.edit setName, .save, .edit setName, .save] (start (fun _ => none) (initLoad defaultStore refusedOnce [] .start)) := by
  refine (savePersistsIff defaultStore refusedOnce (fun _ => false) (fun id verified => ?_) _).mpr ?_
  · cases verified
  · exact ⟨fun clean => absurd clean (by decide), fun clean => absurd clean (by decide), trivial⟩

def refused : State :=
  saveState defaultStore refusedOnce (fun _ => false)
    (editState defaultStore (start (fun _ => none) (initLoad defaultStore refusedOnce [] .start)) setName)
def savedAgain : State := saveState defaultStore refusedOnce (fun _ => false) refused

theorem retryWritesNothing :
    saveReturns defaultStore refusedOnce refused = true ∧
    savedAgain.world.sent = [] ∧
    HttpSession.get savedAgain.session (bytes "name") = bytes "a" ∧
    savedAgain.redis (defaultStore.keyPrefix ++ savedAgain.session.sID) = none ∧
    ¬ SavesPersist defaultStore refusedOnce (fun _ => false) [.edit setName, .save, .save]
      (start (fun _ => none) (initLoad defaultStore refusedOnce [] .start)) := by
  refine ⟨by decide, by decide, by decide, by decide, fun persist => ?_⟩
  have promised := persist.2.1 (by decide)
  exact absurd promised.written (by decide)

end Uco.SavedSession
