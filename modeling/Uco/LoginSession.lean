import Uco.HttpSession

/-! Logging in: the controller writes the login data into the anonymous session
and rotates its id, so that the data is stored under the new id only. Rotate
rolls back when it fails, and the auto save then meets the restored id. -/
namespace Uco.LoginSession
open SessionJson HttpSession

def kKeyVid : Bytes := bytes "vid"
def kKeyUsername : Bytes := bytes "username"
def kCsrfKey : Bytes := bytes "csrf"

structure LoginRsp where
  ret : Int
  vid : UInt64
  username : Bytes
  deriving DecidableEq, Repr

/- HttpLoginRsp with its status; the body is left out of error replies. -/
structure HttpLoginRsp where
  status : Nat
  code : Int
  msg : Bytes
  body : Option (UInt64 × Bytes)
  deriving DecidableEq, Repr

def makeLoginResp (status : Nat) (code : Int) (msg : String) (vid : UInt64) (username : Bytes) :
    HttpLoginRsp :=
  ⟨status, code, bytes msg, if vid ≠ 0 ∨ username ≠ [] then some (vid, username) else none⟩

def decimal (n : UInt64) : Bytes := bytes (toString n.toNat)

section Login
variable (store : SessionStore) (env : Environment) (rng : Nat → Bool)

/- Csrf::NewToken: thirty-two random bytes in hex, or nothing when the random source fails. -/
def newToken (w : World) : Bytes × World :=
  (if rng w.draws then hexOf ((List.range 32).map (env.random w.draws)) else [], { w with draws := w.draws + 1 })

def loginValues (s : Session) (vid : UInt64) (username token : Bytes) : Session :=
  let s := clear s
  let s := set s kKeyVid (decimal vid)
  let s := set s kKeyUsername username
  set s kCsrfKey token

def establishLoginSession (s : Session) (vid : UInt64) (username : Bytes) (w : World) : Result :=
  let (token, w) := newToken env rng w
  rotate store env (loginValues s vid username token) w

/- UserController::Login. `form` is what BindForm parsed, or none where it aborts;
`service` answers a user name and a password, or throws. -/
def login (form : Option Values) (service : Bytes → Bytes → Option LoginRsp)
    (s : Session) (w : World) : Option HttpLoginRsp × Session × World :=
  match form with
  | none => (none, s, w)
  | some fields =>
    match fields[bytes "username"]?, fields[bytes "password"]? with
    | some username, some password =>
      match service username password with
      | none => (none, s, w)
      | some rsp =>
        if rsp.ret = 0 then
          let established := establishLoginSession store env rng s rsp.vid rsp.username w
          if established.ok = false then
            (some (makeLoginResp 500 500 "internal error" 0 []), established.session, established.world)
          else
            (some (makeLoginResp 200 0 "ok" rsp.vid rsp.username), established.session, established.world)
        else if rsp.ret = 1 ∨ rsp.ret = 2 then
          (some (makeLoginResp 401 401 "wrong username or password" 0 []), s, w)
        else (some (makeLoginResp 500 500 "internal error" 0 []), s, w)
    | _, _ => (some (makeLoginResp 400 400 "missing field" 0 []), s, w)

def accepted (form : Option Values) (service : Bytes → Bytes → Option LoginRsp) : Option LoginRsp := do
  let fields ← form
  let username ← fields[bytes "username"]?
  let password ← fields[bytes "password"]?
  let rsp ← service username password
  if rsp.ret = 0 then some rsp else none

theorem loginCases (form : Option Values) (service : Bytes → Bytes → Option LoginRsp)
    (s : Session) (w : World) :
    (∃ rsp, accepted form service = some rsp ∧ ∃ answer, login store env rng form service s w =
      (some answer, (establishLoginSession store env rng s rsp.vid rsp.username w).session,
        (establishLoginSession store env rng s rsp.vid rsp.username w).world)) ∨
    (accepted form service = none ∧ ∃ answer, login store env rng form service s w = (answer, s, w)) := by
  cases form with
  | none => exact .inr ⟨rfl, none, rfl⟩
  | some fields =>
    simp only [login, accepted]
    cases user : fields[bytes "username"]? with
    | none => exact .inr ⟨by simp [user], _, rfl⟩
    | some username =>
      cases word : fields[bytes "password"]? with
      | none => exact .inr ⟨by simp [user, word], _, rfl⟩
      | some password =>
        cases answered : service username password with
        | none => exact .inr ⟨by simp [user, word, answered], none, by simp [answered]⟩
        | some rsp =>
          by_cases zero : rsp.ret = 0
          · refine .inl ⟨rsp, by simp [user, word, answered, zero], ?_⟩
            simp only [answered, zero, if_true]
            split <;> exact ⟨_, rfl⟩
          · refine .inr ⟨by simp [user, word, answered, zero], ?_⟩
            simp only [answered, zero, if_false]
            split <;> exact ⟨_, rfl⟩

def CarriesVid (key : Bytes) (vid : UInt64) (sent : List Command) : Prop :=
  ∃ values ttl, .set key (dumpSessionJson values) ttl ∈ sent ∧ values[kKeyVid]? = some (decimal vid)

def KeepsOut (oldID : Bytes) (form : Option Values) (service : Bytes → Bytes → Option LoginRsp)
    (handled : Handled HttpLoginRsp) : Prop :=
  ∀ rsp, accepted form service = some rsp →
    ¬ CarriesVid (store.keyPrefix ++ oldID) rsp.vid handled.world.sent

theorem carriesAppend (key : Bytes) (vid : UInt64) (first second : List Command) :
    CarriesVid key vid (first ++ second) ↔ CarriesVid key vid first ∨ CarriesVid key vid second := by
  constructor
  · rintro ⟨values, ttl, inLog, has⟩
    rcases List.mem_append.mp inLog with before | after
    · exact .inl ⟨values, ttl, before, has⟩
    · exact .inr ⟨values, ttl, after, has⟩
  · rintro (⟨values, ttl, inLog, has⟩ | ⟨values, ttl, inLog, has⟩)
    · exact ⟨values, ttl, List.mem_append_left _ inLog, has⟩
    · exact ⟨values, ttl, List.mem_append_right _ inLog, has⟩

theorem carriesNothing {key : Bytes} {vid : UInt64} {sent : List Command}
    (unset : ∀ key json ttl, .set key json ttl ∉ sent) : ¬ CarriesVid key vid sent :=
  fun ⟨_, _, inLog, _⟩ => unset _ _ _ inLog

theorem carriesRequest {key target : Bytes} {vid : UInt64} {values : Values} {ttl : Int}
    (has : values[kKeyVid]? = some (decimal vid)) (w : World) :
    CarriesVid key vid (request env (.set target (dumpSessionJson values) ttl) w).2.sent ↔
      CarriesVid key vid w.sent ∨ (env.exchange w.turn ≠ none ∧ target = key) := by
  cases found : env.exchange w.turn with
  | none => simp [requestNone env found]
  | some reply =>
    have one : CarriesVid key vid [.set target (dumpSessionJson values) ttl] ↔ target = key := by
      constructor
      · rintro ⟨other, age, inLog, _⟩
        exact (Command.set.inj (List.mem_singleton.mp inLog)).1.symm
      · rintro rfl
        exact ⟨values, ttl, List.mem_singleton.mpr rfl, has⟩
    simp [requestSome env found, carriesAppend, one]

theorem clearFrame (s : Session) : (clear s).sID = s.sID ∧ (clear s).destroyed = s.destroyed ∧
    (clear s).isNew = s.isNew ∧ (clear s).loadOK = s.loadOK := by
  unfold clear
  split <;> exact ⟨rfl, rfl, rfl, rfl⟩

theorem loginValuesVid (s : Session) (vid : UInt64) (username token : Bytes) :
    (loginValues s vid username token).mapValues[kKeyVid]? = some (decimal vid) := by
  have first : compare kKeyUsername kKeyVid ≠ .eq := by decide
  have second : compare kCsrfKey kKeyVid ≠ .eq := by decide
  simp only [loginValues, HttpSession.set, Std.ExtTreeMap.getElem?_insert, first, second, if_false]
  simp

theorem loginValuesKept {s : Session} (alive : s.destroyed = false) (vid : UInt64)
    (username token : Bytes) : ¬ ((loginValues s vid username token).destroyed = true ∨
      (loginValues s vid username token).mapValues.isEmpty = true) := by
  rintro (gone | empty)
  · have frame := (clearFrame s).2.1
    simp [loginValues, HttpSession.set, frame, alive] at gone
  · have has := loginValuesVid s vid username token
    rw [Std.ExtTreeMap.isEmpty_iff.mp empty] at has
    simp at has

theorem loginValuesFrame (s : Session) (vid : UInt64) (username token : Bytes) :
    (loginValues s vid username token).sID = s.sID ∧
    (loginValues s vid username token).written = true ∧
    (loginValues s vid username token).isNew = s.isNew ∧
    (loginValues s vid username token).loadOK = s.loadOK := by
  obtain ⟨named, _, isNew, loadOK⟩ := clearFrame s
  exact ⟨named, rfl, isNew, loadOK⟩

def rotatedID : Bytes := (newSessionID env { World.start with draws := 1 }).1

/- What lets the login data reach the old key, for an accepted login whose SET is
the exchange `turn`: the new id is the old one, or the SET is not acknowledged and
the auto save, with the old id restored, finds a connection. -/
def Breach (oldID : Bytes) (turn : Nat) : Prop :=
  (rotatedID env = oldID ∧ env.exchange turn ≠ none) ∨
  (acknowledged (env.exchange turn) = false ∧ store.autoSave = true ∧ env.exchange (turn + 1) ≠ none)

theorem keyInj {a b : Bytes} : store.keyPrefix ++ a = store.keyPrefix ++ b ↔ a = b :=
  List.append_cancel_left_eq _ _ _ |> iff_of_eq

section Rotation
variable {id : Bytes} {vid : UInt64} {s : Session} {w : World}
  (has : s.mapValues[kKeyVid]? = some (decimal vid)) (drawn : w.draws = 1)
  (unset : ∀ key json ttl, .set key json ttl ∉ w.sent)
include has drawn unset

theorem rotationCarries : CarriesVid (store.keyPrefix ++ id) vid
    (request env (rotateCommand store env s w) (newSessionID env w).2).2.sent ↔
      rotatedID env = id ∧ env.exchange w.turn ≠ none := by
  have fresh : (newSessionID env w).1 = rotatedID env := by
    simp [newSessionID, rotatedID, drawn]
  have before : ¬ CarriesVid (store.keyPrefix ++ id) vid (newSessionID env w).2.sent :=
    carriesNothing unset
  rw [rotateCommand, carriesRequest env has, fresh, keyInj]
  simp only [before, false_or]
  exact and_comm

theorem rotationBreach (saving : Saving s) (named : s.sID = id)
    (kept : ¬ (s.destroyed = true ∨ s.mapValues.isEmpty = true)) :
    CarriesVid (store.keyPrefix ++ id) vid (autoSaveWorld store env (rotate store env s w).session
      (rotate store env s w).world).sent ↔ Breach store env id w.turn := by
  have rotation : CarriesVid (store.keyPrefix ++ id) vid _ ↔ _ :=
    rotationCarries store env has drawn unset
  cases stored : acknowledged (env.exchange w.turn) with
  | true =>
    obtain ⟨clean, more, log, only⟩ := rotateStored store env kept stored
    have afterwards : ¬ CarriesVid (store.keyPrefix ++ id) vid more :=
      carriesNothing fun key json ttl inMore => Command.noConfusion (only _ inMore)
    rw [autoSaveWorld, if_neg (by simp [clean]), log, carriesAppend, rotation]
    simp [Breach, stored, afterwards]
  | false =>
    rw [rotateFailed store env saving.dirty kept stored]
    cases auto : store.autoSave with
    | false =>
      rw [autoSaveWorld, if_neg (by simp [auto]), rotation]
      simp [Breach, auto]
    | true =>
      rw [autoSaveWorld, if_pos ⟨auto, saving.dirty⟩, saveSends store env saving, saveCommand,
        if_neg kept, carriesRequest env has, rotation, requestTurn, named]
      simp [Breach, stored, auto, newSessionID]

end Rotation

theorem acceptedCarries {id : Bytes} {s : Session} {w : World} (named : id ≠ [])
    (loaded : Loaded id s w) {form : Option Values} {service : Bytes → Bytes → Option LoginRsp}
    {rsp : LoginRsp} (accepts : accepted form service = some rsp) :
    CarriesVid (store.keyPrefix ++ id) rsp.vid
        (runChain store env (login store env rng form service) s w).world.sent ↔
      Breach store env id w.turn := by
  rcases loginCases store env rng form service s w with ⟨other, accepts', answer, ran⟩ | ⟨refused, _⟩
  · cases Option.some.inj (accepts.symm.trans accepts')
    have drawn : (newToken env rng w).2.draws = 1 := by simp [newToken, loaded.undrawn]
    obtain ⟨sID, dirty, isNew, loadOK⟩ := loginValuesFrame s rsp.vid rsp.username (newToken env rng w).1
    have saving : Saving (loginValues s rsp.vid rsp.username (newToken env rng w).1) :=
      ⟨dirty, by rw [isNew, loadOK]; exact loaded.allowed, by rw [sID, loaded.named]; exact named⟩
    rw [runChainWorld store env ran]
    exact rotationBreach store env (loginValuesVid s rsp.vid rsp.username _) drawn loaded.unset
      saving (sID.trans loaded.named) (loginValuesKept loaded.alive rsp.vid rsp.username _)
  · rw [accepts] at refused
    cases refused

/- The login data stays out of the pre-login key exactly when the login is not
accepted or nothing breaches the rotation. -/
theorem loginKeepsOutIff {cookie oldID : Bytes} (form : Option Values)
    (service : Bytes → Bytes → Option LoginRsp)
    (verified : parseSignedCookie store cookie = some oldID) :
    KeepsOut store oldID form service
        (sessions store env cookie (login store env rng form service) .start) ↔
      (accepted form service ≠ none →
        ¬ Breach store env oldID (initLoad store env cookie .start).2.turn) := by
  have loaded := initLoaded store env verified
  have named := verifiedNamed store verified
  unfold KeepsOut sessions
  cases accepts : accepted form service with
  | none => simp
  | some rsp =>
    have carries := acceptedCarries store env rng named loaded accepts
    simp [carries]

end Login

def visitorForm : Option Values :=
  some (((∅ : Values).insert (bytes "username") (bytes "ann")).insert (bytes "password") (bytes "pw"))

def annLogsIn (_ _ : Bytes) : Option LoginRsp := some ⟨0, 7, bytes "ann"⟩

def anonymous : Reply := ⟨0, .string, bytes "\x7b\"csrf\":\"t\"\x7d"⟩
def ok : Reply := ⟨0, .status, bytes "OK"⟩
def healthy : Environment := ⟨fun n => some (if n = 0 then anonymous else ok), fun _ _ => 0⟩
def oneRefusal : Environment :=
  ⟨fun n => some (if n = 0 then anonymous else if n = 1 then ⟨1, .status, bytes "ERR"⟩ else ok), fun _ _ => 0⟩

theorem healthyLoginKeepsOut : KeepsOut defaultStore visitorID visitorForm annLogsIn
    (sessions defaultStore healthy visitorCookie
      (login defaultStore healthy (fun _ => true) visitorForm annLogsIn) .start) :=
  (loginKeepsOutIff defaultStore healthy (fun _ => true) visitorForm annLogsIn visitorVerified).mpr fun _ => by
    unfold Breach
    decide

theorem refusedRotationBreaches :
    parseSignedCookie defaultStore visitorCookie = some visitorID ∧
    kKeyVid ∉ (initLoad defaultStore oneRefusal visitorCookie .start).1.mapValues ∧
    ¬ KeepsOut defaultStore visitorID visitorForm annLogsIn
      (sessions defaultStore oneRefusal visitorCookie
        (login defaultStore oneRefusal (fun _ => true) visitorForm annLogsIn) .start) := by
  have verified := visitorVerified
  have accepts : accepted visitorForm annLogsIn = some ⟨0, 7, bytes "ann"⟩ := by decide
  have carries := acceptedCarries defaultStore oneRefusal (fun _ => true) (verifiedNamed defaultStore verified)
    (initLoaded defaultStore oneRefusal verified) accepts
  have breach : Breach defaultStore oneRefusal visitorID
      (initLoad defaultStore oneRefusal visitorCookie .start).2.turn := .inr (by decide)
  exact ⟨verified, by decide, fun keeps => keeps _ accepts (carries.mpr breach)⟩

end Uco.LoginSession
