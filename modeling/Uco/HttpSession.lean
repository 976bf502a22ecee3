import Uco.SessionJson

/-! The HTTP session over Redis: load, the in-memory operations, Save, Rotate and
the middleware with its auto save. Every Redis command may find no connection or
get any reply. -/
namespace Uco.HttpSession
open SessionJson

inductive ReplyType where
  | nil | string | status | integer | array
  deriving DecidableEq, Repr

structure Reply where
  retCode : Int
  type : ReplyType
  str : Bytes
  deriving DecidableEq, Repr

def Reply.isOK (reply : Reply) : Bool :=
  reply.retCode = 0 ∧ reply.type = .status ∧ reply.str = bytes "OK"

inductive Command where
  | get (key : Bytes)
  | set (key json : Bytes) (ttl : Int)
  | del (key : Bytes)
  | expire (key : Bytes) (ttl : Int)
  deriving DecidableEq, Repr

/- A Set-Cookie with SameSite=Lax, as given to HttpContext::SetCookie. -/
structure SetCookie where
  name : Bytes
  value : Bytes
  maxAge : Int
  path : Bytes
  domain : Bytes
  secure : Bool
  httpOnly : Bool
  deriving DecidableEq, Repr

/- The store's configuration; `signID` is the keyed hash of an id in hex. -/
structure SessionStore where
  keyPrefix : Bytes
  cookieName : Bytes
  flashKey : Bytes
  maxAge : Int
  maxAnonymousAge : Int
  cookiePath : Bytes
  cookieDomain : Bytes
  secure : Bool
  httpOnly : Bool
  autoSave : Bool
  sliding : Bool
  signID : Bytes → Bytes

/- What lies outside: the n-th Acquire finds no connection, or finds one and the
command sent on it gets a reply; the n-th random draw. -/
structure Environment where
  exchange : Nat → Option Reply
  random : Nat → Nat → UInt8

structure World where
  turn : Nat
  draws : Nat
  sent : List Command
  cookies : List SetCookie
  deriving DecidableEq, Repr

def World.start : World := ⟨0, 0, [], []⟩

structure Session where
  sID : Bytes
  mapValues : Values
  maxAgeOverride : Int
  isNew : Bool
  written : Bool
  loadOK : Bool
  destroyed : Bool

def Session.fresh : Session := ⟨[], ∅, -1, true, false, false, false⟩

structure Result where
  ok : Bool
  session : Session
  world : World

section Store
variable (store : SessionStore) (env : Environment)

def request (command : Command) (w : World) : Option Reply × World :=
  match env.exchange w.turn with
  | none => (none, { w with turn := w.turn + 1 })
  | some reply => (some reply, { w with turn := w.turn + 1, sent := w.sent ++ [command] })

inductive LoadResult where
  | ok (raw : Bytes)
  | missing
  | error
  deriving DecidableEq, Repr

def loadValues (id : Bytes) (w : World) : LoadResult × World :=
  match request env (.get (store.keyPrefix ++ id)) w with
  | (none, w) => (.error, w)
  | (some reply, w) =>
    if reply.retCode ≠ 0 then (.error, w)
    else if reply.type = .nil then (.missing, w)
    else (.ok reply.str, w)

def ttlOf (ttl : Int) : Int := if ttl ≤ 0 then store.maxAge else ttl

def saveValues (id json : Bytes) (ttl : Int) (w : World) : Bool × World :=
  match request env (.set (store.keyPrefix ++ id) json (ttlOf store ttl)) w with
  | (none, w) => (false, w)
  | (some reply, w) => (reply.isOK, w)

def removeKey (id : Bytes) (w : World) : Bool × World :=
  match request env (.del (store.keyPrefix ++ id)) w with
  | (none, w) => (false, w)
  | (some reply, w) => (reply.retCode = 0, w)

def touchTTL (id : Bytes) (ttl : Int) (w : World) : Bool × World :=
  match request env (.expire (store.keyPrefix ++ id) (ttlOf store ttl)) w with
  | (none, w) => (false, w)
  | (some reply, w) => (reply.retCode = 0, w)

def newSessionID (w : World) : Bytes × World :=
  (hexOf ((List.range 16).map (env.random w.draws)), { w with draws := w.draws + 1 })

def dotByte : UInt8 := 46

def parseSignedCookie (cookie : Bytes) : Option Bytes :=
  let sig := (cookie.reverse.takeWhile (· ≠ dotByte)).reverse
  match cookie.reverse.dropWhile (· ≠ dotByte) with
  | [] => none
  | _ :: front =>
    let id := front.reverse
    if id = [] ∨ sig = [] then none
    else if id.all (fun c => (hexValue c).isSome) = false then none
    else if sig = store.signID id then some id
    else none

end Store

section Memory
variable (store : SessionStore)

def get (s : Session) (key : Bytes) : Bytes := (s.mapValues[key]?).getD []

def set (s : Session) (key value : Bytes) : Session :=
  { s with mapValues := s.mapValues.insert key value, written := true }

def delete (s : Session) (key : Bytes) : Session :=
  if key ∈ s.mapValues then { s with mapValues := s.mapValues.erase key, written := true } else s

def clear (s : Session) : Session :=
  if s.mapValues.isEmpty then s else { s with mapValues := ∅, written := true }

def flashKeyOf (inkey : Bytes) : Bytes := if inkey = [] then store.flashKey else inkey

def addFlash (s : Session) (value inkey : Bytes) : Session :=
  let key := flashKeyOf store inkey
  let items := (parseFlashArray (get s key)).2
  set s key (dumpFlashArray (items ++ [value]))

def flashes (s : Session) (inkey : Bytes) : List Bytes × Session :=
  let key := flashKeyOf store inkey
  match parseFlashArray (get s key) with
  | (false, _) => ([], s)
  | (true, items) => (items, delete s key)

def setMaxAge (s : Session) (seconds : Int) : Session :=
  if seconds < 0 then { s with destroyed := true, written := true }
  else { s with maxAgeOverride := seconds, written := true }

def destroy (s : Session) : Session := { s with destroyed := true, written := true }

def effectiveMaxAge (s : Session) : Int :=
  if s.maxAgeOverride ≥ 0 then s.maxAgeOverride else store.maxAge

end Memory

section Save
variable (store : SessionStore) (env : Environment)

def setCookie (value : Bytes) (maxAge : Int) (w : World) : World :=
  { w with cookies := w.cookies ++ [⟨store.cookieName, value, maxAge, store.cookiePath,
      store.cookieDomain, store.secure, store.httpOnly⟩] }

def writeCookie (s : Session) (maxAge : Int) (w : World) : World :=
  setCookie store (s.sID ++ dotByte :: store.signID s.sID) maxAge w

def expireCookie (w : World) : World := setCookie store [] (-1) w

def loadedSession (id : Bytes) : LoadResult → Session
  | .ok raw =>
    match parseSessionJson raw with
    | (true, kv) => { Session.fresh with sID := id, mapValues := kv, isNew := false, loadOK := true }
    -- damaged data is taken as expired; the parser has already written its members
    | (false, kv) => { Session.fresh with sID := id, mapValues := kv }
  | .missing => { Session.fresh with sID := id }
  | .error => { Session.fresh with sID := id }

def initLoad (cookie : Bytes) (w : World) : Session × World :=
  if cookie = [] then (.fresh, w)
  else
    match parseSignedCookie store cookie with
    | none => (.fresh, w)
    | some id =>
      let (loaded, w) := loadValues store env id w
      let s := loadedSession id loaded
      if store.sliding ∧ s.isNew = false then
        (s, (touchTTL store env s.sID (effectiveMaxAge store s) w).2)
      else (s, w)

def expired (s : Session) (w : World) : Result :=
  ⟨true, { s with sID := [], isNew := true, loadOK := false, destroyed := false }, expireCookie store w⟩

def persist (s : Session) (w : World) : Result :=
  let age := effectiveMaxAge store s
  match saveValues store env s.sID (dumpSessionJson s.mapValues) age w with
  | (false, w) => ⟨false, s, w⟩
  | (true, w) => ⟨true, s, writeCookie store s age w⟩

def save (s : Session) (w : World) : Result :=
  if s.written = false then ⟨true, s, w⟩
  else if s.isNew = false ∧ s.loadOK = false then ⟨false, s, w⟩
  else
    let s := { s with written := false }
    if s.destroyed ∨ s.mapValues.isEmpty then
      if s.sID = [] then expired store s w
      else
        match removeKey store env s.sID w with
        | (false, w) => ⟨false, s, w⟩
        | (true, w) => expired store s w
    else if s.sID = [] then
      let (id, w) := newSessionID env w
      persist store env { s with sID := id } w
    else persist store env s w

def restore (before after : Session) : Session :=
  { after with
    sID := before.sID
    isNew := before.isNew
    written := before.written
    maxAgeOverride := before.maxAgeOverride }

def rotate (s : Session) (w : World) : Result :=
  let (id, w) := newSessionID env w
  let saved := save store env
    { s with sID := id, isNew := true, written := true, maxAgeOverride := -1 } w
  if saved.ok = false then
    ⟨false, restore s saved.session, saved.world⟩
  else if s.sID = [] then saved
  else { saved with world := (removeKey store env s.sID saved.world).2 }

/- What the middleware leaves behind; `autoSaved` is what its own Save returned. -/
structure Handled (Answer : Type) where
  answer : Option Answer
  autoSaved : Option Bool
  session : Session
  world : World

def runChain {Answer : Type} (chain : Session → World → Option Answer × Session × World)
    (s : Session) (w : World) : Handled Answer :=
  match chain s w with
  | (none, s, w) => ⟨none, none, s, w⟩
  | (some answer, s, w) =>
    if store.autoSave ∧ s.written then
      let saved := save store env s w
      ⟨some answer, some saved.ok, saved.session, saved.world⟩
    else ⟨some answer, none, s, w⟩

def autoSaveWorld (s : Session) (w : World) : World :=
  if store.autoSave ∧ s.written then (save store env s w).world else w

theorem runChainWorld {Answer : Type} {chain : Session → World → Option Answer × Session × World}
    {s ended : Session} {w after : World} {answer : Answer} (ran : chain s w = (some answer, ended, after)) :
    (runChain store env chain s w).world = autoSaveWorld store env ended after := by
  rw [runChain, ran, autoSaveWorld]
  simp only
  split <;> rfl

def sessions {Answer : Type} (cookie : Bytes)
    (chain : Session → World → Option Answer × Session × World) (w : World) : Handled Answer :=
  let loaded := initLoad store env cookie w
  runChain store env chain loaded.1 loaded.2

theorem verifiedNamed {cookie id : Bytes} (verified : parseSignedCookie store cookie = some id) :
    id ≠ [] := by
  unfold parseSignedCookie at verified
  split at verified
  · cases verified
  · simp only at verified
    split at verified
    · cases verified
    · rename_i parts
      split at verified
      · cases verified
      · split at verified
        · cases verified
          exact fun empty => parts (.inl empty)
        · cases verified

theorem saveClean {s : Session} (clean : s.written = false) (w : World) :
    save store env s w = ⟨true, s, w⟩ := by
  simp [save, clean]

theorem requestNone {w : World} (refused : env.exchange w.turn = none) (command : Command) :
    request env command w = (none, { w with turn := w.turn + 1 }) := by
  simp [request, refused]

theorem requestSome {w : World} {reply : Reply} (found : env.exchange w.turn = some reply)
    (command : Command) : request env command w =
      (some reply, { w with turn := w.turn + 1, sent := w.sent ++ [command] }) := by
  simp [request, found]

theorem requestLog (command : Command) (w : World) : ∃ more,
    (request env command w).2.sent = w.sent ++ more ∧ ∀ c ∈ more, c = command := by
  cases found : env.exchange w.turn with
  | none => exact ⟨[], by simp [requestNone env found], by simp⟩
  | some reply => exact ⟨[command], by simp [requestSome env found], by simp⟩

theorem requestGrows (command : Command) (w : World) :
    w.sent <+: (request env command w).2.sent := by
  obtain ⟨more, log, _⟩ := requestLog env command w
  exact ⟨more, log.symm⟩

theorem requestSent (command : Command) (w : World) :
    ∀ c ∈ (request env command w).2.sent, c ∈ w.sent ∨ c = command := by
  intro c inLog
  obtain ⟨more, log, only⟩ := requestLog env command w
  rw [log] at inLog
  exact (List.mem_append.mp inLog).imp_right (only c)

theorem requestTurn (command : Command) (w : World) :
    (request env command w).2.turn = w.turn + 1 := by
  cases found : env.exchange w.turn with
  | none => rw [requestNone env found]
  | some reply => rw [requestSome env found]

theorem loadValuesWorld (id : Bytes) (w : World) :
    (loadValues store env id w).2 = (request env (.get (store.keyPrefix ++ id)) w).2 := by
  unfold loadValues
  cases found : request env (.get (store.keyPrefix ++ id)) w with
  | mk reply w =>
    cases reply with
    | none => rfl
    | some reply =>
      simp only
      split
      · rfl
      · split <;> rfl

theorem touchTTLWorld (id : Bytes) (ttl : Int) (w : World) : (touchTTL store env id ttl w).2 =
    (request env (.expire (store.keyPrefix ++ id) (ttlOf store ttl)) w).2 := by
  unfold touchTTL
  cases found : request env (.expire (store.keyPrefix ++ id) (ttlOf store ttl)) w with
  | mk reply w => cases reply <;> rfl

theorem saveValuesWorld (id json : Bytes) (ttl : Int) (w : World) :
    (saveValues store env id json ttl w).2 =
      (request env (.set (store.keyPrefix ++ id) json (ttlOf store ttl)) w).2 := by
  unfold saveValues
  cases found : request env (.set (store.keyPrefix ++ id) json (ttlOf store ttl)) w with
  | mk reply w => cases reply <;> rfl

theorem removeKeyWorld (id : Bytes) (w : World) :
    (removeKey store env id w).2 = (request env (.del (store.keyPrefix ++ id)) w).2 := by
  unfold removeKey
  cases found : request env (.del (store.keyPrefix ++ id)) w with
  | mk reply w => cases reply <;> rfl

theorem expiredSent (s : Session) (w : World) : (expired store s w).world.sent = w.sent := rfl

theorem persistSent (s : Session) (w : World) : (persist store env s w).world.sent =
    (request env (.set (store.keyPrefix ++ s.sID) (dumpSessionJson s.mapValues)
      (ttlOf store (effectiveMaxAge store s))) w).2.sent := by
  rw [← saveValuesWorld, persist]
  split <;> rename_i same <;> simp [same, writeCookie, setCookie]

theorem saveGrows (s : Session) (w : World) : w.sent <+: (save store env s w).world.sent := by
  have deleted (id : Bytes) := removeKeyWorld store env id w ▸
    requestGrows env (.del (store.keyPrefix ++ id)) w
  unfold save
  split
  · exact List.prefix_refl _
  · split
    · exact List.prefix_refl _
    · simp only
      split
      · split
        · exact List.prefix_refl _
        · have grown := deleted s.sID
          split <;> rename_i same <;> rw [same] at grown <;> exact grown
      · split
        · rw [persistSent]
          exact requestGrows env _ (newSessionID env w).2
        · rw [persistSent]
          exact requestGrows env _ w

def saveCommand (s : Session) : Command :=
  if s.destroyed ∨ s.mapValues.isEmpty then .del (store.keyPrefix ++ s.sID)
  else .set (store.keyPrefix ++ s.sID) (dumpSessionJson s.mapValues)
    (ttlOf store (effectiveMaxAge store s))

structure Saving (s : Session) : Prop where
  dirty : s.written = true
  allowed : ¬ (s.isNew = false ∧ s.loadOK = false)
  named : s.sID ≠ []

theorem saveSends {s : Session} (saving : Saving s) (w : World) :
    (save store env s w).world.sent = (request env (saveCommand store s) w).2.sent := by
  have removed := removeKeyWorld store env s.sID w
  simp only [save, saving.dirty, saving.allowed, saving.named, Bool.true_eq_false, if_false]
  by_cases gone : s.destroyed ∨ s.mapValues.isEmpty
  · rw [if_pos gone, saveCommand, if_pos gone, ← removed]
    split <;> rename_i same <;> simp [same, expiredSent]
  · rw [if_neg gone, saveCommand, if_neg gone, persistSent]
    rfl

theorem saveRefused {s : Session} (saving : Saving s) {w : World}
    (refused : env.exchange w.turn = none) :
    save store env s w = ⟨false, { s with written := false }, { w with turn := w.turn + 1 }⟩ := by
  simp only [save, saving.dirty, saving.allowed, saving.named, Bool.true_eq_false, if_false]
  by_cases gone : s.destroyed ∨ s.mapValues.isEmpty
  · rw [if_pos gone]
    simp [removeKey, requestNone env refused]
  · rw [if_neg gone]
    simp [persist, saveValues, requestNone env refused]

def acknowledged (exchange : Option Reply) : Bool := exchange.any Reply.isOK

theorem saveValuesOk (id json : Bytes) (ttl : Int) (w : World) :
    (saveValues store env id json ttl w).1 = acknowledged (env.exchange w.turn) := by
  unfold saveValues acknowledged
  cases found : env.exchange w.turn with
  | none => simp [requestNone env found]
  | some reply => simp [requestSome env found]

theorem saveWrites {s : Session} (saving : Saving s)
    (kept : ¬ (s.destroyed = true ∨ s.mapValues.isEmpty = true)) (w : World) :
    save store env s w = persist store env { s with written := false } w := by
  simp only [save, saving.dirty, saving.allowed, saving.named, Bool.true_eq_false, if_false]
  rw [if_neg kept]

theorem persistFailed {s : Session} {w : World} (failed : acknowledged (env.exchange w.turn) = false) :
    persist store env s w = ⟨false, s, (request env (.set (store.keyPrefix ++ s.sID)
      (dumpSessionJson s.mapValues) (ttlOf store (effectiveMaxAge store s))) w).2⟩ := by
  have ok := saveValuesOk store env s.sID (dumpSessionJson s.mapValues) (effectiveMaxAge store s) w
  rw [← saveValuesWorld, persist]
  split <;> rename_i same
  · rw [same]
  · simp [same, failed] at ok

theorem persistStored {s : Session} {w : World} (stored : acknowledged (env.exchange w.turn) = true) :
    persist store env s w = ⟨true, s, writeCookie store s (effectiveMaxAge store s)
      (request env (.set (store.keyPrefix ++ s.sID) (dumpSessionJson s.mapValues)
        (ttlOf store (effectiveMaxAge store s))) w).2⟩ := by
  have ok := saveValuesOk store env s.sID (dumpSessionJson s.mapValues) (effectiveMaxAge store s) w
  rw [← saveValuesWorld, persist]
  split <;> rename_i same
  · simp [same, stored] at ok
  · rw [same]

theorem newSessionIDNamed (w : World) : (newSessionID env w).1 ≠ [] := by
  intro empty
  have size := congrArg List.length empty
  simp [newSessionID] at size

def rotated (s : Session) (w : World) : Session :=
  { s with
    sID := (newSessionID env w).1
    isNew := true
    written := true
    maxAgeOverride := -1 }

def rotateCommand (s : Session) (w : World) : Command :=
  .set (store.keyPrefix ++ (newSessionID env w).1) (dumpSessionJson s.mapValues)
    (ttlOf store store.maxAge)

theorem rotatedSaving (s : Session) (w : World) : Saving (rotated env s w) :=
  ⟨rfl, by simp [rotated], newSessionIDNamed env w⟩

theorem rotateSaves (s : Session) (w : World) : rotate store env s w =
    let saved := save store env (rotated env s w) (newSessionID env w).2
    if saved.ok = false then ⟨false, restore s saved.session, saved.world⟩
    else if s.sID = [] then saved
    else { saved with world := (removeKey store env s.sID saved.world).2 } := rfl

theorem rotateFailed {s : Session} {w : World} (dirty : s.written = true)
    (kept : ¬ (s.destroyed = true ∨ s.mapValues.isEmpty = true))
    (failed : acknowledged (env.exchange w.turn) = false) :
    rotate store env s w =
      ⟨false, s, (request env (rotateCommand store env s w) (newSessionID env w).2).2⟩ := by
  have saved := saveWrites store env (rotatedSaving env s w) kept (newSessionID env w).2
  rw [persistFailed store env (w := (newSessionID env w).2) failed] at saved
  rw [rotateSaves, saved]
  cases s
  cases dirty
  rfl

theorem rotateStored {s : Session} {w : World}
    (kept : ¬ (s.destroyed = true ∨ s.mapValues.isEmpty = true))
    (stored : acknowledged (env.exchange w.turn) = true) :
    (rotate store env s w).session.written = false ∧ ∃ more, (rotate store env s w).world.sent =
      (request env (rotateCommand store env s w) (newSessionID env w).2).2.sent ++ more ∧
      ∀ command ∈ more, command = .del (store.keyPrefix ++ s.sID) := by
  have saved := saveWrites store env (rotatedSaving env s w) kept (newSessionID env w).2
  rw [persistStored store env (w := (newSessionID env w).2) stored] at saved
  rw [rotateSaves, saved]
  simp only [Bool.true_eq_false, if_false]
  split
  · exact ⟨rfl, [], by simp; rfl, by simp⟩
  · rw [removeKeyWorld]
    obtain ⟨more, log, only⟩ := requestLog env (.del (store.keyPrefix ++ s.sID))
      (writeCookie store { rotated env s w with written := false }
        (effectiveMaxAge store { rotated env s w with written := false })
        (request env (rotateCommand store env s w) (newSessionID env w).2).2)
    exact ⟨rfl, more, log, only⟩

structure Loaded (id : Bytes) (s : Session) (w : World) : Prop where
  named : s.sID = id
  clean : s.written = false
  alive : s.destroyed = false
  allowed : ¬ (s.isNew = false ∧ s.loadOK = false)
  undrawn : w.draws = 0
  unset : ∀ key json ttl, .set key json ttl ∉ w.sent

theorem loadedFacts (id : Bytes) (result : LoadResult) :
    (loadedSession id result).sID = id ∧ (loadedSession id result).written = false ∧
    (loadedSession id result).destroyed = false ∧
    ¬ ((loadedSession id result).isNew = false ∧ (loadedSession id result).loadOK = false) := by
  cases result with
  | ok raw =>
    simp only [loadedSession]
    split <;> simp [Session.fresh]
  | missing => simp [loadedSession, Session.fresh]
  | error => simp [loadedSession, Session.fresh]

theorem requestDraws (command : Command) (w : World) : (request env command w).2.draws = w.draws := by
  cases found : env.exchange w.turn with
  | none => rw [requestNone env found]
  | some reply => rw [requestSome env found]

theorem initLoaded {cookie id : Bytes} (verified : parseSignedCookie store cookie = some id) :
    Loaded id (initLoad store env cookie .start).1 (initLoad store env cookie .start).2 := by
  have some : cookie ≠ [] := by
    rintro rfl
    simp [parseSignedCookie] at verified
  obtain ⟨named, clean, alive, allowed⟩ := loadedFacts id (loadValues store env id .start).1
  have read := loadValuesWorld store env id .start
  have unset (key json : Bytes) (ttl : Int) :
      .set key json ttl ∉ (loadValues store env id .start).2.sent := by
    intro inLog
    rw [read] at inLog
    rcases requestSent env _ _ _ inLog with before | same
    · simp [World.start] at before
    · cases same
  have undrawn : (loadValues store env id .start).2.draws = 0 := by rw [read, requestDraws]; rfl
  simp only [initLoad, some, if_false, verified]
  split
  · refine ⟨named, clean, alive, allowed, ?_, ?_⟩
    · rw [touchTTLWorld, requestDraws]; exact undrawn
    · intro key json ttl inLog
      rw [touchTTLWorld] at inLog
      rcases requestSent env _ _ _ inLog with before | same
      · exact unset key json ttl before
      · cases same
  · exact ⟨named, clean, alive, allowed, undrawn, unset⟩

end Save

def visitorID : Bytes := bytes "0123456789abcdef0123456789abcdef"

def defaultStore : SessionStore where
  keyPrefix := bytes "uco:sess:"
  cookieName := bytes "uco_session"
  flashKey := bytes "_flash"
  maxAge := 2592000
  maxAnonymousAge := 600
  cookiePath := bytes "/"
  cookieDomain := []
  secure := false
  httpOnly := true
  autoSave := true
  sliding := false
  signID := fun id => if id = visitorID
    then bytes "2c02514935a4dc35a8d9c90e7c86d983b0a648fc16e99a286ec5ee3ed046a090"
    else []

def visitorCookie : Bytes := visitorID ++ dotByte :: defaultStore.signID visitorID

theorem visitorSigned : defaultStore.signID visitorID ≠ [] := by decide

theorem visitorVerified : parseSignedCookie defaultStore visitorCookie = some visitorID := by decide

end Uco.HttpSession
