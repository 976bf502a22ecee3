import Uco.SavedSession

/-! What a Rotate leaves behind. If it fails the session is the one it was; if it returns
true the data is under the new id and the old key is gone or as it was. -/
namespace Uco.RotatedSession
open SessionJson HttpSession SavedSession

section Redis
variable (env : Environment) (applied : Nat → Bool)

def replay : List Nat → List Command → Redis → Redis
  | t :: turns, command :: commands, redis =>
    if env.exchange t = none then replay turns (command :: commands) redis
    else replay turns commands (if carriedOut env applied t command then execute redis command else redis)
  | _, _, redis => redis

def redisAfter (before after : World) (redis : Redis) : Redis :=
  replay env applied (List.range' before.turn (after.turn - before.turn)) (commandsOf before after) redis

end Redis

def Touches (key : Bytes) : Command → Prop
  | .set other _ _ => other = key
  | .del other => other = key
  | _ => False

section Rotate
variable (store : SessionStore) (env : Environment) (applied : Nat → Bool)

def oldKey (s : Session) : Bytes := store.keyPrefix ++ s.sID
def newKey (w : World) : Bytes := store.keyPrefix ++ (newSessionID env w).1

structure Unchanged (s : Session) (w : World) (result : Result) : Prop where
  session : result.session = s
  cookies : result.world.cookies = w.cookies
  oldKey : (newSessionID env w).1 ≠ s.sID →
    ∀ command ∈ commandsOf w result.world, ¬Touches (oldKey store s) command

structure Moved (s : Session) (w : World) (result : Result) (redis : Redis) : Prop where
  sID : result.session.sID = (newSessionID env w).1
  values : result.session.mapValues = s.mapValues
  stored : (newSessionID env w).1 ≠ s.sID →
    redisAfter env applied w result.world redis (newKey store env w) = some (dumpSessionJson s.mapValues)
  cookie : ∃ cookie, result.world.cookies = w.cookies ++ [cookie] ∧ cookie.name = store.cookieName ∧
    cookie.value = (newSessionID env w).1 ++ dotByte :: store.signID (newSessionID env w).1
  deleted : s.sID ≠ [] → (env.exchange (w.turn + 1)).any (·.retCode = 0) →
    redisAfter env applied w result.world redis (oldKey store s) = none
  kept : s.sID ≠ [] → (newSessionID env w).1 ≠ s.sID →
    redisAfter env applied w result.world redis (oldKey store s) = none ∨
      redisAfter env applied w result.world redis (oldKey store s) = redis (oldKey store s)

theorem keysApart {s : Session} {w : World} (fresh : (newSessionID env w).1 ≠ s.sID) :
    newKey store env w ≠ oldKey store s :=
  fun same => fresh (List.append_cancel_left same)

theorem requestCookies (command : Command) (w : World) : (request env command w).2.cookies = w.cookies := by
  cases found : env.exchange w.turn with
  | none => rw [requestNone env found]
  | some reply => rw [requestSome env found]

theorem rotateOutcome (s : Session) (w : World) :
    (rotate store env s w).ok = (save store env (rotated env s w) (newSessionID env w).2).ok := by
  rw [rotateSaves]
  simp only
  split
  · rename_i failed
    exact failed.symm
  · split <;> rfl

theorem rotateUnchanged {s : Session} {w : World} (failed : (rotate store env s w).ok = false) :
    Unchanged store env s w (rotate store env s w) := by
  have saved := saveSaved store env (rotated env s w) (newSessionID env w).2
  have failed' := failed
  rw [rotateOutcome] at failed'
  rw [rotateSaves]
  simp only [failed', if_true]
  generalize save store env (rotated env s w) (newSessionID env w).2 = result at saved failed' ⊢
  have named := newSessionIDNamed env w
  have writes : writeID env (rotated env s w) (newSessionID env w).2 =
      ((newSessionID env w).1,(newSessionID env w).2) := by rw [writeID, rotated, if_neg named]
  cases saved with
  | clean clean => cases failed'
  | skipped dirty unread => cases unread.1
  | unnamed permitted gone unnamed => exact absurd unnamed named
  | deleted permitted gone named' replied => cases failed'
  | stored permitted kept acked => cases failed'
  | keptKey permitted gone named' refused =>
    refine ⟨rfl,requestCookies env _ _,fun fresh command mem => ?_⟩
    have log := @commandsRequest env w _ (newSessionID env w).2 (delCommand store (rotated env s w)) rfl rfl rfl
    replace mem := log ▸ mem
    split at mem
    · rw [List.mem_singleton.mp mem]
      exact keysApart store env fresh
    · cases mem
  | unstored permitted kept refused =>
    refine ⟨rfl,?_,fun fresh command mem => ?_⟩
    · simp only [writes]
      exact requestCookies env _ _
    · have log := @commandsRequest env w _ (newSessionID env w).2
        (setCommand store (writing env (rotated env s w) (newSessionID env w).2)) rfl rfl rfl
      simp only [writes] at mem
      replace mem := log ▸ mem
      split at mem
      · rw [List.mem_singleton.mp mem]
        simp only [writes, setCommand, writing, Touches]
        exact keysApart store env fresh
      · cases mem

def moveCommand (s : Session) (w : World) : Command :=
  .set (newKey store env w) (dumpSessionJson s.mapValues) (ttlOf store store.maxAge)

theorem redisMoved {before after : World} {command : Command} {reply : Reply}
    (found : env.exchange before.turn = some reply) (carried : carriedOut env applied before.turn command = true)
    (turn : after.turn = before.turn + 1) (log : after.sent = before.sent ++ [command]) (redis : Redis) :
    redisAfter env applied before after redis = execute redis command := by
  have turns : after.turn - before.turn = 1 := by omega
  simp [redisAfter, turns, commandsOf, log, replay, found, carried]

theorem redisMovedTwice {before after : World} {first second : Command} {reply : Reply}
    (found : env.exchange before.turn = some reply) (carried : carriedOut env applied before.turn first = true)
    (turn : after.turn = before.turn + 2)
    (log : after.sent = before.sent ++ first :: if (env.exchange (before.turn + 1)).isSome then [second] else [])
    (redis : Redis) :
    redisAfter env applied before after redis =
      if carriedOut env applied (before.turn + 1) second then execute (execute redis first) second
      else execute redis first := by
  have turns : after.turn - before.turn = 2 := by omega
  cases next : env.exchange (before.turn + 1) with
  | none =>
    have lost : carriedOut env applied (before.turn + 1) second = false := by simp [carriedOut, next]
    simp [redisAfter, turns, commandsOf, log, List.range', replay, found, carried, next, lost]
  | some reply =>
    simp [redisAfter, turns, commandsOf, log, List.range', replay, found, carried, next]

theorem ackedReply {exchange : Option Reply} (acked : acknowledged exchange = true) :
    ∃ reply, exchange = some reply ∧ reply.isOK = true := by
  cases exchange with
  | none => cases acked
  | some reply => exact ⟨reply,rfl,acked⟩

def movedSession (s : Session) (w : World) : Session := { rotated env s w with written := false }

def movedWorld (s : Session) (w : World) : World :=
  writeCookie store (movedSession env s w) store.maxAge
    { (newSessionID env w).2 with turn := w.turn + 1, sent := w.sent ++ [moveCommand store env s w] }

theorem rotateAcked {s : Session} {w : World} {reply : Reply} (kept : ¬Gone s)
    (found : env.exchange w.turn = some reply) (good : reply.isOK = true) :
    rotate store env s w = ⟨true,movedSession env s w,if s.sID = [] then movedWorld store env s w
      else (request env (.del (oldKey store s)) (movedWorld store env s w)).2⟩ := by
  have saved := saveWrites store env (rotatedSaving env s w) kept (newSessionID env w).2
  have acked : acknowledged (env.exchange (newSessionID env w).2.turn) = true := by
    simp [newSessionID, acknowledged, found, good]
  rw [persistStored store env acked] at saved
  rw [requestSome env (w := (newSessionID env w).2) found] at saved
  rw [rotateSaves, saved]
  simp only [Bool.true_eq_false, if_false]
  split
  · rfl
  · rw [removeKeyWorld]
    rfl

theorem rotateMoved {s : Session} {w : World} (ok : (rotate store env s w).ok = true) (kept : ¬Gone s)
    (redis : Redis) : Moved store env applied s w (rotate store env s w) redis := by
  obtain ⟨reply,found,good⟩ : ∃ reply, env.exchange w.turn = some reply ∧ reply.isOK = true := by
    refine ackedReply ?_
    by_contra refused
    have saved := saveWrites store env (rotatedSaving env s w) kept (newSessionID env w).2
    rw [persistFailed store env (w := (newSessionID env w).2) (Bool.eq_false_iff.mpr refused)] at saved
    rw [rotateOutcome, saved] at ok
    cases ok
  have carried : carriedOut env applied w.turn (moveCommand store env s w) = true := by
    simp [carriedOut, found, moveCommand, accepted, good]
  have stored : execute redis (moveCommand store env s w) (newKey store env w) =
      some (dumpSessionJson s.mapValues) := by simp [moveCommand, execute]
  rw [rotateAcked store env kept found good]
  by_cases unnamed : s.sID = []
  · rw [if_pos unnamed]
    refine ⟨rfl,rfl,fun fresh => ?_,⟨_,rfl,rfl,rfl⟩,fun old => absurd unnamed old,fun old => absurd unnamed old⟩
    rw [redisMoved env applied found carried rfl rfl, stored]
  · rw [if_neg unnamed]
    have log : (request env (.del (oldKey store s)) (movedWorld store env s w)).2.sent = w.sent ++
        moveCommand store env s w :: if (env.exchange (w.turn + 1)).isSome then [.del (oldKey store s)] else [] := by
      cases next : env.exchange (w.turn + 1) with
      | none => rw [requestNone env (w := movedWorld store env s w) next]; rfl
      | some reply =>
        rw [requestSome env (w := movedWorld store env s w) next]
        simp [movedWorld, writeCookie, setCookie]
    have turn : (request env (.del (oldKey store s)) (movedWorld store env s w)).2.turn = w.turn + 2 :=
      requestTurn env _ _
    have after := redisMovedTwice env applied found carried turn log redis
    have cookies := requestCookies env (.del (oldKey store s)) (movedWorld store env s w)
    constructor
    case sID => rfl
    case values => rfl
    case stored =>
      intro fresh
      have apart := keysApart store env fresh
      rw [after]
      split
      · simp only [execute, Function.update_of_ne apart]
        exact stored
      · exact stored
    case cookie => exact ⟨_,cookies,rfl,rfl⟩
    case deleted =>
      intro _ acked
      have gone : carriedOut env applied (w.turn + 1) (.del (oldKey store s)) = true := by
        cases next : env.exchange (w.turn + 1) with
        | none => simp [next] at acked
        | some reply =>
          rw [next] at acked
          simp only [carriedOut, next, accepted]
          simpa using Or.inl acked
      rw [after, if_pos gone]
      simp [execute]
    case kept =>
      intro _ fresh
      have apart := keysApart store env fresh
      rw [after]
      split
      · left
        simp [execute]
      · right
        simp only [moveCommand, execute]
        exact Function.update_of_ne apart.symm _ _

theorem rotateAllOrNothing (s : Session) (w : World) (redis : Redis) :
    ((rotate store env s w).ok = false → Unchanged store env s w (rotate store env s w)) ∧
      ((rotate store env s w).ok = true → ¬Gone s →
        Moved store env applied s w (rotate store env s w) redis) :=
  ⟨rotateUnchanged store env,fun ok kept => rotateMoved store env applied ok kept redis⟩

end Rotate
end Uco.RotatedSession
