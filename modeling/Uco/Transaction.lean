import Mathlib.Data.List.Basic

/-! A transaction over the nonblocking MySQL client. The environment decides how every
poll of a call ends; the server session and the replies still to be read are kept beside
the handle, so that a leak can be seen. -/
namespace Uco.Transaction

structure Reply where
  fieldCount : Nat
  affectedRows : Nat
  insertId : Nat
  warnings : Nat
  inTransaction : Bool
  deriving DecidableEq, Repr

structure Failure where
  errno : Nat
  message : String
  sqlState : String
  inTransaction : Bool
  unread : Bool
  deriving DecidableEq, Repr

/- The time left, the fd and the result of wait_fd when a call is not ready. -/
structure Pause where
  remain : Int
  fd : Int
  wait : Int
  deriving DecidableEq, Repr

inductive Poll where
  | complete (reply : Reply)
  | error (failure : Failure)
  | notReady (pause : Pause)
  deriving DecidableEq, Repr

inductive Ending where
  | complete (reply : Reply)
  | error (failure : Failure)
  | timedOut
  | waitFailed (r : Int)
  deriving DecidableEq, Repr

structure Exchange where
  query : List Poll
  store : List Poll
  deriving DecidableEq, Repr

def eIo : Int := 5
def eTime : Int := 62
def crServerLost : Nat := 2013
def kBadArgument : Int := -200
def kTimeout : Int := -201

structure Mysql where
  lastErrno : Nat
  lastError : String
  sqlState : String
  fieldCount : Nat
  affectedRows : Nat
  insertId : Nat
  warnings : Nat
  inTransaction : Bool
  outstanding : Nat
  deriving DecidableEq, Repr

structure StmtResult where
  affectedRows : Nat
  insertId : Nat
  warnings : Nat
  ok : Bool
  deriving DecidableEq, Repr

structure TxnResult where
  retCode : Int
  errMsg : String
  sqlState : String
  committed : Bool
  stmtResults : List StmtResult
  deriving DecidableEq, Repr

def TxnResult.fresh : TxnResult := ⟨0,"","",false,[]⟩

section Calls

def Ending.code : Ending → Int
  | .complete _ => 0
  | .error _ => -eIo
  | .timedOut => -eTime
  | .waitFailed r => r

/- await_call; without an answer it is still waiting when the polls run out. -/
def awaitCall (hasDeadline : Bool) : List Poll → Option Ending
  | [] => none
  | .complete reply :: _ => some (.complete reply)
  | .error failure :: _ => some (.error failure)
  | .notReady pause :: polls =>
    if hasDeadline = true ∧ pause.remain ≤ 0 then some .timedOut
    else if pause.fd ≤ 0 then awaitCall hasDeadline polls
    else if pause.wait < 0 then
      if pause.wait = -eTime then some .timedOut else some (.waitFailed pause.wait)
    else awaitCall hasDeadline polls

def control (sql : String) : Bool := sql = "BEGIN" ∨ sql = "COMMIT" ∨ sql = "ROLLBACK"

def sessionAfter (sql : String) (done : Bool) (before reported : Bool) : Bool :=
  if sql = "BEGIN" then if done then true else before
  else if done ∧ (sql = "COMMIT" ∨ sql = "ROLLBACK") then false
  else reported

def fail (mysql : Mysql) (failure : Failure) : Mysql :=
  { mysql with
    lastErrno := failure.errno
    lastError := failure.message
    sqlState := failure.sqlState
    outstanding := if 2000 ≤ failure.errno ∧ failure.unread = true then mysql.outstanding
      else mysql.outstanding - 1 }

def afterQuery (sql : String) (mysql : Mysql) (ending : Ending) : Mysql :=
  let mysql := { mysql with outstanding := mysql.outstanding + 1 }
  match ending with
  | .complete reply =>
    let fieldCount := if control sql then 0 else reply.fieldCount
    { mysql with
      lastErrno := 0, lastError := "", sqlState := "00000"
      fieldCount := fieldCount
      affectedRows := reply.affectedRows, insertId := reply.insertId, warnings := reply.warnings
      inTransaction := sessionAfter sql true mysql.inTransaction reply.inTransaction
      outstanding := if fieldCount = 0 then mysql.outstanding - 1 else mysql.outstanding }
  | .error failure =>
    { fail mysql failure with
      inTransaction := sessionAfter sql false mysql.inTransaction failure.inTransaction }
  | _ => mysql

def afterStore (mysql : Mysql) : Ending → Mysql
  | .complete _ =>
    { mysql with
      lastErrno := 0, lastError := "", sqlState := "00000", outstanding := mysql.outstanding - 1 }
  | .error failure => { fail mysql failure with inTransaction := failure.inTransaction }
  | _ => mysql

def txnQuery (hasDeadline : Bool) (mysql : Mysql) (sql : String) (exchange : Exchange) :
    Option (Int × Mysql) :=
  match awaitCall hasDeadline exchange.query with
  | none => none
  | some ending =>
    let mysql := afterQuery sql mysql ending
    if ending.code ≠ 0 then some (ending.code, mysql)
    else if mysql.fieldCount > 0 then
      match awaitCall hasDeadline exchange.store with
      | none => none
      | some ending => some (ending.code, afterStore mysql ending)
    else some (0, mysql)

end Calls

section Transactions

def fillError (txn : TxnResult) (mysql : Mysql) (r : Int) : TxnResult × Mysql :=
  if r = -eTime then
    ({ txn with retCode := kTimeout, errMsg := "usql: operation timeout" },
      { mysql with
        lastErrno := crServerLost
        lastError := "usql: operation timeout, stream desynced" })
  else
    ({ txn with retCode := -(mysql.lastErrno : Int), errMsg := mysql.lastError, sqlState := mysql.sqlState },
      mysql)

def rollBack (hasDeadline : Bool) (txn : TxnResult) (mysql : Mysql) (rollback : Exchange) :
    Option (TxnResult × Mysql) :=
  (txnQuery hasDeadline mysql "ROLLBACK" rollback).map fun (_, mysql) => (txn, mysql)

def commit (hasDeadline : Bool) (txn : TxnResult) (mysql : Mysql) (closing rollback : Exchange) :
    Option (TxnResult × Mysql) :=
  match txnQuery hasDeadline mysql "COMMIT" closing with
  | none => none
  | some (r, mysql) =>
    if r ≠ 0 then
      let (txn, mysql) := fillError txn mysql r
      rollBack hasDeadline txn mysql rollback
    else some ({ txn with committed := true }, mysql)

def statements (hasDeadline : Bool) (txn : TxnResult) (mysql : Mysql) (closing rollback : Exchange) :
    List (String × Exchange) → Option (TxnResult × Mysql)
  | [] => commit hasDeadline txn mysql closing rollback
  | (sql, exchange) :: sqls =>
    match txnQuery hasDeadline mysql sql exchange with
    | none => none
    | some (r, mysql) =>
      if r ≠ 0 then
        let (txn, mysql) := fillError txn mysql r
        rollBack hasDeadline { txn with stmtResults := txn.stmtResults ++ [⟨0,0,0,false⟩] } mysql rollback
      else
        statements hasDeadline { txn with
          stmtResults := txn.stmtResults ++ [⟨mysql.affectedRows,mysql.insertId,mysql.warnings,true⟩] }
          mysql closing rollback sqls

structure Script where
  opening : Exchange
  sqls : List (String × Exchange)
  closing : Exchange
  rollback : Exchange
  deriving DecidableEq, Repr

def utransaction (hasDeadline : Bool) (mysql : Mysql) (script : Script) : Option (TxnResult × Mysql) :=
  match txnQuery hasDeadline mysql "BEGIN" script.opening with
  | none => none
  | some (r, mysql) =>
    if r ≠ 0 then some (fillError .fresh mysql r)
    else statements hasDeadline .fresh mysql script.closing script.rollback script.sqls

def broken (mysql : Mysql) : Prop := 2000 ≤ mysql.lastErrno

def Clean (mysql : Mysql) : Prop := mysql.inTransaction = false ∧ mysql.outstanding = 0

end Transactions

section Endings
variable {hasDeadline : Bool}

def lastEnding (hasDeadline : Bool) (sql : String) (exchange : Exchange) : Option Ending :=
  match awaitCall hasDeadline exchange.query with
  | some (.complete reply) =>
    if control sql = true ∨ reply.fieldCount = 0 then some (.complete reply)
    else awaitCall hasDeadline exchange.store
  | ending => ending

def firstFailure (hasDeadline : Bool) : List (String × Exchange) → Option Ending
  | [] => none
  | (sql, exchange) :: sqls =>
    match lastEnding hasDeadline sql exchange with
    | some (.complete _) => firstFailure hasDeadline sqls
    | ending => ending

def leavesReply : Ending → Bool
  | .complete _ => false
  | .error failure => 2000 ≤ failure.errno ∧ failure.unread = true
  | _ => true

def errnoAfter (old : Nat) : Ending → Nat
  | .complete _ => 0
  | .error failure => failure.errno
  | _ => old

def controlAfter (sql : String) (before : Bool) : Ending → Bool
  | .complete reply => sessionAfter sql true before reply.inTransaction
  | .error failure => sessionAfter sql false before failure.inTransaction
  | _ => before

theorem awaitCode {polls : List Poll} {ending : Ending} (ended : awaitCall hasDeadline polls = some ending) :
    ending.code = 0 ↔ ∃ reply, ending = .complete reply := by
  induction polls with
  | nil => cases ended
  | cons poll polls ih =>
    cases poll with
    | complete reply => cases ended; simp [Ending.code]
    | error failure => cases ended; simp [Ending.code, eIo]
    | notReady pause =>
      simp only [awaitCall] at ended
      split at ended
      · cases ended; simp [Ending.code, eTime]
      · split at ended
        · exact ih ended
        · split at ended
          · rename_i failed
            split at ended
            · cases ended; simp [Ending.code, eTime]
            · cases ended
              simp only [Ending.code, reduceCtorEq, exists_false, iff_false]
              omega
          · exact ih ended

theorem awaitTimedOut {polls : List Poll} {ending : Ending}
    (ended : awaitCall hasDeadline polls = some ending) : ending.code = -eTime ↔ ending = .timedOut := by
  induction polls with
  | nil => cases ended
  | cons poll polls ih =>
    cases poll with
    | complete reply => cases ended; simp [Ending.code, eTime]
    | error failure => cases ended; simp [Ending.code, eIo, eTime]
    | notReady pause =>
      simp only [awaitCall] at ended
      split at ended
      · cases ended; simp [Ending.code]
      · split at ended
        · exact ih ended
        · split at ended
          · split at ended
            · cases ended; simp [Ending.code]
            · rename_i other
              cases ended
              simpa [Ending.code] using other
          · exact ih ended

structure Ended (sql : String) (mysql mysql' : Mysql) (ending : Ending) : Prop where
  outstanding : mysql'.outstanding = mysql.outstanding + (leavesReply ending).toNat
  errno : mysql'.lastErrno = errnoAfter mysql.lastErrno ending ∨
    control sql = false ∧ mysql'.lastErrno = errnoAfter 0 ending
  session : control sql = true → mysql'.inTransaction = controlAfter sql mysql.inTransaction ending
  complete : ending.code = 0 ↔ ∃ reply, ending = .complete reply
  timedOut : ending.code = -eTime ↔ ending = .timedOut

theorem failOutstanding {mysql : Mysql} {failure : Failure} {n : Nat} (sent : mysql.outstanding = n + 1) :
    (fail mysql failure).outstanding = n + (leavesReply (.error failure)).toNat := by
  simp only [fail, leavesReply]
  split <;> rename_i unread <;> simp [unread, sent]

theorem queryFails {mysql : Mysql} {sql : String} {polls : List Poll} {ending : Ending}
    (ended : awaitCall hasDeadline polls = some ending) (failed : ending.code ≠ 0) :
    Ended sql mysql (afterQuery sql mysql ending) ending := by
  refine ⟨?_,.inl ?_,fun _ => ?_,awaitCode ended,awaitTimedOut ended⟩
  · cases ending <;> simp_all [afterQuery, leavesReply, Ending.code, failOutstanding]
  · cases ending <;> simp_all [afterQuery, errnoAfter, Ending.code, fail]
  · cases ending <;> simp_all [afterQuery, controlAfter, Ending.code, fail]

theorem queryEnded {mysql mysql' : Mysql} {sql : String} {exchange : Exchange} {r : Int}
    (returned : txnQuery hasDeadline mysql sql exchange = some (r, mysql')) :
    ∃ ending, lastEnding hasDeadline sql exchange = some ending ∧ r = ending.code ∧
      Ended sql mysql mysql' ending := by
  unfold txnQuery at returned
  cases ended : awaitCall hasDeadline exchange.query with
  | none => simp [ended] at returned
  | some ending =>
    simp only [ended] at returned
    by_cases failed : ending.code ≠ 0
    · rw [if_pos failed] at returned
      cases returned
      refine ⟨ending,?_,rfl,queryFails ended failed⟩
      rw [lastEnding, ended]
      cases ending <;> first | rfl | exact absurd rfl failed
    · rw [if_neg failed] at returned
      obtain ⟨reply,rfl⟩ := (awaitCode ended).mp (not_not.mp failed)
      by_cases rows : control sql = true ∨ reply.fieldCount = 0
      · have fields : (afterQuery sql mysql (.complete reply)).fieldCount = 0 := by
          rcases rows with known | none <;> simp [afterQuery, *]
        rw [fields, if_neg (Nat.lt_irrefl 0)] at returned
        cases returned
        refine ⟨.complete reply,by rw [lastEnding, ended]; exact if_pos rows,rfl,?_,.inl rfl,fun _ => rfl,
          awaitCode ended,awaitTimedOut ended⟩
        have none : (if control sql = true then 0 else reply.fieldCount) = 0 := fields
        simp [afterQuery, leavesReply, none]
      · simp only [not_or, Bool.not_eq_true] at rows
        have fields : (afterQuery sql mysql (.complete reply)).fieldCount = reply.fieldCount := by
          simp [afterQuery, rows.1]
        rw [fields, if_pos (Nat.pos_of_ne_zero rows.2)] at returned
        cases stored : awaitCall hasDeadline exchange.store with
        | none => simp [stored] at returned
        | some ending =>
          simp only [stored, Option.some.injEq, Prod.mk.injEq] at returned
          obtain ⟨rfl,rfl⟩ := returned
          refine ⟨ending,?_,rfl,?_,.inr ⟨rows.1,?_⟩,fun known => ?_,awaitCode stored,awaitTimedOut stored⟩
          · rw [lastEnding, ended, ← stored]
            exact if_neg (by simp [rows])
          · have sent : (afterQuery sql mysql (.complete reply)).outstanding = mysql.outstanding + 1 := by
              simp [afterQuery, rows]
            cases ending with
            | error failure => exact failOutstanding sent
            | _ => simp [afterStore, leavesReply, sent]
          · cases ending <;> simp [afterStore, afterQuery, errnoAfter, fail]
          · rw [rows.1] at known
            cases known

/- The error number that fill_error leaves after a failed statement. -/
def filledErrno : Ending → Nat
  | .timedOut => crServerLost
  | ending => errnoAfter 0 ending

/- After the failure `f` the ending `b` of ROLLBACK leaves the connection clean or broken. -/
def rollbackSafe (f b : Ending) : Prop :=
  match b with
  | .complete _ => leavesReply f = false
  | .error failure =>
    2000 ≤ failure.errno ∨ leavesReply f = false ∧ failure.inTransaction = false
  | _ => 2000 ≤ filledErrno f

/- A handle on which a statement has failed with `f`, once that is filled in. -/
structure Failed (f : Ending) (mysql : Mysql) : Prop where
  outstanding : mysql.outstanding = (leavesReply f).toNat
  errno : mysql.lastErrno = filledErrno f

theorem fillErrorFailed {sql : String} {mysql mysql' : Mysql} {f : Ending} (txn : TxnResult)
    (ended : Ended sql mysql mysql' f) (read : mysql.outstanding = 0) (ok : mysql.lastErrno = 0) :
    Failed f (fillError txn mysql' f.code).2 ∧
    (fillError txn mysql' f.code).1.committed = txn.committed := by
  have errno : mysql'.lastErrno = errnoAfter 0 f := by
    rcases ended.errno with same | other
    · rw [same, ok]
    · exact other.2
  have outstanding : mysql'.outstanding = (leavesReply f).toNat := by
    rw [ended.outstanding, read, Nat.zero_add]
  unfold fillError
  by_cases late : f.code = -eTime
  · rw [if_pos late]
    obtain rfl := ended.timedOut.mp late
    exact ⟨⟨outstanding,rfl⟩,rfl⟩
  · rw [if_neg late]
    refine ⟨⟨outstanding,?_⟩,rfl⟩
    cases f <;> first | exact errno | exact absurd (ended.timedOut.mpr rfl) late

theorem rollBackEnds {txn txn' : TxnResult} {mysql mysql' : Mysql} {rollback : Exchange} {f : Ending}
    (failed : Failed f mysql) (returned : rollBack hasDeadline txn mysql rollback = some (txn', mysql')) :
    txn' = txn ∧ ∃ b, lastEnding hasDeadline "ROLLBACK" rollback = some b ∧
      (Clean mysql' ∨ broken mysql' ↔ rollbackSafe f b) := by
  simp only [rollBack, Option.map_eq_some_iff, Prod.mk.injEq, Prod.exists] at returned
  obtain ⟨r,left,queried,rfl,rfl⟩ := returned
  obtain ⟨b,last,-,ended⟩ := queryEnded queried
  have known : control "ROLLBACK" = true := by decide
  have errno := ended.errno.resolve_right (by simp [known])
  have session := ended.session known
  have outstanding := ended.outstanding
  refine ⟨rfl,b,last,?_⟩
  rw [failed.outstanding] at outstanding
  rw [failed.errno] at errno
  cases b with
  | complete reply =>
    have closed : controlAfter "ROLLBACK" mysql.inTransaction (.complete reply) = false := by
      simp [controlAfter, sessionAfter]
    simp [Clean, broken, rollbackSafe, session, closed, errno, errnoAfter, outstanding, leavesReply]
  | error failure =>
    have reported : controlAfter "ROLLBACK" mysql.inTransaction (.error failure) = failure.inTransaction := by
      simp [controlAfter, sessionAfter]
    simp only [Clean, broken, rollbackSafe, session, reported, errno, errnoAfter, outstanding]
    by_cases client : 2000 ≤ failure.errno
    · simp [client]
    · simp [client, leavesReply, and_comm]
  | timedOut => simp [Clean, broken, rollbackSafe, errno, errnoAfter, outstanding, leavesReply]
  | waitFailed r => simp [Clean, broken, rollbackSafe, errno, errnoAfter, outstanding, leavesReply]

theorem failureEnds {txn filled txn' : TxnResult} {sql : String} {mysql after mysql' : Mysql} {rollback : Exchange}
    {f : Ending} (ended : Ended sql mysql after f) (read : mysql.outstanding = 0) (ok : mysql.lastErrno = 0)
    (pending : txn.committed = false) (kept : filled.committed = (fillError txn after f.code).1.committed)
    (returned : rollBack hasDeadline filled (fillError txn after f.code).2 rollback = some (txn', mysql')) :
    txn'.committed = false ∧ ∃ b, lastEnding hasDeadline "ROLLBACK" rollback = some b ∧
      (Clean mysql' ∨ broken mysql' ↔ rollbackSafe f b) := by
  obtain ⟨failed,same⟩ := fillErrorFailed txn ended read ok
  obtain ⟨rfl,rolled⟩ := rollBackEnds failed returned
  exact ⟨(kept.trans same).trans pending,rolled⟩

def completes (hasDeadline : Bool) (sqls : List (String × Exchange)) : Prop :=
  ∀ s ∈ sqls, ∃ reply, lastEnding hasDeadline s.1 s.2 = some (.complete reply)

theorem statementsEnd {closing rollback : Exchange} {sqls : List (String × Exchange)} {txn txn' : TxnResult}
    {mysql mysql' : Mysql} (read : mysql.outstanding = 0) (ok : mysql.lastErrno = 0)
    (pending : txn.committed = false)
    (returned : statements hasDeadline txn mysql closing rollback sqls = some (txn', mysql')) :
    match firstFailure hasDeadline (sqls ++ [("COMMIT",closing)]) with
    | none => txn'.committed = true ∧ completes hasDeadline (sqls ++ [("COMMIT",closing)])
    | some f => txn'.committed = false ∧ ∃ b, lastEnding hasDeadline "ROLLBACK" rollback = some b ∧
        (Clean mysql' ∨ broken mysql' ↔ rollbackSafe f b) := by
  induction sqls generalizing txn mysql with
  | nil =>
    simp only [statements, commit] at returned
    cases queried : txnQuery hasDeadline mysql "COMMIT" closing with
    | none => simp [queried] at returned
    | some answer =>
      obtain ⟨r,after⟩ := answer
      obtain ⟨f,last,rfl,ended⟩ := queryEnded queried
      simp only [queried] at returned
      simp only [List.nil_append, firstFailure, last]
      by_cases done : f.code = 0
      · obtain ⟨reply,rfl⟩ := ended.complete.mp done
        simp only [Ending.code, ne_eq, not_true, if_false, Option.some.injEq, Prod.mk.injEq] at returned
        refine ⟨by rw [← returned.1],fun s mem => ?_⟩
        rw [List.mem_singleton.mp mem]
        exact ⟨reply,last⟩
      · rw [if_pos done] at returned
        have rolled := failureEnds ended read ok pending (by rfl) returned
        cases f <;> first | exact rolled | exact absurd rfl done
  | cons head sqls ih =>
    obtain ⟨sql,exchange⟩ := head
    simp only [statements] at returned
    cases queried : txnQuery hasDeadline mysql sql exchange with
    | none => simp [queried] at returned
    | some answer =>
      obtain ⟨r,after⟩ := answer
      obtain ⟨f,last,rfl,ended⟩ := queryEnded queried
      simp only [queried] at returned
      simp only [List.cons_append, firstFailure, last]
      by_cases done : f.code = 0
      · obtain ⟨reply,rfl⟩ := ended.complete.mp done
        simp only [Ending.code, ne_eq, not_true, if_false] at returned
        have idle : after.outstanding = 0 := by simp [ended.outstanding, read, leavesReply]
        have errno : after.lastErrno = 0 := ended.errno.elim (fun same => same) (fun other => other.2)
        have rest := ih idle errno (by exact pending) returned
        cases failure : firstFailure hasDeadline (sqls ++ [("COMMIT",closing)]) with
        | none =>
          simp only [failure] at rest
          exact ⟨rest.1,List.forall_mem_cons.mpr ⟨⟨reply,last⟩,rest.2⟩⟩
        | some f => simpa only [failure] using rest
      · rw [if_pos done] at returned
        have rolled := failureEnds ended read ok pending (by rfl) returned
        cases f <;> first | exact rolled | exact absurd rfl done

def Script.all (script : Script) : List (String × Exchange) :=
  ("BEGIN",script.opening) :: script.sqls ++ [("COMMIT",script.closing)]

/- A transaction that is not committed leaves the connection clean, or such that Release
destroys it; a committed one has completed every statement. -/
structure NoLeak (hasDeadline : Bool) (script : Script) (txn : TxnResult) (mysql : Mysql) : Prop where
  settled : txn.committed = false → Clean mysql ∨ broken mysql
  committed : txn.committed = true → completes hasDeadline script.all

def settles (hasDeadline : Bool) (mysql : Mysql) (script : Script) : Prop :=
  match lastEnding hasDeadline "BEGIN" script.opening with
  | some (.complete _) =>
    match firstFailure hasDeadline (script.sqls ++ [("COMMIT",script.closing)]) with
    | some f => ∀ b, lastEnding hasDeadline "ROLLBACK" script.rollback = some b → rollbackSafe f b
    | none => True
  | some (.waitFailed _) => 2000 ≤ mysql.lastErrno
  | _ => True

theorem beginFails {mysql mysql' : Mysql} {f : Ending} (clean : Clean mysql) (failed : f.code ≠ 0)
    (ended : Ended "BEGIN" mysql mysql' f) :
    Clean (fillError .fresh mysql' f.code).2 ∨ broken (fillError .fresh mysql' f.code).2 ↔
      ∀ r, f = .waitFailed r → 2000 ≤ mysql.lastErrno := by
  have known : control "BEGIN" = true := by decide
  have errno := ended.errno.resolve_right (by simp [known])
  have session := ended.session known
  have outstanding := ended.outstanding
  rw [clean.2, Nat.zero_add] at outstanding
  rw [clean.1] at session
  unfold fillError
  cases f with
  | complete reply => exact absurd rfl failed
  | timedOut => simp [Ending.code, broken, crServerLost]
  | waitFailed r =>
    rw [if_neg (fun late => by cases ended.timedOut.mp late)]
    simp [Clean, broken, outstanding, leavesReply, errno, errnoAfter]
  | error failure =>
    rw [if_neg (fun late => by cases ended.timedOut.mp late)]
    have before : controlAfter "BEGIN" false (.error failure) = false := by simp [controlAfter, sessionAfter]
    by_cases client : 2000 ≤ failure.errno <;>
      simp [Clean, broken, session, before, outstanding, leavesReply, errno, errnoAfter, client]

/- The connection is safe to give back exactly when no phase ends in a way whose trace
mysql_errno loses. -/
theorem noLeakIff {mysql mysql' : Mysql} {script : Script} {txn : TxnResult} (clean : Clean mysql)
    (returned : utransaction hasDeadline mysql script = some (txn, mysql')) :
    NoLeak hasDeadline script txn mysql' ↔ settles hasDeadline mysql script := by
  unfold utransaction at returned
  cases queried : txnQuery hasDeadline mysql "BEGIN" script.opening with
  | none => simp [queried] at returned
  | some answer =>
    obtain ⟨r,after⟩ := answer
    obtain ⟨f,last,rfl,ended⟩ := queryEnded queried
    simp only [queried] at returned
    by_cases done : f.code = 0
    · obtain ⟨reply,rfl⟩ := ended.complete.mp done
      simp only [Ending.code, ne_eq, not_true, if_false] at returned
      have idle : after.outstanding = 0 := by simp [ended.outstanding, clean.2, leavesReply]
      have errno : after.lastErrno = 0 := ended.errno.elim (fun same => same) (fun other => other.2)
      have rest := statementsEnd idle errno rfl returned
      rw [settles, last]
      cases failure : firstFailure hasDeadline (script.sqls ++ [("COMMIT",script.closing)]) with
      | none =>
        simp only [failure] at rest
        refine iff_of_true ⟨fun unfinished => ?_,fun _ => List.forall_mem_cons.mpr ⟨⟨reply,last⟩,rest.2⟩⟩ trivial
        rw [rest.1] at unfinished
        cases unfinished
      | some f =>
        simp only [failure] at rest
        obtain ⟨failed,b,rolled,safe⟩ := rest
        simp only [rolled, Option.some.injEq, forall_eq', ← safe]
        refine ⟨fun good => good.settled failed,fun good => ⟨fun _ => good,fun committed => ?_⟩⟩
        rw [failed] at committed
        cases committed
    · rw [if_pos done] at returned
      have fails := beginFails clean done ended
      simp only [Option.some.injEq] at returned
      rw [returned] at fails
      have failed : txn.committed = false := by
        have same := congrArg (fun answer => answer.1.committed) returned
        simp only [fillError] at same
        split at same <;> exact same.symm
      have iff : NoLeak hasDeadline script txn mysql' ↔ Clean mysql' ∨ broken mysql' :=
        ⟨fun good => good.settled failed,
          fun good => ⟨fun _ => good,fun committed => by rw [failed] at committed; cases committed⟩⟩
      rw [iff, fails, settles, last]
      cases f <;> first | exact absurd rfl done | simp

end Endings

section Uses

def idle : Mysql := ⟨0,"","00000",0,0,0,0,false,0⟩

def done (inTransaction : Bool) : List Poll := [.complete ⟨0,0,0,0,inTransaction⟩]

def rejected (rollback : List Poll) : Script where
  opening := ⟨done true,[]⟩
  sqls := [("SELEC 1",⟨[.error ⟨1064,"syntax","42000",true,false⟩],[]⟩)]
  closing := ⟨done false,[]⟩
  rollback := ⟨rollback,[]⟩

def rolledBack : TxnResult := ⟨-1064,"syntax","42000",false,[⟨0,0,0,false⟩]⟩

theorem rejectedNoLeak :
    NoLeak true (rejected (done false)) rolledBack ⟨0,"","00000",0,0,0,0,false,0⟩ := by
  have returned : utransaction true idle (rejected (done false)) =
      some (rolledBack,⟨0,"","00000",0,0,0,0,false,0⟩) := by decide
  refine (noLeakIff ⟨rfl,rfl⟩ returned).mpr ?_
  intro b rolled
  cases rolled
  rfl

/- ROLLBACK times out: error 1064 stays, the transaction is open and a reply under way. -/
theorem rollbackTimesOut : ∃ mysql,
    utransaction true idle (rejected [.notReady ⟨0,5,0⟩]) = some (rolledBack,mysql) ∧
    mysql.lastErrno = 1064 ∧ mysql.inTransaction = true ∧ mysql.outstanding = 1 ∧
    ¬NoLeak true (rejected [.notReady ⟨0,5,0⟩]) rolledBack mysql := by
  refine ⟨⟨1064,"syntax","42000",0,0,0,0,true,1⟩,by decide,rfl,rfl,rfl,fun good => ?_⟩
  rcases good.settled rfl with clean | broken
  · cases clean.1
  · exact absurd (show 2000 ≤ 1064 from broken) (by decide)

end Uses
end Uco.Transaction
