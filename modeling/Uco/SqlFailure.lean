import Uco.Transaction

/-! The MySQL operations over a client library that may answer anything. What a call left in
the handle, the errno among it, is part of its answer; beside the result of an operation
stands what its calls of await_call returned. -/
namespace Uco.SqlFailure
open Transaction (StmtResult eIo eTime crServerLost kBadArgument kTimeout)

section Library

inductive NetAsyncStatus where
  | complete
  | notReady
  | error
  | completeNoMoreResults
  deriving DecidableEq, Repr

structure Field where
  name : String
  type : Nat
  flags : Nat
  deriving DecidableEq, Repr

structure MysqlRes where
  fields : List Field
  rows : List (List (Option String))
  deriving DecidableEq, Repr

structure Mysql where
  errno : UInt32
  error : String
  sqlState : String
  fieldCount : Nat
  affectedRows : Nat
  insertId : Nat
  warnings : Nat
  deriving DecidableEq, Repr

/- One round of await_call: the status of the call with the handle and the result pointer
after it, the time gone by, the fd and what wait_fd returned. -/
structure Poll where
  status : NetAsyncStatus
  mysql : Mysql
  result : Option MysqlRes
  elapsed : Int
  fd : Int
  wait : Int
  deriving DecidableEq, Repr

structure Ts where
  sec : Int
  nsec : Int
  deriving DecidableEq, Repr

def Ts.hasDeadline (ts : Ts) : Prop := ts.sec ≠ 0 ∨ ts.nsec ≠ 0
instance (ts : Ts) : Decidable ts.hasDeadline := by unfold Ts.hasDeadline; infer_instance

def Ts.remain (ts : Ts) (elapsed : Int) : Int := ts.sec * 1000000000 + ts.nsec - elapsed

structure Answer where
  code : Int
  mysql : Mysql
  result : Option MysqlRes
  deriving DecidableEq, Repr

def awaitCall (ts : Ts) : List Poll → Option Answer
  | [] => none
  | poll :: polls =>
    match poll.status with
    | .complete | .completeNoMoreResults => some ⟨0,poll.mysql,poll.result⟩
    | .error => some ⟨-eIo,poll.mysql,poll.result⟩
    | .notReady =>
      if ts.hasDeadline ∧ ts.remain poll.elapsed ≤ 0 then some ⟨-eTime,poll.mysql,poll.result⟩
      else if poll.fd ≤ 0 then awaitCall ts polls
      else if poll.wait < 0 then some ⟨poll.wait,poll.mysql,poll.result⟩
      else awaitCall ts polls

end Library

section Results

structure SqlError where
  retCode : Int32 := 0
  errMsg : String := ""
  sqlState : String := ""
  deriving DecidableEq, Repr

structure InsertResult extends SqlError where
  insertId : Nat := 0
  affectedRows : Nat := 0
  deriving DecidableEq, Repr

structure AffectedResult extends SqlError where
  affectedRows : Nat := 0
  deriving DecidableEq, Repr

structure SelectResult extends SqlError where
  numFields : Nat := 0
  numRows : Nat := 0
  columnNames : List String := []
  columnTypes : List Nat := []
  columnFlags : List Nat := []
  rows : List (List String) := []
  deriving DecidableEq, Repr

structure TxnResult extends SqlError where
  committed : Bool := false
  stmtResults : List StmtResult := []
  deriving DecidableEq, Repr

/- A call of await_call: what it returned, and whether it was to fetch a result set and left none. -/
structure Call where
  code : Int
  lost : Bool
  deriving DecidableEq, Repr

structure Done (α : Type) where
  result : α
  mysql : Option Mysql
  calls : List Call
  deriving DecidableEq, Repr

def fillError (e : SqlError) (mysql : Mysql) (r : Int) : SqlError × Mysql :=
  if r = -eTime then
    ({ e with retCode := Int32.ofInt kTimeout, errMsg := "usql: operation timeout" },
      { mysql with
        errno := UInt32.ofNat crServerLost
        error := "usql: operation timeout, stream desynced" })
  else ({ e with retCode := -mysql.errno.toInt32, errMsg := mysql.error, sqlState := mysql.sqlState },mysql)

def badArgument (message : String) : SqlError := ⟨Int32.ofInt kBadArgument,message,""⟩

end Results

section Operations

def uinsert (ts : Ts) (mysql : Option Mysql) (query : List Poll) : Option (Done InsertResult) :=
  match mysql with
  | none => some ⟨{ badArgument "usql: insert: mysql is nullptr" with },none,[]⟩
  | some _ => do
    let a ← awaitCall ts query
    if a.code ≠ 0 then
      let (e,mysql) := fillError {} a.mysql a.code
      some ⟨{ e with },mysql,[⟨a.code,false⟩]⟩
    else
      some ⟨{ insertId := a.mysql.insertId, affectedRows := a.mysql.affectedRows },a.mysql,[⟨a.code,false⟩]⟩

def uaffect (op : String) (ts : Ts) (mysql : Option Mysql) (query : List Poll) : Option (Done AffectedResult) :=
  match mysql with
  | none => some ⟨{ badArgument ("usql: " ++ op ++ ": mysql is nullptr") with },none,[]⟩
  | some _ => do
    let a ← awaitCall ts query
    if a.code ≠ 0 then
      let (e,mysql) := fillError {} a.mysql a.code
      some ⟨{ e with },mysql,[⟨a.code,false⟩]⟩
    else some ⟨{ affectedRows := a.mysql.affectedRows },a.mysql,[⟨a.code,false⟩]⟩

def uupdate : Ts → Option Mysql → List Poll → Option (Done AffectedResult) := uaffect "update"
def udelete : Ts → Option Mysql → List Poll → Option (Done AffectedResult) := uaffect "delete"

def rowData (numFields : Nat) (row : List (Option String)) : List String :=
  (List.range numFields).map fun i => (row[i]?.join).getD ""

def selected (result : MysqlRes) : SelectResult where
  numFields := result.fields.length
  numRows := result.rows.length
  columnNames := result.fields.map Field.name
  columnTypes := result.fields.map Field.type
  columnFlags := result.fields.map Field.flags
  rows := result.rows.map (rowData result.fields.length)

structure Exchange where
  query : List Poll
  store : List Poll
  deriving DecidableEq, Repr

def uselect (ts : Ts) (mysql : Option Mysql) (exchange : Exchange) : Option (Done SelectResult) :=
  match mysql with
  | none => some ⟨{ badArgument "usql: select: mysql is nullptr" with },none,[]⟩
  | some _ => do
    let q ← awaitCall ts exchange.query
    if q.code ≠ 0 then
      let (e,mysql) := fillError {} q.mysql q.code
      some ⟨{ e with },mysql,[⟨q.code,false⟩]⟩
    else if q.mysql.fieldCount = 0 then
      some ⟨{ badArgument "usql: no result set (not a SELECT?)" with },q.mysql,[⟨q.code,false⟩]⟩
    else
      let s ← awaitCall ts exchange.store
      let calls := [⟨q.code,false⟩,⟨s.code,s.result.isNone⟩]
      let (e,mysql) := fillError {} s.mysql (if s.code ≠ 0 then s.code else -eIo)
      let failed : Done SelectResult := ⟨{ e with },mysql,calls⟩
      match s.result with
      | none => some failed
      | some result => if s.code ≠ 0 then some failed else some ⟨selected result,s.mysql,calls⟩

def txnQuery (ts : Ts) (exchange : Exchange) : Option (Int × Mysql × List Call) := do
  let q ← awaitCall ts exchange.query
  if q.code ≠ 0 then some (q.code,q.mysql,[⟨q.code,false⟩])
  else if q.mysql.fieldCount > 0 then
    let s ← awaitCall ts exchange.store
    some (s.code,s.mysql,[⟨q.code,false⟩,⟨s.code,s.result.isNone⟩])
  else some (q.code,q.mysql,[⟨q.code,false⟩])

def rollBack (ts : Ts) (txn : TxnResult) (calls : List Call) (rollback : Exchange) : Option (Done TxnResult) := do
  let (_,mysql,more) ← txnQuery ts rollback
  some ⟨txn,mysql,calls ++ more⟩

def commit (ts : Ts) (txn : TxnResult) (calls : List Call) (closing rollback : Exchange) :
    Option (Done TxnResult) := do
  let (r,mysql,more) ← txnQuery ts closing
  if r ≠ 0 then
    let (e,_) := fillError txn.toSqlError mysql r
    rollBack ts { txn with toSqlError := e } (calls ++ more) rollback
  else some ⟨{ txn with committed := true },mysql,calls ++ more⟩

def statements (ts : Ts) (txn : TxnResult) (calls : List Call) (closing rollback : Exchange) :
    List Exchange → Option (Done TxnResult)
  | [] => commit ts txn calls closing rollback
  | exchange :: sqls => do
    let (r,mysql,more) ← txnQuery ts exchange
    if r ≠ 0 then
      let (e,_) := fillError txn.toSqlError mysql r
      rollBack ts { txn with toSqlError := e, stmtResults := txn.stmtResults ++ [⟨0,0,0,false⟩] }
        (calls ++ more) rollback
    else
      let done : StmtResult := ⟨mysql.affectedRows,mysql.insertId,mysql.warnings,true⟩
      statements ts { txn with stmtResults := txn.stmtResults ++ [done] } (calls ++ more) closing rollback sqls

structure Script where
  opening : Exchange
  sqls : List Exchange
  closing : Exchange
  rollback : Exchange
  deriving DecidableEq, Repr

def utransaction (ts : Ts) (mysql : Option Mysql) (script : Script) : Option (Done TxnResult) :=
  match mysql with
  | none => some ⟨{ badArgument "usql: transaction: mysql is nullptr" with },none,[]⟩
  | some _ => do
    let (r,mysql,calls) ← txnQuery ts script.opening
    if r ≠ 0 then
      let (e,mysql) := fillError {} mysql r
      some ⟨{ e with },mysql,calls⟩
    else statements ts {} calls script.closing script.rollback script.sqls

end Operations

section Contract
variable (ts : Ts)

def Call.Failed (call : Call) : Prop := call.code ≠ 0 ∨ call.lost = true

def Reports (e : SqlError) (committed : Bool) (calls : List Call) : Prop :=
  (∃ call ∈ calls, call.Failed) → e.retCode ≠ 0 ∧ committed = false

def Poll.Completes (poll : Poll) : Prop := poll.status = .complete ∨ poll.status = .completeNoMoreResults

def Poll.TimesOut (poll : Poll) : Prop := ts.hasDeadline ∧ ts.remain poll.elapsed ≤ 0

def Poll.Waits (poll : Poll) : Prop :=
  poll.status = .notReady ∧ ¬poll.TimesOut ts ∧ (poll.fd ≤ 0 ∨ 0 ≤ poll.wait)

def Poll.Silent (poll : Poll) : Prop :=
  poll.mysql.errno = 0 ∧ (poll.status = .error ∨
    poll.status = .notReady ∧ ¬poll.TimesOut ts ∧ 0 < poll.fd ∧ poll.wait < 0 ∧ poll.wait ≠ -eTime)

def EndsWith (polls : List Poll) (poll : Poll) : Prop :=
  ¬poll.Waits ts ∧ ∃ before behind, polls = before ++ poll :: behind ∧ ∀ p ∈ before, p.Waits ts

def SilentCall (polls : List Poll) : Prop := ∃ poll, EndsWith ts polls poll ∧ poll.Silent ts

def HasRows (exchange : Exchange) : Prop :=
  ∃ poll, EndsWith ts exchange.query poll ∧ poll.Completes ∧ poll.mysql.fieldCount ≠ 0

def Loses (exchange : Exchange) (errno : UInt32 → Prop) : Prop :=
  HasRows ts exchange ∧
    ∃ poll, EndsWith ts exchange.store poll ∧ poll.Completes ∧ poll.result = none ∧ errno poll.mysql.errno

def SilentStatement (exchange : Exchange) : Prop :=
  SilentCall ts exchange.query ∨ HasRows ts exchange ∧ SilentCall ts exchange.store

def CompletesStatement (exchange : Exchange) : Prop :=
  (∃ poll, EndsWith ts exchange.query poll ∧ poll.Completes ∧ poll.mysql.fieldCount = 0) ∨
    HasRows ts exchange ∧ ∃ poll, EndsWith ts exchange.store poll ∧ poll.Completes

def FailsSilently : List Exchange → Prop
  | [] => False
  | exchange :: rest => SilentStatement ts exchange ∨ CompletesStatement ts exchange ∧ FailsSilently rest

def LosesRows (exchanges : List Exchange) : Prop :=
  (∀ exchange ∈ exchanges, CompletesStatement ts exchange) ∧
    ∃ exchange ∈ exchanges, Loses ts exchange fun _ => True

def Script.all (script : Script) : List Exchange := script.opening :: (script.sqls ++ [script.closing])

end Contract

section Calls
variable {ts : Ts}

theorem endsHead {poll : Poll} (ends : ¬poll.Waits ts) (polls : List Poll) : EndsWith ts (poll :: polls) poll :=
  ⟨ends,[],polls,rfl,by simp⟩

theorem endsLater {poll last : Poll} {polls : List Poll} (waits : poll.Waits ts) (ends : EndsWith ts polls last) :
    EndsWith ts (poll :: polls) last := by
  obtain ⟨over',before,behind,rfl,all⟩ := ends
  exact ⟨over',poll :: before,behind,rfl,List.forall_mem_cons.mpr ⟨waits,all⟩⟩

theorem endsUnique {polls : List Poll} {a b : Poll} (first : EndsWith ts polls a) (second : EndsWith ts polls b) :
    a = b := by
  induction polls with
  | nil =>
    obtain ⟨-,before,behind,split,-⟩ := first
    simp at split
  | cons poll polls ih =>
    obtain ⟨aOver,before,behind,aSplit,aWaits⟩ := first
    obtain ⟨bOver,before',behind',bSplit,bWaits⟩ := second
    cases before with
    | nil =>
      obtain ⟨rfl,rfl⟩ := List.cons.inj aSplit
      cases before' with
      | nil => exact (List.cons.inj bSplit).1
      | cons p before' =>
        obtain ⟨rfl,-⟩ := List.cons.inj bSplit
        exact absurd (bWaits _ List.mem_cons_self) aOver
    | cons p before =>
      obtain ⟨rfl,rfl⟩ := List.cons.inj aSplit
      have waits := aWaits _ List.mem_cons_self
      cases before' with
      | nil =>
        obtain ⟨rfl,-⟩ := List.cons.inj bSplit
        exact absurd waits bOver
      | cons q before' =>
        obtain ⟨rfl,rest⟩ := List.cons.inj bSplit
        exact ih ⟨aOver,before,behind,rfl,fun p mem => aWaits p (List.mem_cons_of_mem _ mem)⟩
          ⟨bOver,before',behind',rest,fun p mem => bWaits p (List.mem_cons_of_mem _ mem)⟩

structure Returns (ts : Ts) (poll : Poll) (a : Answer) : Prop where
  mysql : a.mysql = poll.mysql
  result : a.result = poll.result
  complete : a.code = 0 ↔ poll.Completes
  silent : a.code ≠ 0 ∧ a.code ≠ -eTime ∧ a.mysql.errno = 0 ↔ poll.Silent ts

theorem awaitReturns {polls : List Poll} {a : Answer} (returned : awaitCall ts polls = some a) :
    ∃ poll, EndsWith ts polls poll ∧ Returns ts poll a := by
  induction polls with
  | nil => cases returned
  | cons poll polls ih =>
    rw [awaitCall] at returned
    split at returned
    · rename_i status
      cases returned
      exact ⟨poll,endsHead (by simp [Poll.Waits, status]) polls,
        ⟨rfl,rfl,by simp [Poll.Completes, status],by simp [Poll.Silent, status]⟩⟩
    · rename_i status
      cases returned
      exact ⟨poll,endsHead (by simp [Poll.Waits, status]) polls,
        ⟨rfl,rfl,by simp [Poll.Completes, status],by simp [Poll.Silent, status]⟩⟩
    · rename_i status
      cases returned
      exact ⟨poll,endsHead (by simp [Poll.Waits, status]) polls,
        ⟨rfl,rfl,by simp [Poll.Completes, status, eIo],by simp [Poll.Silent, status, eIo, eTime]⟩⟩
    · rename_i status
      split at returned
      · rename_i timedOut
        cases returned
        exact ⟨poll,endsHead (fun waits => waits.2.1 timedOut) polls,
          ⟨rfl,rfl,by simp [Poll.Completes, status, eTime],
            by simp [Poll.Silent, status, Poll.TimesOut, timedOut]⟩⟩
      · rename_i inTime
        split at returned
        · rename_i noFd
          obtain ⟨last,ends,returns⟩ := ih returned
          exact ⟨last,endsLater ⟨status,inTime,.inl noFd⟩ ends,returns⟩
        · rename_i fd
          split at returned
          · rename_i failed
            cases returned
            refine ⟨poll,endsHead (fun waits => ?_) polls,⟨rfl,rfl,?_,?_⟩⟩
            · rcases waits.2.2 with noFd | waited <;> omega
            · simp only [Poll.Completes, status, reduceCtorEq, or_self, iff_false]
              omega
            · have open' : 0 < poll.fd := by omega
              have nonzero : poll.wait ≠ 0 := by omega
              simp only [Poll.Silent, status, reduceCtorEq, false_or, true_and]
              exact ⟨fun h => ⟨h.2.2,inTime,open',failed,h.2.1⟩,fun h => ⟨nonzero,h.2.2.2.2,h.1⟩⟩
          · rename_i waited
            obtain ⟨last,ends,returns⟩ := ih returned
            exact ⟨last,endsLater ⟨status,inTime,.inr (by omega)⟩ ends,returns⟩

theorem silentIff {polls : List Poll} {a : Answer} (returned : awaitCall ts polls = some a) :
    a.code ≠ 0 ∧ a.code ≠ -eTime ∧ a.mysql.errno = 0 ↔ SilentCall ts polls := by
  obtain ⟨poll,ends,returns⟩ := awaitReturns returned
  rw [returns.silent]
  exact ⟨fun silent => ⟨poll,ends,silent⟩,fun ⟨_,ends',silent⟩ => endsUnique ends ends' ▸ silent⟩

theorem completeIff {polls : List Poll} {a : Answer} (returned : awaitCall ts polls = some a)
    (p : Mysql → Option MysqlRes → Prop) :
    a.code = 0 ∧ p a.mysql a.result ↔
      ∃ poll, EndsWith ts polls poll ∧ poll.Completes ∧ p poll.mysql poll.result := by
  obtain ⟨poll,ends,returns⟩ := awaitReturns returned
  rw [returns.complete, returns.mysql, returns.result]
  exact ⟨fun complete => ⟨poll,ends,complete⟩,fun ⟨_,ends',complete⟩ => endsUnique ends ends' ▸ complete⟩

theorem fillZero {e : SqlError} {mysql : Mysql} {r : Int} :
    (fillError e mysql r).1.retCode = 0 ↔ r ≠ -eTime ∧ mysql.errno = 0 := by
  rw [fillError]
  split
  · rename_i timedOut
    simp only [timedOut, ne_eq, not_true_eq_false, false_and, iff_false]
    decide
  · rename_i other
    have negated : -mysql.errno.toInt32 = 0 ↔ mysql.errno = 0 := by
      rw [← Int32.toBitVec_inj, ← UInt32.toBitVec_inj]
      simp
    simp only [ne_eq, other, not_false_eq_true, true_and]
    exact negated

theorem queryOnly {polls : List Poll} {a : Answer} (returned : awaitCall ts polls = some a) {e : SqlError}
    (failed : a.code ≠ 0) (filled : e = (fillError {} a.mysql a.code).1) :
    Reports e false [⟨a.code,false⟩] ↔ ¬SilentCall ts polls := by
  rw [← silentIff returned, filled]
  simp [Reports, Call.Failed, fillZero, failed]

theorem noneFailed {polls : List Poll} {a : Answer} (returned : awaitCall ts polls = some a) (completed : a.code = 0) :
    ¬SilentCall ts polls :=
  fun silent => ((silentIff returned).mpr silent).1 completed

theorem statementReports {polls : List Poll} {a : Answer} (returned : awaitCall ts polls = some a) {e : SqlError}
    (filled : a.code ≠ 0 → e = (fillError {} a.mysql a.code).1) :
    Reports e false [⟨a.code,false⟩] ↔ ¬SilentCall ts polls := by
  by_cases completed : a.code = 0
  · simp [Reports, Call.Failed, noneFailed returned completed, completed]
  · exact queryOnly returned completed (filled completed)

theorem uinsertReports {mysql : Option Mysql} {query : List Poll} {done : Done InsertResult}
    (ran : uinsert ts mysql query = some done) :
    Reports done.result.toSqlError false done.calls ↔ (mysql.isSome → ¬SilentCall ts query) := by
  cases mysql with
  | none =>
    cases ran
    simp [Reports]
  | some mysql =>
    simp only [uinsert, bind, Option.bind_eq_some_iff] at ran
    obtain ⟨a,returned,rest⟩ := ran
    have kept : done.calls = [⟨a.code,false⟩] ∧
        (a.code ≠ 0 → done.result.toSqlError = (fillError {} a.mysql a.code).1) := by
      split at rest <;> cases rest
      · exact ⟨rfl,fun _ => rfl⟩
      · rename_i completed
        exact ⟨rfl,fun failed => absurd failed completed⟩
    rw [kept.1, statementReports returned kept.2]
    simp

theorem uaffectReports {op : String} {mysql : Option Mysql} {query : List Poll} {done : Done AffectedResult}
    (ran : uaffect op ts mysql query = some done) :
    Reports done.result.toSqlError false done.calls ↔ (mysql.isSome → ¬SilentCall ts query) := by
  cases mysql with
  | none =>
    cases ran
    simp [Reports]
  | some mysql =>
    simp only [uaffect, bind, Option.bind_eq_some_iff] at ran
    obtain ⟨a,returned,rest⟩ := ran
    have kept : done.calls = [⟨a.code,false⟩] ∧
        (a.code ≠ 0 → done.result.toSqlError = (fillError {} a.mysql a.code).1) := by
      split at rest <;> cases rest
      · exact ⟨rfl,fun _ => rfl⟩
      · rename_i completed
        exact ⟨rfl,fun failed => absurd failed completed⟩
    rw [kept.1, statementReports returned kept.2]
    simp

theorem hasRowsIff {exchange : Exchange} {q : Answer} (returned : awaitCall ts exchange.query = some q) :
    q.code = 0 ∧ q.mysql.fieldCount ≠ 0 ↔ HasRows ts exchange :=
  completeIff returned fun mysql _ => mysql.fieldCount ≠ 0

theorem losesIff {exchange : Exchange} {s : Answer} (rows : HasRows ts exchange)
    (returned : awaitCall ts exchange.store = some s) (errno : UInt32 → Prop) :
    s.code = 0 ∧ s.result = none ∧ errno s.mysql.errno ↔ Loses ts exchange errno :=
  (completeIff returned fun mysql result => result = none ∧ errno mysql.errno).trans (and_iff_right rows).symm

theorem uselectReports {mysql : Option Mysql} {exchange : Exchange} {done : Done SelectResult}
    (ran : uselect ts mysql exchange = some done) :
    Reports done.result.toSqlError false done.calls ↔
      (mysql.isSome → ¬(SilentStatement ts exchange ∨ Loses ts exchange (· = 0))) := by
  cases mysql with
  | none =>
    cases ran
    simp [Reports]
  | some mysql =>
    simp only [uselect, bind, Option.bind_eq_some_iff] at ran
    obtain ⟨q,returned,rest⟩ := ran
    have rowsIff := hasRowsIff returned
    by_cases completed : q.code = 0
    · have spoken := noneFailed returned completed
      simp only [ne_eq, completed, not_true_eq_false, if_false] at rest
      by_cases noRows : q.mysql.fieldCount = 0
      · simp only [noRows, if_true, Option.some.injEq] at rest
        subst rest
        have rowless : ¬HasRows ts exchange := fun rows => (rowsIff.mpr rows).2 noRows
        simp [Reports, Call.Failed, SilentStatement, Loses, spoken, rowless]
      · have rows := rowsIff.mp ⟨completed,noRows⟩
        simp only [noRows, if_false, Option.bind_eq_some_iff] at rest
        obtain ⟨s,stored,rest⟩ := rest
        have silent := silentIff stored
        have loses := losesIff rows stored (· = 0)
        simp only [SilentStatement, spoken, rows, true_and, false_or, ← silent, ← loses, Option.isSome_some,
          true_implies]
        by_cases fetched : s.code = 0
        · cases found : s.result with
          | none =>
            simp only [found, fetched, Option.some.injEq] at rest
            subst rest
            simp [Reports, Call.Failed, fillZero, fetched, eIo, eTime]
          | some result =>
            simp only [found, fetched, not_true_eq_false, if_false, Option.some.injEq] at rest
            subst rest
            simp [Reports, Call.Failed, fetched]
        · have failing : done = ⟨{ (fillError {} s.mysql s.code).1 with },(fillError {} s.mysql s.code).2,
              [⟨0,false⟩,⟨s.code,s.result.isNone⟩]⟩ := by
            cases found : s.result <;> simp_all
          subst failing
          simp [Reports, Call.Failed, fillZero, fetched]
    · simp only [ne_eq, completed, not_false_eq_true, if_true, Option.some.injEq] at rest
      subst rest
      have rowless : ¬HasRows ts exchange := fun rows => completed (rowsIff.mpr rows).1
      have reports := queryOnly returned (e := (fillError {} q.mysql q.code).1) completed rfl
      simpa [SilentStatement, Loses, rowless] using reports

end Calls

section Transactions
variable {ts : Ts} {closing rollback : Exchange}

def AnyFailed (calls : List Call) : Prop := ∃ call ∈ calls, call.Failed

@[simp] theorem anyFailedNil : ¬AnyFailed [] := by simp [AnyFailed]

@[simp] theorem anyFailedAppend (calls more : List Call) :
    AnyFailed (calls ++ more) ↔ AnyFailed calls ∨ AnyFailed more := by
  simp [AnyFailed, or_and_right, exists_or]

@[simp] theorem anyFailedCons (call : Call) (calls : List Call) :
    AnyFailed (call :: calls) ↔ (call.code ≠ 0 ∨ call.lost = true) ∨ AnyFailed calls := by
  simp [AnyFailed, Call.Failed]

structure Queried (ts : Ts) (exchange : Exchange) (r : Int) (mysql : Mysql) (calls : List Call) : Prop where
  complete : r = 0 ↔ CompletesStatement ts exchange
  silent : r ≠ 0 ∧ r ≠ -eTime ∧ mysql.errno = 0 ↔ SilentStatement ts exchange
  failed : AnyFailed calls ↔ r ≠ 0 ∨ Loses ts exchange fun _ => True

theorem txnQueried {exchange : Exchange} {r : Int} {mysql : Mysql} {calls : List Call}
    (ran : txnQuery ts exchange = some (r,mysql,calls)) : Queried ts exchange r mysql calls := by
  simp only [txnQuery, bind, Option.bind_eq_some_iff] at ran
  obtain ⟨q,returned,rest⟩ := ran
  have rowsIff := hasRowsIff returned
  have noneIff := completeIff returned fun mysql _ => mysql.fieldCount = 0
  have silentQuery := silentIff returned
  by_cases completed : q.code = 0
  · by_cases noRows : q.mysql.fieldCount = 0
    · simp only [completed, noRows, ne_eq, not_true_eq_false, if_false, Nat.lt_irrefl, Option.some.injEq,
        Prod.mk.injEq, gt_iff_lt] at rest
      obtain ⟨rfl,rfl,rfl⟩ := rest
      have rowless : ¬HasRows ts exchange := fun rows => (rowsIff.mpr rows).2 noRows
      have spoken := noneFailed returned completed
      exact ⟨iff_of_true rfl (.inl (noneIff.mp ⟨completed,noRows⟩)),by simp [SilentStatement, spoken, rowless],
        by simp [Loses, rowless]⟩
    · have rows := rowsIff.mp ⟨completed,noRows⟩
      simp only [completed, ne_eq, not_true_eq_false, if_false, gt_iff_lt, Nat.pos_of_ne_zero noRows, if_true,
        Option.bind_eq_some_iff, Option.some.injEq, Prod.mk.injEq] at rest
      obtain ⟨s,stored,rfl,rfl,rfl⟩ := rest
      have spoken := noneFailed returned completed
      have fetched := completeIff stored fun _ _ => True
      have loses := losesIff rows stored fun _ => True
      refine ⟨?_,?_,?_⟩
      · have queried : ¬∃ poll, EndsWith ts exchange.query poll ∧ poll.Completes ∧ poll.mysql.fieldCount = 0 :=
          fun some' => noRows (noneIff.mpr some').2
        simp only [CompletesStatement, queried, rows, false_or, true_and]
        simpa using fetched
      · simp [SilentStatement, spoken, rows, silentIff stored]
      · rw [← loses]
        by_cases code : s.code = 0 <;> simp [code]
  · simp only [ne_eq, completed, not_false_eq_true, if_true, Option.some.injEq, Prod.mk.injEq] at rest
    obtain ⟨rfl,rfl,rfl⟩ := rest
    have rowless : ¬HasRows ts exchange := fun rows => completed (rowsIff.mpr rows).1
    refine ⟨?_,?_,by simp [completed]⟩
    · simp only [completed, CompletesStatement, rowless, false_and, or_false, false_iff]
      exact fun some' => completed (noneIff.mpr some').1
    · simp [SilentStatement, rowless, silentQuery]

theorem rollBackReports {txn : TxnResult} {calls : List Call} {done : Done TxnResult}
    (open' : txn.committed = false) (failed : AnyFailed calls) (ran : rollBack ts txn calls rollback = some done) :
    Reports done.result.toSqlError done.result.committed done.calls ↔ txn.retCode ≠ 0 := by
  simp only [rollBack, bind, Option.bind_eq_some_iff] at ran
  obtain ⟨⟨r,mysql,more⟩,-,rest⟩ := ran
  cases rest
  have any : ∃ call ∈ calls ++ more, call.Failed := (anyFailedAppend calls more).mpr (.inl failed)
  simp only [Reports, any, true_implies, open', and_true]

theorem stepFails {exchange : Exchange} {r : Int} {mysql : Mysql} {txn : TxnResult} {calls more : List Call}
    {results : List StmtResult} {done : Done TxnResult} (queried : Queried ts exchange r mysql more) (failed : r ≠ 0)
    (open' : txn.committed = false)
    (ran : rollBack ts { txn with toSqlError := (fillError txn.toSqlError mysql r).1, stmtResults := results }
      (calls ++ more) rollback = some done) :
    Reports done.result.toSqlError done.result.committed done.calls ↔ ¬SilentStatement ts exchange := by
  have any : AnyFailed (calls ++ more) := (anyFailedAppend calls more).mpr (.inr (queried.failed.mpr (.inl failed)))
  refine (rollBackReports (by exact open') any ran).trans (not_congr ?_)
  rw [← queried.silent, fillZero]
  simp only [failed, ne_eq, not_false_eq_true, true_and]

def Unreported (ts : Ts) (calls : List Call) (exchanges : List Exchange) : Prop :=
  FailsSilently ts exchanges ∨ (∀ exchange ∈ exchanges, CompletesStatement ts exchange) ∧
    (AnyFailed calls ∨ ∃ exchange ∈ exchanges, Loses ts exchange fun _ => True)

theorem unreportedStops {calls : List Call} {exchange : Exchange} (rest : List Exchange)
    (stops : ¬CompletesStatement ts exchange) :
    Unreported ts calls (exchange :: rest) ↔ SilentStatement ts exchange := by
  simp [Unreported, FailsSilently, stops]

theorem unreportedGoesOn {calls more : List Call} {exchange : Exchange} {mysql : Mysql} (rest : List Exchange)
    (queried : Queried ts exchange 0 mysql more) :
    Unreported ts calls (exchange :: rest) ↔ Unreported ts (calls ++ more) rest := by
  have completes := queried.complete.mp rfl
  have spoken : ¬SilentStatement ts exchange := fun silent => (queried.silent.mpr silent).1 rfl
  have lost : AnyFailed more ↔ Loses ts exchange fun _ => True := by simpa using queried.failed
  simp [Unreported, FailsSilently, completes, spoken, lost, or_assoc]

theorem commitReports {txn : TxnResult} {calls : List Call} {done : Done TxnResult} (fresh : txn.retCode = 0)
    (open' : txn.committed = false) (ran : commit ts txn calls closing rollback = some done) :
    Reports done.result.toSqlError done.result.committed done.calls ↔ ¬Unreported ts calls [closing] := by
  simp only [commit, bind, Option.bind_eq_some_iff] at ran
  obtain ⟨⟨r,mysql,more⟩,sent,rest⟩ := ran
  have queried := txnQueried sent
  by_cases completed : r = 0
  · subst completed
    simp only [ne_eq, not_true_eq_false, if_false, Option.some.injEq] at rest
    subst rest
    have left : Unreported ts (calls ++ more) [] ↔ AnyFailed (calls ++ more) := by simp [Unreported, FailsSilently]
    rw [unreportedGoesOn [] queried, left]
    change (AnyFailed (calls ++ more) → txn.retCode ≠ 0 ∧ true = false) ↔ _
    simp only [fresh, ne_eq, not_true_eq_false, false_and]
  · simp only [ne_eq, completed, not_false_eq_true, if_true] at rest
    rw [unreportedStops [] (fun completes => completed (queried.complete.mpr completes))]
    exact stepFails queried completed open' rest

theorem statementsReport {txn : TxnResult} {calls : List Call} {sqls : List Exchange} {done : Done TxnResult}
    (fresh : txn.retCode = 0) (open' : txn.committed = false)
    (ran : statements ts txn calls closing rollback sqls = some done) :
    Reports done.result.toSqlError done.result.committed done.calls ↔
      ¬Unreported ts calls (sqls ++ [closing]) := by
  induction sqls generalizing txn calls with
  | nil => exact commitReports fresh open' ran
  | cons exchange sqls ih =>
    simp only [statements, bind, Option.bind_eq_some_iff] at ran
    obtain ⟨⟨r,mysql,more⟩,sent,rest⟩ := ran
    have queried := txnQueried sent
    by_cases completed : r = 0
    · subst completed
      simp only [ne_eq, not_true_eq_false, if_false] at rest
      rw [List.cons_append, unreportedGoesOn _ queried]
      exact ih (by exact fresh) (by exact open') rest
    · simp only [ne_eq, completed, not_false_eq_true, if_true] at rest
      rw [List.cons_append, unreportedStops _ (fun completes => completed (queried.complete.mpr completes))]
      exact stepFails queried completed open' rest

theorem utransactionReports {mysql : Option Mysql} {script : Script} {done : Done TxnResult}
    (ran : utransaction ts mysql script = some done) :
    Reports done.result.toSqlError done.result.committed done.calls ↔
      (mysql.isSome → ¬(FailsSilently ts script.all ∨ LosesRows ts script.all)) := by
  cases mysql with
  | none =>
    cases ran
    simp [Reports]
  | some mysql =>
    have whole : FailsSilently ts script.all ∨ LosesRows ts script.all ↔ Unreported ts [] script.all := by
      simp [Unreported, LosesRows]
    simp only [Option.isSome_some, true_implies, whole]
    simp only [utransaction, bind, Option.bind_eq_some_iff] at ran
    obtain ⟨⟨r,mysql,calls⟩,sent,rest⟩ := ran
    have queried := txnQueried sent
    by_cases completed : r = 0
    · subst completed
      simp only [ne_eq, not_true_eq_false, if_false] at rest
      rw [Script.all, unreportedGoesOn _ queried]
      exact statementsReport rfl rfl rest
    · simp only [ne_eq, completed, not_false_eq_true, if_true, Option.some.injEq] at rest
      subst rest
      rw [Script.all, unreportedStops _ (fun completes => completed (queried.complete.mpr completes)),
        ← queried.silent]
      have any : ∃ call ∈ calls, call.Failed := queried.failed.mpr (.inl completed)
      simp [Reports, any, fillZero, completed]

/- An operation reports its failures unless one of them leaves errno at 0, or a transaction loses rows. -/
theorem reportsIff (ts : Ts) (mysql : Option Mysql) :
    (∀ query done, uinsert ts mysql query = some done →
      (Reports done.result.toSqlError false done.calls ↔ (mysql.isSome → ¬SilentCall ts query))) ∧
    (∀ query done, uupdate ts mysql query = some done →
      (Reports done.result.toSqlError false done.calls ↔ (mysql.isSome → ¬SilentCall ts query))) ∧
    (∀ query done, udelete ts mysql query = some done →
      (Reports done.result.toSqlError false done.calls ↔ (mysql.isSome → ¬SilentCall ts query))) ∧
    (∀ exchange done, uselect ts mysql exchange = some done →
      (Reports done.result.toSqlError false done.calls ↔
        (mysql.isSome → ¬(SilentStatement ts exchange ∨ Loses ts exchange (· = 0))))) ∧
    (∀ script done, utransaction ts mysql script = some done →
      (Reports done.result.toSqlError done.result.committed done.calls ↔
        (mysql.isSome → ¬(FailsSilently ts script.all ∨ LosesRows ts script.all)))) :=
  ⟨fun _ _ => uinsertReports,fun _ _ => uaffectReports,fun _ _ => uaffectReports,fun _ _ => uselectReports,
    fun _ _ => utransactionReports⟩

end Transactions

section Runs

def quiet : Mysql := ⟨0,"","00000",0,0,0,0⟩

def duplicate : Poll :=
  ⟨.error,{ quiet with errno := 1062, error := "Duplicate entry", sqlState := "23000" },none,0,7,0⟩

/- The io_uring poll of the socket fails with EIO, mysql_errno is still 0. -/
def pollFails : Poll := ⟨.notReady,quiet,none,0,7,-5⟩

def answers (columns : Nat) : Poll := ⟨.complete,{ quiet with fieldCount := columns },none,0,7,0⟩

def waits : Poll := ⟨.notReady,quiet,none,0,7,1⟩

def timesOut : Poll := ⟨.notReady,quiet,none,10000000000,7,0⟩

def stores : Poll := ⟨.complete,{ quiet with fieldCount := 1 },some ⟨[⟨"id",3,0⟩],[[some "1"],[none]]⟩,0,7,0⟩

def insertsTwice : Script := ⟨⟨[answers 0],[]⟩,[⟨[waits,answers 0],[]⟩,⟨[duplicate],[]⟩],⟨[answers 0],[]⟩,⟨[answers 0],[]⟩⟩

theorem insertsTwiceSpeaks : ¬(FailsSilently ⟨10,0⟩ insertsTwice.all ∨ LosesRows ⟨10,0⟩ insertsTwice.all) := by
  have opened : ¬SilentCall ⟨10,0⟩ [answers 0] := noneFailed rfl rfl
  have inserted : ¬SilentCall ⟨10,0⟩ [waits,answers 0] := noneFailed rfl rfl
  have refused : ¬SilentCall ⟨10,0⟩ [duplicate] := (silentIff rfl).not.mp (by decide)
  have rowless : ∀ exchange ∈ insertsTwice.all, ¬HasRows ⟨10,0⟩ exchange := by
    simp only [Script.all, insertsTwice, List.cons_append, List.nil_append, List.forall_mem_cons]
    refine ⟨?_,?_,?_,?_,nofun⟩ <;> exact (hasRowsIff rfl).not.mp (by decide)
  have stopped : ¬CompletesStatement ⟨10,0⟩ ⟨[duplicate],[]⟩ := by
    rintro (⟨poll,ends,completes,-⟩ | ⟨rows,-⟩)
    · exact absurd ((completeIff rfl fun _ _ => True).mpr ⟨poll,ends,completes,trivial⟩) (by decide)
    · exact rowless _ (by simp [Script.all, insertsTwice]) rows
  rintro (silent | ⟨completed,-⟩)
  · simp only [FailsSilently, Script.all, insertsTwice, List.cons_append, List.nil_append, SilentStatement, opened,
      inserted, refused, stopped, false_or, false_and, or_false] at silent
    simp_all [Script.all, insertsTwice]
  · exact stopped (completed _ (by simp [Script.all, insertsTwice]))

theorem fiveReported :
    (∃ done, uinsert ⟨10,0⟩ (some quiet) [waits,duplicate] = some done ∧ done.result.retCode = -1062 ∧
      Reports done.result.toSqlError false done.calls) ∧
    (∃ done, uupdate ⟨10,0⟩ (some quiet) [waits,answers 0] = some done ∧ done.result.retCode = 0 ∧
      Reports done.result.toSqlError false done.calls) ∧
    (∃ done, udelete ⟨10,0⟩ (some quiet) [waits,timesOut] = some done ∧ done.result.retCode = Int32.ofInt kTimeout ∧
      Reports done.result.toSqlError false done.calls) ∧
    (∃ done, uselect ⟨10,0⟩ (some quiet) ⟨[answers 1],[waits,stores]⟩ = some done ∧ done.result.rows = [["1"],[""]] ∧
      Reports done.result.toSqlError false done.calls) ∧
    (∃ done, utransaction ⟨10,0⟩ (some quiet) insertsTwice = some done ∧ done.result.retCode = -1062 ∧
      Reports done.result.toSqlError done.result.committed done.calls) := by
  obtain ⟨inserts,updates,deletes,selects,transacts⟩ := reportsIff ⟨10,0⟩ (some quiet)
  have refused : ¬SilentCall ⟨10,0⟩ [waits,duplicate] := (silentIff rfl).not.mp (by decide)
  have updated : ¬SilentCall ⟨10,0⟩ [waits,answers 0] := noneFailed rfl rfl
  have late : ¬SilentCall ⟨10,0⟩ [waits,timesOut] := (silentIff rfl).not.mp (by decide)
  have stored : ¬(SilentStatement ⟨10,0⟩ ⟨[answers 1],[waits,stores]⟩ ∨
      Loses ⟨10,0⟩ ⟨[answers 1],[waits,stores]⟩ (· = 0)) := by
    have rows : HasRows ⟨10,0⟩ ⟨[answers 1],[waits,stores]⟩ := (hasRowsIff rfl).mp (by decide)
    rintro ((query | ⟨-,store⟩) | loses)
    · exact noneFailed rfl rfl query
    · exact noneFailed rfl rfl store
    · exact absurd ((losesIff rows rfl (· = 0)).mpr loses).2.1 (by decide)
  exact ⟨⟨_,rfl,by decide,(inserts _ _ rfl).mpr fun _ => refused⟩,
    ⟨_,rfl,by decide,(updates _ _ rfl).mpr fun _ => updated⟩,
    ⟨_,rfl,by decide,(deletes _ _ rfl).mpr fun _ => late⟩,
    ⟨_,rfl,by decide,(selects _ _ rfl).mpr fun _ => stored⟩,
    ⟨_,rfl,by decide,(transacts _ _ rfl).mpr fun _ => insertsTwiceSpeaks⟩⟩

/- The insert did not complete and has ret_code 0. A transaction with a SELECT whose rows the
client could not store is committed. -/
theorem pollFailureIsSuccess :
    (∃ done, uinsert ⟨10,0⟩ (some quiet) [pollFails] = some done ∧ done.result.retCode = 0 ∧
      ¬Reports done.result.toSqlError false done.calls) ∧
    (∃ done, utransaction ⟨10,0⟩ (some quiet)
        ⟨⟨[answers 0],[]⟩,[⟨[answers 1],[answers 1]⟩],⟨[answers 0],[]⟩,⟨[],[]⟩⟩ = some done ∧
      done.result.retCode = 0 ∧ done.result.committed = true ∧
      ¬Reports done.result.toSqlError done.result.committed done.calls) := by
  refine ⟨⟨_,rfl,by decide,fun reports => ?_⟩,⟨_,rfl,by decide,rfl,fun reports => ?_⟩⟩
  · exact (reports ⟨⟨-5,false⟩,by decide,.inl (by decide)⟩).1 (by decide)
  · exact (reports ⟨⟨0,true⟩,by decide,.inr rfl⟩).1 (by decide)

end Runs
end Uco.SqlFailure
