import Uco.Sendfile
import Mathlib.Algebra.GroupWithZero.Nat

/-! Time budgets: the loop around every I/O operation, which hands to the kernel what is left of
a timeout; the reads of one HTTP request, which share a timeout; the deadline of a Redis command. -/
namespace Uco.Deadline
open Sendfile

def ECONNRESET : ℕ := 104
def EPROTO : ℕ := 71

section Model

structure Round where
  answer : Int
  dr : ℕ
  deriving DecidableEq, Repr

structure Armed where
  elapsed : ℕ
  timeout : Time
  deriving DecidableEq, Repr

def again (answer : Int) : Prop := answer = -(EAGAIN : Int) ∨ answer = -(EINTR : Int)
instance (answer : Int) : Decidable (again answer) := inferInstanceAs (Decidable (_ ∨ _))

/- UR_FUNC_POST_COMM0: the loop of uread, urecv, usend and the others. Without a further answer the
last submission is under way. -/
def urLoop (ts : Time) (elapsed : ℕ) : List Round → List Armed × Option Int
  | [] => ([⟨elapsed,ts⟩],none)
  | round :: rest =>
    if again round.answer then
      if ts = ⟨0,0⟩ then
        let (later,res) := urLoop ts (elapsed + round.dr) rest
        (⟨elapsed,ts⟩ :: later,res)
      else if advanceTs ts round.dr = ⟨0,0⟩ then ([⟨elapsed,ts⟩],some (-(ETIME : Int)))
      else
        let (later,res) := urLoop (advanceTs ts round.dr) (elapsed + round.dr) rest
        (⟨elapsed,ts⟩ :: later,res)
    else ([⟨elapsed,ts⟩],some round.answer)

structure IOCall where
  rounds : List Round
  dur : ℕ
  covers : (rounds.map Round.dr).sum ≤ dur

/- HttpConnection::Read, again and again until the request is complete; m_readReqTime is the timeout. -/
def reads (readReqTime : Time) (elapsed : ℕ) : List IOCall → List Armed
  | [] => []
  | call :: rest =>
    if readReqTime = ⟨0,0⟩ then []
    else
      match urLoop readReqTime elapsed call.rounds with
      | (armed,none) => armed
      | (armed,some ret) =>
        if 0 < ret then armed ++ reads (advanceTs readReqTime call.dur) (elapsed + call.dur) rest else armed

def remain (totalNs elapsed : ℕ) : Option Time :=
  if totalNs = 0 then some ⟨0,0⟩
  else if totalNs ≤ elapsed then none
  else some ⟨((totalNs - elapsed) / 1000000000 : ℕ),((totalNs - elapsed) % 1000000000 : ℕ)⟩

inductive Outcome where
  | more
  | complete
  | broken
  deriving DecidableEq, Repr

structure Transfer extends IOCall where
  idle : ℕ
  outcome : Outcome

/- The transfers of ucommand: those of send_all, then those of read_reply. -/
def ucommand (totalNs elapsed : ℕ) : List Transfer → List Armed × Option Int
  | [] => ([],none)
  | transfer :: rest =>
    match remain totalNs (elapsed + transfer.idle) with
    | none => ([],some (-(ETIME : Int)))
    | some ts =>
      match urLoop ts (elapsed + transfer.idle) transfer.rounds with
      | (armed,none) => (armed,none)
      | (armed,some n) =>
        if n < 0 then (armed,some n)
        else if n = 0 then (armed,some (-(ECONNRESET : Int)))
        else
          match transfer.outcome with
          | .more =>
            let (later,res) := ucommand totalNs (elapsed + transfer.idle + transfer.dur) rest
            (armed ++ later,res)
          | .complete => (armed,some 0)
          | .broken => (armed,some (-(EPROTO : Int)))

end Model

section Purpose

def nanoseconds (ts : Time) : Int := ts.sec * 1000000000 + ts.nsec

structure Left (ts : Time) (total elapsed : ℕ) : Prop where
  sec : 0 ≤ ts.sec
  nsec : 0 ≤ ts.nsec
  below : ts.nsec < 1000000000
  exact : nanoseconds ts = (total - elapsed : ℕ)

structure Within (total : ℕ) (a : Armed) : Prop where
  inTime : a.elapsed < total
  exact : nanoseconds a.timeout = (total - a.elapsed : ℕ)

end Purpose

section Budget
variable {ts : Time} {total elapsed : ℕ}

theorem advanceLeft (left : Left ts total elapsed) (dr : ℕ) : Left (advanceTs ts dr) total (elapsed + dr) := by
  obtain ⟨sec,nsec,below,exact'⟩ := left
  simp only [nanoseconds] at exact'
  have parts := Nat.div_add_mod dr 1000000000
  have small := Nat.mod_lt dr (show 0 < 1000000000 by decide)
  unfold advanceTs
  simp only
  split_ifs with borrow spent spent <;> refine ⟨?_,?_,?_,?_⟩ <;> simp only [nanoseconds] at * <;> omega

theorem leftZero (left : Left ts total elapsed) : ts = ⟨0,0⟩ ↔ total ≤ elapsed := by
  obtain ⟨sec,nsec,below,exact'⟩ := left
  simp only [nanoseconds] at exact'
  constructor
  · rintro rfl
    simp only at exact'
    omega
  · intro spent
    obtain ⟨s,n⟩ := ts
    simp only at sec nsec below exact'
    rw [Time.mk.injEq]
    omega

theorem leftWithin (left : Left ts total elapsed) (some' : ts ≠ ⟨0,0⟩) : Within total ⟨elapsed,ts⟩ :=
  ⟨Nat.lt_of_not_le fun spent => some' ((leftZero left).mpr spent),left.exact⟩

theorem loopWithin (rounds : List Round) (left : Left ts total elapsed) (some' : ts ≠ ⟨0,0⟩) :
    ∀ a ∈ (urLoop ts elapsed rounds).1, Within total a := by
  have here := leftWithin left some'
  induction rounds generalizing ts elapsed with
  | nil => simpa [urLoop] using here
  | cons round rest ih =>
    rw [urLoop, if_neg some']
    by_cases retry : again round.answer
    · rw [if_pos retry]
      split
      · simpa using here
      · rename_i more
        have next := advanceLeft left round.dr
        exact List.forall_mem_cons.mpr ⟨here,ih next more (leftWithin next more)⟩
    · rw [if_neg retry]
      simpa using here

theorem loopSettled (rounds : List Round) {res : Int} (returned : (urLoop ts elapsed rounds).2 = some res) :
    ¬again res := by
  induction rounds generalizing ts elapsed with
  | nil => cases returned
  | cons round rest ih =>
    rw [urLoop] at returned
    split at returned
    · split at returned
      · exact ih returned
      · split at returned
        · cases returned
          decide
        · exact ih returned
    · rename_i settled
      cases returned
      exact settled

theorem remainLeft {ts : Time} (some' : total ≠ 0) (given : remain total elapsed = some ts) :
    Left ts total elapsed ∧ ts ≠ ⟨0,0⟩ := by
  rw [remain, if_neg some'] at given
  split at given
  · cases given
  · rename_i more
    have left : Left ts total elapsed := by
      cases given
      constructor <;> simp only [nanoseconds] <;> omega
    exact ⟨left,fun zero => more ((leftZero left).mp zero)⟩

end Budget

section Results

theorem readsLeft (calls : List IOCall) {ts : Time} {total elapsed : ℕ} (left : Left ts total elapsed) :
    ∀ a ∈ reads ts elapsed calls, Within total a := by
  induction calls generalizing ts elapsed with
  | nil => simp [reads]
  | cons call rest ih =>
    rw [reads]
    split
    · simp
    · rename_i some'
      have armed := loopWithin call.rounds left some'
      split
      · rename_i submitted loop
        rwa [loop] at armed
      · rename_i submitted ret loop
        rw [loop] at armed
        split
        · exact List.forall_mem_append.mpr ⟨armed,ih (advanceLeft left call.dur)⟩
        · exact armed

/- The reads of one request share the timeout: however slowly its bytes come, no read is submitted
after the timeout's time of reading, and each for what is left of it, never without an end. -/
theorem readsWithin (readTimeoutSec : ℕ) (calls : List IOCall) :
    ∀ a ∈ reads ⟨readTimeoutSec,0⟩ 0 calls, Within (readTimeoutSec * 1000000000) a := by
  refine readsLeft calls ⟨?_,?_,?_,?_⟩ <;> simp only [nanoseconds] <;> omega

theorem secondReadWithin : Within 5000000000 ⟨1200,⟨4,999998800⟩⟩ :=
  readsWithin 5 [⟨[⟨-4,500⟩,⟨31,700⟩],1200,by decide⟩,⟨[⟨900,300⟩],300,by decide⟩] _ (by decide)

structure Timely (total : ℕ) (result : List Armed × Option Int) : Prop where
  within : ∀ a ∈ result.1, Within total a
  settled : ∀ res, result.2 = some res → ¬again res

/- A command with a deadline, however the answers come in: all its sends and receives are submitted before
the deadline, each for what is left by then. -/
theorem commandTimely {total : ℕ} (deadline : total ≠ 0) (elapsed : ℕ) (transfers : List Transfer) :
    Timely total (ucommand total elapsed transfers) := by
  induction transfers generalizing elapsed with
  | nil => exact ⟨by simp [ucommand],nofun⟩
  | cons transfer rest ih =>
    rw [ucommand]
    split
    · refine ⟨by simp,fun res same => ?_⟩
      cases same
      decide
    · rename_i ts given
      obtain ⟨left,some'⟩ := remainLeft deadline given
      have armed := loopWithin transfer.rounds left some'
      have settled := @loopSettled ts (elapsed + transfer.idle) transfer.rounds
      split
      · rename_i submitted loop
        rw [loop] at armed
        exact ⟨armed,nofun⟩
      · rename_i submitted n loop
        rw [loop] at armed settled
        split
        · refine ⟨armed,fun res same => ?_⟩
          cases same
          exact settled rfl
        · split
          · refine ⟨armed,fun res same => ?_⟩
            cases same
            decide
          · split
            · have later := ih (elapsed + transfer.idle + transfer.dur)
              exact ⟨List.forall_mem_append.mpr ⟨armed,later.within⟩,later.settled⟩
            · refine ⟨armed,fun res same => ?_⟩
              cases same
              decide
            · refine ⟨armed,fun res same => ?_⟩
              cases same
              decide

def setTransfers : List Transfer :=
  [⟨⟨[⟨-4,500⟩,⟨31,700⟩],1200,by decide⟩,10,.more⟩,⟨⟨[⟨3,900⟩],900,by decide⟩,20,.more⟩,
    ⟨⟨[⟨2,400⟩],400,by decide⟩,20,.complete⟩]

theorem setTimely : (ucommand 2000000000 0 setTransfers).2 = some 0 ∧
    (ucommand 2000000000 0 setTransfers).1.length = 4 ∧ Timely 2000000000 (ucommand 2000000000 0 setTransfers) :=
  ⟨by decide,by decide,commandTimely (by decide) 0 setTransfers⟩

end Results

end Uco.Deadline
