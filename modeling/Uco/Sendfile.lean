import Mathlib.Logic.Relation
import Mathlib.Data.List.Basic
import Mathlib.Algebra.Group.Nat.Defs

/-! usendfile. The kernel answers each splice with a byte count, zero or an error; a
file-to-pipe splice moves what the file has at that offset, at most the length asked
for, and a pipe-to-socket splice moves the front of the pipe. -/
namespace Uco.Sendfile

def EINTR : ℕ := 4
def EAGAIN : ℕ := 11
def ETIME : ℕ := 62

structure Time where
  sec : Int
  nsec : Int
  deriving DecidableEq, Repr

def advanceTs (ts : Time) (ns : ℕ) : Time :=
  let sec := ts.sec - (ns / 1000000000 : ℕ)
  let nsec := ts.nsec - (ns % 1000000000 : ℕ)
  let ts : Time := if nsec < 0 then ⟨sec - 1,nsec + 1000000000⟩ else ⟨sec,nsec⟩
  if ts.sec < 0 then ⟨0,0⟩ else ts

def tick (ts : Time) (first : Bool) (dr : ℕ) : Option Time :=
  if ts = ⟨0,0⟩ ∨ first = true then some ts
  else if advanceTs ts dr = ⟨0,0⟩ then none else some (advanceTs ts dr)

structure Job where
  file : List UInt8
  offset : ℕ
  count : ℕ
  size : count < 2^64

/- io_uring_prep_splice takes the length as a 32-bit unsigned. The first stage asks for
the whole count on every round. -/
def Job.asked (j : Job) : ℕ := j.count % 2^32

inductive Phase where
  | create
  | fill
  | drain (m written : ℕ)
  | returned (r : Int)
  deriving DecidableEq, Repr

structure State where
  phase : Phase
  remain : ℕ
  cur : ℕ
  offset : ℕ
  pipe : List UInt8
  sock : List UInt8
  ts : Time
  first : Bool
  deriving DecidableEq, Repr

def subSize (a b : ℕ) : ℕ := (a + 2^64 - b) % 2^64

def State.failed (s : State) (e : ℕ) : State := {s with phase := .returned (if s.cur ≠ 0 then s.cur else -e)}

def retried (e : ℕ) : Prop := e = EAGAIN ∨ e = EINTR

def start (j : Job) (ts : Time) : State :=
  ⟨if j.count = 0 then .returned 0 else .create,j.count,0,j.offset,[],[],ts,true⟩

inductive Step (j : Job) : State → State → Prop where
  | pipe {s} (here : s.phase = .create) : Step j s {s with phase := .fill}
  | pipeFailed {s e} (here : s.phase = .create) (error : 0 < e) : Step j s {s with phase := .returned (-(e : ℕ))}
  | done {s} (here : s.phase = .fill) (none : s.remain = 0) : Step j s {s with phase := .returned s.cur}
  | fillLate {s} (dr : ℕ) (here : s.phase = .fill) (more : 0 < s.remain) (late : tick s.ts s.first dr = none) :
      Step j s (s.failed ETIME)
  | fillAgain {s ts e} (dr : ℕ) (here : s.phase = .fill) (more : 0 < s.remain)
      (left : tick s.ts s.first dr = some ts) (again : retried e) :
      Step j s {s with ts := ts, first := s.first && ts == ⟨0,0⟩}
  | fillEnd {s ts} (dr : ℕ) (here : s.phase = .fill) (more : 0 < s.remain)
      (left : tick s.ts s.first dr = some ts) : Step j s {s with phase := .returned s.cur}
  | fillError {s ts e} (dr : ℕ) (here : s.phase = .fill) (more : 0 < s.remain)
      (left : tick s.ts s.first dr = some ts) (error : 0 < e ∧ ¬retried e) : Step j s (s.failed e)
  | fill {s ts m} (dr : ℕ) (here : s.phase = .fill) (more : 0 < s.remain)
      (left : tick s.ts s.first dr = some ts) (moved : 0 < m ∧ m ≤ j.asked)
      (inFile : j.offset + s.cur + m ≤ j.file.length) :
      Step j s {s with phase := .drain m 0, ts := ts, first := s.first && ts == ⟨0,0⟩,
                       pipe := s.pipe ++ (j.file.drop (j.offset + s.cur)).take m}
  | drained {s m written} (here : s.phase = .drain m written) (all : m ≤ written) :
      Step j s {s with phase := .fill, remain := subSize s.remain m}
  | drainLate {s m written} (dr : ℕ) (here : s.phase = .drain m written) (more : written < m)
      (late : tick s.ts false dr = none) : Step j s (s.failed ETIME)
  | drainAgain {s m written ts e} (dr : ℕ) (here : s.phase = .drain m written) (more : written < m)
      (left : tick s.ts false dr = some ts) (again : retried e) : Step j s {s with ts := ts}
  | drainEnd {s m written ts} (dr : ℕ) (here : s.phase = .drain m written) (more : written < m)
      (left : tick s.ts false dr = some ts) : Step j s {s with phase := .returned s.cur}
  | drainError {s m written ts e} (dr : ℕ) (here : s.phase = .drain m written) (more : written < m)
      (left : tick s.ts false dr = some ts) (error : 0 < e ∧ ¬retried e) : Step j s (s.failed e)
  | drain {s m written ts k} (dr : ℕ) (here : s.phase = .drain m written) (more : written < m)
      (left : tick s.ts false dr = some ts) (moved : 0 < k ∧ k ≤ m - written) :
      Step j s {s with phase := .drain m (written + k), cur := s.cur + k, offset := s.offset + k, ts := ts,
                       sock := s.sock ++ s.pipe.take k, pipe := s.pipe.drop k}

def Reachable (j : Job) (ts : Time) : State → Prop := Relation.ReflTransGen (Step j) (start j ts)

def countsDown (j : Job) (s : State) : Prop :=
  match s.phase with
  | .fill => s.remain + s.sock.length = j.count
  | .drain _ written => s.remain + s.sock.length = j.count + written
  | _ => True

structure Exact (j : Job) (s : State) : Prop where
  slice : s.sock = (j.file.drop j.offset).take s.sock.length
  within : s.sock.length ≤ j.count
  offset : s.offset = j.offset + s.sock.length
  counted : countsDown j s
  returned : ∀ {r}, s.phase = .returned r → 0 < s.sock.length → r = s.sock.length

def inPhase (j : Job) (s : State) : Prop :=
  match s.phase with
  | .create => s.sock = [] ∧ s.remain = j.count ∧ s.pipe = []
  | .fill => s.pipe = [] ∧ s.remain + s.cur = j.count
  | .drain m written => written ≤ m ∧ written ≤ s.cur ∧ m ≤ s.remain ∧ s.remain + s.cur = j.count + written ∧
      s.pipe.length = m - written ∧ s.pipe = (j.file.drop (j.offset + s.cur)).take (m - written)
  | .returned r => s.cur ≤ j.count ∧ (0 < s.cur → r = s.cur)

structure Invariant (j : Job) (s : State) : Prop where
  slice : s.sock = (j.file.drop j.offset).take s.cur
  sent : s.sock.length = s.cur
  offset : s.offset = j.offset + s.cur
  phase : inPhase j s

def bounded (j : Job) : Prop := j.asked ≤ 1 ∨ j.file.length ≤ j.offset + j.count

section Steps
variable {j : Job} {s s' : State}

theorem subSizeEq {a b : ℕ} (fits : a < 2^64) (le : b ≤ a) : subSize a b = a - b := by
  unfold subSize
  omega

theorem exactOf (inv : Invariant j s) : Exact j s := by
  obtain ⟨slice,sent,offset,phase⟩ := inv
  refine ⟨by rw [sent]; exact slice,?_,by omega,?_,?_⟩
  · unfold inPhase at phase
    split at phase <;> simp_all <;> omega
  · unfold inPhase at phase
    unfold countsDown
    split at phase <;> simp_all
  · intro r here some
    simp only [inPhase, here] at phase
    rw [phase.2 (by omega), sent]

theorem curLe (inv : Invariant j s) : s.cur ≤ j.count := by
  have := (exactOf inv).within
  have := inv.sent
  omega

theorem failedInvariant (inv : Invariant j s) (e : ℕ) : Invariant j (s.failed e) := by
  have le := curLe inv
  refine ⟨inv.slice,inv.sent,inv.offset,le,fun some => ?_⟩
  simp only [State.failed] at some ⊢
  rw [if_pos (by omega)]

theorem returnedInvariant (inv : Invariant j s) : Invariant j {s with phase := .returned s.cur} := by
  have le := curLe inv
  exact ⟨inv.slice,inv.sent,inv.offset,le,fun _ => rfl⟩

theorem startInvariant (ts : Time) : Invariant j (start j ts) := by
  refine ⟨rfl,rfl,rfl,?_⟩
  unfold start inPhase
  by_cases none : j.count = 0 <;> simp [none]

theorem stepInvariant (safe : bounded j) (inv : Invariant j s) (taken : Step j s s') : Invariant j s' := by
  have phase := inv.phase
  cases taken with
  | pipe here =>
    simp only [inPhase, here] at phase
    have := inv.sent
    refine ⟨inv.slice,inv.sent,inv.offset,phase.2.2,?_⟩
    simp_all
  | pipeFailed here error =>
    simp only [inPhase, here] at phase
    have none : s.cur = 0 := by rw [← inv.sent, phase.1]; rfl
    refine ⟨inv.slice,inv.sent,inv.offset,?_,fun some => ?_⟩ <;> simp only [none] at *
    · exact Nat.zero_le _
    · omega
  | done here none => exact returnedInvariant inv
  | fillLate dr here more late => exact failedInvariant inv _
  | fillAgain dr here more left again => exact ⟨inv.slice,inv.sent,inv.offset,phase⟩
  | fillEnd dr here more left => exact returnedInvariant inv
  | fillError dr here more left error => exact failedInvariant inv _
  | @fill ts m dr here more left moved inFile =>
    simp only [inPhase, here] at phase
    have le : m ≤ s.remain := by
      rcases safe with one | ends <;> omega
    refine ⟨inv.slice,inv.sent,inv.offset,Nat.zero_le _,Nat.zero_le _,le,phase.2,?_,?_⟩
    · simp [phase.1]
      omega
    · simp [phase.1]
  | @drained m written here all =>
    simp only [inPhase, here] at phase
    have size := j.size
    obtain ⟨below,sent,le,counts,length,content⟩ := phase
    have left : subSize s.remain m = s.remain - m := subSizeEq (by omega) le
    have empty : s.pipe = [] := List.eq_nil_of_length_eq_zero (by omega)
    refine ⟨inv.slice,inv.sent,inv.offset,empty,?_⟩
    simp only [left]
    omega
  | drainLate dr here more late => exact failedInvariant inv _
  | drainAgain dr here more left again => exact ⟨inv.slice,inv.sent,inv.offset,phase⟩
  | drainEnd dr here more left => exact returnedInvariant inv
  | drainError dr here more left error => exact failedInvariant inv _
  | @drain m written ts k dr here more left moved =>
    simp only [inPhase, here] at phase
    obtain ⟨below,sent,le,counts,length,content⟩ := phase
    have front : s.pipe.take k = (j.file.drop (j.offset + s.cur)).take k := by
      rw [content, List.take_take, Nat.min_eq_left moved.2]
    refine ⟨?_,?_,?_,?_,?_,le,?_,?_,?_⟩
    · simp only [front]
      rw [List.take_add, List.drop_drop, ← inv.slice]
    · simp only [List.length_append, List.length_take, inv.sent]
      omega
    · simp only [inv.offset]
      omega
    · omega
    · simp only
      omega
    · simp only
      omega
    · simp only [List.length_drop]
      omega
    · simp only
      rw [content, List.drop_take, List.drop_drop, Nat.sub_sub, Nat.add_assoc]

theorem boundedExact (safe : bounded j) {ts : Time} (reached : Reachable j ts s) : Exact j s := by
  refine exactOf ?_
  induction reached with
  | refl => exact startInvariant ts
  | tail _ taken ih => exact stepInvariant safe ih taken

structure Round (j : Job) (i : ℕ) (s : State) : Prop where
  phase : s.phase = .fill
  cur : s.cur = i
  remain : s.remain = j.count - i
  ts : s.ts = ⟨0,0⟩
  pipe : s.pipe = []
  sent : s.sock.length = i

theorem tickZero {ts : Time} (zero : ts = ⟨0,0⟩) (first : Bool) (dr : ℕ) : tick ts first dr = some ts := by
  simp [tick, zero]

theorem moveAll {i m : ℕ} (round : Round j i s) (more : i < j.count) (moved : 0 < m ∧ m ≤ j.asked)
    (inFile : j.offset + i + m ≤ j.file.length) : ∃ s', Relation.ReflTransGen (Step j) s s' ∧
      s'.phase = .drain m m ∧ s'.cur = i + m ∧ s'.remain = j.count - i ∧ s'.ts = ⟨0,0⟩ ∧ s'.pipe = [] ∧
      s'.sock.length = i + m := by
  obtain ⟨phase,cur,remain,ts,pipe,sent⟩ := round
  have filled := Step.fill 0 phase (by omega) (tickZero ts _ _) moved (by omega)
  refine ⟨_,.tail (.single filled) (.drain (k := m) 0 rfl moved.1 (tickZero ts false 0) ⟨moved.1,Nat.le_refl _⟩),
    ?_,?_,remain,ts,?_,?_⟩
  · simp
  · simp [cur]
  · simp [pipe]
  · simp [pipe, sent, cur]
    omega

theorem nextRound {i : ℕ} (round : Round j i s) (more : i < j.count) (asks : 0 < j.asked)
    (inFile : j.offset + i < j.file.length) :
    ∃ s', Relation.ReflTransGen (Step j) s s' ∧ Round j (i + 1) s' := by
  obtain ⟨s',moves,phase,cur,remain,ts,pipe,sent⟩ := moveAll round more ⟨Nat.one_pos,asks⟩ (by omega)
  have size := j.size
  refine ⟨_,moves.tail (.drained phase (Nat.le_refl _)),⟨rfl,cur,?_,ts,pipe,sent⟩⟩
  simp only [remain]
  rw [subSizeEq (by omega) (by omega)]
  omega

theorem someRounds (some : 0 < j.count) (asks : 0 < j.asked) (inFile : j.offset + j.count < j.file.length)
    {i : ℕ} (le : i ≤ j.count) : ∃ s, Reachable j ⟨0,0⟩ s ∧ Round j i s := by
  induction i with
  | zero =>
    have create : (start j ⟨0,0⟩).phase = .create := by simp [start, Nat.ne_of_gt some]
    exact ⟨_,.single (.pipe create),⟨rfl,rfl,rfl,rfl,rfl,rfl⟩⟩
  | succ i ih =>
    obtain ⟨s,reached,round⟩ := ih (by omega)
    obtain ⟨s',moves,next⟩ := nextRound round (by omega) asks (by omega)
    exact ⟨s',reached.trans moves,next⟩

theorem overrun (loose : ¬bounded j) : ∃ s, Reachable j ⟨0,0⟩ s ∧ j.count < s.sock.length := by
  simp only [bounded, not_or, Nat.not_le] at loose
  obtain ⟨asks,beyond⟩ := loose
  have le : j.asked ≤ j.count := Nat.mod_le _ _
  obtain ⟨s,reached,round⟩ := someRounds (j := j) (i := j.count + 1 - j.asked) (by omega) (by omega) beyond (by omega)
  obtain ⟨s',moves,-,-,-,-,-,sent⟩ := moveAll (m := j.asked) round (by omega) ⟨by omega,Nat.le_refl _⟩ (by omega)
  exact ⟨s',reached.trans moves,by omega⟩

end Steps

/- Every answer of the kernel leaves the transfer exact just when the first stage can
never be given more than remains. -/
theorem exactIff (j : Job) : (∀ ts s, Reachable j ts s → Exact j s) ↔ bounded j := by
  constructor
  · intro always
    by_contra beyond
    obtain ⟨s,reached,more⟩ := overrun beyond
    exact absurd (always _ s reached).within (by omega)
  · exact fun safe ts s reached => boundedExact safe reached

def tenOfTwenty : Job := ⟨List.replicate 20 7,0,10,by decide⟩

theorem fourteenSent : ∃ s, Reachable tenOfTwenty ⟨0,0⟩ s ∧ s.sock.length = 14 ∧ ¬Exact tenOfTwenty s := by
  have r1 : Reachable tenOfTwenty ⟨0,0⟩ _ := .single (.pipe rfl)
  have r2 := r1.tail (.fill (m := 4) 0 rfl (by decide) rfl (by decide) (by decide))
  have r3 := r2.tail (.drain (k := 4) 0 rfl (by decide) rfl (by decide))
  have r4 := r3.tail (.drained rfl (by decide))
  have r5 := r4.tail (.fill (m := 10) 0 rfl (by decide) rfl (by decide) (by decide))
  have r6 := r5.tail (.drain (k := 10) 0 rfl (by decide) rfl (by decide))
  refine ⟨_,r6,by decide,fun exact => ?_⟩
  exact absurd exact.within (by decide)

end Uco.Sendfile
