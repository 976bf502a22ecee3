import Uco.Interleaving

/-! ushared_mutex (the implementation selected by USE_NEW_SHARED_MUTEX_IMPL). Each
atomic operation on readers_ and reader_wait_ is one step; the umutex w_ and the two
usema objects stand at their specifications: w_ is held or free, and a semaphore is
a count of permits that any of its waiters may take. -/
namespace Uco.SharedMutex
open Interleaving

def kMaxReaders : Int := 2^30

structure Shared where
  readers : Int
  readerWait : Int
  readerSema : Nat
  writerSema : Nat
  w : Bool
  deriving DecidableEq, Repr

def initial : Shared := ⟨0,0,0,0,false⟩

inductive Pc where
  | idle
  | lockW
  | register
  | count (r : Int)
  | waitWriter
  | writing
  | tryRegister
  | tryUndo
  | release (queued : Nat)
  | waitReader
  | reading
  | tryShared (c : Int)
  | leave
  | wake
  | fatal
  deriving DecidableEq, Repr

/- lock(), try_lock() and unlock(). A failed try_lock of w_ is also possible on a free mutex. -/
inductive WriterMove : Shared → Pc → Shared → Pc → Prop where
  | callLock {g} : WriterMove g .idle g .lockW
  | lockW {g} (free : g.w = false) : WriterMove g .lockW {g with w := true} .register
  | registerIdle {g} (none : g.readers = 0) :
      WriterMove g .register {g with readers := g.readers - kMaxReaders} .writing
  | registerBusy {g} (some : g.readers ≠ 0) :
      WriterMove g .register {g with readers := g.readers - kMaxReaders} (.count g.readers)
  | countDone {g r} (gone : g.readerWait = -r) :
      WriterMove g (.count r) {g with readerWait := g.readerWait + r} .writing
  | countWait {g r} (left : g.readerWait ≠ -r) :
      WriterMove g (.count r) {g with readerWait := g.readerWait + r} .waitWriter
  | waitWriter {g n} (permit : g.writerSema = n + 1) :
      WriterMove g .waitWriter {g with writerSema := n} .writing
  | tryLockFail {g} : WriterMove g .idle g .idle
  | tryLockW {g} (free : g.w = false) : WriterMove g .idle {g with w := true} .tryRegister
  | tryRegister {g} (none : g.readers = 0) :
      WriterMove g .tryRegister {g with readers := -kMaxReaders} .writing
  | tryRefused {g} (some : g.readers ≠ 0) : WriterMove g .tryRegister g .tryUndo
  | tryUndo {g} : WriterMove g .tryUndo {g with w := false} .idle
  | unlock {g} (registered : g.readers < 0) :
      WriterMove g .writing {g with readers := g.readers + kMaxReaders}
        (.release (g.readers + kMaxReaders).toNat)
  | unlockFatal {g} (unlocked : 0 ≤ g.readers) :
      WriterMove g .writing {g with readers := g.readers + kMaxReaders} .fatal
  | release {g n} : WriterMove g (.release (n+1)) {g with readerSema := g.readerSema + 1} (.release n)
  | released {g} : WriterMove g (.release 0) {g with w := false} .idle

/- lock_shared(), try_lock_shared() and unlock_shared(). The weak exchange may fail for no
reason; it reloads c either way. -/
inductive ReaderMove : Shared → Pc → Shared → Pc → Prop where
  | lockShared {g} (unsigned : 0 ≤ g.readers) :
      ReaderMove g .idle {g with readers := g.readers + 1} .reading
  | lockSharedQueue {g} (signed : g.readers < 0) :
      ReaderMove g .idle {g with readers := g.readers + 1} .waitReader
  | waitReader {g n} (permit : g.readerSema = n + 1) :
      ReaderMove g .waitReader {g with readerSema := n} .reading
  | tryShared {g} : ReaderMove g .idle g (.tryShared g.readers)
  | trySharedTaken {g c} (positive : 0 ≤ c) (same : g.readers = c) :
      ReaderMove g (.tryShared c) {g with readers := c + 1} .reading
  | trySharedAgain {g c} (positive : 0 ≤ c) : ReaderMove g (.tryShared c) g (.tryShared g.readers)
  | trySharedRefused {g c} (signed : c < 0) : ReaderMove g (.tryShared c) g .idle
  | unlockShared {g} (unsigned : 0 < g.readers) :
      ReaderMove g .reading {g with readers := g.readers - 1} .idle
  | unlockSharedFatal {g} (none : g.readers = 0) :
      ReaderMove g .reading {g with readers := g.readers - 1} .fatal
  | unlockSharedLeave {g} (signed : g.readers < 0) :
      ReaderMove g .reading {g with readers := g.readers - 1} .leave
  | leaveLast {g} (last : g.readerWait = 1) :
      ReaderMove g .leave {g with readerWait := g.readerWait - 1} .wake
  | leaveMore {g} (more : g.readerWait ≠ 1) :
      ReaderMove g .leave {g with readerWait := g.readerWait - 1} .idle
  | wake {g} : ReaderMove g .wake {g with writerSema := g.writerSema + 1} .idle

def Move (g : Shared) (p : Pc) (g' : Shared) (p' : Pc) : Prop :=
  WriterMove g p g' p' ∨ ReaderMove g p g' p'

def system : System Shared Pc := ⟨fun _ _ => False, Move⟩

abbrev State (T : Type*) := Config Shared Pc T

def start (T : Type*) : State T := ⟨initial, fun _ => .idle⟩

@[simp] def inLock : Pc → ℕ | .register => 1 | .tryRegister => 1 | .tryUndo => 1 | .release _ => 1 | _ => 0
@[simp] def counting : Pc → ℕ | .count _ => 1 | _ => 0
@[simp] def announced : Pc → ℕ | .count r => r.toNat | _ => 0
@[simp] def negative : Pc → ℕ | .count r => (-r).toNat | _ => 0
@[simp] def awaiting : Pc → ℕ | .waitWriter => 1 | _ => 0
@[simp] def writing : Pc → ℕ | .writing => 1 | _ => 0
@[simp] def unsent : Pc → ℕ | .release n => n | _ => 0
@[simp] def queued : Pc → ℕ | .waitReader => 1 | _ => 0
@[simp] def reading : Pc → ℕ | .reading => 1 | _ => 0
@[simp] def leaving : Pc → ℕ | .leave => 1 | _ => 0
@[simp] def waking : Pc → ℕ | .wake => 1 | _ => 0
@[simp] def fatal : Pc → ℕ | .fatal => 1 | _ => 0

abbrev Totals := (Pc → ℕ) → ℕ

def admitted (s : Shared) (n : Totals) : ℕ := n reading + s.readerSema + n leaving

structure Word (s : Shared) (n : Totals) (sign : ℕ) : Prop where
  owner : n inLock + sign = s.w.toNat
  readers : s.readers = n reading + n queued - kMaxReaders * sign
  unsentNone : sign * n unsent = 0
  sane : n fatal + n negative = 0

structure Unsigned (s : Shared) (n : Totals) : Prop extends Word s n 0 where
  sign : n counting = 0 ∧ n awaiting = 0 ∧ n writing = 0
  quiet : s.readerWait = 0 ∧ n leaving = 0 ∧ s.writerSema + n waking = 0
  permits : s.readerSema + n unsent = n queued

structure Counting (s : Shared) (n : Totals) : Prop extends Word s n 1 where
  sign : n counting = 1 ∧ n awaiting = 0 ∧ n writing = 0
  debt : s.readerWait + n announced = admitted s n
  early : admitted s n ≤ n announced ∧ n announced < 2^30
  quiet : s.writerSema + n waking = 0

structure Awaiting (s : Shared) (n : Totals) : Prop extends Word s n 1 where
  sign : n counting = 0 ∧ n awaiting = 1 ∧ n writing = 0
  debt : s.readerWait = admitted s n
  some : 0 < admitted s n ∧ admitted s n < 2^30
  quiet : s.writerSema + n waking = 0

structure Drained (s : Shared) (n : Totals) : Prop extends Word s n 1 where
  sign : n counting = 0 ∧ n awaiting = 1 ∧ n writing = 0
  debt : s.readerWait = 0
  none : admitted s n = 0
  called : s.writerSema + n waking = 1

structure Writing (s : Shared) (n : Totals) : Prop extends Word s n 1 where
  sign : n counting = 0 ∧ n awaiting = 0 ∧ n writing = 1
  debt : s.readerWait = 0
  none : admitted s n = 0
  quiet : s.writerSema + n waking = 0

inductive Balanced (s : Shared) (n : Totals) : Prop where
  | unsigned (phase : Unsigned s n)
  | counting (phase : Counting s n)
  | awaiting (phase : Awaiting s n)
  | drained (phase : Drained s n)
  | writing (phase : Writing s n)

structure Posted (p p' : Pc) (n n' : Totals) : Prop where
  own : inLock p ≤ n inLock
  inLock : n' inLock + inLock p = n inLock + inLock p'
  counting : n' counting + counting p = n counting + counting p'
  announced : n' announced + announced p = n announced + announced p'
  awaiting : n' awaiting + awaiting p = n awaiting + awaiting p'
  writing : n' writing + writing p = n writing + writing p'
  unsent : n' unsent + unsent p = n unsent + unsent p'
  queued : n' queued + queued p = n queued + queued p'
  reading : n' reading + reading p = n reading + reading p'
  leaving : n' leaving + leaving p = n leaving + leaving p'
  waking : n' waking + waking p = n waking + waking p'
  fatal : n' fatal + fatal p = n fatal + fatal p'
  negative : n' negative + negative p = n negative + negative p'

structure Within (n : Totals) : Prop where
  few : n reading + n queued < 2^30
  unsent : n inLock = 0 → n unsent = 0
  announced : n counting = 0 → n announced = 0

section Steps
variable {s s' : Shared} {p p' : Pc} {n n' : Totals}

def unlisted : Pc → Prop
  | .idle | .lockW | .tryShared _ => True
  | _ => False

structure Same (n n' : Totals) : Prop where
  inLock : n' inLock = n inLock
  counting : n' counting = n counting
  announced : n' announced = n announced
  awaiting : n' awaiting = n awaiting
  writing : n' writing = n writing
  unsent : n' unsent = n unsent
  queued : n' queued = n queued
  reading : n' reading = n reading
  leaving : n' leaving = n leaving
  waking : n' waking = n waking
  fatal : n' fatal = n fatal
  negative : n' negative = n negative

theorem sameOf (posted : Posted p p' n n') (before : unlisted p) (after : unlisted p') : Same n n' := by
  obtain ⟨-,c1,c2,c3,c4,c5,c6,c7,c8,c9,c10,c11,c12⟩ := posted
  cases p <;> first | exact before.elim | (cases p' <;> first | exact after.elim | exact ⟨c1,c2,c3,c4,c5,c6,c7,c8,c9,c10,c11,c12⟩)

section Unchanged
variable (same : Same n n')
include same

theorem sameAdmitted : admitted s n' = admitted s n := by
  rw [admitted,admitted,same.reading,same.leaving]

theorem sameSign {a b c : ℕ} (old : n counting = a ∧ n awaiting = b ∧ n writing = c) :
    n' counting = a ∧ n' awaiting = b ∧ n' writing = c := by
  rw [same.counting,same.awaiting,same.writing]
  exact old

theorem sameWord {sign : ℕ} (old : Word s n sign) : Word s n' sign :=
  ⟨by rw [same.inLock]; exact old.owner,by rw [same.reading,same.queued]; exact old.readers,
    by rw [same.unsent]; exact old.unsentNone,by rw [same.fatal,same.negative]; exact old.sane⟩

theorem sameUnsigned (old : Unsigned s n) : Unsigned s n' :=
  ⟨sameWord same old.toWord,sameSign same old.sign,by rw [same.leaving,same.waking]; exact old.quiet,
    by rw [same.unsent,same.queued]; exact old.permits⟩

theorem sameCounting (old : Counting s n) : Counting s n' :=
  ⟨sameWord same old.toWord,sameSign same old.sign,by rw [same.announced,sameAdmitted same]; exact old.debt,
    by rw [same.announced,sameAdmitted same]; exact old.early,by rw [same.waking]; exact old.quiet⟩

theorem sameAwaiting (old : Awaiting s n) : Awaiting s n' :=
  ⟨sameWord same old.toWord,sameSign same old.sign,by rw [sameAdmitted same]; exact old.debt,
    by rw [sameAdmitted same]; exact old.some,by rw [same.waking]; exact old.quiet⟩

theorem sameDrained (old : Drained s n) : Drained s n' :=
  ⟨sameWord same old.toWord,sameSign same old.sign,old.debt,by rw [sameAdmitted same]; exact old.none,
    by rw [same.waking]; exact old.called⟩

theorem sameWriting (old : Writing s n) : Writing s n' :=
  ⟨sameWord same old.toWord,sameSign same old.sign,old.debt,by rw [sameAdmitted same]; exact old.none,
    by rw [same.waking]; exact old.quiet⟩

end Unchanged

theorem readerUnsigned (taken : ReaderMove s p s' p') (posted : Posted p p' n n')
    (before : Within n) (old : Unsigned s n) : Unsigned s' n' := by
  have still : unlisted p → unlisted p' → Unsigned s n' := fun out back => sameUnsigned (sameOf posted out back) old
  obtain ⟨few,-,-⟩ := before
  obtain ⟨⟨owner,readers,unsentNone,sane⟩,sign,quiet,permits⟩ := old
  obtain ⟨own,c1,c2,c3,c4,c5,c6,c7,c8,c9,c10,c11,c12⟩ := posted
  cases taken
  case tryShared | trySharedAgain | trySharedRefused => exact still trivial trivial
  all_goals
    clear still
    simp only [inLock, counting, announced, awaiting, writing, unsent, queued, reading, leaving,
      waking, fatal, negative, kMaxReaders, Nat.add_zero] at *
  case lockShared | waitReader | trySharedTaken | unlockShared =>
    refine ⟨⟨?_,?_,?_,?_⟩,?_,?_,?_⟩ <;>
      (try simp only [kMaxReaders, c1, c2, c4, c5, c6, c7, c8, c9, c10, c11, c12]) <;> first | assumption | omega
  all_goals exfalso; omega

theorem readerCounting (taken : ReaderMove s p s' p') (posted : Posted p p' n n')
    (before : Within n) (old : Counting s n) : Counting s' n' := by
  have still : unlisted p → unlisted p' → Counting s n' := fun out back => sameCounting (sameOf posted out back) old
  obtain ⟨few,-,-⟩ := before
  obtain ⟨⟨owner,readers,unsentNone,sane⟩,sign,debt,early,quiet⟩ := old
  obtain ⟨own,c1,c2,c3,c4,c5,c6,c7,c8,c9,c10,c11,c12⟩ := posted
  simp only [admitted] at debt early
  cases taken
  case tryShared | trySharedAgain | trySharedRefused => exact still trivial trivial
  all_goals
    clear still
    simp only [inLock, counting, announced, awaiting, writing, unsent, queued, reading, leaving,
      waking, fatal, negative, kMaxReaders, Nat.add_zero] at *
  case lockSharedQueue | waitReader | unlockSharedLeave | leaveMore =>
    refine ⟨⟨?_,?_,?_,?_⟩,?_,?_,?_,?_⟩ <;>
      (try simp only [admitted, kMaxReaders, c1, c2, c3, c4, c5, c6, c7, c8, c9, c10, c11, c12]) <;> first | assumption | omega
  all_goals exfalso; omega

theorem readerAwaiting (taken : ReaderMove s p s' p') (posted : Posted p p' n n')
    (before : Within n) (old : Awaiting s n) : Awaiting s' n' ∨ Drained s' n' := by
  have still : unlisted p → unlisted p' → Awaiting s n' := fun out back => sameAwaiting (sameOf posted out back) old
  obtain ⟨few,-,-⟩ := before
  obtain ⟨⟨owner,readers,unsentNone,sane⟩,sign,debt,some,quiet⟩ := old
  obtain ⟨own,c1,c2,c3,c4,c5,c6,c7,c8,c9,c10,c11,c12⟩ := posted
  simp only [admitted] at debt some
  cases taken
  case tryShared | trySharedAgain | trySharedRefused => exact .inl (still trivial trivial)
  all_goals
    clear still
    simp only [inLock, counting, announced, awaiting, writing, unsent, queued, reading, leaving,
      waking, fatal, negative, kMaxReaders, Nat.add_zero] at *
  case lockSharedQueue | waitReader | unlockSharedLeave | leaveMore =>
    refine .inl ⟨⟨?_,?_,?_,?_⟩,?_,?_,?_,?_⟩ <;>
      (try simp only [admitted, kMaxReaders, c1, c2, c4, c5, c6, c7, c8, c9, c10, c11, c12]) <;> first | assumption | omega
  case leaveLast =>
    refine .inr ⟨⟨?_,?_,?_,?_⟩,?_,?_,?_,?_⟩ <;>
      (try simp only [admitted, kMaxReaders, c1, c2, c4, c5, c6, c7, c8, c10, c11, c12]) <;> first | assumption | omega
  all_goals exfalso; omega

theorem readerDrained (taken : ReaderMove s p s' p') (posted : Posted p p' n n')
    (before : Within n) (old : Drained s n) : Drained s' n' := by
  have still : unlisted p → unlisted p' → Drained s n' := fun out back => sameDrained (sameOf posted out back) old
  obtain ⟨few,-,-⟩ := before
  obtain ⟨⟨owner,readers,unsentNone,sane⟩,sign,debt,none,called⟩ := old
  obtain ⟨own,c1,c2,c3,c4,c5,c6,c7,c8,c9,c10,c11,c12⟩ := posted
  simp only [admitted] at none
  cases taken
  case tryShared | trySharedAgain | trySharedRefused => exact still trivial trivial
  all_goals
    clear still
    simp only [inLock, counting, announced, awaiting, writing, unsent, queued, reading, leaving,
      waking, fatal, negative, kMaxReaders, Nat.add_zero] at *
  case lockSharedQueue | wake =>
    refine ⟨⟨?_,?_,?_,?_⟩,?_,?_,?_,?_⟩ <;>
      (try simp only [admitted, kMaxReaders, c1, c2, c4, c5, c6, c7, c8, c9, c10, c11, c12]) <;> first | assumption | omega
  all_goals exfalso; omega

theorem readerWriting (taken : ReaderMove s p s' p') (posted : Posted p p' n n')
    (before : Within n) (old : Writing s n) : Writing s' n' := by
  have still : unlisted p → unlisted p' → Writing s n' := fun out back => sameWriting (sameOf posted out back) old
  obtain ⟨few,-,-⟩ := before
  obtain ⟨⟨owner,readers,unsentNone,sane⟩,sign,debt,none,quiet⟩ := old
  obtain ⟨own,c1,c2,c3,c4,c5,c6,c7,c8,c9,c10,c11,c12⟩ := posted
  simp only [admitted] at none
  cases taken
  case tryShared | trySharedAgain | trySharedRefused => exact still trivial trivial
  all_goals
    clear still
    simp only [inLock, counting, announced, awaiting, writing, unsent, queued, reading, leaving,
      waking, fatal, negative, kMaxReaders, Nat.add_zero] at *
  case lockSharedQueue =>
    refine ⟨⟨?_,?_,?_,?_⟩,?_,?_,?_,?_⟩ <;>
      (try simp only [admitted, kMaxReaders, c1, c2, c4, c5, c6, c7, c8, c9, c10, c11, c12]) <;> first | assumption | omega
  all_goals exfalso; omega

theorem writerUnsigned (taken : WriterMove s p s' p') (posted : Posted p p' n n')
    (before : Within n) (after : Within n') (old : Unsigned s n) : Balanced s' n' := by
  have still : unlisted p → unlisted p' → Unsigned s n' := fun out back => sameUnsigned (sameOf posted out back) old
  obtain ⟨few,unsentOf,announcedOf⟩ := before
  obtain ⟨-,unsentAfter,announcedAfter⟩ := after
  obtain ⟨⟨owner,readers,unsentNone,sane⟩,sign,quiet,permits⟩ := old
  have bit := Bool.toNat_le s.w
  obtain ⟨own,c1,c2,c3,c4,c5,c6,c7,c8,c9,c10,c11,c12⟩ := posted
  cases taken
  case callLock | tryLockFail => exact .unsigned (still trivial trivial)
  all_goals
    clear still
    simp only [inLock, counting, announced, awaiting, writing, unsent, queued, reading, leaving,
      waking, fatal, negative, kMaxReaders, Nat.add_zero, ← Bool.toNat_eq_zero] at *
  case lockW | tryLockW | tryRefused | tryUndo | release | released =>
    refine .unsigned ⟨⟨?_,?_,?_,?_⟩,?_,?_,?_⟩ <;>
      (try simp only [kMaxReaders, Bool.toNat_true, Bool.toNat_false, c1, c2, c4, c5, c6, c7, c8, c9, c10, c11, c12]) <;> first | assumption | omega
  case registerIdle | tryRegister =>
    refine .writing ⟨⟨?_,?_,?_,?_⟩,?_,?_,?_,?_⟩ <;>
      (try simp only [admitted, kMaxReaders, c1, c2, c4, c5, c6, c7, c8, c9, c10, c11, c12]) <;> first | assumption | omega
  case registerBusy =>
    refine .counting ⟨⟨?_,?_,?_,?_⟩,?_,?_,?_,?_⟩ <;>
      (try simp only [admitted, kMaxReaders, c1, c2, c3, c4, c5, c6, c7, c8, c9, c10, c11, c12]) <;> first | assumption | omega
  all_goals exfalso; omega

theorem writerCounting (taken : WriterMove s p s' p') (posted : Posted p p' n n')
    (before : Within n) (after : Within n') (old : Counting s n) : Balanced s' n' := by
  have still : unlisted p → unlisted p' → Counting s n' := fun out back => sameCounting (sameOf posted out back) old
  obtain ⟨few,unsentOf,announcedOf⟩ := before
  obtain ⟨-,unsentAfter,announcedAfter⟩ := after
  obtain ⟨⟨owner,readers,unsentNone,sane⟩,sign,debt,early,quiet⟩ := old
  have bit := Bool.toNat_le s.w
  obtain ⟨own,c1,c2,c3,c4,c5,c6,c7,c8,c9,c10,c11,c12⟩ := posted
  simp only [admitted] at debt early
  cases taken
  case callLock | tryLockFail => exact .counting (still trivial trivial)
  all_goals
    clear still
    simp only [inLock, counting, announced, awaiting, writing, unsent, queued, reading, leaving,
      waking, fatal, negative, kMaxReaders, Nat.add_zero, ← Bool.toNat_eq_zero] at *
  case countDone =>
    refine .writing ⟨⟨?_,?_,?_,?_⟩,?_,?_,?_,?_⟩ <;>
      (try simp only [admitted, kMaxReaders, c1, c4, c5, c6, c7, c8, c9, c10, c11]) <;> first | assumption | omega
  case countWait =>
    refine .awaiting ⟨⟨?_,?_,?_,?_⟩,?_,?_,?_,?_⟩ <;>
      (try simp only [admitted, kMaxReaders, c1, c4, c5, c6, c7, c8, c9, c10, c11]) <;> first | assumption | omega
  all_goals exfalso; omega

theorem writerAwaiting (taken : WriterMove s p s' p') (posted : Posted p p' n n')
    (before : Within n) (after : Within n') (old : Awaiting s n) : Balanced s' n' := by
  have still : unlisted p → unlisted p' → Awaiting s n' := fun out back => sameAwaiting (sameOf posted out back) old
  obtain ⟨few,unsentOf,announcedOf⟩ := before
  obtain ⟨-,unsentAfter,announcedAfter⟩ := after
  obtain ⟨⟨owner,readers,unsentNone,sane⟩,sign,debt,some,quiet⟩ := old
  have bit := Bool.toNat_le s.w
  obtain ⟨own,c1,c2,c3,c4,c5,c6,c7,c8,c9,c10,c11,c12⟩ := posted
  simp only [admitted] at debt some
  cases taken
  case callLock | tryLockFail => exact .awaiting (still trivial trivial)
  all_goals
    clear still
    simp only [inLock, counting, announced, awaiting, writing, unsent, queued, reading, leaving,
      waking, fatal, negative, kMaxReaders, Nat.add_zero, ← Bool.toNat_eq_zero] at *
  all_goals exfalso; omega

theorem writerDrained (taken : WriterMove s p s' p') (posted : Posted p p' n n')
    (before : Within n) (after : Within n') (old : Drained s n) : Balanced s' n' := by
  have still : unlisted p → unlisted p' → Drained s n' := fun out back => sameDrained (sameOf posted out back) old
  obtain ⟨few,unsentOf,announcedOf⟩ := before
  obtain ⟨-,unsentAfter,announcedAfter⟩ := after
  obtain ⟨⟨owner,readers,unsentNone,sane⟩,sign,debt,none,called⟩ := old
  have bit := Bool.toNat_le s.w
  obtain ⟨own,c1,c2,c3,c4,c5,c6,c7,c8,c9,c10,c11,c12⟩ := posted
  simp only [admitted] at none
  cases taken
  case callLock | tryLockFail => exact .drained (still trivial trivial)
  all_goals
    clear still
    simp only [inLock, counting, announced, awaiting, writing, unsent, queued, reading, leaving,
      waking, fatal, negative, kMaxReaders, Nat.add_zero, ← Bool.toNat_eq_zero] at *
  case waitWriter =>
    refine .writing ⟨⟨?_,?_,?_,?_⟩,?_,?_,?_,?_⟩ <;>
      (try simp only [admitted, kMaxReaders, c1, c2, c5, c6, c7, c8, c9, c10, c11, c12]) <;> first | assumption | omega
  all_goals exfalso; omega

theorem writerWriting (taken : WriterMove s p s' p') (posted : Posted p p' n n')
    (before : Within n) (after : Within n') (old : Writing s n) : Balanced s' n' := by
  have still : unlisted p → unlisted p' → Writing s n' := fun out back => sameWriting (sameOf posted out back) old
  obtain ⟨few,unsentOf,announcedOf⟩ := before
  obtain ⟨-,unsentAfter,announcedAfter⟩ := after
  obtain ⟨⟨owner,readers,unsentNone,sane⟩,sign,debt,none,quiet⟩ := old
  have bit := Bool.toNat_le s.w
  obtain ⟨own,c1,c2,c3,c4,c5,c6,c7,c8,c9,c10,c11,c12⟩ := posted
  simp only [admitted] at none
  cases taken
  case callLock | tryLockFail => exact .writing (still trivial trivial)
  all_goals
    clear still
    simp only [inLock, counting, announced, awaiting, writing, unsent, queued, reading, leaving,
      waking, fatal, negative, kMaxReaders, Nat.add_zero, ← Bool.toNat_eq_zero] at *
  case unlock =>
    refine .unsigned ⟨⟨?_,?_,?_,?_⟩,?_,?_,?_⟩ <;>
      (try simp only [kMaxReaders, c1, c2, c4, c6, c7, c8, c9, c10, c11, c12]) <;> first | assumption | omega
  all_goals exfalso; omega

end Steps

section Runs
variable {T : Type*} [Fintype T]

def few (c : State T) : Prop := c.total reading + c.total queued < 2^30

def run [DecidableEq T] (c d : State T) : Prop := Step system c d ∧ few d

theorem withinOf {c : State T} (bounded : few c) : Within c.total := by
  refine ⟨bounded,totalZeroOf ?_,totalZeroOf ?_⟩ <;> intro l none <;> cases l <;> simp_all [inLock, unsent, counting, announced]

theorem postedOf [DecidableEq T] (c : State T) (t : T) (g : Shared) (l : Pc) :
    Posted (c.locals t) l c.total (c.set t g l).total := by
  constructor <;> first | exact leTotal c _ t | exact totalSet c _ t g l

def settled : Pc → Prop
  | .idle | .lockW | .waitReader | .waitWriter | .reading | .writing => True
  | _ => False

theorem settledTotal {c : State T} (all : ∀ t, settled (c.locals t)) {f : Pc → ℕ}
    (none : ∀ l, settled l → f l = 0) : c.total f = 0 :=
  Finset.sum_eq_zero (fun t _ => none _ (all t))

theorem startTotal (f : Pc → ℕ) (zero : f .idle = 0) : (start T).total f = 0 :=
  totalConst _ f (fun _ => rfl) zero

theorem startBalanced {n : Totals} (none : ∀ f, f .idle = 0 → n f = 0) : Balanced initial n :=
  .unsigned {
    owner := none inLock rfl
    readers := by simp [initial, none reading rfl, none queued rfl]
    unsentNone := Nat.zero_mul _
    sane := by simp [none fatal rfl, none negative rfl]
    sign := ⟨none counting rfl,none awaiting rfl,none writing rfl⟩
    quiet := ⟨rfl,none leaving rfl,by simp [initial, none waking rfl]⟩
    permits := by simp [initial, none unsent rfl, none queued rfl] }

variable [DecidableEq T]

theorem stepBalanced {c d : State T} (taken : Step system c d) (before : few c) (after : few d)
    (old : Balanced c.shared c.total) : Balanced d.shared d.total := by
  cases taken with
  | solo taken => exact taken.elim
  | @move t g l taken =>
    have posted := postedOf c t g l
    have within := withinOf before
    have within' := withinOf after
    rcases taken with writer | reader
    · cases old with
      | unsigned phase => exact writerUnsigned writer posted within within' phase
      | counting phase => exact writerCounting writer posted within within' phase
      | awaiting phase => exact writerAwaiting writer posted within within' phase
      | drained phase => exact writerDrained writer posted within within' phase
      | writing phase => exact writerWriting writer posted within within' phase
    · cases old with
      | unsigned phase => exact .unsigned (readerUnsigned reader posted within phase)
      | counting phase => exact .counting (readerCounting reader posted within phase)
      | awaiting phase => exact (readerAwaiting reader posted within phase).elim .awaiting .drained
      | drained phase => exact .drained (readerDrained reader posted within phase)
      | writing phase => exact .writing (readerWriting reader posted within phase)

theorem runBalanced {c : State T} (reached : Reachable run (start T) c) :
    few c ∧ Balanced c.shared c.total := by
  refine reachableInvariant (fun c => few c ∧ Balanced c.shared c.total) ⟨?_,startBalanced startTotal⟩ ?_ reached
  · simp [few, startTotal reading rfl, startTotal queued rfl]
  · rintro c d ⟨bounded,old⟩ ⟨taken,after⟩
    exact ⟨after,stepBalanced taken bounded after old⟩

structure Sound (c : State T) : Prop where
  exclusive : ∀ {t u}, c.locals t = .writing → t ≠ u → c.locals u ≠ .writing ∧ c.locals u ≠ .reading
  noFatal : ∀ t, c.locals t ≠ .fatal
  words : c.shared.readers.natAbs ≤ 2^30 ∧ c.shared.readerWait.natAbs < 2^30
  reader : (∀ t, settled (c.locals t)) → ∀ {t}, c.locals t = .waitReader →
    0 < c.shared.readerSema ∨
      c.shared.readers < 0 ∧ ∃ u, c.locals u = .waitWriter ∨ c.locals u = .writing
  writer : (∀ t, settled (c.locals t)) → ∀ {t}, c.locals t = .waitWriter →
    0 < c.shared.readerWait ∨ 0 < c.shared.writerSema

theorem writingAlone {s : Shared} {n : Totals} (balanced : Balanced s n) :
    n writing ≤ 1 ∧ (0 < n writing → n reading = 0) := by
  cases balanced with
  | unsigned phase => have := phase.sign; omega
  | counting phase => have := phase.sign; omega
  | awaiting phase => have := phase.sign; omega
  | drained phase => have := phase.sign; omega
  | writing phase => have := phase.sign; have := phase.none; simp only [admitted] at this; omega

theorem soundWords {s : Shared} {n : Totals} (few : n reading + n queued < 2^30)
    (balanced : Balanced s n) : s.readers.natAbs ≤ 2^30 ∧ s.readerWait.natAbs < 2^30 := by
  cases balanced with
  | unsigned phase =>
    obtain ⟨⟨-,readers,-,-⟩,-,quiet,-⟩ := phase
    simp only [kMaxReaders] at *; omega
  | counting phase =>
    obtain ⟨⟨-,readers,-,-⟩,-,debt,early,-⟩ := phase
    simp only [kMaxReaders] at *; omega
  | awaiting phase =>
    obtain ⟨⟨-,readers,-,-⟩,-,debt,some,-⟩ := phase
    simp only [kMaxReaders] at *; omega
  | drained phase =>
    obtain ⟨⟨-,readers,-,-⟩,-,debt,-,-⟩ := phase
    simp only [kMaxReaders] at *; omega
  | writing phase =>
    obtain ⟨⟨-,readers,-,-⟩,-,debt,-,-⟩ := phase
    simp only [kMaxReaders] at *; omega

theorem readersWait {s : Shared} {n : Totals} (balanced : Balanced s n) (sent : n unsent = 0)
    (waits : 0 < n queued) : 0 < s.readerSema ∨
      s.readers = n reading + n queued - kMaxReaders ∧ n counting + n awaiting + n writing = 1 := by
  cases balanced with
  | unsigned phase => have := phase.permits; omega
  | counting phase => exact .inr ⟨by simpa using phase.readers,by have := phase.sign; omega⟩
  | awaiting phase => exact .inr ⟨by simpa using phase.readers,by have := phase.sign; omega⟩
  | drained phase => exact .inr ⟨by simpa using phase.readers,by have := phase.sign; omega⟩
  | writing phase => exact .inr ⟨by simpa using phase.readers,by have := phase.sign; omega⟩

theorem writerWaits {s : Shared} {n : Totals} (balanced : Balanced s n) (called : n waking = 0)
    (waits : 0 < n awaiting) : 0 < s.readerWait ∨ 0 < s.writerSema := by
  cases balanced with
  | unsigned phase => have := phase.sign; omega
  | counting phase => have := phase.sign; omega
  | awaiting phase => have := phase.debt; have := phase.some; omega
  | drained phase => have := phase.called; omega
  | writing phase => have := phase.sign; omega

/- Exclusion, no fatal branch, and nobody stranded, in every reachable state. -/
theorem sharedMutexSound {c : State T} (reached : Reachable run (start T) c) : Sound c := by
  obtain ⟨bounded,balanced⟩ := runBalanced reached
  have alone := writingAlone balanced
  refine ⟨?_,?_,soundWords bounded balanced,?_,?_⟩
  · intro t u holds other
    have mine := leTotal c writing t
    rw [holds] at mine
    refine ⟨fun also => other (totalUnique alone.1 ?_ ?_),fun reads => ?_⟩
    · simp [holds, writing]
    · simp [also, writing]
    · have theirs := leTotal c reading u
      rw [reads] at theirs
      have := alone.2 mine
      simp only [reading] at theirs
      omega
  · intro t dead
    have mine := leTotal c fatal t
    rw [dead] at mine
    simp only [fatal] at mine
    cases balanced <;> rename_i phase <;> have := phase.sane <;> omega
  · intro all t waits
    have mine := leTotal c queued t
    rw [waits] at mine
    have sent : c.total unsent = 0 := settledTotal all (by rintro (_|_) <;> simp [settled, unsent])
    rcases readersWait balanced sent mine with permit | ⟨signed,writer⟩
    · exact .inl permit
    · have counted : c.total counting = 0 := settledTotal all (by rintro (_|_) <;> simp [settled, counting])
      have present : 0 < c.total (fun l => awaiting l + writing l) := by rw [totalAdd]; omega
      obtain ⟨u,signs⟩ := existsOfTotal present
      refine .inr ⟨by have := bounded; simp only [few, kMaxReaders] at *; omega,u,?_⟩
      cases h : c.locals u <;> simp_all [awaiting, writing]
  · intro all t waits
    have mine := leTotal c awaiting t
    rw [waits] at mine
    have called : c.total waking = 0 := settledTotal all (by rintro (_|_) <;> simp [settled, waking])
    exact writerWaits balanced called mine

omit [DecidableEq T] in
theorem fewCallers (small : Fintype.card T < 2^30) (c : State T) : few c := by
  have counted := totalLeCard (c := c) (f := fun l => reading l + queued l) (fun l => by cases l <;> simp [reading, queued])
  rw [totalAdd] at counted
  exact lt_of_le_of_lt counted small

theorem readerWriterReader : ∃ b c d : State (Fin 3),
    (b.locals 0 = .reading ∧ b.locals 1 = .waitWriter ∧ b.locals 2 = .waitReader) ∧
    (c.locals 0 = .idle ∧ c.locals 1 = .writing ∧ c.locals 2 = .waitReader) ∧
    (d.locals 0 = .idle ∧ d.locals 1 = .idle ∧ d.locals 2 = .reading) ∧ Sound b ∧ Sound c ∧ Sound d := by
  have bounded : ∀ {c : State (Fin 3)}, Reachable (Step system) (start (Fin 3)) c → Reachable run (start (Fin 3)) c :=
    fun reached => reached.lift id (fun _ d taken => ⟨taken,fewCallers (by decide) d⟩)
  have r1 : Reachable (Step system) (start (Fin 3)) _ := .single (.move 0 (.inr (.lockShared (by decide))))
  have r2 := r1.tail (.move 1 (.inl .callLock))
  have r3 := r2.tail (.move 1 (.inl (.lockW rfl)))
  have r4 := r3.tail (.move 1 (.inl (.registerBusy (by decide))))
  have r5 := r4.tail (.move 1 (.inl (.countWait (by decide))))
  have queued := r5.tail (.move 2 (.inr (.lockSharedQueue (by decide))))
  have r7 := queued.tail (.move 0 (.inr (.unlockSharedLeave (by decide))))
  have r8 := r7.tail (.move 0 (.inr (.leaveLast (by decide))))
  have r9 := r8.tail (.move 0 (.inr .wake))
  have writes := r9.tail (.move 1 (.inl (.waitWriter rfl)))
  have r11 := writes.tail (.move 1 (.inl (.unlock (by decide))))
  have r12 := r11.tail (.move 1 (.inl .release))
  have r13 := r12.tail (.move 1 (.inl .released))
  have reads := r13.tail (.move 2 (.inr (.waitReader rfl)))
  exact ⟨_,_,_,⟨rfl,rfl,rfl⟩,⟨rfl,rfl,rfl⟩,⟨rfl,rfl,rfl⟩,sharedMutexSound (bounded queued),
    sharedMutexSound (bounded writes),sharedMutexSound (bounded reads)⟩

end Runs
end Uco.SharedMutex
