import Uco.Interleaving

/-! umutex. iState packs locked, woken and starving bits and a waiter count, and is an
Int here: the run theorem bounds it by the number of callers. A usema is a count of
permits that any waiter may take, and the clock test of 1 ms has any outcome. -/
namespace Uco.Umutex
open Interleaving

def mutexLocked : Int := 1
def mutexWoken : Int := 2
def mutexStarving : Int := 4
def oneWaiter : Int := 8
def maxSpin : ℕ := 32

def lockedBit (s : Int) : Int := s % 2
def wokenBit (s : Int) : Int := s / 2 % 2
def starvingBit (s : Int) : Int := s / 4 % 2
def waiterCount (s : Int) : Int := s / 8

structure Shared where
  iState : Int
  permits : ℕ
  deriving DecidableEq, Repr

structure Locals where
  awoke : Bool
  starving : Bool
  iter : ℕ
  deriving DecidableEq, Repr

inductive Pc where
  | idle
  | fastLock
  | load (c : Locals)
  | loop (old : Int) (c : Locals)
  | park (c : Locals)
  | woken (c : Locals)
  | handoff (old : Int) (c : Locals)
  | held
  | release (old : Int)
  | reload
  | signal
  | fatal
  deriving DecidableEq, Repr

def canSpin (old : Int) (c : Locals) : Prop :=
  lockedBit old = 1 ∧ starvingBit old = 0 ∧ c.iter < maxSpin

def claimsWoken (old : Int) (c : Locals) : Prop :=
  c.awoke = false ∧ wokenBit old = 0 ∧ waiterCount old ≠ 0

def available (old : Int) : Prop := lockedBit old = 0 ∧ starvingBit old = 0

instance (old : Int) : Decidable (available old) := inferInstanceAs (Decidable (_ ∧ _))

def setLocked (s : Int) : Int := s + mutexLocked * (1 - lockedBit s)
def setWoken (s : Int) : Int := s + mutexWoken * (1 - wokenBit s)
def setStarving (s : Int) : Int := s + mutexStarving * (1 - starvingBit s)
def clearWoken (s : Int) : Int := s - mutexWoken * wokenBit s

def newstate (old : Int) (c : Locals) : Int :=
  let locked := if starvingBit old = 0 then setLocked old else old
  let counted := if available old then locked else locked + oneWaiter
  if c.starving = true ∧ lockedBit old ≠ 0 then setStarving counted else counted

def desired (old : Int) (c : Locals) : Int :=
  if c.awoke = true then clearWoken (newstate old c) else newstate old c

def handoffDelta (old : Int) (c : Locals) : Int :=
  mutexLocked - oneWaiter - (if c.starving = false ∨ waiterCount old = 1 then mutexStarving else 0)

inductive LockMove : Shared → Pc → Shared → Pc → Prop where
  | call {g} : LockMove g .idle g .fastLock
  | fastTaken {g} (zero : g.iState = 0) : LockMove g .fastLock {g with iState := 1} .held
  | fastMiss {g} (taken : g.iState ≠ 0) : LockMove g .fastLock g (.load ⟨false,false,0⟩)
  | load {g c} : LockMove g (.load c) g (.loop g.iState c)
  | spin {g old c} (spins : canSpin old c) (noClaim : ¬claimsWoken old c) :
      LockMove g (.loop old c) g (.load {c with iter := c.iter + 1})
  | spinClaim {g old c} (spins : canSpin old c) (claim : claimsWoken old c) (same : g.iState = old) :
      LockMove g (.loop old c) {g with iState := setWoken old}
        (.load {c with awoke := true, iter := c.iter + 1})
  | spinMiss {g old c} (spins : canSpin old c) (claim : claimsWoken old c) (moved : g.iState ≠ old) :
      LockMove g (.loop old c) g (.load {c with iter := c.iter + 1})
  | inconsistent {g old c} (tries : ¬canSpin old c) (awoke : c.awoke = true)
      (lost : wokenBit (newstate old c) = 0) : LockMove g (.loop old c) g .fatal
  | acquire {g old c} (tries : ¬canSpin old c) (ok : c.awoke = true → wokenBit (newstate old c) ≠ 0)
      (same : g.iState = old) (free : available old) :
      LockMove g (.loop old c) {g with iState := desired old c} .held
  | queue {g old c} (tries : ¬canSpin old c) (ok : c.awoke = true → wokenBit (newstate old c) ≠ 0)
      (same : g.iState = old) (busy : ¬available old) :
      LockMove g (.loop old c) {g with iState := desired old c} (.park c)
  | miss {g old c} (tries : ¬canSpin old c) (ok : c.awoke = true → wokenBit (newstate old c) ≠ 0)
      (moved : g.iState ≠ old) : LockMove g (.loop old c) g (.load c)
  | wake {g n c late} (permit : g.permits = n + 1) :
      LockMove g (.park c) {g with permits := n} (.woken {c with starving := c.starving || late})
  | retry {g c} (normal : starvingBit g.iState = 0) :
      LockMove g (.woken c) g (.loop g.iState {c with awoke := true, iter := 0})
  | wokenInconsistent {g c} (handed : starvingBit g.iState ≠ 0)
      (broken : lockedBit g.iState ≠ 0 ∨ wokenBit g.iState ≠ 0 ∨ waiterCount g.iState = 0) :
      LockMove g (.woken c) g .fatal
  | handed {g c} (handed : starvingBit g.iState ≠ 0) (free : lockedBit g.iState = 0)
      (alone : wokenBit g.iState = 0) (counted : waiterCount g.iState ≠ 0) :
      LockMove g (.woken c) g (.handoff g.iState c)
  | handoff {g old c} : LockMove g (.handoff old c) {g with iState := g.iState + handoffDelta old c} .held

inductive UnlockMove : Shared → Pc → Shared → Pc → Prop where
  | tryLock {g} (zero : g.iState = 0) : UnlockMove g .idle {g with iState := 1} .held
  | tryLockFail {g} (taken : g.iState ≠ 0) : UnlockMove g .idle g .idle
  | unlockLast {g} (last : g.iState = mutexLocked) :
      UnlockMove g .held {g with iState := g.iState - mutexLocked} .idle
  | unlockFatal {g} (last : g.iState ≠ mutexLocked) (unlocked : lockedBit g.iState = 0) :
      UnlockMove g .held {g with iState := g.iState - mutexLocked} .fatal
  | unlockNormal {g} (more : g.iState ≠ mutexLocked) (locked : lockedBit g.iState ≠ 0)
      (normal : starvingBit (g.iState - mutexLocked) = 0) :
      UnlockMove g .held {g with iState := g.iState - mutexLocked} (.release (g.iState - mutexLocked))
  | unlockStarving {g} (more : g.iState ≠ mutexLocked) (locked : lockedBit g.iState ≠ 0)
      (handed : starvingBit (g.iState - mutexLocked) ≠ 0) :
      UnlockMove g .held {g with iState := g.iState - mutexLocked} .signal
  | nobody {g old} (done : waiterCount old = 0 ∨ lockedBit old ≠ 0 ∨ wokenBit old ≠ 0 ∨ starvingBit old ≠ 0) :
      UnlockMove g (.release old) g .idle
  | choose {g old} (left : waiterCount old ≠ 0) (plain : lockedBit old = 0 ∧ wokenBit old = 0 ∧ starvingBit old = 0)
      (same : g.iState = old) :
      UnlockMove g (.release old) {g with iState := setWoken (old - oneWaiter)} .signal
  | chooseMiss {g old} (left : waiterCount old ≠ 0)
      (plain : lockedBit old = 0 ∧ wokenBit old = 0 ∧ starvingBit old = 0) (moved : g.iState ≠ old) :
      UnlockMove g (.release old) g .reload
  | reload {g} : UnlockMove g .reload g (.release g.iState)
  | signal {g} : UnlockMove g .signal {g with permits := g.permits + 1} .idle

def Move (g : Shared) (p : Pc) (g' : Shared) (p' : Pc) : Prop :=
  LockMove g p g' p' ∨ UnlockMove g p g' p'

def system : System Shared Pc := ⟨fun _ _ => False, Move⟩

abbrev State (T : Type*) := Config Shared Pc T

def start (T : Type*) : State T := ⟨⟨0,0⟩, fun _ => .idle⟩

@[simp] def holding : Pc → ℕ | .held => 1 | _ => 0
@[simp] def contending : Pc → ℕ | .load c => c.awoke.toNat | .loop _ c => c.awoke.toNat | _ => 0
@[simp] def signalling : Pc → ℕ | .signal => 1 | _ => 0
@[simp] def rising : Pc → ℕ | .woken _ => 1 | _ => 0
@[simp] def taking : Pc → ℕ | .handoff _ _ => 1 | _ => 0
@[simp] def promised : Pc → ℕ | .handoff old _ => (waiterCount old).toNat | _ => 0
@[simp] def parked : Pc → ℕ | .park _ => 1 | _ => 0
@[simp] def choosing : Pc → ℕ
  | .reload => 1
  | .release old =>
    if waiterCount old ≠ 0 ∧ lockedBit old = 0 ∧ wokenBit old = 0 ∧ starvingBit old = 0 then 1 else 0
  | _ => 0
def Fits : Pc → Prop
  | .fatal => False
  | .load c => c.starving = true → c.awoke = true
  | .loop old c => (c.awoke = true → wokenBit old = 1 ∧ starvingBit old = 0) ∧ (c.starving = true → c.awoke = true)
  | .handoff old _ => 0 < waiterCount old
  | _ => True

abbrev Totals := (Pc → ℕ) → ℕ

def chosen (s : Shared) (n : Totals) : ℕ := n signalling + s.permits + n rising

structure Word (s : Shared) (n : Totals) : Prop where
  owner : (n holding : Int) = lockedBit s.iState
  natural : 0 ≤ s.iState

structure Normal (s : Shared) (n : Totals) : Prop extends Word s n where
  mode : starvingBit s.iState = 0 ∧ n taking = 0
  token : (n contending + chosen s n : Int) = wokenBit s.iState
  waiters : waiterCount s.iState + s.permits + n signalling = n parked
  responsible : lockedBit s.iState = 0 → wokenBit s.iState = 0 → 0 < waiterCount s.iState → 0 < n choosing

structure Starving (s : Shared) (n : Totals) : Prop extends Word s n where
  mode : starvingBit s.iState = 1 ∧ wokenBit s.iState = 0 ∧ n contending = 0
  token : (chosen s n + n taking : Int) = 1 - lockedBit s.iState
  waiters : waiterCount s.iState = n parked + n rising + n taking
  some : 0 < waiterCount s.iState
  promise : (n promised : Int) ≤ waiterCount s.iState

def Balanced (s : Shared) (n : Totals) : Prop := Normal s n ∨ Starving s n

structure Posted (p p' : Pc) (n n' : Totals) : Prop where
  own : ∀ f, f p ≤ n f
  holding : n' holding + holding p = n holding + holding p'
  contending : n' contending + contending p = n contending + contending p'
  signalling : n' signalling + signalling p = n signalling + signalling p'
  rising : n' rising + rising p = n rising + rising p'
  taking : n' taking + taking p = n taking + taking p'
  promised : n' promised + promised p = n promised + promised p'
  parked : n' parked + parked p = n parked + parked p'
  choosing : n' choosing + choosing p = n choosing + choosing p'

structure Bits (s l k v w : Int) : Prop where
  locked : lockedBit s = l
  woken : wokenBit s = k
  starving : starvingBit s = v
  waiters : waiterCount s = w

theorem wordOf (s : Int) : s = lockedBit s + 2 * wokenBit s + 4 * starvingBit s + 8 * waiterCount s := by
  simp only [lockedBit, wokenBit, starvingBit, waiterCount]
  omega

theorem bitOf (s : Int) : (lockedBit s = 0 ∨ lockedBit s = 1) ∧ (wokenBit s = 0 ∨ wokenBit s = 1) ∧
    (starvingBit s = 0 ∨ starvingBit s = 1) := by
  simp only [lockedBit, wokenBit, starvingBit]
  omega

theorem bitBounds (s : Int) : (0 ≤ lockedBit s ∧ lockedBit s ≤ 1) ∧ (0 ≤ wokenBit s ∧ wokenBit s ≤ 1) ∧
    0 ≤ starvingBit s ∧ starvingBit s ≤ 1 := by
  simp only [lockedBit, wokenBit, starvingBit]
  omega

theorem bitsOf {s l k v w : Int} (sum : s = l + 2 * k + 4 * v + 8 * w) (hl : l = 0 ∨ l = 1)
    (hk : k = 0 ∨ k = 1) (hv : v = 0 ∨ v = 1) : Bits s l k v w := by
  have bl : 0 ≤ l ∧ l ≤ 1 := by omega
  have bk : 0 ≤ k ∧ k ≤ 1 := by omega
  have bv : 0 ≤ v ∧ v ≤ 1 := by omega
  clear hl hk hv
  subst sum
  constructor <;> simp only [lockedBit, wokenBit, starvingBit, waiterCount] <;> omega

theorem bitsZero : Bits 0 0 0 0 0 := by constructor <;> decide

theorem bitsOne : Bits 1 1 0 0 0 := by constructor <;> decide

section Updates
variable {s l k v w : Int}

theorem bitsSelf (s : Int) : Bits s (lockedBit s) (wokenBit s) (starvingBit s) (waiterCount s) := ⟨rfl,rfl,rfl,rfl⟩

theorem bitsSetLocked (bits : Bits s l k v w) : Bits (setLocked s) 1 k v w := by
  obtain ⟨rfl,rfl,rfl,rfl⟩ := bits
  have word := wordOf s
  have bit := bitOf s
  exact bitsOf (by simp only [setLocked, mutexLocked]; omega) (.inr rfl) bit.2.1 bit.2.2

theorem bitsSetWoken (bits : Bits s l k v w) : Bits (setWoken s) l 1 v w := by
  obtain ⟨rfl,rfl,rfl,rfl⟩ := bits
  have word := wordOf s
  have bit := bitOf s
  exact bitsOf (by simp only [setWoken, mutexWoken]; omega) bit.1 (.inr rfl) bit.2.2

theorem bitsSetStarving (bits : Bits s l k v w) : Bits (setStarving s) l k 1 w := by
  obtain ⟨rfl,rfl,rfl,rfl⟩ := bits
  have word := wordOf s
  have bit := bitOf s
  exact bitsOf (by simp only [setStarving, mutexStarving]; omega) bit.1 bit.2.1 (.inr rfl)

theorem bitsClearWoken (bits : Bits s l k v w) : Bits (clearWoken s) l 0 v w := by
  obtain ⟨rfl,rfl,rfl,rfl⟩ := bits
  have word := wordOf s
  have bit := bitOf s
  exact bitsOf (by simp only [clearWoken, mutexWoken]; omega) bit.1 (.inl rfl) bit.2.2

theorem bitsAddWaiter (bits : Bits s l k v w) : Bits (s + oneWaiter) l k v (w + 1) := by
  obtain ⟨rfl,rfl,rfl,rfl⟩ := bits
  have word := wordOf s
  have bit := bitOf s
  exact bitsOf (by simp only [oneWaiter]; omega) bit.1 bit.2.1 bit.2.2

theorem bitsSubWaiter (bits : Bits s l k v w) : Bits (s - oneWaiter) l k v (w - 1) := by
  obtain ⟨rfl,rfl,rfl,rfl⟩ := bits
  have word := wordOf s
  have bit := bitOf s
  exact bitsOf (by simp only [oneWaiter]; omega) bit.1 bit.2.1 bit.2.2

theorem bitsUnlock (locked : lockedBit s ≠ 0) :
    Bits (s - mutexLocked) 0 (wokenBit s) (starvingBit s) (waiterCount s) := by
  have word := wordOf s
  have bit := bitOf s
  exact bitsOf (by simp only [mutexLocked]; omega) (.inl rfl) bit.2.1 bit.2.2

theorem bitsHandoff (old : Int) (c : Locals) (free : lockedBit s = 0) (handed : starvingBit s = 1) :
    Bits (s + handoffDelta old c) 1 (wokenBit s) (if c.starving = false ∨ waiterCount old = 1 then 0 else 1)
      (waiterCount s - 1) := by
  have word := wordOf s
  have bit := bitOf s
  by_cases last : c.starving = false ∨ waiterCount old = 1 <;>
    simp only [handoffDelta, last, if_true, if_false, mutexLocked, oneWaiter, mutexStarving]
  · exact bitsOf (by omega) (.inr rfl) bit.2.1 (.inl rfl)
  · exact bitsOf (by omega) (.inr rfl) bit.2.1 (.inr rfl)

theorem bitsNewstate (old : Int) (c : Locals) : Bits (newstate old c)
    (if starvingBit old = 0 then 1 else lockedBit old) (wokenBit old)
    (if c.starving = true ∧ lockedBit old ≠ 0 then 1 else starvingBit old)
    (if available old then waiterCount old else waiterCount old + 1) := by
  have self := bitsSelf old
  simp only [newstate]
  split_ifs
  · exact bitsSetStarving (bitsSetLocked self)
  · exact bitsSetStarving self
  · exact bitsSetStarving (bitsAddWaiter (bitsSetLocked self))
  · exact bitsSetStarving (bitsAddWaiter self)
  · exact bitsSetLocked self
  · exact self
  · exact bitsAddWaiter (bitsSetLocked self)
  · exact bitsAddWaiter self

theorem bitsDesired (old : Int) (c : Locals) : Bits (desired old c)
    (if starvingBit old = 0 then 1 else lockedBit old) (if c.awoke = true then 0 else wokenBit old)
    (if c.starving = true ∧ lockedBit old ≠ 0 then 1 else starvingBit old)
    (if available old then waiterCount old else waiterCount old + 1) := by
  have new := bitsNewstate old c
  by_cases awoke : c.awoke = true
  · rw [desired, if_pos awoke, if_pos awoke]
    exact bitsClearWoken new
  · rw [desired, if_neg awoke, if_neg awoke]
    exact new

theorem waitersOfNat {s : Int} : 0 ≤ s ↔ 0 ≤ waiterCount s := by
  simp only [waiterCount]
  omega

end Updates

structure Around (s : Shared) (p : Pc) : Prop where
  contending : 0 < contending p → wokenBit s.iState = 1 ∧ starvingBit s.iState = 0
  called : 0 < rising p → starvingBit s.iState = 0 → wokenBit s.iState = 1
  handed : 0 < rising p → starvingBit s.iState ≠ 0 →
    lockedBit s.iState = 0 ∧ wokenBit s.iState = 0 ∧ 0 < waiterCount s.iState
  holding : 0 < holding p → lockedBit s.iState = 1

theorem around {s : Shared} {n : Totals} {p : Pc} (balanced : Balanced s n) (share : ∀ f, f p ≤ n f) :
    Around s p := by
  have s1 := share contending
  have s2 := share rising
  have s3 := share holding
  have bit := bitOf s.iState
  rcases balanced with ⟨⟨owner,natural⟩,mode,token,waiters,responsible⟩ | ⟨⟨owner,natural⟩,mode,token,waiters,some,promise⟩ <;>
    simp only [chosen] at * <;> constructor <;> omega

theorem lockFits {s s' : Shared} {p p' : Pc} (taken : LockMove s p s' p') (around : Around s p)
    (fits : Fits p) : Fits p' := by
  cases taken with
  | call => trivial
  | fastTaken zero => trivial
  | fastMiss busy => exact fun late => late
  | load => exact ⟨fun awoke => around.contending (by simp [contending, awoke]),fits⟩
  | spin spins noClaim => exact fits.2
  | spinClaim spins claim same => exact fun _ => rfl
  | spinMiss spins claim moved => exact fits.2
  | inconsistent tries awoke lost =>
    have := (fits.1 awoke).1
    rw [(bitsNewstate _ _).woken] at lost
    omega
  | acquire tries ok same free => trivial
  | queue tries ok same busy => trivial
  | miss tries ok moved => exact fits.2
  | wake permit => trivial
  | retry normal => exact ⟨fun _ => ⟨around.called Nat.one_pos normal,normal⟩,fun _ => rfl⟩
  | wokenInconsistent handed broken =>
    have := around.handed Nat.one_pos handed
    omega
  | handed handed free alone counted => exact (around.handed Nat.one_pos handed).2.2
  | handoff => trivial

theorem unlockFits {s s' : Shared} {p p' : Pc} (taken : UnlockMove s p s' p') (around : Around s p) :
    Fits p' := by
  cases taken with
  | unlockFatal last unlocked =>
    have := around.holding Nat.one_pos
    omega
  | _ => trivial

theorem chooses {old : Int} (left : waiterCount old ≠ 0)
    (plain : lockedBit old = 0 ∧ wokenBit old = 0 ∧ starvingBit old = 0) : choosing (.release old) = 1 :=
  if_pos ⟨left,plain⟩

theorem choosesNot {old : Int}
    (done : waiterCount old = 0 ∨ lockedBit old ≠ 0 ∨ wokenBit old ≠ 0 ∨ starvingBit old ≠ 0) :
    choosing (.release old) = 0 :=
  if_neg (by omega)

section Steps
variable {s s' : Shared} {p p' : Pc} {n n' : Totals}

theorem normalOf (owner : (n holding : Int) = lockedBit s.iState) (natural : 0 ≤ waiterCount s.iState)
    (mode : starvingBit s.iState = 0 ∧ n taking = 0)
    (token : n contending + (n signalling + s.permits + n rising : ℕ) = wokenBit s.iState)
    (waiters : waiterCount s.iState + s.permits + n signalling = n parked)
    (responsible : lockedBit s.iState = 0 → wokenBit s.iState = 0 → 0 < waiterCount s.iState → 0 < n choosing) :
    Balanced s n :=
  .inl ⟨⟨owner,waitersOfNat.mpr natural⟩,mode,token,waiters,responsible⟩

theorem starvingOf (owner : (n holding : Int) = lockedBit s.iState) (natural : 0 ≤ waiterCount s.iState)
    (mode : starvingBit s.iState = 1 ∧ wokenBit s.iState = 0 ∧ n contending = 0)
    (token : (n signalling + s.permits + n rising : ℕ) + n taking = 1 - lockedBit s.iState)
    (waiters : waiterCount s.iState = n parked + n rising + n taking)
    (some : 0 < waiterCount s.iState) (promise : (n promised : Int) ≤ waiterCount s.iState) : Balanced s n :=
  .inr ⟨⟨owner,waitersOfNat.mpr natural⟩,mode,token,waiters,some,promise⟩

def weights (p : Pc) : List ℕ :=
  [holding p,contending p,signalling p,rising p,taking p,promised p,parked p,choosing p]

theorem quietBalanced (posted : Posted p p' n n') (quiet : weights p' = weights p) (old : Balanced s n) :
    Balanced s n' := by
  obtain ⟨own,c1,c2,c3,c4,c5,c6,c7,c8⟩ := posted
  simp only [weights, List.cons.injEq, and_true] at quiet
  obtain ⟨q1,q2,q3,q4,q5,q6,q7,q8⟩ := quiet
  rw [q1, Nat.add_right_cancel_iff] at c1
  rw [q2, Nat.add_right_cancel_iff] at c2
  rw [q3, Nat.add_right_cancel_iff] at c3
  rw [q4, Nat.add_right_cancel_iff] at c4
  rw [q5, Nat.add_right_cancel_iff] at c5
  rw [q6, Nat.add_right_cancel_iff] at c6
  rw [q7, Nat.add_right_cancel_iff] at c7
  rw [q8, Nat.add_right_cancel_iff] at c8
  rcases old with ⟨⟨owner,natural⟩,mode,token,waiters,responsible⟩ |
    ⟨⟨owner,natural⟩,mode,token,waiters,some,promise⟩
  · rw [← c1] at owner
    rw [← c5] at mode
    rw [chosen, ← c2, ← c3, ← c4] at token
    rw [← c3, ← c7] at waiters
    rw [← c8] at responsible
    exact .inl ⟨⟨owner,natural⟩,mode,token,waiters,responsible⟩
  · rw [← c1] at owner
    rw [← c2] at mode
    rw [chosen, ← c3, ← c4, ← c5] at token
    rw [← c4, ← c5, ← c7] at waiters
    rw [← c6] at promise
    exact .inr ⟨⟨owner,natural⟩,mode,token,waiters,some,promise⟩

theorem lockStarving (taken : LockMove s p s' p') (posted : Posted p p' n n') (fits : Fits p)
    (before : n taking = 0 → n promised = 0) (after : n' taking = 0 → n' promised = 0)
    (old : Starving s n) : Balanced s' n' := by
  have quiet : weights p' = weights p → Balanced s n' := fun same => quietBalanced posted same (.inr old)
  obtain ⟨⟨owner,natural⟩,mode,token,waiters,some,promise⟩ := old
  obtain ⟨own,c1,c2,c3,c4,c5,c6,c7,c8⟩ := posted
  have o2 := own promised
  have o3 := own contending
  have bit := bitBounds s.iState
  clear own
  simp only [chosen] at token
  cases taken
  case call | fastMiss | load | spin | spinMiss | miss => exact quiet rfl
  case fastTaken zero =>
    rw [zero] at mode
    exact absurd mode.1 (by decide)
  case acquire old c tries ok same free =>
    have := free.2
    subst same
    omega
  case queue old c tries ok same busy =>
    subst same
    obtain ⟨b1,b2,b3,b4⟩ := bitsDesired s.iState c
    have calm : c.awoke.toNat = 0 := by simp only [contending] at o3; omega
    have calm' : c.awoke = false := Bool.toNat_eq_zero.mp calm
    simp only [calm', mode, busy, reduceCtorEq, if_false, ite_self, Int.one_ne_zero] at b1 b2 b3 b4
    simp only [holding, contending, signalling, rising, taking, promised, parked, choosing] at *
    refine starvingOf ?_ ?_ ?_ ?_ ?_ ?_ ?_ <;> dsimp only <;> omega
  case spinClaim old c spins claim same =>
    have := spins.2.1
    subst same
    omega
  case handoff old c =>
    obtain ⟨b1,b2,b3,b4⟩ := bitsHandoff old c (s := s.iState) (by simp only [taking] at *; omega) mode.1
    simp only [holding, contending, signalling, rising, taking, promised, parked, choosing, Fits] at *
    split_ifs at b3
    · refine normalOf ?_ ?_ ?_ ?_ ?_ ?_ <;> dsimp only <;> omega
    · refine starvingOf ?_ ?_ ?_ ?_ ?_ ?_ ?_ <;> dsimp only <;> omega
  all_goals
    simp only [holding, contending, signalling, rising, taking, promised, parked, choosing] at *
    refine starvingOf ?_ ?_ ?_ ?_ ?_ ?_ ?_ <;> (try dsimp only) <;> omega

theorem unlockStarving (taken : UnlockMove s p s' p') (posted : Posted p p' n n')
    (old : Starving s n) : Balanced s' n' := by
  have quiet : weights p' = weights p → Balanced s n' := fun same => quietBalanced posted same (.inr old)
  obtain ⟨⟨owner,natural⟩,mode,token,waiters,some,promise⟩ := old
  obtain ⟨own,c1,c2,c3,c4,c5,c6,c7,c8⟩ := posted
  have o3 := own contending
  have bit := bitBounds s.iState
  clear own
  simp only [chosen] at token
  rw [waitersOfNat] at natural
  cases taken
  case tryLockFail => exact quiet rfl
  case nobody old done => exact quiet (by rw [weights, weights, choosesNot done]; rfl)
  case chooseMiss old left plain moved => exact quiet (by rw [weights, weights, chooses left plain]; rfl)
  case tryLock zero =>
    rw [zero] at mode
    exact absurd mode.1 (by decide)
  case unlockLast last =>
    rw [last] at mode
    exact absurd mode.1 (by decide)
  case unlockNormal more locked normal =>
    rw [(bitsUnlock locked).starving] at normal
    omega
  case unlockStarving more locked handed =>
    obtain ⟨b1,b2,b3,b4⟩ := bitsUnlock locked
    simp only [holding, contending, signalling, rising, taking, promised, parked, choosing] at *
    refine starvingOf ?_ ?_ ?_ ?_ ?_ ?_ ?_ <;> dsimp only <;> omega
  case choose old left plain same =>
    subst same
    omega
  all_goals
    simp only [holding, contending, signalling, rising, taking, promised, parked, choosing] at *
    refine starvingOf ?_ ?_ ?_ ?_ ?_ ?_ ?_ <;> (try dsimp only) <;> omega

theorem lockNormal (taken : LockMove s p s' p') (posted : Posted p p' n n') (fits : Fits p)
    (fits' : Fits p') (before : n taking = 0 → n promised = 0) (old : Normal s n) : Balanced s' n' := by
  have quiet : weights p' = weights p → Balanced s n' := fun same => quietBalanced posted same (.inl old)
  obtain ⟨⟨owner,natural⟩,mode,token,waiters,responsible⟩ := old
  obtain ⟨own,c1,c2,c3,c4,c5,c6,c7,c8⟩ := posted
  have o3 := own contending
  have bit := bitBounds s.iState
  clear own
  simp only [chosen] at token
  rw [waitersOfNat] at natural
  cases taken
  case call | fastMiss | load | spin | spinMiss | miss => exact quiet rfl
  case fastTaken zero =>
    obtain ⟨z1,z2,z3,z4⟩ := bitsZero
    obtain ⟨b1,b2,b3,b4⟩ := bitsOne
    simp only [zero, holding, contending, signalling, rising, taking, promised, parked, choosing] at *
    refine normalOf ?_ ?_ ?_ ?_ ?_ ?_ <;> dsimp only <;> omega
  case inconsistent => exact fits'.elim
  case acquire old c tries ok same free =>
    subst same
    have unlocked := free.1
    obtain ⟨b1,b2,b3,b4⟩ := bitsDesired s.iState c
    simp only [free.1, mode, if_true, ne_eq, not_true, and_false, if_false, free] at b1 b2 b3 b4
    cases awoke : c.awoke <;> simp only [awoke, if_true, if_false, reduceCtorEq] at b2 <;>
    simp only [holding, contending, signalling, rising, taking, promised, parked, choosing, awoke, Bool.toNat_true, Bool.toNat_false] at *
    · refine normalOf ?_ ?_ ?_ ?_ ?_ ?_ <;> dsimp only <;> omega
    · refine normalOf ?_ ?_ ?_ ?_ ?_ ?_ <;> dsimp only <;> omega
  case queue old c tries ok same busy =>
    subst same
    have locked : lockedBit s.iState = 1 := by simp only [available] at busy; omega
    obtain ⟨b1,b2,b3,b4⟩ := bitsDesired s.iState c
    simp only [mode, busy, locked, if_true, if_false, ne_eq, Int.one_ne_zero, not_false_eq_true, and_true] at b1 b2 b3 b4
    cases awoke : c.awoke <;> cases late : c.starving <;>
      simp only [awoke, late, Fits, if_true, if_false, reduceCtorEq, true_implies, and_false] at b2 b3 fits <;>
      simp only [holding, contending, signalling, rising, taking, promised, parked, choosing, awoke, Bool.toNat_true, Bool.toNat_false] at *
    · refine normalOf ?_ ?_ ?_ ?_ ?_ ?_ <;> dsimp only <;> omega
    · refine normalOf ?_ ?_ ?_ ?_ ?_ ?_ <;> dsimp only <;> omega
    · refine starvingOf ?_ ?_ ?_ ?_ ?_ ?_ ?_ <;> dsimp only <;> omega
  case spinClaim old c spins claim same =>
    subst same
    obtain ⟨b1,b2,b3,b4⟩ := bitsSetWoken (bitsSelf s.iState)
    have l := spins.1
    have k := claim.2.1
    simp only [holding, contending, signalling, rising, taking, promised, parked, choosing, claim.1, Bool.toNat_true, Bool.toNat_false] at *
    refine normalOf ?_ ?_ ?_ ?_ ?_ ?_ <;> dsimp only <;> omega
  case retry c normal =>
    simp only [holding, contending, signalling, rising, taking, promised, parked, choosing, Bool.toNat_true] at *
    refine normalOf ?_ ?_ ?_ ?_ ?_ ?_ <;> omega
  all_goals
    simp only [holding, contending, signalling, rising, taking, promised, parked, choosing] at *
    refine normalOf ?_ ?_ ?_ ?_ ?_ ?_ <;> (try dsimp only) <;> omega

theorem unlockNormal (taken : UnlockMove s p s' p') (posted : Posted p p' n n')
    (old : Normal s n) : Balanced s' n' := by
  have quiet : weights p' = weights p → Balanced s n' := fun same => quietBalanced posted same (.inl old)
  obtain ⟨⟨owner,natural⟩,mode,token,waiters,responsible⟩ := old
  obtain ⟨own,c1,c2,c3,c4,c5,c6,c7,c8⟩ := posted
  have o3 := own contending
  have bit := bitBounds s.iState
  clear own
  simp only [chosen] at token
  rw [waitersOfNat] at natural
  cases taken
  case tryLockFail => exact quiet rfl
  case nobody old done => exact quiet (by rw [weights, weights, choosesNot done]; rfl)
  case chooseMiss old left plain moved => exact quiet (by rw [weights, weights, chooses left plain]; rfl)
  case tryLock zero =>
    obtain ⟨z1,z2,z3,z4⟩ := bitsZero
    obtain ⟨b1,b2,b3,b4⟩ := bitsOne
    simp only [zero, holding, contending, signalling, rising, taking, promised, parked, choosing] at *
    refine normalOf ?_ ?_ ?_ ?_ ?_ ?_ <;> dsimp only <;> omega
  case unlockLast last =>
    obtain ⟨z1,z2,z3,z4⟩ := bitsZero
    obtain ⟨b1,b2,b3,b4⟩ := bitsOne
    simp only [last, mutexLocked, Int.sub_self, holding, contending, signalling, rising, taking, promised, parked, choosing] at *
    refine normalOf ?_ ?_ ?_ ?_ ?_ ?_ <;> dsimp only <;> omega
  case unlockNormal more locked normal =>
    obtain ⟨b1,b2,b3,b4⟩ := bitsUnlock locked
    simp only [holding, contending, signalling, rising, taking, promised, parked, choosing] at *
    split_ifs at c8 <;> refine normalOf ?_ ?_ ?_ ?_ ?_ ?_ <;> dsimp only <;> omega
  case unlockStarving more locked handed =>
    rw [(bitsUnlock locked).starving] at handed
    omega
  case choose old left plain same =>
    subst same
    rw [chooses left plain] at c8
    obtain ⟨b1,b2,b3,b4⟩ := bitsSetWoken (bitsSubWaiter (bitsSelf s.iState))
    simp only [holding, contending, signalling, rising, taking, promised, parked, choosing] at *
    refine normalOf ?_ ?_ ?_ ?_ ?_ ?_ <;> dsimp only <;> omega
  case reload =>
    simp only [holding, contending, signalling, rising, taking, promised, parked, choosing] at *
    split_ifs at c8 <;> refine normalOf ?_ ?_ ?_ ?_ ?_ ?_ <;> omega
  all_goals
    simp only [holding, contending, signalling, rising, taking, promised, parked, choosing] at *
    refine normalOf ?_ ?_ ?_ ?_ ?_ ?_ <;> (try dsimp only) <;> omega

end Steps

section Runs
variable {T : Type*} [Fintype T]

structure Invariant (c : State T) : Prop where
  fits : ∀ t, Fits (c.locals t)
  balanced : Balanced c.shared c.total

theorem promisedNone (c : State T) : c.total taking = 0 → c.total promised = 0 := by
  refine totalZeroOf ?_
  intro l none
  cases l <;> simp_all [taking, promised]

theorem startInvariant : Invariant (start T) := by
  have none : ∀ f : Pc → ℕ, f .idle = 0 → (start T).total f = 0 := fun f zero => totalConst _ f (fun _ => rfl) zero
  refine ⟨fun t => trivial,.inl ⟨⟨?_,Int.le_refl 0⟩,⟨rfl,none taking rfl⟩,?_,?_,?_⟩⟩
  · rw [none holding rfl]; rfl
  · rw [none contending rfl, chosen, none signalling rfl, none rising rfl]; rfl
  · rw [none signalling rfl, none parked rfl]; rfl
  · intro _ _ some
    exact absurd some (show ¬0 < waiterCount 0 by decide)

variable [DecidableEq T]

theorem postedOf (c : State T) (t : T) (g : Shared) (l : Pc) :
    Posted (c.locals t) l c.total (c.set t g l).total := by
  constructor
  · exact fun f => leTotal c f t
  all_goals exact totalSet c _ t g l

theorem stepInvariant {c d : State T} (old : Invariant c) (taken : Step system c d) : Invariant d := by
  cases taken with
  | solo taken => exact taken.elim
  | @move t g l taken =>
    have posted := postedOf c t g l
    have near := around old.balanced posted.own
    have fits := old.fits t
    have fits' : Fits l := taken.elim (fun lock => lockFits lock near fits) (fun unlock => unlockFits unlock near)
    refine ⟨fun u => ?_,?_⟩
    · by_cases same : u = t
      · rw [same, setSelf]; exact fits'
      · rw [setOther c g l same]; exact old.fits u
    have before := promisedNone c
    have after := promisedNone (c.set t g l)
    rcases taken with lock | unlock <;> rcases old.balanced with normal | starving
    · exact lockNormal lock posted fits fits' before normal
    · exact lockStarving lock posted fits before after starving
    · exact unlockNormal unlock posted normal
    · exact unlockStarving unlock posted starving

theorem runInvariant {c : State T} (reached : Reachable (Step system) (start T) c) : Invariant c :=
  reachableInvariant Invariant startInvariant (fun _ _ old taken => stepInvariant old taken) reached

def owns : Pc → Prop
  | .held | .handoff _ _ => True
  | _ => False

def unlocking : Pc → Prop
  | .release _ | .reload | .signal => True
  | _ => False

def awake : Pc → Prop
  | .woken _ | .handoff _ _ => True
  | .load c | .loop _ c => c.awoke = true
  | _ => False

theorem ownsPos {l : Pc} (mine : owns l) : 0 < holding l + taking l := by
  cases l <;> simp_all [owns, holding, taking]

theorem quietZero {l : Pc} (quiet : ¬unlocking l) : choosing l + signalling l = 0 := by
  cases l <;> simp_all [unlocking, choosing, signalling]

theorem awakeOf {l : Pc} (some : 0 < contending l + (rising l + taking l)) : awake l := by
  cases l with
  | load c => rcases c with ⟨_|_,_,_⟩ <;> simp_all [contending, rising, taking, awake]
  | loop old c => rcases c with ⟨_|_,_,_⟩ <;> simp_all [contending, rising, taking, awake]
  | _ => simp_all [contending, rising, taking, awake]

structure Sound (c : State T) : Prop where
  exclusive : ∀ {t u}, owns (c.locals t) → owns (c.locals u) → t = u
  noFatal : ∀ t, c.locals t ≠ .fatal
  word : 0 ≤ c.shared.iState ∧ c.shared.iState < 8 * (Fintype.card T + 1)
  covered : lockedBit c.shared.iState = 0 → waiterCount c.shared.iState ≠ 0 →
    (∀ t, ¬unlocking (c.locals t)) → 0 < c.shared.permits ∨ ∃ t, awake (c.locals t)

omit [DecidableEq T] in
theorem ownersLe {c : State T} (balanced : Balanced c.shared c.total) :
    c.total (fun l => holding l + taking l) ≤ 1 := by
  have bit := bitOf c.shared.iState
  rw [totalAdd]
  rcases balanced with ⟨⟨owner,-⟩,mode,-,-,-⟩ | ⟨⟨owner,-⟩,-,token,-,-,-⟩ <;> omega

omit [DecidableEq T] in
theorem waitersLe {c : State T} (balanced : Balanced c.shared c.total) :
    waiterCount c.shared.iState ≤ Fintype.card T := by
  have queue : c.total (fun l => parked l + (rising l + taking l)) ≤ Fintype.card T :=
    totalLeCard (fun l => by cases l <;> simp [parked, rising, taking])
  rw [totalAdd, totalAdd] at queue
  rcases balanced with ⟨-,-,-,waiters,-⟩ | ⟨-,-,-,waiters,-,-⟩ <;> omega

omit [DecidableEq T] in
theorem covered {c : State T} (balanced : Balanced c.shared c.total) (free : lockedBit c.shared.iState = 0)
    (some : 0 < waiterCount c.shared.iState) (quiet : ∀ t, ¬unlocking (c.locals t)) :
    0 < c.shared.permits ∨ ∃ t, awake (c.locals t) := by
  have none : c.total (fun l => choosing l + signalling l) = 0 :=
    Finset.sum_eq_zero (fun t _ => quietZero (quiet t))
  rw [totalAdd] at none
  by_cases permit : 0 < c.shared.permits
  · exact .inl permit
  · have present : 0 < c.total (fun l => contending l + (rising l + taking l)) := by
      rw [totalAdd, totalAdd]
      rcases balanced with ⟨-,mode,token,-,responsible⟩ | ⟨-,-,token,-,-,-⟩ <;> simp only [chosen] at token
      · have bit := bitOf c.shared.iState
        omega
      · omega
    obtain ⟨t,here⟩ := existsOfTotal present
    exact .inr ⟨t,awakeOf here⟩

theorem umutexSound {c : State T} (reached : Reachable (Step system) (start T) c) : Sound c := by
  obtain ⟨fits,balanced⟩ := runInvariant reached
  have word := wordOf c.shared.iState
  have bit := bitOf c.shared.iState
  have natural : 0 ≤ c.shared.iState := balanced.elim (·.natural) (·.natural)
  have few := waitersLe balanced
  refine ⟨?_,?_,⟨natural,by omega⟩,?_⟩
  · intro t u mine theirs
    exact totalUnique (ownersLe balanced) (ownsPos mine) (ownsPos theirs)
  · intro t dead
    have := fits t
    rw [dead] at this
    exact this
  · intro free some quiet
    exact covered balanced free (by omega) quiet

theorem spinsOn {n : ℕ} (few : n ≤ maxSpin) :
    Moves system ⟨1,0⟩ (.loop 1 ⟨false,false,0⟩) ⟨1,0⟩ (.loop 1 ⟨false,false,n⟩) := by
  induction n with
  | zero => exact .refl
  | succ n ih =>
    have spun := (ih (by omega)).tail (.inl (.spin ⟨rfl,rfl,few⟩ (fun claims => claims.2.2 rfl)))
    exact spun.tail (.inl .load)

theorem queuedSound : ∃ b c : State (Fin 2), Reachable (Step system) (start (Fin 2)) b ∧
    Reachable (Step system) (start (Fin 2)) c ∧ (b.locals 0 = .held ∧ b.locals 1 = .park ⟨false,false,maxSpin⟩) ∧
    (c.locals 0 = .idle ∧ c.locals 1 = .held) ∧ Sound b ∧ Sound c := by
  have r1 : Reachable (Step system) (start (Fin 2)) _ := .single (.move 0 (.inr (.tryLock rfl)))
  have r2 := r1.tail (.move 1 (.inl .call))
  have r3 := r2.tail (.move 1 (.inl (.fastMiss (by decide))))
  have r4 := r3.tail (.move 1 (.inl .load))
  have r5 := r4.trans (movesReachable (t := 1) (spinsOn le_rfl))
  have parked := r5.tail (.move 1 (.inl (.queue (fun spins => absurd spins.2.2 (lt_irrefl _)) nofun rfl (by decide))))
  have r7 := parked.tail (.move 0 (.inr (.unlockNormal (by decide) (by decide) (by decide))))
  have r8 := r7.tail (.move 0 (.inr (.choose (by decide) (by decide) rfl)))
  have r9 := r8.tail (.move 0 (.inr .signal))
  have r10 := r9.tail (.move 1 (.inl (@LockMove.wake _ _ _ false rfl)))
  have r11 := r10.tail (.move 1 (.inl (.retry (by decide))))
  have held := r11.tail (.move 1 (.inl (.acquire (fun spins => absurd spins.1 (by decide)) (fun _ => by decide) rfl (by decide))))
  exact ⟨_,_,parked,held,⟨rfl,rfl⟩,⟨rfl,rfl⟩,umutexSound parked,umutexSound held⟩

end Runs
end Uco.Umutex
