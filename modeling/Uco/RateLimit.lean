import Uco.Bytes
import Uco.Interleaving
import Std.Data.ExtTreeMap

/-! The fixed-window counter. A call of Allow reads the clock, and later goes through
the section under the mutex with the window it has read; any number of threads do so
in any order. admitted and called count the calls of a key and window for the
statement only. -/
namespace Uco.RateLimit
open Interleaving

structure Entry where
  window : ℕ
  count : ℕ
  deriving DecidableEq, Repr

abbrev Entries := Std.ExtTreeMap Bytes Entry

def kMaxKeys : ℕ := 65536

structure Counter where
  limit : ℕ
  windowMs : ℕ
  limitPositive : 0 < limit
  windowPositive : 0 < windowMs

def newCounter (limit windowSec : ℤ) : Option Counter :=
  if limitPositive : 0 < limit then
    if windowPositive : 0 < windowSec then
      some ⟨limit.toNat, windowSec.toNat * 1000, by omega, by omega⟩
    else none
  else none

structure Entered where
  ok : Bool
  entries : Entries
  full : Bool

def countCall (limit : ℕ) (entries : Entries) (key : Bytes) (current : ℕ) : Entered :=
  let entry := (entries[key]?).getD ⟨0, 0⟩
  let entry := if entry.window ≠ current then ⟨current, 0⟩ else entry
  if limit ≤ entry.count then ⟨false, entries.insert key entry, false⟩
  else ⟨true, entries.insert key { entry with count := entry.count + 1 }, false⟩

def evict (entries : Entries) (current : ℕ) : Entries :=
  entries.filter fun _ entry => current ≤ entry.window

def enter (limit : ℕ) (entries : Entries) (key : Bytes) (current : ℕ) : Entered :=
  if key ∉ entries ∧ kMaxKeys ≤ entries.size then
    let kept := evict entries current
    if kMaxKeys ≤ kept.size then ⟨false, kept, true⟩ else countCall limit kept key current
  else countCall limit entries key current

structure Shared where
  now : ℕ
  entries : Entries
  admitted : Bytes → ℕ → ℕ
  called : Bytes → ℕ → ℕ
  full : Bool

inductive Pc where
  | idle
  | waiting (key : Bytes) (window : ℕ)
  deriving DecidableEq, Repr

def tally (counts : Bytes → ℕ → ℕ) (key : Bytes) (window more : ℕ) : Bytes → ℕ → ℕ :=
  fun k w => counts k w + if k = key ∧ w = window then more else 0

section System
variable (counter : Counter)

def entered (g : Shared) (key : Bytes) (window : ℕ) : Shared :=
  let section' := enter counter.limit g.entries key window
  { g with
    entries := section'.entries
    admitted := tally g.admitted key window section'.ok.toNat
    called := tally g.called key window 1
    full := g.full || section'.full }

inductive Move : Shared → Pc → Shared → Pc → Prop where
  | read {g} (key : Bytes) : Move g .idle g (.waiting key (g.now / counter.windowMs))
  | enter {g key window} : Move g (.waiting key window) (entered counter g key window) .idle

def system : System Shared Pc where
  solo g g' := ∃ later, g.now ≤ later ∧ g' = { g with now := later }
  move := Move counter

abbrev State (T : Type*) := Config Shared Pc T

def start (T : Type*) (now : ℕ) : State T := ⟨⟨now, ∅, fun _ _ => 0, fun _ _ => 0, false⟩, fun _ => .idle⟩

def Counted (g : Shared) (key : Bytes) (window : ℕ) : Prop :=
  (g.entries[key]?).any (fun entry => entry.window = window) = true ∨ g.admitted key window = 0

/- Whoever enters the section in this step finds its count. -/
def FindsCount {T : Type*} (c d : State T) : Prop :=
  ∀ t key window, c.locals t = .waiting key window → d.locals t = .idle → Counted c.shared key window

/- The count in an entry is the number of calls admitted in its window, no window of a
key has more than the limit, and none fewer than it could unless the table was full. -/
structure Counts (g : Shared) : Prop where
  held : ∀ k entry, g.entries[k]? = some entry → entry.count = g.admitted k entry.window
  most : ∀ k w, g.admitted k w ≤ counter.limit
  exact : g.full = false → ∀ k w, g.admitted k w = min counter.limit (g.called k w)

theorem startCounts (T : Type*) (now : ℕ) : Counts counter (start T now).shared :=
  ⟨fun k entry found => by simp [start] at found, fun _ _ => Nat.zero_le _, fun _ _ _ => by simp [start]⟩

end System

@[simp] theorem tallySelf (counts : Bytes → ℕ → ℕ) (key : Bytes) (window more : ℕ) :
    tally counts key window more key window = counts key window + more := by
  simp [tally]

theorem tallyOther (counts : Bytes → ℕ → ℕ) {key k : Bytes} {window w : ℕ} (more : ℕ)
    (other : ¬ (k = key ∧ w = window)) : tally counts key window more k w = counts k w := by
  simp [tally, other]

def current (entries : Entries) (key : Bytes) (window : ℕ) : ℕ :=
  match entries[key]? with
  | some entry => if entry.window = window then entry.count else 0
  | none => 0

theorem countedCall (limit : ℕ) (entries : Entries) (key : Bytes) (window : ℕ) :
    countCall limit entries key window =
      if limit ≤ current entries key window then
        ⟨false, entries.insert key ⟨window, current entries key window⟩, false⟩
      else ⟨true, entries.insert key ⟨window, current entries key window + 1⟩, false⟩ := by
  unfold countCall current
  cases found : entries[key]? with
  | none =>
    simp only [Option.getD_none]
    split <;> simp_all
  | some entry =>
    obtain ⟨opened, count⟩ := entry
    simp only [Option.getD_some]
    by_cases same : opened = window
    · simp [same]
    · simp [same]

section Steps
variable {counter : Counter}

theorem currentCounts {g : Shared} (counts : Counts counter g) {key : Bytes} {window : ℕ}
    (counted : Counted g key window) : current g.entries key window = g.admitted key window := by
  unfold Counted at counted
  unfold current
  cases found : g.entries[key]? with
  | none =>
    rw [found] at counted
    rcases counted with inTable | none
    · simp at inTable
    · exact none.symm
  | some entry =>
    have held := counts.held key entry found
    rw [found] at counted
    simp only
    split
    · rename_i same
      rw [held, same]
    · rename_i other
      rcases counted with inTable | none
      · exact absurd (by simpa using inTable) other
      · exact none.symm

theorem tallyCounts {g : Shared} (counts : Counts counter g) (key : Bytes) (window more : ℕ) {entries : Entries}
    (kept : ∀ (k : Bytes) entry, entries[k]? = some entry → g.entries[k]? = some entry)
    (within : g.admitted key window + more ≤ counter.limit)
    (exact : g.admitted key window = min counter.limit (g.called key window) →
      g.admitted key window + more = min counter.limit (g.called key window + 1)) :
    Counts counter { g with
      entries := entries.insert key ⟨window, g.admitted key window + more⟩
      admitted := tally g.admitted key window more
      called := tally g.called key window 1 } := by
  refine ⟨fun k entry found => ?_, fun k w => ?_, fun notFull k w => ?_⟩
  · rw [Std.ExtTreeMap.getElem?_insert] at found
    split at found
    · rename_i same
      obtain rfl := Std.LawfulEqCmp.compare_eq_iff_eq.mp same
      cases found
      exact (tallySelf g.admitted key window more).symm
    · rename_i other
      have differ : ¬ (k = key ∧ entry.window = window) := by
        rintro ⟨rfl, _⟩
        exact other Std.ReflCmp.compare_self
      exact (counts.held k entry (kept k entry found)).trans (tallyOther g.admitted more differ).symm
  · change tally g.admitted key window more k w ≤ counter.limit
    by_cases same : k = key ∧ w = window
    · obtain ⟨rfl, rfl⟩ := same
      rw [tallySelf]
      exact within
    · rw [tallyOther g.admitted more same]
      exact counts.most k w
  · change tally g.admitted key window more k w = min counter.limit (tally g.called key window 1 k w)
    by_cases same : k = key ∧ w = window
    · obtain ⟨rfl, rfl⟩ := same
      rw [tallySelf, tallySelf]
      exact exact (counts.exact notFull k w)
    · rw [tallyOther g.admitted more same, tallyOther g.called 1 same]
      exact counts.exact notFull k w

theorem countCallCounts {g : Shared} (counts : Counts counter g) {key : Bytes} {window : ℕ} {entries : Entries}
    (kept : ∀ (k : Bytes) entry, entries[k]? = some entry → g.entries[k]? = some entry)
    (here : current entries key window = g.admitted key window) :
    let after := countCall counter.limit entries key window
    Counts counter { g with
      entries := after.entries
      admitted := tally g.admitted key window after.ok.toNat
      called := tally g.called key window 1
      full := g.full || after.full } := by
  have most := counts.most key window
  have positive := counter.limitPositive
  rw [countedCall, here]
  simp only
  split
  · have step := tallyCounts counts key window 0 kept most
      (fun exact => by omega)
    simpa using step
  · have step := tallyCounts counts key window 1 kept (by omega)
      (fun exact => by omega)
    simpa using step

theorem evictKeeps {entries : Entries} {window : ℕ} {k : Bytes} {entry : Entry}
    (found : (evict entries window)[k]? = some entry) : entries[k]? = some entry := by
  rw [evict, Std.ExtTreeMap.getElem?_filter'] at found
  exact (Option.filter_eq_some_iff.mp found).1

theorem enteredCounts {g : Shared} (counts : Counts counter g) {key : Bytes} {window : ℕ}
    (counted : Counted g key window) : Counts counter (entered counter g key window) := by
  have here := currentCounts counts counted
  unfold entered enter
  by_cases crowded : key ∉ g.entries ∧ kMaxKeys ≤ g.entries.size
  · have absent : g.entries[key]? = none := Std.ExtTreeMap.getElem?_eq_none crowded.1
    have none : (evict g.entries window)[key]? = none := by
      cases found : (evict g.entries window)[key]? with
      | none => rfl
      | some entry =>
        rw [evictKeeps found] at absent
        cases absent
    simp only [if_pos crowded]
    split
    · refine ⟨fun k entry found => ?_, fun k w => ?_, fun notFull => by simp at notFull⟩
      · simpa [tally] using counts.held k entry (evictKeeps found)
      · simpa [tally] using counts.most k w
    · refine countCallCounts counts (fun k entry => evictKeeps) ?_
      rw [← here, current, current, none, absent]
  · simp only [if_neg crowded]
    exact countCallCounts counts (fun _ _ found => found) here

theorem stepCounts {T : Type*} [DecidableEq T] {c d : State T} (counts : Counts counter c.shared)
    (taken : Step (system counter) c d) (finds : FindsCount c d) : Counts counter d.shared := by
  cases taken with
  | solo passed =>
    obtain ⟨later, _, rfl⟩ := passed
    exact ⟨counts.held, counts.most, counts.exact⟩
  | move t taken =>
    generalize here : c.locals t = l at taken
    cases taken with
    | read key => exact counts
    | enter => exact enteredCounts counts (finds t _ _ here (setSelf c t _ _))

/- As long as every call that enters the section finds the count of its window, no
window of any key admits more than the limit, nor fewer unless the table was full. -/
theorem limitKept {T : Type*} [DecidableEq T] {now : ℕ} {c : State T}
    (run : Reachable (fun c d => Step (system counter) c d ∧ FindsCount c d) (start T now) c)
    (key : Bytes) (window : ℕ) :
    c.shared.admitted key window ≤ counter.limit ∧ (c.shared.full = false →
      c.shared.admitted key window = min counter.limit (c.shared.called key window)) := by
  have counts := reachableInvariant (fun c => Counts counter c.shared) (startCounts counter T now)
    (fun _ _ counts taken => stepCounts counts taken.1 taken.2) run
  exact ⟨counts.most key window, fun notFull => counts.exact notFull key window⟩

end Steps

def oneASecond : Counter := (newCounter 1 1).get rfl
def client : Bytes := bytes "k"

theorem readStep {T : Type*} [DecidableEq T] (c : State T) (t : T) (idle : c.locals t = .idle) (key : Bytes) :
    Step (system oneASecond) c (c.set t c.shared (.waiting key (c.shared.now / oneASecond.windowMs))) :=
  .move t (idle ▸ .read key)

theorem enterStep {T : Type*} [DecidableEq T] (c : State T) (t : T) {key : Bytes} {window : ℕ}
    (waiting : c.locals t = .waiting key window) :
    Step (system oneASecond) c (c.set t (entered oneASecond c.shared key window) .idle) :=
  .move t (waiting ▸ .enter)

theorem tickStep {T : Type*} [DecidableEq T] (c : State T) (later : ℕ) (passes : c.shared.now ≤ later) :
    Step (system oneASecond) c ⟨{ c.shared with now := later }, c.locals⟩ :=
  .solo ⟨later, passes, rfl⟩

theorem findsReading {T : Type*} [DecidableEq T] (c : State T) (t : T) (g : Shared) (key : Bytes) (window : ℕ) :
    FindsCount c (c.set t g (.waiting key window)) := by
  intro u k w waits left
  by_cases same : u = t
  · subst same; simp at left
  · rw [setOther c _ _ same, waits] at left; cases left

theorem findsEntering {T : Type*} [DecidableEq T] (c : State T) (t : T) (g : Shared) {key : Bytes} {window : ℕ}
    (waiting : c.locals t = .waiting key window) (counted : Counted c.shared key window) :
    FindsCount c (c.set t g .idle) := by
  intro u k w waits left
  by_cases same : u = t
  · subst same; rw [waiting] at waits; cases waits; exact counted
  · rw [setOther c _ _ same, waits] at left; cases left

def bothRead (c : State Bool) : State Bool :=
  let read := fun (c : State Bool) t => c.set t c.shared (.waiting client (c.shared.now / oneASecond.windowMs))
  read (read c true) false
def bothEnter (c : State Bool) (window : ℕ) : State Bool :=
  let enters := fun (c : State Bool) t => c.set t (entered oneASecond c.shared client window) .idle
  enters (enters c true) false
def firstWindow : State Bool := bothEnter (bothRead (start Bool 0)) 0
def nextSecond : State Bool := ⟨{ firstWindow.shared with now := 1000 }, firstWindow.locals⟩
def secondWindow : State Bool := bothEnter (bothRead nextSecond) 1

theorem bothCall {c : State Bool} (idle : ∀ t, c.locals t = .idle) {window : ℕ}
    (reached : Reachable (fun c d => Step (system oneASecond) c d ∧ FindsCount c d) (start Bool 0) c)
    (now : c.shared.now / oneASecond.windowMs = window) (counted : Counted c.shared client window)
    (again : Counted (entered oneASecond c.shared client window) client window) :
    Reachable (fun c d => Step (system oneASecond) c d ∧ FindsCount c d) (start Bool 0) (bothEnter (bothRead c) window) := by
  subst now
  have r1 := reached.tail ⟨readStep c true (idle true) client, findsReading c true _ _ _⟩
  have r2 := r1.tail ⟨readStep (c.set true _ _) false (idle false) client, findsReading _ false _ _ _⟩
  have r3 := r2.tail ⟨enterStep _ true rfl, findsEntering _ true _ rfl counted⟩
  exact r3.tail ⟨enterStep _ false rfl, findsEntering _ false _ rfl again⟩

theorem oneEachWindow : secondWindow.shared.called client 0 = 2 ∧ secondWindow.shared.called client 1 = 2 ∧
    (secondWindow.shared.admitted client 0 ≤ 1 ∧ secondWindow.shared.admitted client 0 = min 1 2) ∧
    (secondWindow.shared.admitted client 1 ≤ 1 ∧ secondWindow.shared.admitted client 1 = min 1 2) := by
  have first : Reachable _ _ firstWindow := bothCall (fun _ => rfl) .refl rfl (.inr rfl) (.inl (by decide))
  have idle : ∀ t, firstWindow.locals t = .idle := by decide
  have passes := first.tail ⟨tickStep firstWindow 1000 (by decide), fun t _ _ waits => by rw [idle t] at waits; cases waits⟩
  have second := bothCall (c := nextSecond) idle passes rfl (.inr (by decide)) (.inl (by decide))
  have notFull : secondWindow.shared.full = false := by decide
  have kept := fun window => limitKept second client window
  exact ⟨by decide, by decide, ⟨(kept 0).1, (kept 0).2 notFull⟩, (kept 1).1, (kept 1).2 notFull⟩

def early : State Bool := (start Bool 0).set true (start Bool 0).shared (.waiting client 0)
def turned : State Bool := ⟨{ early.shared with now := 1000 }, early.locals⟩
def late : State Bool := turned.set false turned.shared (.waiting client 1)
def served : State Bool := late.set false (entered oneASecond late.shared client 1) .idle
def reset : State Bool := served.set true (entered oneASecond served.shared client 0) .idle
def again : State Bool := reset.set false reset.shared (.waiting client 1)
def twice : State Bool := again.set false (entered oneASecond again.shared client 1) .idle

theorem secondAdmitted :
    Reachable (Step (system oneASecond)) (start Bool 0) twice ∧ twice.shared.full = false ∧
    twice.shared.admitted client 1 = 2 ∧ ¬ twice.shared.admitted client 1 ≤ oneASecond.limit := by
  have tick := tickStep early 1000 (by decide)
  have run : Reachable (Step (system oneASecond)) (start Bool 0) twice :=
    (((((((Relation.ReflTransGen.refl.tail (readStep (start Bool 0) true rfl client)).tail tick).tail
      (readStep turned false rfl client)).tail (enterStep late false rfl)).tail
      (enterStep served true rfl)).tail (readStep reset false rfl client)).tail (enterStep again false rfl))
  have two : twice.shared.admitted client 1 = 2 := by decide
  exact ⟨run, by decide, two, by rw [two]; decide⟩

end Uco.RateLimit
