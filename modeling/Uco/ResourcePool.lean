import Uco.Interleaving

/-! GetResource of the static resource pool: callers on any threads, the cache of open
files and the table of calls in flight. A section under m_mtx or under a call's mu is one
step, and a waiter is in `waiters` from its push until notify_all takes it. -/
namespace Uco.StaticResourcePool
open Interleaving

/- `first` is the descriptor and `second` the size of the file or a status. -/
structure FileCache where
  first : ℤ
  second : ℤ
  deriving DecidableEq, Repr

def FileCache.empty : FileCache := ⟨-1,0⟩

/- The index into the list is left out: an entry is found by its path. -/
structure LRUCache (P : Type*) where
  cap : ℕ
  lru : List (P × FileCache)

section Cache
variable {P : Type*} [DecidableEq P]

def LRUCache.touch (cache : LRUCache P) (entry : P × FileCache) : LRUCache P :=
  {cache with lru := entry :: cache.lru.eraseP (fun e => e.1 = entry.1)}

def LRUCache.get (cache : LRUCache P) (key : P) : FileCache × LRUCache P :=
  match cache.lru.find? (fun e => e.1 = key) with
  | none => (.empty,cache)
  | some entry => (entry.2,cache.touch entry)

def LRUCache.put (cache : LRUCache P) (key : P) (value : FileCache) : FileCache × LRUCache P :=
  match cache.lru.find? (fun e => e.1 = key) with
  | none =>
    let kept := if cache.lru.length = cache.cap then cache.lru.dropLast else cache.lru
    (.empty,{cache with lru := (key,value) :: kept})
  | some entry => (entry.2,cache.touch entry)

def Absent (cache : LRUCache P) (key : P) : Prop := ∀ e ∈ cache.lru, e.1 ≠ key

def Valid (cache : LRUCache P) : Prop := ∀ e ∈ cache.lru, e.2.first ≠ -1

variable {cache : LRUCache P} {key : P} {value : FileCache}

theorem touchMem {entry e : P × FileCache} (held : entry ∈ cache.lru) (mem : e ∈ (cache.touch entry).lru) :
    e ∈ cache.lru := by
  rcases List.mem_cons.mp mem with rfl | mem
  · exact held
  · exact List.mem_of_mem_eraseP mem

theorem getMem {e : P × FileCache} (mem : e ∈ (cache.get key).2.lru) : e ∈ cache.lru := by
  unfold LRUCache.get at mem
  split at mem
  · exact mem
  · next entry found => exact touchMem (List.mem_of_find?_eq_some found) mem

theorem getMiss (valid : Valid cache) (miss : (cache.get key).1.first = -1) : Absent cache key := by
  unfold LRUCache.get at miss
  split at miss
  · next none =>
    intro e mem same
    simpa [same] using List.find?_eq_none.mp none e mem
  · next entry found => exact absurd miss (valid entry (List.mem_of_find?_eq_some found))

theorem putAbsent (absent : Absent cache key) : (cache.put key value).1 = .empty := by
  unfold LRUCache.put
  split
  · rfl
  · next entry found =>
    exact absurd (by simpa using List.find?_some found) (absent entry (List.mem_of_find?_eq_some found))

theorem putMem {e : P × FileCache} (mem : e ∈ (cache.put key value).2.lru) : e = (key,value) ∨ e ∈ cache.lru := by
  unfold LRUCache.put at mem
  split at mem
  · rcases List.mem_cons.mp mem with same | mem
    · exact .inl same
    · split at mem
      · exact .inr (List.mem_of_mem_dropLast mem)
      · exact .inr mem
  · next entry found => exact .inr (touchMem (List.mem_of_find?_eq_some found) mem)

end Cache

structure Call where
  done : Bool
  result : Option FileCache
  deriving DecidableEq, Repr

/- Calls are numbered. `waiters` are the coroutines at a call's cv. The last three are
recorded: what do_open returned for which path, whose leader erased the entry of a call,
and how often the branch for a duplicate open was taken. -/
structure Shared (P T : Type*) where
  resource : LRUCache P
  inFlight : P → Option ℕ
  calls : ℕ → Call
  waiters : ℕ → List T
  next : ℕ
  opened : ℕ → Option (P × FileCache)
  erased : ℕ → List ℕ
  duplicates : ℕ

/- A caller of GetResource. `joined` has found a call and `sleeping` waits at its cv; the
next four lead their call. A result that was read from a call names it. -/
inductive Pc (P : Type*) where
  | idle
  | joined (path : P) (call : ℕ)
  | sleeping (path : P) (call : ℕ)
  | opening (path : P) (call : ℕ)
  | opened (path : P) (call : ℕ) (result : FileCache)
  | published (path : P) (call : ℕ) (result : FileCache)
  | finished (path : P) (call : ℕ) (result : FileCache)
  | returned (path : P) (result : Option FileCache) (read : Option ℕ)

inductive Opens : FileCache → Prop where
  | missing : Opens ⟨-1,404⟩
  | forbidden : Opens ⟨-1,403⟩
  | file {fd size} (valid : 0 ≤ fd) : Opens ⟨fd,size⟩

section Moves
variable {P T : Type*} [DecidableEq P] [DecidableEq T]

abbrev Pool (P T : Type*) := Config (Shared P T) (Pc P) T

def register (g : Shared P T) (path : P) : Shared P T :=
  {g with
    resource := (g.resource.get path).2
    inFlight := Function.update g.inFlight path (some g.next)
    calls := Function.update g.calls g.next ⟨false,none⟩
    next := g.next + 1}

def publish (g : Shared P T) (path : P) (result : FileCache) : FileCache × Shared P T :=
  let (exist,resource) := g.resource.put path result
  if exist.first ≠ -1 then (exist,{g with resource := resource, duplicates := g.duplicates + 1})
  else (result,{g with resource := resource})

def store (g : Shared P T) (call : ℕ) (result : FileCache) : Shared P T :=
  {g with
    calls := Function.update g.calls call ⟨true,some result⟩
    waiters := Function.update g.waiters call []}

def erase (g : Shared P T) (path : P) (call : ℕ) : Shared P T :=
  {g with
    inFlight := Function.update g.inFlight path none
    erased := match g.inFlight path with
      | none => g.erased
      | some entry => Function.update g.erased entry (g.erased entry ++ [call])}

/- A waiter holds mu: it has just come, or notify_all has taken it from the list. -/
def Checks (c : Pool P T) (t : T) (path : P) (call : ℕ) : Prop :=
  c.locals t = .joined path call ∨ c.locals t = .sleeping path call ∧ t ∉ c.shared.waiters call

inductive Step : Pool P T → Pool P T → Prop where
  | hits {c} (t : T) (path : P) (idle : c.locals t = .idle) (hit : (c.shared.resource.get path).1.first ≠ -1) :
      Step c (c.set t {c.shared with resource := (c.shared.resource.get path).2}
        (.returned path (some (c.shared.resource.get path).1) none))
  | joins {c call} (t : T) (path : P) (idle : c.locals t = .idle)
      (miss : (c.shared.resource.get path).1.first = -1) (found : c.shared.inFlight path = some call) :
      Step c (c.set t {c.shared with resource := (c.shared.resource.get path).2} (.joined path call))
  | leads {c} (t : T) (path : P) (idle : c.locals t = .idle)
      (miss : (c.shared.resource.get path).1.first = -1) (free : c.shared.inFlight path = none) :
      Step c (c.set t (register c.shared path) (.opening path c.shared.next))
  | opens {c path call result} (t : T) (here : c.locals t = .opening path call) (answer : Opens result) :
      Step c (c.set t {c.shared with opened := Function.update c.shared.opened call (some (path,result))}
        (.opened path call result))
  | publishes {c path call result} (t : T) (here : c.locals t = .opened path call result)
      (ok : result.first ≠ -1) :
      Step c (c.set t (publish c.shared path result).2 (.published path call (publish c.shared path result).1))
  | fails {c path call result} (t : T) (here : c.locals t = .opened path call result)
      (failed : result.first = -1) : Step c (c.set t c.shared (.published path call result))
  | stores {c path call result} (t : T) (here : c.locals t = .published path call result) :
      Step c (c.set t (store c.shared call result) (.finished path call result))
  | erases {c path call result} (t : T) (here : c.locals t = .finished path call result) :
      Step c (c.set t (erase c.shared path call) (.returned path (some result) none))
  | waits {c path call} (t : T) (here : Checks c t path call) (pending : (c.shared.calls call).done = false) :
      Step c (c.set t {c.shared with
        waiters := Function.update c.shared.waiters call (c.shared.waiters call ++ [t])} (.sleeping path call))
  | reads {c path call} (t : T) (here : Checks c t path call) (done : (c.shared.calls call).done = true) :
      Step c (c.set t c.shared (.returned path (c.shared.calls call).result (some call)))
  | again {c path result read} (t : T) (here : c.locals t = .returned path result read) :
      Step c (c.set t c.shared .idle)

def start (P T : Type*) : Pool P T :=
  ⟨⟨⟨512,[]⟩,fun _ => none,fun _ => ⟨false,none⟩,fun _ => [],0,fun _ => none,fun _ => [],0⟩,fun _ => .idle⟩

end Moves

section Flights
variable {P T : Type*}

def leading : Pc P → Option (P × ℕ)
  | .opening path call | .opened path call _ | .published path call _ | .finished path call _ => some (path,call)
  | _ => none

/- The result that do_open returned for the call is what its waiters find. -/
def Settled (g : Shared P T) (path : P) (call : ℕ) (result : FileCache) : Prop :=
  call < g.next ∧ g.calls call = ⟨true,some result⟩ ∧ g.opened call = some (path,result)

def Pending (g : Shared P T) (path : P) (call : ℕ) : Prop :=
  g.inFlight path = some call ∧ (g.calls call).done = false

structure Registry (c : Pool P T) : Prop where
  entry : ∀ t path call, leading (c.locals t) = some (path,call) → c.shared.inFlight path = some call
  leader : ∀ path call, c.shared.inFlight path = some call → ∃ t, leading (c.locals t) = some (path,call)
  one : ∀ t u path other call, leading (c.locals t) = some (path,call) → leading (c.locals u) = some (other,call) → t = u
  fresh : ∀ path call, c.shared.inFlight path = some call → call < c.shared.next
  led : ∀ t path call, leading (c.locals t) = some (path,call) → c.shared.erased call = []
  gone : ∀ call < c.shared.next, (∀ t path, leading (c.locals t) ≠ some (path,call)) → c.shared.erased call = [call]
  unused : ∀ call, c.shared.next ≤ call → c.shared.erased call = []

def Fits (g : Shared P T) : Pc P → Prop
  | .idle => True
  | .joined path call | .sleeping path call => (∃ result, Settled g path call result) ∨ Pending g path call
  | .opening path call => (g.calls call).done = false ∧ Absent g.resource path
  | .opened path call result =>
    (g.calls call).done = false ∧ Absent g.resource path ∧ g.opened call = some (path,result)
  | .published path call result => (g.calls call).done = false ∧ g.opened call = some (path,result)
  | .finished path call result => Settled g path call result
  | .returned path result (some call) => ∃ file, result = some file ∧ Settled g path call file
  | .returned _ _ none => True

structure Inv (c : Pool P T) : Prop where
  registry : Registry c
  fits : ∀ t, Fits c.shared (c.locals t)
  valid : Valid c.shared.resource
  sleeps : ∀ t call, t ∈ c.shared.waiters call →
    (c.shared.calls call).done = false ∧ ∃ path, c.locals t = .sleeping path call
  single : c.shared.duplicates = 0

theorem startInv : Inv (start P T) := by
  refine ⟨⟨?_,?_,?_,?_,?_,?_,?_⟩,fun _ => trivial,?_,?_,rfl⟩ <;> simp [start, leading, Valid]

theorem fitsKept {g g' : Shared P T} {l : Pc P} (fits : Fits g l)
    (settled : ∀ path call result, Settled g path call result → Settled g' path call result)
    (pending : ∀ path call, Pending g path call → (∃ result, Settled g' path call result) ∨ Pending g' path call)
    (own : ∀ path call, leading l = some (path,call) → g'.calls call = g.calls call ∧ g'.opened call = g.opened call)
    (absent : ∀ path call, leading l = some (path,call) → Absent g.resource path → Absent g'.resource path) :
    Fits g' l := by
  cases l with
  | idle => trivial
  | joined path call => exact fits.elim (fun ⟨r,h⟩ => .inl ⟨r,settled _ _ _ h⟩) (pending _ _)
  | sleeping path call => exact fits.elim (fun ⟨r,h⟩ => .inl ⟨r,settled _ _ _ h⟩) (pending _ _)
  | opening path call =>
    obtain ⟨calls,_⟩ := own path call rfl
    exact ⟨calls ▸ fits.1,absent path call rfl fits.2⟩
  | opened path call result =>
    obtain ⟨calls,opened⟩ := own path call rfl
    exact ⟨calls ▸ fits.1,absent path call rfl fits.2.1,opened ▸ fits.2.2⟩
  | published path call result =>
    obtain ⟨calls,opened⟩ := own path call rfl
    exact ⟨calls ▸ fits.1,opened ▸ fits.2⟩
  | finished path call result => exact settled _ _ _ fits
  | returned path result read =>
    cases read with
    | none => trivial
    | some call =>
      obtain ⟨file,same,done⟩ := fits
      exact ⟨file,same,settled _ _ _ done⟩

variable [DecidableEq P] [DecidableEq T] {c d : Pool P T}

omit [DecidableEq P] in
theorem registryKept (registry : Registry c) (t : T) {g : Shared P T} {l : Pc P}
    (same : leading l = leading (c.locals t)) (table : g.inFlight = c.shared.inFlight)
    (next : g.next = c.shared.next) (erased : g.erased = c.shared.erased) : Registry (c.set t g l) := by
  have leaders : ∀ u, leading ((c.set t g l).locals u) = leading (c.locals u) := by
    intro u
    by_cases here : u = t
    · subst here; rw [setSelf, same]
    · rw [setOther c g l here]
  constructor <;> simp only [leaders, setShared, table, next, erased]
  · exact registry.entry
  · exact registry.leader
  · exact registry.one
  · exact registry.fresh
  · exact registry.led
  · exact registry.gone
  · exact registry.unused

theorem registryLeads (registry : Registry c) (t : T) (path : P) (idle : c.locals t = .idle)
    (free : c.shared.inFlight path = none) :
    Registry (c.set t (register c.shared path) (.opening path c.shared.next)) := by
  have none : ∀ p a, leading (c.locals t) ≠ some (p,a) := by simp [idle, leading]
  have leaders : ∀ u p a, leading ((c.set t (register c.shared path) (.opening path c.shared.next)).locals u) =
      some (p,a) → u = t ∧ p = path ∧ a = c.shared.next ∨ u ≠ t ∧ leading (c.locals u) = some (p,a) := by
    intro u p a leads
    by_cases here : u = t
    · subst here
      simp only [setSelf, leading, Option.some.injEq, Prod.mk.injEq] at leads
      exact .inl ⟨rfl,leads.1.symm,leads.2.symm⟩
    · rw [setOther c _ _ here] at leads
      exact .inr ⟨here,leads⟩
  have stays : ∀ u p a, leading (c.locals u) = some (p,a) →
      leading ((c.set t (register c.shared path) (.opening path c.shared.next)).locals u) = some (p,a) := by
    intro u p a leads
    rw [setOther c _ _ (by rintro rfl; exact none p a leads), leads]
  have old : ∀ u p a, leading (c.locals u) = some (p,a) → a < c.shared.next :=
    fun u p a leads => registry.fresh p a (registry.entry u p a leads)
  constructor
  · intro u p a leads
    rcases leaders u p a leads with ⟨rfl,rfl,rfl⟩ | ⟨_,leads⟩
    · simp [register]
    · have entry := registry.entry u p a leads
      have other : p ≠ path := by rintro rfl; rw [free] at entry; cases entry
      simpa [register, other] using entry
  · intro p a entry
    by_cases here : p = path
    · subst here
      have same : c.shared.next = a := by simpa [register] using entry
      exact ⟨t,by rw [setSelf, ← same]; rfl⟩
    · obtain ⟨u,leads⟩ := registry.leader p a (by simpa [register, here] using entry)
      exact ⟨u,stays u p a leads⟩
  · intro u v p q a hu hv
    rcases leaders u p a hu with ⟨rfl,_,rfl⟩ | ⟨_,first⟩ <;> rcases leaders v q _ hv with ⟨rfl,_,same⟩ | ⟨_,second⟩
    · rfl
    · exact absurd (old v q _ second) (lt_irrefl _)
    · exact absurd (old u p a first) (by omega)
    · exact registry.one u v p q a first second
  · intro p a entry
    by_cases here : p = path
    · subst here
      have same : c.shared.next = a := by simpa [register] using entry
      simp [register, ← same]
    · have below := registry.fresh p a (by simpa [register, here] using entry)
      simp only [setShared, register]
      omega
  · intro u p a leads
    rcases leaders u p a leads with ⟨_,_,rfl⟩ | ⟨_,leads⟩
    · exact registry.unused _ le_rfl
    · exact registry.led u p a leads
  · intro a below unled
    by_cases same : a = c.shared.next
    · exact absurd (by rw [setSelf, same]; rfl) (unled t path)
    · refine registry.gone a ?_ (fun u p leads => unled u p (stays u p a leads))
      simp only [setShared, register] at below
      omega
  · intro a beyond
    simp only [setShared, register] at beyond
    exact registry.unused a (by omega)

theorem registryErases (registry : Registry c) (t : T) {path : P} {call : ℕ} {result : FileCache}
    (here : c.locals t = .finished path call result) :
    Registry (c.set t (erase c.shared path call) (.returned path (some result) none)) := by
  have mine : leading (c.locals t) = some (path,call) := by rw [here]; rfl
  have entry := registry.entry t path call mine
  have erased : (erase c.shared path call).erased =
      Function.update c.shared.erased call [call] := by
    simp [erase, entry, registry.led t path call mine]
  have leaders : ∀ u p a, leading ((c.set t (erase c.shared path call) (.returned path (some result) none)).locals u) =
      some (p,a) → leading (c.locals u) = some (p,a) ∧ p ≠ path ∧ a ≠ call := by
    intro u p a leads
    by_cases same : u = t
    · subst same
      simp [leading] at leads
    · rw [setOther c _ _ same] at leads
      have other : a ≠ call := by
        rintro rfl
        exact same (registry.one u t p path a leads mine)
      refine ⟨leads,?_,other⟩
      rintro rfl
      exact other (Option.some.inj ((registry.entry u p a leads).symm.trans entry))
  have stays : ∀ u p a, leading (c.locals u) = some (p,a) → a ≠ call →
      leading ((c.set t (erase c.shared path call) (.returned path (some result) none)).locals u) = some (p,a) := by
    intro u p a leads other
    have away : u ≠ t := by
      rintro rfl
      rw [mine, Option.some.injEq, Prod.mk.injEq] at leads
      exact other leads.2.symm
    rw [setOther c _ _ away, leads]
  constructor
  · intro u p a leads
    obtain ⟨leads,other,_⟩ := leaders u p a leads
    simpa [erase, other] using registry.entry u p a leads
  · intro p a found
    have other : p ≠ path := by
      rintro rfl
      simp [erase] at found
    have found : c.shared.inFlight p = some a := by simpa [erase, other] using found
    obtain ⟨u,leads⟩ := registry.leader p a found
    refine ⟨u,stays u p a leads ?_⟩
    rintro rfl
    have same := registry.one u t p path a leads mine
    rw [same, mine, Option.some.injEq, Prod.mk.injEq] at leads
    exact other leads.1.symm
  · intro u v p q a hu hv
    exact registry.one u v p q a (leaders u p a hu).1 (leaders v q a hv).1
  · intro p a found
    have other : p ≠ path := by
      rintro rfl
      simp [erase] at found
    exact registry.fresh p a (by simpa [erase, other] using found)
  · intro u p a leads
    obtain ⟨leads,_,other⟩ := leaders u p a leads
    rw [setShared, erased, Function.update_of_ne other]
    exact registry.led u p a leads
  · intro a below unled
    rw [setShared, erased]
    by_cases same : a = call
    · subst same
      simp
    · rw [Function.update_of_ne same]
      exact registry.gone a below (fun u p leads => unled u p (stays u p a leads same))
  · intro a beyond
    have below := registry.fresh path call entry
    have other : a ≠ call := by
      rintro rfl
      exact absurd below (Nat.not_lt.mpr beyond)
    rw [setShared, erased, Function.update_of_ne other]
    exact registry.unused a beyond

omit [DecidableEq P] [DecidableEq T] in
theorem leaderFits {g : Shared P T} {l : Pc P} {path : P} {call : ℕ} (fits : Fits g l)
    (leads : leading l = some (path,call)) (entry : g.inFlight path = some call) :
    (∃ result, Settled g path call result) ∨ Pending g path call := by
  cases l with
  | opening p a =>
    obtain ⟨rfl,rfl⟩ : p = path ∧ a = call := by simpa [leading] using leads
    exact .inr ⟨entry,fits.1⟩
  | opened p a r =>
    obtain ⟨rfl,rfl⟩ : p = path ∧ a = call := by simpa [leading] using leads
    exact .inr ⟨entry,fits.1⟩
  | published p a r =>
    obtain ⟨rfl,rfl⟩ : p = path ∧ a = call := by simpa [leading] using leads
    exact .inr ⟨entry,fits.1⟩
  | finished p a r =>
    obtain ⟨rfl,rfl⟩ : p = path ∧ a = call := by simpa [leading] using leads
    exact .inl ⟨r,fits⟩
  | idle => simp [leading] at leads
  | joined p a => simp [leading] at leads
  | sleeping p a => simp [leading] at leads
  | returned p r a => simp [leading] at leads

omit [DecidableEq T] in
theorem publishAbsent {g : Shared P T} {path : P} {result : FileCache} (absent : Absent g.resource path) :
    publish g path result = (result,{g with resource := (g.resource.put path result).2}) := by
  simp [publish, putAbsent absent, FileCache.empty]

omit [DecidableEq P] [DecidableEq T] in
theorem checksFits {t : T} {path : P} {call : ℕ} (inv : Inv c) (checks : Checks c t path call) :
    (∃ result, Settled c.shared path call result) ∨ Pending c.shared path call := by
  have fits := inv.fits t
  rcases checks with here | ⟨here,_⟩ <;> rwa [here] at fits

omit [DecidableEq P] [DecidableEq T] in
theorem checksAwake {t : T} {path : P} {call : ℕ} (inv : Inv c) (checks : Checks c t path call) (a : ℕ) :
    t ∉ c.shared.waiters a := by
  intro mem
  obtain ⟨_,p,asleep⟩ := inv.sleeps t a mem
  rcases checks with here | ⟨here,woken⟩
  · rw [here] at asleep
    cases asleep
  · rw [here] at asleep
    cases asleep
    exact woken mem

omit [DecidableEq P] [DecidableEq T] in
theorem checksLeading {t : T} {path : P} {call : ℕ} (checks : Checks c t path call) : leading (c.locals t) = none := by
  rcases checks with here | ⟨here,_⟩ <;> rw [here] <;> rfl

omit [DecidableEq P] in
theorem fitsSet (t : T) {g : Shared P T} {l : Pc P} (new : Fits g l)
    (others : ∀ u, u ≠ t → Fits g (c.locals u)) (u : T) : Fits (c.set t g l).shared ((c.set t g l).locals u) := by
  by_cases here : u = t
  · subst here; rwa [setSelf]
  · rw [setOther c g l here]; exact others u here

omit [DecidableEq P] in
theorem sleepsSet (inv : Inv c) (t : T) {g : Shared P T} {l : Pc P}
    (awake : ∀ call, t ∉ c.shared.waiters call) (same : g.waiters = c.shared.waiters)
    (done : ∀ call u, u ∈ c.shared.waiters call → (g.calls call).done = false) (u : T) (call : ℕ)
    (mem : u ∈ (c.set t g l).shared.waiters call) :
    ((c.set t g l).shared.calls call).done = false ∧ ∃ path, (c.set t g l).locals u = .sleeping path call := by
  rw [setShared, same] at mem
  refine ⟨done call u mem,?_⟩
  rw [setOther c g l (by rintro rfl; exact awake call mem)]
  exact (inv.sleeps u call mem).2

omit [DecidableEq P] [DecidableEq T] in
theorem awakeOutside (inv : Inv c) {t : T} (up : ∀ path call, c.locals t ≠ .sleeping path call) (call : ℕ) :
    t ∉ c.shared.waiters call := by
  intro mem
  obtain ⟨_,path,here⟩ := inv.sleeps t call mem
  exact up path call here

omit [DecidableEq P] in
theorem quietInv (inv : Inv c) (t : T) {resource : LRUCache P} {l : Pc P}
    (same : leading l = leading (c.locals t)) (new : Fits c.shared l) (awake : ∀ call, t ∉ c.shared.waiters call)
    (mem : ∀ e ∈ resource.lru, e ∈ c.shared.resource.lru) : Inv (c.set t {c.shared with resource := resource} l) := by
  have kept : ∀ {l : Pc P}, Fits c.shared l → Fits {c.shared with resource := resource} l := by
    intro l fits
    exact fitsKept fits (fun _ _ _ h => h) (fun _ _ h => .inr h) (fun _ _ _ => ⟨rfl,rfl⟩)
      (fun _ _ _ absent e held => absent e (mem e held))
  exact ⟨registryKept inv.registry t same rfl rfl rfl,fitsSet t (kept new) (fun u _ => kept (inv.fits u)),
    fun e held => inv.valid e (mem e held),
    sleepsSet inv t awake rfl (fun call u held => (inv.sleeps u call held).1),inv.single⟩

theorem stepInv (inv : Inv c) (taken : Step c d) : Inv d := by
  have registry := inv.registry
  have touched : ∀ path e, e ∈ (c.shared.resource.get path).2.lru → e ∈ c.shared.resource.lru := fun _ _ => getMem
  cases taken with
  | hits t path idle hit =>
    exact quietInv inv t (by rw [idle]; rfl) trivial (awakeOutside inv (by simp [idle])) (touched path)
  | @joins call t path idle miss found =>
    refine quietInv inv t (by rw [idle]; rfl) ?_ (awakeOutside inv (by simp [idle])) (touched path)
    obtain ⟨u,leads⟩ := registry.leader path call found
    exact leaderFits (inv.fits u) leads found
  | leads t path idle miss free =>
    have absent := getMiss inv.valid miss
    have older : ∀ call u, u ∈ c.shared.waiters call → call ≠ c.shared.next := by
      intro call u mem same
      obtain ⟨_,p,here⟩ := inv.sleeps u call mem
      have fits := inv.fits u
      rw [here] at fits
      rcases fits with ⟨r,below,_⟩ | ⟨entry,_⟩
      · omega
      · have below := registry.fresh p call entry
        omega
    refine ⟨registryLeads registry t path idle free,fitsSet t ?_ (fun u _ => ?_),
      fun e mem => inv.valid e (touched path e mem),
      sleepsSet inv t (awakeOutside inv (by simp [idle])) rfl (fun call u mem => ?_),inv.single⟩
    · exact ⟨by simp [register],fun e mem => absent e (touched path e mem)⟩
    · refine fitsKept (inv.fits u) (fun p a r settled => ?_) (fun p a pending => .inr ?_) (fun p a leads => ?_)
        (fun _ _ _ absent e mem => absent e (touched path e mem))
      · obtain ⟨below,calls,opened⟩ := settled
        refine ⟨Nat.lt_succ_of_lt below,?_,opened⟩
        simpa [register, below.ne] using calls
      · obtain ⟨entry,undone⟩ := pending
        have below := registry.fresh p a entry
        have other : p ≠ path := by
          rintro rfl
          simp [free] at entry
        exact ⟨by simpa [register, other] using entry,by simpa [register, below.ne] using undone⟩
      · have below := registry.fresh p a (registry.entry u p a leads)
        simp [register, below.ne]
    · simpa [register, older call u mem] using (inv.sleeps u call mem).1
  | @opens path call result t here answer =>
    have mine : leading (c.locals t) = some (path,call) := by rw [here]; rfl
    have fits := inv.fits t
    rw [here] at fits
    refine ⟨registryKept registry t (by rw [here]; rfl) rfl rfl rfl,fitsSet t ?_ (fun u away => ?_),inv.valid,
      sleepsSet inv t (awakeOutside inv (by simp [here])) rfl (fun call u mem => (inv.sleeps u call mem).1),inv.single⟩
    · exact ⟨fits.1,fits.2,Function.update_self ..⟩
    · refine fitsKept (inv.fits u) (fun p a r settled => ?_) (fun _ _ pending => .inr pending) (fun p a leads => ?_)
        (fun _ _ _ absent => absent)
      · obtain ⟨below,calls,opened⟩ := settled
        have undone := fits.1
        have other : a ≠ call := by
          rintro rfl
          simp [calls] at undone
        exact ⟨below,calls,by simpa [other] using opened⟩
      · have other : a ≠ call := by
          rintro rfl
          exact away (registry.one u t p path a leads mine)
        exact ⟨rfl,by simp [other]⟩
  | @publishes path call result t here ok =>
    have mine : leading (c.locals t) = some (path,call) := by rw [here]; rfl
    have fits := inv.fits t
    rw [here] at fits
    obtain ⟨undone,absent,opened⟩ := fits
    rw [publishAbsent absent]
    refine ⟨registryKept registry t (by rw [here]; rfl) rfl rfl rfl,fitsSet t ⟨undone,opened⟩ (fun u away => ?_),?_,
      sleepsSet inv t (awakeOutside inv (by simp [here])) rfl (fun call u mem => (inv.sleeps u call mem).1),inv.single⟩
    · refine fitsKept (inv.fits u) (fun _ _ _ settled => settled) (fun _ _ pending => .inr pending)
        (fun _ _ _ => ⟨rfl,rfl⟩) (fun p a leads absent e mem => ?_)
      rcases putMem mem with rfl | mem
      · rintro rfl
        have same := (registry.entry u path a leads).symm.trans (registry.entry t path call mine)
        cases same
        exact away (registry.one u t path path call leads mine)
      · exact absent e mem
    · intro e mem
      rcases putMem mem with rfl | mem
      · exact ok
      · exact inv.valid e mem
  | @fails path call result t here failed =>
    have fits := inv.fits t
    rw [here] at fits
    exact quietInv inv t (by rw [here]; rfl) ⟨fits.1,fits.2.2⟩ (awakeOutside inv (by simp [here])) (fun _ h => h)
  | @stores path call result t here =>
    have mine : leading (c.locals t) = some (path,call) := by rw [here]; rfl
    have entry := registry.entry t path call mine
    have fits := inv.fits t
    rw [here] at fits
    obtain ⟨undone,opened⟩ := fits
    have settled : Settled (store c.shared call result) path call result :=
      ⟨registry.fresh path call entry,Function.update_self ..,opened⟩
    refine ⟨registryKept registry t (by rw [here]; rfl) rfl rfl rfl,fitsSet t settled (fun u away => ?_),inv.valid,
      fun u a mem => ?_,inv.single⟩
    · refine fitsKept (inv.fits u) (fun p a r old => ?_) (fun p a pending => ?_) (fun p a leads => ?_)
        (fun _ _ _ absent => absent)
      · obtain ⟨below,calls,opened⟩ := old
        have other : a ≠ call := by
          rintro rfl
          simp [calls] at undone
        exact ⟨below,by simpa [store, other] using calls,opened⟩
      · by_cases same : a = call
        · subst same
          obtain ⟨v,leads⟩ := registry.leader p a pending.1
          have path' : p = path := by
            rw [registry.one v t p path a leads mine, mine] at leads
            cases leads
            rfl
          exact .inl ⟨result,path' ▸ settled⟩
        · exact .inr ⟨pending.1,by simpa [store, same] using pending.2⟩
      · have other : a ≠ call := by
          rintro rfl
          exact away (registry.one u t p path a leads mine)
        simp [store, other]
    · have other : a ≠ call := by
        rintro rfl
        simp [store] at mem
      have mem : u ∈ c.shared.waiters a := by simpa [store, other] using mem
      obtain ⟨undone,asleep⟩ := inv.sleeps u a mem
      have away : u ≠ t := by
        rintro rfl
        obtain ⟨p,asleep⟩ := asleep
        rw [here] at asleep
        cases asleep
      exact ⟨by simpa [store, other] using undone,by rwa [setOther c _ _ away]⟩
  | @erases path call result t here =>
    have fits := inv.fits t
    rw [here] at fits
    obtain ⟨_,done,_⟩ := fits
    have entry := registry.entry t path call (by rw [here]; rfl)
    refine ⟨registryErases registry t here,fitsSet t trivial (fun u _ => ?_),inv.valid,
      sleepsSet inv t (awakeOutside inv (by simp [here])) rfl (fun call u mem => (inv.sleeps u call mem).1),inv.single⟩
    refine fitsKept (inv.fits u) (fun _ _ _ settled => settled) (fun p a pending => .inr ⟨?_,pending.2⟩)
      (fun _ _ _ => ⟨rfl,rfl⟩) (fun _ _ _ absent => absent)
    have other : p ≠ path := by
      rintro rfl
      have same := entry.symm.trans pending.1
      cases same
      simp [Pending, done] at pending
    simpa [erase, other] using pending.1
  | @waits path call t checks pending =>
    refine ⟨registryKept registry t (checksLeading checks).symm rfl rfl rfl,
      fitsSet t (checksFits inv checks) (fun u _ => ?_),inv.valid,fun u a mem => ?_,inv.single⟩
    · exact fitsKept (inv.fits u) (fun _ _ _ h => h) (fun _ _ h => .inr h) (fun _ _ _ => ⟨rfl,rfl⟩) (fun _ _ _ h => h)
    · by_cases here : u = t
      · subst here
        have same : a = call := by
          by_contra other
          exact checksAwake inv checks a (by simpa [other] using mem)
        subst same
        exact ⟨pending,path,by simp⟩
      · have old : u ∈ c.shared.waiters a := by
          by_cases same : a = call
          · subst same
            simpa [here] using mem
          · simpa [same] using mem
        rw [setOther c _ _ here]
        exact inv.sleeps u a old
  | @reads path call t checks done =>
    refine quietInv inv t (checksLeading checks).symm ?_ (checksAwake inv checks) (fun _ h => h)
    rcases checksFits inv checks with ⟨r,settled⟩ | pending
    · exact ⟨r,by rw [settled.2.1],settled⟩
    · simp [Pending, done] at pending
  | @again path result read t here =>
    exact quietInv inv t (by rw [here]; rfl) trivial (awakeOutside inv (by simp [here])) (fun _ h => h)

/- One do_open for a path at a time and never a duplicate; what a waiter returns is what
do_open returned to its leader; who sleeps has a leader that has yet to store; and the
entry of a call is erased once, by its leader. -/
structure SingleFlight (c : Pool P T) : Prop where
  one : ∀ t u path a b, c.locals t = .opening path a → c.locals u = .opening path b → t = u
  unique : c.shared.duplicates = 0
  same : ∀ t path result call, c.locals t = .returned path result (some call) →
    ∃ file, result = some file ∧ c.shared.calls call = ⟨true,some file⟩ ∧ c.shared.opened call = some (path,file)
  awake : ∀ t call, t ∈ c.shared.waiters call →
    (c.shared.calls call).done = false ∧ ∃ u path, leading (c.locals u) = some (path,call)
  once : ∀ call < c.shared.next,
    (∃ t path, leading (c.locals t) = some (path,call) ∧ c.shared.inFlight path = some call) ∧
      c.shared.erased call = [] ∨
    (∀ path, c.shared.inFlight path ≠ some call) ∧ c.shared.erased call = [call]

omit [DecidableEq P] [DecidableEq T] in
theorem invSingle (inv : Inv c) : SingleFlight c := by
  have registry := inv.registry
  refine ⟨fun t u path a b first second => ?_,inv.single,fun t path result call here => ?_,fun t call mem => ?_,
    fun call below => ?_⟩
  · have leads : leading (c.locals t) = some (path,a) := by rw [first]; rfl
    have leads' : leading (c.locals u) = some (path,b) := by rw [second]; rfl
    have same := (registry.entry t path a leads).symm.trans (registry.entry u path b leads')
    cases same
    exact registry.one t u path path a leads leads'
  · have fits := inv.fits t
    rw [here] at fits
    obtain ⟨file,same,settled⟩ := fits
    exact ⟨file,same,settled.2⟩
  · obtain ⟨undone,path,here⟩ := inv.sleeps t call mem
    refine ⟨undone,?_⟩
    have fits := inv.fits t
    rw [here] at fits
    rcases fits with ⟨r,settled⟩ | pending
    · simp [settled.2.1] at undone
    · obtain ⟨u,leads⟩ := registry.leader path call pending.1
      exact ⟨u,path,leads⟩
  · by_cases led : ∃ t path, leading (c.locals t) = some (path,call)
    · obtain ⟨t,path,leads⟩ := led
      exact .inl ⟨⟨t,path,leads,registry.entry t path call leads⟩,registry.led t path call leads⟩
    · push Not at led
      refine .inr ⟨fun path entry => ?_,registry.gone call below led⟩
      obtain ⟨t,leads⟩ := registry.leader path call entry
      exact led t path leads

theorem resourcesSingleFlight (run : Reachable Step (start P T) c) : SingleFlight c :=
  invSingle (reachableInvariant Inv startInv (fun _ _ => stepInv) run)

theorem joinedReads : ∃ c : Pool ℕ (Fin 2), c.locals 0 = .returned 7 (some ⟨3,10⟩) none ∧
    c.locals 1 = .returned 7 (some ⟨3,10⟩) (some 0) ∧ SingleFlight c := by
  let c1 : Pool ℕ (Fin 2) := (start ℕ (Fin 2)).set 0 (register (start ℕ (Fin 2)).shared 7) (.opening 7 0)
  let c2 : Pool ℕ (Fin 2) := c1.set 1 c1.shared (.joined 7 0)
  let c3 : Pool ℕ (Fin 2) := c2.set 1 {c2.shared with
    waiters := Function.update c2.shared.waiters 0 (c2.shared.waiters 0 ++ [1])} (.sleeping 7 0)
  let c4 : Pool ℕ (Fin 2) := c3.set 0 {c3.shared with
    opened := Function.update c3.shared.opened 0 (some (7,⟨3,10⟩))} (.opened 7 0 ⟨3,10⟩)
  let c5 : Pool ℕ (Fin 2) := c4.set 0 (publish c4.shared 7 ⟨3,10⟩).2 (.published 7 0 (publish c4.shared 7 ⟨3,10⟩).1)
  let c6 : Pool ℕ (Fin 2) := c5.set 0 (store c5.shared 0 ⟨3,10⟩) (.finished 7 0 ⟨3,10⟩)
  let c7 : Pool ℕ (Fin 2) := c6.set 1 c6.shared (.returned 7 (c6.shared.calls 0).result (some 0))
  have leads : Step (start ℕ (Fin 2)) c1 := .leads 0 7 rfl rfl rfl
  have joins : Step c1 c2 := .joins 1 7 rfl rfl rfl
  have waits : Step c2 c3 := .waits 1 (.inl rfl) rfl
  have opens : Step c3 c4 := .opens 0 rfl (.file (by decide))
  have publishes : Step c4 c5 := .publishes 0 rfl (by decide)
  have stores : Step c5 c6 := .stores 0 rfl
  have reads : Step c6 c7 := .reads 1 (.inr ⟨rfl,List.not_mem_nil⟩) rfl
  have erases : Step c7 (c7.set 0 (erase c7.shared 7 0) (.returned 7 (some ⟨3,10⟩) none)) := .erases 0 rfl
  have run : Reachable Step (start ℕ (Fin 2)) (c7.set 0 (erase c7.shared 7 0) (.returned 7 (some ⟨3,10⟩) none)) :=
    (((((((Relation.ReflTransGen.single leads).tail joins).tail waits).tail opens).tail publishes).tail stores).tail
      reads).tail erases
  exact ⟨_,rfl,rfl,resourcesSingleFlight run⟩

end Flights
end Uco.StaticResourcePool
