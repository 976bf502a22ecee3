import Uco.Interleaving

/-! uthread::daemonize and the guard that ends the main thread: threads start others, join them or
hand them over to the list, and the guard swaps the list out and joins what it holds until it finds it
empty. Threads are numbered in the order in which they are started, the main thread is 0. -/
namespace Uco.ThreadGuard
open Interleaving (Reachable reachableInvariant)

section Model

/- Who has the std::thread: a uthread object in the hands of a thread, the list or the guard, or
nobody any more, because it was joined and deleted. -/
inductive Handle where
  | owned (t : ℕ)
  | listed
  | gone
  deriving DecidableEq, Repr

inductive Guard where
  | off
  | swapping
  | joining (tmp : List ℕ)
  | done
  deriving DecidableEq, Repr

structure State where
  born : ℕ
  alive : Finset ℕ
  handle : ℕ → Handle
  list : List ℕ
  guard : Guard

def runs (s : State) (t : ℕ) : Prop := t ∈ s.alive ∧ (t = 0 → s.guard = .off)

/- A thread ends only when it has joined, handed over or moved away every uthread it has: the
destructor terminates the process otherwise. The main thread's guard starts under the same rule. A
uthread is moved to no thread younger than its own, so that no threads hold each other. -/
inductive Step : State → State → Prop where
  | start {s} (t : ℕ) (acts : runs s t) :
      Step s {s with born := s.born + 1, alive := insert s.born s.alive,
                     handle := Function.update s.handle s.born (.owned t)}
  | daemonize {s} (t n : ℕ) (acts : runs s t) (real : n < s.born) (mine : s.handle n = .owned t) :
      Step s {s with list := s.list ++ [n], handle := Function.update s.handle n .listed}
  | moves {s} (t u n : ℕ) (acts : runs s t) (takes : runs s u) (mine : s.handle n = .owned t) (older : u < n) :
      Step s {s with handle := Function.update s.handle n (.owned u)}
  | join {s} (t n : ℕ) (acts : runs s t) (mine : s.handle n = .owned t) (ended : n ∉ s.alive) :
      Step s {s with handle := Function.update s.handle n .gone}
  | ends {s} (t : ℕ) (acts : runs s t) (other : t ≠ 0) (free : ∀ n < s.born, s.handle n ≠ .owned t) :
      Step s {s with alive := s.alive.erase t}
  | guards {s} (acts : runs s 0) (free : ∀ n < s.born, s.handle n ≠ .owned 0) : Step s {s with guard := .swapping}
  | swap {s} (here : s.guard = .swapping) :
      Step s {s with list := [], guard := if s.list = [] then .done else .joining s.list}
  | joins {s n tmp} (here : s.guard = .joining (n :: tmp)) (ended : n ∉ s.alive) :
      Step s {s with guard := .joining tmp, handle := Function.update s.handle n .gone}
  | again {s} (here : s.guard = .joining []) : Step s {s with guard := .swapping}

def start : State := ⟨1,{0},fun _ => .gone,[],.off⟩

end Model

section Invariant

def held : Guard → List ℕ
  | .joining tmp => tmp
  | _ => []

def pending (s : State) : List ℕ := s.list ++ held s.guard

structure Inv (s : State) : Prop where
  born : 0 < s.born
  alive : ∀ n ∈ s.alive, n < s.born
  main : 0 ∈ s.alive ∧ s.handle 0 = .gone
  owned : ∀ n t, n < s.born → s.handle n = .owned t → t < n ∧ runs s t
  listed : ∀ n, n ∈ pending s ↔ n < s.born ∧ s.handle n = .listed
  once : (pending s).Nodup
  gone : ∀ n, 0 < n → s.handle n = .gone → n < s.born → n ∉ s.alive
  done : s.guard = .done → s.list = []

theorem noneLeft {s : State} (inv : Inv s) (done : s.guard = .done) (n : ℕ) (other : 0 < n) (real : n < s.born) :
    n ∉ s.alive ∧ s.handle n = .gone := by
  induction n using Nat.strong_induction_on with
  | _ n ih =>
    cases handle : s.handle n with
    | gone => exact ⟨inv.gone n other handle real,rfl⟩
    | listed =>
      have inside := (inv.listed n).mpr ⟨real,handle⟩
      rw [pending, inv.done done, done] at inside
      cases inside
    | owned t =>
      obtain ⟨older,alive,off⟩ := inv.owned n t real handle
      by_cases main : t = 0
      · rw [off main] at done
        cases done
      · exact absurd alive (ih t older (Nat.pos_of_ne_zero main) (by omega)).1

theorem runsOpen {s : State} (inv : Inv s) {t : ℕ} (acts : runs s t) : s.guard ≠ .done := by
  intro done
  by_cases main : t = 0
  · rw [acts.2 main] at done
    cases done
  · exact (noneLeft inv done t (Nat.pos_of_ne_zero main) (inv.alive t acts.1)).1 acts.1

theorem startInv : Inv start where
  born := by decide
  alive := by simp [start]
  main := by simp [start]
  owned := fun n t _ owned => by cases owned
  listed := by simp [start, pending, held]
  once := by simp [start, pending, held]
  gone := fun n other _ real => by simp only [start] at real; omega
  done := fun done => by cases done

variable {s : State}

theorem ownedOther (inv : Inv s) {t n : ℕ} (mine : s.handle n = .owned t) : n ≠ 0 ∧ n ∉ pending s := by
  refine ⟨fun zero => ?_,fun inside => ?_⟩
  · rw [zero, inv.main.2] at mine
    cases mine
  · rw [((inv.listed n).mp inside).2] at mine
    cases mine

theorem startsInv (inv : Inv s) {t : ℕ} (acts : runs s t) :
    Inv {s with born := s.born + 1, alive := insert s.born s.alive, handle := Function.update s.handle s.born (.owned t)} := by
  have before {n : ℕ} (real : n < s.born + 1) (old : n ≠ s.born) : n < s.born := by omega
  have still {u : ℕ} (acts : runs s u) :
      runs {s with born := s.born + 1, alive := insert s.born s.alive, handle := Function.update s.handle s.born (.owned t)} u :=
    ⟨Finset.mem_insert_of_mem acts.1,acts.2⟩
  refine ⟨Nat.succ_pos _,fun n inside => ?_,⟨Finset.mem_insert_of_mem inv.main.1,?_⟩,fun n u real owned => ?_,fun n => ?_,inv.once,
    fun n other gone real inside => ?_,inv.done⟩
  · rcases Finset.mem_insert.mp inside with rfl | old
    · exact Nat.lt_succ_self _
    · exact Nat.lt_succ_of_lt (inv.alive n old)
  · simp only [Function.update_of_ne inv.born.ne]
    exact inv.main.2
  · by_cases new : n = s.born
    · subst new
      simp only [Function.update_self] at owned
      cases owned
      exact ⟨inv.alive t acts.1,still acts⟩
    · simp only [Function.update_of_ne new] at owned
      obtain ⟨older,acts'⟩ := inv.owned n u (before real new) owned
      exact ⟨older,still acts'⟩
  · refine (inv.listed n).trans ?_
    by_cases new : n = s.born
    · simp [new]
    · simp only [Function.update_of_ne new]
      constructor
      · exact fun ⟨real,listed⟩ => ⟨Nat.lt_succ_of_lt real,listed⟩
      · exact fun ⟨real,listed⟩ => ⟨before real new,listed⟩
  · by_cases new : n = s.born
    · simp [new] at gone
    · simp only [Function.update_of_ne new] at gone
      exact inv.gone n other gone (before real new) ((Finset.mem_insert.mp inside).resolve_left new)

theorem daemonizeInv (inv : Inv s) {t n : ℕ} (acts : runs s t) (real : n < s.born) (mine : s.handle n = .owned t) :
    Inv {s with list := s.list ++ [n], handle := Function.update s.handle n .listed} := by
  obtain ⟨other,outside⟩ := ownedOther inv mine
  have moved : pending {s with list := s.list ++ [n], handle := Function.update s.handle n .listed} = s.list ++ n :: held s.guard := by
    simp [pending]
  refine ⟨inv.born,inv.alive,⟨inv.main.1,?_⟩,fun m u real owned => ?_,fun m => ?_,?_,fun m some gone real => ?_,
    fun done => absurd (show s.guard = .done from done) (runsOpen inv acts)⟩
  · simp only [Function.update_of_ne other.symm]
    exact inv.main.2
  · by_cases same : m = n
    · simp [same] at owned
    · simp only [Function.update_of_ne same] at owned
      exact inv.owned m u real owned
  · rw [moved]
    by_cases same : m = n
    · simp [same, real]
    · have old := inv.listed m
      simp only [pending, List.mem_append] at old
      simp [same, old]
  · rw [moved]
    exact (List.nodup_middle).mpr (List.nodup_cons.mpr ⟨outside,inv.once⟩)
  · by_cases same : m = n
    · simp [same] at gone
    · simp only [Function.update_of_ne same] at gone
      exact inv.gone m some gone real

theorem movesInv (inv : Inv s) {t u n : ℕ} (takes : runs s u) (mine : s.handle n = .owned t) (older : u < n) :
    Inv {s with handle := Function.update s.handle n (.owned u)} := by
  obtain ⟨other,outside⟩ := ownedOther inv mine
  refine ⟨inv.born,inv.alive,⟨inv.main.1,?_⟩,fun m v real owned => ?_,fun m => (inv.listed m).trans ?_,inv.once,
    fun m some gone real => ?_,inv.done⟩
  · simp only [Function.update_of_ne other.symm]
    exact inv.main.2
  · by_cases same : m = n
    · subst same
      simp only [Function.update_self] at owned
      cases owned
      exact ⟨older,takes⟩
    · simp only [Function.update_of_ne same] at owned
      exact inv.owned m v real owned
  · by_cases same : m = n
    · simp [same, mine]
    · simp [same]
  · by_cases same : m = n
    · simp [same] at gone
    · simp only [Function.update_of_ne same] at gone
      exact inv.gone m some gone real

theorem joinInv (inv : Inv s) {t n : ℕ} (mine : s.handle n = .owned t) (ended : n ∉ s.alive) :
    Inv {s with handle := Function.update s.handle n .gone} := by
  obtain ⟨other,outside⟩ := ownedOther inv mine
  refine ⟨inv.born,inv.alive,⟨inv.main.1,?_⟩,fun m u real owned => ?_,fun m => (inv.listed m).trans ?_,inv.once,
    fun m some gone real => ?_,inv.done⟩
  · simp only [Function.update_of_ne other.symm]
    exact inv.main.2
  · by_cases same : m = n
    · simp [same] at owned
    · simp only [Function.update_of_ne same] at owned
      exact inv.owned m u real owned
  · by_cases same : m = n
    · simp [same, mine]
    · simp [same]
  · by_cases same : m = n
    · exact same ▸ ended
    · simp only [Function.update_of_ne same] at gone
      exact inv.gone m some gone real

theorem endsInv (inv : Inv s) {t : ℕ} (other : t ≠ 0) (free : ∀ n < s.born, s.handle n ≠ .owned t) :
    Inv {s with alive := s.alive.erase t} := by
  refine ⟨inv.born,fun n inside => inv.alive n (Finset.mem_of_mem_erase inside),
    ⟨Finset.mem_erase.mpr ⟨other.symm,inv.main.1⟩,inv.main.2⟩,fun n u real owned => ?_,inv.listed,inv.once,
    fun n some gone real inside => inv.gone n some gone real (Finset.mem_of_mem_erase inside),inv.done⟩
  obtain ⟨older,acts⟩ := inv.owned n u real owned
  have different : u ≠ t := fun same => free n real (same ▸ owned)
  exact ⟨older,Finset.mem_erase.mpr ⟨different,acts.1⟩,acts.2⟩

theorem guardInv (inv : Inv s) {list : List ℕ} {guard : Guard} (free : ∀ n < s.born, s.handle n ≠ .owned 0)
    (same : list ++ held guard = pending s) (done : guard = .done → list = []) :
    Inv {s with list := list, guard := guard} := by
  refine ⟨inv.born,inv.alive,inv.main,fun n u real owned => ?_,fun n => ?_,?_,inv.gone,done⟩
  · obtain ⟨older,acts⟩ := inv.owned n u real owned
    exact ⟨older,acts.1,fun zero => absurd (zero ▸ owned) (free n real)⟩
  · rw [pending, same]
    exact inv.listed n
  · rw [pending, same]
    exact inv.once

theorem guardFree (inv : Inv s) (begun : s.guard ≠ .off) : ∀ n < s.born, s.handle n ≠ .owned 0 :=
  fun n real owned => begun ((inv.owned n 0 real owned).2.2 rfl)

theorem joinsInv (inv : Inv s) {n : ℕ} {tmp : List ℕ} (here : s.guard = .joining (n :: tmp)) (ended : n ∉ s.alive) :
    Inv {s with guard := .joining tmp, handle := Function.update s.handle n .gone} := by
  have free := guardFree inv (by simp [here])
  have all : pending s = s.list ++ n :: tmp := by rw [pending, here, held]
  have once := inv.once
  rw [all] at once
  obtain ⟨outside,rest⟩ := List.nodup_cons.mp (List.nodup_middle.mp once)
  have listed : s.handle n = .listed := ((inv.listed n).mp (by rw [all]; simp)).2
  refine ⟨inv.born,inv.alive,⟨inv.main.1,?_⟩,fun m u real owned => ?_,fun m => ?_,rest,fun m some gone real => ?_,
    fun done => by cases done⟩
  · have other : n ≠ 0 := fun zero => by
      rw [zero, inv.main.2] at listed
      cases listed
    simp only [Function.update_of_ne other.symm]
    exact inv.main.2
  · by_cases same : m = n
    · simp [same] at owned
    · simp only [Function.update_of_ne same] at owned
      obtain ⟨older,acts⟩ := inv.owned m u real owned
      exact ⟨older,acts.1,fun zero => absurd (zero ▸ owned) (free m real)⟩
  · change m ∈ s.list ++ tmp ↔ _
    by_cases same : m = n
    · subst same
      simp only [Function.update_self]
      exact ⟨fun inside => absurd inside outside,fun some => by cases some.2⟩
    · have old := inv.listed m
      rw [all] at old
      simp only [List.mem_append, List.mem_cons, same, false_or] at old
      simp [same, old]
  · by_cases same : m = n
    · exact same ▸ ended
    · simp only [Function.update_of_ne same] at gone
      exact inv.gone m some gone real

theorem stepInv {s' : State} (inv : Inv s) (taken : Step s s') : Inv s' := by
  cases taken with
  | start t acts => exact startsInv inv acts
  | daemonize t n acts real mine => exact daemonizeInv inv acts real mine
  | moves t u n acts takes mine older => exact movesInv inv takes mine older
  | join t n acts mine ended => exact joinInv inv mine ended
  | ends t acts other free => exact endsInv inv other free
  | guards acts free =>
    exact guardInv inv free (by rw [pending, acts.2 rfl]; rfl) fun done => by cases done
  | swap here =>
    refine guardInv inv (guardFree inv (by simp [here])) ?_ fun _ => rfl
    rw [pending, here]
    split
    · rename_i empty
      simp [empty, held]
    · simp [held]
  | joins here ended => exact joinsInv inv here ended
  | again here =>
    exact guardInv inv (guardFree inv (by simp [here])) (by rw [pending, here]; rfl) fun done => by cases done

end Invariant

section Results

/- When the guard is through, every thread that was ever started has ended and was joined, those that
others handed over in the meantime too, so that nothing they use is destroyed under them. -/
theorem daemonsJoined {s : State} (reached : Reachable Step start s) (done : s.guard = .done) :
    s.alive = {0} ∧ (∀ n, 0 < n → n < s.born → s.handle n = .gone) ∧ s.list = [] := by
  have inv := reachableInvariant Inv startInv (fun _ _ => stepInv) reached
  refine ⟨Finset.eq_singleton_iff_unique_mem.mpr ⟨inv.main.1,fun n alive => ?_⟩,fun n other real => (noneLeft inv done n other real).2,
    inv.done done⟩
  by_contra other
  exact (noneLeft inv done n (Nat.pos_of_ne_zero other) (inv.alive n alive)).1 alive

theorem lateDaemonJoined : ∃ s, (Reachable Step start s ∧ s.born = 3 ∧ s.guard = .done) ∧
    s.alive = {0} ∧ (∀ n, 0 < n → n < s.born → s.handle n = .gone) ∧ s.list = [] := by
  have one := Relation.ReflTransGen.single (Step.start (s := start) 0 ⟨by decide,fun _ => rfl⟩)
  have two := one.tail (.daemonize 0 1 ⟨by decide,fun _ => rfl⟩ (by decide) rfl)
  have three := two.tail (.guards ⟨by decide,fun _ => rfl⟩ (by decide))
  have four := three.tail (.swap rfl)
  have five := four.tail (.start 1 ⟨by decide,by simp⟩)
  have six := five.tail (.daemonize 1 2 ⟨by decide,by simp⟩ (by decide) rfl)
  have seven := six.tail (.ends 1 ⟨by decide,by simp⟩ (by decide) (by decide))
  have eight := seven.tail (.joins rfl (by decide))
  have nine := (eight.tail (.again rfl)).tail (.swap rfl)
  have ten := nine.tail (.ends 2 ⟨by decide,by simp⟩ (by decide) (by decide))
  have eleven := ((ten.tail (.joins rfl (by decide))).tail (.again rfl)).tail (.swap rfl)
  exact ⟨_,⟨eleven,rfl,rfl⟩,daemonsJoined eleven rfl⟩

end Results

end Uco.ThreadGuard
