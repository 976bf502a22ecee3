import Mathlib.Logic.Function.Basic
import Mathlib.Data.List.Basic

/-! The per-thread timer heap of thread_co_env. The vector is a list, a node is a name,
and the fields the heap keeps in a node are maps from names. The sift loops swap two
entries and rewrite both indices, as the source does. -/
namespace Uco.TimerHeap

structure Timers (N : Type*) where
  heap : List N
  deadline : N → Int
  idx : N → ℕ
  inHeap : N → Bool

variable {N : Type*} [DecidableEq N]

/- std::swap(heap[a], heap[b]) and the two index writes after it. -/
def Timers.exchange (t : Timers N) (a b : ℕ) (x y : N) : Timers N :=
  {t with heap := (t.heap.set a y).set b x, idx := Function.update (Function.update t.idx y a) x b}

@[simp] theorem exchangeLength (t : Timers N) (a b : ℕ) (x y : N) :
    (t.exchange a b x y).heap.length = t.heap.length := by
  simp [Timers.exchange]

def Timers.before (t : Timers N) (c best : ℕ) : Bool :=
  match t.heap[c]?, t.heap[best]? with
  | some x, some y => decide (t.deadline x < t.deadline y)
  | _, _ => false

def Timers.best (t : Timers N) (i : ℕ) : ℕ :=
  let left := 2 * i + 1
  let best := if t.before left i then left else i
  if t.before (left + 1) best then left + 1 else best

def siftUp (t : Timers N) (i : ℕ) : Timers N × ℕ :=
  if _pos : 0 < i then
    let parent := (i - 1) / 2
    match t.heap[parent]?, t.heap[i]? with
    | some x, some y =>
      if t.deadline x ≤ t.deadline y then (t,i) else siftUp (t.exchange parent i x y) parent
    | _, _ => (t,i)
  else (t,i)
termination_by i
decreasing_by omega

omit [DecidableEq N] in
theorem bestBounds (t : Timers N) (i : ℕ) : t.best i = i ∨ i < t.best i ∧ t.best i < t.heap.length := by
  have below : ∀ c b, t.before c b = true → c < t.heap.length := by
    intro c b due
    by_contra high
    simp [Timers.before, List.getElem?_eq_none (Nat.le_of_not_lt high)] at due
  unfold Timers.best
  have l := below (2 * i + 1)
  have r := below (2 * i + 1 + 1)
  grind

def siftDown (t : Timers N) (i : ℕ) : Timers N × ℕ :=
  let best := t.best i
  if _stop : best = i then (t,i) else
    match t.heap[best]?, t.heap[i]? with
    | some x, some y => siftDown (t.exchange best i x y) best
    | _, _ => (t,i)
termination_by t.heap.length - i
decreasing_by
  have := bestBounds t i
  simp only [exchangeLength]
  omega

/- heap[i] = heap.back(); heap[i]->idx = i; heap.pop_back(); node->in_heap = false. -/
def Timers.unlink (t : Timers N) (i : ℕ) (n : N) : Timers N :=
  match t.heap.getLast? with
  | some z => {t with heap := (t.heap.set i z).dropLast, idx := Function.update t.idx z i,
                      inHeap := Function.update t.inHeap n false}
  | none => {t with inHeap := Function.update t.inHeap n false}

/- timer_push without its check of in_heap and without timer_refresh. -/
def Timers.push (t : Timers N) (n : N) : Timers N :=
  let added := {t with inHeap := Function.update t.inHeap n true, heap := t.heap ++ [n]}
  let (t',i) := siftUp added t.heap.length
  {t' with idx := Function.update t'.idx n i}

def Timers.remove (t : Timers N) (n : N) : Timers N :=
  if t.inHeap n then
    let i := t.idx n
    let t := t.unlink i n
    if i < t.heap.length then
      let (t,i) := siftDown t i
      (siftUp t i).1
    else t
  else t

/- One round of the loop of timer_on_fire: the front entry leaves the heap. -/
def Timers.popFront (t : Timers N) (n : N) : Timers N := (siftDown (t.unlink 0 n) 0).1

def Indexed (t : Timers N) : Prop := ∀ {k z}, t.heap[k]? = some z → t.idx z = k

structure Located (t : Timers N) (i : ℕ) (n : N) : Prop where
  here : t.heap[i]? = some n
  others : ∀ {k z}, t.heap[k]? = some z → k = i ∨ z ≠ n ∧ t.idx z = k

structure Valid (t : Timers N) : Prop where
  indexed : Indexed t
  member : ∀ n, t.inHeap n = true ↔ n ∈ t.heap

theorem exchangeGet {t : Timers N} {a b : ℕ} {x y : N} (ha : t.heap[a]? = some x) (hb : t.heap[b]? = some y)
    (k : ℕ) : (t.exchange a b x y).heap[k]? =
      if k = b then some x else if k = a then some y else t.heap[k]? := by
  have la := (List.getElem?_eq_some_iff.mp ha).1
  have lb := (List.getElem?_eq_some_iff.mp hb).1
  simp only [Timers.exchange, List.getElem?_set, List.length_set]
  grind

structure Sifted (t t' : Timers N) : Prop where
  member : ∀ n, n ∈ t'.heap ↔ n ∈ t.heap
  inHeap : t'.inHeap = t.inHeap
  deadline : t'.deadline = t.deadline
  indexed : Indexed t → Indexed t'

omit [DecidableEq N] in
theorem siftedRefl (t : Timers N) : Sifted t t := ⟨fun _ => .rfl,rfl,rfl,id⟩

omit [DecidableEq N] in
theorem siftedTrans {t t' t'' : Timers N} (first : Sifted t t') (second : Sifted t' t'') : Sifted t t'' :=
  ⟨fun n => (second.member n).trans (first.member n),second.inHeap.trans first.inHeap,
    second.deadline.trans first.deadline,second.indexed ∘ first.indexed⟩

theorem exchangeSifted {t : Timers N} {a b : ℕ} {x y : N} (ha : t.heap[a]? = some x) (hb : t.heap[b]? = some y)
    (apart : a ≠ b) : Sifted t (t.exchange a b x y) := by
  refine ⟨fun n => ?_,rfl,rfl,fun indexed k z here => ?_⟩
  · simp only [List.mem_iff_getElem?, exchangeGet ha hb]
    constructor
    · rintro ⟨k,here⟩
      grind
    · rintro ⟨k,here⟩
      by_cases kb : k = b
      · exact ⟨a,by grind⟩
      · by_cases ka : k = a
        · exact ⟨b,by grind⟩
        · exact ⟨k,by grind⟩
  · rw [exchangeGet ha hb] at here
    have ix := indexed ha
    have iy := indexed hb
    have iz := fun old : t.heap[k]? = some z => indexed old
    simp only [Timers.exchange, Function.update_apply]
    grind

theorem siftUpSifted (t : Timers N) (i : ℕ) : Sifted t (siftUp t i).1 := by
  fun_induction siftUp t i with
  | case1 => exact siftedRefl _
  | case2 t i pos parent x y hy hx early ih =>
    exact siftedTrans (exchangeSifted hx hy (by omega)) ih
  | case3 => exact siftedRefl _
  | case4 => exact siftedRefl _

theorem siftDownSifted (t : Timers N) (i : ℕ) : Sifted t (siftDown t i).1 := by
  fun_induction siftDown t i with
  | case1 => exact siftedRefl _
  | case2 t i best go x y hy hx ih => exact siftedTrans (exchangeSifted hx hy go) ih
  | case3 => exact siftedRefl _

theorem exchangeElsewhere {t : Timers N} {a b : ℕ} {x y z : N} (ha : t.heap[a]? = some x) (hb : t.heap[b]? = some y)
    (out : z ∉ t.heap) : z ∉ (t.exchange a b x y).heap ∧ (t.exchange a b x y).idx z = t.idx z := by
  have zx : z ≠ x := fun same => out (same ▸ List.mem_of_getElem? ha)
  have zy : z ≠ y := fun same => out (same ▸ List.mem_of_getElem? hb)
  refine ⟨fun inside => ?_,by simp [Timers.exchange, zx, zy]⟩
  rcases List.mem_or_eq_of_mem_set inside with inside | rfl
  · rcases List.mem_or_eq_of_mem_set inside with inside | rfl
    · exact out inside
    · exact zy rfl
  · exact zx rfl

theorem siftUpElsewhere {z : N} (t : Timers N) (i : ℕ) (out : z ∉ t.heap) : (siftUp t i).1.idx z = t.idx z := by
  fun_induction siftUp t i with
  | case1 => rfl
  | case2 t i pos parent x y hy hx early ih =>
    obtain ⟨out',same⟩ := exchangeElsewhere hx hy out
    exact (ih out').trans same
  | case3 => rfl
  | case4 => rfl

theorem siftDownElsewhere {z : N} (t : Timers N) (i : ℕ) (out : z ∉ t.heap) : (siftDown t i).1.idx z = t.idx z := by
  fun_induction siftDown t i with
  | case1 => rfl
  | case2 t i best go x y hy hx ih =>
    obtain ⟨out',same⟩ := exchangeElsewhere hx hy out
    exact (ih out').trans same
  | case3 => rfl

theorem exchangeLocated {t : Timers N} {p i : ℕ} {x n : N} (hp : t.heap[p]? = some x) (apart : p ≠ i)
    (located : Located t i n) : Located (t.exchange p i x n) p n := by
  obtain ⟨here,others⟩ := located
  have get := exchangeGet hp here
  obtain same | ⟨other,ix⟩ := others hp
  · exact absurd same apart
  refine ⟨by rw [get]; simp [apart],fun {k z} at' => ?_⟩
  rw [get] at at'
  have old := fun h : t.heap[k]? = some z => others h
  simp only [Timers.exchange, Function.update_apply]
  grind

theorem siftUpLocated {n : N} (t : Timers N) (i : ℕ) (located : Located t i n) :
    Located (siftUp t i).1 (siftUp t i).2 n := by
  fun_induction siftUp t i with
  | case1 => exact located
  | case2 t i pos parent x y hy hx early ih =>
    have same : y = n := Option.some.inj (hy.symm.trans located.here)
    subst same
    exact ih (exchangeLocated hx (by omega) located)
  | case3 => exact located
  | case4 => exact located

structure Placed (t t' : Timers N) (n : N) (present : Bool) : Prop where
  indexed : Indexed t'
  member : ∀ m, m ∈ t'.heap ↔ if m = n then present = true else m ∈ t.heap
  inHeap : t'.inHeap = Function.update t.inHeap n present
  elsewhere : ∀ m, m ∉ t.heap → m ≠ n → t'.idx m = t.idx m

theorem placedValid {t t' : Timers N} {n : N} {present : Bool} (placed : Placed t t' n present) (valid : Valid t) :
    Valid t' := by
  refine ⟨placed.indexed,fun m => ?_⟩
  rw [placed.inHeap, placed.member]
  by_cases same : m = n <;> simp [same, valid.member]

theorem pushPlaced {t : Timers N} {n : N} (indexed : Indexed t) (out : n ∉ t.heap) :
    Placed t (t.push n) n true := by
  let added : Timers N := {t with inHeap := Function.update t.inHeap n true, heap := t.heap ++ [n]}
  have start : Located added t.heap.length n := by
    refine ⟨by simp [added],fun {k z} here => ?_⟩
    simp only [added] at here ⊢
    by_cases last : k = t.heap.length
    · exact .inl last
    · have old : t.heap[k]? = some z := by
        rw [List.getElem?_append] at here
        grind
      exact .inr ⟨fun same => out (same ▸ List.mem_of_getElem? old),indexed old⟩
  have sifted := siftUpSifted added t.heap.length
  have located := siftUpLocated added t.heap.length start
  refine ⟨fun {k z} here => ?_,fun m => ?_,sifted.inHeap,fun m absent other => ?_⟩
  · obtain same | ⟨other,at'⟩ := located.others here
    · have := Option.some.inj (here.symm.trans (same ▸ located.here))
      subst same this
      exact Function.update_self ..
    · exact (Function.update_of_ne other ..).trans at'
  · refine (sifted.member m).trans ?_
    by_cases same : m = n <;> simp [added, same]
  · refine (Function.update_of_ne other ..).trans (siftUpElsewhere added _ ?_)
    simp [added, absent, other]

theorem pushValid {t : Timers N} {n : N} (valid : Valid t) (absent : t.inHeap n = false) :
    Valid (t.push n) ∧ ∀ m, m ∈ (t.push n).heap ↔ m ∈ t.heap ∨ m = n := by
  have out : n ∉ t.heap := fun here => by
    rw [(valid.member n).mpr here] at absent
    cases absent
  have placed := pushPlaced valid.indexed out
  refine ⟨placedValid placed valid,fun m => (placed.member m).trans ?_⟩
  by_cases same : m = n <;> simp [same]

theorem unlinkGet {t : Timers N} {n z : N} {i : ℕ} (last : t.heap[t.heap.length - 1]? = some z) (k : ℕ) :
    (t.unlink i n).heap[k]? =
      if k < t.heap.length - 1 then if k = i then some z else t.heap[k]? else none := by
  have back : t.heap.getLast? = some z := List.getLast?_eq_getElem?.trans last
  have size := (List.getElem?_eq_some_iff.mp last).1
  simp only [Timers.unlink, back, List.getElem?_dropLast, List.length_set, List.getElem?_set]
  grind

theorem unlinkPlaced {t : Timers N} {n : N} {i : ℕ} (indexed : Indexed t) (here : t.heap[i]? = some n) :
    Placed t (t.unlink i n) n false := by
  have size := (List.getElem?_eq_some_iff.mp here).1
  obtain ⟨z,last⟩ : ∃ z, t.heap[t.heap.length - 1]? = some z :=
    ⟨_,List.getElem?_eq_getElem (by omega)⟩
  have back : t.heap.getLast? = some z := List.getLast?_eq_getElem?.trans last
  have get := unlinkGet (n := n) (i := i) last
  have iz := indexed last
  have iN := indexed here
  refine ⟨fun {k m} at' => ?_,fun m => ?_,by simp only [Timers.unlink, back],fun m absent other => ?_⟩
  · rw [get] at at'
    have old := fun h : t.heap[k]? = some m => indexed h
    simp only [Timers.unlink, back, Function.update_apply]
    grind
  · simp only [List.mem_iff_getElem?, get]
    constructor
    · rintro ⟨k,at'⟩
      have old := fun h : t.heap[k]? = some m => indexed h
      grind
    · intro inside
      obtain ⟨other,k,at'⟩ : m ≠ n ∧ ∃ k, t.heap[k]? = some m := by
        by_cases same : m = n
        · simp [same] at inside
        · exact ⟨same,by simpa [same] using inside⟩
      have im := indexed at'
      have bound := (List.getElem?_eq_some_iff.mp at').1
      by_cases atEnd : k = t.heap.length - 1
      · exact ⟨i,by grind⟩
      · exact ⟨k,by grind⟩
  · have mz : m ≠ z := fun same => absent (same ▸ List.mem_of_getElem? last)
    simp [Timers.unlink, back, mz]

theorem siftedPlaced {t u u' : Timers N} {n : N} {present : Bool} (placed : Placed t u n present)
    (sifted : Sifted u u') (elsewhere : ∀ m, m ∉ u.heap → u'.idx m = u.idx m) : Placed t u' n present := by
  refine ⟨sifted.indexed placed.indexed,fun m => (sifted.member m).trans (placed.member m),
    sifted.inHeap.trans placed.inHeap,fun m absent other => ?_⟩
  have out : m ∉ u.heap := fun inside => by simp [placed.member, other, absent] at inside
  exact (elsewhere m out).trans (placed.elsewhere m absent other)

theorem removePlaced {t : Timers N} {n : N} (indexed : Indexed t) (known : t.inHeap n = true ↔ n ∈ t.heap) :
    Placed t (t.remove n) n false := by
  cases present : t.inHeap n with
  | false =>
    have absent : n ∉ t.heap := fun here => by simp [known.mpr here] at present
    have same : t.remove n = t := by simp [Timers.remove, present]
    rw [same]
    refine ⟨indexed,fun m => ?_,?_,fun _ _ _ => rfl⟩
    · by_cases own : m = n <;> simp [own, absent]
    · rw [← present, Function.update_eq_self]
  | true =>
    obtain ⟨k,here⟩ := List.mem_iff_getElem?.mp (known.mp present)
    have unlinked := unlinkPlaced indexed ((indexed here).symm ▸ here)
    simp only [Timers.remove, present, if_true]
    split
    · have first := siftDownSifted (t.unlink (t.idx n) n) (t.idx n)
      refine siftedPlaced unlinked (siftedTrans first (siftUpSifted _ _)) fun m absent => ?_
      have out : m ∉ (siftDown (t.unlink (t.idx n) n) (t.idx n)).1.heap := fun inside => absent ((first.member m).mp inside)
      exact (siftUpElsewhere _ _ out).trans (siftDownElsewhere _ _ absent)
    · exact unlinked

theorem popFrontPlaced {t : Timers N} {n : N} (indexed : Indexed t) (front : t.heap[0]? = some n) :
    Placed t (t.popFront n) n false :=
  siftedPlaced (unlinkPlaced indexed front) (siftDownSifted _ _) fun _ absent => siftDownElsewhere _ _ absent

theorem removeValid {t : Timers N} (n : N) (valid : Valid t) :
    Valid (t.remove n) ∧ ∀ m, m ∈ (t.remove n).heap ↔ m ∈ t.heap ∧ m ≠ n := by
  have placed := removePlaced valid.indexed (valid.member n)
  refine ⟨placedValid placed valid,fun m => (placed.member m).trans ?_⟩
  by_cases same : m = n <;> simp [same]

theorem popFrontValid {t : Timers N} {n : N} (valid : Valid t) (front : t.heap[0]? = some n) :
    Valid (t.popFront n) ∧ ∀ m, m ∈ (t.popFront n).heap ↔ m ∈ t.heap ∧ m ≠ n := by
  have placed := popFrontPlaced valid.indexed front
  refine ⟨placedValid placed valid,fun m => (placed.member m).trans ?_⟩
  by_cases same : m = n <;> simp [same]

end Uco.TimerHeap
