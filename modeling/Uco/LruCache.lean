import Uco.Recency
import Uco.ResourcePool

/-! The LRU cache of open files with its two structures: a list whose nodes are named as
iterators name them, and an index from paths to iterators. -/
namespace Uco.LruCache
open StaticResourcePool (FileCache)
open Recency

section Model
variable {P : Type*} [DecidableEq P]

structure Node (P : Type*) where
  it : ℕ
  key : P
  value : FileCache
  deriving DecidableEq, Repr

/- `cache` is the index, `fresh` the iterator that the next node gets. -/
structure LRUCache (P : Type*) where
  cap : ℕ
  cache : P → Option ℕ
  lru : List (Node P)
  fresh : ℕ

def LRUCache.new (capacity : ℕ) : LRUCache P := ⟨capacity,fun _ => none,[],0⟩

def LRUCache.deref (c : LRUCache P) (it : ℕ) : Option (Node P) := c.lru.find? (fun node => node.it = it)

def LRUCache.splice (c : LRUCache P) (node : Node P) : LRUCache P :=
  {c with lru := node :: c.lru.eraseP (fun n => n.it = node.it)}

def LRUCache.get (c : LRUCache P) (key : P) : Option (FileCache × LRUCache P) :=
  match c.cache key with
  | none => some (.empty,c)
  | some it => (c.deref it).map fun node => (node.value,c.splice node)

def LRUCache.popBack (c : LRUCache P) (back : Node P) : LRUCache P :=
  {c with cache := Function.update c.cache back.key none, lru := c.lru.dropLast}

def LRUCache.emplaceFront (c : LRUCache P) (key : P) (value : FileCache) : LRUCache P :=
  {c with cache := Function.update c.cache key (some c.fresh), lru := ⟨c.fresh,key,value⟩ :: c.lru, fresh := c.fresh + 1}

def LRUCache.put (c : LRUCache P) (key : P) (value : FileCache) : Option (FileCache × LRUCache P) :=
  match c.cache key with
  | none =>
    if c.lru.length = c.cap then
      match c.lru.getLast? with
      -- back() of an empty list
      | none => none
      | some back => some (.empty,(c.popBack back).emplaceFront key value)
    else some (.empty,c.emplaceFront key value)
  | some it => (c.deref it).map fun node => (node.value,c.splice node)

end Model

section Purpose
variable {P : Type*} [DecidableEq P]

inductive Op (P : Type*) where
  | get (key : P)
  | put (key : P) (value : FileCache)

def LRUCache.step (c : LRUCache P) : Op P → Option (LRUCache P)
  | .get key => (c.get key).map Prod.snd
  | .put key value => (c.put key value).map Prod.snd

def LRUCache.keys (c : LRUCache P) : List P := c.lru.map Node.key

def LRUCache.entries (c : LRUCache P) : List (P × FileCache) := c.lru.map fun node => (node.key,node.value)

def used (c : LRUCache P) : Op P → List P
  | .get key => if key ∈ c.keys then [key] else []
  | .put key _ => [key]

structure History (P : Type*) where
  cache : LRUCache P
  uses : List P

def History.step (h : History P) (op : Op P) : Option (History P) :=
  (h.cache.step op).map fun c => ⟨c,h.uses ++ used h.cache op⟩

def run (cap : ℕ) (ops : List (Op P)) : Option (History P) := ops.foldlM History.step ⟨.new cap,[]⟩

structure Consistent (c : LRUCache P) : Prop where
  points : ∀ key it, c.cache key = some it ↔ ∃ node ∈ c.lru, node.key = key ∧ node.it = it
  keys : c.keys.Nodup
  iterators : (c.lru.map Node.it).Nodup
  fresh : ∀ node ∈ c.lru, node.it < c.fresh
  size : c.lru.length ≤ c.cap

def Cached (cap : ℕ) (ops : List (Op P)) (key : P) : Prop := ∃ h, run cap ops = some h ∧ key ∈ h.cache.keys

def FirstPut (cap : ℕ) (ops : List (Op P)) (key : P) (value : FileCache) : Prop :=
  ∃ before after, ops = before ++ Op.put key value :: after ∧ ¬Cached cap before key ∧
    ∀ front, front <+: after → Cached cap (before ++ Op.put key value :: front) key

structure Exact (cap : ℕ) (ops : List (Op P)) (h : History P) : Prop where
  consistent : Consistent h.cache
  size : h.cache.lru.length ≤ cap
  recency : h.cache.keys = (recent h.uses).take cap
  hit : ∀ key ∈ h.cache.keys, ∃ value, FirstPut cap ops key value ∧
    (∃ c, h.cache.get key = some (value,c)) ∧
    ∀ other, ∃ c, h.cache.put key other = some (value,c) ∧ c.entries.Perm h.cache.entries
  miss : ∀ key ∉ h.cache.keys, h.cache.get key = some (.empty,h.cache) ∧
    ∀ value, ∃ c, h.cache.put key value = some (.empty,c) ∧
      c.entries = (key,value) :: if h.cache.lru.length = cap then h.cache.entries.dropLast else h.cache.entries

end Purpose

section Lists
variable {A B : Type*}

theorem erasePSame {p q : A → Bool} {l : List A} (same : ∀ a ∈ l, p a = q a) : l.eraseP p = l.eraseP q := by
  induction l with
  | nil => rfl
  | cons a l ih =>
    obtain ⟨head,tail⟩ := List.forall_mem_cons.mp same
    rw [List.eraseP_cons, List.eraseP_cons, head, ih tail]

theorem imageTells {f : A → B} {l : List A} (nodup : (l.map f).Nodup) {a b : A} (ha : a ∈ l) (hb : b ∈ l) :
    f a = f b ↔ a = b :=
  ⟨List.inj_on_of_nodup_map nodup ha hb,congrArg f⟩

end Lists

section Operations
variable {P : Type*} {c : LRUCache P}

def LRUCache.forget (c : LRUCache P) : StaticResourcePool.LRUCache P := ⟨c.cap,c.entries⟩

theorem keysEntries (c : LRUCache P) : c.entries.map Prod.fst = c.keys := by
  simp [LRUCache.entries, LRUCache.keys]

theorem entryNode {key : P} {value : FileCache} (held : (key,value) ∈ c.entries) :
    ∃ node ∈ c.lru, node.key = key ∧ node.value = value := by
  obtain ⟨node,mem,same⟩ := List.mem_map.mp held
  cases same
  exact ⟨node,mem,rfl,rfl⟩

theorem keyNode {key : P} : key ∈ c.keys ↔ ∃ node ∈ c.lru, node.key = key := List.mem_map

theorem indexed (consistent : Consistent c) {node : Node P} (mem : node ∈ c.lru) :
    c.cache node.key = some node.it ∧ c.deref node.it = some node := by
  refine ⟨(consistent.points _ _).mpr ⟨node,mem,rfl,rfl⟩,?_⟩
  cases found : c.deref node.it with
  | none =>
    have none := List.find?_eq_none.mp found node mem
    simp at none
  | some other =>
    have same : other.it = node.it := by simpa using List.find?_some found
    rw [(imageTells consistent.iterators (List.mem_of_find?_eq_some found) mem).mp same]

theorem unindexed (consistent : Consistent c) {key : P} : c.cache key = none ↔ key ∉ c.keys := by
  rw [keyNode, Option.eq_none_iff_forall_ne_some]
  constructor
  · rintro none ⟨node,mem,rfl⟩
    exact none _ (indexed consistent mem).1
  · intro absent it points
    obtain ⟨node,mem,same,_⟩ := (consistent.points _ _).mp points
    exact absent ⟨node,mem,same⟩

variable [DecidableEq P]

theorem splicePerm (c : LRUCache P) {node : Node P} (mem : node ∈ c.lru) (consistent : Consistent c) :
    (c.splice node).lru.Perm c.lru := by
  have same : c.lru.eraseP (fun n => n.it = node.it) = c.lru.eraseP (fun n => node == n) :=
    erasePSame fun n inside => by
      simp only [imageTells consistent.iterators inside mem, eq_comm (a := n)]
      rfl
  have out := List.perm_cons_erase mem
  rw [List.erase_eq_eraseP] at out
  simp only [LRUCache.splice, same]
  exact out.symm

theorem spliceConsistent {node : Node P} (mem : node ∈ c.lru) (consistent : Consistent c) :
    Consistent (c.splice node) := by
  have perm := splicePerm c mem consistent
  refine ⟨fun key it => ?_,(perm.map _).nodup_iff.mpr consistent.keys,(perm.map _).nodup_iff.mpr consistent.iterators,
    fun n inside => consistent.fresh n (perm.mem_iff.mp inside),perm.length_eq.trans_le consistent.size⟩
  simp only [perm.mem_iff]
  exact consistent.points key it

theorem popConsistent {back : Node P} (last : c.lru.getLast? = some back) (consistent : Consistent c) :
    Consistent (c.popBack back) := by
  obtain ⟨front,split⟩ := List.getLast?_eq_some_iff.mp last
  have keys := consistent.keys
  have iterators := consistent.iterators
  have fresh := consistent.fresh
  have size := consistent.size
  have points := consistent.points
  simp only [LRUCache.keys, split, List.map_append, List.map_singleton, List.length_append, List.length_singleton,
    List.nodup_append, List.mem_append, List.mem_singleton] at keys iterators fresh size points
  have there : (c.popBack back).lru = front := by rw [LRUCache.popBack, split, List.dropLast_concat]
  refine ⟨fun key it => ?_,?_,?_,?_,?_⟩
  · rw [there, show (c.popBack back).cache = Function.update c.cache back.key none from rfl]
    by_cases evicted : key = back.key
    · subst evicted
      refine iff_of_false (by simp) ?_
      rintro ⟨node,mem,same,_⟩
      exact keys.2.2 _ (List.mem_map.mpr ⟨node,mem,same⟩) back.key rfl rfl
    · rw [Function.update_of_ne evicted, points]
      constructor
      · rintro ⟨node,mem | rfl,same,at'⟩
        · exact ⟨node,mem,same,at'⟩
        · exact absurd same.symm evicted
      · rintro ⟨node,mem,same,at'⟩
        exact ⟨node,.inl mem,same,at'⟩
  · rw [LRUCache.keys, there]
    exact keys.1
  · rw [there]
    exact iterators.1
  · rw [there]
    exact fun node mem => fresh node (.inl mem)
  · rw [there]
    exact Nat.le_of_succ_le size

theorem emplaceConsistent {key : P} (absent : key ∉ c.keys) (room : c.lru.length < c.cap)
    (consistent : Consistent c) (value : FileCache) : Consistent (c.emplaceFront key value) := by
  refine ⟨fun k it => ?_,List.nodup_cons.mpr ⟨absent,consistent.keys⟩,List.nodup_cons.mpr ⟨?_,consistent.iterators⟩,
    ?_,room⟩
  · simp only [LRUCache.emplaceFront, List.mem_cons, exists_eq_or_imp]
    by_cases here : k = key
    · subst here
      rw [Function.update_self, Option.some.injEq]
      constructor
      · exact fun same => .inl ⟨rfl,same⟩
      · rintro (same | ⟨node,mem,same,_⟩)
        · exact same.2
        · exact absurd (keyNode.mpr ⟨node,mem,same⟩) absent
    · rw [Function.update_of_ne here, consistent.points]
      constructor
      · exact .inr
      · rintro (same | old)
        · exact absurd same.1.symm here
        · exact old
  · intro inside
    obtain ⟨node,mem,same⟩ := List.mem_map.mp inside
    exact absurd same (Nat.ne_of_lt (consistent.fresh node mem))
  · refine List.forall_mem_cons.mpr ⟨Nat.lt_succ_self _,fun node mem => ?_⟩
    exact Nat.lt_succ_of_lt (consistent.fresh node mem)

theorem keysSplice {node : Node P} (mem : node ∈ c.lru) (consistent : Consistent c) :
    (c.splice node).keys = node.key :: c.keys.erase node.key := by
  have same : c.lru.eraseP (fun n => n.it = node.it) = c.lru.eraseP ((node.key == ·) ∘ Node.key) :=
    erasePSame fun n inside => by
      simp only [Function.comp_apply, imageTells consistent.iterators inside mem,
        ← imageTells consistent.keys inside mem, eq_comm (a := n.key)]
      rfl
  rw [LRUCache.keys, LRUCache.splice, List.map_cons, same, ← List.eraseP_map, ← List.erase_eq_eraseP, LRUCache.keys]

theorem entriesSplice {node : Node P} (mem : node ∈ c.lru) (consistent : Consistent c) :
    (c.splice node).entries.Perm c.entries :=
  (splicePerm c mem consistent).map _

theorem hit (consistent : Consistent c) {key : P} (there : key ∈ c.keys) : ∃ node ∈ c.lru, node.key = key ∧
    c.get key = some (node.value,c.splice node) ∧ ∀ other, c.put key other = some (node.value,c.splice node) := by
  obtain ⟨node,mem,rfl⟩ := keyNode.mp there
  obtain ⟨points,deref⟩ := indexed consistent mem
  refine ⟨node,mem,rfl,?_,fun other => ?_⟩
  · simp only [LRUCache.get, points, deref, Option.map_some]
  · simp only [LRUCache.put, points, deref, Option.map_some]

omit [DecidableEq P] in
theorem missGet (consistent : Consistent c) {key : P} (absent : key ∉ c.keys) : c.get key = some (.empty,c) := by
  simp only [LRUCache.get, (unindexed consistent).mpr absent]

theorem missPut (consistent : Consistent c) {key : P} (absent : key ∉ c.keys) (room : 0 < c.cap) (value : FileCache) :
    ∃ c', c.put key value = some (.empty,c') ∧ Consistent c' ∧ c'.cap = c.cap ∧
      c'.entries = (key,value) :: if c.lru.length = c.cap then c.entries.dropLast else c.entries := by
  have none := (unindexed consistent).mpr absent
  have size := consistent.size
  by_cases full : c.lru.length = c.cap
  · have more : c.lru ≠ [] := List.length_pos_iff.mp (by omega)
    have last := List.getLast?_eq_some_getLast more
    have popped := popConsistent last consistent
    have still : key ∉ (c.popBack (c.lru.getLast more)).keys := fun inside => by
      obtain ⟨node,mem,same⟩ := keyNode.mp inside
      exact absent (keyNode.mpr ⟨node,List.mem_of_mem_dropLast mem,same⟩)
    have short : (c.popBack (c.lru.getLast more)).lru.length < c.cap := by
      simp only [LRUCache.popBack, List.length_dropLast]
      omega
    refine ⟨(c.popBack (c.lru.getLast more)).emplaceFront key value,?_,emplaceConsistent still short popped value,rfl,?_⟩
    · simp only [LRUCache.put, none, full, if_true, last]
    · rw [if_pos full]
      simp [LRUCache.entries, LRUCache.emplaceFront, LRUCache.popBack, List.map_dropLast]
  · refine ⟨c.emplaceFront key value,?_,emplaceConsistent absent (by omega) consistent value,rfl,?_⟩
    · simp only [LRUCache.put, none, full, if_false]
    · rw [if_neg full]
      rfl

end Operations

section Forgetting
variable {P : Type*} [DecidableEq P] {c : LRUCache P}

theorem forgetFind (consistent : Consistent c) {node : Node P} (mem : node ∈ c.lru) :
    c.forget.lru.find? (fun e => e.1 = node.key) = some (node.key,node.value) := by
  cases found : c.forget.lru.find? (fun e => e.1 = node.key) with
  | none =>
    have none := List.find?_eq_none.mp found (node.key,node.value) (List.mem_map_of_mem mem)
    simp at none
  | some e =>
    have key : e.1 = node.key := by simpa using List.find?_some found
    obtain ⟨other,inside,same,value⟩ := entryNode (List.mem_of_find?_eq_some found)
    rw [key] at same
    rw [(imageTells consistent.keys inside mem).mp same] at value
    rw [← key, value]

theorem forgetSplice (consistent : Consistent c) {node : Node P} (mem : node ∈ c.lru) :
    (c.splice node).forget = c.forget.touch (node.key,node.value) := by
  have same : c.lru.eraseP (fun n => n.it = node.it) =
      c.lru.eraseP ((fun e => e.1 = node.key) ∘ fun n => (n.key,n.value)) :=
    erasePSame fun n inside => by
      simp [imageTells consistent.iterators inside mem, ← imageTells consistent.keys inside mem]
  simp only [LRUCache.forget, LRUCache.entries, StaticResourcePool.LRUCache.touch, LRUCache.splice, List.map_cons, same,
    List.eraseP_map]

theorem forgetAbsent {key : P} (absent : key ∉ c.keys) : c.forget.lru.find? (fun e => e.1 = key) = none := by
  refine List.find?_eq_none.mpr fun e mem => ?_
  have other := fun same : e.1 = key => absent (same ▸ keysEntries c ▸ List.mem_map_of_mem mem)
  simpa using other

theorem getForgets (consistent : Consistent c) (key : P) :
    (c.get key).map (fun r => (r.1,r.2.forget)) = some (c.forget.get key) := by
  by_cases there : key ∈ c.keys
  · obtain ⟨node,mem,rfl,got,_⟩ := hit consistent there
    rw [got, StaticResourcePool.LRUCache.get, forgetFind consistent mem, Option.map_some, forgetSplice consistent mem]
  · rw [missGet consistent there, StaticResourcePool.LRUCache.get, forgetAbsent there, Option.map_some]

theorem putForgets (consistent : Consistent c) (room : 0 < c.cap) (key : P) (value : FileCache) :
    (c.put key value).map (fun r => (r.1,r.2.forget)) = some (c.forget.put key value) := by
  by_cases there : key ∈ c.keys
  · obtain ⟨node,mem,rfl,_,put⟩ := hit consistent there
    rw [put, StaticResourcePool.LRUCache.put, forgetFind consistent mem, Option.map_some, forgetSplice consistent mem]
  · obtain ⟨c',put,_,cap,entries⟩ := missPut consistent there room value
    have length : c.entries.length = c.lru.length := List.length_map _
    rw [put, StaticResourcePool.LRUCache.put, forgetAbsent there, Option.map_some]
    simp only [LRUCache.forget, entries, cap, length]

end Forgetting

section Runs
variable {P : Type*} [DecidableEq P] {c : LRUCache P} {cap : ℕ}

inductive Stepped (c c' : LRUCache P) : Op P → List P → Prop
  | missed {key} (absent : key ∉ c.keys) (same : c' = c) : Stepped c c' (.get key) []
  | hit {op key} (there : key ∈ c.keys) (keys : c'.keys = key :: c.keys.erase key)
      (entries : c'.entries.Perm c.entries) : Stepped c c' op [key]
  | new {key value} (absent : key ∉ c.keys)
      (entries : c'.entries = (key,value) :: if c.lru.length = c.cap then c.entries.dropLast else c.entries) :
      Stepped c c' (.put key value) [key]

theorem stepped (consistent : Consistent c) (room : 0 < c.cap) (op : Op P) :
    ∃ c', c.step op = some c' ∧ Consistent c' ∧ c'.cap = c.cap ∧ Stepped c c' op (used c op) := by
  cases op with
  | get key =>
    by_cases there : key ∈ c.keys
    · obtain ⟨node,mem,rfl,got,_⟩ := hit consistent there
      refine ⟨c.splice node,by rw [LRUCache.step, got, Option.map_some],spliceConsistent mem consistent,rfl,?_⟩
      rw [used, if_pos there]
      exact .hit there (keysSplice mem consistent) (entriesSplice mem consistent)
    · refine ⟨c,by rw [LRUCache.step, missGet consistent there, Option.map_some],consistent,rfl,?_⟩
      rw [used, if_neg there]
      exact .missed there rfl
  | put key value =>
    by_cases there : key ∈ c.keys
    · obtain ⟨node,mem,rfl,_,put⟩ := hit consistent there
      exact ⟨c.splice node,by rw [LRUCache.step, put, Option.map_some],spliceConsistent mem consistent,rfl,
        .hit there (keysSplice mem consistent) (entriesSplice mem consistent)⟩
    · obtain ⟨c',put,kept,same,entries⟩ := missPut consistent there room value
      exact ⟨c',by rw [LRUCache.step, put, Option.map_some],kept,same,.new there entries⟩

omit [DecidableEq P] in
theorem newConsistent (cap : ℕ) : Consistent (LRUCache.new cap : LRUCache P) :=
  ⟨fun _ _ => by simp [LRUCache.new],List.nodup_nil,List.nodup_nil,fun _ mem => absurd mem List.not_mem_nil,Nat.zero_le _⟩

theorem runSnoc (ops : List (Op P)) (op : Op P) : run cap (ops ++ [op]) = (run cap ops).bind (·.step op) := by
  rw [run, List.foldlM_append, ← run]
  cases run cap ops with
  | none => rfl
  | some h =>
    change (h.step op >>= fun h => some h) = h.step op
    exact bind_pure _

structure Holds (cap : ℕ) (ops : List (Op P)) (h : History P) : Prop where
  consistent : Consistent h.cache
  capacity : h.cache.cap = cap
  recency : h.cache.keys = (recent h.uses).take cap
  values : ∀ key value, (key,value) ∈ h.cache.entries → FirstPut cap ops key value

theorem cachedIff {ops : List (Op P)} {h : History P} (ran : run cap ops = some h) {key : P} :
    Cached cap ops key ↔ key ∈ h.cache.keys := by
  simp [Cached, ran]

theorem firstPutKept {ops : List (Op P)} {op : Op P} {key : P} {value : FileCache} (first : FirstPut cap ops key value)
    (still : Cached cap (ops ++ [op]) key) : FirstPut cap (ops ++ [op]) key value := by
  obtain ⟨before,after,rfl,absent,since⟩ := first
  refine ⟨before,after ++ [op],by simp,absent,fun front part => ?_⟩
  rcases List.prefix_concat_iff.mp part with rfl | part
  · simpa using still
  · exact since front part

theorem holdsStep {ops : List (Op P)} {h h' : History P} {op : Op P} (room : 0 < cap) (holds : Holds cap ops h)
    (ran : run cap ops = some h) (ran' : run cap (ops ++ [op]) = some h') (consistent : Consistent h'.cache)
    (same : h'.cache.cap = h.cache.cap) (uses : h'.uses = h.uses ++ used h.cache op)
    (how : Stepped h.cache h'.cache op (used h.cache op)) : Holds cap (ops ++ [op]) h' := by
  have kept : ∀ {key value}, (key,value) ∈ h.cache.entries → (key,value) ∈ h'.cache.entries →
      FirstPut cap (ops ++ [op]) key value := fun old now =>
    firstPutKept (holds.values _ _ old) ((cachedIff ran').mpr (keysEntries h'.cache ▸ List.mem_map_of_mem now))
  have length : h.cache.lru.length = h.cache.keys.length := (List.length_map _).symm
  generalize used h.cache op = us at uses how
  cases how with
  | missed absent eq =>
    rw [List.append_nil] at uses
    exact ⟨consistent,same.trans holds.capacity,by rw [uses, eq]; exact holds.recency,
      fun key value now => kept (eq ▸ now) now⟩
  | hit there keys entries =>
    refine ⟨consistent,same.trans holds.capacity,?_,fun key value now => kept (entries.mem_iff.mp now) now⟩
    rw [uses, keptHit (holds.recency ▸ there), keys, holds.recency]
  | @new key value absent entries =>
    refine ⟨consistent,same.trans holds.capacity,?_,fun k v now => ?_⟩
    · rw [uses, keptNew room (holds.recency ▸ absent), ← holds.recency, ← length, ← keysEntries h'.cache, entries,
        holds.capacity, List.map_cons]
      congr 1
      split
      · rw [List.map_dropLast, keysEntries]
      · exact keysEntries _
    · by_cases fresh : (k,v) = (key,value)
      · cases fresh
        refine ⟨ops,[],rfl,fun cached => absent ((cachedIff ran).mp cached),fun front part => ?_⟩
        rw [List.prefix_nil.mp part]
        exact (cachedIff ran').mpr (keysEntries h'.cache ▸ List.mem_map_of_mem now)
      · refine kept ?_ now
        rw [entries] at now
        have old := (List.mem_cons.mp now).resolve_left fresh
        split at old
        · exact List.mem_of_mem_dropLast old
        · exact old

theorem runHolds (room : 0 < cap) (ops : List (Op P)) : ∃ h, run cap ops = some h ∧ Holds cap ops h := by
  induction ops using List.reverseRecOn with
  | nil =>
    exact ⟨⟨.new cap,[]⟩,rfl,newConsistent cap,rfl,by simp [LRUCache.keys, LRUCache.new, recent],
      fun _ _ mem => absurd mem List.not_mem_nil⟩
  | append_singleton ops op ih =>
    obtain ⟨h,ran,holds⟩ := ih
    obtain ⟨c',step,consistent,same,how⟩ := stepped holds.consistent (by rw [holds.capacity]; exact room) op
    have ran' : run cap (ops ++ [op]) = some ⟨c',h.uses ++ used h.cache op⟩ := by
      rw [runSnoc, ran, Option.bind_some, History.step, step, Option.map_some]
    exact ⟨_,ran',holdsStep room holds ran ran' consistent same rfl how⟩

theorem exactLru (cap : ℕ) (room : 1 ≤ cap) (ops : List (Op P)) : ∃ h, run cap ops = some h ∧ Exact cap ops h := by
  obtain ⟨h,ran,holds⟩ := runHolds room ops
  have capacity := holds.capacity
  refine ⟨h,ran,holds.consistent,capacity ▸ holds.consistent.size,holds.recency,fun key there => ?_,fun key absent => ?_⟩
  · obtain ⟨node,mem,rfl,got,put⟩ := hit holds.consistent there
    exact ⟨node.value,holds.values _ _ (List.mem_map_of_mem mem),⟨_,got⟩,fun other =>
      ⟨_,put other,entriesSplice mem holds.consistent⟩⟩
  · refine ⟨missGet holds.consistent absent,fun value => ?_⟩
    obtain ⟨c',put,_,_,entries⟩ := missPut holds.consistent absent (by omega) value
    exact ⟨c',put,by rw [entries, capacity]⟩

theorem twoFiles : ∃ h, run 2 [.put 7 ⟨3,10⟩,.put 8 ⟨4,20⟩,.get 7,.put 9 ⟨5,30⟩] = some h ∧
    Exact 2 [.put 7 ⟨3,10⟩,.put 8 ⟨4,20⟩,.get 7,.put 9 ⟨5,30⟩] h :=
  exactLru 2 (by decide) _

end Runs

end Uco.LruCache
