import Mathlib.Data.List.Nodup
import Mathlib.Data.List.Perm.Basic
import Uco.IndexedList
import Uco.Interleaving

/-! The shared-memory log: any number of producers in ulog_push and one consumer. Every
access to the header and every write to a field of a node is a step of its own. -/
namespace Uco.ShmLog
open Interleaving IndexedList

def logNodeSize : ℕ := 2048
def logNodeDataMaxSize : ℕ := logNodeSize - 24
def shmLogDataSize : ℕ := 256 * 1024 * 1024
def logNodeCount : ℕ := shmLogDataSize / logNodeSize
def maxLogFileSize : ℕ := 5 * 1024 * 1024 * 1024

structure LogNode where
  next : Option ℕ
  logLen : ℕ
  timestamp : ℕ
  logData : List UInt8
  deriving Repr

/- The writes of ulog_push that are left, in order; `link` has read the top. -/
inductive Stage where
  | clear
  | stamp
  | length
  | copy
  | read
  | link (oldTop : Option ℕ)
  | swap (oldTop : Option ℕ)
  deriving DecidableEq, Repr

/- A ulog_push that has its node. The log has its line feed, and `index` is recorded. -/
structure Push where
  index : ℕ
  slot : ℕ
  timestamp : ℕ
  log : List UInt8
  stage : Stage
  deriving Repr

inductive Consumer where
  | idle
  | drained (head : Option ℕ)
  | reversing (visited : List ℕ) (prev curr : Option ℕ)
  | relinking (visited : List ℕ) (prev : Option ℕ) (curr : ℕ) (next : Option ℕ)
  | walking (visited : List ℕ) (curr : Option ℕ)
  | written (visited : List ℕ) (curr : ℕ)
  deriving DecidableEq, Repr

structure Record where
  index : ℕ
  timestamp : ℕ
  data : List UInt8
  deriving DecidableEq, Repr

def Record.content (r : Record) : ℕ × List UInt8 := (r.timestamp,r.data)

def Push.data (w : Push) : List UInt8 := w.log.take logNodeDataMaxSize

def Push.record (w : Push) : Record := ⟨w.index,w.timestamp,w.data⟩

/- `fp` tells whether the consumer has its log file open. From `allocs` on recorded: the
allocations, those that have been consumed, the pushes in the order of their CAS and how
many of them an exchange has taken; for the last exchange what it took, what has been
handed to its consume_and_write, and whether consume_logs refused it. -/
structure State (T : Type*) where
  currentIndex : ℕ
  top : Option ℕ
  nodes : ℕ → LogNode
  producers : T → Option Push
  consumer : Consumer
  fp : Bool
  totalWritten : ℕ
  allocs : ℕ
  consumed : ℕ → Bool
  pushes : List Record
  taken : ℕ
  batch : List Record
  handed : List (ℕ × List UInt8)
  refused : Bool

section Moves
variable {T : Type*} [DecidableEq T]

def written (w : Push) (node : LogNode) : Option (Stage × LogNode) :=
  match w.stage with
  | .clear => some (.stamp,{node with next := none})
  | .stamp => some (.length,{node with timestamp := w.timestamp})
  | .length => some (.copy,{node with logLen := w.data.length})
  | .copy => some (.read,{node with logData := w.data ++ node.logData.drop w.data.length})
  | .link oldTop => some (.swap oldTop,{node with next := oldTop})
  | _ => none

inductive Produce : State T → State T → Prop where
  | allocates {s} (t : T) (timestamp : ℕ) (log : List UInt8) (idle : s.producers t = none) (some : log ≠ []) :
      Produce s {s with
        currentIndex := (s.currentIndex + 1) % 2 ^ 64
        allocs := s.allocs + 1
        producers := Function.update s.producers t
          (Option.some ⟨s.allocs,s.currentIndex % logNodeCount,timestamp,log ++ [10],.clear⟩)}
  | writes {s w stage node} (t : T) (here : s.producers t = some w)
      (write : written w (s.nodes w.slot) = some (stage,node)) :
      Produce s {s with
        nodes := Function.update s.nodes w.slot node
        producers := Function.update s.producers t (some {w with stage := stage})}
  | reads {s w} (t : T) (here : s.producers t = some w) (reading : w.stage = .read) :
      Produce s {s with producers := Function.update s.producers t (some {w with stage := .link s.top})}
  | pushes {s w} (t : T) (here : s.producers t = some w) (swapping : w.stage = .swap s.top) :
      Produce s {s with
        top := some w.slot
        pushes := s.pushes ++ [w.record]
        producers := Function.update s.producers t none}
  | retries {s w oldTop} (t : T) (here : s.producers t = some w) (swapping : w.stage = .swap oldTop)
      (other : s.top ≠ oldTop) :
      Produce s {s with producers := Function.update s.producers t (some {w with stage := .read})}

/- consume_logs goes on to consume_and_write, and that has a file to write to. -/
def Accepts (s : State T) : Prop := s.totalWritten < maxLogFileSize ∧ s.fp = true

def consumeSlot (s : State T) (slot : ℕ) : ℕ → Bool :=
  fun i => s.consumed i || decide (i < s.allocs ∧ i % logNodeCount = slot)

inductive Consume : State T → State T → Prop where
  | nothing {s} (here : s.consumer = .drained none) : Consume s {s with consumer := .idle}
  | refuses {s head} (here : s.consumer = .drained (some head)) (refuse : ¬Accepts s) :
      Consume s {s with
        consumer := .idle
        refused := true
        consumed := fun i => s.consumed i || s.batch.any (fun r => r.index = i)}
  | begins {s head} (here : s.consumer = .drained (some head)) (accept : Accepts s) :
      Consume s {s with consumer := .reversing [] none (some head)}
  | visits {s visited prev curr} (here : s.consumer = .reversing visited prev (some curr)) (new : curr ∉ visited) :
      Consume s {s with consumer := .relinking (curr :: visited) prev curr (s.nodes curr).next}
  | loops {s visited prev curr} (here : s.consumer = .reversing visited prev (some curr)) (old : curr ∈ visited) :
      Consume s {s with consumer := .walking [] prev}
  | relinks {s visited prev curr next} (here : s.consumer = .relinking visited prev curr next) :
      Consume s {s with
        nodes := Function.update s.nodes curr {s.nodes curr with next := prev}
        consumer := .reversing visited (some curr) next}
  | reversed {s visited prev} (here : s.consumer = .reversing visited prev none) :
      Consume s {s with consumer := .walking [] prev}
  | hands {s visited curr count} (here : s.consumer = .walking visited (some curr)) (new : curr ∉ visited)
      (fits : count ≤ min (s.nodes curr).logLen logNodeDataMaxSize) :
      Consume s {s with
        consumer := .written (curr :: visited) curr
        totalWritten := s.totalWritten + count
        handed := s.handed ++
          [((s.nodes curr).timestamp,(s.nodes curr).logData.take (min (s.nodes curr).logLen logNodeDataMaxSize))]}
  | overloads {s visited curr} (here : s.consumer = .walking visited (some curr)) (old : curr ∈ visited) :
      Consume s {s with consumer := .idle}
  | advances {s visited curr} (here : s.consumer = .written visited curr) :
      Consume s {s with consumer := .walking visited (s.nodes curr).next, consumed := consumeSlot s curr}
  | finishes {s visited} (here : s.consumer = .walking visited none) : Consume s {s with consumer := .idle}

inductive Step : State T → State T → Prop where
  | produce {s t} (taken : Produce s t) : Step s t
  | consume {s t} (taken : Consume s t) : Step s t
  | exchange {s} (idle : s.consumer = .idle) : Step s
      {s with
        top := none
        consumer := .drained s.top
        batch := s.pushes.drop s.taken
        taken := s.pushes.length
        handed := []
        refused := false}
  | rotates {s} (idle : s.consumer = .idle) (fp : Bool) (totalWritten : ℕ) :
      Step s {s with fp := fp, totalWritten := totalWritten}

def start (T : Type*) : State T :=
  ⟨0,none,fun _ => ⟨some 0,0,0,List.replicate logNodeDataMaxSize 0⟩,fun _ => none,.idle,false,0,0,fun _ => false,[],0,[],[],false⟩

end Moves

section Invariant
variable {T : Type*} {s d : State T}

def slot (r : Record) : ℕ := r.index % logNodeCount

def links (s : State T) (a : ℕ) : Option ℕ := (s.nodes a).next

def waiting (s : State T) : List Record := s.pushes.drop s.taken

/- Fewer than LOG_NODE_COUNT allocations after one that has not been consumed. -/
def Spaced (s : State T) : Prop := ∀ i < s.allocs, s.consumed i = false → s.allocs ≤ i + logNodeCount

def Holds (node : LogNode) (r : Record) : Prop :=
  node.timestamp = r.timestamp ∧ node.logLen = r.data.length ∧ node.logData.take r.data.length = r.data ∧
    r.data.length ≤ logNodeDataMaxSize

def Prepared (w : Push) (node : LogNode) : Prop :=
  match w.stage with
  | .clear | .stamp => True
  | .length => node.timestamp = w.timestamp
  | .copy => node.timestamp = w.timestamp ∧ node.logLen = w.data.length
  | .read | .link _ => Holds node w.record
  | .swap oldTop => Holds node w.record ∧ node.next = oldTop

structure Producing (s : State T) : Prop where
  index : s.currentIndex = s.allocs % 2 ^ 64
  mine : ∀ t w, s.producers t = some w → w.index < s.allocs ∧ s.consumed w.index = false ∧
    w.slot = w.index % logNodeCount ∧ Prepared w (s.nodes w.slot)
  fresh : ∀ t w, s.producers t = some w → ∀ r ∈ s.pushes, r.index ≠ w.index
  apart : ∀ t u w v, s.producers t = some w → s.producers u = some v → w.index = v.index → t = u
  used : ∀ i, s.consumed i = true → i < s.allocs

structure Stacked (s : State T) : Prop where
  below : ∀ r ∈ s.pushes, r.index < s.allocs
  once : (s.pushes.map Record.index).Nodup
  bounded : s.taken ≤ s.pushes.length
  linked : Linked (links s) s.top ((waiting s).reverse.map slot)
  held : ∀ r ∈ waiting s, s.consumed r.index = false ∧ Holds (s.nodes (slot r)) r
  last : ∃ earlier, s.pushes.take s.taken = earlier ++ s.batch
  distinct : (s.batch.map slot).Nodup

def Kept (s : State T) (rest : List Record) : Prop :=
  ∀ r ∈ rest, s.consumed r.index = false ∧ Holds (s.nodes (slot r)) r

def Drains (s : State T) : Prop :=
  match s.consumer with
  | .idle => s.handed = if s.refused then [] else s.batch.map Record.content
  | .drained head =>
    Kept s s.batch ∧ Linked (links s) head (s.batch.reverse.map slot) ∧ s.handed = [] ∧ s.refused = false
  | .reversing visited prev curr =>
    Kept s s.batch ∧ s.handed = [] ∧ s.refused = false ∧ ∃ rest,
      s.batch.reverse.map slot = visited.reverse ++ rest ∧ Linked (links s) prev visited ∧ Linked (links s) curr rest
  | .relinking visited prev curr next =>
    Kept s s.batch ∧ s.handed = [] ∧ s.refused = false ∧ ∃ turned rest, visited = curr :: turned ∧
      s.batch.reverse.map slot = turned.reverse ++ curr :: rest ∧ Linked (links s) prev turned ∧
      Linked (links s) next rest ∧ links s curr = next
  | .walking visited curr => s.refused = false ∧ ∃ done rest, s.batch = done ++ rest ∧
      visited = (done.map slot).reverse ∧ Kept s rest ∧ Linked (links s) curr (rest.map slot) ∧
      s.handed = done.map Record.content
  | .written visited curr => s.refused = false ∧ ∃ done r rest, s.batch = done ++ r :: rest ∧
      visited = ((done ++ [r]).map slot).reverse ∧ Kept s (r :: rest) ∧
      Linked (links s) (some curr) ((r :: rest).map slot) ∧ s.handed = (done ++ [r]).map Record.content

structure Inv (s : State T) : Prop where
  spaced : Spaced s
  producing : Producing s
  stacked : Stacked s
  drains : Drains s

theorem startInv : Inv (start T) := by
  refine ⟨?_,?_,?_,rfl⟩
  · intro i below
    simp [start] at below
  · constructor <;> simp [start]
  · constructor <;> simp [start, waiting, Linked]

theorem slotApart (spaced : Spaced s) {i j : ℕ} (hi : i < s.allocs) (hj : j < s.allocs)
    (unread : s.consumed i = false) (unread' : s.consumed j = false) (other : i ≠ j) :
    i % logNodeCount ≠ j % logNodeCount := by
  intro same
  have left := spaced i hi unread
  have right := spaced j hj unread'
  rcases Nat.lt_or_gt_of_ne other with lower | higher
  · have zero := Nat.eq_zero_of_dvd_of_lt (Nat.dvd_of_mod_eq_zero (Nat.sub_mod_eq_zero_of_mod_eq same.symm))
      (show j - i < logNodeCount by omega)
    omega
  · have zero := Nat.eq_zero_of_dvd_of_lt (Nat.dvd_of_mod_eq_zero (Nat.sub_mod_eq_zero_of_mod_eq same))
      (show i - j < logNodeCount by omega)
    omega

theorem batchPushed (stacked : Stacked s) {r : Record} (mem : r ∈ s.batch) : r ∈ s.pushes := by
  obtain ⟨earlier,split⟩ := stacked.last
  exact List.mem_of_mem_take (split ▸ List.mem_append_right earlier mem)

theorem drainsKept (drains : Drains s) (consumer : d.consumer = s.consumer) (batch : d.batch = s.batch)
    (handed : d.handed = s.handed) (refused : d.refused = s.refused)
    (same : ∀ r ∈ s.batch, s.consumed r.index = false →
      d.consumed r.index = false ∧ d.nodes (slot r) = s.nodes (slot r)) : Drains d := by
  have kept : ∀ {rest}, (∀ r ∈ rest, r ∈ s.batch) → Kept s rest → Kept d rest := by
    intro rest inside kept r mem
    obtain ⟨unread,node⟩ := same r (inside r mem) (kept r mem).1
    exact ⟨unread,node ▸ (kept r mem).2⟩
  have linked : ∀ {rest : List Record} {head cells}, (∀ r ∈ rest, r ∈ s.batch) → Kept s rest →
      (∀ a ∈ cells, a ∈ rest.map slot) → Linked (links s) head cells → Linked (links d) head cells := by
    intro rest head cells inside kept cover linked
    refine linkedKept linked (fun a mem => ?_)
    obtain ⟨r,held,rfl⟩ := List.mem_map.mp (cover a mem)
    rw [links, links, (same r (inside r held) (kept r held).1).2]
  have all : ∀ {part cells : List ℕ}, s.batch.reverse.map slot = part ++ cells →
      (∀ a ∈ part, a ∈ s.batch.map slot) ∧ ∀ a ∈ cells, a ∈ s.batch.map slot := by
    intro part cells split
    have cover : ∀ a, a ∈ part ++ cells → a ∈ s.batch.map slot := by
      intro a mem
      rw [← split] at mem
      simpa using mem
    exact ⟨fun a mem => cover a (List.mem_append_left cells mem),fun a mem => cover a (List.mem_append_right part mem)⟩
  have whole : ∀ r ∈ s.batch, r ∈ s.batch := fun _ mem => mem
  unfold Drains at drains ⊢
  rw [consumer, batch, handed, refused]
  cases here : s.consumer with
  | idle => simpa only [here] using drains
  | drained head =>
    simp only [here] at drains ⊢
    obtain ⟨rest,chain,quiet⟩ := drains
    exact ⟨kept whole rest,linked whole rest (fun a mem => by simpa using mem) chain,quiet⟩
  | reversing visited prev curr =>
    simp only [here] at drains ⊢
    obtain ⟨rest,none,accepted,ahead,split,back,chain⟩ := drains
    obtain ⟨behind,before⟩ := all split
    exact ⟨kept whole rest,none,accepted,ahead,split,linked whole rest (fun a mem => behind a (by simpa using mem)) back,
      linked whole rest before chain⟩
  | relinking visited prev curr next =>
    simp only [here] at drains ⊢
    obtain ⟨rest,none,accepted,turned,ahead,seen,split,back,chain,link⟩ := drains
    obtain ⟨behind,before⟩ := all split
    refine ⟨kept whole rest,none,accepted,turned,ahead,seen,split,
      linked whole rest (fun a mem => behind a (by simpa using mem)) back,
      linked whole rest (fun a mem => before a (List.mem_cons_of_mem curr mem)) chain,?_⟩
    obtain ⟨r,held,slotted⟩ := List.mem_map.mp (before curr List.mem_cons_self)
    rw [← link, links, links, ← slotted, (same r held (rest r held).1).2]
  | walking visited curr =>
    simp only [here] at drains ⊢
    obtain ⟨accepted,done,rest,split,seen,live,chain,output⟩ := drains
    have inside : ∀ r ∈ rest, r ∈ s.batch := fun r mem => split ▸ List.mem_append_right done mem
    exact ⟨accepted,done,rest,split,seen,kept inside live,linked inside live (fun _ mem => mem) chain,output⟩
  | written visited curr =>
    simp only [here] at drains ⊢
    obtain ⟨accepted,done,r,rest,split,seen,live,chain,output⟩ := drains
    have inside : ∀ q ∈ r :: rest, q ∈ s.batch := fun q mem => split ▸ List.mem_append_right done mem
    exact ⟨accepted,done,r,rest,split,seen,kept inside live,linked inside live (fun _ mem => mem) chain,output⟩

theorem stackedKept (stacked : Stacked s) (top : d.top = s.top) (pushes : d.pushes = s.pushes)
    (taken : d.taken = s.taken) (batch : d.batch = s.batch) (allocs : s.allocs ≤ d.allocs)
    (same : ∀ r ∈ waiting s, d.consumed r.index = false ∧ d.nodes (slot r) = s.nodes (slot r)) : Stacked d := by
  have left : waiting d = waiting s := by rw [waiting, waiting, pushes, taken]
  refine ⟨?_,?_,?_,?_,?_,?_,?_⟩
  · rw [pushes]
    exact fun r mem => (stacked.below r mem).trans_le allocs
  · rw [pushes]
    exact stacked.once
  · rw [pushes, taken]
    exact stacked.bounded
  · rw [top, left]
    refine linkedKept stacked.linked (fun a mem => ?_)
    obtain ⟨r,held,rfl⟩ := List.mem_map.mp mem
    rw [links, links, (same r (List.mem_reverse.mp held)).2]
  · intro r mem
    rw [left] at mem
    exact ⟨(same r mem).1,(same r mem).2 ▸ (stacked.held r mem).2⟩
  · rw [pushes, taken, batch]
    exact stacked.last
  · rw [batch]
    exact stacked.distinct

theorem waitingPushed {r : Record} (mem : r ∈ waiting s) : r ∈ s.pushes := List.mem_of_mem_drop mem

theorem pushApart (inv : Inv s) {t : T} {w : Push} (here : s.producers t = some w) {r : Record}
    (pushed : r ∈ s.pushes) (unread : s.consumed r.index = false) : slot r ≠ w.slot := by
  obtain ⟨below,mine,own,_⟩ := inv.producing.mine t w here
  rw [own]
  exact slotApart inv.spaced (inv.stacked.below r pushed) below unread mine (inv.producing.fresh t w here r pushed)

variable [DecidableEq T]

theorem pushInv (inv : Inv s) {t : T} {w : Push} (here : s.producers t = some w) (node : LogNode) (stage : Stage)
    (prepared : Prepared {w with stage := stage} node) :
    Inv {s with
      nodes := Function.update s.nodes w.slot node
      producers := Function.update s.producers t (some {w with stage := stage})} := by
  have old := inv.producing.mine t w here
  have others : ∀ r ∈ s.pushes, s.consumed r.index = false →
      Function.update s.nodes w.slot node (slot r) = s.nodes (slot r) :=
    fun r pushed unread => Function.update_of_ne (pushApart inv here pushed unread) ..
  have producer : ∀ u v, Function.update s.producers t (some {w with stage := stage}) u = some v →
      u = t ∧ v = {w with stage := stage} ∨ u ≠ t ∧ s.producers u = some v := by
    intro u v found
    by_cases same : u = t
    · subst same
      exact .inl ⟨rfl,by simpa using found.symm⟩
    · exact .inr ⟨same,by simpa [same] using found⟩
  refine ⟨inv.spaced,⟨inv.producing.index,?_,?_,?_,inv.producing.used⟩,?_,?_⟩
  · intro u v found
    rcases producer u v found with ⟨rfl,rfl⟩ | ⟨other,found⟩
    · exact ⟨old.1,old.2.1,old.2.2.1,by simpa using prepared⟩
    · obtain ⟨below,mine,own,filled⟩ := inv.producing.mine u v found
      have away : v.slot ≠ w.slot := by
        rw [own, old.2.2.1]
        refine slotApart inv.spaced below old.1 mine old.2.1 (fun same => other ?_)
        exact inv.producing.apart u t v w found here same
      exact ⟨below,mine,own,by simpa [away] using filled⟩
  · intro u v found
    rcases producer u v found with ⟨rfl,rfl⟩ | ⟨_,found⟩
    · exact inv.producing.fresh u w here
    · exact inv.producing.fresh u v found
  · intro u u' v v' found found' same
    rcases producer u v found with ⟨rfl,rfl⟩ | ⟨_,first⟩ <;> rcases producer u' v' found' with ⟨rfl,rfl⟩ | ⟨_,second⟩
    · rfl
    · exact inv.producing.apart _ _ _ _ here second same
    · exact inv.producing.apart _ _ _ _ first here same
    · exact inv.producing.apart _ _ _ _ first second same
  · refine stackedKept inv.stacked rfl rfl rfl rfl le_rfl (fun r mem => ?_)
    have unread := (inv.stacked.held r mem).1
    exact ⟨unread,others r (waitingPushed mem) unread⟩
  · exact drainsKept inv.drains rfl rfl rfl rfl (fun r mem unread =>
      ⟨unread,others r (batchPushed inv.stacked mem) unread⟩)

omit [DecidableEq T] in
theorem writtenPrepared {w : Push} {node node' : LogNode} {stage : Stage} (prepared : Prepared w node)
    (write : written w node = some (stage,node')) : Prepared {w with stage := stage} node' := by
  have short : w.data.length ≤ logNodeDataMaxSize := by simp [Push.data]
  unfold written at write
  unfold Prepared at prepared
  cases here : w.stage with
  | clear =>
    simp only [here, Option.some.injEq, Prod.mk.injEq] at write
    obtain ⟨rfl,rfl⟩ := write
    trivial
  | stamp =>
    simp only [here, Option.some.injEq, Prod.mk.injEq] at write
    obtain ⟨rfl,rfl⟩ := write
    rfl
  | length =>
    simp only [here, Option.some.injEq, Prod.mk.injEq] at write prepared
    obtain ⟨rfl,rfl⟩ := write
    exact ⟨prepared,rfl⟩
  | copy =>
    simp only [here, Option.some.injEq, Prod.mk.injEq] at write prepared
    obtain ⟨rfl,rfl⟩ := write
    exact ⟨prepared.1,prepared.2,List.take_left' rfl,short⟩
  | link oldTop =>
    simp only [here, Option.some.injEq, Prod.mk.injEq] at write prepared
    obtain ⟨rfl,rfl⟩ := write
    exact ⟨prepared,rfl⟩
  | read => simp [here] at write
  | swap oldTop => simp [here] at write

theorem produceInv (inv : Inv s) (taken : Produce s d) (spaced : Spaced d) : Inv d := by
  cases taken with
  | allocates t timestamp log idle nonempty =>
    have unused : s.consumed s.allocs = false := by
      cases used : s.consumed s.allocs with
      | false => rfl
      | true => exact absurd (inv.producing.used _ used) (lt_irrefl _)
    have own : s.currentIndex % logNodeCount = s.allocs % logNodeCount := by
      rw [inv.producing.index]
      exact Nat.mod_mod_of_dvd _ (by decide)
    have producer : ∀ u w, Function.update s.producers t
        (some ⟨s.allocs,s.currentIndex % logNodeCount,timestamp,log ++ [10],.clear⟩) u = some w →
        u = t ∧ w = ⟨s.allocs,s.currentIndex % logNodeCount,timestamp,log ++ [10],.clear⟩ ∨ s.producers u = some w := by
      intro u w found
      by_cases same : u = t
      · subst same
        exact .inl ⟨rfl,by simpa using found.symm⟩
      · exact .inr (by simpa [same] using found)
    refine ⟨spaced,⟨?_,?_,?_,?_,?_⟩,?_,?_⟩
    · simp only [inv.producing.index, Nat.mod_add_mod]
    · intro u w found
      rcases producer u w found with ⟨rfl,rfl⟩ | found
      · exact ⟨Nat.lt_succ_self _,unused,own,trivial⟩
      · obtain ⟨below,rest⟩ := inv.producing.mine u w found
        exact ⟨Nat.lt_succ_of_lt below,rest⟩
    · intro u w found r mem
      rcases producer u w found with ⟨rfl,rfl⟩ | found
      · exact (inv.stacked.below r mem).ne
      · exact inv.producing.fresh u w found r mem
    · intro u v w w' found found' same
      rcases producer u w found with ⟨rfl,rfl⟩ | first <;> rcases producer v w' found' with ⟨rfl,rfl⟩ | second
      · rfl
      · exact absurd same (inv.producing.mine v w' second).1.ne'
      · exact absurd same (inv.producing.mine u w first).1.ne
      · exact inv.producing.apart u v w w' first second same
    · exact fun i used => Nat.lt_succ_of_lt (inv.producing.used i used)
    · exact stackedKept inv.stacked rfl rfl rfl rfl (Nat.le_succ _) (fun r mem => ⟨(inv.stacked.held r mem).1,rfl⟩)
    · exact drainsKept inv.drains rfl rfl rfl rfl (fun r _ unread => ⟨unread,rfl⟩)
  | @writes w stage node t here write =>
    exact pushInv inv here node stage (writtenPrepared (inv.producing.mine t w here).2.2.2 write)
  | @reads w t here reading =>
    have prepared := (inv.producing.mine t w here).2.2.2
    simp only [Prepared, reading] at prepared
    simpa using pushInv inv here (s.nodes w.slot) (.link s.top) prepared
  | @retries w oldTop t here swapping other =>
    have prepared := (inv.producing.mine t w here).2.2.2
    simp only [Prepared, swapping] at prepared
    simpa using pushInv inv here (s.nodes w.slot) .read prepared.1
  | @pushes w t here swapping =>
    obtain ⟨below,unread,own,prepared⟩ := inv.producing.mine t w here
    simp only [Prepared, swapping] at prepared
    obtain ⟨filled,link⟩ := prepared
    have slotted : slot w.record = w.slot := own.symm
    have producer : ∀ u v, Function.update s.producers t none u = some v → u ≠ t ∧ s.producers u = some v := by
      intro u v found
      by_cases same : u = t
      · subst same
        simp at found
      · exact ⟨same,by simpa [same] using found⟩
    have left : (s.pushes ++ [w.record]).drop s.taken = waiting s ++ [w.record] :=
      List.drop_append_of_le_length inv.stacked.bounded
    refine ⟨inv.spaced,⟨inv.producing.index,?_,?_,?_,inv.producing.used⟩,?_,?_⟩
    · exact fun u v found => inv.producing.mine u v (producer u v found).2
    · intro u v found r mem
      obtain ⟨other,found⟩ := producer u v found
      rcases List.mem_append.mp mem with mem | mem
      · exact inv.producing.fresh u v found r mem
      · rw [List.mem_singleton.mp mem]
        exact fun same => other (inv.producing.apart u t v w found here same.symm)
    · exact fun u u' v v' first second => inv.producing.apart u u' v v' (producer u v first).2 (producer u' v' second).2
    · refine ⟨?_,?_,?_,?_,?_,?_,inv.stacked.distinct⟩
      · intro r mem
        rcases List.mem_append.mp mem with mem | mem
        · exact inv.stacked.below r mem
        · rw [List.mem_singleton.mp mem]
          exact below
      · rw [List.map_append, List.nodup_append]
        refine ⟨inv.stacked.once,by simp,fun i mem j last => ?_⟩
        obtain ⟨r,pushed,rfl⟩ := List.mem_map.mp mem
        rw [List.mem_singleton.mp last]
        exact inv.producing.fresh t w here r pushed
      · simp only [List.length_append, List.length_singleton]
        exact inv.stacked.bounded.trans (Nat.le_succ _)
      · simp only [waiting, left, List.reverse_append, List.reverse_singleton, List.map_cons, List.singleton_append,
          slotted]
        exact linkedPush inv.stacked.linked link
      · intro r mem
        simp only [waiting, left] at mem
        rcases List.mem_append.mp mem with mem | mem
        · exact inv.stacked.held r mem
        · rw [List.mem_singleton.mp mem]
          exact ⟨unread,slotted.symm ▸ filled⟩
      · rw [List.take_append_of_le_length inv.stacked.bounded]
        exact inv.stacked.last
    · exact drainsKept inv.drains rfl rfl rfl rfl (fun r _ unread => ⟨unread,rfl⟩)

omit [DecidableEq T] in
theorem consumerInv (inv : Inv s) (consumer : Consumer) {handed : List (ℕ × List UInt8)} {total : ℕ} {fp : Bool}
    (drains : Drains {s with consumer := consumer, handed := handed, totalWritten := total, fp := fp}) :
    Inv {s with consumer := consumer, handed := handed, totalWritten := total, fp := fp} :=
  ⟨inv.spaced,⟨inv.producing.index,inv.producing.mine,inv.producing.fresh,inv.producing.apart,inv.producing.used⟩,
    stackedKept inv.stacked rfl rfl rfl rfl le_rfl (fun r mem => ⟨(inv.stacked.held r mem).1,rfl⟩),drains⟩

omit [DecidableEq T] in
theorem batchApart (stacked : Stacked s) {r q : Record} (waits : r ∈ waiting s) (taken : q ∈ s.batch) :
    r.index ≠ q.index := by
  obtain ⟨earlier,split⟩ := stacked.last
  have whole := stacked.once
  rw [← List.take_append_drop s.taken s.pushes, List.map_append] at whole
  have before : q.index ∈ (s.pushes.take s.taken).map Record.index :=
    List.mem_map_of_mem (split ▸ List.mem_append_right earlier taken)
  have after : r.index ∈ (s.pushes.drop s.taken).map Record.index := List.mem_map_of_mem waits
  intro same
  exact (List.nodup_append.mp whole).2.2 _ before _ after same.symm

omit [DecidableEq T] in
theorem waitingApart (inv : Inv s) {r q : Record} (waits : r ∈ waiting s) (taken : q ∈ s.batch)
    (unread : s.consumed q.index = false) : slot r ≠ slot q :=
  slotApart inv.spaced (inv.stacked.below r (waitingPushed waits)) (inv.stacked.below q (batchPushed inv.stacked taken))
    (inv.stacked.held r waits).1 unread (batchApart inv.stacked waits taken)

omit [DecidableEq T] in
theorem consumedInv (inv : Inv s) {consumed : ℕ → Bool} {consumer : Consumer} {refused : Bool}
    (grows : ∀ i, consumed i = false → s.consumed i = false)
    (pushing : ∀ t w, s.producers t = some w → consumed w.index = false)
    (stays : ∀ r ∈ waiting s, consumed r.index = false) (used : ∀ i, consumed i = true → i < s.allocs)
    (drains : Drains {s with consumer := consumer, consumed := consumed, refused := refused}) :
    Inv {s with consumer := consumer, consumed := consumed, refused := refused} := by
  refine ⟨fun i below unread => inv.spaced i below (grows i unread),⟨inv.producing.index,?_,inv.producing.fresh,
    inv.producing.apart,used⟩,?_,drains⟩
  · intro t w here
    obtain ⟨below,_,rest⟩ := inv.producing.mine t w here
    exact ⟨below,pushing t w here,rest⟩
  · exact stackedKept inv.stacked rfl rfl rfl rfl le_rfl (fun r mem => ⟨stays r mem,rfl⟩)

omit [DecidableEq T] in
theorem refusesInv (inv : Inv s) {head : ℕ} (here : s.consumer = .drained (some head)) :
    Inv {s with
      consumer := .idle
      refused := true
      consumed := fun i => s.consumed i || s.batch.any (fun r => r.index = i)} := by
  have drains := inv.drains
  simp only [Drains, here] at drains
  obtain ⟨_,_,none,_⟩ := drains
  have fresh : ∀ i, s.consumed i = false → (∀ r ∈ s.batch, r.index ≠ i) →
      (s.consumed i || s.batch.any (fun r => r.index = i)) = false := by
    intro i unread other
    simpa [unread] using other
  refine consumedInv inv ?_ ?_ ?_ ?_ (by simpa [Drains] using none)
  · intro i unread
    simp only [Bool.or_eq_false_iff] at unread
    exact unread.1
  · intro t w pushing
    exact fresh _ (inv.producing.mine t w pushing).2.1
      (fun r mem => inv.producing.fresh t w pushing r (batchPushed inv.stacked mem))
  · intro r mem
    exact fresh _ (inv.stacked.held r mem).1 (fun q taken => (batchApart inv.stacked mem taken).symm)
  · intro i used
    rcases Bool.or_eq_true_iff.mp used with used | used
    · exact inv.producing.used i used
    · obtain ⟨r,mem,same⟩ := List.any_eq_true.mp used
      simp only [decide_eq_true_eq] at same
      exact same ▸ inv.stacked.below r (batchPushed inv.stacked mem)

omit [DecidableEq T] in
theorem advancesInv (inv : Inv s) {visited : List ℕ} {curr : ℕ} (here : s.consumer = .written visited curr) :
    Inv {s with consumer := .walking visited (s.nodes curr).next, consumed := consumeSlot s curr} := by
  have drains := inv.drains
  simp only [Drains, here] at drains
  obtain ⟨accepted,done,r,rest,split,seen,live,chain,output⟩ := drains
  have own : curr = slot r := by simpa using chain.1
  have mem : r ∈ s.batch := split ▸ List.mem_append_right done List.mem_cons_self
  have unread := (live r List.mem_cons_self).1
  have other : ∀ i, s.consumed i = false → i % logNodeCount ≠ curr → consumeSlot s curr i = false := by
    intro i alive away
    simp [consumeSlot, alive, away]
  refine consumedInv inv ?_ ?_ ?_ ?_ ?_
  · intro i alive
    simp only [consumeSlot, Bool.or_eq_false_iff] at alive
    exact alive.1
  · intro t w pushing
    obtain ⟨below,mine,slotted,_⟩ := inv.producing.mine t w pushing
    refine other _ mine ?_
    rw [← slotted, own]
    exact (pushApart inv pushing (batchPushed inv.stacked mem) unread).symm
  · intro q waits
    refine other _ (inv.stacked.held q waits).1 ?_
    rw [own]
    exact waitingApart inv waits mem unread
  · intro i used
    simp only [consumeSlot, Bool.or_eq_true, decide_eq_true_eq] at used
    exact used.elim (inv.producing.used i) And.left
  · have apart := inv.stacked.distinct
    rw [split, List.map_append, List.map_cons] at apart
    have single := (List.nodup_cons.mp (List.nodup_append.mp apart).2.1).1
    refine ⟨accepted,done ++ [r],rest,by simp [split],seen,fun q mem => ?_,?_,output⟩
    rotate_left
    · rw [own]
      exact chain.2
    refine ⟨other _ (live q (List.mem_cons_of_mem r mem)).1 ?_,(live q (List.mem_cons_of_mem r mem)).2⟩
    rw [own]
    intro same
    exact single (same ▸ List.mem_map_of_mem mem)

omit [DecidableEq T] in
theorem turnedApart (stacked : Stacked s) {turned rest : List ℕ} {curr : ℕ}
    (split : s.batch.reverse.map slot = turned.reverse ++ curr :: rest) :
    curr ∉ turned ∧ (turned ++ curr :: rest).Nodup := by
  have apart : (s.batch.reverse.map slot).Nodup := by
    rw [List.map_reverse, List.nodup_reverse]
    exact stacked.distinct
  rw [split] at apart
  have apart : (turned ++ curr :: rest).Nodup :=
    ((List.reverse_perm turned).append_right (curr :: rest)).nodup_iff.mp apart
  have single := (List.nodup_cons.mp (List.nodup_middle.mp apart)).1
  rw [List.mem_append, not_or] at single
  exact ⟨single.1,apart⟩

omit [DecidableEq T] in
theorem walkedApart (stacked : Stacked s) {done rest : List Record} {r : Record}
    (split : s.batch = done ++ r :: rest) : slot r ∉ (done.map slot).reverse := by
  have apart := stacked.distinct
  rw [split, List.map_append, List.map_cons] at apart
  have single := (List.nodup_cons.mp (List.nodup_middle.mp apart)).1
  rw [List.mem_append, not_or] at single
  simpa using single.1

omit [DecidableEq T] in
theorem walkingHead {rest : List Record} {curr : ℕ} (chain : Linked (links s) (some curr) (rest.map slot)) :
    ∃ r rest', rest = r :: rest' ∧ curr = slot r := by
  cases rest with
  | nil => simp [Linked] at chain
  | cons r rest' => exact ⟨r,rest',rfl,by simpa using chain.1⟩

omit [DecidableEq T] in
theorem relinksInv (inv : Inv s) {visited : List ℕ} {prev next : Option ℕ} {curr : ℕ}
    (here : s.consumer = .relinking visited prev curr next) :
    Inv {s with
      nodes := Function.update s.nodes curr {s.nodes curr with next := prev}
      consumer := .reversing visited (some curr) next} := by
  have drains := inv.drains
  simp only [Drains, here] at drains
  obtain ⟨live,none,accepted,turned,rest,rfl,split,back,chain,link⟩ := drains
  have turned' := turnedApart inv.stacked split
  obtain ⟨r,mem,own⟩ : ∃ r ∈ s.batch, slot r = curr := by
    have held : curr ∈ s.batch.reverse.map slot := by rw [split]; simp
    obtain ⟨r,mem,own⟩ := List.mem_map.mp held
    exact ⟨r,List.mem_reverse.mp mem,own⟩
  have unread := (live r mem).1
  have nodes : ∀ a, a ≠ curr → Function.update s.nodes curr {s.nodes curr with next := prev} a = s.nodes a :=
    fun a other => Function.update_of_ne other ..
  have relinked : ∀ t : State T, t.nodes = Function.update s.nodes curr {s.nodes curr with next := prev} →
      links t = Function.update (links s) curr prev := by
    intro t same
    funext a
    by_cases at' : a = curr
    · subst at'
      simp [links, same]
    · simp [links, same, at']
  have turns := linkedTurn back (link.symm ▸ chain) turned'.2
  refine ⟨inv.spaced,⟨inv.producing.index,?_,inv.producing.fresh,inv.producing.apart,inv.producing.used⟩,?_,?_⟩
  · intro t w pushing
    obtain ⟨below,mine,slotted,prepared⟩ := inv.producing.mine t w pushing
    have away : w.slot ≠ curr := fun same =>
      pushApart inv pushing (batchPushed inv.stacked mem) unread (own.trans same.symm)
    exact ⟨below,mine,slotted,by simpa only [Function.update_of_ne away] using prepared⟩
  · refine stackedKept inv.stacked rfl rfl rfl rfl le_rfl (fun q waits => ⟨(inv.stacked.held q waits).1,?_⟩)
    exact nodes _ (own ▸ waitingApart inv waits mem unread)
  · refine ⟨fun q held => ⟨(live q held).1,?_⟩,none,accepted,rest,by simpa using split,?_,?_⟩
    · by_cases same : slot q = curr
      · simp only [same, Function.update_self]
        have filled := (live q held).2
        rw [same] at filled
        exact filled
      · simpa only [Function.update_of_ne same] using (live q held).2
    · rw [relinked _ rfl]
      exact turns.1
    · rw [relinked _ rfl, ← link]
      exact turns.2

omit [DecidableEq T] in
theorem consumeInv (inv : Inv s) (taken : Consume s d) : Inv d := by
  have drains := inv.drains
  cases taken with
  | nothing here =>
    simp only [Drains, here] at drains
    obtain ⟨_,linked,none,accepted⟩ := drains
    have empty : s.batch = [] := by simpa using linkedNone linked
    refine consumerInv inv .idle ?_
    simp [Drains, none, accepted, empty]
  | refuses here refuse => exact refusesInv inv here
  | begins here accept =>
    simp only [Drains, here] at drains
    obtain ⟨live,chain,none,accepted⟩ := drains
    exact consumerInv inv _ ⟨live,none,accepted,_,rfl,rfl,chain⟩
  | @visits visited prev curr here new =>
    simp only [Drains, here] at drains
    obtain ⟨live,none,accepted,ahead,split,back,chain⟩ := drains
    obtain ⟨rest,rfl,further⟩ := linkedSome chain
    exact consumerInv inv _ ⟨live,none,accepted,visited,rest,rfl,split,back,further,rfl⟩
  | @loops visited prev curr here old =>
    simp only [Drains, here] at drains
    obtain ⟨_,_,_,ahead,split,_,chain⟩ := drains
    obtain ⟨rest,rfl,_⟩ := linkedSome chain
    exact absurd old (turnedApart inv.stacked split).1
  | relinks here => exact relinksInv inv here
  | @reversed visited prev here =>
    simp only [Drains, here] at drains
    obtain ⟨live,none,accepted,ahead,split,back,chain⟩ := drains
    rw [linkedNone chain, List.append_nil, List.map_reverse, List.reverse_inj] at split
    exact consumerInv inv _ ⟨accepted,[],s.batch,rfl,rfl,live,split ▸ back,none⟩
  | @hands visited curr count here new fits =>
    simp only [Drains, here] at drains
    obtain ⟨accepted,done,rest,split,seen,live,chain,output⟩ := drains
    obtain ⟨r,rest,rfl,rfl⟩ := walkingHead chain
    obtain ⟨stamp,length,data,short⟩ := (live r List.mem_cons_self).2
    refine consumerInv inv _ ⟨accepted,done,r,rest,split,by simp [seen],live,chain,?_⟩
    simp only [output, stamp, length, Nat.min_eq_left short, data, List.map_append, List.map_cons, List.map_nil,
      Record.content]
  | @overloads visited curr here old =>
    simp only [Drains, here] at drains
    obtain ⟨_,done,rest,split,seen,_,chain,_⟩ := drains
    obtain ⟨r,rest,rfl,rfl⟩ := walkingHead chain
    exact absurd (seen ▸ old) (walkedApart inv.stacked split)
  | advances here => exact advancesInv inv here
  | @finishes visited here =>
    simp only [Drains, here] at drains
    obtain ⟨accepted,done,rest,split,seen,live,chain,output⟩ := drains
    have all : rest = [] := by simpa using linkedNone chain
    refine consumerInv inv .idle ?_
    simp [Drains, accepted, split, all, output]

omit [DecidableEq T] in
theorem exchangeInv (inv : Inv s) :
    Inv {s with
      top := none
      consumer := .drained s.top
      batch := s.pushes.drop s.taken
      taken := s.pushes.length
      handed := []
      refused := false} := by
  have waits := inv.stacked.held
  have whole : s.pushes.take s.taken ++ waiting s = s.pushes := List.take_append_drop ..
  refine ⟨inv.spaced,⟨inv.producing.index,inv.producing.mine,inv.producing.fresh,inv.producing.apart,
    inv.producing.used⟩,⟨inv.stacked.below,inv.stacked.once,le_rfl,?_,?_,?_,?_⟩,waits,inv.stacked.linked,rfl,rfl⟩
  · simp [waiting, Linked]
  · simp [waiting]
  · exact ⟨s.pushes.take s.taken,by rw [List.take_length]; exact whole.symm⟩
  · have once : ((waiting s).map Record.index).Nodup :=
      inv.stacked.once.sublist ((List.drop_sublist s.taken s.pushes).map Record.index)
    refine (once.of_map _).map_on (fun r held q held' same => ?_)
    by_contra other
    refine slotApart inv.spaced (inv.stacked.below r (waitingPushed held)) (inv.stacked.below q (waitingPushed held'))
      (waits r held).1 (waits q held').1 (fun index => other ?_) same
    exact List.inj_on_of_nodup_map once held held' index

theorem stepInv (inv : Inv s) (taken : Step s d) (spaced : Spaced d) : Inv d := by
  cases taken with
  | produce taken => exact produceInv inv taken spaced
  | consume taken => exact consumeInv inv taken
  | exchange idle => exact exchangeInv inv
  | rotates idle fp totalWritten =>
    have drains := inv.drains
    simp only [Drains, idle] at drains
    exact consumerInv inv s.consumer (by simpa [Drains, idle] using drains)

def rank (s : State T) : ℕ :=
  match s.consumer with
  | .idle => 0
  | .drained _ => 4 * s.batch.length + 5
  | .reversing visited _ _ => 2 * (s.batch.length - visited.length) + 2 * s.batch.length + 3
  | .relinking visited _ _ _ => 2 * (s.batch.length - visited.length) + 2 * s.batch.length + 4
  | .walking visited _ => 2 * (s.batch.length - visited.length) + 1
  | .written visited _ => 2 * (s.batch.length - visited.length) + 2

omit [DecidableEq T] in
theorem consumeRank (inv : Inv s) (taken : Consume s d) : rank d < rank s := by
  have drains := inv.drains
  cases taken with
  | nothing here => simp [rank, here]
  | refuses here refuse => simp [rank, here]
  | begins here accept => simp only [rank, here, List.length_nil]; omega
  | visits here new =>
    simp only [Drains, here] at drains
    obtain ⟨_,_,_,ahead,split,_,chain⟩ := drains
    obtain ⟨rest,rfl,_⟩ := linkedSome chain
    have count := congrArg List.length split
    simp only [List.length_map, List.length_reverse, List.length_append, List.length_cons] at count
    simp only [rank, here, List.length_cons]
    omega
  | loops here old => simp only [rank, here, List.length_nil]; omega
  | relinks here => simp only [rank, here]; omega
  | reversed here => simp only [rank, here, List.length_nil]; omega
  | hands here new fits =>
    simp only [Drains, here] at drains
    obtain ⟨_,done,rest,split,seen,_,chain,_⟩ := drains
    obtain ⟨r,rest,rfl,_⟩ := walkingHead chain
    have count := congrArg List.length split
    have walked := congrArg List.length seen
    simp only [List.length_map, List.length_reverse, List.length_append, List.length_cons] at count walked
    simp only [rank, here, List.length_cons]
    omega
  | overloads here old => simp only [rank, here]; omega
  | advances here => simp only [rank, here]; omega
  | finishes here => simp only [rank, here]; omega

omit [DecidableEq T] in
theorem consumeGoes (busy : s.consumer ≠ .idle) : ∃ d, Consume s d := by
  cases here : s.consumer with
  | idle => exact absurd here busy
  | drained head =>
    cases head with
    | none => exact ⟨_,.nothing here⟩
    | some head =>
      by_cases accept : Accepts s
      · exact ⟨_,.begins here accept⟩
      · exact ⟨_,.refuses here accept⟩
  | reversing visited prev curr =>
    cases curr with
    | none => exact ⟨_,.reversed here⟩
    | some curr =>
      by_cases old : curr ∈ visited
      · exact ⟨_,.loops here old⟩
      · exact ⟨_,.visits here old⟩
  | relinking visited prev curr next => exact ⟨_,.relinks here⟩
  | walking visited curr =>
    cases curr with
    | none => exact ⟨_,.finishes here⟩
    | some curr =>
      by_cases old : curr ∈ visited
      · exact ⟨_,.overloads here old⟩
      · exact ⟨_,.hands here old (Nat.zero_le _)⟩
  | written visited curr => exact ⟨_,.advances here⟩

/- Each push is one record; a drain takes the pushes since the drain before; it hands them
over in their order and, unless consume_logs refuses it, to the last; and it comes to its
end. -/
structure Delivers (s : State T) : Prop where
  once : (s.pushes.map Record.index).Nodup
  last : ∃ earlier, s.pushes.take s.taken = earlier ++ s.batch
  order : s.handed <+: s.batch.map Record.content
  complete : s.consumer = .idle → s.refused = false → s.handed = s.batch.map Record.content
  goes : s.consumer ≠ .idle → ∃ d, Consume s d
  ends : ∀ d, Consume s d → rank d < rank s

omit [DecidableEq T] in
theorem invDelivers (inv : Inv s) : Delivers s := by
  have drains := inv.drains
  refine ⟨inv.stacked.once,inv.stacked.last,?_,fun idle accepted => ?_,consumeGoes,fun d => consumeRank inv⟩
  · unfold Drains at drains
    split at drains
    · rw [drains]
      split
      · exact List.nil_prefix
      · exact List.prefix_rfl
    · rw [drains.2.2.1]
      exact List.nil_prefix
    · rw [drains.2.1]
      exact List.nil_prefix
    · rw [drains.2.1]
      exact List.nil_prefix
    · obtain ⟨_,done,rest,split,_,_,_,output⟩ := drains
      rw [output, split, List.map_append]
      exact List.prefix_append ..
    · obtain ⟨_,done,r,rest,split,_,_,_,output⟩ := drains
      have part : done ++ [r] <+: done ++ r :: rest := ⟨rest,by simp⟩
      rw [output, split]
      exact part.map _
  · simpa [Drains, idle, accepted] using drains

theorem drainFinishes (inv : Inv s) (accepted : s.refused = false) (begun : ∀ head, s.consumer ≠ .drained head) :
    ∃ d, Reachable (fun s d => Step s d ∧ Spaced d) s d ∧ d.consumer = .idle ∧ d.refused = false ∧
      d.batch = s.batch := by
  induction left : rank s using Nat.strongRecOn generalizing s with
  | _ n ih =>
    by_cases idle : s.consumer = .idle
    · exact ⟨s,.refl,idle,accepted,rfl⟩
    · obtain ⟨d,taken⟩ := consumeGoes idle
      have inv' := consumeInv inv taken
      have same : d.refused = false ∧ d.batch = s.batch ∧ ∀ head, d.consumer ≠ .drained head := by
        cases taken with
        | nothing here => exact absurd here (begun none)
        | refuses here _ => exact absurd here (begun _)
        | begins here _ => exact absurd here (begun _)
        | visits | loops | relinks | reversed | hands | overloads | advances | finishes =>
          exact ⟨accepted,rfl,by simp⟩
      obtain ⟨e,further,ended,kept,batch⟩ := ih (rank d) (left ▸ consumeRank inv taken) inv' same.1 same.2.2 rfl
      exact ⟨e,.head ⟨.consume taken,inv'.spaced⟩ further,ended,kept,batch.trans same.2.1⟩

omit [DecidableEq T] in
theorem fewSpaced (few : s.allocs ≤ logNodeCount) : Spaced s := by
  intro i below _
  omega

end Invariant

section Runs
variable {T : Type*} [DecidableEq T]

def putNode (s : State T) (t : T) (w : Push) (node : LogNode) (stage : Stage) : State T :=
  {s with
    nodes := Function.update s.nodes w.slot node
    producers := Function.update s.producers t (some {w with stage := stage})}

structure Untouched (s d : State T) : Prop where
  consumer : d.consumer = s.consumer
  file : d.fp = s.fp ∧ d.totalWritten = s.totalWritten
  allocs : d.allocs = s.allocs
  taken : d.taken = s.taken

theorem pushGoes {s : State T} {t : T} {w : Push} (here : s.producers t = some w) (begins : w.stage = .clear)
    (few : s.allocs ≤ logNodeCount) : ∃ d, Reachable (fun s d => Step s d ∧ Spaced d) s d ∧ Untouched s d ∧
      d.top = some w.slot ∧ d.pushes = s.pushes ++ [w.record] ∧ d.producers = Function.update s.producers t none := by
  let s1 := putNode s t w {s.nodes w.slot with next := none} .stamp
  let s2 := putNode s1 t w {s1.nodes w.slot with timestamp := w.timestamp} .length
  let s3 := putNode s2 t w {s2.nodes w.slot with logLen := w.data.length} .copy
  let s4 := putNode s3 t w {s3.nodes w.slot with logData := w.data ++ (s3.nodes w.slot).logData.drop w.data.length} .read
  let s5 : State T := {s4 with producers := Function.update s4.producers t (some {w with stage := .link s4.top})}
  let s6 := putNode s5 t w {s5.nodes w.slot with next := s4.top} (.swap s4.top)
  have clears : Step s s1 := .produce (.writes t here (by simp [written, begins]))
  have stamps : Step s1 s2 := .produce (.writes (w := {w with stage := .stamp}) t (by simp [s1, putNode]) rfl)
  have lengths : Step s2 s3 := .produce (.writes (w := {w with stage := .length}) t (by simp [s2, putNode]) rfl)
  have copies : Step s3 s4 := .produce (.writes (w := {w with stage := .copy}) t (by simp [s3, putNode]) rfl)
  have reads : Step s4 s5 := .produce (.reads (w := {w with stage := .read}) t (by simp [s4, putNode]) rfl)
  have links : Step s5 s6 := .produce (.writes (w := {w with stage := .link s4.top}) t (by simp [s5]) rfl)
  have pushes : Step s6 {s6 with
      top := some w.slot
      pushes := s6.pushes ++ [w.record]
      producers := Function.update s6.producers t none} :=
    .produce (.pushes (w := {w with stage := .swap s4.top}) t (by simp [s6, putNode]) rfl)
  have spaced : ∀ d : State T, d.allocs = s.allocs → Spaced d := fun d same => fewSpaced (same ▸ few)
  have run : Reachable (fun s d => Step s d ∧ Spaced d) s _ := ((((((Relation.ReflTransGen.single ⟨clears,spaced _ rfl⟩).tail ⟨stamps,spaced _ rfl⟩).tail
    ⟨lengths,spaced _ rfl⟩).tail ⟨copies,spaced _ rfl⟩).tail ⟨reads,spaced _ rfl⟩).tail ⟨links,spaced _ rfl⟩).tail
    ⟨pushes,spaced _ rfl⟩
  exact ⟨_,run,⟨rfl,⟨rfl,rfl⟩,rfl,rfl⟩,rfl,rfl,by simp [s6, s5, s4, s3, s2, s1, putNode]⟩

theorem twoPushed (total : ℕ) : ∃ s : State Bool, Reachable (fun s d => Step s d ∧ Spaced d) (start Bool) s ∧
    s.consumer = .idle ∧ (s.fp = true ∧ s.totalWritten = total) ∧ s.allocs = 2 ∧ s.top = some 0 ∧ s.taken = 0 ∧
    s.pushes = [⟨1,8,[66,10]⟩,⟨0,7,[65,10]⟩] := by
  let first : Push := ⟨0,0,7,[65] ++ [10],.clear⟩
  let second : Push := ⟨1,1,8,[66] ++ [10],.clear⟩
  let opened : State Bool := {start Bool with fp := true, totalWritten := total}
  let one : State Bool := {opened with
    currentIndex := 1
    allocs := 1
    producers := Function.update opened.producers true (some first)}
  let both : State Bool := {one with
    currentIndex := 2
    allocs := 2
    producers := Function.update one.producers false (some second)}
  have rotates : Step (start Bool) opened := .rotates rfl true total
  have allocates : Step opened one := .produce (.allocates true 7 [65] rfl (by simp))
  have again : Step one both := .produce (.allocates false 8 [66] rfl (by simp))
  have room : 2 ≤ logNodeCount := by decide
  have begun : Reachable (fun s d => Step s d ∧ Spaced d) (start Bool) both :=
    ((Relation.ReflTransGen.single ⟨rotates,fewSpaced (Nat.zero_le _)⟩).tail
    ⟨allocates,fewSpaced (Nat.le_of_lt room)⟩).tail ⟨again,fewSpaced room⟩
  obtain ⟨a,toA,keptA,-,pushedA,producers⟩ := pushGoes (s := both) (t := false) rfl rfl room
  obtain ⟨b,toB,keptB,top,pushedB,-⟩ := pushGoes (s := a) (t := true) (w := first) (by rw [producers]; rfl) rfl
    (by rw [keptA.allocs]; exact room)
  refine ⟨b,(begun.trans toA).trans toB,by rw [keptB.consumer, keptA.consumer]; rfl,
    ⟨by rw [keptB.file.1, keptA.file.1],by rw [keptB.file.2, keptA.file.2]⟩,by rw [keptB.allocs, keptA.allocs],top,
    by rw [keptB.taken, keptA.taken]; rfl,?_⟩
  rw [pushedB, pushedA]
  rfl

end Runs
end Uco.ShmLog
