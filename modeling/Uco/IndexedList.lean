import Mathlib.Data.Finset.Card
import Mathlib.Data.List.Nodup
import Mathlib.Logic.Function.Basic
import Mathlib.Logic.Relation

/-! Singly linked lists over an indexed store: `next` is the link of each cell and a list
is given by its head. The links may also run into a cycle; a walk stops at the first cell
that it has seen. -/
namespace Uco.IndexedList

variable {A : Type*}

/- From `head` the links go through the cells in order and end in none. -/
def Linked (next : A → Option A) : Option A → List A → Prop
  | head, [] => head = none
  | head, a :: rest => head = some a ∧ Linked next (next a) rest

variable {next next' : A → Option A} {head : Option A} {cells : List A}

theorem linkedNone (linked : Linked next none cells) : cells = [] := by
  cases cells with
  | nil => rfl
  | cons a rest => simp [Linked] at linked

theorem linkedSome {a : A} (linked : Linked next (some a) cells) :
    ∃ rest, cells = a :: rest ∧ Linked next (next a) rest := by
  cases cells with
  | nil => simp [Linked] at linked
  | cons b rest =>
    obtain ⟨same,linked⟩ := linked
    cases same
    exact ⟨rest,rfl,linked⟩

theorem linkedKept (linked : Linked next head cells) (same : ∀ a ∈ cells, next' a = next a) :
    Linked next' head cells := by
  induction cells generalizing head with
  | nil => exact linked
  | cons a rest ih =>
    refine ⟨linked.1,?_⟩
    rw [same a List.mem_cons_self]
    exact ih linked.2 (fun b mem => same b (List.mem_cons_of_mem a mem))

theorem linkedPush (linked : Linked next head cells) {a : A} (link : next a = head) :
    Linked next (some a) (a :: cells) := ⟨rfl,link ▸ linked⟩

theorem linkedUnique {other : List A} (one : Linked next head cells) (two : Linked next head other) : cells = other := by
  induction cells generalizing head other with
  | nil =>
    obtain rfl := one
    exact (linkedNone two).symm
  | cons a rest ih =>
    obtain ⟨rfl,ahead⟩ := one
    obtain ⟨tail,rfl,linked⟩ := linkedSome two
    rw [ih ahead linked]

theorem linkedSuffix {front : List A} (linked : Linked next head (front ++ cells)) : ∃ head', Linked next head' cells := by
  induction front generalizing head with
  | nil => exact ⟨head,linked⟩
  | cons a front ih => exact ih linked.2

theorem linkedNodup (linked : Linked next head cells) : cells.Nodup := by
  induction cells generalizing head with
  | nil => exact List.nodup_nil
  | cons a rest ih =>
    refine List.nodup_cons.mpr ⟨fun again => ?_,ih linked.2⟩
    obtain ⟨front,back,rfl⟩ := List.append_of_mem again
    obtain ⟨head',linked'⟩ := linkedSuffix linked.2
    rw [linked'.1, ← linked.1] at linked'
    have same := linkedUnique linked linked'
    have := congrArg List.length same
    simp only [List.length_cons, List.length_append] at this
    omega

/- From `head` the links go through the cells in order and then stand at `tail`. -/
def Leads (next : A → Option A) : Option A → List A → Option A → Prop
  | head, [], tail => head = tail
  | head, a :: rest, tail => head = some a ∧ Leads next (next a) rest tail

theorem linkedLeads : Linked next head cells ↔ Leads next head cells none := by
  induction cells generalizing head with
  | nil => exact Iff.rfl
  | cons a rest ih => exact and_congr_right fun _ => ih

def after (next : A → Option A) (head : Option A) : ℕ → Option A
  | 0 => head
  | n + 1 => (after next head n).bind next

theorem afterNext (next : A → Option A) (a : A) (n : ℕ) : after next (next a) n = after next (some a) (n + 1) := by
  induction n with
  | zero => rfl
  | succ n ih =>
    rw [after, ih]
    rfl

theorem leadsAfter {tail : Option A} (leads : Leads next head cells tail) {i : ℕ} (less : i < cells.length) :
    cells[i]? = after next head i := by
  induction cells generalizing head i with
  | nil => exact absurd less (Nat.not_lt_zero i)
  | cons a rest ih =>
    obtain ⟨rfl,ahead⟩ := leads
    cases i with
    | zero => rfl
    | succ i => rw [List.getElem?_cons_succ, ih ahead (Nat.lt_of_succ_lt_succ less), afterNext]

def Reaches (next : A → Option A) (head : Option A) (a : A) : Prop :=
  ∃ first, head = some first ∧ Relation.ReflTransGen (fun b c => next b = some c) first a

structure Walk (next : A → Option A) (head : Option A) (path : List A) (tail : Option A) : Prop where
  leads : Leads next head path tail
  once : path.Nodup
  stops : ∀ a, tail = some a → a ∈ path

theorem leadsReaches {tail : Option A} (leads : Leads next head cells tail) {a : A} (mem : a ∈ cells) :
    Reaches next head a := by
  induction cells generalizing head with
  | nil => cases mem
  | cons b rest ih =>
    obtain ⟨rfl,ahead⟩ := leads
    rcases List.mem_cons.mp mem with rfl | mem
    · exact ⟨a,rfl,.refl⟩
    · obtain ⟨c,link,path⟩ := ih ahead mem
      exact ⟨b,rfl,.head link path⟩

theorem leadsHead {tail : Option A} (leads : Leads next head cells tail) {a : A} (here : head = some a) :
    a ∈ cells ∨ tail = some a := by
  cases cells with
  | nil => exact .inr (leads ▸ here)
  | cons b rest => exact .inl (Option.some.inj (leads.1.symm.trans here) ▸ List.mem_cons_self)

theorem leadsNext {tail : Option A} (leads : Leads next head cells tail) {a b : A} (mem : a ∈ cells)
    (link : next a = some b) : b ∈ cells ∨ tail = some b := by
  induction cells generalizing head with
  | nil => cases mem
  | cons c rest ih =>
    rcases List.mem_cons.mp mem with rfl | mem
    · exact (leadsHead leads.2 link).imp_left (List.mem_cons_of_mem a)
    · exact (ih leads.2 mem).imp_left (List.mem_cons_of_mem c)

theorem walkReaches {path : List A} {tail : Option A} (walk : Walk next head path tail) (a : A) :
    a ∈ path ↔ Reaches next head a := by
  refine ⟨leadsReaches walk.leads,?_⟩
  rintro ⟨first,here,steps⟩
  induction steps with
  | refl => exact (leadsHead walk.leads here).elim id (walk.stops first)
  | tail _ link ih => exact (leadsNext walk.leads ih link).elim id (walk.stops _)

variable [DecidableEq A]

theorem visitedShrinks {S seen : Finset A} {a : A} (new : a ∉ seen) (inside : a ∈ S) :
    (S \ insert a seen).card < (S \ seen).card := by
  refine Finset.card_lt_card ((Finset.ssubset_iff_of_subset ?_).mpr ⟨a,?_,?_⟩)
  · exact Finset.sdiff_subset_sdiff (Finset.Subset.refl _) (Finset.subset_insert a seen)
  · exact Finset.mem_sdiff.mpr ⟨inside,new⟩
  · simp

theorem walkOn {S : Finset A} (closed : ∀ a ∈ S, ∀ b, next a = some b → b ∈ S) (start : ∀ a, head = some a → a ∈ S)
    (seen : Finset A) : ∃ path tail, Leads next head path tail ∧ path.Nodup ∧
      (∀ a ∈ path, a ∈ S ∧ a ∉ seen) ∧ ∀ a, tail = some a → a ∈ seen ∨ a ∈ path := by
  induction left : (S \ seen).card using Nat.strongRecOn generalizing head seen with
  | ind n ih =>
    cases head with
    | none => exact ⟨[],none,rfl,List.nodup_nil,nofun,nofun⟩
    | some a =>
      have inside := start a rfl
      by_cases old : a ∈ seen
      · exact ⟨[],some a,rfl,List.nodup_nil,nofun,fun b same => .inl (Option.some.inj same ▸ old)⟩
      · have fewer : (S \ insert a seen).card < n := left ▸ visitedShrinks old inside
        obtain ⟨path,tail,leads,once,within,stops⟩ := ih _ fewer (closed a inside) (insert a seen) rfl
        refine ⟨a :: path,tail,⟨rfl,leads⟩,List.nodup_cons.mpr ⟨fun again => ?_,once⟩,?_,fun b here => ?_⟩
        · exact (within a again).2 (Finset.mem_insert_self a seen)
        · refine List.forall_mem_cons.mpr ⟨⟨inside,old⟩,fun b mem => ⟨(within b mem).1,fun was => ?_⟩⟩
          exact (within b mem).2 (Finset.mem_insert_of_mem was)
        · rcases stops b here with was | mem
          · exact (Finset.mem_insert.mp was).elim (fun same => .inr (same ▸ List.mem_cons_self)) .inl
          · exact .inr (List.mem_cons_of_mem a mem)

theorem walkExists {S : Finset A} (closed : ∀ a ∈ S, ∀ b, next a = some b → b ∈ S)
    (start : ∀ a, head = some a → a ∈ S) : ∃ path tail, Walk next head path tail ∧ ∀ a ∈ path, a ∈ S := by
  obtain ⟨path,tail,leads,once,within,stops⟩ := walkOn closed start ∅
  exact ⟨path,tail,⟨leads,once,fun a here => (stops a here).resolve_left (Finset.notMem_empty a)⟩,
    fun a mem => (within a mem).1⟩

theorem linkedOther (linked : Linked next head cells) {a : A} (other : a ∉ cells) (link : Option A) :
    Linked (Function.update next a link) head cells :=
  linkedKept linked (fun b mem => Function.update_of_ne (by rintro rfl; exact other mem) ..)

theorem leadsOther {tail : Option A} (leads : Leads next head cells tail) {a : A} (other : a ∉ cells)
    (link : Option A) : Leads (Function.update next a link) head cells tail := by
  induction cells generalizing head with
  | nil => exact leads
  | cons b rest ih =>
    obtain ⟨here,elsewhere⟩ := not_or.mp (List.mem_cons.not.mp other)
    refine ⟨leads.1,?_⟩
    rw [Function.update_of_ne (Ne.symm here)]
    exact ih leads.2 elsewhere

theorem leadsTurn {a : A} {turned rest : List A} {back tail : Option A} (before : Linked next back turned)
    (ahead : Leads next (next a) rest tail) (apart : (turned ++ a :: rest).Nodup) :
    Linked (Function.update next a back) (some a) (a :: turned) ∧
    Leads (Function.update next a back) (next a) rest tail := by
  have split := List.nodup_middle.mp apart
  have other := (List.nodup_cons.mp split).1
  rw [List.mem_append, not_or] at other
  exact ⟨linkedPush (linkedOther before other.1 back) (Function.update_self ..),leadsOther ahead other.2 back⟩

theorem linkedTurn {a : A} {turned rest : List A} {back : Option A} (before : Linked next back turned)
    (ahead : Linked next (next a) rest) (apart : (turned ++ a :: rest).Nodup) :
    Linked (Function.update next a back) (some a) (a :: turned) ∧
    Linked (Function.update next a back) (next a) rest := by
  obtain ⟨behind,front⟩ := leadsTurn before (linkedLeads.mp ahead) apart
  exact ⟨behind,linkedLeads.mpr front⟩

end Uco.IndexedList
