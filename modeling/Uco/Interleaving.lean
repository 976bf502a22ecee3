import Mathlib.Algebra.BigOperators.Group.Finset.Piecewise
import Mathlib.Algebra.GroupWithZero.Nat
import Mathlib.Algebra.Order.BigOperators.Group.Finset
import Mathlib.Data.Fintype.BigOperators
import Mathlib.Logic.Relation

/-! Sequentially consistent interleaving of any number of threads over one shared
state. A move is one atomic step of one thread; nothing else changes. Counting
arguments are sums over the threads, so one step changes one summand. -/
namespace Uco.Interleaving

instance twoThreads : NeZero 2 := ⟨two_ne_zero⟩

structure Config (G L T : Type*) where
  shared : G
  locals : T → L

structure System (G L : Type*) where
  solo : G → G → Prop
  move : G → L → G → L → Prop

section Runs
variable {G L T : Type*} [DecidableEq T]

def Config.set (c : Config G L T) (t : T) (g : G) (l : L) : Config G L T :=
  ⟨g, Function.update c.locals t l⟩

@[simp] theorem setShared (c : Config G L T) (t : T) (g : G) (l : L) : (c.set t g l).shared = g := rfl

@[simp] theorem setSelf (c : Config G L T) (t : T) (g : G) (l : L) : (c.set t g l).locals t = l := by
  simp [Config.set]

theorem setOther (c : Config G L T) {t u : T} (g : G) (l : L) (other : u ≠ t) :
    (c.set t g l).locals u = c.locals u := by
  simp [Config.set, other]

inductive Step (sys : System G L) : Config G L T → Config G L T → Prop where
  | solo {c g} (taken : sys.solo c.shared g) : Step sys c ⟨g, c.locals⟩
  | move {c} (t : T) {g l} (taken : sys.move c.shared (c.locals t) g l) : Step sys c (c.set t g l)

/- A run takes steps that may be further restricted, so the relation is a parameter. -/
abbrev Reachable {S : Type*} (step : S → S → Prop) (start : S) : S → Prop :=
  Relation.ReflTransGen step start

theorem reachableInvariant {S : Type*} {step : S → S → Prop} {start c : S} (I : S → Prop)
    (base : I start) (keep : ∀ c d, I c → step c d → I d) (run : Reachable step start c) : I c := by
  induction run with
  | refl => exact base
  | tail _ taken ih => exact keep _ _ ih taken

theorem soloReachable {sys : System G L} {c : Config G L T} {g : G}
    (moves : Relation.ReflTransGen sys.solo c.shared g) : Reachable (Step sys) c ⟨g,c.locals⟩ := by
  induction moves with
  | refl => exact .refl
  | tail _ taken ih => exact ih.tail (.solo taken)

inductive Moves (sys : System G L) (g : G) (l : L) : G → L → Prop where
  | refl : Moves sys g l g l
  | tail {g' l' g'' l''} (before : Moves sys g l g' l') (taken : sys.move g' l' g'' l'') : Moves sys g l g'' l''

theorem movesReachable {sys : System G L} {c : Config G L T} {t : T} {g : G} {l : L}
    (moves : Moves sys c.shared (c.locals t) g l) : Reachable (Step sys) c (c.set t g l) := by
  induction moves with
  | refl => rw [Config.set, Function.update_eq_self]
  | @tail g l g' l' _ taken ih =>
    rw [← setSelf c t g l] at taken
    have next := ih.tail (.move t taken)
    rwa [Config.set, Config.set, Function.update_idem] at next

theorem runThrough {S : Type*} {step : S → S → Prop} {a b c : S} (first : Reachable step a b)
    (second : Reachable step b c) : ∃ run, List.IsChain step (a :: run) ∧ b ∈ a :: run ∧ c ∈ a :: run := by
  induction first using Relation.ReflTransGen.head_induction_on with
  | refl =>
    obtain ⟨run,chain,last⟩ := List.exists_isChain_cons_of_relationReflTransGen second
    exact ⟨run,chain,List.mem_cons_self,last ▸ List.getLast_mem _⟩
  | @head d e taken _ ih =>
    obtain ⟨run,chain,through,ends⟩ := ih
    exact ⟨e :: run,.cons_cons taken chain,.tail _ through,.tail _ ends⟩

theorem runGoodIff {S : Type*} {step fair : S → S → Prop} {start : S} (good : S → Prop)
    (keep : ∀ c d, Reachable step start c → good c → step c d → (good d ↔ fair c d)) {c : S} {run : List S}
    (reached : Reachable step start c) (here : good c) (chain : List.IsChain step (c :: run)) :
    (∀ d ∈ run, good d) ↔ List.IsChain fair (c :: run) := by
  induction run generalizing c with
  | nil => simp
  | cons d rest ih =>
    obtain ⟨taken,chain⟩ := List.isChain_cons_cons.mp chain
    have kept := keep c d reached here taken
    rw [List.forall_mem_cons, List.isChain_cons_cons, kept]
    refine and_congr_right (fun fairly => ih (reached.tail taken) (kept.mpr fairly) chain)

end Runs

section Totals
variable {G L T : Type*} [Fintype T]

def Config.total (c : Config G L T) (f : L → ℕ) : ℕ := ∑ t, f (c.locals t)

theorem leTotal (c : Config G L T) (f : L → ℕ) (t : T) : f (c.locals t) ≤ c.total f :=
  Finset.single_le_sum (f := fun t => f (c.locals t)) (fun _ _ => Nat.zero_le _) (Finset.mem_univ t)

theorem totalSet [DecidableEq T] (c : Config G L T) (f : L → ℕ) (t : T) (g : G) (l : L) :
    (c.set t g l).total f + f (c.locals t) = c.total f + f l := by
  have same : ∀ u ∈ Finset.univ.erase t, f ((c.set t g l).locals u) = f (c.locals u) := by
    intro u mem
    rw [setOther c g l (Finset.ne_of_mem_erase mem)]
  have old := Finset.add_sum_erase Finset.univ (fun u => f (c.locals u)) (Finset.mem_univ t)
  have new := Finset.add_sum_erase Finset.univ (fun u => f ((c.set t g l).locals u)) (Finset.mem_univ t)
  rw [Finset.sum_congr rfl same] at new
  simp only [setSelf] at new
  simp only [Config.total]
  omega

theorem totalConst (c : Config G L T) (f : L → ℕ) {l} (all : ∀ t, c.locals t = l) (zero : f l = 0) :
    c.total f = 0 := by
  simp [Config.total, all, zero]

theorem existsOfTotal {c : Config G L T} {f : L → ℕ} (pos : 0 < c.total f) : ∃ t, 0 < f (c.locals t) := by
  by_contra none
  push Not at none
  have zero : c.total f = 0 := Finset.sum_eq_zero (fun t _ => Nat.le_zero.mp (none t))
  omega

theorem totalZeroOf {c : Config G L T} {f g : L → ℕ} (covers : ∀ l, g l = 0 → f l = 0)
    (zero : c.total g = 0) : c.total f = 0 := by
  apply Finset.sum_eq_zero
  intro t _
  have small := leTotal c g t
  exact covers _ (by omega)

theorem totalLeCard {c : Config G L T} {f : L → ℕ} (small : ∀ l, f l ≤ 1) : c.total f ≤ Fintype.card T := by
  have h := Finset.sum_le_sum (fun t (_ : t ∈ Finset.univ) => small (c.locals t))
  simpa [Config.total] using h

theorem totalAdd (c : Config G L T) (f g : L → ℕ) :
    c.total (fun l => f l + g l) = c.total f + c.total g := Finset.sum_add_distrib

theorem totalUnique [DecidableEq T] {c : Config G L T} {f : L → ℕ} (one : c.total f ≤ 1) {t u : T}
    (ht : 0 < f (c.locals t)) (hu : 0 < f (c.locals u)) : t = u := by
  by_contra other
  have rest := Finset.single_le_sum (f := fun t => f (c.locals t)) (fun _ _ => Nat.zero_le _)
    (Finset.mem_erase.mpr ⟨Ne.symm other, Finset.mem_univ u⟩)
  have split := Finset.add_sum_erase Finset.univ (fun t => f (c.locals t)) (Finset.mem_univ t)
  simp only [Config.total] at one
  omega

abbrev Tally (L : Type*) := (L → ℕ) → ℕ

structure Recount {L : Type*} (l l' : L) (n n' : Tally L) : Prop where
  own : ∀ f, f l ≤ n f
  change : ∀ f, n' f + f l = n f + f l'

theorem recountOf [DecidableEq T] {P : Type*} (c : Config G L T) (pc : L → P) (t : T) (g : G) (l : L) :
    Recount (pc (c.locals t)) (pc l) (fun f => c.total (fun l => f (pc l)))
      (fun f => (c.set t g l).total (fun l => f (pc l))) :=
  ⟨fun f => leTotal c (fun l => f (pc l)) t, fun f => totalSet c (fun l => f (pc l)) t g l⟩

end Totals
end Uco.Interleaving
