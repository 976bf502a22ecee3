import Mathlib.Logic.Equiv.Basic
import Mathlib.Order.Basic
import Mathlib.Order.Lattice

/-! The order of a binary heap: keys at the positions of a vector, where a position beyond the
end has none, and what one exchange of a sift loop preserves. -/
namespace Uco.HeapOrder

section Order
variable {A : Type*} [LinearOrder A]

def Child (p k : ℕ) : Prop := k = 2 * p + 1 ∨ k = 2 * p + 2

def Below (key : ℕ → Option A) (p k : ℕ) : Prop := ∀ x y, key p = some x → key k = some y → x ≤ y

def Ordered (key : ℕ → Option A) : Prop := ∀ p k, Child p k → Below key p k

structure UpOrder (key : ℕ → Option A) (i : ℕ) : Prop where
  others : ∀ p k, Child p k → k ≠ i → Below key p k
  across : ∀ p k, Child p i → Child i k → Below key p k

structure Gap (key : ℕ → Option A) (i : ℕ) : Prop where
  others : ∀ p k, Child p k → p ≠ i → k ≠ i → Below key p k
  across : ∀ p k, Child p i → Child i k → Below key p k

def Above (key : ℕ → Option A) (i : ℕ) : Prop := ∀ p, Child p i → Below key p i

end Order

section Rules
variable {A : Type*} [LinearOrder A] {key : ℕ → Option A} {p k i b : ℕ} {x y : A}

theorem childLt (child : Child p k) : p < k := by
  unfold Child at child
  omega

theorem childOne {q : ℕ} (one : Child p k) (two : Child q k) : p = q := by
  unfold Child at one two
  omega

theorem childParent (some' : 0 < k) : Child ((k - 1) / 2) k := by
  unfold Child
  omega

theorem belowRefl (key : ℕ → Option A) (p : ℕ) : Below key p p := by
  intro x y hx hy
  rw [hx] at hy
  exact (Option.some.inj hy).le

theorem belowTrans {q : ℕ} (one : Below key p q) (two : Below key q k) (mid : (key q).isSome) : Below key p k := by
  obtain ⟨m,here⟩ := Option.isSome_iff_exists.mp mid
  exact fun x y hx hy => (one x m hx here).trans (two m y here hy)

theorem belowOf (hp : key p = some x) (hk : key k = some y) (le : x ≤ y) : Below key p k := by
  intro x' y' hx hy
  cases hp.symm.trans hx
  cases hk.symm.trans hy
  exact le

theorem rootLeast (ordered : Ordered key) (filled : ∀ k, (key k).isSome → ∀ j < k, (key j).isSome) (k : ℕ) :
    Below key 0 k := by
  induction k using Nat.strongRecOn with
  | ind k ih =>
    rcases Nat.eq_zero_or_pos k with rfl | some'
    · exact belowRefl key 0
    · intro x y hx hy
      have child := childParent some'
      exact belowTrans (ih _ (childLt child)) (ordered _ _ child)
        (filled k (by rw [hy]; rfl) _ (childLt child)) x y hx hy

theorem upOrdered (up : UpOrder key i) (above : Above key i) : Ordered key := by
  intro p k child
  by_cases here : k = i
  · subst here
    exact above p child
  · exact up.others p k child here

theorem gapUp (gap : Gap key i) (children : ∀ k, Child i k → Below key i k) : UpOrder key i := by
  refine ⟨fun p k child other => ?_,gap.across⟩
  by_cases here : p = i
  · subst here
    exact children k child
  · exact gap.others p k child here other

theorem belowSwap {a : ℕ} : Below (key ∘ Equiv.swap a b) p k ↔ Below key (Equiv.swap a b p) (Equiv.swap a b k) :=
  Iff.rfl

theorem upSwap (up : UpOrder key i) (child : Child p i) (hp : key p = some x) (hi : key i = some y) (lt : y < x) :
    UpOrder (key ∘ Equiv.swap p i) p := by
  have apart := childLt child
  have mid : (key p).isSome := by rw [hp]; rfl
  have down : Below key i p := belowOf hi hp lt.le
  constructor
  · intro q k edge other
    rw [belowSwap]
    by_cases atI : k = i
    · subst atI
      obtain rfl := childOne edge child
      rwa [Equiv.swap_apply_left, Equiv.swap_apply_right]
    · rw [Equiv.swap_apply_of_ne_of_ne other atI]
      by_cases qI : q = i
      · subst qI
        rw [Equiv.swap_apply_right]
        exact up.across p k child edge
      · by_cases qP : q = p
        · subst qP
          rw [Equiv.swap_apply_left]
          exact belowTrans down (up.others q k edge atI) mid
        · rw [Equiv.swap_apply_of_ne_of_ne qP qI]
          exact up.others q k edge atI
  · intro q k above edge
    have high := childLt above
    have low := childLt edge
    rw [belowSwap, Equiv.swap_apply_of_ne_of_ne (Nat.ne_of_lt high) (by omega)]
    have first := up.others q p above (Nat.ne_of_lt apart)
    by_cases atI : k = i
    · subst atI
      rwa [Equiv.swap_apply_right]
    · rw [Equiv.swap_apply_of_ne_of_ne (by omega) atI]
      exact belowTrans first (up.others p k edge atI) mid

theorem gapSwap (gap : Gap key i) (child : Child i b) (least : ∀ k, Child i k → Below key b k) :
    Gap (key ∘ Equiv.swap b i) b := by
  have apart := childLt child
  constructor
  · intro q k edge qB kB
    rw [belowSwap]
    by_cases atI : k = i
    · subst atI
      have high := childLt edge
      rw [Equiv.swap_apply_right, Equiv.swap_apply_of_ne_of_ne qB (Nat.ne_of_lt high)]
      exact gap.across q b edge child
    · rw [Equiv.swap_apply_of_ne_of_ne kB atI]
      by_cases qI : q = i
      · subst qI
        rw [Equiv.swap_apply_right]
        exact least k edge
      · rw [Equiv.swap_apply_of_ne_of_ne qB qI]
        exact gap.others q k edge qI atI
  · intro q k above edge
    obtain rfl := childOne above child
    have low := childLt edge
    rw [belowSwap, Equiv.swap_apply_right, Equiv.swap_apply_of_ne_of_ne (Nat.ne_of_gt low) (by omega)]
    exact gap.others b k edge (Nat.ne_of_gt apart) (by omega)

theorem aboveSwap (child : Child i b) (hb : key b = some x) (hi : key i = some y) (lt : x < y) :
    Above (key ∘ Equiv.swap b i) b := by
  intro p above
  obtain rfl := childOne above child
  rw [belowSwap, Equiv.swap_apply_right, Equiv.swap_apply_left]
  exact belowOf hb hi lt.le

end Rules

end Uco.HeapOrder
