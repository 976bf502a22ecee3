import Mathlib.Data.List.Dedup

/-! Recency: the distinct entries of a sequence of uses, the last used first, and the ones
among them that a bounded memory keeps. -/
namespace Uco.Recency

variable {K : Type*} [DecidableEq K]

def recent (uses : List K) : List K := uses.dedup.reverse

theorem dedupUse (uses : List K) (k : K) : (uses ++ [k]).dedup = uses.dedup.erase k ++ [k] := by
  induction uses with
  | nil => simp
  | cons a uses ih =>
    rw [List.cons_append]
    by_cases old : a ∈ uses
    · rw [List.dedup_cons_of_mem (List.mem_append_left _ old), ih, List.dedup_cons_of_mem old]
    · rw [List.dedup_cons_of_notMem old]
      by_cases same : a = k
      · subst same
        rw [List.dedup_cons_of_mem (by simp), ih, List.erase_cons_head,
          List.erase_of_not_mem (fun inside => old (List.mem_dedup.mp inside))]
      · rw [List.dedup_cons_of_notMem (by simp [old, same]), ih, List.erase_cons_tail (by simpa using same),
          List.cons_append]

theorem recentUse (uses : List K) (k : K) : recent (uses ++ [k]) = k :: (recent uses).erase k := by
  rw [recent, dedupUse, List.reverse_append, List.reverse_singleton, List.singleton_append, recent,
    (List.nodup_dedup uses).erase_eq_filter, (List.nodup_reverse.mpr (List.nodup_dedup uses)).erase_eq_filter,
    List.filter_reverse]

theorem takeErased {l : List K} {k : K} {n : ℕ} (inside : k ∈ l.take (n + 1)) :
    (l.erase k).take n = (l.take (n + 1)).erase k := by
  induction l generalizing n with
  | nil => simp
  | cons a l ih =>
    by_cases same : a = k
    · subst same
      simp
    · have other : ¬(a == k) = true := by simpa using same
      rw [List.take_succ_cons] at inside ⊢
      rw [List.erase_cons_tail other, List.erase_cons_tail other]
      have behind := (List.mem_cons.mp inside).resolve_left (fun eq => same eq.symm)
      cases n with
      | zero => simp at behind
      | succ n => rw [List.take_succ_cons, ih behind]

theorem takeUntouched {l : List K} {k : K} {n : ℕ} (outside : k ∉ l.take (n + 1)) :
    (l.erase k).take n = l.take n := by
  induction l generalizing n with
  | nil => simp
  | cons a l ih =>
    rw [List.take_succ_cons, List.mem_cons, not_or] at outside
    rw [List.erase_cons_tail (by simpa using Ne.symm outside.1)]
    cases n with
    | zero => simp
    | succ n => rw [List.take_succ_cons, List.take_succ_cons, ih outside.2]

theorem keptHit {uses : List K} {k : K} {n : ℕ} (inside : k ∈ (recent uses).take n) :
    (recent (uses ++ [k])).take n = k :: ((recent uses).take n).erase k := by
  cases n with
  | zero => simp at inside
  | succ n => rw [recentUse, List.take_succ_cons, takeErased inside]

theorem keptNew {uses : List K} {k : K} {n : ℕ} (room : 0 < n) (outside : k ∉ (recent uses).take n) :
    (recent (uses ++ [k])).take n =
      k :: if ((recent uses).take n).length = n then ((recent uses).take n).dropLast else (recent uses).take n := by
  obtain ⟨n,rfl⟩ := Nat.exists_eq_succ_of_ne_zero (Nat.pos_iff_ne_zero.mp room)
  rw [recentUse, List.take_succ_cons, takeUntouched outside]
  congr 1
  split
  · rename_i full
    rw [List.dropLast_eq_take, full, List.take_take, Nat.succ_sub_one, Nat.min_eq_left (Nat.le_succ n)]
  · rename_i short
    rw [List.length_take] at short
    rw [List.take_of_length_le (by omega), List.take_of_length_le (by omega)]

end Uco.Recency
