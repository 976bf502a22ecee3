import Mathlib.Data.List.TakeWhile

/-! A text read segment by segment: from where the scan stands to the next separator or to the
end, until nothing is left. Behind a last separator there is no further segment. -/
namespace Uco.Segments

section Scan
variable {α : Type} [DecidableEq α]

def firstSegment (sep : α) (text : List α) : List α := text.takeWhile (· ≠ sep)

def behind (sep : α) (text : List α) : List α := (text.dropWhile (· ≠ sep)).drop 1

theorem behindShorter {sep : α} {text : List α} (more : text ≠ []) : (behind sep text).length < text.length := by
  have cut := (List.dropWhile_suffix (fun c => decide (c ≠ sep)) (l := text)).length_le
  have := List.length_pos_iff.mpr more
  rw [behind, List.length_drop]
  omega

def segments (sep : α) (text : List α) : List (List α) :=
  if text = [] then [] else firstSegment sep text :: segments sep (behind sep text)
  termination_by text.length
  decreasing_by exact behindShorter ‹_›

end Scan

section Rules
variable {α : Type} [DecidableEq α] {sep : α}

@[simp] theorem segmentsNil : segments sep [] = [] := by
  rw [segments, if_pos rfl]

theorem keepsClean {item : List α} (clean : sep ∉ item) : ∀ c ∈ item, decide (c ≠ sep) = true := by
  intro c inside
  simp only [ne_eq, decide_not, Bool.not_eq_eq_eq_not, Bool.not_true, decide_eq_false_iff_not]
  rintro rfl
  exact clean inside

theorem segmentClean {item : List α} (clean : sep ∉ item) (rest : List α) :
    firstSegment sep (item ++ sep :: rest) = item := by
  rw [firstSegment, List.takeWhile_append_of_pos (keepsClean clean), List.takeWhile_cons_of_neg (by simp), List.append_nil]

theorem behindClean {item : List α} (clean : sep ∉ item) (rest : List α) :
    behind sep (item ++ sep :: rest) = rest := by
  rw [behind, List.dropWhile_append_of_pos (keepsClean clean), List.dropWhile_cons_of_neg (by simp), List.drop_one,
    List.tail_cons]

theorem segmentsCons {item : List α} (clean : sep ∉ item) (rest : List α) :
    segments sep (item ++ sep :: rest) = item :: segments sep rest := by
  rw [segments, if_neg (by simp), segmentClean clean, behindClean clean]

theorem segmentsLast {item : List α} (clean : sep ∉ item) (more : item ≠ []) : segments sep item = [item] := by
  have none : item.dropWhile (fun c => decide (c ≠ sep)) = [] := List.dropWhile_eq_nil_iff.mpr (keepsClean clean)
  rw [segments, if_neg more, firstSegment, behind, List.takeWhile_eq_self_iff.mpr (keepsClean clean), none, List.drop_nil,
    segmentsNil]

theorem segmentsBefore {item : List α} (clean : sep ∉ item) {rest : List α} (more : item ++ rest ≠ []) :
    segments sep (item ++ rest) = (item ++ firstSegment sep rest) :: segments sep (behind sep rest) := by
  rw [segments, if_neg more, firstSegment, behind, List.takeWhile_append_of_pos (keepsClean clean),
    List.dropWhile_append_of_pos (keepsClean clean), ← firstSegment, ← behind]

theorem splitOnSegments (text : List α) :
    text.splitOn sep = segments sep text ++ if text = [] ∨ text.getLast? = some sep then [[]] else [] := by
  induction size : text.length using Nat.strongRecOn generalizing text with
  | ind n ih =>
    by_cases here : sep ∈ text
    · obtain ⟨item,rest,rfl,clean⟩ := List.eq_append_cons_of_mem here
      have shorter : rest.length < n := by
        rw [List.length_append, List.length_cons] at size
        omega
      rw [List.splitOn_append_cons_self_of_not_mem clean, segmentsCons clean, ih _ shorter rest rfl]
      cases rest <;> simp
    · rw [List.splitOn_eq_singleton here]
      by_cases more : text = []
      · simp [more]
      · have other : text.getLast? ≠ some sep := fun last => here (List.mem_of_getLast? last)
        rw [segmentsLast here more, if_neg (by simp [more, other]), List.append_nil]

theorem segmentsJoined {items : List (List α)} (clean : ∀ item ∈ items, sep ∉ item)
    (more : ∀ last, items.getLast? = some last → last ≠ []) : segments sep ([sep].intercalate items) = items := by
  induction items with
  | nil => simp
  | cons item items ih =>
    obtain ⟨head,tail⟩ := List.forall_mem_cons.mp clean
    cases items with
    | nil => rw [List.intercalate_singleton, segmentsLast head (more item rfl)]
    | cons next items =>
      rw [List.intercalate_cons_cons, List.append_assoc, List.singleton_append, segmentsCons head,
        ih tail fun last same => more last same]

end Rules

end Uco.Segments
