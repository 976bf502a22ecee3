import Uco.Buffer

/-! The buffer as a byte queue: any public operations in any order, from any initial
size, beside the bytes the queue should hold. -/
namespace Uco
namespace Buffer

inductive Operation where
  | append (data : Bytes)
  | advance (nbytes : Nat)
  | retrieve (nbytes : Nat)
  | compact
  | extendSize (size : Nat)
  | doubleSize
  | reset
  deriving DecidableEq, Repr

namespace Operation

def run (b : Buffer) : Operation → Buffer
  | append data => b.append data
  | advance nbytes => b.advance nbytes
  | retrieve nbytes => b.retrieve nbytes
  | compact => b.compact
  | extendSize size => b.extendSize size
  | doubleSize => b.doubleSize
  | reset => b.reset

def queue (b : Buffer) (bytes : Bytes) : Operation → Bytes
  | append data => bytes ++ data
  | advance nbytes => bytes ++ (b.vecBuffer.drop b.writePosition).take (min nbytes b.writableBytes)
  | retrieve nbytes => bytes.drop (min nbytes bytes.length)
  | compact | extendSize _ | doubleSize => bytes
  | reset => []

def writesInside (b : Buffer) : Operation → Prop
  | append data =>
      data ≠ [] → data.length ≤ (b.ensureWritableBytes data.length).writableBytes
  | _ => True

/- An Append fits the tail, the vector once compacted or a vector of INT32_MAX bytes;
growing on request keeps the readable bytes when they are at most INT32_MAX. -/
def fits (b : Buffer) : Operation → Prop
  | append data => b.Fits data.length
  | extendSize size => 0 < size → b.readableBytes ≤ int32Max
  | doubleSize => b.readableBytes ≤ int32Max
  | _ => True

end Operation

structure Holds (b : Buffer) (bytes : Bytes) : Prop extends Placed b where
  same : b.unread = bytes

def BehavesAsQueue : Buffer → Bytes → List Operation → Prop
  | b, bytes, [] => Holds b bytes
  | b, bytes, op :: rest =>
      Holds b bytes ∧ op.writesInside b ∧ BehavesAsQueue (op.run b) (op.queue b bytes) rest

def FitsThroughout : Buffer → List Operation → Prop
  | _, [] => True
  | b, op :: rest => op.fits b ∧ FitsThroughout (op.run b) rest

section Steps
variable {b : Buffer} {bytes : Bytes}

theorem advanceUnread (placed : Placed b) (nbytes : Nat) :
    (b.advance nbytes).unread =
      b.unread ++ (b.vecBuffer.drop b.writePosition).take (min nbytes b.writableBytes) := by
  have ordered := placed.ordered
  have inside := placed.inside
  have upTo (extra : Nat) : (b.vecBuffer.take (b.writePosition + extra)).drop b.readPosition =
      b.unread ++ (b.vecBuffer.drop b.writePosition).take extra := by
    rw [unread, List.take_add, List.drop_append_of_le_length (by rw [List.length_take]; omega)]
  unfold advance
  split
  · rename_i all
    have whole : b.vecBuffer.length = b.writePosition + b.writableBytes := by
      simp only [writableBytes]; omega
    rw [Nat.min_eq_right all, ← upTo, ← whole]
    rfl
  · rename_i some
    rw [Nat.min_eq_left (by omega), ← upTo]
    rfl

theorem advancePlaced (placed : Placed b) (nbytes : Nat) : Placed (b.advance nbytes) := by
  have ordered := placed.ordered
  have inside := placed.inside
  unfold advance
  split
  · exact ⟨by simp only; omega, Nat.le_refl _⟩
  · rename_i some
    simp only [writableBytes] at some
    exact ⟨by simp only; omega, by simp only; omega⟩

theorem extendSizeCovers (placed : Placed b) {size : Nat} (small : b.readableBytes ≤ int32Max) :
    b.compact.writePosition ≤ b.compact.newCapacity size := by
  have inside := (compactPlaced placed).inside
  rw [compactWrite] at inside ⊢
  simp only [newCapacity]
  omega

theorem extendSizeKeeps (placed : Placed b) {size : Nat} (small : 0 < size → b.readableBytes ≤ int32Max) :
    Placed (b.extendSize size) ∧ (b.extendSize size).unread = b.unread := by
  have compacted := compactPlaced placed
  have covers (full : b.compact.readPosition < size) : b.compact.writePosition ≤ b.compact.newCapacity size :=
    extendSizeCovers placed (small (by omega))
  refine ⟨extendBufferPlaced compacted covers, ?_⟩
  rw [extendSize, extendBufferUnread compacted covers, compactUnread placed]

theorem extendSizeShrinks {size : Nat} (grow : 0 < size) (large : int32Max < b.readableBytes) :
    ¬ Placed (b.extendSize size) := by
  intro placed
  have inside := placed.inside
  have capped := newCapacityCapped b.compact size
  have first : ¬ b.compact.readPosition ≥ size := by rw [compactRead]; omega
  rw [extendSize, extendBuffer, if_neg first] at inside
  simp only [resizeLength, compactWrite] at inside
  omega

theorem extendSizeIff (placed : Placed b) (size : Nat) :
    Placed (b.extendSize size) ∧ (b.extendSize size).unread = b.unread ↔
      (0 < size → b.readableBytes ≤ int32Max) := by
  refine ⟨fun kept grow => ?_, extendSizeKeeps placed⟩
  by_contra large
  exact extendSizeShrinks grow (Nat.lt_of_not_le large) kept.1

theorem doubleSizeIff (placed : Placed b) :
    Placed b.doubleSize ∧ b.doubleSize.unread = b.unread ↔ b.readableBytes ≤ int32Max := by
  have inside := placed.inside
  rw [doubleSize, extendSizeIff placed]
  constructor
  · intro small
    by_cases none : b.readableBytes = 0
    · omega
    · simp only [readableBytes] at none small ⊢
      exact small (by omega)
  · exact fun small _ => small

theorem appendInsideIff (placed : Placed b) (data : Bytes) :
    (Operation.append data).writesInside b ↔ b.Fits data.length := by
  have ordered := placed.ordered
  have inside := placed.inside
  refine ⟨fun written full => ?_, fun fits _ => ensureRoom placed fits⟩
  have some : data ≠ [] := by
    rintro rfl
    simp at full
  have room := written some
  have capped := newCapacityCapped b (data.length - b.writableBytes)
  rw [ensureWritableBytes, if_pos (by omega), extendBuffer, if_neg (by omega)] at room
  simp only [writableBytes, resizeLength] at room capped
  have : data.length ≠ 0 := by simpa using some
  omega

theorem operationIff (holds : Holds b bytes) (op : Operation) :
    op.writesInside b ∧ Holds (op.run b) (op.queue b bytes) ↔ op.fits b := by
  have placed := holds.toPlaced
  have same := holds.same
  have kept {b'} {bytes'} (placed' : Placed b') (same' : b'.unread = bytes') :
      True ∧ Holds b' bytes' ↔ True := ⟨fun _ => trivial, fun _ => ⟨trivial, placed', same'⟩⟩
  have unchanged {b'} : True ∧ Holds b' bytes ↔ Placed b' ∧ b'.unread = b.unread :=
    ⟨fun h => ⟨h.2.toPlaced, h.2.same.trans same.symm⟩, fun h => ⟨trivial, h.1, h.2.trans same⟩⟩
  cases op with
  | append data =>
    rw [appendInsideIff placed]
    refine ⟨And.left, fun fits => ⟨fits, appendPlaced placed fits, ?_⟩⟩
    rw [Operation.run, appendUnread placed fits, same]; rfl
  | advance nbytes =>
    refine kept (advancePlaced placed nbytes) ?_
    simp only [Operation.run, Operation.queue]
    rw [advanceUnread placed, same]
  | retrieve nbytes =>
    refine kept (retrievePlaced placed nbytes) ?_
    simp only [Operation.run, Operation.queue]
    rw [retrieveUnread placed, same]
    by_cases few : nbytes ≤ bytes.length
    · rw [Nat.min_eq_left few]
    · rw [Nat.min_eq_right (by omega), List.drop_eq_nil_of_le (by omega), List.drop_length]
  | compact => exact kept (compactPlaced placed) ((compactUnread placed).trans same)
  | extendSize size => exact unchanged.trans (extendSizeIff placed size)
  | doubleSize => exact unchanged.trans (doubleSizeIff placed)
  | reset => exact kept (resetPlaced b) (resetUnread b)

theorem behavesIff (holds : Holds b bytes) (ops : List Operation) :
    BehavesAsQueue b bytes ops ↔ FitsThroughout b ops := by
  induction ops generalizing b bytes with
  | nil => exact ⟨fun _ => trivial, fun _ => holds⟩
  | cons op rest ih =>
    have step := operationIff holds op
    simp only [BehavesAsQueue, FitsThroughout]
    constructor
    · rintro ⟨-, inside, behaves⟩
      have next : Holds (op.run b) (op.queue b bytes) := by
        cases rest with
        | nil => exact behaves
        | cons => exact behaves.1
      exact ⟨step.mp ⟨inside, next⟩, (ih next).mp behaves⟩
    · rintro ⟨fits, fitting⟩
      obtain ⟨inside, next⟩ := step.mpr fits
      exact ⟨holds, inside, (ih next).mpr fitting⟩

end Steps

theorem newHolds (sz : Nat) : Holds (new sz) [] := ⟨newPlaced sz, newUnread sz⟩

theorem byteQueueIff (sz : Nat) (ops : List Operation) :
    BehavesAsQueue (new sz) [] ops ↔ FitsThroughout (new sz) ops := behavesIff (newHolds sz) ops

theorem longAppend {sz : Nat} {data : Bytes} (large : sz ≤ int32Max) (long : int32Max < data.length) :
    ¬ (Operation.append data).fits (new sz) := by
  intro fits
  have room : (new sz).writableBytes = sz := by simp [writableBytes, new]
  have small := fits (by rw [room]; simp only [new]; omega)
  simp only [new] at small
  omega

theorem clampOverrun :
    ¬ BehavesAsQueue (new 1024) [] [.append (List.replicate (int32Max + 1) 0)] := by
  have overruns (data : Bytes) (long : data.length = int32Max + 1) :
      ¬ BehavesAsQueue (new 1024) [] [.append data] := by
    rw [behavesIff (newHolds 1024)]
    rintro ⟨fits, -⟩
    exact longAppend (by unfold int32Max; omega) (by omega) fits
  exact overruns _ (List.length_replicate ..)

end Buffer
end Uco
