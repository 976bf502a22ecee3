import Uco.Bytes
import Mathlib.Data.List.TakeDrop
import Mathlib.Algebra.Group.Nat.Defs

/-! The I/O buffer: a byte vector with a read and a write cursor. Every operation
is described by what it does to the unread bytes. -/
namespace Uco

structure Buffer where
  vecBuffer : Bytes
  readPosition : Nat
  writePosition : Nat
  deriving DecidableEq, Repr

def int32Max : Nat := 2147483647

namespace Buffer

def new (sz : Nat) : Buffer := ⟨List.replicate sz 0, 0, 0⟩

def readableBytes (b : Buffer) : Nat := b.writePosition - b.readPosition

def writableBytes (b : Buffer) : Nat := b.vecBuffer.length - b.writePosition

def unread (b : Buffer) : Bytes := (b.vecBuffer.take b.writePosition).drop b.readPosition

def reset (b : Buffer) : Buffer := ⟨List.replicate b.vecBuffer.length 0, 0, 0⟩

def retrieve (b : Buffer) (nbytes : Nat) : Buffer :=
  if nbytes ≥ b.readableBytes then b.reset
  else { b with readPosition := b.readPosition + nbytes }

/- `pos` is counted from the start of the vector, as a pointer into it. -/
def retrieveUntil (b : Buffer) (pos : Nat) : Buffer :=
  if pos > b.readPosition ∧ pos < b.writePosition then b.retrieve (pos - b.readPosition) else b

def advance (b : Buffer) (nbytes : Nat) : Buffer :=
  if nbytes ≥ b.writableBytes then { b with writePosition := b.vecBuffer.length }
  else { b with writePosition := b.writePosition + nbytes }

def compact (b : Buffer) : Buffer :=
  if b.readableBytes = 0 then b.reset
  else ⟨b.unread ++ b.vecBuffer.drop b.readableBytes, 0, b.readableBytes⟩

def resize (vec : Bytes) (size : Nat) : Bytes :=
  vec.take size ++ List.replicate (size - vec.length) 0

def newCapacity (b : Buffer) (len : Nat) : Nat :=
  let oldCapacity := b.vecBuffer.length
  min (max (oldCapacity + oldCapacity / 2) ((oldCapacity + len) % 2 ^ 64)) int32Max

def extendBuffer (b : Buffer) (len : Nat) : Buffer :=
  if b.readPosition ≥ len then b.compact
  else { b with vecBuffer := resize b.vecBuffer (b.newCapacity len) }

def ensureWritableBytes (b : Buffer) (len : Nat) : Buffer :=
  if b.writableBytes < len then b.extendBuffer (len - b.writableBytes) else b

def copyIn (b : Buffer) (data : Bytes) : Buffer :=
  { b with
    vecBuffer := b.vecBuffer.take b.writePosition ++ data ++
      b.vecBuffer.drop (b.writePosition + data.length)
    writePosition := b.writePosition + data.length }

def append (b : Buffer) (data : Bytes) : Buffer :=
  if data = [] then b else (b.ensureWritableBytes data.length).copyIn data

def extendSize (b : Buffer) (size : Nat) : Buffer := b.compact.extendBuffer size

def doubleSize (b : Buffer) : Buffer := b.extendSize b.vecBuffer.length

def poke (b : Buffer) (offset : Nat) (value : UInt8) : Buffer :=
  { b with vecBuffer := b.vecBuffer.set (b.readPosition + offset) value }

structure Placed (b : Buffer) : Prop where
  ordered : b.readPosition ≤ b.writePosition
  inside : b.writePosition ≤ b.vecBuffer.length

/- The cursors are in order and inside a vector of at most INT32_MAX bytes. -/
structure Valid (b : Buffer) : Prop where
  ordered : b.readPosition ≤ b.writePosition
  inside : b.writePosition ≤ b.vecBuffer.length
  capped : b.vecBuffer.length ≤ int32Max

section Operations
variable {b : Buffer}

theorem Valid.placed (valid : Valid b) : Placed b := ⟨valid.ordered, valid.inside⟩

theorem unreadLength (placed : Placed b) : b.unread.length = b.readableBytes := by
  have := placed.inside
  simp only [unread, readableBytes, List.length_drop, List.length_take]
  omega

@[simp] theorem newUnread (sz : Nat) : (new sz).unread = [] := by simp [unread, new]

theorem newPlaced (sz : Nat) : Placed (new sz) := ⟨Nat.zero_le _, Nat.zero_le _⟩

theorem newValid {sz : Nat} (capped : sz ≤ int32Max) : Valid (new sz) :=
  ⟨Nat.zero_le _, Nat.zero_le _, by simpa [new] using capped⟩

theorem resetPlaced (b : Buffer) : Placed b.reset := ⟨Nat.zero_le _, Nat.zero_le _⟩

theorem resetValid (valid : Valid b) : Valid b.reset :=
  ⟨Nat.zero_le _, Nat.zero_le _, by simpa [reset] using valid.capped⟩

@[simp] theorem resetUnread (b : Buffer) : b.reset.unread = [] := by simp [unread, reset]

theorem retrieveUnread (placed : Placed b) (nbytes : Nat) :
    (b.retrieve nbytes).unread = b.unread.drop nbytes := by
  have size := unreadLength placed
  unfold retrieve
  split
  · rw [resetUnread, List.drop_eq_nil_of_le (by omega)]
  · simp [unread, List.drop_drop]

theorem retrievePlaced (placed : Placed b) (nbytes : Nat) : Placed (b.retrieve nbytes) := by
  unfold retrieve
  split
  · exact resetPlaced b
  · rename_i short
    have := placed.ordered
    simp only [readableBytes] at short
    exact ⟨by simp only; omega, placed.inside⟩

theorem retrieveValid (valid : Valid b) (nbytes : Nat) : Valid (b.retrieve nbytes) := by
  have placed := retrievePlaced valid.placed nbytes
  refine ⟨placed.ordered, placed.inside, ?_⟩
  unfold retrieve
  split
  · exact (resetValid valid).capped
  · exact valid.capped

theorem retrieveUntilUnread (valid : Valid b) (nbytes : Nat) :
    (b.retrieveUntil (b.readPosition + nbytes)).unread =
      if nbytes < b.unread.length then b.unread.drop nbytes else b.unread := by
  have size := unreadLength valid.placed
  have := valid.ordered
  simp only [readableBytes] at size
  unfold retrieveUntil
  by_cases inside : nbytes < b.unread.length
  · rw [if_pos inside]
    by_cases some : 0 < nbytes
    · rw [if_pos ⟨by omega, by omega⟩, retrieveUnread valid.placed]
      simp
    · have zero : nbytes = 0 := by omega
      simp [zero]
  · rw [if_neg inside, if_neg (by omega)]

theorem retrieveUntilValid (valid : Valid b) (pos : Nat) : Valid (b.retrieveUntil pos) := by
  unfold retrieveUntil
  split
  · exact retrieveValid valid _
  · exact valid

theorem compactUnread (placed : Placed b) : b.compact.unread = b.unread := by
  have size := unreadLength placed
  unfold compact
  split
  · rename_i none
    rw [resetUnread, List.eq_nil_of_length_eq_zero (size.trans none)]
  · simp only [unread, List.drop_zero]
    change (b.unread ++ b.vecBuffer.drop b.readableBytes).take b.readableBytes = b.unread
    rw [← size, List.take_left]

theorem compactSize (placed : Placed b) : b.compact.vecBuffer.length = b.vecBuffer.length := by
  have size := unreadLength placed
  have := placed.inside
  unfold compact
  split
  · simp [reset]
  · simp only [List.length_append, List.length_drop, size, readableBytes]; omega

theorem compactRead (b : Buffer) : b.compact.readPosition = 0 := by
  unfold compact
  split <;> rfl

theorem compactWrite (b : Buffer) : b.compact.writePosition = b.readableBytes := by
  unfold compact
  split
  · rename_i none
    rw [none]; rfl
  · rfl

theorem compactPlaced (placed : Placed b) : Placed b.compact := by
  have := placed.inside
  refine ⟨by rw [compactRead]; exact Nat.zero_le _, ?_⟩
  rw [compactWrite, compactSize placed, readableBytes]
  omega

theorem compactValid (valid : Valid b) : Valid b.compact := by
  have placed := compactPlaced valid.placed
  refine ⟨placed.ordered, placed.inside, ?_⟩
  rw [compactSize valid.placed]
  exact valid.capped

@[simp] theorem resizeLength (vec : Bytes) (size : Nat) : (resize vec size).length = size := by
  simp only [resize, List.length_append, List.length_take, List.length_replicate]; omega

theorem resizeUnread (placed : Placed b) {size : Nat} (covers : b.writePosition ≤ size) :
    { b with vecBuffer := resize b.vecBuffer size }.unread = b.unread := by
  have := placed.inside
  simp only [unread, resize]
  rw [List.take_append_of_le_length (by rw [List.length_take]; omega), List.take_take,
    Nat.min_eq_left covers]

theorem newCapacityGrows (valid : Valid b) (len : Nat) : b.vecBuffer.length ≤ b.newCapacity len := by
  have := valid.capped
  simp only [newCapacity]
  omega

theorem newCapacityCapped (b : Buffer) (len : Nat) : b.newCapacity len ≤ int32Max :=
  Nat.min_le_right _ _

theorem extendBufferUnread (placed : Placed b) {len : Nat}
    (covers : b.readPosition < len → b.writePosition ≤ b.newCapacity len) :
    (b.extendBuffer len).unread = b.unread := by
  unfold extendBuffer
  split
  · exact compactUnread placed
  · exact resizeUnread placed (covers (by omega))

theorem extendBufferPlaced (placed : Placed b) {len : Nat}
    (covers : b.readPosition < len → b.writePosition ≤ b.newCapacity len) :
    Placed (b.extendBuffer len) := by
  unfold extendBuffer
  split
  · exact compactPlaced placed
  · exact ⟨placed.ordered, by rw [resizeLength]; exact covers (by omega)⟩

theorem extendBufferCovers (valid : Valid b) (len : Nat) : b.writePosition ≤ b.newCapacity len :=
  Nat.le_trans valid.inside (newCapacityGrows valid len)

theorem extendBufferValid (valid : Valid b) (len : Nat) : Valid (b.extendBuffer len) := by
  have placed := extendBufferPlaced valid.placed (fun _ => extendBufferCovers valid len)
  refine ⟨placed.ordered, placed.inside, ?_⟩
  unfold extendBuffer
  split
  · exact (compactValid valid).capped
  · rw [resizeLength]; exact newCapacityCapped b len

theorem doubleSizeUnread (valid : Valid b) : b.doubleSize.unread = b.unread := by
  have compacted := compactValid valid
  rw [doubleSize, extendSize, extendBufferUnread compacted.placed (fun _ => extendBufferCovers compacted _),
    compactUnread valid.placed]

theorem doubleSizeValid (valid : Valid b) : Valid b.doubleSize :=
  extendBufferValid (compactValid valid) _

theorem doubleSizeRead (b : Buffer) : b.doubleSize.readPosition = 0 := by
  unfold doubleSize extendSize extendBuffer
  split
  · exact compactRead _
  · exact compactRead _

theorem copyInUnread (placed : Placed b) (data : Bytes) : (b.copyIn data).unread = b.unread ++ data := by
  have := placed.inside
  have front : (b.vecBuffer.take b.writePosition).length = b.writePosition := by
    rw [List.length_take]; omega
  simp only [unread, copyIn]
  rw [List.take_append_of_le_length (by simp [front]), List.take_of_length_le (by simp [front]),
    List.drop_append_of_le_length (by rw [front]; exact placed.ordered)]

theorem copyInPlaced (placed : Placed b) (data : Bytes) : Placed (b.copyIn data) := by
  have := placed.inside
  have := placed.ordered
  refine ⟨by simp only [copyIn]; omega, ?_⟩
  simp only [copyIn, List.length_append, List.length_take, List.length_drop]; omega

theorem copyInValid (valid : Valid b) {data : Bytes} (fits : data.length ≤ b.writableBytes) :
    Valid (b.copyIn data) := by
  have placed := copyInPlaced valid.placed data
  have := valid.inside
  have := valid.capped
  simp only [writableBytes] at fits
  refine ⟨placed.ordered, placed.inside, ?_⟩
  simp only [copyIn, List.length_append, List.length_take, List.length_drop]; omega

def Fits (b : Buffer) (len : Nat) : Prop :=
  b.readPosition < len - b.writableBytes → b.writePosition + len ≤ int32Max

theorem fitsCovers (placed : Placed b) {len : Nat} (fits : b.Fits len)
    (full : b.readPosition < len - b.writableBytes) :
    b.writePosition + len ≤ b.newCapacity (len - b.writableBytes) := by
  have := placed.inside
  have := fits full
  simp only [newCapacity, writableBytes, int32Max] at *
  rw [Nat.mod_eq_of_lt (by omega)]
  omega

theorem ensureRoom (placed : Placed b) {len : Nat} (fits : b.Fits len) :
    len ≤ (b.ensureWritableBytes len).writableBytes := by
  have := placed.ordered
  have := placed.inside
  unfold ensureWritableBytes
  split
  · rename_i short
    unfold extendBuffer
    split
    · rename_i room
      rw [writableBytes, compactSize placed, compactWrite, readableBytes]
      simp only [writableBytes] at room short
      omega
    · rename_i full
      have covers := fitsCovers placed fits (by omega)
      simp only [writableBytes, resizeLength] at covers ⊢
      omega
  · rename_i enough
    omega

theorem ensureUnread (placed : Placed b) {len : Nat} (fits : b.Fits len) :
    (b.ensureWritableBytes len).unread = b.unread := by
  unfold ensureWritableBytes
  split
  · exact extendBufferUnread placed (fun full => Nat.le_of_add_right_le (fitsCovers placed fits full))
  · rfl

theorem ensurePlaced (placed : Placed b) {len : Nat} (fits : b.Fits len) :
    Placed (b.ensureWritableBytes len) := by
  unfold ensureWritableBytes
  split
  · exact extendBufferPlaced placed (fun full => Nat.le_of_add_right_le (fitsCovers placed fits full))
  · exact placed

theorem ensureValid (valid : Valid b) (len : Nat) : Valid (b.ensureWritableBytes len) := by
  unfold ensureWritableBytes
  split
  · exact extendBufferValid valid _
  · exact valid

theorem appendNew {sz : Nat} {data : Bytes} (more : data ≠ []) (fits : data.length ≤ sz) :
    (new sz).append data = ⟨data ++ (List.replicate sz 0).drop data.length,0,data.length⟩ := by
  have room : (new sz).writableBytes = sz := by simp [new, writableBytes]
  rw [append, if_neg more, ensureWritableBytes, if_neg (by omega)]
  simp [copyIn, new]

theorem appendUnread (placed : Placed b) {data : Bytes} (fits : b.Fits data.length) :
    (b.append data).unread = b.unread ++ data := by
  unfold append
  split
  · rename_i none
    simp [none]
  · rw [copyInUnread (ensurePlaced placed fits), ensureUnread placed fits]

theorem appendPlaced (placed : Placed b) {data : Bytes} (fits : b.Fits data.length) :
    Placed (b.append data) := by
  unfold append
  split
  · exact placed
  · exact copyInPlaced (ensurePlaced placed fits) data

theorem appendValid (valid : Valid b) {data : Bytes}
    (below : b.writePosition + data.length ≤ int32Max) : Valid (b.append data) := by
  unfold append
  split
  · exact valid
  · exact copyInValid (ensureValid valid _) (ensureRoom valid.placed (fun _ => below))

theorem pokeUnread (b : Buffer) (offset : Nat) (value : UInt8) :
    (b.poke offset value).unread = b.unread.set offset value := by
  simp only [unread, poke]
  rw [List.take_set, List.drop_set]
  simp only [Nat.add_sub_cancel_left]
  rw [if_neg (by omega)]

theorem pokeValid (valid : Valid b) (offset : Nat) (value : UInt8) : Valid (b.poke offset value) :=
  ⟨valid.ordered, by simpa [poke] using valid.inside, by simpa [poke] using valid.capped⟩

end Operations
end Buffer
end Uco
