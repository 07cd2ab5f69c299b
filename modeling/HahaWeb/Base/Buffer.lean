/-
  HahaWeb.Base.Buffer — `base/Buffer`: a vector of bytes with a read and a write
  position; the bytes between them are the readable ones.

  The order of the positions is part of the type. Proved: `Append` adds its bytes
  behind the readable ones (`readable_append`), also when it moves them to the front
  or grows the vector; `Retrieve` of what is there drops exactly that much
  (`retrieve_of_le`). So the parser sees the buffer as a queue of bytes.

  A length is a natural number here, and `makeSpace` computes with it exactly, as what is in
  memory allows. `makeSpaceSized` and what is built on it have the sum of the source, which is
  a `size_t` that wraps, and the limit of `vector::resize`; where the sum is within that limit
  the two agree (`makeSpaceSized_eq`).
-/

import HahaWeb.Base.Bytes

namespace HahaWeb

structure Buffer where
  buffer : Bytes
  readPos : Nat
  writePos : Nat
  read_le : readPos ≤ writePos
  write_le : writePos ≤ buffer.length
  deriving Repr

namespace Buffer

/-- `kInitialSize` zero bytes, nothing readable. -/
def new (initialSize : Nat) : Buffer := ⟨List.replicate initialSize 0, 0, 0, Nat.le_refl _, Nat.zero_le _⟩

def empty : Buffer := new 1024

def readableBytes (b : Buffer) : Nat := b.writePos - b.readPos
def writableBytes (b : Buffer) : Nat := b.buffer.length - b.writePos
def prependableBytes (b : Buffer) : Nat := b.readPos

/-- The readable bytes: `Peek()` with `ReadableBytes()`. -/
def readable (b : Buffer) : Bytes := (b.buffer.take b.writePos).drop b.readPos

/-- `n` bytes read from `Peek()` on. -/
def peek (b : Buffer) (n : Nat) : Bytes := (b.buffer.drop b.readPos).take n

def retrieveAll (b : Buffer) : Buffer := ⟨b.buffer, 0, 0, Nat.le_refl _, Nat.zero_le _⟩

def retrieve (b : Buffer) (len : Nat) : Except Fault Buffer :=
  if h : len ≤ b.readableBytes then
    if len < b.readableBytes then
      .ok ⟨b.buffer, b.readPos + len, b.writePos, by unfold readableBytes at h; have := b.read_le; omega, b.write_le⟩
    else .ok b.retrieveAll
  else .error .assertion

/-- `vector::resize`: cut, or filled with zero bytes. -/
def resize (s : Bytes) (n : Nat) : Bytes := s.take n ++ List.replicate (n - s.length) 0

theorem resize_length (s : Bytes) (n : Nat) : (resize s n).length = n := by simp [resize]; omega

theorem readable_length (b : Buffer) : b.readable.length = b.readableBytes := by
  have := b.write_le
  simp [readable, readableBytes]
  omega

/-- `MakeSpace_`, when the vector can be as large as that. -/
def makeSpace (b : Buffer) (len : Nat) : Buffer :=
  if b.writableBytes + b.prependableBytes < len then
    ⟨resize b.buffer (b.writePos + len + 1), b.readPos, b.writePos, b.read_le, by rw [resize_length]; omega⟩
  else
    ⟨b.readable ++ b.buffer.drop b.readable.length, 0, b.readable.length, Nat.zero_le _, by simp⟩

/-- `max_size()` of a vector of bytes. -/
def maxSize : Nat := 0x7fffffffffffffff

/-- `MakeSpace_` of any length: a sum that wraps round cuts the vector, and may leave the write
    position behind its end. -/
def makeSpaceSized (b : Buffer) (len : Nat) : Except Fault Buffer :=
  if b.writableBytes + b.prependableBytes < len then
    let size := (b.writePos + len + 1) % 0x10000000000000000
    if maxSize < size then .error .lengthError
    else if h : b.writePos ≤ size then
      .ok ⟨resize b.buffer size, b.readPos, b.writePos, b.read_le, by rw [resize_length]; exact h⟩
    else .error .outOfRange
  else .ok (b.makeSpace len)

/-- `EnsureWriteable`; its assertion is `ensureWriteable_room`. -/
def ensureWriteable (b : Buffer) (len : Nat) : Buffer := if b.writableBytes < len then b.makeSpace len else b

theorem ensureWriteable_room (b : Buffer) (len : Nat) : len ≤ (b.ensureWriteable len).writableBytes := by
  unfold ensureWriteable
  split
  · unfold makeSpace
    split
    · simp only [writableBytes, resize_length]
      omega
    · rename_i h1 h2
      have hr := b.readable_length
      have := b.read_le
      have := b.write_le
      simp only [writableBytes, prependableBytes, readableBytes] at *
      simp only [List.length_append, List.length_drop]
      omega
  · omega

/-- `EnsureWriteable` of any length, with its assertion. -/
def ensureWriteableSized (b : Buffer) (len : Nat) : Except Fault Buffer := do
  let b ← if b.writableBytes < len then b.makeSpaceSized len else .ok b
  if len ≤ b.writableBytes then .ok b else .error .assertion

/-- The bytes copied behind the written ones, and `HasWritten`. -/
def written (b : Buffer) (str : Bytes) : Buffer :=
  ⟨b.buffer.take b.writePos ++ str ++ b.buffer.drop (b.writePos + str.length), b.readPos, b.writePos + str.length,
    by have := b.read_le; omega, by
      have := b.write_le
      simp only [List.length_append, List.length_take, List.length_drop]
      omega⟩

def append (b : Buffer) (str : Bytes) : Buffer := (b.ensureWriteable str.length).written str

def appendSized (b : Buffer) (str : Bytes) : Except Fault Buffer := do
  let b ← b.ensureWriteableSized str.length
  .ok (b.written str)

/-- `RetrieveUntil`, `stop` the position in the storage that is pointed to. -/
def retrieveUntil (b : Buffer) (stop : Nat) : Except Fault Buffer :=
  if b.readPos ≤ stop ∧ stop ≤ b.writePos then b.retrieve (stop - b.readPos) else .error .assertion

def retrieveAllToStr (b : Buffer) : Bytes × Buffer := (b.peek b.readableBytes, b.retrieveAll)

/-! ## System calls -/

/-- What `write` and `sendfile` return: an error, or a count of bytes, never more than
    they were given. -/
inductive SysRet where
  | fails (errno : Nat)
  | count (n : Nat)
  deriving DecidableEq, Repr

/-- The size of the array on the stack of `ReadFd`. -/
def stackSize : Nat := 65535

/-- What `readv` put into the storage behind the written bytes, up to its end. -/
def filled (b : Buffer) (data : Bytes) (h : ¬ data.length ≤ b.writableBytes) : Buffer :=
  ⟨b.buffer.take b.writePos ++ data.take b.writableBytes, b.readPos, b.buffer.length,
    by have := b.read_le; have := b.write_le; omega, by
      have := b.write_le
      simp only [writableBytes] at *
      simp only [List.length_append, List.length_take]
      omega⟩

/-- `ReadFd`, `data` what `readv` put into the storage behind the written bytes, and, when
    that is full, into the array; the result is the length. -/
def readFd (b : Buffer) : Except Nat Bytes → Buffer × Int
  | .error _ => (b, -1)
  | .ok data =>
    if h : data.length ≤ b.writableBytes then (b.written data, data.length)
    else ((b.filled data h).append (data.drop b.writableBytes), data.length)

def readFdSized (b : Buffer) : Except Nat Bytes → Except Fault Buffer
  | .error _ => .ok b
  | .ok data =>
    if h : data.length ≤ b.writableBytes then .ok (b.written data)
    else (b.filled data h).appendSized (data.drop b.writableBytes)

/-- `WriteFd`: the buffer, the length, and the bytes that `write` took. -/
def writeFd (b : Buffer) : SysRet → Buffer × Int × Bytes
  | .fails _ => (b, -1, [])
  | .count n =>
    (⟨b.buffer, b.readPos + min n b.readableBytes,
      b.writePos, by have := b.read_le; unfold readableBytes; omega, b.write_le⟩,
      (min n b.readableBytes : Nat), b.peek (min n b.readableBytes))

/-! ## The readable bytes are a queue -/

@[simp] theorem readable_empty : empty.readable = [] := rfl

@[simp] theorem readable_retrieveAll (b : Buffer) : b.retrieveAll.readable = [] := rfl

theorem readable_makeSpace (b : Buffer) (len : Nat) : (b.makeSpace len).readable = b.readable := by
  unfold makeSpace
  split
  · have := b.write_le
    simp only [readable, resize]
    rw [List.take_append_of_le_length (by simp; omega), List.take_take]
    congr 2
    omega
  · simp [readable]

theorem readable_ensureWriteable (b : Buffer) (len : Nat) : (b.ensureWriteable len).readable = b.readable := by
  unfold ensureWriteable
  split
  · exact readable_makeSpace b len
  · rfl

theorem readable_written (b : Buffer) (str : Bytes) : (b.written str).readable = b.readable ++ str := by
  have h1 := b.read_le
  have h2 := b.write_le
  simp only [written, readable]
  rw [List.take_left' (by simp; omega), List.drop_append_of_le_length (by simp; omega)]

@[simp] theorem readable_append (b : Buffer) (str : Bytes) : (b.append str).readable = b.readable ++ str := by
  rw [append, readable_written, readable_ensureWriteable]

theorem readable_filled (b : Buffer) {data : Bytes} (h : ¬ data.length ≤ b.writableBytes) :
    (b.filled data h).readable = b.readable ++ data.take b.writableBytes := by
  have hr := b.read_le
  have hw := b.write_le
  have h' : ¬ data.length ≤ b.buffer.length - b.writePos := h
  have hfull : (b.buffer.take b.writePos ++ data.take b.writableBytes).length = b.buffer.length := by
    simp only [List.length_append, List.length_take, writableBytes]
    omega
  simp only [readable, filled]
  rw [List.take_of_length_le hfull.le, List.drop_append_of_le_length (by simp; omega)]

theorem retrieve_of_le {b : Buffer} {len : Nat} (h : len ≤ b.readable.length) :
    ∃ b', b.retrieve len = .ok b' ∧ b'.readable = b.readable.drop len := by
  have hr := b.readable_length
  unfold retrieve
  rw [dif_pos (by omega)]
  split
  · exact ⟨_, rfl, by simp [readable, List.drop_drop]⟩
  · exact ⟨_, rfl, by simp [List.drop_eq_nil_of_le (show b.readable.length ≤ len by omega)]⟩

theorem peek_of_le {b : Buffer} {n : Nat} (h : n ≤ b.readable.length) : b.peek n = b.readable.take n := by
  rw [readable_length, readableBytes] at h
  have := b.write_le
  simp only [peek, readable, List.drop_take, List.take_take]
  congr 1
  omega

theorem peek_readable (b : Buffer) : b.peek b.readableBytes = b.readable := by
  rw [peek_of_le (by rw [readable_length]), ← readable_length, List.take_length]

/-! ## With the sums of `size_t` -/

/-- The vector need not grow, or can. -/
def Fits (b : Buffer) (len : Nat) : Prop :=
  b.writableBytes + b.prependableBytes < len → b.writePos + len + 1 ≤ maxSize

/-- Within the limit the sum is exact. -/
theorem makeSpaceSized_eq {b : Buffer} {len : Nat} (h : b.Fits len) : b.makeSpaceSized len = .ok (b.makeSpace len) := by
  unfold makeSpaceSized makeSpace
  by_cases hgrow : b.writableBytes + b.prependableBytes < len
  · have hsum := h hgrow
    have hsize : (b.writePos + len + 1) % 0x10000000000000000 = b.writePos + len + 1 :=
      Nat.mod_eq_of_lt (hsum.trans_lt (by decide))
    have hfit : ¬ maxSize < (b.writePos + len + 1) % 0x10000000000000000 := by omega
    simp only [if_pos hgrow, if_neg hfit]
    rw [dif_pos (by omega)]
    simp only [hsize]
  · simp only [if_neg hgrow]

theorem ensureWriteableSized_eq {b : Buffer} {len : Nat} (h : b.Fits len) :
    b.ensureWriteableSized len = .ok (b.ensureWriteable len) := by
  have hroom := b.ensureWriteable_room len
  unfold ensureWriteableSized
  unfold ensureWriteable at hroom ⊢
  by_cases hshort : b.writableBytes < len
  · rw [if_pos hshort] at hroom ⊢
    rw [if_pos hshort, makeSpaceSized_eq h]
    exact if_pos hroom
  · rw [if_neg hshort, if_neg hshort]
    exact if_pos (not_lt.mp hshort)

theorem readable_writeFd (b : Buffer) (n : Nat) :
    (b.writeFd (.count n)).1.readable = b.readable.drop (min n b.readableBytes) ∧
      (b.writeFd (.count n)).2.2 = b.readable.take (min n b.readableBytes) := by
  have hlen := b.readable_length
  refine ⟨?_, peek_of_le (by omega)⟩
  simp only [writeFd, readable, List.drop_drop]

end Buffer

end HahaWeb
