/-
  HahaWeb.Base.Fifo — a run of a `Buffer`, whatever is asked of it.

  `entered` is what came in and `left` what went out; the queue of bytes between them is
  the abstract buffer. An operation returns, or it throws `std::length_error` when the vector
  would be too large, or it fails an assertion or leaves the positions out of order. The sums
  are those of `size_t`. Proved: as long as every operation meets its condition the buffer is
  that queue, and the next operation leaves it one exactly when it meets its own (`fifo`):
  a buffer that is appended has storage, `EnsureWriteable` is not asked for so much that the
  sum wraps round, and what `ReadFd` has read into the array is not too much for the vector.
  Not modelled: the SSL calls.
-/

import HahaWeb.Base.Buffer
import HahaWeb.Library.Labelled

namespace HahaWeb.Buffer

/-- `retrieveUntil` is given the distance of its pointer from `Peek()`. -/
inductive Op where
  | append (str : Bytes)
  | appendBuffer (buff : Buffer)
  | ensureWriteable (len : Nat)
  | retrieve (len : Nat)
  | retrieveUntil (len : Nat)
  | retrieveAll
  | retrieveAllToStr
  | readFd (r : Except Nat Bytes)
  | writeFd (r : SysRet)

/-- `Append(const Buffer&)`: the pointer of a vector without storage is null. -/
def appendBuffer (b buff : Buffer) : Except Fault Buffer :=
  if buff.buffer = [] then .error .assertion else b.appendSized (buff.peek buff.readableBytes)

/-- An operation, with the bytes that leave the buffer. -/
def apply (b : Buffer) : Op → Except Fault (Bytes × Buffer)
  | .append str => (b.appendSized str).map ([], ·)
  | .appendBuffer buff => (b.appendBuffer buff).map ([], ·)
  | .ensureWriteable len => (b.ensureWriteableSized len).map ([], ·)
  | .retrieve len => (b.retrieve len).map (b.peek len, ·)
  | .retrieveUntil len => (b.retrieveUntil (b.readPos + len)).map (b.peek len, ·)
  | .retrieveAll => .ok (b.peek b.readableBytes, b.retrieveAll)
  | .retrieveAllToStr => .ok b.retrieveAllToStr
  | .readFd r => (b.readFdSized r).map ([], ·)
  | .writeFd r => .ok ((b.writeFd r).2.2, (b.writeFd r).1)

/-- The buffer behind an exception: `ReadFd` has advanced to the end of its storage. -/
def thrown (b : Buffer) : Op → Buffer
  | .readFd (.ok data) => if h : data.length ≤ b.writableBytes then b else b.filled data h
  | _ => b

/-- The lengths the caller may ask for, of which those of a range of bytes are a size in
    memory, and the results the kernel may give. -/
def Op.Allowed (b : Buffer) : Op → Prop
  | .append str => str.length ≤ maxSize
  | .appendBuffer buff => buff.buffer.length ≤ maxSize
  | .ensureWriteable len => len < 0x10000000000000000
  | .retrieve len => len ≤ b.readableBytes
  | .retrieveUntil len => len ≤ b.readableBytes
  | .readFd (.ok data) => data.length ≤ b.writableBytes + stackSize
  | .writeFd (.count n) => n ≤ b.readableBytes
  | _ => True

/-- The condition of an operation: storage, a sum that does not wrap round, and room for the
    bytes that were read into the array. -/
def Op.Meets (b : Buffer) : Op → Prop
  | .appendBuffer buff => buff.buffer ≠ []
  | .ensureWriteable len => b.writableBytes + b.prependableBytes < len → b.writePos + len + 1 < 0x10000000000000000
  | .readFd (.ok data) => data.length ≤ b.writableBytes + b.prependableBytes ∨
      b.buffer.length + (data.length - b.writableBytes) + 1 ≤ maxSize
  | _ => True

/-- What was called, whether it threw, and the bytes that left. -/
structure Event where
  op : Op
  threw : Bool
  out : Bytes

/-- A call and what it leaves; none when an assertion fails or the positions get out of order. -/
def serve (b : Buffer) (op : Op) : Option (Event × Buffer) :=
  match b.apply op with
  | .ok (out, b') => some (⟨op, false, out⟩, b')
  | .error .lengthError => some (⟨op, true, []⟩, b.thrown op)
  | .error _ => none

def Step (b : Buffer) (e : Event) (b' : Buffer) : Prop := e.op.Allowed b ∧ b.serve e.op = some (e, b')

/-! ## The queue -/

/-- What an operation puts in: an `Append` that throws nothing, a `ReadFd` what was read. -/
def Event.enters (e : Event) : Bytes :=
  match e.op with
  | .append str => if e.threw then [] else str
  | .appendBuffer buff => if e.threw then [] else buff.readable
  | .readFd (.ok data) => data
  | _ => []

/-- How much of a queue an operation takes out. -/
def Op.takes (q : Bytes) : Op → Nat
  | .retrieve len => len
  | .retrieveUntil len => len
  | .retrieveAll => q.length
  | .retrieveAllToStr => q.length
  | .writeFd (.count n) => n
  | _ => 0

/-- One step of a queue. -/
def Queue (q : Bytes) (e : Event) (q' : Bytes) : Prop :=
  e.op.takes q ≤ q.length ∧ e.out = q.take (e.op.takes q) ∧ q' = q.drop (e.op.takes q) ++ e.enters

def entered (es : List Event) : Bytes := es.flatMap Event.enters
def left (es : List Event) : Bytes := es.flatMap (·.out)

theorem queue_conserves {q q' : Bytes} {es : List Event} (h : Labelled.Run Queue q es q') :
    q ++ entered es = left es ++ q' := by
  refine h.conserves id Event.enters (·.out) fun q e q' hs => ?_
  obtain ⟨-, hout, rfl⟩ := hs
  rw [id, id, hout, ← List.append_assoc, List.take_append_drop]

/-- The operation is carried out as one of the queue. -/
def Serves (b : Buffer) (op : Op) : Prop := ∃ e b', b.serve op = some (e, b') ∧ Queue b.readable e b'.readable

/-! ## Sizes -/

/-- The vector is no larger than one can be. -/
def Sized (b : Buffer) : Prop := b.buffer.length ≤ maxSize

theorem written_length {b : Buffer} {str : Bytes} (h : str.length ≤ b.writableBytes) :
    (b.written str).buffer.length = b.buffer.length := by
  have hw := b.write_le
  unfold writableBytes at h
  simp only [written, List.length_append, List.length_take, List.length_drop]
  omega

theorem filled_length {b : Buffer} {data : Bytes} (h : ¬ data.length ≤ b.writableBytes) :
    (b.filled data h).buffer.length = b.buffer.length := by
  have hw := b.write_le
  unfold writableBytes at h
  simp only [filled, List.length_append, List.length_take, writableBytes]
  omega

theorem sized_ensureWriteable {b : Buffer} {len : Nat} (hb : Sized b) (h : b.Fits len) :
    Sized (b.ensureWriteable len) := by
  have hr := b.readable_length
  have hw := b.write_le
  unfold Sized readableBytes at *
  unfold ensureWriteable makeSpace
  split
  · split
    · rename_i hgrow
      rw [resize_length]
      exact h hgrow
    · simp only [List.length_append, List.length_drop]
      omega
  · exact hb

theorem retrieve_buffer {b b' : Buffer} {len : Nat} (h : b.retrieve len = .ok b') : b'.buffer = b.buffer := by
  unfold retrieve at h
  split at h
  · split at h
    · cases h
      rfl
    · cases h
      rfl
  · cases h

/-- What `EnsureWriteable` comes to: it makes the room, or the vector would be too large, or the
    sum wraps round. -/
theorem ensureWriteableSized_cases {b : Buffer} {len : Nat} (hb : Sized b) (hlen : len < 0x10000000000000000) :
    b.Fits len ∧ b.ensureWriteableSized len = .ok (b.ensureWriteable len) ∨
      ¬ b.Fits len ∧ b.writePos + len + 1 < 0x10000000000000000 ∧ b.ensureWriteableSized len = .error .lengthError ∨
      ¬ b.Fits len ∧ 0x10000000000000000 ≤ b.writePos + len + 1 ∧
        ∃ f, f ≠ .lengthError ∧ b.ensureWriteableSized len = .error f := by
  by_cases hfit : b.Fits len
  · exact .inl ⟨hfit, ensureWriteableSized_eq hfit⟩
  · have hw := b.write_le
    have hmax : maxSize = 0x7fffffffffffffff := rfl
    obtain ⟨hgrow, hlarge⟩ : b.writableBytes + b.prependableBytes < len ∧ maxSize < b.writePos + len + 1 := by
      simpa [Fits] using hfit
    have hshort : b.writableBytes < len := by omega
    unfold Sized at hb
    unfold ensureWriteableSized makeSpaceSized
    simp only [if_pos hshort, if_pos hgrow]
    by_cases hwrap : b.writePos + len + 1 < 0x10000000000000000
    · refine .inr (.inl ⟨hfit, hwrap, ?_⟩)
      rw [if_pos (by rwa [Nat.mod_eq_of_lt hwrap])]
      rfl
    · have hsize : (b.writePos + len + 1) % 0x10000000000000000 = b.writePos + len + 1 - 0x10000000000000000 := by omega
      refine .inr (.inr ⟨hfit, not_lt.mp hwrap, ?_⟩)
      rw [if_neg (by omega)]
      by_cases hpos : b.writePos ≤ (b.writePos + len + 1) % 0x10000000000000000
      · -- the vector ends at the write position
        refine ⟨.assertion, by simp, ?_⟩
        rw [dif_pos hpos]
        refine if_neg ?_
        simp only [writableBytes, resize_length]
        omega
      · refine ⟨.outOfRange, by simp, ?_⟩
        rw [dif_neg hpos]
        rfl

/-- What `Append` comes to: a range of bytes is too short for the sum to wrap round. -/
theorem appendSized_cases {b : Buffer} {str : Bytes} (hb : Sized b) (hstr : str.length ≤ maxSize) :
    b.Fits str.length ∧ b.appendSized str = .ok (b.append str) ∧ Sized (b.append str) ∨
      ¬ b.Fits str.length ∧ b.appendSized str = .error .lengthError := by
  have hw := b.write_le
  have hmax : maxSize = 0x7fffffffffffffff := rfl
  unfold Sized at hb
  unfold appendSized
  have hlen : str.length < 0x10000000000000000 := by omega
  rcases ensureWriteableSized_cases hb hlen with ⟨hfit, he⟩ | ⟨hfit, -, he⟩ | ⟨-, hwrap, -⟩
  · refine .inl ⟨hfit, by rw [he]; rfl, ?_⟩
    rw [Sized, append, written_length (b.ensureWriteable_room str.length)]
    exact sized_ensureWriteable hb hfit
  · exact .inr ⟨hfit, by rw [he]; rfl⟩
  · omega

/-! ## The buffer is the queue -/

theorem serve_ok {b b' : Buffer} {op : Op} {out : Bytes} (h : b.apply op = .ok (out, b')) :
    b.serve op = some (⟨op, false, out⟩, b') := by
  rw [serve, h]

theorem serve_throws {b : Buffer} {op : Op} (h : b.apply op = .error .lengthError) :
    b.serve op = some (⟨op, true, []⟩, b.thrown op) := by
  rw [serve, h]

theorem serve_fails {b : Buffer} {op : Op} {f : Fault} (h : b.apply op = .error f) (hf : f ≠ .lengthError) :
    b.serve op = none := by
  rw [serve, h]
  cases f with
  | lengthError => exact absurd rfl hf
  | _ => rfl

/-- A call that is carried out as one of the queue and keeps the size. -/
def Served (b : Buffer) (op : Op) : Prop :=
  ∃ e b', b.serve op = some (e, b') ∧ Sized b' ∧ Queue b.readable e b'.readable

theorem served_append {b : Buffer} {str : Bytes} {op : Op} (hb : Sized b) (hstr : str.length ≤ maxSize)
    (happ : b.apply op = (b.appendSized str).map ([], ·)) (htakes : op.takes b.readable = 0)
    (henters : ∀ threw, Event.enters ⟨op, threw, []⟩ = if threw then [] else str) (hthrown : b.thrown op = b) :
    Served b op := by
  rcases appendSized_cases hb hstr with ⟨-, he, hsized⟩ | ⟨-, he⟩
  · refine ⟨_, _, serve_ok (happ.trans (congrArg _ he)), hsized, ?_⟩
    exact ⟨by simp [htakes], by simp [htakes], by simp [htakes, henters]⟩
  · refine ⟨_, _, serve_throws (happ.trans (congrArg _ he)), hthrown.symm ▸ hb, ?_⟩
    exact ⟨by simp [htakes], by simp [htakes], by simp [htakes, henters, hthrown]⟩

theorem serve_readFd {b : Buffer} {data : Bytes} (hb : Sized b) (ha : (Op.readFd (.ok data)).Allowed b) :
    (Op.readFd (.ok data)).Meets b ∧ Served b (.readFd (.ok data)) ∨
      ¬ (Op.readFd (.ok data)).Meets b ∧ ¬ Serves b (.readFd (.ok data)) := by
  by_cases hfits : data.length ≤ b.writableBytes
  · have happ : b.apply (.readFd (.ok data)) = .ok ([], b.written data) := by
      rw [apply, readFdSized, dif_pos hfits]
      rfl
    refine .inl ⟨.inl (by omega), _, _, serve_ok happ, ?_, by simp [Op.takes], by simp [Op.takes], ?_⟩
    · rw [Sized, written_length hfits]
      exact hb
    · simp [Op.takes, Event.enters, readable_written]
  · have hread : b.readFdSized (.ok data) = (b.filled data hfits).appendSized (data.drop b.writableBytes) :=
      dif_neg hfits
    have hfilled : Sized (b.filled data hfits) := by
      rw [Sized, filled_length]
      exact hb
    have hrest : (data.drop b.writableBytes).length = data.length - b.writableBytes := List.length_drop
    -- behind the filled storage only the space in front is left
    have hfit : (b.filled data hfits).Fits (data.drop b.writableBytes).length ↔ (Op.readFd (.ok data)).Meets b := by
      have hlen := filled_length hfits
      have hwr : (b.filled data hfits).writableBytes = 0 := by
        rw [writableBytes, hlen]
        exact Nat.sub_self _
      have hpre : (b.filled data hfits).prependableBytes = b.prependableBytes := rfl
      have hpos : (b.filled data hfits).writePos = b.buffer.length := rfl
      rw [Fits, hwr, hpre, hpos, hrest, Op.Meets]
      omega
    have hsmall : (data.drop b.writableBytes).length ≤ maxSize := by
      have hle : data.length ≤ b.writableBytes + stackSize := ha
      have hstack : stackSize ≤ maxSize := by decide
      omega
    rcases appendSized_cases hfilled hsmall with ⟨hok, he, hsized⟩ | ⟨hbad, he⟩
    · have happ : b.apply (.readFd (.ok data)) = .ok ([], (b.filled data hfits).append (data.drop b.writableBytes)) :=
        congrArg (Except.map ([], ·)) (hread.trans he)
      refine .inl ⟨hfit.mp hok, _, _, serve_ok happ, hsized, by simp [Op.takes], by simp [Op.takes], ?_⟩
      simp [Op.takes, Event.enters, readable_filled]
    · have happ : b.apply (.readFd (.ok data)) = .error .lengthError :=
        congrArg (Except.map ([], ·)) (hread.trans he)
      refine .inr ⟨mt hfit.mpr hbad, fun h => ?_⟩
      obtain ⟨e, b', hserve, -, -, hq⟩ := h
      rw [serve_throws happ] at hserve
      cases hserve
      -- what is behind the storage has been read and is gone
      have hlost := congrArg List.length hq
      simp only [thrown, dif_neg hfits, readable_filled, Op.takes, Event.enters, List.drop_zero, List.length_append,
        List.length_take] at hlost
      omega

/-- An operation that is allowed is served, if it meets its condition; else it is none of the
    queue. -/
theorem serve_cases {b : Buffer} (hb : Sized b) {op : Op} (ha : op.Allowed b) :
    op.Meets b ∧ Served b op ∨ ¬ op.Meets b ∧ ¬ Serves b op := by
  have hlen := b.readable_length
  cases op with
  | append str => exact .inl ⟨trivial, served_append hb ha rfl rfl (fun _ => rfl) rfl⟩
  | appendBuffer buff =>
    by_cases hstored : buff.buffer = []
    · refine .inr ⟨fun h => h hstored, fun h => ?_⟩
      obtain ⟨e, b', he, -⟩ := h
      have happ : b.apply (.appendBuffer buff) = .error .assertion := by
        rw [apply, appendBuffer, if_pos hstored]
        rfl
      rw [serve_fails happ (by simp)] at he
      cases he
    · have hsize : buff.readable.length ≤ maxSize := by
        have hw := buff.write_le
        have hle : buff.buffer.length ≤ maxSize := ha
        rw [readable_length, readableBytes]
        omega
      have happ : b.apply (.appendBuffer buff) = (b.appendSized buff.readable).map ([], ·) := by
        rw [apply, appendBuffer, if_neg hstored, peek_readable]
      exact .inl ⟨hstored, served_append hb hsize happ rfl (fun _ => rfl) rfl⟩
  | ensureWriteable len =>
    rcases ensureWriteableSized_cases hb ha with ⟨hfit, he⟩ | ⟨-, hsum, he⟩ | ⟨hfit, hsum, f, hf, he⟩
    · refine .inl ⟨fun hgrow => (hfit hgrow).trans_lt (by decide), _, _,
        serve_ok (congrArg (Except.map ([], ·)) he), ?_, ?_⟩
      · exact sized_ensureWriteable hb hfit
      · exact ⟨by simp [Op.takes], by simp [Op.takes], by simp [Op.takes, Event.enters, readable_ensureWriteable]⟩
    · refine .inl ⟨fun _ => hsum, _, _, serve_throws (congrArg (Except.map ([], ·)) he), hb, ?_⟩
      exact ⟨by simp [Op.takes], by simp [Op.takes], by simp [Op.takes, Event.enters, thrown]⟩
    · refine .inr ⟨fun hmeets => hfit fun hgrow => absurd (hmeets hgrow) (not_lt.mpr hsum), fun h => ?_⟩
      obtain ⟨e, b', hserve, -⟩ := h
      have happ : b.apply (.ensureWriteable len) = .error f := congrArg (Except.map ([], ·)) he
      rw [serve_fails happ hf] at hserve
      cases hserve
  | retrieve len =>
    have hle : len ≤ b.readable.length := hlen ▸ ha
    obtain ⟨b', he, hr⟩ := retrieve_of_le hle
    refine .inl ⟨trivial, _, _, serve_ok (congrArg (Except.map (b.peek len, ·)) he), ?_, hle, peek_of_le hle, ?_⟩
    · rw [Sized, retrieve_buffer he]
      exact hb
    · simp [Op.takes, Event.enters, hr]
  | retrieveUntil len =>
    have hle : len ≤ b.readable.length := hlen ▸ ha
    obtain ⟨b', he, hr⟩ := retrieve_of_le hle
    have huntil : b.retrieveUntil (b.readPos + len) = .ok b' := by
      have hpos := b.read_le
      rw [hlen, readableBytes] at hle
      rw [retrieveUntil, if_pos ⟨by omega, by omega⟩, Nat.add_sub_cancel_left, he]
    refine .inl ⟨trivial, _, _, serve_ok (congrArg (Except.map (b.peek len, ·)) huntil), ?_, hle, peek_of_le hle, ?_⟩
    · rw [Sized, retrieve_buffer he]
      exact hb
    · simp [Op.takes, Event.enters, hr]
  | retrieveAll =>
    refine .inl ⟨trivial, _, _, serve_ok rfl, hb, Nat.le_refl _, ?_, ?_⟩
    · simp [Op.takes, peek_readable]
    · simp [Op.takes, Event.enters]
  | retrieveAllToStr =>
    refine .inl ⟨trivial, _, _, serve_ok rfl, hb, Nat.le_refl _, ?_, ?_⟩
    · simp [Op.takes, peek_readable]
    · simp [Op.takes, Event.enters]
  | readFd r =>
    cases r with
    | error e =>
      refine .inl ⟨trivial, _, _, serve_ok rfl, hb, by simp [Op.takes], by simp [Op.takes], ?_⟩
      simp [Op.takes, Event.enters]
    | ok data => exact serve_readFd hb ha
  | writeFd r =>
    cases r with
    | fails e =>
      refine .inl ⟨trivial, _, _, serve_ok rfl, hb, by simp [Op.takes], by simp [Op.takes, writeFd], ?_⟩
      simp [Op.takes, Event.enters, writeFd]
    | count n =>
      obtain ⟨hr, hout⟩ := b.readable_writeFd n
      have hn : min n b.readableBytes = n := Nat.min_eq_left ha
      rw [hn] at hr hout
      exact .inl ⟨trivial, _, _, serve_ok rfl, hb, hlen ▸ ha, hout, by simp [Op.takes, Event.enters, hr]⟩

/-! ## Runs -/

theorem served_step {b b' : Buffer} {e : Event} (hb : Sized b) (h : Step b e b') (hm : e.op.Meets b) :
    Sized b' ∧ Queue b.readable e b'.readable := by
  obtain ⟨ha, he⟩ := h
  rcases serve_cases hb ha with ⟨-, e', b'', he', hs, hq⟩ | ⟨hnot, -⟩
  · rw [he] at he'
    cases he'
    exact ⟨hs, hq⟩
  · exact absurd hm hnot

/-- As long as every operation meets its condition, the buffer is a queue of bytes with its
    positions in order; and the next one leaves it one exactly when it meets its own. -/
theorem fifo {initialSize : Nat} (hsize : initialSize ≤ maxSize) {es : List Event} {b : Buffer}
    (h : Labelled.Run (fun b e b' => Step b e b' ∧ e.op.Meets b) (new initialSize) es b) :
    (b.readPos ≤ b.writePos ∧ b.writePos ≤ b.buffer.length) ∧ entered es = left es ++ b.readable ∧
      ∀ op : Op, op.Allowed b → (Serves b op ↔ op.Meets b) := by
  have hnew : (new initialSize).readable = [] ∧ Sized (new initialSize) := by simp [new, readable, Sized, hsize]
  obtain ⟨q, hq, rfl, hb⟩ := h.simulates (R := fun b q => b.readable = q ∧ Sized b)
    (fun b e b' q hr hs => by
      obtain ⟨rfl, hb⟩ := hr
      obtain ⟨hb', hq⟩ := served_step hb hs.1 hs.2
      exact ⟨_, hq, rfl, hb'⟩) ⟨hnew.1, hnew.2⟩
  refine ⟨⟨b.read_le, b.write_le⟩, by simpa using queue_conserves hq, fun op ha => ?_⟩
  rcases serve_cases hb ha with ⟨hm, e, b', he, -, hq⟩ | ⟨hm, hnot⟩
  · exact iff_of_true ⟨e, b', he, hq⟩ hm
  · exact iff_of_false hnot hm

theorem fifo_three : ∃ b,
    Labelled.Run Step (new 2) [⟨.append (lit "abc"), false, []⟩, ⟨.retrieve 1, false, lit "a"⟩,
      ⟨.writeFd (.count 1), false, lit "b"⟩] b ∧
      lit "abc" = lit "ab" ++ b.readable ∧ Serves b (.readFd (.ok (lit "d"))) := by
  have hrun : Labelled.Run (fun b e b' => Step b e b' ∧ e.op.Meets b) (new 2) [⟨.append (lit "abc"), false, []⟩,
      ⟨.retrieve 1, false, lit "a"⟩, ⟨.writeFd (.count 1), false, lit "b"⟩] _ :=
    .cons ⟨⟨show 3 ≤ maxSize by decide, rfl⟩, trivial⟩ (.cons ⟨⟨show 1 ≤ 3 by decide, rfl⟩, trivial⟩
      (.cons ⟨⟨show 1 ≤ 2 by decide, rfl⟩, trivial⟩ (.nil _)))
  obtain ⟨-, hc, hnext⟩ := fifo (by decide) hrun
  exact ⟨_, hrun.mono fun _ _ _ h => h.1, hc,
    (hnext (.readFd (.ok (lit "d"))) (show 1 ≤ 1 + stackSize by decide)).mpr (.inl (by decide))⟩

/-- A buffer made without storage cannot be appended. -/
theorem append_null : ¬ ∀ (initialSize : Nat) (es : List Event) (b : Buffer), initialSize ≤ maxSize →
    Labelled.Run Step (new initialSize) es b → ∀ op : Op, op.Allowed b → Serves b op := by
  intro h
  obtain ⟨e, b', he, -⟩ := h 1024 [] _ (by decide) (.nil _) (.appendBuffer (new 0)) (Nat.zero_le _)
  cases he

end HahaWeb.Buffer
