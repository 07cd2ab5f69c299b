/-
  HahaWeb.Log.LogAppender — `log/LogAppender`: the buffers of `FileAsyncLogAppender`.

  Four spare buffers go round between the threads that append and the one that flushes. An
  `append` is one step, under the lock; a `flush` has its assertions, the block under the
  lock, the trim to 25 buffers, one write for each buffer, and the refill of its spares. A
  buffer holds its records one behind the other, and a buffer written is its records in the
  file.

  The journal says what a log is for: what was appended and what each flush took, of which
  it keeps 25 buffers. Proved: in every run no assertion fails and no null pointer is used,
  and what is written and what is held are the records of the journal (`nothing_lost`). The
  invariant is that without a next buffer there is a full one.

  Not modelled: the level of a record and its formatting, which come before the lock (a
  `LogStream` has room for less than 4000 bytes), the notification, and the rolling of the
  file; `disk` is what the last `file_->flush()` brought there.
-/

import HahaWeb.Base.Bytes
import HahaWeb.Library.Labelled

namespace HahaWeb

namespace Log

/-! ## `log/LogUtil.h` -/

def kSmallBuffer : Nat := 4000

def kLargeBuffer : Nat := 4000 * 1000

def kbuffersMaxSize : Nat := 25

/-- `FixedBuffer<kLargeBuffer>`, the records that were put into `data_`. -/
structure FixedBuffer where
  records : List Bytes
  deriving DecidableEq, Repr

namespace FixedBuffer

def new : FixedBuffer := ⟨[]⟩

def length (b : FixedBuffer) : Nat := b.records.flatten.length

def avail (b : FixedBuffer) : Nat := kLargeBuffer - b.length

def append (b : FixedBuffer) (buf : Bytes) : FixedBuffer := if buf.length < b.avail then ⟨b.records ++ [buf]⟩ else b

def reset (_ : FixedBuffer) : FixedBuffer := new

theorem append_records {b : FixedBuffer} {r : Bytes} (h : r.length < b.avail) :
    (b.append r).records = b.records ++ [r] := by
  rw [append, if_pos h]

theorem append_new {r : Bytes} (h : r.length < kSmallBuffer) : (new.append r).records = [r] := by
  have havail : r.length < new.avail := h.trans (by decide)
  exact append_records havail

end FixedBuffer

/-! ## `FileAsyncLogAppender` -/

/-- A `unique_ptr`. -/
abbrev BufferPtr := Option FixedBuffer

def contents (p : BufferPtr) : List Bytes := p.elim [] (·.records)

/-- What is appended to the file: a record, or the message about buffers that were dropped. -/
inductive Entry where
  | record (r : Bytes)
  | dropped (n : Nat)
  deriving DecidableEq, Repr

/-- Where the log thread is in `flush`; an assertion that fails, or a null pointer used, aborts
    the program. -/
inductive Flush where
  | idle
  | entered
  | taken
  /-- In the loop over `buffersToWrite`, at this one. -/
  | writing (k : Nat)
  | aborted
  deriving DecidableEq, Repr

structure FileAsyncLogAppender where
  currentBuffer : BufferPtr
  nextBuffer : BufferPtr
  buffers : List BufferPtr
  newBuffer1 : BufferPtr
  newBuffer2 : BufferPtr
  buffersToWrite : List BufferPtr
  file : List Entry
  disk : List Entry
  flush : Flush
  deriving DecidableEq, Repr

namespace FileAsyncLogAppender

def new : FileAsyncLogAppender := ⟨some .new, some .new, [], some .new, some .new, [], [], [], .idle⟩

def abort (a : FileAsyncLogAppender) : FileAsyncLogAppender := { a with flush := .aborted }

/-- `append`, from the lock on. -/
def append (a : FileAsyncLogAppender) (logline : Bytes) : FileAsyncLogAppender :=
  a.currentBuffer.elim a.abort fun b =>
    if logline.length < b.avail then { a with currentBuffer := some (b.append logline) }
    else
      { a with
        buffers := a.buffers ++ [some b]
        currentBuffer := some ((a.nextBuffer.getD .new).append logline)
        nextBuffer := none }

/-- A pointer to an empty buffer: `p && p->length() == 0`. -/
def isSpare (p : BufferPtr) : Bool := p.any (·.length == 0)

/-- The assertions of `flush`. -/
def enter (a : FileAsyncLogAppender) : FileAsyncLogAppender :=
  if isSpare a.newBuffer1 && isSpare a.newBuffer2 && a.buffersToWrite.isEmpty then { a with flush := .entered }
  else a.abort

/-- The block under the lock. -/
def take (a : FileAsyncLogAppender) : FileAsyncLogAppender :=
  { a with
    currentBuffer := a.newBuffer1
    newBuffer1 := none
    buffersToWrite := a.buffers ++ [a.currentBuffer]
    buffers := a.buffersToWrite
    nextBuffer := a.nextBuffer.or a.newBuffer2
    newBuffer2 := if a.nextBuffer.isSome then a.newBuffer2 else none
    flush := .taken }

/-- `if (buffersToWrite.size() > kbuffersMaxSize)` -/
def trim (a : FileAsyncLogAppender) : FileAsyncLogAppender :=
  if a.buffersToWrite.isEmpty then a.abort
  else if kbuffersMaxSize < a.buffersToWrite.length then
    { a with
      file := a.file ++ [.dropped (a.buffersToWrite.length - kbuffersMaxSize)]
      buffersToWrite := a.buffersToWrite.take kbuffersMaxSize
      flush := .writing 0 }
  else { a with flush := .writing 0 }

/-- One round of the loop over `buffersToWrite`. -/
def write (a : FileAsyncLogAppender) (k : Nat) (hk : k < a.buffersToWrite.length) : FileAsyncLogAppender :=
  a.buffersToWrite[k].elim a.abort fun b =>
    { a with file := a.file ++ b.records.map .record, flush := .writing (k + 1) }

/-- `if (!newBuffer1)`: the spare and what is left of the buffers, `none` when there is no
    buffer, or a null one. -/
def refill (spare : BufferPtr) (bs : List BufferPtr) : Option (BufferPtr × List BufferPtr) :=
  if spare.isSome then some (spare, bs)
  else bs.getLast?.bind fun p => p.map fun b => (some b.reset, bs.dropLast)

/-- From `resize(2)` to the end of `flush`. -/
def finish (a : FileAsyncLogAppender) : FileAsyncLogAppender :=
  let bs := if 2 < a.buffersToWrite.length then a.buffersToWrite.take 2 else a.buffersToWrite
  (refill a.newBuffer1 bs).elim a.abort fun r1 =>
    (refill a.newBuffer2 r1.2).elim { a with newBuffer1 := r1.1 }.abort fun r2 =>
      { a with newBuffer1 := r1.1, newBuffer2 := r2.1, buffersToWrite := [], disk := a.file, flush := .idle }

/-- `AsyncLogAppender::empty` -/
def empty (a : FileAsyncLogAppender) : Bool := a.buffers.isEmpty

/-- `~FileAsyncLogAppender` -/
def destroy (a : FileAsyncLogAppender) : FileAsyncLogAppender := { a with disk := a.file }

/-! ## Runs -/

/-- What happens: a record is appended, or the log thread goes on in `flush`; `take` has the
    records of the buffers it took over. -/
inductive Label where
  | append (r : Bytes)
  | enter
  | take (bs : List (List Bytes))
  | trim
  | write
  | finish
  deriving DecidableEq, Repr

inductive Step : FileAsyncLogAppender → Label → FileAsyncLogAppender → Prop
  | append {a : FileAsyncLogAppender} {r : Bytes} : a.flush ≠ .aborted → r.length < kSmallBuffer →
      Step a (.append r) (a.append r)
  | enter {a : FileAsyncLogAppender} : a.flush = .idle → Step a .enter a.enter
  | take {a : FileAsyncLogAppender} : a.flush = .entered →
      Step a (.take ((a.buffers ++ [a.currentBuffer]).map contents)) a.take
  | trim {a : FileAsyncLogAppender} : a.flush = .taken → Step a .trim a.trim
  | write {a : FileAsyncLogAppender} {k : Nat} (hk : k < a.buffersToWrite.length) : a.flush = .writing k →
      Step a .write (a.write k hk)
  | finish {a : FileAsyncLogAppender} {k : Nat} : a.flush = .writing k → a.buffersToWrite.length ≤ k →
      Step a .finish a.finish

/-- The records written. -/
def written (a : FileAsyncLogAppender) : List Bytes :=
  a.file.flatMap fun
    | .record r => [r]
    | .dropped _ => []

/-- The buffers of a flush that are still to be written. -/
def unwritten (a : FileAsyncLogAppender) : List BufferPtr :=
  match a.flush with
  | .writing k => a.buffersToWrite.drop k
  | _ => a.buffersToWrite

/-- The records no flush has taken over. -/
def fresh (a : FileAsyncLogAppender) : List Bytes := a.buffers.flatMap contents ++ contents a.currentBuffer

end FileAsyncLogAppender

/-! ## The journal -/

/-- What a log is for: the records of earlier flushes, the buffers of the last one, and the
    records since. -/
structure Journal where
  older : List Bytes
  flush : List (List Bytes)
  fresh : List Bytes
  deriving DecidableEq, Repr

namespace Journal

def new : Journal := ⟨[], [], []⟩

def records (j : Journal) : List Bytes := j.older ++ j.flush.flatten ++ j.fresh

/-- A flush takes over the records there are, in some buffers, and keeps the first 25. -/
inductive Step : Journal → FileAsyncLogAppender.Label → Journal → Prop
  | append {j : Journal} {r : Bytes} : Step j (.append r) { j with fresh := j.fresh ++ [r] }
  | take {j : Journal} {bs : List (List Bytes)} : bs.flatten = j.fresh →
      Step j (.take bs) ⟨j.older ++ j.flush.flatten, bs, []⟩
  | trim {j : Journal} : Step j .trim { j with flush := j.flush.take kbuffersMaxSize }
  | enter {j : Journal} : Step j .enter j
  | write {j : Journal} : Step j .write j
  | finish {j : Journal} : Step j .finish j

end Journal

namespace FileAsyncLogAppender

def Label.appended : Label → List Bytes
  | .append r => [r]
  | _ => []

/-- No flush takes more than 25 buffers. -/
def Fits (as : List Label) : Prop := ∀ bs, .take bs ∈ as → bs.length ≤ kbuffersMaxSize

/-- When every flush fits, the journal has what was appended. -/
theorem journal_fits {as : List Label} {j j' : Journal} (h : Labelled.Run Journal.Step j as j') (hfits : Fits as)
    (hj : j.flush.length ≤ kbuffersMaxSize) : j'.records = j.records ++ as.flatMap Label.appended := by
  induction h with
  | nil => simp
  | cons hs _ ih =>
    have hrest := ih fun bs hbs => hfits bs (List.mem_cons_of_mem _ hbs)
    rw [List.flatMap_cons]
    cases hs with
    | append => simpa [Journal.records, Label.appended] using hrest hj
    | take hbs =>
      have h := hrest (hfits _ List.mem_cons_self)
      simpa [Journal.records, Label.appended, hbs] using h
    | trim =>
      have h := hrest (by simp [hj])
      rw [List.take_of_length_le hj] at h
      exact h
    | enter => exact hrest hj
    | write => exact hrest hj
    | finish => exact hrest hj

/-! ## The invariant -/

/-- Behind `take`: the first spare is in use, and the second is there or there are two buffers
    to get it back from. -/
structure Spent (newBuffer1 newBuffer2 : BufferPtr) (buffersToWrite : List BufferPtr) : Prop where
  first : newBuffer1 = none
  second : newBuffer2 = some .new ∨ newBuffer2 = none ∧ 2 ≤ buffersToWrite.length
  some : buffersToWrite ≠ []
  full : ∀ p ∈ buffersToWrite, p ≠ none

def Flushing (a : FileAsyncLogAppender) : Prop :=
  match a.flush with
  | .idle | .entered => a.newBuffer1 = some .new ∧ a.newBuffer2 = some .new ∧ a.buffersToWrite = []
  | .taken => Spent a.newBuffer1 a.newBuffer2 a.buffersToWrite
  | .writing k =>
    Spent a.newBuffer1 a.newBuffer2 a.buffersToWrite ∧ k ≤ a.buffersToWrite.length ∧
      a.buffersToWrite.length ≤ kbuffersMaxSize
  | .aborted => False

/-- Without a next buffer there is a full one, and where there is a full one the current one
    is not empty. -/
structure Inv (a : FileAsyncLogAppender) : Prop where
  current : a.currentBuffer ≠ none
  next : a.nextBuffer = none ∨ a.nextBuffer = some .new
  spare : a.nextBuffer = none → a.buffers ≠ []
  full : ∀ p ∈ a.buffers, p ≠ none
  fed : a.buffers ≠ [] → contents a.currentBuffer ≠ []
  flushing : Flushing a

theorem inv_new : Inv new := by
  refine ⟨by simp [new], .inr rfl, by simp [new], by simp [new], by simp [new], ?_⟩
  exact ⟨rfl, rfl, rfl⟩

/-- The record is the last one of those not taken; what the log thread has stays. -/
theorem append_spec {a : FileAsyncLogAppender} (hi : Inv a) {r : Bytes} (hr : r.length < kSmallBuffer) :
    Inv (a.append r) ∧ (a.append r).fresh = a.fresh ++ [r] ∧
      ∃ c n bs, a.append r = { a with currentBuffer := c, nextBuffer := n, buffers := bs } := by
  obtain ⟨b, hb⟩ := Option.ne_none_iff_exists'.mp hi.current
  have hnext : a.nextBuffer.getD .new = .new := by
    rcases hi.next with hn | hn <;> rw [hn] <;> rfl
  unfold append fresh
  rw [hb, Option.elim_some]
  by_cases hroom : r.length < b.avail
  · rw [if_pos hroom]
    have hrec := FixedBuffer.append_records hroom
    refine ⟨⟨by simp, hi.next, hi.spare, hi.full, fun _ => ?_, hi.flushing⟩, ?_, _, _, _, rfl⟩
    · simp [contents, hrec]
    · simp [contents, hrec]
  · rw [if_neg hroom, hnext]
    have hrec := FixedBuffer.append_new hr
    refine ⟨⟨by simp, .inl rfl, by simp, ?_, fun _ => ?_, hi.flushing⟩, ?_, _, _, _, rfl⟩
    · intro p hp
      rcases List.mem_append.mp hp with hp | hp
      · exact hi.full p hp
      · rw [List.mem_singleton.mp hp]
        simp
    · simp [contents, hrec]
    · simp [contents, hrec]

theorem enter_spec {a : FileAsyncLogAppender} (hi : Inv a) (hf : a.flush = .idle) :
    Inv a.enter ∧ a.enter = { a with flush := .entered } := by
  have hfl := hi.flushing
  rw [Flushing, hf] at hfl
  obtain ⟨h1, h2, hw⟩ := hfl
  have he : a.enter = { a with flush := .entered } := by
    unfold enter
    rw [h1, h2, hw, if_pos (by rfl)]
  exact ⟨he ▸ ⟨hi.current, hi.next, hi.spare, hi.full, hi.fed, h1, h2, hw⟩, he⟩

theorem take_inv {a : FileAsyncLogAppender} (hi : Inv a) (hf : a.flush = .entered) : Inv a.take := by
  have hfl := hi.flushing
  rw [Flushing, hf] at hfl
  obtain ⟨h1, h2, hw⟩ := hfl
  refine ⟨?_, ?_, ?_, ?_, ?_, rfl, ?_, ?_, ?_⟩
  · simp [take, h1]
  · rcases hi.next with hn | hn <;> simp [take, hn, h2]
  · rcases hi.next with hn | hn <;> simp [take, hn, h2]
  · simp [take, hw]
  · simp [take, hw]
  · -- the second spare goes to the next buffer only when that is missing, and then there is a full one
    rcases hi.next with hn | hn
    · right
      have hpos := List.length_pos_iff.mpr (hi.spare hn)
      simp only [take, hn, List.length_append, List.length_singleton]
      exact ⟨rfl, by omega⟩
    · left
      simp [take, hn, h2]
  · simp [take]
  · intro p hp
    simp only [take, List.mem_append, List.mem_singleton] at hp
    rcases hp with hp | hp
    · exact hi.full p hp
    · exact hp ▸ hi.current

/-- The trim leaves at most 25 buffers, and the two that are wanted. -/
theorem trim_inv {a : FileAsyncLogAppender} (hi : Inv a) (hf : a.flush = .taken) :
    Inv a.trim ∧ a.trim.flush = .writing 0 ∧ a.trim.buffersToWrite = a.buffersToWrite.take kbuffersMaxSize ∧
      a.trim.written = a.written ∧ a.trim.fresh = a.fresh := by
  have hfl := hi.flushing
  rw [Flushing, hf] at hfl
  have hne : a.buffersToWrite.isEmpty = false := by
    rw [Bool.eq_false_iff, Ne, List.isEmpty_iff]
    exact hfl.some
  unfold trim
  rw [hne, if_neg Bool.false_ne_true]
  by_cases hlarge : kbuffersMaxSize < a.buffersToWrite.length
  · rw [if_pos hlarge]
    have hlen : (a.buffersToWrite.take kbuffersMaxSize).length = 25 := by
      rw [List.length_take]
      exact Nat.min_eq_left hlarge.le
    refine ⟨⟨hi.current, hi.next, hi.spare, hi.full, hi.fed, ⟨hfl.first, ?_, ?_, ?_⟩, Nat.zero_le _, ?_⟩, rfl, rfl,
      ?_, rfl⟩
    · rcases hfl.second with h2 | ⟨h2, -⟩
      · exact .inl h2
      · exact .inr ⟨h2, by rw [hlen]; decide⟩
    · exact List.ne_nil_of_length_pos (by rw [hlen]; decide)
    · exact fun p hp => hfl.full p (List.mem_of_mem_take hp)
    · exact hlen.le
    · simp [written]
  · rw [if_neg hlarge, List.take_of_length_le (not_lt.mp hlarge)]
    refine ⟨⟨hi.current, hi.next, hi.spare, hi.full, hi.fed, hfl, Nat.zero_le _, not_lt.mp hlarge⟩, rfl, rfl, rfl, rfl⟩

theorem write_spec {a : FileAsyncLogAppender} (hi : Inv a) {k : Nat} (hf : a.flush = .writing k)
    (hk : k < a.buffersToWrite.length) :
    Inv (a.write k hk) ∧ (a.write k hk).flush = .writing (k + 1) ∧
      (a.write k hk).buffersToWrite = a.buffersToWrite ∧
      (a.write k hk).written = a.written ++ contents a.buffersToWrite[k] ∧ (a.write k hk).fresh = a.fresh := by
  have hfl := hi.flushing
  rw [Flushing, hf] at hfl
  obtain ⟨hspent, -, hmax⟩ := hfl
  obtain ⟨b, hb⟩ := Option.ne_none_iff_exists'.mp (hspent.full _ (List.getElem_mem hk))
  unfold write
  rw [hb, Option.elim_some]
  refine ⟨⟨hi.current, hi.next, hi.spare, hi.full, hi.fed, ?_⟩, rfl, rfl, ?_, rfl⟩
  · exact ⟨⟨hspent.first, hspent.second, hspent.some, hspent.full⟩, hk, hmax⟩
  · simp [written, contents, List.flatMap_map]

/-- A spare that is missing is got back from the last buffer. -/
theorem refill_spec {spare : BufferPtr} {bs : List BufferPtr} (hfull : ∀ p ∈ bs, p ≠ none)
    (hs : spare = some .new ∨ spare = none ∧ bs ≠ []) :
    refill spare bs = some (some .new, if spare.isSome then bs else bs.dropLast) := by
  unfold refill
  rcases hs with rfl | ⟨rfl, hne⟩
  · rfl
  · obtain ⟨b, hb⟩ := Option.ne_none_iff_exists'.mp (hfull _ (List.getLast_mem hne))
    rw [List.getLast?_eq_getLast_of_ne_nil hne, hb]
    rfl

theorem finish_spec {a : FileAsyncLogAppender} (hi : Inv a) {k : Nat} (hf : a.flush = .writing k) :
    Inv a.finish ∧ a.finish.flush = .idle ∧ a.finish.file = a.file ∧ a.finish.disk = a.file ∧
      a.finish.fresh = a.fresh := by
  have hfl := hi.flushing
  rw [Flushing, hf] at hfl
  obtain ⟨hspent, -, -⟩ := hfl
  let bs := if 2 < a.buffersToWrite.length then a.buffersToWrite.take 2 else a.buffersToWrite
  have hsub : ∀ p ∈ bs, p ≠ none := by
    intro p hp
    simp only [bs] at hp
    split at hp
    · exact hspent.full p (List.mem_of_mem_take hp)
    · exact hspent.full p hp
  have hlen : bs.length = min 2 a.buffersToWrite.length := by
    simp only [bs]
    split
    · rw [List.length_take]
    · omega
  have hpos := List.length_pos_iff.mpr hspent.some
  have h1 : refill a.newBuffer1 bs = some (some .new, bs.dropLast) := by
    rw [refill_spec hsub (.inr ⟨hspent.first, List.ne_nil_of_length_pos (by omega)⟩), hspent.first]
    rfl
  have h2 : ∃ bs', refill a.newBuffer2 bs.dropLast = some (some .new, bs') := by
    refine ⟨_, refill_spec (fun p hp => hsub p (List.mem_of_mem_dropLast hp)) ?_⟩
    rcases hspent.second with h2 | ⟨h2, htwo⟩
    · exact .inl h2
    · exact .inr ⟨h2, List.ne_nil_of_length_pos (by rw [List.length_dropLast]; omega)⟩
  obtain ⟨bs', h2⟩ := h2
  have he : a.finish = { a with
      newBuffer1 := some .new, newBuffer2 := some .new, buffersToWrite := [], disk := a.file, flush := .idle } := by
    unfold finish
    dsimp only
    rw [h1, Option.elim_some, h2, Option.elim_some]
  rw [he]
  exact ⟨⟨hi.current, hi.next, hi.spare, hi.full, hi.fed, rfl, rfl, rfl⟩, rfl, rfl, rfl, rfl⟩

theorem step_inv {a a' : FileAsyncLogAppender} {l : Label} (hi : Inv a) (h : Step a l a') : Inv a' := by
  cases h with
  | append _ hr => exact (append_spec hi hr).1
  | enter hf => exact (enter_spec hi hf).1
  | take hf => exact take_inv hi hf
  | trim hf => exact (trim_inv hi hf).1
  | write hk hf => exact (write_spec hi hf hk).1
  | finish hf => exact (finish_spec hi hf).1

theorem append_buffers {a : FileAsyncLogAppender} {r : Bytes} (h : a.buffers ≠ []) : (a.append r).buffers ≠ [] := by
  unfold append
  cases a.currentBuffer with
  | none => exact h
  | some b =>
    rw [Option.elim_some]
    split
    · exact h
    · simp

/-- A step of the log thread but the last one leaves it in `flush`. -/
theorem step_flushing {a a' : FileAsyncLogAppender} {l : Label} (hi : Inv a) (h : Step a l a') (hl : ∀ r, l ≠ .append r)
    (hlast : l ≠ .finish) : a'.flush ≠ .idle ∧ (a'.flush = .entered → a.flush = .idle ∧ a'.buffers = a.buffers) := by
  cases h with
  | append => exact absurd rfl (hl _)
  | enter hf =>
    obtain ⟨-, he⟩ := enter_spec hi hf
    rw [he]
    exact ⟨by simp, fun _ => ⟨hf, rfl⟩⟩
  | take => exact ⟨by simp [take], by simp [take]⟩
  | trim hf =>
    obtain ⟨-, hf', -⟩ := trim_inv hi hf
    rw [hf']
    exact ⟨by simp, by simp⟩
  | write hk hf =>
    obtain ⟨-, hf', -⟩ := write_spec hi hf hk
    rw [hf']
    exact ⟨by simp, by simp⟩
  | finish => exact absurd rfl hlast

/-! ## What is written and held -/

/-- How much of the journal's last flush is in the file. -/
def Written (a : FileAsyncLogAppender) (j : Journal) : Prop :=
  match a.flush with
  | .idle | .entered => a.written = j.older ++ j.flush.flatten
  | .taken => a.written = j.older ∧ a.buffersToWrite.map contents = j.flush
  | .writing k =>
    a.written = j.older ++ ((a.buffersToWrite.take k).map contents).flatten ∧ a.buffersToWrite.map contents = j.flush
  | .aborted => False

structure Keeps (a : FileAsyncLogAppender) (j : Journal) : Prop where
  inv : Inv a
  fresh : a.fresh = j.fresh
  written : Written a j

theorem keeps_new : Keeps new .new := ⟨inv_new, rfl, rfl⟩

theorem Keeps.records {a : FileAsyncLogAppender} {j : Journal} (h : Keeps a j) :
    a.written ++ a.unwritten.flatMap contents ++ a.fresh = j.records := by
  have hw := h.written
  have hfl := h.inv.flushing
  rw [h.fresh, Journal.records]
  congr 1
  unfold Written at hw
  unfold Flushing at hfl
  unfold unwritten
  cases hf : a.flush with
  | idle =>
    rw [hf] at hw hfl
    simpa [hfl.2.2] using hw
  | entered =>
    rw [hf] at hw hfl
    simpa [hfl.2.2] using hw
  | taken =>
    rw [hf] at hw
    rw [hw.1, ← hw.2, List.flatMap_def]
  | writing k =>
    rw [hf] at hw
    dsimp only
    rw [hw.1, ← hw.2, List.flatMap_def, List.append_assoc, ← List.flatten_append, ← List.map_append,
      List.take_append_drop]
  | aborted =>
    rw [hf] at hw
    exact hw.elim

/-- A step is one of the journal. -/
theorem step_keeps {a a' : FileAsyncLogAppender} {l : Label} {j : Journal} (hk : Keeps a j) (h : Step a l a') :
    ∃ j', Journal.Step j l j' ∧ Keeps a' j' := by
  obtain ⟨hi, hfresh, hw⟩ := hk
  cases h with
  | append _ hr =>
    obtain ⟨hi', hfresh', c, n, bs, he⟩ := append_spec hi hr
    refine ⟨_, .append, hi', by rw [hfresh', hfresh], ?_⟩
    rw [he]
    exact hw
  | enter hf =>
    obtain ⟨hi', he⟩ := enter_spec hi hf
    simp only [Written, hf] at hw
    rw [he] at hi' ⊢
    exact ⟨j, .enter, hi', hfresh, hw⟩
  | take hf =>
    have hfl := hi.flushing
    simp only [Flushing, hf] at hfl
    simp only [Written, hf] at hw
    refine ⟨_, .take ?_, take_inv hi hf, ?_, hw, rfl⟩
    · rw [← hfresh, fresh]
      simp [List.flatMap_def]
    · simp [fresh, take, hfl.1, hfl.2.2, contents, FixedBuffer.new]
  | trim hf =>
    obtain ⟨hi', hf', hto, hw', hfresh'⟩ := trim_inv hi hf
    simp only [Written, hf] at hw
    refine ⟨_, .trim, hi', hfresh'.trans hfresh, ?_⟩
    simp only [Written, hf', hw', hto]
    refine ⟨by simpa using hw.1, ?_⟩
    rw [← hw.2, List.map_take]
  | @write k hk hf =>
    obtain ⟨hi', hf', hto, hw', hfresh'⟩ := write_spec hi hf hk
    simp only [Written, hf] at hw
    refine ⟨j, .write, hi', hfresh'.trans hfresh, ?_⟩
    simp only [Written, hf', hto]
    refine ⟨?_, hw.2⟩
    rw [hw', hw.1, List.take_succ_eq_append_getElem hk, List.map_append, List.flatten_append, List.append_assoc]
    simp
  | @finish k hf hlast =>
    obtain ⟨hi', hf', hfile, -, hfresh'⟩ := finish_spec hi hf
    simp only [Written, hf, List.take_of_length_le hlast] at hw
    refine ⟨j, .finish, hi', hfresh'.trans hfresh, ?_⟩
    simp only [Written, hf']
    rw [written, hfile, ← hw.2]
    exact hw.1

/-- The records of the buffers that a flush takes and does not keep. -/
def Label.dropped : Label → List Bytes
  | .take bs => (bs.drop kbuffersMaxSize).flatten
  | _ => []

/-- The records that the next `trim` drops. -/
def excess (a : FileAsyncLogAppender) (j : Journal) : List Bytes :=
  if a.flush = .taken then (j.flush.drop kbuffersMaxSize).flatten else []

theorem excess_of_ne {a : FileAsyncLogAppender} {j : Journal} (h : a.flush ≠ .taken) : a.excess j = [] := if_neg h

/-- What is recorded, dropped or about to be dropped is what was appended. -/
theorem step_counts {a a' : FileAsyncLogAppender} {l : Label} {j j' : Journal} (hk : Keeps a j) (h : Step a l a')
    (hj : Journal.Step j l j') :
    j'.records.length + l.dropped.length + (a.excess j).length =
      j.records.length + l.appended.length + (a'.excess j').length := by
  cases h with
  | @append r _ hr =>
    cases hj
    obtain ⟨-, -, c, n, bs, he⟩ := append_spec hk.inv hr
    have hsame : (a.append r).excess { j with fresh := j.fresh ++ [r] } = a.excess j := by
      rw [he]
      rfl
    rw [hsame]
    simp [Journal.records, Label.dropped, Label.appended]
    omega
  | enter hf =>
    cases hj
    obtain ⟨-, he⟩ := enter_spec hk.inv hf
    rw [excess_of_ne (by rw [hf]; simp), excess_of_ne (by rw [he]; simp)]
    rfl
  | take hf =>
    cases hj with
    | take hbs =>
      rw [excess_of_ne (by rw [hf]; simp)]
      simp only [Journal.records, hbs, Label.dropped, Label.appended, excess, take, if_true, List.append_nil]
      omega
  | trim hf =>
    cases hj
    obtain ⟨-, hf', -⟩ := trim_inv hk.inv hf
    have hsplit := congrArg (fun l => l.flatten.length) (List.take_append_drop kbuffersMaxSize j.flush)
    have hbefore : a.excess j = (j.flush.drop kbuffersMaxSize).flatten := if_pos hf
    have hafter : a.trim.excess { j with flush := j.flush.take kbuffersMaxSize } = [] :=
      excess_of_ne (by rw [hf']; simp)
    rw [hbefore, hafter]
    simp only [List.flatten_append, List.length_append] at hsplit
    simp only [Journal.records, Label.dropped, Label.appended, List.length_append, List.length_nil]
    omega
  | write hk' hf =>
    cases hj
    obtain ⟨-, hf', -⟩ := write_spec hk.inv hf hk'
    rw [excess_of_ne (by rw [hf]; simp), excess_of_ne (by rw [hf']; simp)]
    rfl
  | finish hf hlast =>
    cases hj
    obtain ⟨-, hf', -⟩ := finish_spec hk.inv hf
    rw [excess_of_ne (by rw [hf]; simp), excess_of_ne (by rw [hf']; simp)]
    rfl

theorem run_counts {as : List Label} {a a' : FileAsyncLogAppender} (h : Labelled.Run Step a as a') :
    ∀ {j : Journal}, Keeps a j → ∃ j', Labelled.Run Journal.Step j as j' ∧ Keeps a' j' ∧
      j'.records.length + (as.flatMap Label.dropped).length + (a.excess j).length =
        j.records.length + (as.flatMap Label.appended).length + (a'.excess j').length := by
  induction h with
  | nil => exact fun hk => ⟨_, .nil _, hk, by simp⟩
  | cons hs _ ih =>
    intro j hk
    obtain ⟨j1, hj1, hk1⟩ := step_keeps hk hs
    obtain ⟨j', hj', hk', hcount⟩ := ih hk1
    have hone := step_counts hk hs hj1
    refine ⟨j', .cons hj1 hj', hk', ?_⟩
    rw [List.flatMap_cons, List.flatMap_cons, List.length_append, List.length_append]
    omega

/-- However the appends and the steps of `flush` follow each other: no assertion fails, the
    current buffer is there, and what is in the file, what a flush has still to write and
    what no flush has taken are the records of the journal; they are all the records
    appended when no flush takes more than 25 buffers. -/
theorem nothing_lost {as : List Label} {a : FileAsyncLogAppender} (h : Labelled.Run Step new as a) :
    a.flush ≠ .aborted ∧ a.currentBuffer ≠ none ∧
      (∃ j, Labelled.Run Journal.Step .new as j ∧
        a.written ++ a.unwritten.flatMap contents ++ a.buffers.flatMap contents ++ contents a.currentBuffer =
          j.records) ∧
      ((∀ bs, .take bs ∈ as → bs.length ≤ kbuffersMaxSize) →
        a.written ++ a.unwritten.flatMap contents ++ a.buffers.flatMap contents ++ contents a.currentBuffer =
          as.flatMap Label.appended) := by
  obtain ⟨j, hj, hk, -⟩ := run_counts h keeps_new
  have hrec := hk.records
  rw [fresh, ← List.append_assoc] at hrec
  refine ⟨fun hf => ?_, hk.inv.current, ⟨j, hj, hrec⟩, fun hfits => ?_⟩
  · have hfl := hk.inv.flushing
    simp only [Flushing, hf] at hfl
  · rw [hrec, journal_fits hj hfits (Nat.zero_le _)]
    rfl

/-- Two records, one appended while the log thread is in `flush`. -/
theorem nothing_lost_two : ∃ (as : List Label) (a : FileAsyncLogAppender),
    as.flatMap Label.appended = [lit "a", lit "b"] ∧ Labelled.Run Step new as a ∧ a.flush ≠ .aborted := by
  have hrun : Labelled.Run Step new
      [.append (lit "a"), .enter, .append (lit "b"), .take [[lit "a", lit "b"]], .trim]
      ((new.append (lit "a")).enter.append (lit "b")).take.trim := by
    apply Labelled.Run.cons (.append (by decide) (by decide))
    apply Labelled.Run.cons (.enter rfl)
    apply Labelled.Run.cons (.append (by decide) (by decide))
    apply Labelled.Run.cons (.take rfl)
    apply Labelled.Run.cons (.trim rfl)
    exact .nil _
  exact ⟨_, _, rfl, hrun, (nothing_lost hrun).1⟩

end FileAsyncLogAppender

end Log

end HahaWeb
