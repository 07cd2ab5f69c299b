/-
  HahaWeb.Json.JsonBuffer — `haha_json/jsonBuffer.h`, and `fromFile` and `toFile` of
  `json.cpp`.

  `readString` makes an array of as many bytes as the string has; `writeFile` writes the
  array as a C string, up to its first zero byte; `readFile` goes by the size of the file.
  Proved: what a file then holds (`writeFile_readString`), and that for no string this is
  the string, written without a read past the array (`saves_never`).

  Not modelled: a file that cannot be opened or written, and the reading position.
-/

import HahaWeb.Json.Print

namespace HahaWeb.Json

inductive BufferFault where
  /-- `std::bad_array_new_length`: an array shorter than the initializer `{0}`. -/
  | badArrayNewLength
  /-- The error `readFile` throws. -/
  | tooBig
  /-- A read past the end of the array. -/
  | outOfBounds
  deriving DecidableEq, Repr

/-- `sbuffer` is the array `sbuffer_` points to. -/
structure JsonBuffer where
  sbuffer : Option Bytes
  len : Nat

/-- The files there are, with their contents. -/
abbrev Files := Bytes → Option Bytes

namespace JsonBuffer

def maxSize : Int := 4 * 1000 * 1000

def new : JsonBuffer := ⟨none, 0⟩

/-- `readString`: `__len` is an `int`. -/
def readString (s : Bytes) : Except BufferFault JsonBuffer :=
  let len := toInt s.length
  if len < 1 then .error .badArrayNewLength else .ok ⟨some (s.take len.toNat), len.toNat⟩

def readFile (buffer : JsonBuffer) (files : Files) (filePath : Bytes) : Except BufferFault JsonBuffer :=
  (files filePath).elim (.ok buffer) fun content =>
    let fsz := toInt content.length
    if maxSize < fsz then .error .tooBig
    else if fsz < 0 then .error .badArrayNewLength
    else .ok ⟨some (content.take fsz.toNat ++ [0]), fsz.toNat⟩

/-- The C string at the start of an array. -/
def cString (array : Bytes) : Except BufferFault Bytes :=
  if 0 ∈ array then .ok (array.takeWhile (· != 0)) else .error .outOfBounds

/-- `writeFile`; without an array it leaves the files alone. -/
def writeFile (buffer : JsonBuffer) (files : Files) (filePath : Bytes) : Except BufferFault Files :=
  buffer.sbuffer.elim (.ok files) fun array =>
    (cString array).map fun text => Function.update files filePath (some text)

def toStringview (buffer : JsonBuffer) : Bytes := buffer.sbuffer.elim [] (·.take buffer.len)

end JsonBuffer

variable {D : Type} (S : Stod D)

/-- `fromFile`: the outcome of the parser, when there is a text for it. -/
def fromFile (files : Files) (filePath : Bytes) : Except BufferFault (Except Fault (Option (JsonNode D))) :=
  (JsonBuffer.new.readFile files filePath).map fun buffer => fromString S buffer.toStringview

/-- Putting a text in a buffer and that in a file; `toFile` does it with the text of a node. -/
def saveText (text : Bytes) (files : Files) (filePath : Bytes) : Except BufferFault Files := do
  let buffer ← JsonBuffer.readString text
  buffer.writeFile files filePath

def toFile (doubleText : D → Bytes) (js : JsonNode D) (files : Files) (filePath : Bytes) (fmter : JsonFormatType) :
    Except BufferFault Files :=
  saveText (toString doubleText fmter 0 js) files filePath

/-! ## What is written -/

/-- The text is written, every read being inside the array; the file holds it, and is read as it. -/
def Saves (text : Bytes) (files : Files) (filePath : Bytes) : Prop :=
  ∃ files', saveText text files filePath = .ok files' ∧ files' filePath = some text ∧
    fromFile S files' filePath = .ok (fromString S text)

theorem readString_ok {s : Bytes} (h0 : s ≠ []) (h : s.length < 2 ^ 31) :
    JsonBuffer.readString s = .ok ⟨some s, s.length⟩ := by
  have hpos := List.length_pos_iff.mpr h0
  unfold JsonBuffer.readString
  rw [toInt_of_lt h]
  dsimp only
  rw [if_neg (by omega), Int.toNat_natCast, List.take_length]

/-- The file holds the text up to its first zero byte; without one the array is read past
    its end. -/
theorem saveText_eq {s : Bytes} (h0 : s ≠ []) (h : s.length < 2 ^ 31) (files : Files) (filePath : Bytes) :
    saveText s files filePath = if 0 ∈ s
      then .ok (Function.update files filePath (some (s.takeWhile (· != 0)))) else .error .outOfBounds := by
  unfold saveText
  rw [readString_ok h0 h]
  show (JsonBuffer.cString s).map _ = _
  unfold JsonBuffer.cString
  split <;> rfl

theorem takeWhile_lt {array : Bytes} (h : 0 ∈ array) : (array.takeWhile (· != 0)).length < array.length := by
  refine Nat.lt_of_le_of_ne (List.takeWhile_prefix _).length_le fun heq => ?_
  have hself : array.takeWhile (· != 0) = array := (List.takeWhile_prefix _).eq_of_length heq
  rw [← hself] at h
  exact absurd (List.mem_takeWhile_imp h) (by decide)

theorem readString_array {s : Bytes} {buffer : JsonBuffer} (h : JsonBuffer.readString s = .ok buffer) :
    ∃ array, buffer.sbuffer = some array ∧ array.length ≤ s.length := by
  unfold JsonBuffer.readString at h
  dsimp only at h
  split at h
  · simp at h
  · exact ⟨_, by rw [← Except.ok.inj h], List.length_take_le' ..⟩

/-- What a file holds that was written is never the text. -/
theorem saveText_ne {s : Bytes} {files files' : Files} {filePath : Bytes} (h : saveText s files filePath = .ok files') :
    files' filePath ≠ some s := by
  intro hfile
  unfold saveText at h
  cases hb : JsonBuffer.readString s with
  | error f =>
    rw [hb] at h
    cases h
  | ok buffer =>
    obtain ⟨array, harray, hle⟩ := readString_array hb
    rw [hb] at h
    change buffer.sbuffer.elim _ _ = _ at h
    rw [harray, Option.elim_some, JsonBuffer.cString] at h
    split at h
    · rename_i hz
      have hlt := takeWhile_lt hz
      rw [← Except.ok.inj h] at hfile
      have htext : array.takeWhile (· != 0) = s := by simpa using hfile
      rw [htext] at hlt
      omega
    · cases h

/-- A text is never saved: the array is read past its end, or the file ends at a zero byte. -/
theorem saves_never (S : Stod D) (s : Bytes) (files : Files) (filePath : Bytes) : ¬ Saves S s files filePath := by
  intro h
  obtain ⟨files', hsave, hfile, -⟩ := h
  exact saveText_ne hsave hfile

theorem saves_null : ¬ ∀ (D : Type) (S : Stod D) (s : Bytes) (files : Files) (filePath : Bytes),
    (s.length : Int) ≤ JsonBuffer.maxSize → Saves S s files filePath := by
  intro h
  obtain ⟨files', hsave, -⟩ := h Unit ⟨fun _ => none, fun _ => none⟩ (lit "null") (fun _ => none) (lit "a") (by decide)
  rw [saveText_eq (by decide) (by decide), if_neg (by decide)] at hsave
  cases hsave

end HahaWeb.Json
