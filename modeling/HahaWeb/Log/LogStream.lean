/-
  HahaWeb.Log.LogStream — `log/LogStream` and the `FixedBuffer` it writes into, byte by byte.

  The numbers are written into the buffer directly, behind one test for 48 bytes of room:
  the digits from the last to the first, the sign, a NUL behind them, and then the bytes
  are turned round. The table of digits is symmetric about its zero, so that the negative
  remainders of a negative number index it too and the number is never negated. Proved: in
  every sequence of insertions each one stays inside the buffer, and appends all of its
  rendering or, without the room, nothing; integers are written as their decimal numerals,
  pointers as upper-case hexadecimal ones (`inserts`).

  Not modelled: the insertion of floating-point numbers (`snprintf`) and `append`, which
  copies what its caller says.
-/

import HahaWeb.Base.HexNumber
import HahaWeb.Http.HttpResponse
import HahaWeb.Log.LogAppender

namespace HahaWeb

/-! ## Numerals -/

def digitsHex : Bytes := lit "0123456789ABCDEF"

def hexDigit (d : Nat) : UInt8 := digitsHex.getD d 0

/-- A numeral of `n` to the base `b`: no zero in front but the zero itself. -/
structure Numeral (b n : Nat) (s : Bytes) : Prop where
  ne_nil : s ≠ []
  digits : ∀ c ∈ s, c ∈ digitsHex.take b
  lead : s.head? = some 48 → s = [48]
  value : positional b s = n

/-- The digits of `n`, the last one first. -/
def digitsOf (b n : Nat) : Bytes := if n = 0 then [48] else (Nat.digits b n).map hexDigit

theorem hexDigit_spec {d : Nat} (h : d < 16) :
    digitValue (hexDigit d) = d ∧ (hexDigit d = 48 → d = 0) ∧ ∀ b, d < b → hexDigit d ∈ digitsHex.take b := by
  have hget : digitsHex[d]? = some (hexDigit d) := by
    interval_cases d <;> rfl
  refine ⟨?_, ?_, fun b hb => ?_⟩
  · interval_cases d <;> decide
  · interval_cases d <;> decide
  · exact List.mem_of_getElem? (by rw [List.getElem?_take_of_lt hb, hget])

theorem numeral_digitsOf {b : Nat} (h1 : 1 < b) (h16 : b ≤ 16) (n : Nat) : Numeral b n (digitsOf b n).reverse := by
  by_cases hn : n = 0
  · subst hn
    refine ⟨by simp [digitsOf], fun c hc => ?_, fun _ => rfl, by simp [digitsOf, positional, digitValue, isdigit]⟩
    obtain rfl : c = 48 := by simpa [digitsOf] using hc
    exact (hexDigit_spec (d := 0) (by omega)).2.2 b (by omega)
  · have hdigits : digitsOf b n = (Nat.digits b n).map hexDigit := by rw [digitsOf, if_neg hn]
    have hne : Nat.digits b n ≠ [] := Nat.digits_ne_nil_iff_ne_zero.mpr hn
    have hlt : ∀ d ∈ Nat.digits b n, d < b := fun d hd => Nat.digits_lt_base h1 hd
    rw [hdigits]
    refine ⟨by simpa using hne, fun c hc => ?_, fun hlead => ?_, ?_⟩
    · obtain ⟨d, hd, rfl⟩ := List.mem_map.mp (List.mem_reverse.mp hc)
      exact (hexDigit_spec (by have := hlt d hd; omega)).2.2 b (hlt d hd)
    · -- the digit in front is the last one, which is not zero
      rw [List.head?_reverse, List.getLast?_map, List.getLast?_eq_some_getLast hne, Option.map_some] at hlead
      have hlast := Nat.getLast_digit_ne_zero b hn
      have hmem := hlt _ (List.getLast_mem hne)
      exact absurd ((hexDigit_spec (by omega)).2.1 (Option.some.inj hlead)) hlast
    · rw [positional, List.reverse_reverse, List.map_map]
      have hvalue : (Nat.digits b n).map (digitValue ∘ hexDigit) = (Nat.digits b n).map id :=
        List.map_congr_left fun d hd => (hexDigit_spec (by have := hlt d hd; omega)).1
      rw [hvalue, List.map_id, Nat.ofDigits_digits]

theorem digitsOf_length {b k n : Nat} (h1 : 1 < b) (hk : 0 < k) (h : n < b ^ k) : (digitsOf b n).length ≤ k := by
  unfold digitsOf
  split
  · exact hk
  · rw [List.length_map, Nat.digits_length_le_iff h1]
    exact h

theorem digitsOf_cons {b n : Nat} (h1 : 1 < b) :
    digitsOf b n = hexDigit (n % b) :: if n / b = 0 then [] else digitsOf b (n / b) := by
  rcases Nat.eq_zero_or_pos n with rfl | hn
  · rw [digitsOf, if_pos rfl, Nat.zero_mod, Nat.zero_div, if_pos rfl]
    rfl
  · rw [digitsOf, if_neg (by omega), Nat.digits_def' h1 hn, List.map_cons]
    split
    · rename_i h0
      rw [h0, Nat.digits_zero, List.map_nil]
    · rename_i h0
      rw [digitsOf, if_neg h0]

namespace LogStream

/-! ## `FixedBuffer<kSmallBuffer>` -/

/-- `data_`, and `cur_` as its distance from there. -/
structure Buffer where
  data : Bytes
  cur : Nat
  size : data.length = Log.kSmallBuffer

namespace Buffer

/-- `FixedBuffer()`; nothing is written to `data_`. -/
def make (data : {data : Bytes // data.length = Log.kSmallBuffer}) : Buffer := ⟨data, 0, data.property⟩

def length (b : Buffer) : Int := toInt b.cur

def avail (b : Buffer) : Int := toInt (Log.kSmallBuffer - b.cur)

def add (b : Buffer) (len : Nat) : Buffer := { b with cur := b.cur + len }

def toStringView (b : Buffer) : Bytes := b.data.take b.cur

/-- `*p = c` -/
def poke (b : Buffer) (p : Nat) (c : UInt8) : Except Fault Buffer :=
  if p < b.data.length then .ok ⟨b.data.set p c, b.cur, by rw [List.length_set, b.size]⟩ else .error .outOfRange

/-- The bytes from `p` on replaced. -/
def overwrite (data : Bytes) (p : Nat) (bytes : Bytes) : Bytes := data.take p ++ bytes ++ data.drop (p + bytes.length)

theorem overwrite_length {data bytes : Bytes} {p : Nat} (h : p + bytes.length ≤ data.length) :
    (overwrite data p bytes).length = data.length := by
  simp only [overwrite, List.length_append, List.length_take, List.length_drop]
  omega

/-- `memcpy(p, bytes, bytes.size())` -/
def memcpy (b : Buffer) (p : Nat) (bytes : Bytes) : Except Fault Buffer :=
  if h : p + bytes.length ≤ b.data.length then .ok ⟨overwrite b.data p bytes, b.cur, by rw [overwrite_length h, b.size]⟩
  else .error .outOfRange

/-- `std::reverse(p, q)` -/
def reverse (b : Buffer) (p q : Nat) : Except Fault Buffer :=
  if h : p ≤ q ∧ q ≤ b.data.length then
    .ok ⟨overwrite b.data p ((b.data.take q).drop p).reverse, b.cur, by
      rw [overwrite_length (by simp only [List.length_reverse, List.length_drop, List.length_take]; omega), b.size]⟩
  else .error .outOfRange

def append (b : Buffer) (buf : Bytes) : Except Fault Buffer :=
  if buf.length < (b.avail % 2 ^ 64).toNat then do
    let b ← b.memcpy b.cur buf
    .ok (b.add buf.length)
  else .ok b

end Buffer

/-! ## The conversions -/

/-- An integer type of at most 64 bits, with the division of the language. -/
class Integral (T : Type) extends Div T, Mod T where
  ofNat : Nat → T
  toInt : T → Int
  toInt_div : ∀ (i : T) {d : Nat}, 0 < d → d ≤ 16 → toInt (i / ofNat d) = (toInt i).tdiv d
  toInt_mod : ∀ (i : T) {d : Nat}, d ≤ 16 → toInt (i % ofNat d) = (toInt i).tmod d
  natAbs_lt : ∀ i, (toInt i).natAbs < 2 ^ 64

instance : Integral Int32 where
  ofNat := Int32.ofNat
  toInt := Int32.toInt
  toInt_div i d h0 h16 := by
    have hd : (Int32.ofNat d).toInt = d := Int32.toInt_ofNat_of_lt (by omega)
    rw [Int32.toInt_div_of_ne_right, hd]
    intro h
    rw [h] at hd
    have hneg : (-1 : Int32).toInt = -1 := by decide
    omega
  toInt_mod i d h16 := by rw [Int32.toInt_mod, Int32.toInt_ofNat_of_lt (by omega)]
  natAbs_lt i := by
    have := i.le_toInt
    have := i.toInt_lt
    omega

instance : Integral Int64 where
  ofNat := Int64.ofNat
  toInt := Int64.toInt
  toInt_div i d h0 h16 := by
    have hd : (Int64.ofNat d).toInt = d := Int64.toInt_ofNat_of_lt (by omega)
    rw [Int64.toInt_div_of_ne_right, hd]
    intro h
    rw [h] at hd
    have hneg : (-1 : Int64).toInt = -1 := by decide
    omega
  toInt_mod i d h16 := by rw [Int64.toInt_mod, Int64.toInt_ofNat_of_lt (by omega)]
  natAbs_lt i := by
    have := i.le_toInt
    have := i.toInt_lt
    omega

instance : Integral UInt32 where
  ofNat := UInt32.ofNat
  toInt i := i.toNat
  toInt_div i d h0 h16 := by
    rw [UInt32.toNat_div, UInt32.toNat_ofNat_of_lt' (by simp only [UInt32.size]; omega)]
    rfl
  toInt_mod i d h16 := by
    rw [UInt32.toNat_mod, UInt32.toNat_ofNat_of_lt' (by simp only [UInt32.size]; omega)]
    rfl
  natAbs_lt i := by
    have := i.toNat_lt
    omega

instance : Integral UInt64 where
  ofNat := UInt64.ofNat
  toInt i := i.toNat
  toInt_div i d h0 h16 := by
    rw [UInt64.toNat_div, UInt64.toNat_ofNat_of_lt' (by simp only [UInt64.size]; omega)]
    rfl
  toInt_mod i d h16 := by
    rw [UInt64.toNat_mod, UInt64.toNat_ofNat_of_lt' (by simp only [UInt64.size]; omega)]
    rfl
  natAbs_lt i := i.toNat_lt

/-- `zero[lsd]`, with `zero = digits + 9`. -/
def zeroAt (lsd : Int) : Except Fault UInt8 :=
  if 0 ≤ 9 + lsd then charAt (lit "9876543210123456789") (9 + lsd).toNat else .error .outOfRange

/-- `digitsHex[lsd]` -/
def hexAt (lsd : Int) : Except Fault UInt8 := if 0 ≤ lsd then charAt digitsHex lsd.toNat else .error .outOfRange

section

variable {T : Type} [Integral T]

/-- The loop of both conversions, in at most as many rounds as there are bits. -/
def convertLoop (base : Nat) (digit : Int → Except Fault UInt8) : Nat → Buffer → Nat → T → Except Fault (Buffer × Nat)
  | 0, _, _, _ => .error .hang
  | rounds + 1, b, p, i => do
    let lsd := Integral.toInt (i % Integral.ofNat base)
    let i := i / Integral.ofNat base
    let b ← b.poke p (← digit lsd)
    if Integral.toInt i ≠ 0 then convertLoop base digit rounds b (p + 1) i else .ok (b, p + 1)

def convert (b : Buffer) (buf : Nat) (value : T) : Except Fault (Buffer × Nat) := do
  let (b, p) ← convertLoop 10 zeroAt 64 b buf value
  let (b, p) ← if Integral.toInt value < 0 then do .ok (← b.poke p 45, p + 1) else .ok (b, p)
  let b ← b.poke p 0
  let b ← b.reverse buf p
  .ok (b, p - buf)

def convertHex (b : Buffer) (buf : Nat) (value : UInt64) : Except Fault (Buffer × Nat) := do
  let (b, p) ← convertLoop 16 hexAt 64 b buf value
  let b ← b.poke p 0
  let b ← b.reverse buf p
  .ok (b, p - buf)

def kMaxNumericSize : Int := 48

def formatInteger (b : Buffer) (v : T) : Except Fault Buffer :=
  if kMaxNumericSize ≤ b.avail then do
    let (b', len) ← convert b b.cur v
    .ok (b'.add len)
  else .ok b

def formatPointer (b : Buffer) (v : UInt64) : Except Fault Buffer :=
  if kMaxNumericSize ≤ b.avail then do
    let b' ← b.poke b.cur 48
    let b' ← b'.poke (b.cur + 1) 120
    let (b', len) ← convertHex b' (b.cur + 2) v
    .ok (b'.add (len + 2))
  else .ok b

end

/-! ## `operator<<` -/

inductive Insertion where
  | bool (v : Bool)
  | char (v : UInt8)
  | short (v : Int16)
  | unsignedShort (v : UInt16)
  | int (v : Int32)
  | unsignedInt (v : UInt32)
  | long (v : Int64)
  | unsignedLong (v : UInt64)
  | longLong (v : Int64)
  | unsignedLongLong (v : UInt64)
  | pointer (p : UInt64)
  /-- `const char *`, the bytes with the NUL behind them; `none` for the null pointer. -/
  | cString (str : Option Bytes)
  /-- `std::string`, `std::string_view`, or another stream's buffer. -/
  | string (v : Bytes)
  deriving DecidableEq, Repr

def insert (b : Buffer) : Insertion → Except Fault Buffer
  | .bool v => b.append (if v then lit "1" else lit "0")
  | .char v => b.append [v]
  | .short v => formatInteger b v.toInt32
  | .unsignedShort v => formatInteger b v.toUInt32
  | .int v => formatInteger b v
  | .unsignedInt v => formatInteger b v
  | .long v => formatInteger b v
  | .unsignedLong v => formatInteger b v
  | .longLong v => formatInteger b v
  | .unsignedLongLong v => formatInteger b v
  | .pointer p => formatPointer b p
  | .cString (some str) => b.append (cStr str)
  | .cString none => b.append (lit "(null)")
  | .string v => b.append v

/-! ## What the insertions are for -/

/-- A minus and digits, without zeros in front. -/
def Decimal (v : Int) (s : Bytes) : Prop := ∃ ds, s = (if v < 0 then [45] else []) ++ ds ∧ Numeral 10 v.natAbs ds

/-- What an insertion is to append. -/
def Insertion.Renders : Insertion → Bytes → Prop
  | .bool v, s => s = if v then lit "1" else lit "0"
  | .char v, s => s = [v]
  | .short v, s => Decimal v.toInt s
  | .unsignedShort v, s => Decimal v.toNat s
  | .int v, s => Decimal v.toInt s
  | .unsignedInt v, s => Decimal v.toNat s
  | .long v, s => Decimal v.toInt s
  | .unsignedLong v, s => Decimal v.toNat s
  | .longLong v, s => Decimal v.toInt s
  | .unsignedLongLong v, s => Decimal v.toNat s
  | .pointer v, s => ∃ ds, s = lit "0x" ++ ds ∧ Numeral 16 v.toNat ds
  | .cString (some str), s => s = cStr str
  | .cString none, s => s = lit "(null)"
  | .string v, s => s = v

/-- The room that an insertion asks for: a text leaves a byte. -/
def Insertion.room : Insertion → Bytes → Nat
  | .bool _, s | .char _, s | .cString _, s | .string _, s => s.length + 1
  | .short _, _ | .unsignedShort _, _ | .int _, _ | .unsignedInt _, _ | .long _, _ | .unsignedLong _, _
  | .longLong _, _ | .unsignedLongLong _, _ | .pointer _, _ => 48

/-- The text with `s` behind it, where there is the room for it, and as it was otherwise. -/
def Grows (b : Buffer) (room : Nat) (s : Bytes) (b' : Buffer) : Prop :=
  if b.cur + room ≤ Log.kSmallBuffer then b'.toStringView = b.toStringView ++ s ∧ b'.cur = b.cur + s.length else b' = b

def decimalOf (v : Int) : Bytes := (if v < 0 then [45] else []) ++ (digitsOf 10 v.natAbs).reverse

def hexOf (n : Nat) : Bytes := lit "0x" ++ (digitsOf 16 n).reverse

def Insertion.rendering : Insertion → Bytes
  | .bool v => if v then lit "1" else lit "0"
  | .char v => [v]
  | .short v => decimalOf v.toInt
  | .unsignedShort v => decimalOf v.toNat
  | .int v => decimalOf v.toInt
  | .unsignedInt v => decimalOf v.toNat
  | .long v => decimalOf v.toInt
  | .unsignedLong v => decimalOf v.toNat
  | .longLong v => decimalOf v.toInt
  | .unsignedLongLong v => decimalOf v.toNat
  | .pointer p => hexOf p.toNat
  | .cString (some str) => cStr str
  | .cString none => lit "(null)"
  | .string v => v

theorem decimal_decimalOf (v : Int) : Decimal v (decimalOf v) :=
  ⟨_, rfl, numeral_digitsOf (by decide) (by decide) _⟩

theorem renders_rendering (i : Insertion) : i.Renders i.rendering := by
  cases i with
  | bool | char | string => rfl
  | cString str => cases str <;> rfl
  | pointer p => exact ⟨_, rfl, numeral_digitsOf (by decide) (by decide) _⟩
  | short | unsignedShort | int | unsignedInt | long | unsignedLong | longLong | unsignedLongLong =>
    exact decimal_decimalOf _

/-- What one insertion does to the buffer. -/
structure Inserts (b : Buffer) (i : Insertion) (b' : Buffer) : Prop where
  nonneg : 0 ≤ b'.length
  le : b'.length ≤ Log.kSmallBuffer
  whole : ∃ s, i.Renders s ∧ Grows b (i.room s) s b'

/-! ## Writing -/

/-- From `b` to `b'`, `bytes` have been written at `p`. -/
structure Wrote (b b' : Buffer) (p : Nat) (bytes : Bytes) : Prop where
  data : b'.data = Buffer.overwrite b.data p bytes
  cur : b'.cur = b.cur

theorem overwrite_behind {data xs : Bytes} {p : Nat} (h : p + xs.length ≤ data.length) (ys : Bytes) :
    Buffer.overwrite (Buffer.overwrite data p xs) (p + xs.length) ys = Buffer.overwrite data p (xs ++ ys) := by
  have hlen : (data.take p ++ xs).length = p + xs.length := by
    rw [List.length_append, List.length_take]
    omega
  rw [Buffer.overwrite, Buffer.overwrite, Buffer.overwrite, List.take_left' hlen, List.length_append,
    ← List.drop_drop, List.drop_left' hlen, List.drop_drop]
  simp [Nat.add_assoc]

theorem overwrite_take {data xs : Bytes} {p : Nat} (h : p ≤ data.length) (ys : Bytes) :
    (Buffer.overwrite data p (xs ++ ys)).take (p + xs.length) = data.take p ++ xs := by
  have hlen : (data.take p ++ xs).length = p + xs.length := by
    rw [List.length_append, List.length_take]
    omega
  rw [Buffer.overwrite, ← List.append_assoc, List.append_assoc (data.take p ++ xs), List.take_left' hlen]

theorem overwrite_front {data xs zs : Bytes} {p : Nat} (h : p ≤ data.length) (hlen : zs.length = xs.length)
    (ys : Bytes) :
    Buffer.overwrite (Buffer.overwrite data p (xs ++ ys)) p zs = Buffer.overwrite data p (zs ++ ys) := by
  have htake : (data.take p).length = p := List.length_take_of_le h
  have hsplit : Buffer.overwrite data p (xs ++ ys) =
      (data.take p ++ xs) ++ (ys ++ data.drop (p + (xs ++ ys).length)) := by
    simp [Buffer.overwrite]
  have hdrop : (Buffer.overwrite data p (xs ++ ys)).drop (p + zs.length) = ys ++ data.drop (p + (xs ++ ys).length) := by
    rw [hsplit, List.drop_left' (by rw [List.length_append, htake, hlen])]
  rw [Buffer.overwrite, hdrop, hsplit, List.append_assoc (data.take p), List.take_left' htake]
  simp [Buffer.overwrite, hlen]

theorem Wrote.append {b b' b'' : Buffer} {p : Nat} {xs ys : Bytes} (h : Wrote b b' p xs)
    (h' : Wrote b' b'' (p + xs.length) ys) (hroom : p + xs.length ≤ Log.kSmallBuffer) :
    Wrote b b'' p (xs ++ ys) := by
  refine ⟨?_, h'.cur.trans h.cur⟩
  rw [h'.data, h.data, overwrite_behind (by rw [b.size]; exact hroom)]

theorem poke_spec {b : Buffer} {p : Nat} (h : p < Log.kSmallBuffer) (c : UInt8) :
    ∃ b', b.poke p c = .ok b' ∧ Wrote b b' p [c] := by
  have hlt : p < b.data.length := by rw [b.size]; exact h
  refine ⟨⟨b.data.set p c, b.cur, _⟩, if_pos hlt, ?_, rfl⟩
  dsimp only
  rw [Buffer.overwrite, List.set_eq_take_append_cons_drop, if_pos hlt]
  simp

theorem reverse_spec {b b' : Buffer} {p : Nat} {xs ys : Bytes} (h : Wrote b b' p (xs ++ ys))
    (hroom : p + xs.length ≤ Log.kSmallBuffer) :
    ∃ b'', b'.reverse p (p + xs.length) = .ok b'' ∧ Wrote b b'' p (xs.reverse ++ ys) := by
  have hbounds : p ≤ p + xs.length ∧ p + xs.length ≤ b'.data.length :=
    ⟨Nat.le_add_right .., by rw [b'.size]; exact hroom⟩
  refine ⟨_, dif_pos hbounds, ?_, h.cur⟩
  have hp : p ≤ b.data.length := by rw [b.size]; omega
  have htake : (b.data.take p).length = p := List.length_take_of_le hp
  dsimp only
  rw [h.data, overwrite_take hp, List.drop_left' htake, overwrite_front hp List.length_reverse]

/-! ## The digits -/

section

variable {T : Type} [Integral T]

/-- The remainder has the sign of the number, and the table both signs. -/
theorem zeroAt_spec (i : T) :
    zeroAt (Integral.toInt (i % Integral.ofNat 10)) = .ok (hexDigit ((Integral.toInt i).natAbs % 10)) := by
  have habs := Int.natAbs_tmod (Integral.toInt i) 10
  rw [Integral.toInt_mod i (by decide), show ((10 : Nat) : Int) = 10 from rfl]
  generalize (Integral.toInt i).tmod 10 = lsd at habs
  rw [show Int.natAbs 10 = 10 from rfl] at habs
  rw [← habs]
  have hlt : lsd.natAbs < 10 := by omega
  have hlo : -9 ≤ lsd := by omega
  have hhi : lsd ≤ 9 := by omega
  interval_cases lsd <;> decide

theorem hexAt_spec (i : UInt64) :
    hexAt (Integral.toInt (i % Integral.ofNat 16)) = .ok (hexDigit ((Integral.toInt i).natAbs % 16)) := by
  have hmod : Integral.toInt (i % Integral.ofNat 16) = ((i.toNat % 16 : Nat) : Int) :=
    Integral.toInt_mod i (by decide)
  have habs : (Integral.toInt i).natAbs = i.toNat := rfl
  rw [hmod, habs]
  have hlt : i.toNat % 16 < 16 := Nat.mod_lt _ (by decide)
  generalize i.toNat % 16 = d at hlt
  interval_cases d <;> decide

section

variable {base : Nat} {digit : Int → Except Fault UInt8} (h1 : 1 < base) (h16 : base ≤ 16)
  (hdigit : ∀ i : T, digit (Integral.toInt (i % Integral.ofNat base)) =
    .ok (hexDigit ((Integral.toInt i).natAbs % base)))

include h1 h16 in
theorem natAbs_div (i : T) :
    (Integral.toInt (i / Integral.ofNat base)).natAbs = (Integral.toInt i).natAbs / base := by
  rw [Integral.toInt_div i (by omega) h16, Int.natAbs_tdiv]
  rfl

include h1 h16 hdigit

/-- One round writes the last digit, and goes on with the others. -/
theorem convertLoop_round (rounds : Nat) {b : Buffer} {p : Nat} (i : T) (hp : p < Log.kSmallBuffer) :
    ∃ b', Wrote b b' p [hexDigit ((Integral.toInt i).natAbs % base)] ∧
      convertLoop base digit (rounds + 1) b p i =
        if (Integral.toInt i).natAbs / base = 0 then .ok (b', p + 1)
        else convertLoop base digit rounds b' (p + 1) (i / Integral.ofNat base) := by
  obtain ⟨b', hpoke, hwrote⟩ := poke_spec (b := b) hp (hexDigit ((Integral.toInt i).natAbs % base))
  refine ⟨b', hwrote, ?_⟩
  have hzero : Integral.toInt (i / Integral.ofNat base) ≠ 0 ↔ ¬ (Integral.toInt i).natAbs / base = 0 := by
    rw [← natAbs_div h1 h16 i, Int.natAbs_eq_zero]
  rw [convertLoop]
  simp only [hdigit i, bind, Except.bind, hpoke, hzero, ite_not]

theorem convertLoop_spec (rounds : Nat) : ∀ (b : Buffer) (p : Nat) (i : T),
    (Integral.toInt i).natAbs < base ^ (rounds + 1) →
    p + (digitsOf base (Integral.toInt i).natAbs).length ≤ Log.kSmallBuffer →
    ∃ b', convertLoop base digit (rounds + 1) b p i =
      .ok (b', p + (digitsOf base (Integral.toInt i).natAbs).length) ∧
      Wrote b b' p (digitsOf base (Integral.toInt i).natAbs) := by
  induction rounds with
  | zero =>
    intro b p i hlt hroom
    have hstop : (Integral.toInt i).natAbs / base = 0 := Nat.div_eq_of_lt (by simpa using hlt)
    rw [digitsOf_cons h1, if_pos hstop] at hroom ⊢
    obtain ⟨b', hwrote, hloop⟩ := convertLoop_round h1 h16 hdigit 0 (b := b) i (Nat.lt_of_succ_le hroom)
    rw [if_pos hstop] at hloop
    exact ⟨b', hloop, hwrote⟩
  | succ rounds ih =>
    intro b p i hlt hroom
    rw [digitsOf_cons h1, List.length_cons] at hroom
    obtain ⟨b', hwrote, hloop⟩ := convertLoop_round h1 h16 hdigit (rounds + 1) (b := b) (p := p) i (by omega)
    rw [digitsOf_cons h1]
    by_cases hstop : (Integral.toInt i).natAbs / base = 0
    · rw [if_pos hstop] at hloop ⊢
      exact ⟨b', hloop, hwrote⟩
    · rw [if_neg hstop] at hloop hroom ⊢
      have hrest := natAbs_div h1 h16 i
      have hless : (Integral.toInt (i / Integral.ofNat base)).natAbs < base ^ (rounds + 1) := by
        rw [hrest]
        exact Nat.div_lt_of_lt_mul (by rw [← Nat.pow_succ']; exact hlt)
      obtain ⟨b'', hloop', hwrote'⟩ := ih b' (p + 1) _ hless (by rw [hrest]; omega)
      rw [hrest] at hloop' hwrote'
      refine ⟨b'', ?_, hwrote.append hwrote' ?_⟩
      · rw [hloop, hloop', List.length_cons]
        congr 2
        omega
      · rw [List.length_singleton]
        omega

end

end

/-! ## The insertions -/

/-- A NUL behind the number, and the number turned round. -/
theorem finish_spec {b b' : Buffer} {p : Nat} {xs : Bytes} (h : Wrote b b' p xs)
    (hroom : p + xs.length < Log.kSmallBuffer) :
    ∃ c d, b'.poke (p + xs.length) 0 = .ok c ∧ c.reverse p (p + xs.length) = .ok d ∧
      Wrote b d p (xs.reverse ++ [0]) := by
  obtain ⟨c, hpoke, hwrote⟩ := poke_spec (b := b') hroom 0
  obtain ⟨d, hreverse, hwrote'⟩ := reverse_spec (h.append hwrote (by omega)) (by omega)
  exact ⟨c, d, hpoke, hreverse, hwrote'⟩

theorem decimalOf_length {v : Int} (h : v.natAbs < 2 ^ 64) : (decimalOf v).length ≤ 21 := by
  have hlen : (digitsOf 10 v.natAbs).length ≤ 20 := digitsOf_length (by decide) (by decide) (h.trans (by decide))
  rw [decimalOf, List.length_append, List.length_reverse]
  split
  · rw [List.length_singleton]
    omega
  · rw [List.length_nil]
    omega

theorem convert_spec {T : Type} [Integral T] {b : Buffer} {buf : Nat} (v : T) (hroom : buf + 48 ≤ Log.kSmallBuffer) :
    ∃ b', convert b buf v = .ok (b', (decimalOf (Integral.toInt v)).length) ∧
      Wrote b b' buf (decimalOf (Integral.toInt v) ++ [0]) := by
  have hlt : (Integral.toInt v).natAbs < 2 ^ 64 := Integral.natAbs_lt v
  have hlen := decimalOf_length hlt
  rw [decimalOf, List.length_append, List.length_reverse] at hlen
  obtain ⟨b', hloop, hwrote⟩ := convertLoop_spec (by decide) (by decide) zeroAt_spec 63 b buf v
    (hlt.trans (by decide)) (by omega)
  by_cases hneg : Integral.toInt v < 0
  · rw [if_pos hneg, List.length_singleton] at hlen
    obtain ⟨c, hminus, hsign⟩ := poke_spec (b := b') (p := buf + (digitsOf 10 (Integral.toInt v).natAbs).length)
      (by omega) 45
    have hboth := hwrote.append hsign (by omega)
    have hend : buf + (digitsOf 10 (Integral.toInt v).natAbs).length + 1 =
        buf + (digitsOf 10 (Integral.toInt v).natAbs ++ [45]).length := by
      rw [List.length_append, List.length_singleton, Nat.add_assoc]
    obtain ⟨d, e, hnul, hreverse, hdone⟩ := finish_spec hboth (by omega)
    have htext : (digitsOf 10 (Integral.toInt v).natAbs ++ [45]).reverse = decimalOf (Integral.toInt v) := by
      rw [decimalOf, if_pos hneg, List.reverse_append]
      rfl
    rw [htext] at hdone
    refine ⟨e, ?_, hdone⟩
    simp only [convert, hloop, bind, Except.bind, if_pos hneg, hminus, hend, hnul, hreverse, ← htext,
      List.length_reverse, Nat.add_sub_cancel_left]
  · obtain ⟨d, e, hnul, hreverse, hdone⟩ := finish_spec hwrote (by omega)
    have htext : (digitsOf 10 (Integral.toInt v).natAbs).reverse = decimalOf (Integral.toInt v) := by
      rw [decimalOf, if_neg hneg]
      rfl
    rw [htext] at hdone
    refine ⟨e, ?_, hdone⟩
    simp only [convert, hloop, bind, Except.bind, if_neg hneg, hnul, hreverse, ← htext, List.length_reverse,
      Nat.add_sub_cancel_left]

theorem hexDigits_length (v : UInt64) : (digitsOf 16 v.toNat).reverse.length ≤ 16 := by
  rw [List.length_reverse]
  exact digitsOf_length (by decide) (by decide) (v.toNat_lt.trans_eq (by decide))

theorem convertHex_spec {b : Buffer} {buf : Nat} (v : UInt64) (hroom : buf + 46 ≤ Log.kSmallBuffer) :
    ∃ b', convertHex b buf v = .ok (b', (digitsOf 16 v.toNat).reverse.length) ∧
      Wrote b b' buf ((digitsOf 16 v.toNat).reverse ++ [0]) := by
  have hlen := hexDigits_length v
  rw [List.length_reverse] at hlen
  have habs : (Integral.toInt v).natAbs = v.toNat := rfl
  obtain ⟨b', hloop, hwrote⟩ := convertLoop_spec (by decide) (by decide) hexAt_spec 63 b buf v
    ((Integral.natAbs_lt v).trans (by decide)) (by rw [habs]; omega)
  rw [habs] at hloop hwrote
  obtain ⟨d, e, hnul, hreverse, hdone⟩ := finish_spec hwrote (by omega)
  refine ⟨e, ?_, hdone⟩
  simp only [convertHex, hloop, bind, Except.bind, hnul, hreverse, List.length_reverse, Nat.add_sub_cancel_left]

/-- While the length is in bounds it is what it says, and so is the room. -/
theorem avail_eq {b : Buffer} (h : b.cur ≤ Log.kSmallBuffer) :
    b.avail = ((Log.kSmallBuffer - b.cur : Nat) : Int) ∧ b.length = b.cur := by
  have hsize : Log.kSmallBuffer = 4000 := rfl
  refine ⟨?_, toInt_of_lt (by omega)⟩
  rw [Buffer.avail, ← Nat.cast_sub h]
  exact toInt_of_lt (by omega)

/-- The bytes up to the new length, when what was written begins at the old one. -/
theorem Wrote.grows {b b' : Buffer} {s rest : Bytes} (h : Wrote b b' b.cur (s ++ rest))
    (hcur : b.cur ≤ Log.kSmallBuffer) :
    (b'.add s.length).toStringView = b.toStringView ++ s ∧ (b'.add s.length).cur = b.cur + s.length := by
  refine ⟨?_, congrArg (· + s.length) h.cur⟩
  have htake : b'.data.take (b'.cur + s.length) = b.data.take b.cur ++ s := by
    rw [h.data, h.cur, overwrite_take (by rw [b.size]; exact hcur)]
  exact htake

theorem append_spec {b : Buffer} (hcur : b.cur ≤ Log.kSmallBuffer) (s : Bytes) :
    ∃ b', b.append s = .ok b' ∧ Grows b (s.length + 1) s b' := by
  have havail : (b.avail % 2 ^ 64).toNat = Log.kSmallBuffer - b.cur := by
    have hsize : Log.kSmallBuffer = 4000 := rfl
    rw [(avail_eq hcur).1]
    omega
  rw [Buffer.append, havail]
  by_cases hroom : b.cur + (s.length + 1) ≤ Log.kSmallBuffer
  · have hfits : b.cur + s.length ≤ b.data.length := by rw [b.size]; omega
    have hsize := (Buffer.overwrite_length hfits).trans b.size
    have hwrote : Wrote b ⟨Buffer.overwrite b.data b.cur s, b.cur, hsize⟩ b.cur (s ++ []) :=
      ⟨by rw [List.append_nil], rfl⟩
    rw [if_pos (by omega), Buffer.memcpy, dif_pos hfits]
    refine ⟨_, rfl, ?_⟩
    rw [Grows, if_pos hroom]
    exact hwrote.grows hcur
  · rw [if_neg (by omega)]
    exact ⟨b, rfl, by rw [Grows, if_neg hroom]⟩

/-- The test for the room of a number. -/
theorem numeric_iff {b : Buffer} (hcur : b.cur ≤ Log.kSmallBuffer) :
    kMaxNumericSize ≤ b.avail ↔ b.cur + 48 ≤ Log.kSmallBuffer := by
  rw [(avail_eq hcur).1, kMaxNumericSize]
  omega

theorem formatInteger_spec {T : Type} [Integral T] {b : Buffer} (hcur : b.cur ≤ Log.kSmallBuffer) (v : T) :
    ∃ b', formatInteger b v = .ok b' ∧ Grows b 48 (decimalOf (Integral.toInt v)) b' := by
  by_cases hroom : b.cur + 48 ≤ Log.kSmallBuffer
  · obtain ⟨b', hconvert, hwrote⟩ := convert_spec v hroom
    refine ⟨b'.add (decimalOf (Integral.toInt v)).length, ?_, ?_⟩
    · rw [formatInteger, if_pos ((numeric_iff hcur).mpr hroom), hconvert]
      rfl
    · rw [Grows, if_pos hroom]
      exact hwrote.grows hcur
  · rw [formatInteger, if_neg ((numeric_iff hcur).not.mpr hroom)]
    exact ⟨b, rfl, by rw [Grows, if_neg hroom]⟩

theorem formatPointer_spec {b : Buffer} (hcur : b.cur ≤ Log.kSmallBuffer) (v : UInt64) :
    ∃ b', formatPointer b v = .ok b' ∧ Grows b 48 (hexOf v.toNat) b' := by
  by_cases hroom : b.cur + 48 ≤ Log.kSmallBuffer
  · obtain ⟨c, hzero, hwrote0⟩ := poke_spec (b := b) (p := b.cur) (by omega) 48
    obtain ⟨d, hx, hwrote1⟩ := poke_spec (b := c) (p := b.cur + 1) (by omega) 120
    have hhex : b.cur + 2 + 46 ≤ Log.kSmallBuffer := by omega
    obtain ⟨e, hconvert, hwrote2⟩ := convertHex_spec (b := d) v hhex
    have hprefix := hwrote0.append hwrote1 (by rw [List.length_singleton]; omega)
    have hall : Wrote b e b.cur (hexOf v.toNat ++ [0]) := by
      have := hprefix.append hwrote2 (by simp only [List.length_append, List.length_singleton]; omega)
      rw [hexOf, List.append_assoc]
      exact this
    have hlen : (digitsOf 16 v.toNat).reverse.length + 2 = (hexOf v.toNat).length := by
      rw [hexOf, List.length_append, Nat.add_comm]
      rfl
    refine ⟨e.add (hexOf v.toNat).length, ?_, ?_⟩
    · rw [formatPointer, if_pos ((numeric_iff hcur).mpr hroom)]
      simp only [hzero, bind, Except.bind, hx, hconvert, hlen]
    · rw [Grows, if_pos hroom]
      exact hall.grows hcur
  · rw [formatPointer, if_neg ((numeric_iff hcur).not.mpr hroom)]
    exact ⟨b, rfl, by rw [Grows, if_neg hroom]⟩

theorem insert_spec {b : Buffer} (hcur : b.cur ≤ Log.kSmallBuffer) (i : Insertion) :
    ∃ b', insert b i = .ok b' ∧ Grows b (i.room i.rendering) i.rendering b' := by
  cases i with
  | bool v => exact append_spec hcur _
  | char v => exact append_spec hcur _
  | string v => exact append_spec hcur _
  | cString str => cases str <;> exact append_spec hcur _
  | pointer p => exact formatPointer_spec hcur p
  | short v =>
    have hspec := formatInteger_spec hcur v.toInt32
    rw [show Integral.toInt v.toInt32 = v.toInt from Int16.toInt_toInt32 v] at hspec
    exact hspec
  | unsignedShort v => exact formatInteger_spec hcur v.toUInt32
  | int v => exact formatInteger_spec hcur v
  | unsignedInt v => exact formatInteger_spec hcur v
  | long v => exact formatInteger_spec hcur v
  | unsignedLong v => exact formatInteger_spec hcur v
  | longLong v => exact formatInteger_spec hcur v
  | unsignedLongLong v => exact formatInteger_spec hcur v

theorem rendering_le_room (i : Insertion) : i.rendering.length ≤ i.room i.rendering := by
  have hdecimal : ∀ {v : Int}, v.natAbs < 2 ^ 64 → (decimalOf v).length ≤ 48 := by
    intro v h
    have := decimalOf_length h
    omega
  cases i with
  | bool | char | cString | string => exact Nat.le_succ _
  | pointer p =>
    have hlen := hexDigits_length p
    have htwo : (lit "0x").length = 2 := rfl
    simp only [Insertion.rendering, Insertion.room, hexOf, List.length_append] at hlen ⊢
    omega
  | short v =>
    have hlt := Integral.natAbs_lt v.toInt32
    rw [show Integral.toInt v.toInt32 = v.toInt from Int16.toInt_toInt32 v] at hlt
    exact hdecimal hlt
  | unsignedShort v => exact hdecimal (Integral.natAbs_lt v.toUInt32)
  | int v => exact hdecimal (Integral.natAbs_lt v)
  | unsignedInt v => exact hdecimal (Integral.natAbs_lt v)
  | long v => exact hdecimal (Integral.natAbs_lt v)
  | unsignedLong v => exact hdecimal (Integral.natAbs_lt v)
  | longLong v => exact hdecimal (Integral.natAbs_lt v)
  | unsignedLongLong v => exact hdecimal (Integral.natAbs_lt v)

/-- An insertion keeps the length in bounds. -/
theorem insert_cur {b : Buffer} (hcur : b.cur ≤ Log.kSmallBuffer) (i : Insertion) :
    ∃ b', insert b i = .ok b' ∧ b'.cur ≤ Log.kSmallBuffer ∧ Grows b (i.room i.rendering) i.rendering b' := by
  obtain ⟨b', hinsert, hgrows⟩ := insert_spec hcur i
  refine ⟨b', hinsert, ?_, hgrows⟩
  have hroom := rendering_le_room i
  unfold Grows at hgrows
  split at hgrows
  · rw [hgrows.2]
    omega
  · rw [hgrows]
    exact hcur

theorem foldlM_cur (is : List Insertion) : ∀ {b : Buffer}, b.cur ≤ Log.kSmallBuffer →
    ∃ b', is.foldlM insert b = .ok b' ∧ b'.cur ≤ Log.kSmallBuffer := by
  induction is with
  | nil => exact fun {b} hcur => ⟨b, rfl, hcur⟩
  | cons i is ih =>
    intro b hcur
    obtain ⟨b', hinsert, hcur', -⟩ := insert_cur hcur i
    obtain ⟨b'', hrest, hcur''⟩ := ih hcur'
    exact ⟨b'', by rw [List.foldlM_cons, hinsert]; exact hrest, hcur''⟩

/-- Whatever has been inserted into a new stream, and whatever comes next. -/
theorem inserts (data : {data : Bytes // data.length = Log.kSmallBuffer}) (is : List Insertion) (i : Insertion) :
    ∃ b b', is.foldlM insert (Buffer.make data) = .ok b ∧ 0 ≤ b.length ∧ b.length ≤ Log.kSmallBuffer ∧
      insert b i = .ok b' ∧ Inserts b i b' := by
  have hbounds : ∀ {b : Buffer}, b.cur ≤ Log.kSmallBuffer → 0 ≤ b.length ∧ b.length ≤ Log.kSmallBuffer := by
    intro b hcur
    rw [(avail_eq hcur).2]
    omega
  obtain ⟨b, hrun, hcur⟩ := foldlM_cur is (show (Buffer.make data).cur ≤ Log.kSmallBuffer from Nat.zero_le _)
  obtain ⟨b', hinsert, hcur', hgrows⟩ := insert_cur hcur i
  exact ⟨b, b', hrun, (hbounds hcur).1, (hbounds hcur).2, hinsert, (hbounds hcur').1, (hbounds hcur').2, _,
    renders_rendering i, hgrows⟩

end LogStream

end HahaWeb
