import Mathlib

/-!
# Byte buffers

Two pieces of Go that code writing packets is built from. `copy(buf[off:], src)` writes into a
slice of a fixed buffer only the part of `src` that fits, and returns how much it wrote
(`copyAt`). When all of `src` fits, the buffer up to the end of what was written is the buffer
before `off` followed by `src` (`take_copyAt`), and successive writes at successive offsets
compose by that lemma alone.

`binary.BigEndian.PutUint16` and `Uint16` are inverse (`uint16_putUint16`, `putUint16_uint16`),
and `Uint64` reads back what `PutUint64` wrote of a number, its value mod `2 ^ 64`
(`uint64_putUint64`).
-/

namespace WeaveNet.Lib

section Copy

variable {α : Type*} {buf src : List α} {off : Nat}

/-- `copy(buf[off:], src)`: the part of `src` that fits is written from `off` on; the buffer and
the number of elements written. -/
def copyAt (buf : List α) (off : Nat) (src : List α) : List α × Nat :=
  let n := min (buf.length - off) src.length
  (buf.take off ++ src.take n ++ buf.drop (off + n), n)

/-- A copy that fits writes all of `src`. -/
theorem copyAt_of_le (h : off + src.length ≤ buf.length) :
    copyAt buf off src = (buf.take off ++ src ++ buf.drop (off + src.length), src.length) := by
  have hn : min (buf.length - off) src.length = src.length := by omega
  simp only [copyAt, hn, List.take_length]

/-- A copy does not change the length of the buffer. -/
@[simp] theorem length_copyAt (h : off ≤ buf.length) : (copyAt buf off src).1.length = buf.length := by
  simp only [copyAt, List.length_append, List.length_take, List.length_drop]
  omega

/-- **What a copy that fits leaves in the buffer**, up to the end of what it wrote. -/
theorem take_copyAt (h : off + src.length ≤ buf.length) :
    (copyAt buf off src).1.take (off + src.length) = buf.take off ++ src := by
  have hoff : (buf.take off).length = off := by simp only [List.length_take]; omega
  rw [copyAt_of_le h, List.append_assoc, List.take_append, hoff, Nat.add_sub_cancel_left,
    List.take_append, List.take_length, Nat.sub_self, List.take_zero, List.append_nil,
    List.take_of_length_le (by omega)]

/-- **A copy that fits**, as a value: it writes all of `src`, keeps the length of the buffer, and
leaves the buffer before `off` followed by `src` up to the end of what it wrote. -/
theorem copyAt_spec (h : off + src.length ≤ buf.length) :
    ∃ buf', copyAt buf off src = (buf', src.length) ∧ buf'.length = buf.length ∧
      buf'.take (off + src.length) = buf.take off ++ src :=
  ⟨(copyAt buf off src).1, Prod.ext rfl (by rw [copyAt_of_le h]), length_copyAt (by omega),
    take_copyAt h⟩

end Copy

/-! ## Big-endian `uint16` -/

/-- `binary.BigEndian.PutUint16`: the high byte, then the low byte. -/
def putUint16 (v : UInt16) : List UInt8 := [(v >>> 8).toUInt8, v.toUInt8]

/-- `binary.BigEndian.Uint16` of the first two bytes (Go panics on fewer; no caller here has
fewer). -/
def uint16 : List UInt8 → UInt16
  | b0 :: b1 :: _ => b1.toUInt16 ||| (b0.toUInt16 <<< 8)
  | _ => 0

private theorem shift8 : UInt16.toNat 8 % 16 = 8 := rfl

theorem uint16_toNat (b0 b1 : UInt8) (rest : List UInt8) :
    (uint16 (b0 :: b1 :: rest)).toNat = b0.toNat * 256 + b1.toNat := by
  have h0 := b0.toNat_lt
  have h1 := b1.toNat_lt
  simp only [uint16, UInt16.toNat_or, UInt16.toNat_shiftLeft, UInt8.toNat_toUInt16, shift8]
  have hlt : b0.toNat <<< 8 < 2 ^ 16 := by rw [Nat.shiftLeft_eq]; omega
  -- the low byte fills exactly the bits the shift leaves free
  rw [Nat.mod_eq_of_lt hlt, Nat.or_comm, ← Nat.shiftLeft_add_eq_or_of_lt (by simpa using h1)]
  simp only [Nat.shiftLeft_eq, Nat.reducePow]

@[simp] theorem uint16_putUint16 (v : UInt16) : uint16 (putUint16 v) = v := by
  have hv := v.toNat_lt
  apply UInt16.toNat_inj.1
  rw [putUint16, uint16_toNat]
  simp only [UInt16.toNat_toUInt8, UInt16.toNat_shiftRight, shift8, Nat.shiftRight_eq_div_pow]
  omega

theorem putUint16_uint16 {b : List UInt8} (h : b.length = 2) : putUint16 (uint16 b) = b := by
  match b, h with
  | [b0, b1], _ =>
    have hv := uint16_toNat b0 b1 []
    have h0 := b0.toNat_lt
    have h1 := b1.toNat_lt
    simp only [putUint16, List.cons.injEq, and_true]
    constructor
    · apply UInt8.toNat_inj.1
      simp only [UInt16.toNat_toUInt8, UInt16.toNat_shiftRight, shift8, Nat.shiftRight_eq_div_pow,
        hv]
      omega
    · apply UInt8.toNat_inj.1
      simp only [UInt16.toNat_toUInt8, hv]
      omega

/-! ## Big-endian `uint64` -/

/-- The `n` low bytes of `v`, the highest first. -/
def bytesBE (n v : Nat) : List UInt8 := (List.range n).reverse.map fun i => (v >>> (8 * i)).toUInt8

/-- `binary.BigEndian.PutUint64`: the eight bytes of `v`, the highest first. -/
def putUint64 (v : Nat) : List UInt8 := bytesBE 8 v

/-- `binary.BigEndian.Uint64` of eight bytes, as a number: the first byte is the highest. -/
def uint64 (b : List UInt8) : Nat := b.foldl (fun n x => n * 256 + x.toNat) 0

theorem bytesBE_succ (n v : Nat) :
    bytesBE (n + 1) v = (v >>> (8 * n)).toUInt8 :: bytesBE n v := by
  simp [bytesBE, List.range_succ]

@[simp] theorem length_bytesBE (n v : Nat) : (bytesBE n v).length = n := by
  simp [bytesBE]

@[simp] theorem length_putUint64 (v : Nat) : (putUint64 v).length = 8 := length_bytesBE 8 v

/-- Reading goes on from what was read before, shifted past the bytes still to read. -/
theorem foldl_bytes (a : Nat) (b : List UInt8) :
    b.foldl (fun n x => n * 256 + x.toNat) a = a * 256 ^ b.length + uint64 b := by
  induction b generalizing a with
  | nil => simp [uint64]
  | cons x b ih =>
    rw [uint64, List.foldl_cons, List.foldl_cons, ih, ih, List.length_cons, Nat.pow_succ]
    ring

/-- The `n` low bytes of `v` read back as `v mod 256 ^ n`. Induction on `n`: the highest byte is
`v / 256 ^ n mod 256`, above the `n` bytes below it. -/
theorem uint64_bytesBE (n v : Nat) : uint64 (bytesBE n v) = v % 256 ^ n := by
  induction n with
  | zero => simp [uint64, bytesBE, Nat.mod_one]
  | succ n ih =>
    have hbyte : (v >>> (8 * n)).toUInt8.toNat = v / 256 ^ n % 256 := by
      rw [Nat.toUInt8, UInt8.toNat_ofNat', Nat.shiftRight_eq_div_pow, Nat.pow_mul]
    rw [bytesBE_succ, uint64, List.foldl_cons, foldl_bytes, ih, hbyte, length_bytesBE,
      Nat.mod_pow_succ]
    ring

/-- Bytes read as a number below `256 ^` their count. -/
theorem uint64_lt (b : List UInt8) : uint64 b < 256 ^ b.length := by
  induction b with
  | nil => simp [uint64]
  | cons x b ih =>
    have hx : x.toNat < 256 := x.toNat_lt
    rw [uint64, List.foldl_cons, foldl_bytes, List.length_cons, Nat.pow_succ, Nat.zero_mul,
      Nat.zero_add]
    -- the first byte is at most 255 times the weight of the rest
    calc x.toNat * 256 ^ b.length + uint64 b
        < (x.toNat + 1) * 256 ^ b.length := by rw [Nat.succ_mul]; omega
      _ ≤ 256 ^ b.length * 256 := by rw [Nat.mul_comm]; exact Nat.mul_le_mul_left _ hx

theorem uint64_putUint64 (v : Nat) : uint64 (putUint64 v) = v % 2 ^ 64 := by
  rw [putUint64, uint64_bytesBE]
  norm_num

end WeaveNet.Lib
