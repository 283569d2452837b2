import Mathlib

/-!
# IPv4 addresses, ranges and CIDR blocks

The model of package `net/address` (`net/address/address.go`). An `Address`, an `Offset` and a
`Count` are all Go `uint32`s; they are modelled by `Fin (2 ^ 32)`, whose `+`, `-`, `&&&`, `|||`
and `>>>` wrap exactly as `uint32` arithmetic does. A `Range` is the half-open `[Start, End)`.

`msb` and `Range.biggestCIDRRange` compute, by bit manipulation, the largest power of two in a
count and a largest CIDR-aligned block inside a range; `msb_val` pins down the first,
`biggestCIDRRange_sub` shows that the block lies inside the range and is not empty.
-/

namespace WeaveNet

/-- `type Address uint32`. -/
abbrev Address := Fin (2 ^ 32)
/-- `type Offset uint32`. -/
abbrev Offset := Fin (2 ^ 32)
/-- `type Count uint32`. -/
abbrev Count := Fin (2 ^ 32)

theorem uint32_size_ne_zero : 2 ^ 32 ≠ 0 := by norm_num

/-- The literals of `Address`, `Offset` and `Count` all take this one instance, so that no
definition carries a proof of its own that the type is not empty. -/
instance (priority := high) instNeZeroUint32Size : NeZero (2 ^ 32) := ⟨uint32_size_ne_zero⟩

/-- `type Range struct { Start, End Address }`: the addresses `[Start, End)`. The Go field names
are kept, since `end` is a Lean keyword. -/
structure Range where
  Start : Address
  End : Address
  deriving DecidableEq, Repr

namespace Address

/-- `address.Add`: `addr + Address(i)`, wrapping. -/
def add (addr : Address) (i : Offset) : Address := addr + i

/-- `address.Length`: `Count(a - b)`. The source asserts `a >= b`; the model is the wrapping
difference the assertion guards. -/
def length (a b : Address) : Count := a - b

end Address

namespace Range

/-- `NewRange`: the range of `size` addresses from `start`. -/
def newRange (start : Address) (size : Offset) : Range := ⟨start, Address.add start size⟩

/-- `Range.Size`. -/
def size (r : Range) : Count := Address.length r.End r.Start

/-- `Range.Contains`. -/
def contains (r : Range) (addr : Address) : Bool := decide (r.Start ≤ addr ∧ addr < r.End)

/-- `Range.Overlaps`. -/
def overlaps (r o : Range) : Bool := !(decide (o.End ≤ r.Start) || decide (r.End ≤ o.Start))

end Range

/-! ## The highest set bit -/

/-- `msb`: smear the highest set bit of `v` into every lower position, then add one (in 64 bits,
so that `v = 0xFFFFFFFF` does not wrap) and halve. -/
def msb (v : Count) : Count :=
  let v := v ||| v >>> 1
  let v := v ||| v >>> 2
  let v := v ||| v >>> 4
  let v := v ||| v >>> 8
  let v := v ||| v >>> 16
  Fin.ofNat _ ((v.val + 1) / 2)

namespace Range

/-- `Range.BiggestCIDRRange`: a largest block of `2 ^ k` addresses inside `r` that starts at a
multiple of `2 ^ k`. -/
def biggestCIDRRange (r : Range) : Range :=
  let sizeMsb : Offset := msb r.size
  let maskedSize : Offset := r.size &&& (sizeMsb - 1)
  let maskedStart : Offset := r.Start &&& (sizeMsb - 1)
  if maskedStart = 0 then newRange r.Start sizeMsb
  else if sizeMsb - maskedStart ≤ maskedSize then
    newRange (Address.add r.Start (sizeMsb - maskedStart)) sizeMsb
  else
    let size := sizeMsb / 2
    if size ≥ maskedStart then newRange (Address.add r.Start (size - maskedStart)) size
    else newRange (Address.add r.Start (sizeMsb - maskedStart)) size

end Range

/-! ## CIDR blocks -/

/-- `type CIDR struct { Addr Address; PrefixLen int }`. -/
structure CIDR where
  Addr : Address
  PrefixLen : Nat
  deriving DecidableEq, Repr

namespace CIDR

/-- `CIDR.Size`: `1 << uint(32-PrefixLen)` in `uint32`. -/
def size (cidr : CIDR) : Offset := Fin.ofNat _ (1 <<< (32 - cidr.PrefixLen))

/-- `CIDR.Range`. -/
def range (cidr : CIDR) : Range := Range.newRange cidr.Addr cidr.size

/-- `CIDR.HostRange`: the block without its first and last address (RFC 1122). -/
def hostRange (cidr : CIDR) : Range := Range.newRange (cidr.Addr + 1) (cidr.size - 2)

/-- `MakeCIDR`. -/
def makeCIDR (subnet : CIDR) (addr : Address) : CIDR := ⟨addr, subnet.PrefixLen⟩

end CIDR

/-! ## `msb` is the largest power of two below its argument -/

section Smear

/-- The bits of `w ||| w >>> m`, when each bit of `w` is the "or" of a window of `m` bits of
`v`: one step of smearing doubles the window. -/
theorem testBit_smear_step {v w m : Nat}
    (hw : ∀ i, w.testBit i = true ↔ ∃ j, i ≤ j ∧ j < i + m ∧ v.testBit j = true) (i : Nat) :
    (w ||| w >>> m).testBit i = true ↔ ∃ j, i ≤ j ∧ j < i + 2 * m ∧ v.testBit j = true := by
  rw [Nat.testBit_or, Nat.testBit_shiftRight, Bool.or_eq_true, hw i, hw (m + i)]
  constructor
  · rintro (⟨j, h1, h2, h3⟩ | ⟨j, h1, h2, h3⟩)
    · exact ⟨j, h1, by omega, h3⟩
    · exact ⟨j, by omega, by omega, h3⟩
  · rintro ⟨j, h1, h2, h3⟩
    rcases Nat.lt_or_ge j (i + m) with hj | hj
    · exact .inl ⟨j, h1, hj, h3⟩
    · exact .inr ⟨j, by omega, by omega, h3⟩

/-- The five smearing steps of `msb`, on natural numbers. -/
def smear (v : Nat) : Nat :=
  let v := v ||| v >>> 1
  let v := v ||| v >>> 2
  let v := v ||| v >>> 4
  let v := v ||| v >>> 8
  v ||| v >>> 16

/-- After the five steps each bit is the "or" of the 32 bits from its position up. -/
theorem testBit_smear (v i : Nat) :
    (smear v).testBit i = true ↔ ∃ j, i ≤ j ∧ j < i + 32 ∧ v.testBit j = true := by
  have h0 : ∀ i, v.testBit i = true ↔ ∃ j, i ≤ j ∧ j < i + 1 ∧ v.testBit j = true :=
    fun i => ⟨fun h => ⟨i, le_rfl, by omega, h⟩, fun ⟨j, h1, h2, h3⟩ => by
      rwa [show i = j by omega]⟩
  have h1 := testBit_smear_step h0
  have h2 := testBit_smear_step h1
  have h3 := testBit_smear_step h2
  have h4 := testBit_smear_step h3
  exact testBit_smear_step h4 i

/-- A positive number below `2 ^ 32` smears to the all-ones number of its bit length. -/
theorem smear_eq {v : Nat} (hv : 0 < v) (hlt : v < 2 ^ 32) :
    smear v = 2 ^ (v.log2 + 1) - 1 := by
  have hlog : v.log2 < 32 := (Nat.log2_lt (by omega)).2 hlt
  apply Nat.eq_of_testBit_eq
  intro i
  rw [Nat.testBit_two_pow_sub_one]
  apply Bool.eq_iff_iff.2
  rw [testBit_smear, decide_eq_true_iff]
  constructor
  · -- no bit of `v` is set above its logarithm
    rintro ⟨j, hij, -, hj⟩
    by_contra hi
    have : v < 2 ^ j := lt_of_lt_of_le Nat.lt_log2_self (Nat.pow_le_pow_right (by omega) (by omega))
    rw [Nat.testBit_lt_two_pow this] at hj
    cases hj
  · intro hi
    exact ⟨v.log2, by omega, by omega, Nat.testBit_log2 (by omega)⟩

end Smear

theorem lor_shiftRight_val (v k : Count) :
    (v ||| v >>> k).val = v.val ||| v.val >>> k.val := by
  have h1 : v.val >>> k.val < 2 ^ 32 :=
    lt_of_le_of_lt (Nat.shiftRight_le _ _) v.isLt
  change (v.val ||| (v.val >>> k.val) % 2 ^ 32) % 2 ^ 32 = _
  rw [Nat.mod_eq_of_lt h1, Nat.mod_eq_of_lt (Nat.or_lt_two_pow v.isLt h1)]

theorem msb_eq (v : Count) : msb v = Fin.ofNat _ ((smear v.val + 1) / 2) := by
  simp only [msb, smear, lor_shiftRight_val]
  rfl

/-- **`msb v` is the highest power of two in `v`.** -/
theorem msb_val {v : Count} (hv : 0 < v.val) : (msb v).val = 2 ^ v.val.log2 := by
  have hlog : v.val.log2 < 32 := (Nat.log2_lt (by omega)).2 v.isLt
  rw [msb_eq, Fin.val_ofNat, smear_eq hv v.isLt]
  have hpos : 0 < 2 ^ (v.val.log2 + 1) := Nat.two_pow_pos _
  rw [Nat.sub_add_cancel hpos, Nat.pow_succ, Nat.mul_div_cancel _ (by omega)]
  exact Nat.mod_eq_of_lt (Nat.pow_lt_pow_right (by omega) hlog)

/-! ## The block `biggestCIDRRange` picks lies inside the range -/

theorem land_pow_sub_one_val (x : Count) {k : Nat} (m : Count)
    (hm : m.val = 2 ^ k) : (x &&& (m - 1)).val = x.val % 2 ^ k := by
  have h1 : (m - 1).val = 2 ^ k - 1 := by
    rw [Fin.sub_val_of_le (by rw [Fin.le_iff_val_le_val, hm]; exact Nat.one_le_two_pow)]
    rw [hm]; rfl
  change (x.val &&& (m - 1).val) % 2 ^ 32 = _
  rw [h1, Nat.and_two_pow_sub_one_eq_mod]
  exact Nat.mod_eq_of_lt (lt_of_le_of_lt (Nat.mod_le _ _) x.isLt)

/-- Two `uint32` additions whose sum stays below `2 ^ 32` wrap at neither step. -/
theorem add_mod_add_mod_of_lt {x y : Nat} (h : x + y < 2 ^ 32) :
    x % 2 ^ 32 = x ∧ (x % 2 ^ 32 + y) % 2 ^ 32 = x + y := by
  have hx : x % 2 ^ 32 = x := Nat.mod_eq_of_lt (by omega)
  rw [hx, Nat.mod_eq_of_lt h]
  exact ⟨rfl, rfl⟩

/-- The size of a range that does not wrap is the difference of its ends. -/
theorem Range.size_val {r : Range} (h : r.Start ≤ r.End) : r.size.val = r.End.val - r.Start.val :=
  Fin.sub_val_of_le h

/-! ## The block `biggestCIDRRange` picks, in natural numbers -/

/-- The block `Range.biggestCIDRRange` picks in `[start, start + size)`, as its start and its
size. `P` is the highest power of two in `size`. The block is the first multiple of `P` in the
range when a block of `P` fits there, and otherwise a block of `P / 2` from a multiple of
`P / 2`: the first one when it lies before the next multiple of `P`, or the one that starts there. -/
def biggestBlock (start size : Nat) : Nat × Nat :=
  let P := 2 ^ size.log2
  let maskedStart := start % P
  if maskedStart = 0 then (start, P)
  else if P - maskedStart ≤ size - P then (start + (P - maskedStart), P)
  else if P / 2 ≥ maskedStart then (start + (P / 2 - maskedStart), P / 2)
  else (start + (P - maskedStart), P / 2)

/-- Two multiples of `P` lie at least `P` apart. -/
theorem add_le_of_dvd_of_lt {P a b : Nat} (ha : P ∣ a) (hb : P ∣ b) (hlt : b < a) :
    b + P ≤ a := by
  have := Nat.le_of_dvd (by omega) (Nat.dvd_sub ha hb)
  omega

section Block
variable (start : Nat) {size : Nat}

/-- What the branches of `biggestBlock` need of `P = 2 ^ log2 size`, stated for `omega`:
`P ≤ size < 2 * P`, the bounds of `start % P`, and that `P` is one or even. -/
theorem biggestBlock_facts (h : 0 < size) :
    2 ^ size.log2 ≤ size ∧ size < 2 * 2 ^ size.log2 ∧ start % 2 ^ size.log2 < 2 ^ size.log2 ∧
      start % 2 ^ size.log2 ≤ start ∧ (2 ^ size.log2 = 1 → start % 2 ^ size.log2 = 0) ∧
      (2 ^ size.log2 = 1 ∨ 2 * (2 ^ size.log2 / 2) = 2 ^ size.log2) := by
  refine ⟨Nat.log2_self_le (by omega), ?_, Nat.mod_lt _ (Nat.two_pow_pos _), Nat.mod_le _ _,
    fun h1 => by rw [h1, Nat.mod_one], ?_⟩
  · rw [← Nat.pow_succ']
    exact Nat.lt_log2_self
  · rcases size.log2 with _ | k
    · exact .inl rfl
    · exact .inr (by rw [Nat.pow_succ, Nat.mul_div_cancel _ (by omega), Nat.mul_comm])

/-- **The block lies inside the range and is not empty.** -/
theorem biggestBlock_sub (h : 0 < size) :
    start ≤ (biggestBlock start size).1 ∧ 0 < (biggestBlock start size).2 ∧
      (biggestBlock start size).1 + (biggestBlock start size).2 ≤ start + size := by
  obtain ⟨hP1, hP2, hms, -, hone, hhalf⟩ := biggestBlock_facts start h
  simp only [biggestBlock]
  split_ifs <;> dsimp only <;> omega

/-- **The block is CIDR-aligned**: its size is a power of two, and a divisor of its start. -/
theorem biggestBlock_aligned (h : 0 < size) :
    (∃ k, (biggestBlock start size).2 = 2 ^ k) ∧
      (biggestBlock start size).2 ∣ (biggestBlock start size).1 := by
  obtain ⟨-, -, hms, hmsle, hone, hhalf⟩ := biggestBlock_facts start h
  -- the multiple of `P` at or below `start`
  have hdvd : 2 ^ size.log2 ∣ start - start % 2 ^ size.log2 := Nat.dvd_sub_mod start
  simp only [biggestBlock]
  split_ifs with h1 h2 h3
  · exact ⟨⟨_, rfl⟩, Nat.dvd_of_mod_eq_zero h1⟩
  · refine ⟨⟨_, rfl⟩, ?_⟩
    rw [show start + (2 ^ size.log2 - start % 2 ^ size.log2) =
      start - start % 2 ^ size.log2 + 2 ^ size.log2 by omega]
    exact Nat.dvd_add hdvd (Nat.dvd_refl _)
  all_goals
    -- `P` is even here, as `start` is not a multiple of it, so `P / 2` is a power of two
    -- dividing `P`
    obtain ⟨j, hj⟩ : ∃ j, size.log2 = j + 1 :=
      Nat.exists_eq_succ_of_ne_zero fun h0 => h1 (hone (by simp [h0]))
    have hPj : 2 ^ size.log2 / 2 = 2 ^ j := by
      rw [hj, Nat.pow_succ, Nat.mul_div_cancel _ Nat.two_pos]
    have hhalf_dvd : 2 ^ size.log2 / 2 ∣ 2 ^ size.log2 :=
      Nat.div_dvd_of_dvd ⟨2 ^ j, by rw [hj, Nat.pow_succ, Nat.mul_comm]⟩
    refine ⟨⟨j, hPj⟩, ?_⟩
  · rw [show start + (2 ^ size.log2 / 2 - start % 2 ^ size.log2) =
      start - start % 2 ^ size.log2 + 2 ^ size.log2 / 2 by omega]
    exact Nat.dvd_add (Nat.dvd_trans hhalf_dvd hdvd) (Nat.dvd_refl _)
  · rw [show start + (2 ^ size.log2 - start % 2 ^ size.log2) =
      start - start % 2 ^ size.log2 + 2 ^ size.log2 by omega]
    exact Nat.dvd_trans hhalf_dvd (Nat.dvd_add hdvd (Nat.dvd_refl _))

/-- **No larger aligned block fits in the range.** Every block of `2 ^ k` addresses from a
multiple of `2 ^ k` inside the range is at most as large: a block of `P` would have to start at
the first multiple of `P` at or after `start`, which the second test of the source looks at. -/
theorem le_biggestBlock (h : 0 < size) {a k : Nat} (ha : 2 ^ k ∣ a) (hs : start ≤ a)
    (he : a + 2 ^ k ≤ start + size) : 2 ^ k ≤ (biggestBlock start size).2 := by
  obtain ⟨hP1, hP2, hms, hmsle, hone, hhalf⟩ := biggestBlock_facts start h
  have hk : k ≤ size.log2 := by
    have : 2 ^ k < 2 ^ (size.log2 + 1) := by rw [Nat.pow_succ]; omega
    exact Nat.lt_succ_iff.1 ((Nat.pow_lt_pow_iff_right (by omega)).1 this)
  rcases hk.lt_or_eq with hlt | rfl
  · -- a smaller block has at most `P / 2` addresses, and every branch picks at least that
    have : 2 * 2 ^ k ≤ 2 ^ size.log2 := by
      rw [← Nat.pow_succ']
      exact Nat.pow_le_pow_right (by omega) hlt
    simp only [biggestBlock]
    split_ifs <;> dsimp only <;> omega
  · have hdvd : 2 ^ size.log2 ∣ start - start % 2 ^ size.log2 := Nat.dvd_sub_mod start
    simp only [biggestBlock]
    split_ifs with h1 h2
    · exact le_rfl
    · exact le_rfl
    all_goals
      -- the block would start a whole `P` above the multiple below `start`, and not fit
      have := add_le_of_dvd_of_lt ha hdvd (by omega)
      omega

/-- The upper half of an aligned block of `2 ^ k` (the block itself when `k = 0`) is again an
aligned block. -/
theorem upperHalf_aligned {a k : Nat} (h : 2 ^ k ∣ a) :
    (∃ j, 2 ^ k - 2 ^ k / 2 = 2 ^ j) ∧ 2 ^ k - 2 ^ k / 2 ∣ a + 2 ^ k / 2 := by
  rcases k with _ | j
  · exact ⟨⟨0, rfl⟩, by simp⟩
  · have hj : 2 ^ (j + 1) / 2 = 2 ^ j := by rw [Nat.pow_succ, Nat.mul_div_cancel _ Nat.two_pos]
    have hsub : 2 ^ (j + 1) - 2 ^ j = 2 ^ j := by rw [Nat.pow_succ]; omega
    rw [hj, hsub]
    exact ⟨⟨j, rfl⟩,
      Nat.dvd_add (Nat.dvd_trans (Nat.pow_dvd_pow 2 (Nat.le_succ j)) h) (Nat.dvd_refl _)⟩

end Block

/-! ## `biggestCIDRRange` computes `biggestBlock` -/

/-- **`biggestCIDRRange` computes `biggestBlock`.** On a range that does not wrap, the three
tests of the source, made on masked `uint32`s, are the tests of `biggestBlock`, and no addition
wraps. -/
theorem biggestCIDRRange_val {r : Range} (h : r.Start < r.End) :
    r.biggestCIDRRange.Start.val = (biggestBlock r.Start.val r.size.val).1 ∧
      r.biggestCIDRRange.End.val =
        (biggestBlock r.Start.val r.size.val).1 + (biggestBlock r.Start.val r.size.val).2 := by
  have hsz : r.size.val = r.End.val - r.Start.val := Range.size_val h.le
  have hpos : 0 < r.size.val := by rw [hsz]; exact Nat.sub_pos_of_lt h
  have hmsb : (msb r.size).val = 2 ^ r.size.val.log2 := msb_val hpos
  have hms := land_pow_sub_one_val r.Start _ hmsb
  have hmz := land_pow_sub_one_val r.size _ hmsb
  obtain ⟨hP1, hP2, hmslt, -, -, -⟩ := biggestBlock_facts r.Start.val hpos
  -- the block lies inside the range, which ends below `2 ^ 32`: no addition below wraps
  have hfit : (biggestBlock r.Start.val r.size.val).1 + (biggestBlock r.Start.val r.size.val).2 <
      2 ^ 32 := by
    have hsub := (biggestBlock_sub r.Start.val hpos).2.2
    have hlt : r.Start.val < r.End.val := h
    have hE := r.End.isLt
    omega
  have htwo : (2 : Offset).val = 2 := rfl
  -- the three tests of the source, on natural numbers
  have hmzv : r.size.val % 2 ^ r.size.val.log2 = r.size.val - 2 ^ r.size.val.log2 := by
    rw [Nat.mod_eq_sub_mod hP1, Nat.mod_eq_of_lt (by omega)]
  have hle : r.Start &&& (msb r.size - 1) ≤ msb r.size := by
    rw [Fin.le_iff_val_le_val, hms, hmsb]; omega
  have c1 : r.Start &&& (msb r.size - 1) = 0 ↔ r.Start.val % 2 ^ r.size.val.log2 = 0 := by
    rw [Fin.ext_iff, hms]; rfl
  have c2 : msb r.size - (r.Start &&& (msb r.size - 1)) ≤ r.size &&& (msb r.size - 1) ↔
      2 ^ r.size.val.log2 - r.Start.val % 2 ^ r.size.val.log2 ≤
        r.size.val - 2 ^ r.size.val.log2 := by
    rw [Fin.le_iff_val_le_val, hmz, Fin.sub_val_of_le hle, hmsb, hms, hmzv]
  have c3 : msb r.size / 2 ≥ r.Start &&& (msb r.size - 1) ↔
      2 ^ r.size.val.log2 / 2 ≥ r.Start.val % 2 ^ r.size.val.log2 := by
    rw [ge_iff_le, ge_iff_le, Fin.le_iff_val_le_val, Fin.div_val, hms, hmsb, htwo]
  simp only [Range.biggestCIDRRange, biggestBlock, c1, c2, c3] at hfit ⊢
  split_ifs at hfit ⊢ with h1 h2 h3
  · simp only [Range.newRange, Address.add, Fin.val_add, hmsb, true_and]
    exact Nat.mod_eq_of_lt hfit
  · simp only [Range.newRange, Address.add, Fin.val_add, hmsb, Fin.sub_val_of_le hle, hms]
    exact add_mod_add_mod_of_lt hfit
  · have hle' : r.Start &&& (msb r.size - 1) ≤ msb r.size / 2 := by
      rw [Fin.le_iff_val_le_val, Fin.div_val, hms, hmsb, htwo]; exact h3
    simp only [Range.newRange, Address.add, Fin.val_add, Fin.div_val, hmsb, htwo,
      Fin.sub_val_of_le hle', hms]
    exact add_mod_add_mod_of_lt hfit
  · simp only [Range.newRange, Address.add, Fin.val_add, Fin.div_val, hmsb, htwo,
      Fin.sub_val_of_le hle, hms]
    exact add_mod_add_mod_of_lt hfit

/-- A range that does not wrap and is not empty has a positive size. -/
theorem Range.size_pos {r : Range} (h : r.Start < r.End) : 0 < r.size.val := by
  rw [Range.size_val h.le]
  exact Nat.sub_pos_of_lt h

/-- **The block `biggestCIDRRange` picks is a non-empty part of the range.** -/
theorem biggestCIDRRange_sub {r : Range} (h : r.Start < r.End) :
    r.Start.val ≤ r.biggestCIDRRange.Start.val ∧
      r.biggestCIDRRange.Start.val < r.biggestCIDRRange.End.val ∧
      r.biggestCIDRRange.End.val ≤ r.End.val := by
  have hsz : r.size.val = r.End.val - r.Start.val := Range.size_val h.le
  have hlt : r.Start.val < r.End.val := h
  obtain ⟨hS, hE⟩ := biggestCIDRRange_val h
  obtain ⟨h1, h2, h3⟩ := biggestBlock_sub r.Start.val (by omega : 0 < r.size.val)
  rw [hS, hE]
  omega

/-- The size of the block `biggestCIDRRange` picks, in natural numbers. -/
theorem biggestCIDRRange_size {r : Range} (h : r.Start < r.End) :
    r.biggestCIDRRange.size.val = (biggestBlock r.Start.val r.size.val).2 := by
  obtain ⟨hS, hE⟩ := biggestCIDRRange_val h
  have hsub := biggestCIDRRange_sub h
  rw [Range.size_val (r := r.biggestCIDRRange) (Fin.le_def.2 hsub.2.1.le), hS, hE]
  omega

/-- **`BiggestCIDRRange` picks a largest aligned block of a range.** For every range with addresses
in it that does not wrap (its end is not below its start), the block lies inside the range, has
`2 ^ k` addresses and starts at a multiple of `2 ^ k`, and no block of `2 ^ k'` addresses inside
the range starting at a multiple of `2 ^ k'` is larger. -/
theorem biggestCIDRRange_spec (r : Range) (hsize : 0 < r.size.val) (hwrap : r.Start ≤ r.End) :
    (r.Start ≤ r.biggestCIDRRange.Start ∧ r.biggestCIDRRange.Start < r.biggestCIDRRange.End ∧
      r.biggestCIDRRange.End ≤ r.End) ∧
    (∃ k, r.biggestCIDRRange.size.val = 2 ^ k ∧ 2 ^ k ∣ r.biggestCIDRRange.Start.val) ∧
    ∀ (a : Address) (k : Nat), 2 ^ k ∣ a.val → r.Start.val ≤ a.val → a.val + 2 ^ k ≤ r.End.val →
      2 ^ k ≤ r.biggestCIDRRange.size.val := by
  have hsz := Range.size_val hwrap
  have h : r.Start < r.End := Fin.lt_def.2 (by omega)
  obtain ⟨hS, -⟩ := biggestCIDRRange_val h
  obtain ⟨h1, h2, h3⟩ := biggestCIDRRange_sub h
  obtain ⟨⟨k, hk⟩, hdvd⟩ := biggestBlock_aligned r.Start.val hsize
  rw [biggestCIDRRange_size h]
  refine ⟨⟨Fin.le_def.2 h1, Fin.lt_def.2 h2, Fin.le_def.2 h3⟩, ⟨k, hk, hS ▸ hk ▸ hdvd⟩, ?_⟩
  -- a block inside the range is a block inside `[start, start + size)`
  intro a k' ha hs he
  exact le_biggestBlock r.Start.val hsize ha hs (by omega)

/-- A witness of `biggestCIDRRange_spec`: the range `[3, 20)`, whose largest aligned block is
`[8, 16)`. -/
theorem biggestCIDRRange_spec_three :
    0 < (⟨3, 20⟩ : Range).size.val ∧ (⟨3, 20⟩ : Range).Start ≤ (⟨3, 20⟩ : Range).End ∧
    ((⟨3, 20⟩ : Range).Start ≤ (⟨3, 20⟩ : Range).biggestCIDRRange.Start ∧
      (⟨3, 20⟩ : Range).biggestCIDRRange.Start < (⟨3, 20⟩ : Range).biggestCIDRRange.End ∧
      (⟨3, 20⟩ : Range).biggestCIDRRange.End ≤ (⟨3, 20⟩ : Range).End) ∧
    (∃ k, (⟨3, 20⟩ : Range).biggestCIDRRange.size.val = 2 ^ k ∧
      2 ^ k ∣ (⟨3, 20⟩ : Range).biggestCIDRRange.Start.val) ∧
    ∀ (a : Address) (k : Nat), 2 ^ k ∣ a.val → (⟨3, 20⟩ : Range).Start.val ≤ a.val →
      a.val + 2 ^ k ≤ (⟨3, 20⟩ : Range).End.val → 2 ^ k ≤ (⟨3, 20⟩ : Range).biggestCIDRRange.size.val :=
  ⟨by decide, by decide, biggestCIDRRange_spec _ (by decide) (by decide)⟩

end WeaveNet
