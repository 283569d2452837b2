import Mathlib

/-!
# Aligned power-of-two blocks: masks and tilings

Two general pieces that a decomposition of an interval into aligned blocks rests on.

Masks: on `w`-bit words the mask `2 ^ w - 2 ^ j` keeps the bits from `j` up. A word is unchanged
by it exactly when it is a multiple of `2 ^ j` (`and_mask_eq_iff`); its complement within `w`
bits is `2 ^ j - 1` (`mask_xor_two_pow_sub_one`); OR-ing that into a multiple of `2 ^ j` gives
the last word of the block (`or_two_pow_sub_one`); and shifting the mask left by one gives the
mask of the next block size (`mask_shiftLeft_one`). Two blocks of sizes `2 ^ a` and `2 ^ b` make
up a block of size `2 ^ k` only when `a = b` (`two_pow_add_two_pow_eq_two_pow`).

Tilings: a list of non-empty half-open intervals `[lo x, hi x)`, the first starting at `a`, each
next one starting where the one before ends, and the last ending at `b`, tiles `[a, b)`
(`Tiles`). Its intervals are then in increasing order and pairwise disjoint (`Tiles.pairwise`),
contiguous (`Tiles.isChain`), and their union is exactly `[a, b)` (`Tiles.exists_mem_iff`).
-/

namespace WeaveNet.Lib

/-! ## Masks -/

section Mask
variable {w j s : Nat}

/-- The bits of `2 ^ w - 2 ^ j` are those from `j` up to `w`. -/
theorem testBit_mask (hj : j ≤ w) (i : Nat) :
    (2 ^ w - 2 ^ j).testBit i = (decide (j ≤ i) && decide (i < w)) := by
  have h : 2 ^ w - 2 ^ j = (2 ^ (w - j) - 1) <<< j := by
    rw [Nat.shiftLeft_eq, Nat.sub_mul, one_mul, ← pow_add, Nat.sub_add_cancel hj]
  rw [h, Nat.testBit_shiftLeft, Nat.testBit_two_pow_sub_one]
  by_cases hji : j ≤ i
  · simp only [ge_iff_le, hji, decide_true, Bool.true_and]
    exact decide_eq_decide.2 (by omega)
  · simp [hji]

/-- A `w`-bit word is unchanged by the mask `2 ^ w - 2 ^ j` exactly when it is a multiple of
`2 ^ j`: the mask clears the low `j` bits and keeps the others. -/
theorem and_mask_eq_iff (hs : s < 2 ^ w) (hj : j ≤ w) :
    s &&& (2 ^ w - 2 ^ j) = s ↔ 2 ^ j ∣ s := by
  -- bit by bit: the mask keeps bit `i` of `s` when `j ≤ i`; above `w` the bits of `s` are 0
  have hbit : ∀ i, (s &&& (2 ^ w - 2 ^ j)).testBit i = (s.testBit i && decide (j ≤ i)) := by
    intro i
    rw [Nat.testBit_and, testBit_mask hj]
    by_cases hi : i < w
    · simp [hi]
    · have : s.testBit i = false :=
        Nat.testBit_lt_two_pow (lt_of_lt_of_le hs (Nat.pow_le_pow_right two_pos (by omega)))
      simp [this]
  rw [Nat.dvd_iff_mod_eq_zero]
  constructor
  · intro h
    apply Nat.eq_of_testBit_eq
    intro i
    have hi := hbit i
    rw [h] at hi
    rw [Nat.testBit_mod_two_pow, Nat.zero_testBit]
    by_cases hji : j ≤ i
    · simp [Nat.not_lt.2 hji]
    · have hij : i < j := by omega
      simpa [hji, hij] using hi
  · intro h
    apply Nat.eq_of_testBit_eq
    intro i
    rw [hbit i]
    by_cases hji : j ≤ i
    · simp [hji]
    · have := congrArg (Nat.testBit · i) h
      simp only [Nat.testBit_mod_two_pow, Nat.zero_testBit] at this
      simpa [hji, Nat.not_le.1 hji] using this.symm

/-- The complement of the mask within `w` bits is the low `j` bits. -/
theorem mask_xor_two_pow_sub_one (hj : j ≤ w) : (2 ^ w - 2 ^ j) ^^^ (2 ^ w - 1) = 2 ^ j - 1 := by
  apply Nat.eq_of_testBit_eq
  intro i
  rw [Nat.testBit_xor, testBit_mask hj, Nat.testBit_two_pow_sub_one, Nat.testBit_two_pow_sub_one]
  by_cases hji : j ≤ i
  · by_cases hiw : i < w
    · simp [hji, hiw, Nat.not_lt.2 hji]
    · simp [hji, hiw]
  · have hiw : i < w := by omega
    simp [hji, hiw, Nat.not_le.1 hji]

/-- OR-ing the low `j` bits into a multiple of `2 ^ j` adds them: the result is the last word of
the block of size `2 ^ j` that starts there. -/
theorem or_two_pow_sub_one (h : 2 ^ j ∣ s) : s ||| (2 ^ j - 1) = s + (2 ^ j - 1) := by
  obtain ⟨q, rfl⟩ := h
  have hq : 2 ^ j * q = q <<< j := by rw [Nat.shiftLeft_eq, mul_comm]
  rw [hq, Nat.shiftLeft_add_eq_or_of_lt (Nat.sub_one_lt (Nat.two_pow_pos j).ne')]

/-- Shifting the mask left by one bit, within `w` bits, gives the mask of the next block size. -/
theorem mask_shiftLeft_one (hj : j < w) : (2 ^ w - 2 ^ j) <<< 1 % 2 ^ w = 2 ^ w - 2 ^ (j + 1) := by
  have hle : 2 ^ (j + 1) ≤ 2 ^ w := Nat.pow_le_pow_right two_pos hj
  have hsucc : 2 ^ (j + 1) = 2 * 2 ^ j := by rw [pow_succ, mul_comm]
  have h : (2 ^ w - 2 ^ j) <<< 1 = (2 ^ w - 2 ^ (j + 1)) + 2 ^ w := by
    rw [Nat.shiftLeft_eq, pow_one, hsucc]
    rw [hsucc] at hle
    omega
  rw [h, Nat.add_mod_right, Nat.mod_eq_of_lt (Nat.sub_lt (Nat.two_pow_pos w) (Nat.two_pow_pos _))]

/-- Two powers of two add up to a power of two only when they are equal, and then to the next
one. -/
theorem two_pow_add_two_pow_eq_two_pow {a b k : Nat} (h : 2 ^ a + 2 ^ b = 2 ^ k) :
    a = b ∧ k = a + 1 := by
  -- a sum of two different powers lies strictly between the larger one and its double
  have between : ∀ {a b : Nat}, a < b → 2 ^ a + 2 ^ b = 2 ^ k → False := by
    intro a b hab h
    have hlt : 2 ^ a < 2 ^ b := Nat.pow_lt_pow_right (by norm_num) hab
    have h1 : 2 ^ b < 2 ^ k := by
      have := Nat.two_pow_pos a
      omega
    have h2 : 2 ^ k < 2 ^ (b + 1) := by
      rw [pow_succ]
      omega
    rw [Nat.pow_lt_pow_iff_right (by norm_num)] at h1 h2
    omega
  rcases lt_trichotomy a b with hab | rfl | hab
  · exact (between hab h).elim
  · refine ⟨rfl, ?_⟩
    have : 2 ^ (a + 1) = 2 ^ k := by
      rw [pow_succ]
      omega
    exact (Nat.pow_right_injective (le_refl 2) this).symm
  · exact (between hab (by omega)).elim

end Mask

/-! ## Tilings -/

section Tiles
variable {α : Type*} (lo hi : α → Nat)

/-- `Tiles lo hi a l b`: the intervals `[lo x, hi x)` of `l`, in order, are non-empty, the first
starts at `a`, each next one starts where the one before ends, and the last ends at `b`. -/
def Tiles : Nat → List α → Nat → Prop
  | a, [], b => a = b
  | a, x :: l, b => lo x = a ∧ lo x < hi x ∧ Tiles (hi x) l b

variable {lo hi} {a b : Nat} {x : α} {l : List α}

@[simp] theorem tiles_nil : Tiles lo hi a [] b ↔ a = b := Iff.rfl

@[simp] theorem tiles_cons :
    Tiles lo hi a (x :: l) b ↔ lo x = a ∧ lo x < hi x ∧ Tiles lo hi (hi x) l b := Iff.rfl

/-- Every interval of a tiling of `[a, b)` lies inside it. -/
theorem Tiles.bounds : ∀ {a b : Nat} {l : List α}, Tiles lo hi a l b →
    a ≤ b ∧ ∀ y ∈ l, a ≤ lo y ∧ hi y ≤ b
  | _, _, [], h => ⟨le_of_eq h, by simp⟩
  | a, b, x :: l, h => by
    obtain ⟨hlo, hlt, ht⟩ := h
    obtain ⟨hle, hl⟩ := Tiles.bounds ht
    refine ⟨by omega, ?_⟩
    intro y hy
    rcases List.mem_cons.1 hy with rfl | hy
    · omega
    · have := hl y hy
      omega

/-- The union of the intervals of a tiling of `[a, b)` is `[a, b)`. -/
theorem Tiles.exists_mem_iff : ∀ {a b : Nat} {l : List α}, Tiles lo hi a l b →
    ∀ n, (∃ y ∈ l, lo y ≤ n ∧ n < hi y) ↔ a ≤ n ∧ n < b
  | _, _, [], h, n => by
    simp only [tiles_nil] at h
    simp only [List.not_mem_nil, false_and, exists_false, false_iff]
    omega
  | a, b, x :: l, h, n => by
    obtain ⟨hlo, hlt, ht⟩ := h
    have hle := (Tiles.bounds ht).1
    simp only [List.mem_cons, exists_eq_or_imp]
    rw [Tiles.exists_mem_iff ht n]
    constructor
    · rintro (h | h) <;> omega
    · intro h
      by_cases hn : n < hi x
      · exact Or.inl ⟨by omega, hn⟩
      · exact Or.inr ⟨by omega, h.2⟩

/-- The intervals of a tiling are in increasing order and pairwise disjoint. -/
theorem Tiles.pairwise : ∀ {a b : Nat} {l : List α}, Tiles lo hi a l b →
    l.Pairwise (fun x y => hi x ≤ lo y)
  | _, _, [], _ => List.Pairwise.nil
  | _, _, x :: l, h => by
    obtain ⟨-, -, ht⟩ := h
    exact List.Pairwise.cons (fun y hy => ((Tiles.bounds ht).2 y hy).1) (Tiles.pairwise ht)

/-- Each interval of a tiling starts where the one before it ends. -/
theorem Tiles.isChain : ∀ {a b : Nat} {l : List α}, Tiles lo hi a l b →
    l.IsChain (fun x y => lo y = hi x)
  | _, _, [], _ => List.IsChain.nil
  | _, _, [_], _ => List.IsChain.singleton _
  | _, _, x :: y :: l, h => by
    obtain ⟨-, -, ht⟩ := h
    exact List.isChain_cons_cons.2 ⟨ht.1, Tiles.isChain ht⟩

end Tiles

end WeaveNet.Lib
