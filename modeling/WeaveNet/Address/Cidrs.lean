import Mathlib
import WeaveNet.Address.Basic
import WeaveNet.Lib.Blocks

/-!
# Decomposing a range into CIDR blocks

`Range.CIDRs` (`src/net/address/address.go`) covers a range with CIDR blocks, greedily from its
start up. At each start its inner loop widens a mask one bit at a time, while the doubled block
is still aligned at the start and still ends at or before `end = End - 1` (`Range.widenMask`);
the outer loop emits that block and moves past it, until it passes `end` or the block ends at
the top of the address space (`Range.cidrsLoop`). `NewCIDRs` concatenates the blocks of a list of
ranges.

Each round of the outer loop emits the widest block that fits at its start (`cidrsLoop_succ`), so
the loop tiles `[Start, End)` with aligned blocks, reading `End = 0` as `2 ^ 32`
(`cidrsLoop_tiles`), and no two neighbouring blocks make up one aligned block
(`Widest.not_mergeable`). The blocks are measured in natural numbers (`CIDR.blockSize`): the
code's `CIDR.Size` is a `uint32` and is 0 for a `/0` block.
-/

namespace WeaveNet

/-- `^x` on a `uint32`: every bit flipped. -/
def Address.complement (x : Address) : Address := x ^^^ 0xFFFFFFFF

namespace Range

/-- `fullMask = ^Address(0)` of `CIDRs`. -/
def fullMask : Address := Address.complement 0

/-- `cidrMaxPrefixLen` of `CIDRs`. -/
def cidrMaxPrefixLen : Nat := 32

/-- The inner loop of `CIDRs` at `start`: while `mask > 0`, double the block
(`tmpMask := mask << 1`) unless the doubled block is not aligned at `start` or runs past
`endAddr`. Each round shifts a zero into the mask, so 32 rounds finish it. -/
def widenMask (start endAddr : Address) : Nat → Address → Nat → Address × Nat
  | 0, mask, prefixLen => (mask, prefixLen)
  | fuel + 1, mask, prefixLen =>
    if 0 < mask then
      let tmpMask := mask <<< 1
      if (start &&& tmpMask) ≠ start ∨ endAddr < (start ||| Address.complement tmpMask) then
        (mask, prefixLen)
      else widenMask start endAddr fuel tmpMask (prefixLen - 1)
    else (mask, prefixLen)

/-- The outer loop of `CIDRs` from `start`, with `end = End - 1` and `fuel` rounds left: emit the
block the inner loop finds, set `start` to its last address, and stop if that is the top of the
address space or go on from the next one. -/
def cidrsLoop (endAddr : Address) : Nat → Address → List CIDR
  | 0, _ => []
  | fuel + 1, start =>
    if start ≤ endAddr then
      let (mask, prefixLen) := widenMask start endAddr 32 fullMask cidrMaxPrefixLen
      let last := start ||| Address.complement mask
      if last + 1 < last then [⟨start, prefixLen⟩]
      else ⟨start, prefixLen⟩ :: cidrsLoop endAddr fuel (last + 1)
    else []

/-- `Range.CIDRs`: the outer loop from `Start` with `end = End - 1`. Each round covers at least
one address, so `2 ^ 32` rounds are enough. -/
def cidrs (r : Range) : List CIDR := cidrsLoop (r.End - 1) (2 ^ 32) r.Start

end Range

/-- `NewCIDRs`: the blocks of each range in turn. -/
def newCIDRs (ranges : List Range) : List CIDR := ranges.flatMap Range.cidrs

/-! ## Blocks as intervals of natural numbers -/

namespace CIDR

/-- The number of addresses of a block, `2 ^ (32 - PrefixLen)`, as a natural number. -/
def blockSize (c : CIDR) : Nat := 2 ^ (32 - c.PrefixLen)

/-- One past the last address of a block, as a natural number: `2 ^ 32` for a block that ends
at the top of the address space. -/
def blockEnd (c : CIDR) : Nat := c.Addr.val + c.blockSize

end CIDR

/-- A block of `2 ^ j` addresses fits at `s` below `e`: it is aligned there and ends at or
before `e`. -/
def BlockFits (s e j : Nat) : Prop := 2 ^ j ∣ s ∧ s + 2 ^ j ≤ e + 1

/-- `c` is the widest block that fits at its start below `e`: it fits, and the block of twice its
size at the same start does not. -/
def Widest (e : Nat) (c : CIDR) : Prop :=
  c.PrefixLen ≤ 32 ∧ BlockFits c.Addr.val e (32 - c.PrefixLen) ∧
    (0 < c.PrefixLen → ¬BlockFits c.Addr.val e (33 - c.PrefixLen))

/-! ## Masks of `uint32` words -/

theorem Address.complement_val (x : Address) :
    (Address.complement x).val = x.val ^^^ (2 ^ 32 - 1) := by
  have h : ((0xFFFFFFFF : Address) : Nat) = 2 ^ 32 - 1 := rfl
  rw [Address.complement, Fin.xor_val, h,
    Nat.mod_eq_of_lt (Nat.xor_lt_two_pow x.isLt (by norm_num))]

theorem Range.fullMask_val : Range.fullMask.val = 2 ^ 32 - 2 ^ 0 := by
  rw [Range.fullMask, Address.complement_val]
  rfl

/-- `End - 1` in `uint32`, plus one, is `End`, with `End = 0` read as `2 ^ 32`. -/
theorem sub_one_val_add_one (t : Address) : (t - 1).val + 1 = if t = 0 then 2 ^ 32 else t.val := by
  by_cases ht : t = 0
  · subst ht
    rfl
  · have hone : (1 : Address).val = 1 := rfl
    have hle : (1 : Address) ≤ t := by
      rw [Fin.le_def, hone]
      exact Nat.one_le_iff_ne_zero.2 (Fin.val_ne_iff.2 ht)
    rw [if_neg ht, Fin.coe_sub_iff_le.2 hle, hone]
    have := Nat.one_le_iff_ne_zero.2 (Fin.val_ne_iff.2 ht)
    omega

/-- The mask of a block of `2 ^ j` addresses, `2 ^ 32 - 2 ^ j`, clears the low `j` bits, so an
aligned start OR its complement is the block's last address. -/
theorem or_complement_mask_val {start mask : Address} {j : Nat} (hj : j ≤ 32)
    (hm : mask.val = 2 ^ 32 - 2 ^ j) (hdvd : 2 ^ j ∣ start.val) :
    (start ||| Address.complement mask).val = start.val + (2 ^ j - 1) := by
  have hcomp : (Address.complement mask).val = 2 ^ j - 1 := by
    rw [Address.complement_val, hm, Lib.mask_xor_two_pow_sub_one hj]
  have hfit : start.val + 2 ^ j ≤ 2 ^ 32 :=
    add_le_of_dvd_of_lt (pow_dvd_pow 2 hj) hdvd start.isLt
  rw [Fin.or_val, hcomp, Lib.or_two_pow_sub_one hdvd, Nat.mod_eq_of_lt (by omega)]

/-! ## The inner loop -/

section Widen
variable (start endAddr : Address)

/-- One round of the inner loop on the mask of a block of `2 ^ j` addresses, `j < 32`: the
doubled mask is that of a block of `2 ^ (j + 1)`, and the loop stops exactly when that block does
not fit. -/
theorem widen_round {mask : Address} {j : Nat} (hj : j < 32) (hm : mask.val = 2 ^ 32 - 2 ^ j) :
    (mask <<< 1).val = 2 ^ 32 - 2 ^ (j + 1) ∧
      (((start &&& mask <<< 1) ≠ start ∨
          endAddr < (start ||| Address.complement (mask <<< 1))) ↔
        ¬BlockFits start.val endAddr.val (j + 1)) := by
  have hsh : (mask <<< 1).val = 2 ^ 32 - 2 ^ (j + 1) := by
    have hone : (1 : Address).val = 1 := rfl
    rw [Fin.shiftLeft_val, hone, hm]
    exact Lib.mask_shiftLeft_one hj
  have hand : (start &&& mask <<< 1) = start ↔ 2 ^ (j + 1) ∣ start.val := by
    rw [Fin.ext_iff, Fin.and_val, hsh]
    exact Lib.and_mask_eq_iff start.isLt (by omega)
  refine ⟨hsh, ?_⟩
  by_cases ha : (start &&& mask <<< 1) = start
  · -- aligned: the loop stops exactly when the doubled block runs past `end`
    have hdvd := hand.1 ha
    rw [Fin.lt_def, or_complement_mask_val (by omega) hsh hdvd]
    have := Nat.two_pow_pos (j + 1)
    simp only [BlockFits, ha, hdvd, ne_eq, not_true_eq_false, false_or, true_and]
    omega
  · have hndvd : ¬2 ^ (j + 1) ∣ start.val := mt hand.2 ha
    simp [BlockFits, ha, hndvd]

/-- The inner loop from the mask of a block of `2 ^ j` addresses that fits, with enough rounds
left, ends at the widest block that fits. Induction on the rounds left. -/
theorem widenMask_spec :
    ∀ (fuel j : Nat) (mask : Address), 32 ≤ j + fuel → j ≤ 32 → mask.val = 2 ^ 32 - 2 ^ j →
      BlockFits start.val endAddr.val j →
      ∃ j', j ≤ j' ∧ j' ≤ 32 ∧ BlockFits start.val endAddr.val j' ∧
        (j' < 32 → ¬BlockFits start.val endAddr.val (j' + 1)) ∧
        (Range.widenMask start endAddr fuel mask (32 - j)).1.val = 2 ^ 32 - 2 ^ j' ∧
        (Range.widenMask start endAddr fuel mask (32 - j)).2 = 32 - j'
  | 0, j, mask, hf, hj, hm, hfit => ⟨j, le_rfl, hj, hfit, by omega, hm, rfl⟩
  | fuel + 1, j, mask, hf, hj, hm, hfit => by
    by_cases hj32 : j < 32
    · have hpos : 0 < mask := by
        have := Nat.pow_lt_pow_right (by norm_num : 1 < 2) hj32
        rw [Fin.lt_def, hm]
        exact Nat.sub_pos_of_lt this
      obtain ⟨hsh, hcond⟩ := widen_round start endAddr hj32 hm
      by_cases hnext : BlockFits start.val endAddr.val (j + 1)
      · -- the doubled block fits: the loop goes on from it
        have hstep : Range.widenMask start endAddr (fuel + 1) mask (32 - j) =
            Range.widenMask start endAddr fuel (mask <<< 1) (32 - (j + 1)) := by
          rw [Range.widenMask, if_pos hpos]
          simp only
          rw [if_neg (fun h => hcond.1 h hnext), Nat.sub_sub]
        obtain ⟨j', hjj, hj', hfit', hmax, hm', hp'⟩ :=
          widenMask_spec fuel (j + 1) (mask <<< 1) (by omega) (by omega) hsh hnext
        exact ⟨j', by omega, hj', hfit', hmax, hstep ▸ hm', hstep ▸ hp'⟩
      · -- it does not: the loop stops at this block
        have hstep : Range.widenMask start endAddr (fuel + 1) mask (32 - j) = (mask, 32 - j) := by
          rw [Range.widenMask, if_pos hpos]
          simp only
          rw [if_pos (hcond.2 hnext)]
        exact ⟨j, le_rfl, hj, hfit, fun _ => hnext, by rw [hstep, hm], by rw [hstep]⟩
    · -- the whole address space: the mask is 0 and the loop stops
      have hj32 : j = 32 := by omega
      subst hj32
      have hzero : ¬0 < mask := by
        rw [Fin.lt_def, hm]
        exact Nat.lt_irrefl 0
      have hstep : Range.widenMask start endAddr (fuel + 1) mask (32 - 32) = (mask, 32 - 32) := by
        rw [Range.widenMask, if_neg hzero]
      exact ⟨32, le_rfl, le_rfl, hfit, by omega, by rw [hstep, hm], by rw [hstep]⟩

/-- The inner loop as `CIDRs` calls it, at a start below `end`, ends at the widest block that fits
there. -/
theorem widen_spec (h : start ≤ endAddr) :
    ∃ j ≤ 32, BlockFits start.val endAddr.val j ∧
      (j < 32 → ¬BlockFits start.val endAddr.val (j + 1)) ∧
      (Range.widenMask start endAddr 32 Range.fullMask Range.cidrMaxPrefixLen).1.val =
        2 ^ 32 - 2 ^ j ∧
      (Range.widenMask start endAddr 32 Range.fullMask Range.cidrMaxPrefixLen).2 = 32 - j := by
  have hfit : BlockFits start.val endAddr.val 0 := by
    rw [Fin.le_def] at h
    exact ⟨one_dvd _, by omega⟩
  obtain ⟨j, -, hj, hfit', hmax, hm, hp⟩ :=
    widenMask_spec start endAddr 32 0 Range.fullMask (by omega) (by omega) Range.fullMask_val hfit
  exact ⟨j, hj, hfit', hmax, hm, hp⟩

end Widen

/-! ## The outer loop -/

section Loop
variable {endAddr : Address}

theorem cidrsLoop_of_not_le {start : Address} (h : ¬start ≤ endAddr) (fuel : Nat) :
    Range.cidrsLoop endAddr fuel start = [] := by
  cases fuel with
  | zero => rfl
  | succ fuel => rw [Range.cidrsLoop, if_neg h]

/-- One round of the outer loop from a start below `end`: it emits the widest block
`⟨start, 32 - j⟩` that fits there, and then either stops, when the block ends at the top of the
address space, or goes on from the address after the block, whatever the rounds left. -/
theorem cidrsLoop_succ {start : Address} (h : start ≤ endAddr) :
    ∃ j ≤ 32, BlockFits start.val endAddr.val j ∧
      (j < 32 → ¬BlockFits start.val endAddr.val (j + 1)) ∧
      ((start.val + 2 ^ j = 2 ^ 32 ∧
          ∀ fuel, Range.cidrsLoop endAddr (fuel + 1) start = [⟨start, 32 - j⟩]) ∨
        ∃ next : Address, next.val = start.val + 2 ^ j ∧
          ∀ fuel, Range.cidrsLoop endAddr (fuel + 1) start =
            ⟨start, 32 - j⟩ :: Range.cidrsLoop endAddr fuel next) := by
  obtain ⟨j, hj, hfit, hmax, hm, hp⟩ := widen_spec start endAddr h
  refine ⟨j, hj, hfit, hmax, ?_⟩
  generalize hw : Range.widenMask start endAddr 32 Range.fullMask Range.cidrMaxPrefixLen = w
    at hm hp
  obtain ⟨mask, prefixLen⟩ := w
  dsimp only at hm hp
  subst hp
  have hloop : ∀ fuel, Range.cidrsLoop endAddr (fuel + 1) start =
      if (start ||| Address.complement mask) + 1 < (start ||| Address.complement mask) then
        [⟨start, 32 - j⟩]
      else ⟨start, 32 - j⟩ :: Range.cidrsLoop endAddr fuel ((start ||| Address.complement mask) + 1) := by
    intro fuel
    rw [Range.cidrsLoop, if_pos h, hw]
  -- the block's last address, and the address after it unless that wraps to 0
  have hlast := or_complement_mask_val hj hm hfit.1
  have hle : start.val + 2 ^ j ≤ 2 ^ 32 := by
    have := endAddr.isLt
    have := hfit.2
    omega
  have hone : (1 : Address).val = 1 := rfl
  have hpos := Nat.two_pow_pos j
  by_cases htop : start.val + 2 ^ j = 2 ^ 32
  · refine Or.inl ⟨htop, fun fuel => ?_⟩
    rw [hloop, if_pos]
    rw [Fin.lt_def, Fin.val_add, hlast, hone]
    rw [show start.val + (2 ^ j - 1) + 1 = 2 ^ 32 by omega, Nat.mod_self]
    omega
  · have hnext : ((start ||| Address.complement mask) + 1).val = start.val + 2 ^ j := by
      rw [Fin.val_add, hlast, hone, Nat.mod_eq_of_lt (by omega)]
      omega
    refine Or.inr ⟨_, hnext, fun fuel => ?_⟩
    rw [hloop, if_neg]
    rw [Fin.lt_def, hnext, hlast]
    omega

/-- The block `cidrsLoop_succ` emits is the widest that fits at its start. -/
theorem widest_of_fits {start : Address} {j : Nat} (hj : j ≤ 32)
    (hfit : BlockFits start.val endAddr.val j)
    (hmax : j < 32 → ¬BlockFits start.val endAddr.val (j + 1)) :
    Widest endAddr.val ⟨start, 32 - j⟩ := by
  refine ⟨Nat.sub_le 32 j, ?_, fun hp => ?_⟩
  · show BlockFits start.val endAddr.val (32 - (32 - j))
    rw [Nat.sub_sub_self hj]
    exact hfit
  · have hp : 0 < 32 - j := hp
    show ¬BlockFits start.val endAddr.val (33 - (32 - j))
    rw [show 33 - (32 - j) = j + 1 by omega]
    exact hmax (by omega)

theorem blockEnd_mk (start : Address) {j : Nat} (hj : j ≤ 32) :
    (⟨start, 32 - j⟩ : CIDR).blockEnd = start.val + 2 ^ j := by
  rw [CIDR.blockEnd, CIDR.blockSize, Nat.sub_sub_self hj]

/-- The outer loop from a start below `end`, with more rounds than addresses left, tiles
`[start, end]` with blocks each the widest that fits at its start. Induction on the rounds, one
case per way `cidrsLoop_succ` says a round can end. -/
theorem cidrsLoop_tiles : ∀ (fuel : Nat) (start : Address), start ≤ endAddr →
    endAddr.val - start.val < fuel →
    Lib.Tiles (fun c : CIDR => c.Addr.val) CIDR.blockEnd start.val
        (Range.cidrsLoop endAddr fuel start) (endAddr.val + 1) ∧
      ∀ c ∈ Range.cidrsLoop endAddr fuel start, Widest endAddr.val c
  | 0, _, _, hf => absurd hf (Nat.not_lt_zero _)
  | fuel + 1, start, h, hf => by
    obtain ⟨j, hj, hfit, hmax, ⟨htop, hl⟩ | ⟨next, hnv, hl⟩⟩ := cidrsLoop_succ h
    · -- the block ends at the top of the address space, so `end` is its last address
      have hend : endAddr.val + 1 = 2 ^ 32 := by
        have := endAddr.isLt
        have := hfit.2
        omega
      rw [hl fuel]
      refine ⟨?_, ?_⟩
      · refine ⟨rfl, ?_, ?_⟩
        · rw [blockEnd_mk start hj]
          exact Nat.lt_add_of_pos_right (Nat.two_pow_pos j)
        · rw [Lib.tiles_nil, blockEnd_mk start hj, htop, hend]
      · simp only [List.mem_singleton, forall_eq]
        exact widest_of_fits hj hfit hmax
    · rw [hl fuel]
      have hblock : start.val < (⟨start, 32 - j⟩ : CIDR).blockEnd := by
        rw [blockEnd_mk start hj]
        exact Nat.lt_add_of_pos_right (Nat.two_pow_pos j)
      -- the rest of the run starts after the block: empty past `end`, a tiling below it
      have hrest : Lib.Tiles (fun c : CIDR => c.Addr.val) CIDR.blockEnd (start.val + 2 ^ j)
            (Range.cidrsLoop endAddr fuel next) (endAddr.val + 1) ∧
          ∀ c ∈ Range.cidrsLoop endAddr fuel next, Widest endAddr.val c := by
        by_cases hne : next ≤ endAddr
        · rw [← hnv]
          have := Nat.two_pow_pos j
          rw [Fin.le_def] at h hne
          exact cidrsLoop_tiles fuel next hne (by omega)
        · rw [cidrsLoop_of_not_le hne]
          rw [Fin.le_def] at hne
          have := hfit.2
          exact ⟨by simp only [Lib.tiles_nil]; omega, by simp⟩
      refine ⟨⟨rfl, hblock, ?_⟩, ?_⟩
      · rw [blockEnd_mk start hj]
        exact hrest.1
      · intro c hc
        rcases List.mem_cons.1 hc with rfl | hc
        · exact widest_of_fits hj hfit hmax
        · exact hrest.2 c hc

/-- More rounds than addresses left are enough: further rounds change nothing. -/
theorem cidrsLoop_fuel : ∀ (fuel fuel' : Nat) (start : Address),
    endAddr.val - start.val < fuel → fuel ≤ fuel' →
    Range.cidrsLoop endAddr fuel' start = Range.cidrsLoop endAddr fuel start
  | 0, _, _, hf, _ => absurd hf (Nat.not_lt_zero _)
  | fuel + 1, fuel', start, hf, hle => by
    obtain ⟨f', rfl⟩ : ∃ f', fuel' = f' + 1 := ⟨fuel' - 1, by omega⟩
    by_cases h : start ≤ endAddr
    · obtain ⟨j, -, -, -, ⟨-, hl⟩ | ⟨next, hnv, hl⟩⟩ := cidrsLoop_succ h
      · rw [hl, hl]
      · rw [hl, hl]
        by_cases hne : next ≤ endAddr
        · rw [Fin.le_def] at h hne
          rw [cidrsLoop_fuel fuel f' next (by have := Nat.two_pow_pos j; omega) (by omega)]
        · rw [cidrsLoop_of_not_le hne, cidrsLoop_of_not_le hne]
    · rw [cidrsLoop_of_not_le h, cidrsLoop_of_not_le h]

end Loop

/-! ## The decomposition of a range -/

/-- Two neighbouring blocks, the first the widest that fits at its start below `e` and the second
ending by `e`, never make up one aligned block: that block would fit at the first one's start and
be twice as wide. -/
theorem Widest.not_mergeable {e : Nat} {c d : CIDR} (hc : Widest e c)
    (hcd : d.Addr.val = c.blockEnd) (hd : d.blockEnd ≤ e + 1) :
    ¬∃ k, c.blockSize + d.blockSize = 2 ^ k ∧ 2 ^ k ∣ c.Addr.val := by
  rintro ⟨k, hk, hdvd⟩
  obtain ⟨hsize, rfl⟩ := Lib.two_pow_add_two_pow_eq_two_pow hk
  rcases Nat.eq_zero_or_pos c.PrefixLen with h0 | hpos
  · -- a `/0` block is the whole address space, so no block follows it
    have hend : 2 ^ 32 ≤ c.blockEnd := by
      rw [CIDR.blockEnd, CIDR.blockSize, h0]
      exact Nat.le_add_left _ _
    have := d.Addr.isLt
    omega
  apply hc.2.2 hpos
  have hle := hc.1
  rw [show 33 - c.PrefixLen = 32 - c.PrefixLen + 1 by omega]
  refine ⟨hdvd, ?_⟩
  -- the two blocks have the same size, so together they are the block of twice that size
  have hds : d.blockSize = c.blockSize := by rw [CIDR.blockSize, CIDR.blockSize, hsize]
  have hdend : d.blockEnd = c.Addr.val + 2 ^ (32 - c.PrefixLen + 1) := by
    rw [CIDR.blockEnd, hcd, CIDR.blockEnd, hds, pow_succ 2 (32 - c.PrefixLen), CIDR.blockSize]
    omega
  omega

/-- The loop `CIDRs` runs, from `Start` to `End - 1`, tiles `[Start, End)` (reading `End = 0` as
`2 ^ 32`) with blocks each the widest that fits at its start. -/
theorem cidrs_tiles {r : Range} (h : r.Start < r.End ∨ r.End = 0) :
    Lib.Tiles (fun c : CIDR => c.Addr.val) CIDR.blockEnd r.Start.val r.cidrs
        ((r.End - 1).val + 1) ∧
      ∀ c ∈ r.cidrs, Widest (r.End - 1).val c := by
  have htop := sub_one_val_add_one r.End
  have hle : r.Start ≤ r.End - 1 := by
    rw [Fin.le_def]
    rcases h with h | h
    · have hne : r.End ≠ 0 := by
        rintro h0
        rw [h0, Fin.lt_def] at h
        exact Nat.not_lt_zero _ h
      rw [if_neg hne] at htop
      rw [Fin.lt_def] at h
      omega
    · rw [if_pos h] at htop
      have := r.Start.isLt
      omega
  exact cidrsLoop_tiles (2 ^ 32) r.Start hle (by have := (r.End - 1).isLt; omega)

/-- The blocks of a non-empty range lie inside it, and are at most `/32`. -/
theorem mem_cidrs_bounds {r : Range} (h : r.Start < r.End) {c : CIDR} (hc : c ∈ r.cidrs) :
    r.Start.val ≤ c.Addr.val ∧ c.blockEnd ≤ r.End.val ∧ c.PrefixLen ≤ 32 := by
  obtain ⟨ht, hw⟩ := cidrs_tiles (Or.inl h)
  have hne : r.End ≠ 0 := by
    rintro h0
    rw [h0, Fin.lt_def] at h
    exact Nat.not_lt_zero _ h
  have htop := sub_one_val_add_one r.End
  rw [if_neg hne] at htop
  obtain ⟨hlo, hhi⟩ := ht.bounds.2 c hc
  exact ⟨hlo, htop ▸ hhi, (hw c hc).1⟩

/-- The blocks of a non-empty range are in increasing order and disjoint. -/
theorem cidrs_pairwise {r : Range} (h : r.Start < r.End) :
    r.cidrs.Pairwise (fun c d => c.blockEnd ≤ d.Addr.val) :=
  (cidrs_tiles (Or.inl h)).1.pairwise

theorem cidrs_spec (r : Range) :
    ((r.Start < r.End ∨ r.End = 0) →
      (∀ fuel, 2 ^ 32 ≤ fuel → Range.cidrsLoop (r.End - 1) fuel r.Start = r.cidrs) ∧
      (∀ c ∈ r.cidrs, c.PrefixLen ≤ 32 ∧ c.blockSize ∣ c.Addr.val) ∧
      r.cidrs.Pairwise (fun c d => c.blockEnd ≤ d.Addr.val) ∧
      r.cidrs.IsChain (fun c d => d.Addr.val = c.blockEnd) ∧
      (∀ a : Address, (∃ c ∈ r.cidrs, c.Addr.val ≤ a.val ∧ a.val < c.blockEnd) ↔
        r.Start ≤ a ∧ (a < r.End ∨ r.End = 0)) ∧
      (∀ c ∈ r.cidrs, ∀ d ∈ r.cidrs, d.Addr.val = c.blockEnd →
        ¬∃ k, c.blockSize + d.blockSize = 2 ^ k ∧ 2 ^ k ∣ c.Addr.val)) ∧
    (r.Start = r.End → r.End ≠ 0 → r.cidrs = []) := by
  have htop := sub_one_val_add_one r.End
  refine ⟨fun h => ?_, fun hse hne => ?_⟩
  · obtain ⟨ht, hw⟩ := cidrs_tiles h
    refine ⟨fun fuel hfuel => ?_, fun c hc => ⟨(hw c hc).1, (hw c hc).2.1.1⟩, ht.pairwise,
      ht.isChain, fun a => ?_, fun c hc d hd hcd => ?_⟩
    · exact cidrsLoop_fuel (2 ^ 32) fuel r.Start (by have := (r.End - 1).isLt; omega) hfuel
    · -- the union is `[Start, End - 1 + 1)`, and `End - 1 + 1` is `End` or `2 ^ 32`
      rw [ht.exists_mem_iff a.val, Fin.le_def, Fin.lt_def]
      by_cases h0 : r.End = 0
      · rw [if_pos h0] at htop
        rw [htop]
        simp only [h0, or_true, and_true, a.isLt]
      · rw [if_neg h0] at htop
        simp only [h0, or_false, htop]
    · exact (hw c hc).not_mergeable hcd ((ht.bounds.2 d hd).2)
  · -- an empty range: `End - 1` is below `Start`, so the loop emits nothing
    rw [if_neg hne] at htop
    apply cidrsLoop_of_not_le
    rw [Fin.le_def, hse]
    omega

/-- The code's own test: `[10.0.0.1, 10.0.0.9)` is `10.0.0.1/32`, `10.0.0.2/31`, `10.0.0.4/30` and
`10.0.0.8/32`, here relative to `10.0.0.0`. -/
example : (⟨1, 9⟩ : Range).cidrs = [⟨1, 32⟩, ⟨2, 31⟩, ⟨4, 30⟩, ⟨8, 32⟩] := by decide

theorem cidrs_spec_one_nine :
    (∀ a : Address, (∃ c ∈ (⟨1, 9⟩ : Range).cidrs, c.Addr.val ≤ a.val ∧ a.val < c.blockEnd) ↔
        (1 : Address) ≤ a ∧ (a < 9 ∨ (9 : Address) = 0)) ∧
      (⟨5, 5⟩ : Range).cidrs = [] :=
  ⟨((cidrs_spec ⟨1, 9⟩).1 (Or.inl (by decide))).2.2.2.2.1, (cidrs_spec ⟨5, 5⟩).2 rfl (by decide)⟩

/-- The empty range at 0 is read as the whole address space: `End - 1` wraps to the top address,
and the loop emits the block `0.0.0.0/0`. -/
theorem cidrs_zero_zero : (⟨0, 0⟩ : Range).cidrs = [⟨0, 0⟩] := by decide

end WeaveNet
