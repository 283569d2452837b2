import WeaveNet.Space.Spec

/-!
# Which block `Donate` gives away

`Space.Donate(r)` (`ipam/space/space.go`) runs when another peer asks for space in `r`.
`Space/Spec.lean` shows that it gives away a block of free addresses of `r`. This module shows
which block that is.

- `biggestFreeRange` keeps, over the free chunks of `r`, the last of the largest
  `BiggestCIDRRange` blocks (`biggestFreeRange_max`). A run of free addresses lies in one chunk
  (`exists_mem_of_covers_Icc`), and `BiggestCIDRRange` is a largest aligned block of its chunk
  (`le_biggestBlock`). So the block kept is a largest CIDR block of free addresses of `r`
  (`isLargestFreeBlock_biggestFreeRange`).
- `Donate` gives that block away when it holds at most half of the free addresses of `r`, as
  `NumFreeAddressesInRange` counts them (`numFreeAddressesInRange_val`); otherwise it gives away
  the block's upper half. Subtracting the block from `ours` leaves the array as it was
  (`subtract_ours`), since a boundary array is determined by what it covers.
- Each donation removes at least one free address of `r`. So donating until `Donate` fails ends,
  having given away every free address of `r` exactly once (`donateRepeatedly_spec`).
-/

namespace WeaveNet.Space

open Lib

variable {s : Space} {r : Range}

/-! ## The free chunks of a valid space -/

theorem boundaries_freeChunks (hv : s.Valid) : Boundaries (boundariesOf (s.freeChunks r)) := by
  rw [freeChunks]
  split_ifs with hr
  · exact ⟨List.Pairwise.nil, rfl⟩
  · exact chunks_boundaries (not_le.1 hr) hv.free

theorem covers_freeChunks (hv : s.Valid) (x : Address) :
    Covers (boundariesOf (s.freeChunks r)) x ↔ x ∈ s.freeIn r := by
  rw [mem_freeIn, freeChunks]
  split_ifs with hr
  · exact iff_of_false (covers_nil x) fun h => absurd (lt_of_le_of_lt h.2.1 h.2.2) (not_lt.2 hr)
  · exact covers_chunks hv.free x

theorem start_lt_end_of_mem_freeChunks (hv : s.Valid) {c : Range} (hc : c ∈ s.freeChunks r) :
    c.Start < c.End :=
  start_lt_end_of_mem (boundaries_freeChunks hv) c hc

/-! ## The counter of free addresses in a range -/

/-- The loop of `NumFreeAddressesInRange` adds the chunk sizes to its running sum. -/
theorem foldl_add_size : ∀ (cs : List Range) (acc : Count),
    cs.foldl (fun res c => res + c.size) acc = acc + sumRanges (boundariesOf cs)
  | [], acc => Fin.ext (by simp [boundariesOf, sumRanges])
  | c :: cs, acc => by
    rw [List.foldl_cons, foldl_add_size cs, boundariesOf, sumRanges]
    change acc + c.size + _ = acc + (c.size + _)
    apply Fin.ext
    simp only [Fin.val_add]
    omega

/-- **`NumFreeAddressesInRange` counts the free addresses of the range**, without wrapping. -/
theorem numFreeAddressesInRange_val (hv : s.Valid) :
    (s.numFreeAddressesInRange r).val = (s.freeIn r).card := by
  have hb := boundaries_freeChunks (r := r) hv
  have hset : s.freeIn r = Finset.univ.filter fun x => Covers (boundariesOf (s.freeChunks r)) x :=
    Finset.ext fun x => by simp only [Finset.mem_filter, Finset.mem_univ, true_and,
      covers_freeChunks hv]
  rw [numFreeAddressesInRange, walkFree_eq, foldUntil_of_never_stops _ (fun _ _ => rfl)]
  dsimp only
  rw [foldl_add_size, Fin.val_add, Fin.val_zero, Nat.zero_add, Nat.mod_eq_of_lt (Fin.isLt _),
    sumRanges_val hb, hset, card_covers hb]

/-! ## The block `biggestFreeRange` keeps -/

/-- A CIDR block of free addresses of `r`: the `2 ^ k` addresses from `a`, a multiple of
`2 ^ k`, all of them inside `r` and free. -/
def IsFreeBlock (s : Space) (r : Range) (a k : Nat) : Prop :=
  2 ^ k ∣ a ∧ r.Start.val ≤ a ∧ a + 2 ^ k ≤ r.End.val ∧
    ∀ x : Address, a ≤ x.val → x.val < a + 2 ^ k → Covers s.free x

/-- A largest CIDR block of free addresses of `r`. -/
def IsLargestFreeBlock (s : Space) (r : Range) (a k : Nat) : Prop :=
  IsFreeBlock s r a k ∧ ∀ a' k', IsFreeBlock s r a' k' → k' ≤ k

/-- An aligned block whose addresses are free addresses of `r` is a free block of `r`. -/
theorem isFreeBlock_of_mem {a k : Nat} (hdvd : 2 ^ k ∣ a) (hlt : a + 2 ^ k ≤ 2 ^ 32)
    (h : ∀ x : Address, a ≤ x.val → x.val < a + 2 ^ k → x ∈ s.freeIn r) : IsFreeBlock s r a k := by
  have hpos := Nat.two_pow_pos k
  -- the first and the last address of the block lie in `r`
  have hfirst := mem_freeIn.1 (h ⟨a, by omega⟩ le_rfl (by dsimp only; omega))
  have hlast := mem_freeIn.1 (h ⟨a + 2 ^ k - 1, by omega⟩ (by dsimp only; omega) (by dsimp only; omega))
  refine ⟨hdvd, hfirst.2.1, ?_, fun x hx hx' => (mem_freeIn.1 (h x hx hx')).1⟩
  have := Fin.lt_def.1 hlast.2.2
  dsimp only at this
  omega

/-- The block `BiggestCIDRRange` picks is no larger than its chunk. -/
theorem size_biggestCIDRRange_le {c : Range} (hc : c.Start < c.End) :
    c.biggestCIDRRange.size.val ≤ c.size.val := by
  obtain ⟨h1, h2, h3⟩ := biggestCIDRRange_sub hc
  rw [Range.size_val (Fin.le_def.2 h2.le), Range.size_val hc.le]
  omega

/-- The loop of `biggestFreeRange`, for any callback that keeps its count the size of its block
and never lowers it: once the callback has raised the count to `v` at one chunk, the block the
loop returns is at least that large. -/
theorem le_size_foldUntil {F : Range → Range × Count → Bool × (Range × Count)} {cs : List Range}
    {c : Range} {v : Count} (hc : c ∈ cs) (hcont : ∀ b st, (F b st).1 = false)
    (hsize : ∀ b st, st.2 = st.1.size → (F b st).2.2 = (F b st).2.1.size)
    (hmono : ∀ b st, st.2 ≤ (F b st).2.2) (hest : ∀ st, v ≤ (F c st).2.2)
    {init : Range × Count} (hinit : init.2 = init.1.size) :
    v ≤ (foldUntil F cs init).2.1.size := by
  rw [← foldUntil_induction F (fun st => st.2 = st.1.size) (fun b _ st h => hsize b st h) hinit]
  exact foldUntil_of_mem F hcont (fun st => v ≤ st.2) hc hest
    (fun b _ st h => le_trans h (hmono b st)) init

/-- **No chunk's block is larger than the block `biggestFreeRange` keeps.** Its callback replaces
the block it holds only by a block at least as large, and takes the block of each chunk that is
not smaller than the block it holds. -/
theorem biggestFreeRange_max (hv : s.Valid) {c : Range} (hc : c ∈ s.freeChunks r) :
    c.biggestCIDRRange.size ≤ (s.biggestFreeRange r).size := by
  have hcb : c.biggestCIDRRange.size ≤ c.size :=
    size_biggestCIDRRange_le (start_lt_end_of_mem_freeChunks hv hc)
  rw [biggestFreeRange, walkFree_eq]
  refine le_size_foldUntil hc (fun _ st => ?_) (fun _ st h => ?_) (fun _ st => ?_) (fun st => ?_) rfl
  all_goals
    obtain ⟨b, sz⟩ := st
    dsimp only at *
  · split_ifs <;> rfl
  · split_ifs <;> first | rfl | exact h
  · split_ifs with h1 h2
    · exact h2
    · exact le_rfl
    · exact le_rfl
  · -- a chunk smaller than the block held has a smaller block
    split_ifs with h1 h2
    · exact le_rfl
    · exact (not_le.1 h2).le
    · exact le_trans hcb (not_le.1 h1).le

/-- **No CIDR block of free addresses of `r` is larger than the block `biggestFreeRange`
keeps**: the block lies in one chunk, and no aligned block of the chunk is larger than its
`BiggestCIDRRange`. -/
theorem le_biggestFreeRange (hv : s.Valid) {a k : Nat} (hb : IsFreeBlock s r a k) :
    2 ^ k ≤ (s.biggestFreeRange r).size.val := by
  obtain ⟨hdvd, hs, he, hfree⟩ := hb
  have hpos := Nat.two_pow_pos k
  have hE := r.End.isLt
  -- the block, from its first to its last address, is a run of free addresses of `r`
  obtain ⟨c, hc, hcs, hce⟩ := exists_mem_of_covers_Icc (boundaries_freeChunks (r := r) hv)
    (show (⟨a, by omega⟩ : Address) ≤ ⟨a + 2 ^ k - 1, by omega⟩ from Fin.le_def.2 (by dsimp only; omega))
    fun x hx hx' => by
      rw [Fin.le_def] at hx hx'
      dsimp only at hx hx'
      exact (covers_freeChunks hv x).2 (mem_freeIn.2 ⟨hfree x hx (by omega),
        Fin.le_def.2 (by omega), Fin.lt_def.2 (by omega)⟩)
  rw [Fin.le_def] at hcs
  rw [Fin.lt_def] at hce
  dsimp only at hcs hce
  have hclt := start_lt_end_of_mem_freeChunks hv hc
  have hsz := Range.size_val hclt.le
  calc 2 ^ k ≤ (biggestBlock c.Start.val c.size.val).2 :=
        le_biggestBlock _ (Range.size_pos hclt) hdvd hcs (by omega)
    _ = c.biggestCIDRRange.size.val := (biggestCIDRRange_size hclt).symm
    _ ≤ (s.biggestFreeRange r).size.val := biggestFreeRange_max hv hc

/-- **`biggestFreeRange` keeps a largest CIDR block of free addresses of `r`**, of `2 ^ k`
addresses, when `r` has a free address. -/
theorem isLargestFreeBlock_biggestFreeRange (hv : s.Valid) (hne : (s.freeIn r).Nonempty) :
    ∃ k, (s.biggestFreeRange r).size.val = 2 ^ k ∧
      (s.biggestFreeRange r).End.val = (s.biggestFreeRange r).Start.val + 2 ^ k ∧
      IsLargestFreeBlock s r (s.biggestFreeRange r).Start.val k := by
  obtain ⟨c, hc, hB⟩ : ∃ c ∈ s.freeChunks r, s.biggestFreeRange r = c.biggestCIDRRange := by
    rcases biggestFreeRange_cases s r with ⟨hnil, -⟩ | hc
    · exact absurd ((freeChunks_eq_nil_iff hv).1 hnil) hne.ne_empty
    · exact hc
  have hclt := start_lt_end_of_mem_freeChunks hv hc
  have hsz := Range.size_val hclt.le
  have hcE := c.End.isLt
  obtain ⟨hS, hE⟩ := biggestCIDRRange_val hclt
  obtain ⟨h1, -, h3⟩ := biggestBlock_sub c.Start.val (Range.size_pos hclt)
  obtain ⟨⟨k, hk⟩, hdvd⟩ := biggestBlock_aligned c.Start.val (Range.size_pos hclt)
  have hsize : (s.biggestFreeRange r).size.val = 2 ^ k := by rw [hB, biggestCIDRRange_size hclt, hk]
  rw [hk] at h3 hdvd hE
  -- the block lies inside the chunk, so its addresses are free addresses of `r`
  have hfree : IsFreeBlock s r (s.biggestFreeRange r).Start.val k := by
    rw [hB, hS]
    refine isFreeBlock_of_mem hdvd (by omega) fun x hx hx' => ?_
    exact (covers_freeChunks hv x).1 (covers_of_mem hc (Fin.le_def.2 (by omega))
      (Fin.lt_def.2 (by omega)))
  refine ⟨k, hsize, by rw [hB, hS, hE], hfree, fun a' k' hb' => ?_⟩
  have := le_biggestFreeRange hv hb'
  rw [hsize] at this
  exact (Nat.pow_le_pow_iff_right (by omega)).1 this

/-! ## The block given away -/

/-- **Subtracting free addresses from `ours` leaves the array as it was**: the result is a
well-formed array covering what `ours` covers, and there is only one such array. -/
theorem subtract_ours (hv : s.Valid) {D : Range} (hD : D.Start < D.End)
    (hfree : Finset.Ico D.Start D.End ⊆ s.freeSet) : subtract s.ours D.Start D.End = s.ours := by
  refine Boundaries.ext (boundaries_subtract hv.ours hD) hv.ours fun x => ?_
  rw [covers_subtract hv.ours hD, and_iff_left_iff_imp]
  exact fun hx hin => hv.disjoint x hx (mem_freeSet.1 (hfree (Finset.mem_Ico.2 hin)))

/-- Removing a block from the free array removes it from the free addresses of every range. -/
theorem freeIn_remove (hv : s.Valid) {D : Range} (hD : D.Start < D.End) :
    (⟨subtract s.ours D.Start D.End, subtract s.free D.Start D.End⟩ : Space).freeIn r =
      s.freeIn r \ Finset.Ico D.Start D.End := by
  ext x
  simp only [mem_freeIn, Finset.mem_sdiff, Finset.mem_Ico, covers_subtract hv.free hD]
  tauto

/-- **`Donate` on a range with a free address gives away a largest free block or its upper
half.** With `2 ^ k` the size of the block `biggestFreeRange` keeps, the block itself is given
away when `2 ^ k` is at most half of `NumFreeAddressesInRange(r)`, and otherwise the block from
`2 ^ k / 2` addresses into it. -/
theorem donate_block (hv : s.Valid) (hne : (s.freeIn r).Nonempty) :
    ∃ a k, IsLargestFreeBlock s r a k ∧ ∃ D : Range, D.End.val = a + 2 ^ k ∧
      D.Start.val = (if 2 ^ k ≤ (s.numFreeAddressesInRange r).val / 2 then a else a + 2 ^ k / 2) ∧
      s.donate r = (⟨subtract s.ours D.Start D.End, subtract s.free D.Start D.End⟩, D, true) := by
  obtain ⟨k, hsize, hend, hlargest⟩ := isLargestFreeBlock_biggestFreeRange hv hne
  refine ⟨_, k, hlargest, ?_⟩
  have hne0 : (s.biggestFreeRange r).size ≠ 0 := fun h0 => by
    rw [Fin.ext_iff, hsize] at h0
    exact absurd h0 (Nat.two_pow_pos k).ne'
  have hE := (s.biggestFreeRange r).End.isLt
  have htwo : (2 : Count).val = 2 := rfl
  have hcond : (s.biggestFreeRange r).size > s.numFreeAddressesInRange r / 2 ↔
      ¬2 ^ k ≤ (s.numFreeAddressesInRange r).val / 2 := by
    rw [gt_iff_lt, Fin.lt_def, Fin.div_val, hsize, htwo, not_le]
  rw [donate]
  dsimp only
  rw [if_neg hne0]
  by_cases hle : 2 ^ k ≤ (s.numFreeAddressesInRange r).val / 2
  · -- at most half of the free addresses: the block itself
    rw [if_neg fun h => hcond.1 h hle, if_pos hle]
    exact ⟨_, hend, rfl, rfl⟩
  · -- more than half: the block from its middle on, which does not wrap
    rw [if_pos (hcond.2 hle), if_neg hle]
    refine ⟨{ s.biggestFreeRange r with
      Start := Address.add (s.biggestFreeRange r).Start ((s.biggestFreeRange r).size / 2) },
      hend, ?_, rfl⟩
    simp only [Address.add, Fin.val_add, Fin.div_val, hsize, htwo]
    omega

/-! ## Donating until it fails -/

/-- A client calling `Donate(r)` until it fails, at most `fuel` times: the blocks given away, and
the space left. -/
def donateRepeatedly : Nat → Space → Range → List Range × Space
  | 0, s, _ => ([], s)
  | fuel + 1, s, r =>
    match s.donate r with
    | (s', D, true) =>
      let rest := donateRepeatedly fuel s' r
      (D :: rest.1, rest.2)
    | (_, _, false) => ([], s)

/-- **Donating until it fails gives away every free address of `r` once**, within as many
calls as there are free addresses: each donation gives away at least one of them and no other
address. -/
theorem donateRepeatedly_spec (fuel : Nat) : ∀ {s : Space}, s.Valid → (s.freeIn r).card ≤ fuel →
    ((donateRepeatedly fuel s r).1.map fun D => D.size.val).sum = (s.freeIn r).card ∧
      ((donateRepeatedly fuel s r).2.donate r).2.2 = false := by
  induction fuel with
  | zero =>
    intro s hv hF
    have hempty : s.freeIn r = ∅ := Finset.card_eq_zero.1 (Nat.le_zero.1 hF)
    rw [donateRepeatedly, hempty, donate_of_empty hv hempty]
    exact ⟨rfl, rfl⟩
  | succ fuel ih =>
    intro s hv hF
    by_cases hne : (s.freeIn r).Nonempty
    · obtain ⟨D, hD, hsub, hdon⟩ := donate_of_nonempty hv hne
      have hsize := Range.size_pos hD
      have hIco : (Finset.Ico D.Start D.End).card = D.size.val := by
        rw [Fin.card_Ico, Range.size_val hD.le]
      have hle := Finset.card_le_card hsub
      -- the donation gives away at least one free address of `r`, and only such addresses
      have hcard : ((⟨subtract s.ours D.Start D.End, subtract s.free D.Start D.End⟩ : Space).freeIn
          r).card = (s.freeIn r).card - D.size.val := by
        rw [freeIn_remove hv hD, Finset.card_sdiff_of_subset hsub, hIco]
      obtain ⟨ih1, ih2⟩ := ih (hv.remove hD) (by omega)
      simp only [donateRepeatedly, hdon, List.map_cons, List.sum_cons]
      refine ⟨?_, ih2⟩
      rw [ih1, hcard]
      omega
    · have hempty := Finset.not_nonempty_iff_eq_empty.1 hne
      have hdon := donate_of_empty hv hempty
      simp only [donateRepeatedly, hdon, hempty]
      exact ⟨rfl, trivial⟩

/-! ## What `Donate` does -/

/-- What `Donate(r)` does from a space `s`. -/
structure DonateSpec (s : Space) (r : Range) : Prop where
  /-- `NumFreeAddressesInRange(r)` is the number of free addresses of `r`. -/
  count : (s.numFreeAddressesInRange r).val = (s.freeIn r).card
  /-- `Donate(r)` succeeds exactly when some address of `r` is free. -/
  ok_iff : (s.donate r).2.2 = true ↔ (s.freeIn r).Nonempty
  /-- On success it gives away a CIDR block of free addresses of `r`: a largest one, of `2 ^ k`
  addresses from `a`, when that is at most half of the free addresses of `r`, and otherwise its
  upper half. The block leaves `free`, and `ours` is left as it was. -/
  ok : (s.donate r).2.2 = true → ∃ a k, IsLargestFreeBlock s r a k ∧
    Finset.Ico (s.donate r).2.1.Start (s.donate r).2.1.End ⊆ s.freeIn r ∧
    (∃ j, (s.donate r).2.1.size.val = 2 ^ j) ∧
    (s.donate r).2.1.size.val ∣ (s.donate r).2.1.Start.val ∧
    (s.donate r).2.1.End.val = a + 2 ^ k ∧
    (s.donate r).2.1.Start.val =
      (if 2 ^ k ≤ (s.numFreeAddressesInRange r).val / 2 then a else a + 2 ^ k / 2) ∧
    (s.donate r).1 = ⟨s.ours, subtract s.free (s.donate r).2.1.Start (s.donate r).2.1.End⟩ ∧
    (s.donate r).1.freeSet = s.freeSet \ Finset.Ico (s.donate r).2.1.Start (s.donate r).2.1.End
  /-- Donating from `r` until `Donate` fails stops within `NumFreeAddressesInRange(r)` calls, and
  the sizes of the blocks given away add up to that number. -/
  repeated : ∀ fuel, (s.numFreeAddressesInRange r).val ≤ fuel →
    ((donateRepeatedly fuel s r).1.map fun D => D.size.val).sum =
        (s.numFreeAddressesInRange r).val ∧
      ((donateRepeatedly fuel s r).2.donate r).2.2 = false

/-- **Donation.** From a valid space, `Donate(r)` gives away a largest CIDR block of free
addresses of `r`, or the upper half of one, and repeated donation gives away every free address
of `r` once. -/
theorem donate_spec (hv : s.Valid) (r : Range) : DonateSpec s r where
  count := numFreeAddressesInRange_val hv
  ok_iff := by
    by_cases hne : (s.freeIn r).Nonempty
    · obtain ⟨D, -, -, hdon⟩ := donate_of_nonempty hv hne
      rw [hdon]
      exact iff_of_true rfl hne
    · rw [donate_of_empty hv (Finset.not_nonempty_iff_eq_empty.1 hne)]
      exact iff_of_false Bool.false_ne_true hne
  ok hok := by
    have hne : (s.freeIn r).Nonempty := by
      by_contra hne
      rw [donate_of_empty hv (Finset.not_nonempty_iff_eq_empty.1 hne)] at hok
      cases hok
    obtain ⟨a, k, hlargest, D, hend, hstart, hdon⟩ := donate_block hv hne
    have hpos := Nat.two_pow_pos k
    have hblock := hlargest.1
    obtain ⟨hdvd, hs, he, hfree⟩ := hblock
    have hfree' : ∀ x : Address, a ≤ x.val → x.val < a + 2 ^ k → x ∈ s.freeIn r :=
      fun x hx hx' => mem_freeIn.2 ⟨hfree x hx hx', Fin.le_def.2 (by omega), Fin.lt_def.2 (by omega)⟩
    rw [hdon]
    dsimp only
    -- the donated block lies in the largest block, from its start or from its middle
    have hDin : a ≤ D.Start.val ∧ D.Start.val < D.End.val := by
      rw [hend, hstart]
      split_ifs <;> omega
    have hD : D.Start < D.End := Fin.lt_def.2 hDin.2
    have hsub : Finset.Ico D.Start D.End ⊆ s.freeIn r := fun x hx => by
      rw [Finset.mem_Ico, Fin.le_def, Fin.lt_def] at hx
      exact hfree' x (by omega) (by omega)
    have haligned : (∃ j, D.size.val = 2 ^ j) ∧ D.size.val ∣ D.Start.val := by
      rw [Range.size_val hD.le, hend, hstart]
      split_ifs
      · rw [Nat.add_sub_cancel_left]
        exact ⟨⟨k, rfl⟩, hdvd⟩
      · rw [show a + 2 ^ k - (a + 2 ^ k / 2) = 2 ^ k - 2 ^ k / 2 by omega]
        exact upperHalf_aligned hdvd
    refine ⟨a, k, hlargest, hsub, haligned.1, haligned.2, hend, hstart, ?_, ?_⟩
    · rw [subtract_ours hv hD (hsub.trans (Finset.filter_subset _ _))]
    · ext x
      simp only [mem_freeSet, Finset.mem_sdiff, Finset.mem_Ico, covers_subtract hv.free hD]
  repeated fuel hfuel := by
    rw [numFreeAddressesInRange_val hv] at hfuel ⊢
    exact donateRepeatedly_spec fuel hv hfuel

theorem donate_spec_one_range :
    (⟨[], [8, 16]⟩ : Space).Valid ∧ DonateSpec ⟨[], [8, 16]⟩ ⟨0, 32⟩ := by
  have hv : (⟨[], [8, 16]⟩ : Space).Valid := ⟨⟨.nil, rfl⟩, ⟨by decide, rfl⟩, fun _ h => h.elim⟩
  exact ⟨hv, donate_spec hv _⟩

end WeaveNet.Space
