import Mathlib
import WeaveNet.Address.Cidrs

/-!
# The route-table diff of the IPAM trackers

A tracker (`AWSVPCTracker.HandleUpdate` in `src/ipam/tracker/awsvpc.go`, and the local tracker of
`src/net/bridge.go`) turns an update of the ranges a peer owns into route changes: it joins the
adjacent ranges of each list (`Merge`), covers each list with CIDR blocks (`NewCIDRs`), and drops
the blocks the two lists share (`RemoveCommon`, `src/ipam/tracker/helpers.go`); the blocks left of
the old list are removed and those left of the new list added.

* `MergeInv` is what `Merge`'s loop keeps of the ranges it has read (`mergeInv_foldl`): on sorted,
  disjoint, non-empty ranges `Merge` returns ranges that are sorted and do not touch, with the
  same union (`merge_spec`).
* The blocks of such ranges are sorted and end below the top of the address space
  (`newCIDRs_sortedBlocks`), so that `CIDR.End()` does not wrap.
* On two such lists of blocks, each round of `RemoveCommon`'s two-pointer walk drops a block
  that the other list does not hold, or a block both hold (`not_mem_of_before`,
  `eq_of_start_endAddr`); so it returns exactly the blocks of each list not in the other
  (`removeCommonLoop_eq`).
-/

namespace WeaveNet

namespace CIDR

/-- `CIDR.Start()`. -/
def start (c : CIDR) : Address := c.Addr

/-- `CIDR.End()`: `cidr.Range().End`, one past the last address in `uint32`, so 0 for a block
that ends at the top of the address space. -/
def endAddr (c : CIDR) : Address := c.range.End

end CIDR

namespace Tracker

/-- One iteration of `Merge`'s loop, with `merged` kept last range first: extend the last range
when `ri` starts where it ends, and otherwise append `ri`. -/
def mergeStep : List Range → Range → List Range
  | last :: merged, ri =>
    if last.End = ri.Start then { last with End := ri.End } :: merged else ri :: last :: merged
  | [], ri => [ri]

/-- `Merge`: the loop over `r`, and the merged ranges put back in order. -/
def merge (r : List Range) : List Range := (r.foldl mergeStep []).reverse

/-- The loop of `RemoveCommon` on the blocks `a[i:]` and `b[j:]` not yet read, with `fuel` rounds
left: keep `a[i]` when it starts or ends before `b[j]`, keep `b[j]` when it starts or ends after
`a[i]`'s, and drop both when they are the same block; once a list is read, keep the rest of the
other. -/
def removeCommonLoop : Nat → List CIDR → List CIDR → List CIDR × List CIDR
  | fuel + 1, x :: a, y :: b =>
    if x.start < y.start ∨ x.endAddr < y.endAddr then
      let (newA, newB) := removeCommonLoop fuel a (y :: b)
      (x :: newA, newB)
    else if x.start > y.start ∨ x.endAddr > y.endAddr then
      let (newA, newB) := removeCommonLoop fuel (x :: a) b
      (newA, y :: newB)
    else removeCommonLoop fuel a b
  | _, a, b => (a, b)

/-- `RemoveCommon`: each round reads at least one block, so `len(a) + len(b)` rounds are enough. -/
def removeCommon (a b : List CIDR) : List CIDR × List CIDR :=
  removeCommonLoop (a.length + b.length) a b

/-! ## `Merge` -/

/-- A range extended by the one that starts where it ends holds the addresses of both. -/
theorem contains_join {r s : Range} (h : r.End = s.Start) (hr : r.Start ≤ r.End)
    (hs : s.Start ≤ s.End) (a : Address) :
    ({ r with End := s.End } : Range).contains a = true ↔
      r.contains a = true ∨ s.contains a = true := by
  simp only [Range.contains, decide_eq_true_eq]
  rw [← h] at hs
  constructor
  · rintro ⟨h1, h2⟩
    by_cases ha : a < r.End
    · exact Or.inl ⟨h1, ha⟩
    · exact Or.inr ⟨h ▸ not_lt.1 ha, h2⟩
  · rintro (⟨h1, h2⟩ | ⟨h1, h2⟩)
    · exact ⟨h1, lt_of_lt_of_le h2 hs⟩
    · exact ⟨le_trans hr (h ▸ h1), h2⟩

/-- What `Merge`'s loop keeps of the ranges `p` it has read, in `acc` (last range first): the
ranges are non-empty, in order and apart, they hold the addresses of `p`, and the last one ends
where the last range read does. -/
structure MergeInv (p acc : List Range) : Prop where
  apart : acc.Pairwise (fun n m => m.End < n.Start)
  nonempty : ∀ m ∈ acc, m.Start < m.End
  union : ∀ a, (∃ m ∈ acc, m.contains a = true) ↔ ∃ x ∈ p, x.contains a = true
  last : acc.head?.map Range.End = p.getLast?.map Range.End

theorem mergeInv_nil : MergeInv [] [] :=
  ⟨List.Pairwise.nil, by simp, by simp, rfl⟩

/-- One iteration of `Merge`'s loop keeps `MergeInv`, on a non-empty range that starts at or after
the end of every range read before it. -/
theorem MergeInv.step {p acc : List Range} {x : Range} (h : MergeInv p acc)
    (hx : x.Start < x.End) (hle : ∀ y ∈ p, y.End ≤ x.Start) :
    MergeInv (p ++ [x]) (mergeStep acc x) := by
  cases acc with
  | nil =>
    -- nothing merged yet, so nothing read yet
    have hp : p = [] := by
      have := h.last
      simp only [List.head?_nil, Option.map_none] at this
      exact List.getLast?_eq_none_iff.1 (Option.map_eq_none_iff.1 this.symm)
    subst hp
    refine ⟨List.pairwise_singleton _ _, fun m hm => ?_, fun a => by simp [mergeStep], rfl⟩
    simp only [mergeStep, List.mem_singleton] at hm
    rw [hm]
    exact hx
  | cons last rest =>
    -- the last merged range ends where the last range read does, so at or before `x.Start`
    have hlast : last.End ≤ x.Start := by
      have := h.last
      simp only [List.head?_cons, Option.map_some] at this
      obtain ⟨y, hy, hye⟩ := Option.map_eq_some_iff.1 this.symm
      rw [← hye]
      exact hle y (List.mem_of_getLast? hy)
    have hlastne := h.nonempty last List.mem_cons_self
    have hrest : ∀ m ∈ rest, m.End < last.Start := fun m hm => List.rel_of_pairwise_cons h.apart hm
    -- what was read is what was merged, and `x`
    have hunion : ∀ a, (∃ y ∈ p ++ [x], y.contains a = true) ↔
        (∃ m ∈ last :: rest, m.contains a = true) ∨ x.contains a = true := by
      intro a
      rw [h.union]
      simp only [List.mem_append, List.mem_singleton, or_and_right, exists_or, exists_eq_left]
    have hend : (p ++ [x]).getLast?.map Range.End = some x.End := by
      rw [List.getLast?_concat]
      rfl
    by_cases hjoin : last.End = x.Start
    · -- `x` starts where the last range ends: the last range grows to `x.End`
      rw [mergeStep, if_pos hjoin]
      refine ⟨List.Pairwise.cons (fun m hm => hrest m hm) (List.Pairwise.of_cons h.apart),
        fun m hm => ?_, fun a => ?_, hend.symm⟩
      · rcases List.mem_cons.1 hm with rfl | hm
        · exact lt_of_lt_of_le hlastne (hjoin ▸ le_of_lt hx)
        · exact h.nonempty m (List.mem_cons_of_mem _ hm)
      · rw [hunion]
        simp only [List.mem_cons, exists_eq_or_imp,
          contains_join hjoin (le_of_lt hlastne) (le_of_lt hx)]
        exact or_right_comm
    · -- otherwise `x` is a range of its own, after a gap
      rw [mergeStep, if_neg hjoin]
      refine ⟨List.Pairwise.cons (fun m hm => ?_) h.apart, fun m hm => ?_, fun a => ?_, hend.symm⟩
      · rcases List.mem_cons.1 hm with rfl | hm
        · exact lt_of_le_of_ne hlast hjoin
        · exact lt_trans (hrest m hm) (lt_of_lt_of_le hlastne hlast)
      · rcases List.mem_cons.1 hm with rfl | hm
        · exact hx
        · exact h.nonempty m hm
      · rw [hunion]
        simp only [List.mem_cons, exists_eq_or_imp]
        exact or_comm

/-- `Merge`'s loop over sorted, disjoint, non-empty ranges keeps `MergeInv`. Induction on the
ranges read, last range first. -/
theorem mergeInv_foldl : ∀ (p : List Range), (∀ x ∈ p, x.Start < x.End) →
    p.Pairwise (fun r s => r.End ≤ s.Start) → MergeInv p (p.foldl mergeStep []) := by
  intro p
  induction p using List.reverseRecOn with
  | nil => intro _ _; exact mergeInv_nil
  | append_singleton p x ih =>
    intro hne hs
    rw [List.pairwise_append] at hs
    rw [List.foldl_append, List.foldl_cons, List.foldl_nil]
    exact (ih (fun y hy => hne y (List.mem_append_left _ hy)) hs.1).step
      (hne x (List.mem_append_right _ List.mem_cons_self))
      (fun y hy => hs.2.2 y hy x List.mem_cons_self)

/-- `Merge` on sorted, disjoint, non-empty ranges: non-empty ranges, in order and apart (no two
touch), with the same addresses. -/
theorem merge_spec {rs : List Range} (h1 : ∀ r ∈ rs, r.Start < r.End)
    (h2 : rs.Pairwise (fun r s => r.End ≤ s.Start)) :
    (merge rs).Pairwise (fun m n => m.End < n.Start) ∧ (∀ m ∈ merge rs, m.Start < m.End) ∧
      ∀ a, (∃ m ∈ merge rs, m.contains a = true) ↔ ∃ r ∈ rs, r.contains a = true := by
  have h := mergeInv_foldl rs h1 h2
  refine ⟨List.pairwise_reverse.2 h.apart, fun m hm => h.nonempty m (List.mem_reverse.1 hm),
    fun a => ?_⟩
  simp only [merge, List.mem_reverse]
  exact h.union a

/-- `TestMerge`, relative to `10.0.0.0`. -/
example : merge [⟨0, 128⟩, ⟨128, 256⟩, ⟨512, 768⟩] = [⟨0, 256⟩, ⟨512, 768⟩] := by decide

/-- Sorted ranges that do not overlap lie one after the other. -/
theorem end_le_start {r s : Range} (hs : s.Start < s.End) (hle : r.Start ≤ s.Start)
    (hd : r.overlaps s = false) : r.End ≤ s.Start := by
  simp only [Range.overlaps, Bool.not_eq_false', Bool.or_eq_true, decide_eq_true_eq] at hd
  rcases hd with hd | hd
  · exact absurd (lt_of_le_of_lt (le_trans hd hle) hs) (lt_irrefl _)
  · exact hd

/-- Non-empty ranges sorted by their starts and pairwise disjoint lie one after the other. -/
theorem pairwise_end_le_start {rs : List Range} (hne : ∀ r ∈ rs, r.Start < r.End)
    (hs : rs.Pairwise (fun r s => r.Start ≤ s.Start))
    (hd : rs.Pairwise (fun r s => r.overlaps s = false)) :
    rs.Pairwise (fun r s => r.End ≤ s.Start) :=
  (hs.and hd).imp_of_mem (fun {_ s} _ hs' h => end_le_start (hne s hs') h.1 h.2)

/-! ## Blocks that `RemoveCommon` can compare -/

/-- A list of blocks as `NewCIDRs` makes them of sorted, disjoint, non-empty ranges: in increasing
order and disjoint, and each at most `/32` and ending below the top of the address space. -/
structure SortedBlocks (l : List CIDR) : Prop where
  sorted : l.Pairwise (fun x y => x.blockEnd ≤ y.Addr.val)
  prefixLen_le : ∀ x ∈ l, x.PrefixLen ≤ 32
  blockEnd_lt : ∀ x ∈ l, x.blockEnd < 2 ^ 32

theorem SortedBlocks.of_cons {x : CIDR} {l : List CIDR} (h : SortedBlocks (x :: l)) :
    SortedBlocks l :=
  ⟨List.Pairwise.of_cons h.sorted, fun y hy => h.prefixLen_le y (List.mem_cons_of_mem _ hy),
    fun y hy => h.blockEnd_lt y (List.mem_cons_of_mem _ hy)⟩

theorem addr_lt_blockEnd (c : CIDR) : c.Addr.val < c.blockEnd :=
  Nat.lt_add_of_pos_right (Nat.two_pow_pos _)

/-- A block that ends below the top of the address space: `End()` does not wrap. -/
theorem endAddr_val {c : CIDR} (h : c.blockEnd < 2 ^ 32) : c.endAddr.val = c.blockEnd := by
  have hsize : c.blockSize < 2 ^ 32 := by
    have := h
    rw [CIDR.blockEnd] at this
    omega
  have hsz : c.size.val = c.blockSize := by
    rw [CIDR.size, Fin.val_ofNat, Nat.one_shiftLeft]
    exact Nat.mod_eq_of_lt hsize
  rw [CIDR.endAddr, CIDR.range, Range.newRange, Address.add, Fin.val_add, hsz]
  exact Nat.mod_eq_of_lt h

/-- Two blocks with the same `Start()` and `End()` are the same block. -/
theorem eq_of_start_endAddr {x y : CIDR} (hx : x.PrefixLen ≤ 32) (hy : y.PrefixLen ≤ 32)
    (hxe : x.blockEnd < 2 ^ 32) (hye : y.blockEnd < 2 ^ 32) (hs : x.start = y.start)
    (he : x.endAddr = y.endAddr) : x = y := by
  have hend := congrArg Fin.val he
  rw [endAddr_val hxe, endAddr_val hye, CIDR.blockEnd, CIDR.blockEnd] at hend
  have haddr : x.Addr = y.Addr := hs
  rw [haddr] at hend
  have hsize : 32 - x.PrefixLen = 32 - y.PrefixLen :=
    Nat.pow_right_injective (le_refl 2) (Nat.add_left_cancel hend)
  cases x
  cases y
  simp only [CIDR.mk.injEq]
  exact ⟨haddr, by simp only at hx hy hsize; omega⟩

/-- A block that starts or ends before the first block of a sorted list is none of its blocks: the
later blocks start at or after the first one's end. -/
theorem not_mem_of_before {x y : CIDR} {b : List CIDR} (hb : SortedBlocks (y :: b))
    (h : x.start < y.start ∨ x.endAddr < y.endAddr) : x ∉ y :: b := by
  intro hmem
  rcases List.mem_cons.1 hmem with rfl | hmem
  · rcases h with h | h <;> exact lt_irrefl _ h
  · have hyx : y.blockEnd ≤ x.Addr.val := List.rel_of_pairwise_cons hb.sorted hmem
    have hxe := endAddr_val (hb.blockEnd_lt x (List.mem_cons_of_mem _ hmem))
    have hye := endAddr_val (hb.blockEnd_lt y List.mem_cons_self)
    have := addr_lt_blockEnd x
    have := addr_lt_blockEnd y
    rcases h with h | h
    · rw [Fin.lt_def] at h
      exact absurd h (by simp only [CIDR.start]; omega)
    · rw [Fin.lt_def, hxe, hye] at h
      omega

/-- The first block of a sorted list is not among the others. -/
theorem head_not_mem {x : CIDR} {a : List CIDR} (ha : SortedBlocks (x :: a)) : x ∉ a := by
  intro hmem
  have := List.rel_of_pairwise_cons ha.sorted hmem
  have := addr_lt_blockEnd x
  omega

/-- Dropping a value from the list filtered against changes nothing on a list without it. -/
theorem filter_not_mem_cons {x : CIDR} {l m : List CIDR} (h : x ∉ l) :
    l.filter (fun z => z ∉ x :: m) = l.filter (fun z => z ∉ m) := by
  apply List.filter_congr
  intro z hz
  have hzx : z ≠ x := fun hzx => h (hzx ▸ hz)
  simp [hzx]

/-- The walk of `RemoveCommon` over two sorted lists of blocks, with enough rounds, keeps exactly
the blocks of each list not in the other. Induction on the rounds, one case per branch of the
walk. -/
theorem removeCommonLoop_eq : ∀ (fuel : Nat) (a b : List CIDR), SortedBlocks a →
    SortedBlocks b → a.length + b.length ≤ fuel →
    removeCommonLoop fuel a b = (a.filter (fun x => x ∉ b), b.filter (fun y => y ∉ a))
  | 0, [], [], _, _, _ => rfl
  | 0, _ :: _, _, _, _, hf | 0, _, _ :: _, _, _, hf => by simp at hf
  | fuel + 1, [], b, _, _, _ => by simp [removeCommonLoop]
  | fuel + 1, x :: a, [], _, _, _ => by simp [removeCommonLoop]
  | fuel + 1, x :: a, y :: b, ha, hb, hf => by
    by_cases h1 : x.start < y.start ∨ x.endAddr < y.endAddr
    · -- `a[i]` is kept: it is no block of `b[j:]`
      have hx := not_mem_of_before hb h1
      have ih := removeCommonLoop_eq fuel a (y :: b) ha.of_cons hb (by simp at hf ⊢; omega)
      simp only [removeCommonLoop, if_pos h1, ih, List.filter_cons, hx, not_false_eq_true,
        decide_true, if_true, filter_not_mem_cons hx]
    · by_cases h2 : x.start > y.start ∨ x.endAddr > y.endAddr
      · -- `b[j]` is kept: it is no block of `a[i:]`
        have hy := not_mem_of_before ha h2
        have ih := removeCommonLoop_eq fuel (x :: a) b ha hb.of_cons (by simp at hf ⊢; omega)
        simp only [removeCommonLoop, if_neg h1, if_pos h2, ih, List.filter_cons, hy,
          not_false_eq_true, decide_true, if_true, filter_not_mem_cons hy]
      · -- the same block: both are dropped
        have hxy : x = y := by
          simp only [not_or, not_lt] at h1 h2
          exact eq_of_start_endAddr (ha.prefixLen_le x List.mem_cons_self)
            (hb.prefixLen_le y List.mem_cons_self) (ha.blockEnd_lt x List.mem_cons_self)
            (hb.blockEnd_lt y List.mem_cons_self) (le_antisymm h2.1 h1.1)
            (le_antisymm h2.2 h1.2)
        subst hxy
        have ih := removeCommonLoop_eq fuel a b ha.of_cons hb.of_cons (by simp at hf ⊢; omega)
        simp only [removeCommonLoop, if_neg h1, ih, List.filter_cons,
          List.mem_cons_self, not_true_eq_false, decide_false, Bool.false_eq_true, if_false,
          filter_not_mem_cons (head_not_mem ha), filter_not_mem_cons (head_not_mem hb)]

/-- `RemoveCommon` on two sorted lists of blocks keeps exactly the blocks of each list not in the
other. -/
theorem removeCommon_eq {a b : List CIDR} (ha : SortedBlocks a) (hb : SortedBlocks b) :
    removeCommon a b = (a.filter (fun x => x ∉ b), b.filter (fun y => y ∉ a)) :=
  removeCommonLoop_eq _ a b ha hb le_rfl

/-- `TestRemoveCommon`, relative to `10.0.0.0`. -/
example : removeCommon [⟨0, 25⟩, ⟨256, 24⟩] [⟨256, 24⟩, ⟨512, 24⟩] = ([⟨0, 25⟩], [⟨512, 24⟩]) := by
  decide

/-- The blocks of ranges that are non-empty and one after the other are sorted blocks. -/
theorem newCIDRs_sortedBlocks {rs : List Range} (h1 : ∀ r ∈ rs, r.Start < r.End)
    (h2 : rs.Pairwise (fun r s => r.End ≤ s.Start)) : SortedBlocks (newCIDRs rs) := by
  have hmem : ∀ c ∈ newCIDRs rs, ∃ r ∈ rs, c ∈ r.cidrs := fun c hc => List.mem_flatMap.1 hc
  refine ⟨?_, fun c hc => ?_, fun c hc => ?_⟩
  · refine List.pairwise_flatMap.2 ⟨fun r hr => cidrs_pairwise (h1 r hr), ?_⟩
    refine h2.imp_of_mem (fun {r s} hr hs hrs x hx y hy => ?_)
    have hxb := (mem_cidrs_bounds (h1 r hr) hx).2.1
    have hyb := (mem_cidrs_bounds (h1 s hs) hy).1
    rw [Fin.le_def] at hrs
    omega
  · obtain ⟨r, hr, hc⟩ := hmem c hc
    exact (mem_cidrs_bounds (h1 r hr) hc).2.2
  · obtain ⟨r, hr, hc⟩ := hmem c hc
    exact lt_of_le_of_lt (mem_cidrs_bounds (h1 r hr) hc).2.1 r.End.isLt

/-- `Merge` on non-empty ranges, sorted by their starts and disjoint. -/
theorem merge_spec_of_sorted {rs : List Range} (hne : ∀ r ∈ rs, r.Start < r.End)
    (hs : rs.Pairwise (fun r s => r.Start ≤ s.Start))
    (hd : rs.Pairwise (fun r s => r.overlaps s = false)) :
    (merge rs).Pairwise (fun m n => m.End < n.Start) ∧ (∀ m ∈ merge rs, m.Start < m.End) ∧
      ∀ a, (∃ m ∈ merge rs, m.contains a = true) ↔ ∃ r ∈ rs, r.contains a = true :=
  merge_spec hne (pairwise_end_le_start hne hs hd)

/-- The blocks of the merged ranges are sorted blocks. -/
theorem newCIDRs_merge_sortedBlocks {rs : List Range} (hne : ∀ r ∈ rs, r.Start < r.End)
    (hs : rs.Pairwise (fun r s => r.Start ≤ s.Start))
    (hd : rs.Pairwise (fun r s => r.overlaps s = false)) : SortedBlocks (newCIDRs (merge rs)) :=
  have h := merge_spec_of_sorted hne hs hd
  newCIDRs_sortedBlocks h.2.1 (h.1.imp le_of_lt)

theorem routeDiff_spec (prev curr : List Range)
    (hpne : ∀ r ∈ prev, r.Start < r.End) (hpsorted : prev.Pairwise (fun r s => r.Start ≤ s.Start))
    (hpdisj : prev.Pairwise (fun r s => r.overlaps s = false))
    (hcne : ∀ r ∈ curr, r.Start < r.End) (hcsorted : curr.Pairwise (fun r s => r.Start ≤ s.Start))
    (hcdisj : curr.Pairwise (fun r s => r.overlaps s = false)) :
    let P := newCIDRs (merge prev)
    let C := newCIDRs (merge curr)
    (removeCommon P C).1 = P.filter (fun x => x ∉ C) ∧
      (removeCommon P C).2 = C.filter (fun x => x ∉ P) ∧
      (∀ x, (x ∈ P ∨ x ∈ (removeCommon P C).2) ∧ x ∉ (removeCommon P C).1 ↔ x ∈ C) ∧
      ∀ rs ∈ [prev, curr], (merge rs).Pairwise (fun m n => m.End < n.Start) ∧
        (∀ m ∈ merge rs, m.Start < m.End) ∧
        ∀ a, (∃ m ∈ merge rs, m.contains a = true) ↔ ∃ r ∈ rs, r.contains a = true := by
  dsimp only
  have hrc := removeCommon_eq (newCIDRs_merge_sortedBlocks hpne hpsorted hpdisj)
    (newCIDRs_merge_sortedBlocks hcne hcsorted hcdisj)
  refine ⟨by rw [hrc], by rw [hrc], fun x => ?_, fun rs hrs => ?_⟩
  · -- adding the blocks of `C` not in `P` and removing those of `P` not in `C` leaves `C`
    rw [hrc]
    simp only [List.mem_filter, decide_eq_true_eq]
    by_cases hxP : x ∈ newCIDRs (merge prev) <;> by_cases hxC : x ∈ newCIDRs (merge curr) <;>
      simp [hxP, hxC]
  · rcases List.mem_pair.1 hrs with rfl | rfl
    · exact merge_spec_of_sorted hpne hpsorted hpdisj
    · exact merge_spec_of_sorted hcne hcsorted hcdisj

theorem routeDiff_spec_two_lists :
    (removeCommon (newCIDRs (merge [⟨0, 128⟩, ⟨128, 256⟩]))
        (newCIDRs (merge [⟨0, 256⟩, ⟨512, 768⟩]))).1 =
      (newCIDRs (merge [⟨0, 128⟩, ⟨128, 256⟩])).filter
        (fun x => x ∉ newCIDRs (merge [⟨0, 256⟩, ⟨512, 768⟩])) :=
  (routeDiff_spec [⟨0, 128⟩, ⟨128, 256⟩] [⟨0, 256⟩, ⟨512, 768⟩] (by decide) (by decide)
    (by decide) (by decide) (by decide) (by decide)).1

end Tracker

end WeaveNet
