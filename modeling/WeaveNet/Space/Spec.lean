import Mathlib
import WeaveNet.Lib.Pool
import WeaveNet.Space.Walk

/-!
# A space is a pool of addresses

A well-formed space (`Space.Valid`: both arrays well formed, no address both ours and free)
stands for a pool of addresses (`Space.pool`): `ours` the handed-out ones, `free` the free ones.
This module proves that every operation of `space.go` keeps a space well formed and acts on its
pool as the pool operation of the same intent does: `Allocate` and `Claim` hand out an address,
`Free` takes one back, `UpdateRanges` grows the pool by the new addresses, `Donate` removes a
block of free ones and `Clear` empties it. The counters `NumOwnedAddresses` and
`NumFreeAddresses` are the sizes of the two sets (`total_val`), so the pool lemmas give how
their sum changes.
-/

namespace WeaveNet.Space

open Lib

/-! ## Whole arrays added and subtracted -/

section Arrays

theorem boundaries_addAll :
    ∀ {a b : List Address}, Boundaries a → Boundaries b → Boundaries (Space.addAll a b)
  | _, _ :: _ :: _, ha, hb => by
    rw [Space.addAll]
    exact boundaries_addAll (boundaries_add ha hb.head_lt) hb.of_cons_cons
  | _, [], ha, _ => ha
  | _, [_], _, hb => absurd hb.even (by simp)

theorem covers_addAll : ∀ {a b : List Address}, Boundaries a → Boundaries b → ∀ x,
    Covers (Space.addAll a b) x ↔ Covers a x ∨ Covers b x
  | _, _ :: _ :: _, ha, hb, x => by
    rw [Space.addAll, covers_addAll (boundaries_add ha hb.head_lt) hb.of_cons_cons,
      covers_add ha hb.head_lt, covers_cons_cons, or_assoc]
  | _, [], _, _, x => by simp [Space.addAll]
  | _, [_], _, hb, _ => absurd hb.even (by simp)

theorem boundaries_subtractAll :
    ∀ {a b : List Address}, Boundaries a → Boundaries b → Boundaries (Space.subtractAll a b)
  | _, _ :: _ :: _, ha, hb => by
    rw [Space.subtractAll]
    exact boundaries_subtractAll (boundaries_subtract ha hb.head_lt) hb.of_cons_cons
  | _, [], ha, _ => ha
  | _, [_], _, hb => absurd hb.even (by simp)

theorem covers_subtractAll : ∀ {a b : List Address}, Boundaries a → Boundaries b → ∀ x,
    Covers (Space.subtractAll a b) x ↔ Covers a x ∧ ¬Covers b x
  | _, _ :: _ :: _, ha, hb, x => by
    rw [Space.subtractAll, covers_subtractAll (boundaries_subtract ha hb.head_lt)
      hb.of_cons_cons, covers_subtract ha hb.head_lt, covers_cons_cons, not_or, and_assoc]
  | _, [], _, _, x => by simp [Space.subtractAll]
  | _, [_], _, hb, _ => absurd hb.even (by simp)

/-- The addresses a list of ranges covers. -/
def rangesSet (rs : List Range) : Finset Address :=
  Finset.univ.filter (fun x => ∃ r ∈ rs, r.Start ≤ x ∧ x < r.End)

theorem boundaries_foldl_add : ∀ {rs : List Range} {acc : List Address},
    (∀ r ∈ rs, r.Start < r.End) → Boundaries acc →
      Boundaries (rs.foldl (fun a r => add a r.Start r.End) acc)
  | [], _, _, h => h
  | r :: _, _, hrs, h => by
    rw [List.foldl_cons]
    exact boundaries_foldl_add (fun r' hr' => hrs r' (List.mem_cons_of_mem _ hr'))
      (boundaries_add h (hrs r (List.mem_cons_self ..)))

theorem covers_foldl_add : ∀ {rs : List Range} {acc : List Address},
    (∀ r ∈ rs, r.Start < r.End) → Boundaries acc → ∀ x,
      Covers (rs.foldl (fun a r => add a r.Start r.End) acc) x ↔
        Covers acc x ∨ ∃ r ∈ rs, r.Start ≤ x ∧ x < r.End
  | [], _, _, _, x => by simp
  | r :: rs, acc, hrs, h, x => by
    have hr := hrs r (List.mem_cons_self ..)
    rw [List.foldl_cons, covers_foldl_add (fun r' hr' => hrs r' (List.mem_cons_of_mem _ hr'))
      (boundaries_add h hr), covers_add h hr]
    simp only [List.mem_cons, exists_eq_or_imp, or_assoc]

theorem boundaries_ofRanges {rs : List Range} (hrs : ∀ r ∈ rs, r.Start < r.End) :
    Boundaries (Space.ofRanges rs) :=
  boundaries_foldl_add hrs ⟨List.Pairwise.nil, rfl⟩

theorem covers_ofRanges {rs : List Range} (hrs : ∀ r ∈ rs, r.Start < r.End) (x : Address) :
    Covers (Space.ofRanges rs) x ↔ x ∈ rangesSet rs := by
  rw [Space.ofRanges, covers_foldl_add hrs ⟨List.Pairwise.nil, rfl⟩, rangesSet,
    Finset.mem_filter]
  simp

end Arrays

/-! ## Well-formed spaces and their pools -/

/-- The invariant of a space: both arrays well formed, and no address both ours and free. -/
structure Valid (s : Space) : Prop where
  ours : Boundaries s.ours
  free : Boundaries s.free
  disjoint : ∀ x, Covers s.ours x → ¬Covers s.free x

/-- The addresses handed out. -/
def oursSet (s : Space) : Finset Address := Finset.univ.filter (fun x => Covers s.ours x)

/-- The free addresses. -/
def freeSet (s : Space) : Finset Address := Finset.univ.filter (fun x => Covers s.free x)

/-- The pool a space stands for. -/
def pool (s : Space) : Pool Address := ⟨s.oursSet, s.freeSet⟩

variable {s : Space} {x : Address}

@[simp] theorem mem_oursSet : x ∈ s.oursSet ↔ Covers s.ours x := by simp [oursSet]

@[simp] theorem mem_freeSet : x ∈ s.freeSet ↔ Covers s.free x := by simp [freeSet]

theorem Valid.separate (hv : s.Valid) : s.pool.Separate :=
  Finset.disjoint_left.2 fun x hx hx' =>
    hv.disjoint x (mem_oursSet.1 hx) (mem_freeSet.1 hx')

/-! ## The counters -/

theorem sumRanges_val : ∀ {a : List Address}, Boundaries a → (sumRanges a).val = spanLength a
  | s :: e :: rest, h => by
    have hlt := spanLength_lt h (Nat.two_pow_pos _)
    rw [spanLength] at hlt
    rw [sumRanges, Fin.val_add, Address.length, Fin.sub_val_of_le h.head_lt.le,
      sumRanges_val h.of_cons_cons, spanLength]
    exact Nat.mod_eq_of_lt hlt
  | [], _ => rfl
  | [_], h => absurd h.even (by simp)

theorem numOwnedAddresses_val (h : Boundaries s.ours) :
    s.numOwnedAddresses.val = s.oursSet.card := by
  rw [numOwnedAddresses, sumRanges_val h, oursSet, card_covers h]

theorem numFreeAddresses_val (h : Boundaries s.free) :
    s.numFreeAddresses.val = s.freeSet.card := by
  rw [numFreeAddresses, sumRanges_val h, freeSet, card_covers h]

/-- `NumOwnedAddresses() + NumFreeAddresses()`, in `uint32`. -/
def total (s : Space) : Count := s.numOwnedAddresses + s.numFreeAddresses

/-- **The two counters add up to the size of the pool**, without wrapping: the last address is
in neither set. -/
theorem total_val (hv : s.Valid) : s.total.val = s.pool.size := by
  have htop : (⟨2 ^ 32 - 1, by decide⟩ : Address) ∉ s.oursSet ∪ s.freeSet := by
    simp only [Finset.mem_union, mem_oursSet, mem_freeSet, not_or]
    exact ⟨not_covers_top (Nat.two_pow_pos _), not_covers_top (Nat.two_pow_pos _)⟩
  have hlt := Finset.card_lt_univ_of_notMem htop
  have hdisj : Disjoint s.oursSet s.freeSet := hv.separate
  rw [Finset.card_union_of_disjoint hdisj, Fintype.card_fin] at hlt
  rw [total, Fin.val_add, numOwnedAddresses_val hv.ours, numFreeAddresses_val hv.free]
  exact Nat.mod_eq_of_lt hlt

/-! ## One address moved -/

/-- A covered address is not the last one, so `addr + 1` does not wrap. -/
theorem val_add_one_of_covers {a : List Address} (h : Covers a x) : (x + 1).val = x.val + 1 := by
  obtain ⟨b, -, hb⟩ := exists_gt_of_covers h
  have hbl := b.isLt
  rw [Fin.lt_def] at hb
  rw [Fin.val_add, show (1 : Address).val = 1 from rfl]
  exact Nat.mod_eq_of_lt (by omega)

theorem lt_add_one_of_covers {a : List Address} (h : Covers a x) : x < x + 1 := by
  rw [Fin.lt_def, val_add_one_of_covers h]
  omega

theorem le_and_lt_add_one_iff {a : List Address} (h : Covers a x) (y : Address) :
    (x ≤ y ∧ y < x + 1) ↔ y = x := by
  rw [Fin.le_def, Fin.lt_def, val_add_one_of_covers h, Fin.ext_iff]
  omega

/-- Moving a free address to `ours`, as `Allocate` and `Claim` do, keeps the space valid. -/
theorem Valid.handOut (hv : s.Valid) (ha : Covers s.free x) :
    (⟨add s.ours x (x + 1), subtract s.free x (x + 1)⟩ : Space).Valid := by
  have hx := lt_add_one_of_covers ha
  refine ⟨boundaries_add hv.ours hx, boundaries_subtract hv.free hx, fun y hy hy' => ?_⟩
  rw [covers_add hv.ours hx, le_and_lt_add_one_iff ha] at hy
  rw [covers_subtract hv.free hx, le_and_lt_add_one_iff ha] at hy'
  rcases hy with hy | rfl
  · exact hv.disjoint y hy hy'.1
  · exact hy'.2 rfl

/-- **Moving a free address to `ours` hands it out.** -/
theorem pool_handOut (hv : s.Valid) (ha : Covers s.free x) :
    (⟨add s.ours x (x + 1), subtract s.free x (x + 1)⟩ : Space).pool = s.pool.handOut x := by
  have hx := lt_add_one_of_covers ha
  simp only [pool, Pool.handOut, Pool.mk.injEq]
  constructor
  · ext y
    simp [covers_add hv.ours hx, le_and_lt_add_one_iff ha, or_comm]
  · ext y
    simp [covers_subtract hv.free hx, le_and_lt_add_one_iff ha, and_comm]

theorem total_handOut (hv : s.Valid) (ha : Covers s.free x) :
    (⟨add s.ours x (x + 1), subtract s.free x (x + 1)⟩ : Space).total = s.total :=
  Fin.ext (by rw [total_val (hv.handOut ha), total_val hv, pool_handOut hv ha,
    Pool.size_handOut hv.separate (mem_freeSet.2 ha)])

/-- Moving an address of `ours` back to `free`, as `Free` does, keeps the space valid. -/
theorem Valid.giveBack (hv : s.Valid) (ha : Covers s.ours x) :
    (⟨subtract s.ours x (x + 1), add s.free x (x + 1)⟩ : Space).Valid := by
  have hx := lt_add_one_of_covers ha
  refine ⟨boundaries_subtract hv.ours hx, boundaries_add hv.free hx, fun y hy hy' => ?_⟩
  rw [covers_subtract hv.ours hx, le_and_lt_add_one_iff ha] at hy
  rw [covers_add hv.free hx, le_and_lt_add_one_iff ha] at hy'
  rcases hy' with hy' | rfl
  · exact hv.disjoint y hy.1 hy'
  · exact hy.2 rfl

/-- **Moving an address of `ours` back to `free` takes it back.** -/
theorem pool_giveBack (hv : s.Valid) (ha : Covers s.ours x) :
    (⟨subtract s.ours x (x + 1), add s.free x (x + 1)⟩ : Space).pool = s.pool.giveBack x := by
  have hx := lt_add_one_of_covers ha
  simp only [pool, Pool.giveBack, Pool.mk.injEq]
  constructor
  · ext y
    simp [covers_subtract hv.ours hx, le_and_lt_add_one_iff ha, and_comm]
  · ext y
    simp [covers_add hv.free hx, le_and_lt_add_one_iff ha, or_comm]

theorem total_giveBack (hv : s.Valid) (ha : Covers s.ours x) :
    (⟨subtract s.ours x (x + 1), add s.free x (x + 1)⟩ : Space).total = s.total :=
  Fin.ext (by rw [total_val (hv.giveBack ha), total_val hv, pool_giveBack hv ha,
    Pool.size_giveBack hv.separate (mem_oursSet.2 ha)])

/-! ## A block removed -/

/-- Removing a block from both arrays, as `Donate` does, keeps the space valid. -/
theorem Valid.remove (hv : s.Valid) {D : Range} (hD : D.Start < D.End) :
    (⟨subtract s.ours D.Start D.End, subtract s.free D.Start D.End⟩ : Space).Valid :=
  ⟨boundaries_subtract hv.ours hD, boundaries_subtract hv.free hD, fun y hy hy' =>
    hv.disjoint y ((covers_subtract hv.ours hD y).1 hy).1 ((covers_subtract hv.free hD y).1 hy').1⟩

/-- **Removing a block of free addresses gives it away.** Subtracting it from `ours` changes
nothing, as no free address is ours. -/
theorem pool_remove (hv : s.Valid) {D : Range} (hD : D.Start < D.End)
    (hfree : Finset.Ico D.Start D.End ⊆ s.freeSet) :
    (⟨subtract s.ours D.Start D.End, subtract s.free D.Start D.End⟩ : Space).pool =
      s.pool.remove (Finset.Ico D.Start D.End) := by
  simp only [pool, Pool.remove, Pool.mk.injEq]
  constructor
  · ext y
    simp only [mem_oursSet, covers_subtract hv.ours hD, and_iff_left_iff_imp]
    exact fun hy hin => hv.disjoint y hy (mem_freeSet.1 (hfree (Finset.mem_Ico.2 hin)))
  · ext y
    simp [covers_subtract hv.free hD, Finset.mem_Ico]

/-- Removing a block of free addresses lowers the sum of the counters by its size. -/
theorem total_remove (hv : s.Valid) {D : Range} (hD : D.Start < D.End)
    (hfree : Finset.Ico D.Start D.End ⊆ s.freeSet) :
    (⟨subtract s.ours D.Start D.End, subtract s.free D.Start D.End⟩ : Space).total.val +
      D.size.val = s.total.val := by
  rw [total_val (hv.remove hD), total_val hv, pool_remove hv hD hfree, Range.size_val hD.le,
    ← Fin.card_Ico]
  exact Pool.size_remove hfree

/-! ## The operations -/

/-- The free addresses of a range. -/
def freeIn (s : Space) (r : Range) : Finset Address :=
  s.freeSet.filter (fun x => r.Start ≤ x ∧ x < r.End)

variable {a : Address} {r : Range}

@[simp] theorem mem_freeIn : x ∈ s.freeIn r ↔ Covers s.free x ∧ r.Start ≤ x ∧ x < r.End := by
  simp [freeIn]

theorem valid_new : new.Valid := ⟨⟨.nil, rfl⟩, ⟨.nil, rfl⟩, fun _ h => h.elim⟩

theorem valid_clear (s : Space) : s.clear.Valid := valid_new

theorem pool_clear (s : Space) : s.clear.pool = Pool.empty := by
  simp only [pool, clear, oursSet, freeSet, Pool.empty, Pool.mk.injEq]
  exact ⟨Finset.filter_false_of_mem fun _ _ h => h, Finset.filter_false_of_mem fun _ _ h => h⟩

/-- `Claim` refuses an address that is not free, and changes nothing. -/
theorem claim_of_not_mem (hv : s.Valid) (ha : a ∉ s.freeSet) :
    s.claim a = (s, .error (.notFreeToClaim a)) := by
  have hc : contains s.free a = false := by
    rw [← Bool.not_eq_true, contains_iff hv.free]
    exact mt mem_freeSet.2 ha
  simp [claim, hc]

theorem claim_of_mem (hv : s.Valid) (ha : a ∈ s.freeSet) :
    s.claim a = (⟨add s.ours a (a + 1), subtract s.free a (a + 1)⟩, .ok ()) := by
  have hc : contains s.free a = true := (contains_iff hv.free a).2 (mem_freeSet.1 ha)
  simp [claim, hc]

/-- `Free` refuses an address that is not ours, and changes nothing. -/
theorem freeAddr_of_not_mem (hv : s.Valid) (ha : a ∉ s.oursSet) :
    s.freeAddr a = (s, .error (.notOurs a)) := by
  have hc : contains s.ours a = false := by
    rw [← Bool.not_eq_true, contains_iff hv.ours]
    exact mt mem_oursSet.2 ha
  simp [freeAddr, hc]

/-- On an address of `ours` the second check of `Free` never fires: the address is not free. -/
theorem freeAddr_of_mem (hv : s.Valid) (ha : a ∈ s.oursSet) :
    s.freeAddr a = (⟨subtract s.ours a (a + 1), add s.free a (a + 1)⟩, .ok ()) := by
  have hc : contains s.ours a = true := (contains_iff hv.ours a).2 (mem_oursSet.1 ha)
  have hc' : contains s.free a = false := by
    rw [← Bool.not_eq_true, contains_iff hv.free]
    exact hv.disjoint a (mem_oursSet.1 ha)
  simp [freeAddr, hc, hc']

/-- `walkFree` visits no chunk exactly when the range holds no free address. -/
theorem freeChunks_eq_nil_iff (hv : s.Valid) : s.freeChunks r = [] ↔ s.freeIn r = ∅ := by
  rw [Finset.eq_empty_iff_forall_notMem]
  simp only [mem_freeIn, freeChunks]
  split_ifs with hr
  · simp only [true_iff]
    rintro x ⟨-, hs, he⟩
    exact absurd (lt_of_le_of_lt hr (lt_of_le_of_lt hs he)) (lt_irrefl _)
  · constructor
    · intro h x hx
      have := (covers_chunks hv.free x).2 hx
      rw [h] at this
      exact this
    · intro h
      cases hc : chunks r s.free with
      | nil => rfl
      | cons c cs => exact absurd (chunks_head_isLeast hv.free (not_le.1 hr) hc).1 (h _)

/-- The start of the first chunk is the least free address of the range. -/
theorem freeChunks_head (hv : s.Valid) {c : Range} {cs : List Range}
    (hc : s.freeChunks r = c :: cs) (hne : (s.freeIn r).Nonempty) :
    c.Start = (s.freeIn r).min' hne := by
  have hr : ¬r.Start ≥ r.End := fun hr => by simp [freeChunks, hr] at hc
  rw [freeChunks, if_neg hr] at hc
  have hset : (↑(s.freeIn r) : Set Address) = {x | Covers s.free x ∧ r.Start ≤ x ∧ x < r.End} :=
    Set.ext fun x => by simp
  have hleast := Finset.isLeast_min' _ hne
  rw [hset] at hleast
  exact (chunks_head_isLeast hv.free (not_le.1 hr) hc).unique hleast

/-- `Allocate` on a range without free addresses fails and changes nothing. -/
theorem allocate_of_empty (hv : s.Valid) (h : s.freeIn r = ∅) : s.allocate r = (s, false, 0) := by
  rw [allocate_eq, (freeChunks_eq_nil_iff hv).2 h]

/-- **`Allocate` moves the least free address of the range to `ours` and returns it.** -/
theorem allocate_of_nonempty (hv : s.Valid) (h : (s.freeIn r).Nonempty) :
    s.allocate r = (⟨add s.ours ((s.freeIn r).min' h) ((s.freeIn r).min' h + 1),
      subtract s.free ((s.freeIn r).min' h) ((s.freeIn r).min' h + 1)⟩,
      true, (s.freeIn r).min' h) := by
  rw [allocate_eq]
  cases hc : s.freeChunks r with
  | nil => exact absurd ((freeChunks_eq_nil_iff hv).1 hc) h.ne_empty
  | cons c cs =>
    dsimp only
    rw [freeChunks_head hv hc h]

section UpdateRanges
variable {rs : List Range}

/-- `UpdateRanges` adds as free the addresses of the ranges that are neither ours nor free. -/
theorem covers_updateRanges_free (hv : s.Valid) (hrs : ∀ r ∈ rs, r.Start < r.End) (y : Address) :
    Covers (s.updateRanges rs).free y ↔
      Covers s.free y ∨ (y ∈ rangesSet rs ∧ ¬(Covers s.ours y ∨ Covers s.free y)) := by
  have hev : Boundaries s.everything := boundaries_addAll hv.ours hv.free
  rw [updateRanges]
  dsimp only
  rw [covers_addAll hv.free (boundaries_subtractAll (boundaries_ofRanges hrs) hev),
    covers_subtractAll (boundaries_ofRanges hrs) hev, covers_ofRanges hrs, everything,
    covers_addAll hv.ours hv.free]

theorem Valid.updateRanges (hv : s.Valid) (hrs : ∀ r ∈ rs, r.Start < r.End) :
    (s.updateRanges rs).Valid := by
  refine ⟨hv.ours, boundaries_addAll hv.free (boundaries_subtractAll (boundaries_ofRanges hrs)
    (boundaries_addAll hv.ours hv.free)), fun y hy hy' => ?_⟩
  rcases (covers_updateRanges_free hv hrs y).1 hy' with hy' | ⟨-, hnot⟩
  · exact hv.disjoint y hy hy'
  · exact hnot (.inl hy)

/-- **`UpdateRanges` grows the pool by the addresses of the ranges.** -/
theorem pool_updateRanges (hv : s.Valid) (hrs : ∀ r ∈ rs, r.Start < r.End) :
    (s.updateRanges rs).pool = s.pool.grow (rangesSet rs) := by
  simp only [pool, Pool.grow, Pool.mk.injEq]
  refine ⟨rfl, Finset.ext fun y => ?_⟩
  simp [covers_updateRanges_free hv hrs]

end UpdateRanges

/-- `Donate` on a range without free addresses fails and changes nothing. -/
theorem donate_of_empty (hv : s.Valid) (h : s.freeIn r = ∅) :
    s.donate r = (s, ⟨0, 0⟩, false) := by
  have hB : s.biggestFreeRange r = ⟨0, 0⟩ := by
    rcases biggestFreeRange_cases s r with ⟨-, hB⟩ | ⟨c, hc, -⟩
    · exact hB
    · rw [(freeChunks_eq_nil_iff hv).2 h] at hc
      cases hc
  have h0 : (⟨0, 0⟩ : Range).size = 0 := rfl
  simp [donate, hB, h0]

/-- **`Donate` gives away a non-empty block of free addresses of the range**: an aligned block
of one chunk, or its upper half. -/
theorem donate_of_nonempty (hv : s.Valid) (h : (s.freeIn r).Nonempty) :
    ∃ D : Range, D.Start < D.End ∧ Finset.Ico D.Start D.End ⊆ s.freeIn r ∧
      s.donate r = (⟨subtract s.ours D.Start D.End, subtract s.free D.Start D.End⟩, D, true) := by
  obtain ⟨c, hc, hB⟩ : ∃ c ∈ s.freeChunks r, s.biggestFreeRange r = c.biggestCIDRRange := by
    rcases biggestFreeRange_cases s r with ⟨hnil, -⟩ | hc
    · exact absurd ((freeChunks_eq_nil_iff hv).1 hnil) h.ne_empty
    · exact hc
  have hr : r.Start < r.End := by
    obtain ⟨x, hx⟩ := h
    rw [mem_freeIn] at hx
    exact lt_of_le_of_lt hx.2.1 hx.2.2
  rw [freeChunks, if_neg (not_le.2 hr)] at hc
  have hclt := start_lt_end_of_mem (chunks_boundaries hr hv.free) c hc
  -- every address of the chunk is a free address of the range
  have hcsub : ∀ {D : Range}, c.Start.val ≤ D.Start.val → D.End.val ≤ c.End.val →
      Finset.Ico D.Start D.End ⊆ s.freeIn r := fun hs he x hx => by
    rw [Finset.mem_Ico, Fin.le_def, Fin.lt_def] at hx
    exact mem_freeIn.2 ((covers_chunks hv.free x).1
      (covers_of_mem hc (Fin.le_def.2 (by omega)) (Fin.lt_def.2 (by omega))))
  obtain ⟨h1, h2, h3⟩ := biggestCIDRRange_sub hclt
  set B := c.biggestCIDRRange with hBdef
  have hBsize : B.size.val = B.End.val - B.Start.val := Range.size_val (Fin.le_def.2 h2.le)
  have hBne : B.size ≠ 0 := fun h0 => by
    rw [Fin.ext_iff, hBsize] at h0
    exact absurd h0 (by simp only [Fin.val_zero]; omega)
  rw [donate]
  dsimp only
  rw [hB, if_neg hBne]
  split_ifs
  · -- the upper half of the block: its start moves up by half the size, without wrapping
    have hstart : (Address.add B.Start (B.size / 2)).val = B.Start.val + B.size.val / 2 := by
      have hE := B.End.isLt
      rw [Address.add, Fin.val_add, Fin.div_val, show (2 : Count).val = 2 from rfl]
      exact Nat.mod_eq_of_lt (by omega)
    refine ⟨{ B with Start := Address.add B.Start (B.size / 2) }, ?_, hcsub ?_ h3, rfl⟩
    · rw [Fin.lt_def]
      dsimp only
      omega
    · dsimp only
      omega
  · exact ⟨B, Fin.lt_def.2 h2, hcsub h1 h3, rfl⟩

end WeaveNet.Space
