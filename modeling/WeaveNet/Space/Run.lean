import WeaveNet.Space.Spec

/-!
# Runs of space operations

A client of a space (the allocator) calls `UpdateRanges`, `Allocate`, `Claim`, `Free`, `Donate`
and `Clear` in any order from `New`. The ranges it hands to `UpdateRanges` come from
`Ring.OwnedRanges` and are never empty (`Op.Admissible`). Every space such a run reaches is valid
(`valid_of_reachable`), and from it every operation acts on the pool the space stands for as its
pool operation does (`OpsSpec.of_valid`): the sum of the two counters changes only by
`UpdateRanges`, which adds the addresses it did not hold, by `Donate`, which removes the block it
gives away, and by `Clear`, which empties the space.
-/

namespace WeaveNet.Space

open Lib

/-- The operations a client calls on a space. -/
inductive Op where
  | updateRanges (ranges : List Range)
  | allocate (r : Range)
  | claim (addr : Address)
  | free (addr : Address)
  | donate (r : Range)
  | clear
  deriving DecidableEq, Repr

namespace Op

/-- The space after the operation. -/
def apply : Op → Space → Space
  | updateRanges rs, s => s.updateRanges rs
  | allocate r, s => (s.allocate r).1
  | claim a, s => (s.claim a).1
  | free a, s => (s.freeAddr a).1
  | donate r, s => (s.donate r).1
  | clear, s => s.clear

/-- The ranges given to `UpdateRanges` are non-empty. -/
def Admissible : Op → Prop
  | updateRanges rs => ∀ r ∈ rs, r.Start < r.End
  | _ => True

end Op

/-- The spaces a run of admissible operations from `New` reaches. -/
inductive Reachable : Space → Prop
  | new : Reachable Space.new
  | step {s : Space} {o : Op} : Reachable s → o.Admissible → Reachable (o.apply s)

variable {s : Space}

/-- **Every admissible operation keeps a space valid.** -/
theorem Valid.apply (hv : s.Valid) : ∀ {o : Op}, o.Admissible → (o.apply s).Valid
  | .updateRanges _, ho => hv.updateRanges ho
  | .allocate r, _ => by
    rw [Op.apply]
    by_cases h : (s.freeIn r).Nonempty
    · rw [allocate_of_nonempty hv h]
      exact hv.handOut (mem_freeIn.1 (Finset.min'_mem _ h)).1
    · rw [allocate_of_empty hv (Finset.not_nonempty_iff_eq_empty.1 h)]
      exact hv
  | .claim a, _ => by
    rw [Op.apply]
    by_cases h : a ∈ s.freeSet
    · rw [claim_of_mem hv h]
      exact hv.handOut (mem_freeSet.1 h)
    · rw [claim_of_not_mem hv h]
      exact hv
  | .free a, _ => by
    rw [Op.apply]
    by_cases h : a ∈ s.oursSet
    · rw [freeAddr_of_mem hv h]
      exact hv.giveBack (mem_oursSet.1 h)
    · rw [freeAddr_of_not_mem hv h]
      exact hv
  | .donate r, _ => by
    rw [Op.apply]
    by_cases h : (s.freeIn r).Nonempty
    · obtain ⟨D, hD, -, hdon⟩ := donate_of_nonempty hv h
      rw [hdon]
      exact hv.remove hD
    · rw [donate_of_empty hv (Finset.not_nonempty_iff_eq_empty.1 h)]
      exact hv
  | .clear, _ => valid_clear s

theorem valid_of_reachable (hs : Reachable s) : s.Valid := by
  induction hs with
  | new => exact valid_new
  | step _ ho ih => exact ih.apply ho

/-- What each operation does from a space `s`, as the pool `s` stands for sees it, and how it
changes the sum of the two counters. -/
structure OpsSpec (s : Space) : Prop where
  /-- `UpdateRanges` adds exactly the addresses of the ranges that were neither ours nor free. -/
  updateRanges : ∀ rs : List Range, (∀ r ∈ rs, r.Start < r.End) →
    (s.updateRanges rs).pool = s.pool.grow (rangesSet rs) ∧
      (s.updateRanges rs).total.val =
        s.total.val + (rangesSet rs \ (s.oursSet ∪ s.freeSet)).card
  /-- `Allocate` on a range without free addresses fails and changes nothing. -/
  allocate_empty : ∀ r : Range, s.freeIn r = ∅ → s.allocate r = (s, false, 0)
  /-- Otherwise it returns the least free address of the range and hands exactly it out. -/
  allocate_nonempty : ∀ (r : Range) (h : (s.freeIn r).Nonempty),
    (s.allocate r).2 = (true, (s.freeIn r).min' h) ∧
      (s.allocate r).1.pool = s.pool.handOut ((s.freeIn r).min' h) ∧
      (s.allocate r).1.total = s.total
  /-- `Claim` fails on an address that is not free, and changes nothing. -/
  claim_not_free : ∀ a ∉ s.freeSet, s.claim a = (s, .error (.notFreeToClaim a))
  /-- `Claim` of a free address succeeds and hands exactly it out. -/
  claim_free : ∀ a ∈ s.freeSet, (s.claim a).2 = .ok () ∧
    (s.claim a).1.pool = s.pool.handOut a ∧ (s.claim a).1.total = s.total
  /-- `Free` fails on an address that is not ours, and changes nothing. -/
  free_not_ours : ∀ a ∉ s.oursSet, s.freeAddr a = (s, .error (.notOurs a))
  /-- `Free` of an address of ours succeeds and takes exactly it back. -/
  free_ours : ∀ a ∈ s.oursSet, (s.freeAddr a).2 = .ok () ∧
    (s.freeAddr a).1.pool = s.pool.giveBack a ∧ (s.freeAddr a).1.total = s.total
  /-- `Donate` fails exactly when the range has no free address, and then changes nothing. -/
  donate_fail : ∀ r : Range, ((s.donate r).2.2 = false ↔ s.freeIn r = ∅) ∧
    ((s.donate r).2.2 = false → (s.donate r).1 = s)
  /-- When it succeeds, it gives away exactly the block it returns, which was free in the range. -/
  donate_ok : ∀ r : Range, (s.donate r).2.2 = true →
    Finset.Ico (s.donate r).2.1.Start (s.donate r).2.1.End ⊆ s.freeIn r ∧
      (s.donate r).1.pool = s.pool.remove (Finset.Ico (s.donate r).2.1.Start (s.donate r).2.1.End) ∧
      (s.donate r).1.total.val + (s.donate r).2.1.size.val = s.total.val
  /-- `Clear` empties the space. -/
  clear : s.clear.pool = Pool.empty ∧ s.clear.total = 0

/-- From a valid space every operation does what `OpsSpec` says. -/
theorem OpsSpec.of_valid (hv : s.Valid) : OpsSpec s where
  updateRanges rs hrs := by
    refine ⟨pool_updateRanges hv hrs, ?_⟩
    rw [total_val (hv.updateRanges hrs), total_val hv, pool_updateRanges hv hrs, Pool.size_grow]
    rfl
  allocate_empty _ h := allocate_of_empty hv h
  allocate_nonempty r h := by
    have ha := (mem_freeIn.1 (Finset.min'_mem _ h)).1
    rw [allocate_of_nonempty hv h]
    exact ⟨rfl, pool_handOut hv ha, total_handOut hv ha⟩
  claim_not_free _ ha := claim_of_not_mem hv ha
  claim_free a ha := by
    rw [claim_of_mem hv ha]
    exact ⟨rfl, pool_handOut hv (mem_freeSet.1 ha), total_handOut hv (mem_freeSet.1 ha)⟩
  free_not_ours _ ha := freeAddr_of_not_mem hv ha
  free_ours a ha := by
    rw [freeAddr_of_mem hv ha]
    exact ⟨rfl, pool_giveBack hv (mem_oursSet.1 ha), total_giveBack hv (mem_oursSet.1 ha)⟩
  donate_fail r := by
    by_cases h : (s.freeIn r).Nonempty
    · obtain ⟨D, -, -, hdon⟩ := donate_of_nonempty hv h
      rw [hdon]
      exact ⟨iff_of_false Bool.true_eq_false.mp h.ne_empty,
        fun h' => absurd h' Bool.true_eq_false.mp⟩
    · rw [donate_of_empty hv (Finset.not_nonempty_iff_eq_empty.1 h)]
      exact ⟨iff_of_true rfl (Finset.not_nonempty_iff_eq_empty.1 h), fun _ => rfl⟩
  donate_ok r hok := by
    by_cases h : (s.freeIn r).Nonempty
    · obtain ⟨D, hD, hsub, hdon⟩ := donate_of_nonempty hv h
      have hfree := hsub.trans (Finset.filter_subset _ _)
      rw [hdon]
      exact ⟨hsub, pool_remove hv hD hfree, total_remove hv hD hfree⟩
    · rw [donate_of_empty hv (Finset.not_nonempty_iff_eq_empty.1 h)] at hok
      cases hok
  clear := ⟨pool_clear s, rfl⟩

/-- **Space operation invariant.** Every space a run of admissible operations from `New` reaches
is valid, and from it each operation does what `OpsSpec` says. -/
theorem reachable_spec (hs : Reachable s) : s.Valid ∧ OpsSpec s :=
  ⟨valid_of_reachable hs, OpsSpec.of_valid (valid_of_reachable hs)⟩

theorem reachable_spec_updateRanges :
    ((Op.updateRanges [⟨0, 8⟩]).apply Space.new).Valid ∧
      OpsSpec ((Op.updateRanges [⟨0, 8⟩]).apply Space.new) :=
  reachable_spec (.step .new (by simp [Op.Admissible]))

/-- `Clear` changes the sum of the counters, and `UpdateRanges` with an empty range leaves a
boundary array that is not strictly increasing. -/
theorem clear_resets_total_and_empty_range_invalid :
    (Space.new.updateRanges [⟨0, 4⟩]).total = 4 ∧
      (Space.new.updateRanges [⟨0, 4⟩]).clear.total = 0 ∧
      ¬(Space.new.updateRanges [⟨5, 5⟩]).Valid :=
  ⟨by decide, rfl, fun hv => absurd hv.free.sorted (by decide)⟩

end WeaveNet.Space
