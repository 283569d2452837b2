import WeaveNet.Lib.Boundary
import WeaveNet.Address.Basic

/-!
# Address sets as boundary arrays

The low-level functions of `ipam/space/space.go:163-206`. A `Space` keeps each of its two address
sets as a Go slice of sorted boundaries, "even elements give the inclusive starting points of
ranges, and odd elements give the exclusive ending points" (`space.go:13-19`). `firstGreater`
and `firstGreaterOrEq` are binary searches (`sort.Search`), `contains` reads the parity of the
first, and `addSub` splices one range in or out.

On a well-formed array the two searches count the boundaries at or below, and below, the key
(`firstGreater_eq`, `firstGreaterOrEq_eq`); `addSub` is then `Lib.splice` at those positions
(`addSub_eq_splice`), so `add` and `subtract` keep the array well formed and compute the union
and the difference (`boundaries_add`, `covers_add`, `boundaries_subtract`, `covers_subtract`), and
`contains` decides membership (`contains_iff`).
-/

namespace WeaveNet.Space

open Lib

/-- `firstGreater`: `sort.Search(len(a), func(i int) bool { return a[i] > x })`. -/
def firstGreater (a : List Address) (x : Address) : Nat :=
  search a.length (fun i => decide (a.getD i 0 > x))

/-- `firstGreaterOrEq`: `sort.Search(len(a), func(i int) bool { return a[i] >= x })`. -/
def firstGreaterOrEq (a : List Address) (x : Address) : Nat :=
  search a.length (fun i => decide (a.getD i 0 ≥ x))

/-- `contains`: "Do the ranges contain the given address?" -/
def contains (addrs : List Address) (addr : Address) : Bool :=
  firstGreater addrs addr &&& 1 != 0

/-- `addSub`: the boundaries up to `startPos` are kept, `start` and `endAddr` are included when
they lie outside (`sense = 0`) or inside (`sense = 1`) the existing ranges, and the boundaries
from `endPos` on are kept. -/
def addSub (addrs : List Address) (start endAddr : Address) (sense : Nat) : List Address :=
  let startPos := firstGreaterOrEq addrs start
  let endPos := firstGreater (addrs.drop startPos) endAddr + startPos
  addrs.take startPos ++ (if startPos &&& 1 = sense then [start] else []) ++
    (if endPos &&& 1 = sense then [endAddr] else []) ++ addrs.drop endPos

/-- `add`: "Take the union of the range [start, end) with the ranges in the array". -/
def add (addrs : List Address) (start endAddr : Address) : List Address :=
  addSub addrs start endAddr 0

/-- `subtract`: "Subtract the range [start, end) from the ranges in the array". -/
def subtract (addrs : List Address) (start endAddr : Address) : List Address :=
  addSub addrs start endAddr 1

/-! ## The searches on a sorted array -/

section
variable {a : List Address}

/-- On a sorted array `firstGreater` counts the boundaries at or below the key. -/
theorem firstGreater_eq (h : a.Pairwise (· < ·)) (x : Address) :
    firstGreater a x = atOrBelow a x := by
  have := search_not_eq_countP (Q := fun b => decide (b ≤ x))
    (fun y z hyz hz => by simp only [decide_eq_true_eq] at hz ⊢; exact le_trans hyz.le hz) h 0
  rw [firstGreater, atOrBelow, ← this]
  congr 1
  funext i
  simp only [← decide_not, not_le, gt_iff_lt]

/-- On a sorted array `firstGreaterOrEq` counts the boundaries below the key. -/
theorem firstGreaterOrEq_eq (h : a.Pairwise (· < ·)) (x : Address) :
    firstGreaterOrEq a x = below a x := by
  have := search_not_eq_countP (Q := fun b => decide (b < x))
    (fun y z hyz hz => by simp only [decide_eq_true_eq] at hz ⊢; exact lt_trans hyz hz) h 0
  rw [firstGreaterOrEq, below, ← this]
  congr 1
  funext i
  simp only [← decide_not, not_lt, ge_iff_le]

/-- **`contains` decides membership** in the set a well-formed array denotes. -/
theorem contains_iff (h : Boundaries a) (x : Address) : contains a x = true ↔ Covers a x := by
  rw [covers_iff_odd h, contains, firstGreater_eq h.sorted, Nat.and_one_is_mod]
  simp only [bne_iff_ne, ne_eq]
  omega

/-- On a sorted array and a non-empty range, `addSub` is the library splice at the positions of
the range's ends. The end position is searched in the suffix after the start position, which
holds exactly the boundaries at or above `start`. -/
theorem addSub_eq_splice (h : a.Pairwise (· < ·)) {start endAddr : Address}
    (hse : start < endAddr) (sense : Nat) :
    addSub a start endAddr sense =
      splice a (below a start) (atOrBelow a endAddr) start endAddr sense := by
  have hc := cut_of_sorted h hse
  have hend : firstGreater (a.drop (below a start)) endAddr + below a start =
      atOrBelow a endAddr := by
    rw [firstGreater_eq (h.sublist (List.drop_sublist _ _))]
    conv_rhs => rw [← List.take_append_drop (below a start) a]
    rw [atOrBelow_append, atOrBelow_eq_length fun y hy => (lt_trans (hc.take_lt y hy) hse).le,
      List.length_take, Nat.min_eq_left (Nat.le_trans hc.le hc.le_length), Nat.add_comm]
  simp only [addSub, splice, firstGreaterOrEq_eq h, hend, Nat.and_one_is_mod, List.append_assoc]

theorem boundaries_add (h : Boundaries a) {start endAddr : Address} (hse : start < endAddr) :
    Boundaries (add a start endAddr) := by
  rw [add, addSub_eq_splice h.sorted hse]
  exact splice_boundaries h hse 0 (by omega)

theorem boundaries_subtract (h : Boundaries a) {start endAddr : Address}
    (hse : start < endAddr) : Boundaries (subtract a start endAddr) := by
  rw [subtract, addSub_eq_splice h.sorted hse]
  exact splice_boundaries h hse 1 (by omega)

/-- `add` is the union with `[start, endAddr)`. -/
theorem covers_add (h : Boundaries a) {start endAddr : Address} (hse : start < endAddr)
    (x : Address) :
    Covers (add a start endAddr) x ↔ Covers a x ∨ (start ≤ x ∧ x < endAddr) := by
  rw [add, addSub_eq_splice h.sorted hse]
  exact covers_splice_union h hse x

/-- `subtract` is the difference with `[start, endAddr)`. -/
theorem covers_subtract (h : Boundaries a) {start endAddr : Address} (hse : start < endAddr)
    (x : Address) :
    Covers (subtract a start endAddr) x ↔ Covers a x ∧ ¬(start ≤ x ∧ x < endAddr) := by
  rw [subtract, addSub_eq_splice h.sorted hse]
  exact covers_splice_diff h hse x

/-- **The low-level operations on a well-formed boundary array.** For every strictly increasing
array of even length and every `start < end`, `add` and `subtract` return such arrays, denoting the
union with and the difference from `[start, end)`, and `contains` decides membership of the set
the array denotes. -/
theorem addSub_spec (h : Boundaries a) {start endAddr : Address} (hse : start < endAddr) :
    Boundaries (add a start endAddr) ∧
      (∀ x, Covers (add a start endAddr) x ↔ Covers a x ∨ (start ≤ x ∧ x < endAddr)) ∧
    Boundaries (subtract a start endAddr) ∧
      (∀ x, Covers (subtract a start endAddr) x ↔ Covers a x ∧ ¬(start ≤ x ∧ x < endAddr)) ∧
    ∀ x, contains a x = true ↔ Covers a x :=
  ⟨boundaries_add h hse, covers_add h hse, boundaries_subtract h hse, covers_subtract h hse,
    contains_iff h⟩

end

/-- A witness of `addSub_spec`: the array `[2, 5]` and the range `[4, 8)`, which overlaps its
range. -/
theorem addSub_spec_two_five :
    Boundaries ([2, 5] : List Address) ∧ (4 : Address) < 8 ∧
    Boundaries (add [2, 5] 4 8) ∧
      (∀ x, Covers (add [2, 5] 4 8) x ↔ Covers [2, 5] x ∨ (4 ≤ x ∧ x < 8)) ∧
    Boundaries (subtract [2, 5] 4 8) ∧
      (∀ x, Covers (subtract [2, 5] 4 8) x ↔ Covers [2, 5] x ∧ ¬(4 ≤ x ∧ x < 8)) ∧
    ∀ x, contains [2, 5] x = true ↔ Covers [2, 5] x :=
  ⟨⟨by decide, by decide⟩, by decide, addSub_spec ⟨by decide, by decide⟩ (by decide)⟩

end WeaveNet.Space
