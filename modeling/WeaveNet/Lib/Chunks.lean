import Mathlib

/-!
# Walking a list in fixed-size steps

A loop that cuts a list `l` into pieces of `s` elements, keeping an offset `k * s` and the slice
`l.drop (k * s)` left, hands out the pieces `chunk s k l = (l.drop (k * s)).take s`, for every
`k < chunkCount s l.length`, where `chunkCount s n = (n + s - 1) / s` is `⌈n / s⌉`.

The `k`-th piece exists exactly when `k * s < n` (`lt_chunkCount_iff`); of the first `n`
elements of a list it is their stretch `[k * s, min ((k + 1) * s) n)` (`chunk_take`); it is the
slice left when that fits in `s` elements (`chunk_of_length_le`), and otherwise the slice's
first `s` elements, the rest being the next slice (`drop_drop_mul`); and the pieces, in order,
make up the list again (`flatten_chunks`, `flatten_chunks_chunkCount`). Pieces that are not empty
are no more than the elements they hold (`length_le_length_flatten`).
-/

namespace WeaveNet.Lib

section Chunks
variable {α : Type*} (s : Nat)

/-- The `k`-th piece of `s` elements of `l`. -/
def chunk (k : Nat) (l : List α) : List α := (l.drop (k * s)).take s

/-- The number of pieces of `s` elements that `n` elements make: `⌈n / s⌉`. -/
def chunkCount (n : Nat) : Nat := (n + s - 1) / s

variable {s} {k n : Nat} {l : List α}

/-- There is a `k`-th piece exactly when it starts inside the list. -/
theorem lt_chunkCount_iff (hs : 0 < s) : k < chunkCount s n ↔ k * s < n := by
  unfold chunkCount
  rw [← Nat.succ_le_iff, Nat.le_div_iff_mul_le hs, Nat.succ_mul]
  omega

/-- The pieces cover the list: `⌈n / s⌉` pieces of `s` hold at least `n` elements. -/
theorem le_chunkCount_mul (hs : 0 < s) : n ≤ chunkCount s n * s := by
  have hdiv := Nat.div_add_mod (n + s - 1) s
  have hmod := Nat.mod_lt (n + s - 1) hs
  unfold chunkCount
  rw [Nat.mul_comm]
  omega

/-- A count of pieces is at most the count of elements. -/
theorem chunkCount_le (hs : 0 < s) : chunkCount s n ≤ n := by
  by_contra h
  have := (lt_chunkCount_iff hs).1 (Nat.lt_of_not_le h)
  have := Nat.le_mul_of_pos_right n hs
  omega

theorem length_chunk : (chunk s k l).length = min s (l.length - k * s) := by
  simp [chunk]

/-- The `k`-th piece of the first `n` elements is their stretch `[k * s, min ((k + 1) * s) n)`. -/
theorem chunk_take : chunk s k (l.take n) = l.extract (k * s) (min ((k + 1) * s) n) := by
  rw [chunk, List.drop_take, List.take_take, List.extract_eq_take_drop, Nat.succ_mul]
  congr 1
  omega

/-- The slice left after the `k`-th piece is the `k + 1`-th slice. -/
theorem drop_drop_mul : (l.drop (k * s)).drop s = l.drop ((k + 1) * s) := by
  rw [List.drop_drop, Nat.succ_mul]

/-- A slice that fits in one piece is the last piece. -/
theorem chunk_of_length_le (h : (l.drop (k * s)).length ≤ s) : chunk s k l = l.drop (k * s) :=
  List.take_of_length_le h

/-- The `m` pieces from the `k`-th on make up the `k`-th slice, cut at `m * s` elements.
Induction on `m`: the first piece and the `m` pieces after it, by `List.take_add`. -/
theorem flatten_chunks (l : List α) :
    ∀ k m : Nat, ((List.range' k m).map (chunk s · l)).flatten = (l.drop (k * s)).take (m * s)
  | k, 0 => by simp
  | k, m + 1 => by
    rw [List.range'_succ, List.map_cons, List.flatten_cons, flatten_chunks l (k + 1) m, chunk,
      ← drop_drop_mul, ← List.take_add, Nat.succ_mul, Nat.add_comm (m * s)]

/-- The pieces of a list, in order, make it up again. -/
theorem flatten_chunks_chunkCount (hs : 0 < s) (l : List α) :
    ((List.range (chunkCount s l.length)).map (chunk s · l)).flatten = l := by
  rw [List.range_eq_range', flatten_chunks, Nat.zero_mul, List.drop_zero]
  exact List.take_of_length_le (le_chunkCount_mul hs)

/-- A list matched one by one to the indices `0, …, n - 1` has its `k`-th element matched to `k`. -/
theorem forall₂_range_getElem {β : Type*} {R : Nat → β → Prop} {L : List β}
    (h : List.Forall₂ R (List.range n) L) (k : Nat) (hk : k < L.length) : R k L[k] := by
  have hlen := h.length_eq
  have := (List.forall₂_iff_get.1 h).2 k (by rw [hlen]; exact hk) hk
  simpa using this

/-- Non-empty pieces are no more than the elements they hold. -/
theorem length_le_length_flatten {L : List (List α)} (h : ∀ l ∈ L, l ≠ []) :
    L.length ≤ L.flatten.length := by
  induction L with
  | nil => simp
  | cons l L ih =>
    have hl := List.length_pos_of_ne_nil (h l List.mem_cons_self)
    have := ih fun l' hl' => h l' (List.mem_cons_of_mem _ hl')
    simp only [List.flatten_cons, List.length_append, List.length_cons]
    omega

end Chunks

end WeaveNet.Lib
