import WeaveNet.Ring.Ops
import WeaveNet.Ring.Valid

/-!
# The ranges a ring lists

`OwnedRangesOfPeer` and `AllRangeInfo` read a range off each entry, from its token up to the next
token, and split the last entry's range, which runs round past `End`, into the part from `Start`
and the part up to `End` (`splitRangesOverZero`). On a valid ring with entries every range but the
last is proper and they follow each other in order (`properArcs_pairwise`), and an address lies in
an entry's range exactly when `Owner` gives it that entry (`exists_mem_pieces_iff`).

So the ranges `OwnedRangesOfPeer p` lists are non-empty, in order and disjoint, and cover exactly
the addresses `p` owns (`ownedRangesOfPeer_spec`); those of `AllRangeInfo` are disjoint, cover the
ring once and carry the owner of their addresses (`allRangeInfo_spec`), but the part of the last
range from `Start` comes after the others. `ranges_of_empty_and_wrapped` is an empty ring, where
`Owner` answers the unknown peer for every address and no range is listed, and a ring whose
`AllRangeInfo` is out of order.
-/

namespace WeaveNet.Range

/-- A range that ends before another starts does not overlap it. -/
theorem overlaps_eq_false_of_end_le {x y : Range} (h : x.End ≤ y.Start) : x.overlaps y = false := by
  simp [overlaps, h]

/-- Two ranges with addresses in them and no address in common do not overlap. -/
theorem overlaps_eq_false_of_contains {x y : Range} (hx : x.Start < x.End) (hy : y.Start < y.End)
    (h : ∀ a, x.contains a = true → y.contains a = true → False) : x.overlaps y = false := by
  simp only [overlaps, contains, decide_eq_true_iff] at h ⊢
  by_contra hne
  simp only [Bool.not_eq_false, Bool.not_eq_true', Bool.or_eq_false_iff, decide_eq_false_iff_not,
    not_le] at hne
  -- the larger of the two starts lies in both
  rcases le_total x.Start y.Start with hle | hle
  · exact h y.Start ⟨hle, hne.2⟩ ⟨le_refl _, hy⟩
  · exact h x.Start ⟨le_refl _, hx⟩ ⟨hle, hne.1⟩

end WeaveNet.Range

namespace WeaveNet.Address

/-- `token - 1 < start` in `uint32` arithmetic, for a token above zero, is `token ≤ start`. -/
theorem sub_one_lt_iff {t s : Address} (ht : 0 < t) : t - 1 < s ↔ t ≤ s := by
  have hone : (1 : Address).val = 1 := rfl
  rw [Fin.lt_def] at ht
  have hle : (1 : Address) ≤ t := by
    rw [Fin.le_def, hone]
    exact ht
  have hsub : (t - 1).val = t.val - 1 := by rw [Fin.coe_sub_iff_le.2 hle, hone]
  rw [Fin.lt_def, Fin.le_def, hsub]
  omega

end WeaveNet.Address

namespace WeaveNet.Ring

open Lib

variable {P : Type} [Inhabited P]

/-- A `flatMap` whose every step gives one element is a `map`. -/
theorem flatMap_eq_map {α β : Type} {f : α → List β} {g : α → β} :
    ∀ {l : List α}, (∀ x ∈ l, f x = [g x]) → l.flatMap f = l.map g
  | [], _ => rfl
  | x :: l, h => by
    rw [List.flatMap_cons, h x (List.mem_cons_self ..), List.map_cons,
      flatMap_eq_map (fun y hy => h y (List.mem_cons_of_mem _ hy))]
    rfl

/-! ## Splitting over zero -/

omit [Inhabited P] in
/-- A list whose last range does not wrap and does not end at `Start` is left as it is. -/
theorem splitRangesOverZero_of_proper (r : Ring P) {rs : List Range}
    (h : ∀ x ∈ rs.getLast?, x.Start < x.End ∧ x.End ≠ r.Start) : r.splitRangesOverZero rs = rs := by
  unfold splitRangesOverZero
  cases hl : rs.getLast? with
  | none => rfl
  | some x =>
    obtain ⟨hlt, hne⟩ := h x hl
    simp only [if_neg hne, if_neg (not_le.2 hlt)]

omit [Inhabited P] in
/-- A last range that wraps is split: the part from `Start` goes first, unless it is empty, and the
rest runs to `End`. -/
theorem splitRangesOverZero_wrap (r : Ring P) (rs : List Range) {a b : Address} (hba : b ≤ a) :
    r.splitRangesOverZero (rs ++ [⟨a, b⟩]) =
      if b = r.Start then rs ++ [⟨a, r.End⟩] else ⟨r.Start, b⟩ :: rs ++ [⟨a, r.End⟩] := by
  unfold splitRangesOverZero
  simp only [List.getLast?_concat, List.dropLast_concat, if_pos hba]

omit [Inhabited P] in
/-- Splitting a wrapping last range gives the ranges before it and the pieces of that range alone. -/
theorem mem_splitRangesOverZero_wrap (r : Ring P) (rs : List Range) {a b : Address} (hba : b ≤ a)
    {rg : Range} :
    rg ∈ r.splitRangesOverZero (rs ++ [⟨a, b⟩]) ↔ rg ∈ rs ∨ rg ∈ r.splitRangesOverZero [⟨a, b⟩] := by
  have hone := splitRangesOverZero_wrap r [] hba
  rw [List.nil_append] at hone
  rw [splitRangesOverZero_wrap r rs hba, hone]
  split
  · simp
  · simp only [List.cons_append, List.nil_append, List.mem_cons, List.mem_append]
    tauto

/-! ## The range of each entry -/

/-- The range `OwnedRangesOfPeer` reads off an entry and its index: up to the next token. -/
def arcOf (es : List (Entry P)) (x : Entry P × Nat) : Range :=
  ⟨x.1.Token, (Entries.entry es (x.2 + 1)).Token⟩

/-- The ranges of the entries of `p` before the last one, in order. -/
def properArcs [DecidableEq P] (es : List (Entry P)) (p : P) : List Range :=
  ((es.dropLast.zipIdx).filter fun x => decide (x.1.Peer = p)).map (arcOf es)

/-- The ranges `AllRangeInfo` lists for one entry and its index: its range, split over zero. -/
def pieces (r : Ring P) (x : Entry P × Nat) : List Range := r.splitRangesOverZero [arcOf r.Entries x]

theorem rangesOfPeer_eq [DecidableEq P] (es : List (Entry P)) (p : P) :
    rangesOfPeer es p = (es.zipIdx.filter fun x => decide (x.1.Peer = p)).map (arcOf es) := rfl

section Arcs

-- the index of the last entry is bound by `hlast` itself, so that no statement carries a proof of
-- its own that it is in range
variable {es : List (Entry P)} (hs : es.Pairwise (fun a b => a.Token < b.Token))
  (hn : 0 < es.length) (hlast : es.length - 1 < es.length)

omit [Inhabited P] in
include hs in
theorem token_le {i j : Nat} (hj : j < es.length) (hij : i ≤ j) :
    es[i].Token ≤ es[j].Token := by
  rcases Nat.lt_or_eq_of_le hij with hlt | rfl
  · exact (List.pairwise_iff_getElem.1 hs i j (by omega) hj hlt).le
  · exact le_refl _

omit [Inhabited P] in
include hlast in
/-- The last entry comes apart from the others. -/
theorem zipIdx_eq : es.zipIdx = es.dropLast.zipIdx ++ [(es[es.length - 1], es.length - 1)] := by
  have hne : es ≠ [] := List.ne_nil_of_length_pos (by omega)
  conv_lhs => rw [← List.dropLast_concat_getLast hne]
  rw [List.zipIdx_append, List.getLast_eq_getElem, List.length_dropLast]
  simp

omit [Inhabited P] in
include hn in
theorem mem_zipIdx_of_mem_dropLast {x : Entry P × Nat} (hx : x ∈ es.dropLast.zipIdx) :
    x ∈ es.zipIdx := by
  rw [zipIdx_eq (Nat.sub_lt hn Nat.one_pos)]
  exact List.mem_append_left _ hx

omit [Inhabited P] in
theorem mem_dropLast_zipIdx {x : Entry P × Nat} (hx : x ∈ es.dropLast.zipIdx) :
    ∃ h : x.2 + 1 < es.length, x.1 = es[x.2] := by
  obtain ⟨e, i⟩ := x
  obtain ⟨-, hi, he⟩ := List.mem_zipIdx hx
  simp only [List.length_dropLast, Nat.zero_add] at hi
  exact ⟨by omega, by simp [he, List.getElem_dropLast]⟩

omit [Inhabited P] in
/-- The elements of `zipIdx` are the entries with their indices. -/
theorem mem_zipIdx_iff {x : Entry P × Nat} :
    x ∈ es.zipIdx ↔ ∃ (i : Nat) (hi : i < es.length), x = (es[i], i) := by
  constructor
  · intro hx
    obtain ⟨e, i⟩ := x
    obtain ⟨-, hi, he⟩ := List.mem_zipIdx hx
    simp only [Nat.zero_add, Nat.sub_zero] at hi he
    exact ⟨i, hi, by rw [he]⟩
  · rintro ⟨i, hi, rfl⟩
    rw [List.mem_zipIdx_iff_getElem?, List.getElem?_eq_getElem hi]

theorem arcOf_of_lt {e : Entry P} {i : Nat} (hi : i + 1 < es.length) :
    arcOf es (e, i) = ⟨e.Token, es[i + 1].Token⟩ := by
  simp only [arcOf]
  rw [show ((i : Int) + 1) = ((i + 1 : Nat) : Int) by omega, Entries.entry_of_lt hi]

include hn hlast in
theorem arcOf_last :
    arcOf es (es[es.length - 1], es.length - 1) = ⟨es[es.length - 1].Token, es[0].Token⟩ := by
  simp only [arcOf]
  rw [show ((es.length - 1 : Nat) : Int) + 1 = ((es.length : Nat) : Int) by omega,
    Entries.entry_length hn]

include hs in
/-- The ranges of the entries before the last one follow each other in order. -/
theorem properArcs_pairwise :
    (es.dropLast.zipIdx.map (arcOf es)).Pairwise (fun x y => x.End ≤ y.Start) := by
  rw [List.pairwise_map, List.pairwise_iff_getElem]
  intro a b ha hb hab
  simp only [List.length_zipIdx, List.length_dropLast] at ha hb
  simp only [List.getElem_zipIdx, Nat.zero_add, List.getElem_dropLast]
  rw [arcOf_of_lt (by omega), arcOf_of_lt (by omega)]
  exact token_le hs (by omega) (by omega)

theorem mem_properArcs [DecidableEq P] {p : P} {rg : Range} :
    rg ∈ properArcs es p ↔ ∃ x ∈ es.dropLast.zipIdx, x.1.Peer = p ∧ rg = arcOf es x := by
  simp only [properArcs, List.mem_map, List.mem_filter, decide_eq_true_eq]
  constructor
  · rintro ⟨x, ⟨hx, hp⟩, rfl⟩
    exact ⟨x, hx, hp, rfl⟩
  · rintro ⟨x, hx, hp, rfl⟩
    exact ⟨x, ⟨hx, hp⟩, rfl⟩

include hs hn hlast in
/-- The ranges of the entries before the last lie between the first and the last token. -/
theorem properArcs_bounds [DecidableEq P] {p : P} {rg : Range} (h : rg ∈ properArcs es p) :
    es[0].Token ≤ rg.Start ∧ rg.End ≤ es[es.length - 1].Token := by
  obtain ⟨⟨e, i⟩, hx, -, rfl⟩ := mem_properArcs.1 h
  obtain ⟨hi, he⟩ := mem_dropLast_zipIdx hx
  simp only at hi he
  rw [he, arcOf_of_lt hi]
  exact ⟨token_le hs (by omega) (Nat.zero_le i), token_le hs (by omega) (by omega)⟩

include hs hn hlast in
/-- **An address of the ring lies in one of the two parts of the last range exactly when the last
entry owns it.** -/
theorem contains_last_iff {lo : Address} {a : Address} (ha : lo ≤ a)
    (hi : Address) (ha' : a < hi) :
    ((⟨lo, es[0].Token⟩ : Range).contains a = true ∨
        (⟨es[es.length - 1].Token, hi⟩ : Range).contains a = true) ↔
      ownerIndex es a = es.length - 1 := by
  rw [ownerIndex_eq_last_iff hs hn]
  simp only [Range.contains, decide_eq_true_iff]
  constructor
  · rintro (⟨-, h⟩ | ⟨h, -⟩)
    · exact Or.inr h
    · exact Or.inl h
  · rintro (h | h)
    · exact Or.inr ⟨h, ha'⟩
    · exact Or.inl ⟨ha, h⟩

end Arcs

/-! ## The pieces of each entry on a valid ring -/

section Pieces

variable {r : Ring P} (hv : r.Valid)

include hv in
theorem token_bounds {i : Nat} (hi : i < r.Entries.length) :
    r.Start ≤ r.Entries[i].Token ∧ r.Entries[i].Token < r.End :=
  ⟨hv.start_le _ (List.getElem_mem hi), hv.lt_end _ (List.getElem_mem hi)⟩

include hv in
/-- The range of an entry before the last is proper and is not split. -/
theorem pieces_of_lt {i : Nat} (hi : i + 1 < r.Entries.length) :
    pieces r (r.Entries[i], i) = [⟨r.Entries[i].Token, r.Entries[i + 1].Token⟩] := by
  have hlt := List.pairwise_iff_getElem.1 hv.sorted i (i + 1) (by omega) hi (by omega)
  have hge := (token_bounds hv (Nat.lt_of_succ_lt hi)).1
  rw [pieces, arcOf_of_lt hi, splitRangesOverZero_of_proper]
  intro x hx
  rw [List.getLast?_singleton, Option.mem_def, Option.some.injEq] at hx
  subst hx
  exact ⟨hlt, (lt_of_le_of_lt hge hlt).ne'⟩

include hv in
/-- The range of the last entry wraps round to the first token: it is split at `End`, the part from
`Start` left out when the first token is `Start`. -/
theorem pieces_last (hn : 0 < r.Entries.length) :
    pieces r (r.Entries[r.Entries.length - 1], r.Entries.length - 1) =
      if r.Entries[0].Token = r.Start then [⟨r.Entries[r.Entries.length - 1].Token, r.End⟩]
      else [⟨r.Start, r.Entries[0].Token⟩, ⟨r.Entries[r.Entries.length - 1].Token, r.End⟩] := by
  have hle := token_le hv.sorted (i := 0) (Nat.sub_lt hn Nat.one_pos) (Nat.zero_le _)
  rw [pieces, arcOf_last hn (Nat.sub_lt hn Nat.one_pos)]
  exact splitRangesOverZero_wrap r [] hle

include hv in
theorem pieces_of_mem_dropLast {x : Entry P × Nat} (hx : x ∈ r.Entries.dropLast.zipIdx) :
    pieces r x = [arcOf r.Entries x] := by
  obtain ⟨hi, he⟩ := mem_dropLast_zipIdx hx
  obtain ⟨e, i⟩ := x
  simp only at hi he
  rw [he, pieces_of_lt hv hi, arcOf_of_lt hi]

include hv in
/-- Every piece is a proper range inside the ring. -/
theorem pieces_bounds {x : Entry P × Nat} (hx : x ∈ r.Entries.zipIdx) {rg : Range}
    (h : rg ∈ pieces r x) : r.Start ≤ rg.Start ∧ rg.Start < rg.End ∧ rg.End ≤ r.End := by
  obtain ⟨i, hi, rfl⟩ := mem_zipIdx_iff.1 hx
  rcases Nat.lt_or_ge (i + 1) r.Entries.length with hlt | hge
  · rw [pieces_of_lt hv hlt, List.mem_singleton] at h
    subst h
    exact ⟨(token_bounds hv hi).1,
      List.pairwise_iff_getElem.1 hv.sorted i (i + 1) hi hlt (Nat.lt_succ_self i),
      (token_bounds hv hlt).2.le⟩
  · -- the last entry: its one or two pieces end at the first token and at `End`
    obtain rfl : i = r.Entries.length - 1 := by omega
    have hn : 0 < r.Entries.length := by omega
    obtain ⟨h0, h0'⟩ := token_bounds hv hn
    obtain ⟨hL, hL'⟩ := token_bounds hv hi
    rw [pieces_last hv hn] at h
    split at h
    · rw [List.mem_singleton] at h
      subst h
      exact ⟨hL, hL', le_refl _⟩
    · rename_i h0s
      simp only [List.mem_cons, List.not_mem_nil, or_false] at h
      rcases h with rfl | rfl
      · exact ⟨le_refl _, lt_of_le_of_ne h0 (Ne.symm h0s), h0'.le⟩
      · exact ⟨hL, hL', le_refl _⟩

include hv in
/-- The pieces of the last entry contain what the two parts of its range do; the part from `Start`
is empty when the first token is `Start`. -/
theorem exists_mem_pieces_last_iff (hn : 0 < r.Entries.length) (a : Address) :
    (∃ rg ∈ pieces r (r.Entries[r.Entries.length - 1], r.Entries.length - 1), rg.contains a = true) ↔
      ((⟨r.Start, r.Entries[0].Token⟩ : Range).contains a = true ∨
        (⟨r.Entries[r.Entries.length - 1].Token, r.End⟩ : Range).contains a = true) := by
  rw [pieces_last hv hn]
  split
  · rename_i h0
    have hempty : (⟨r.Start, r.Entries[0].Token⟩ : Range).contains a = false := by
      simp only [Range.contains, h0, decide_eq_false_iff_not, not_and, not_lt]
      exact fun h => h
    simp [hempty]
  · simp

include hv in
/-- **The pieces of an entry contain exactly the addresses of the ring that the entry owns.** -/
theorem exists_mem_pieces_iff {x : Entry P × Nat} (hx : x ∈ r.Entries.zipIdx) (a : Address) :
    (∃ rg ∈ pieces r x, rg.contains a = true) ↔
      r.Start ≤ a ∧ a < r.End ∧ ownerIndex r.Entries a = x.2 := by
  obtain ⟨i, hi, rfl⟩ := mem_zipIdx_iff.1 hx
  have hn : 0 < r.Entries.length := by omega
  rcases Nat.lt_or_ge (i + 1) r.Entries.length with hlt | hge
  · -- an entry before the last owns its range, which lies inside the ring
    simp only [pieces_of_lt hv hlt, List.mem_singleton, exists_eq_left, Range.contains,
      decide_eq_true_iff, ownerIndex_eq_iff_of_lt hv.sorted hlt a]
    constructor
    · intro hc
      exact ⟨le_trans (token_bounds hv hi).1 hc.1, lt_trans hc.2 (token_bounds hv hlt).2, hc⟩
    · exact fun h => h.2.2
  · obtain rfl : i = r.Entries.length - 1 := by omega
    rw [exists_mem_pieces_last_iff hv hn]
    constructor
    · intro hc
      obtain ⟨ha, ha'⟩ : r.Start ≤ a ∧ a < r.End := by
        simp only [Range.contains, decide_eq_true_iff] at hc
        rcases hc with ⟨h1, h2⟩ | ⟨h1, h2⟩
        · exact ⟨h1, lt_trans h2 (token_bounds hv hn).2⟩
        · exact ⟨le_trans (token_bounds hv hi).1 h1, h2⟩
      exact ⟨ha, ha', (contains_last_iff hv.sorted hn hi ha r.End ha').1 hc⟩
    · rintro ⟨ha, ha', hown⟩
      exact (contains_last_iff hv.sorted hn hi ha r.End ha').2 hown

include hv in
/-- **The pieces of the entries of `p` contain exactly the addresses of the ring that `p` owns.** -/
theorem exists_piece_iff (hn : 0 < r.Entries.length) (p : P) (a : Address) :
    (∃ x ∈ r.Entries.zipIdx, x.1.Peer = p ∧ ∃ rg ∈ pieces r x, rg.contains a = true) ↔
      r.Start ≤ a ∧ a < r.End ∧ r.owner a = p := by
  rw [owner_eq hv hn a, List.get_eq_getElem]
  constructor
  · rintro ⟨x, hx, hp, hc⟩
    obtain ⟨ha, ha', hown⟩ := (exists_mem_pieces_iff hv hx a).1 hc
    obtain ⟨i, hi, rfl⟩ := mem_zipIdx_iff.1 hx
    simp only at hown hp
    simp only [hown]
    exact ⟨ha, ha', hp⟩
  · rintro ⟨ha, ha', hp⟩
    have hi := ownerIndex_lt hv.sorted hn a
    have hx : (r.Entries[ownerIndex r.Entries a], ownerIndex r.Entries a) ∈ r.Entries.zipIdx :=
      mem_zipIdx_iff.2 ⟨_, hi, rfl⟩
    exact ⟨_, hx, hp, (exists_mem_pieces_iff hv hx a).2 ⟨ha, ha', rfl⟩⟩

end Pieces

/-! ## `OwnedRangesOfPeer` -/

section Owned

variable [DecidableEq P] {r : Ring P} (hv : r.Valid) (hn : 0 < r.Entries.length)

include hv hn in
/-- `OwnedRangesOfPeer` lists the ranges of the entries of `p` before the last, in order, and
splits the last entry's range over zero when `p` owns it. -/
theorem ownedRangesOfPeer_eq (p : P) :
    r.ownedRangesOfPeer p =
      if r.Entries[r.Entries.length - 1].Peer = p then
        r.splitRangesOverZero (properArcs r.Entries p ++
          [arcOf r.Entries (r.Entries[r.Entries.length - 1], r.Entries.length - 1)])
      else properArcs r.Entries p := by
  rw [ownedRangesOfPeer, rangesOfPeer_eq, zipIdx_eq (Nat.sub_lt hn Nat.one_pos), List.filter_append,
    List.map_append]
  split
  · rename_i hp
    simp only [List.filter_cons, List.filter_nil, hp, decide_true, if_true, List.map_cons,
      List.map_nil]
    rfl
  · rename_i hp
    simp only [List.filter_cons, List.filter_nil, hp, decide_false, Bool.false_eq_true, if_false,
      List.map_nil, List.append_nil]
    -- no range before the last wraps or ends at `Start`
    apply splitRangesOverZero_of_proper
    intro x hx
    obtain ⟨y, hy, -, rfl⟩ := mem_properArcs.1 (List.mem_of_getLast? hx)
    have hb := pieces_bounds hv (mem_zipIdx_of_mem_dropLast hn hy)
      (by rw [pieces_of_mem_dropLast hv hy]; exact List.mem_singleton_self _)
    exact ⟨hb.2.1, (lt_of_le_of_lt hb.1 hb.2.1).ne'⟩

include hv hn in
/-- **The ranges `OwnedRangesOfPeer p` lists are the pieces of the entries of `p`.** -/
theorem mem_ownedRangesOfPeer {p : P} {rg : Range} :
    rg ∈ r.ownedRangesOfPeer p ↔ ∃ x ∈ r.Entries.zipIdx, x.1.Peer = p ∧ rg ∈ pieces r x := by
  -- an entry before the last gives its own range
  have hproper : rg ∈ properArcs r.Entries p ↔
      ∃ x ∈ r.Entries.dropLast.zipIdx, x.1.Peer = p ∧ rg ∈ pieces r x := by
    rw [mem_properArcs]
    constructor
    · rintro ⟨x, hx, hp, rfl⟩
      exact ⟨x, hx, hp, by rw [pieces_of_mem_dropLast hv hx]; exact List.mem_singleton_self _⟩
    · rintro ⟨x, hx, hp, h⟩
      rw [pieces_of_mem_dropLast hv hx, List.mem_singleton] at h
      exact ⟨x, hx, hp, h⟩
  have hle := token_le hv.sorted (i := 0) (Nat.sub_lt hn Nat.one_pos) (Nat.zero_le _)
  have hlast := Nat.sub_lt hn Nat.one_pos
  rw [ownedRangesOfPeer_eq hv hn, zipIdx_eq hlast]
  simp only [List.mem_append, List.mem_singleton, or_and_right, exists_or, exists_eq_left]
  split
  · rename_i hp
    rw [arcOf_last hn hlast, mem_splitRangesOverZero_wrap r _ hle, hproper, ← arcOf_last hn hlast]
    simp only [hp, true_and]
    rfl
  · rename_i hp
    simp only [hp, false_and, or_false, hproper]

include hv hn in
/-- The ranges `OwnedRangesOfPeer` lists are in order: each ends before the next starts. -/
theorem ownedRangesOfPeer_pairwise (p : P) :
    (r.ownedRangesOfPeer p).Pairwise (fun x y => x.End ≤ y.Start) := by
  have hproper : (properArcs r.Entries p).Pairwise (fun x y => x.End ≤ y.Start) :=
    (properArcs_pairwise hv.sorted).sublist (List.filter_sublist.map _)
  have hlast := Nat.sub_lt hn Nat.one_pos
  have hle := token_le hv.sorted (i := 0) hlast (Nat.zero_le _)
  rw [ownedRangesOfPeer_eq hv hn]
  split
  · -- the part of the last range up to `End` comes after the others
    have happ : (properArcs r.Entries p ++
        [(⟨r.Entries[r.Entries.length - 1].Token, r.End⟩ : Range)]).Pairwise
          (fun x y => x.End ≤ y.Start) := by
      refine List.pairwise_append.2 ⟨hproper, List.pairwise_singleton _ _, ?_⟩
      intro x hx y hy
      rw [List.mem_singleton] at hy
      subst hy
      exact (properArcs_bounds hv.sorted hn hlast hx).2
    rw [arcOf_last hn hlast, splitRangesOverZero_wrap r _ hle]
    split
    · exact happ
    · -- and the part from `Start` before them, ending at the first token
      refine List.pairwise_cons.2 ⟨?_, happ⟩
      intro y hy
      rcases List.mem_append.1 hy with hy | hy
      · exact (properArcs_bounds hv.sorted hn hlast hy).1
      · rw [List.mem_singleton] at hy
        subst hy
        exact hle
  · exact hproper

include hv hn in
/-- The ranges `OwnedRangesOfPeer` lists are proper and inside the ring. -/
theorem ownedRangesOfPeer_bounds {p : P} {rg : Range} (h : rg ∈ r.ownedRangesOfPeer p) :
    r.Start ≤ rg.Start ∧ rg.Start < rg.End ∧ rg.End ≤ r.End := by
  obtain ⟨x, hx, -, hrg⟩ := (mem_ownedRangesOfPeer hv hn).1 h
  exact pieces_bounds hv hx hrg

include hv hn in
/-- **The ranges `OwnedRangesOfPeer p` lists contain exactly the addresses `p` owns.** -/
theorem exists_ownedRangesOfPeer_iff (p : P) (a : Address) :
    (∃ rg ∈ r.ownedRangesOfPeer p, rg.contains a = true) ↔
      r.Start ≤ a ∧ a < r.End ∧ r.owner a = p := by
  rw [← exists_piece_iff hv hn p a]
  constructor
  · rintro ⟨rg, hrg, hc⟩
    obtain ⟨x, hx, hp, hpc⟩ := (mem_ownedRangesOfPeer hv hn).1 hrg
    exact ⟨x, hx, hp, rg, hpc, hc⟩
  · rintro ⟨x, hx, hp, rg, hrg, hc⟩
    exact ⟨rg, (mem_ownedRangesOfPeer hv hn).2 ⟨x, hx, hp, hrg⟩, hc⟩

end Owned

/-! ## `AllRangeInfo` -/

/-- The ranges `AllRangeInfo` lists are the pieces of every entry, in the order of the entries. -/
theorem allRangeInfo_ranges (r : Ring P) :
    r.allRangeInfo.map (·.Range) = r.Entries.zipIdx.flatMap (pieces r) := by
  simp only [allRangeInfo, List.map_flatMap, List.map_map]
  congr 1
  funext x
  obtain ⟨e, i⟩ := x
  simp only [pieces, arcOf]
  exact List.map_id _

/-- An entry of `AllRangeInfo` is a piece of an entry of the ring, with its peer and version. -/
theorem mem_allRangeInfo (r : Ring P) {ri : RangeInfo P} :
    ri ∈ r.allRangeInfo ↔ ∃ x ∈ r.Entries.zipIdx,
      ri.Peer = x.1.Peer ∧ ri.Version = x.1.Version ∧ ri.Range ∈ pieces r x := by
  simp only [allRangeInfo, List.mem_flatMap, List.mem_map]
  constructor
  · rintro ⟨⟨e, i⟩, hx, rg, hrg, rfl⟩
    exact ⟨(e, i), hx, rfl, rfl, hrg⟩
  · rintro ⟨⟨e, i⟩, hx, hp, hver, hrg⟩
    obtain ⟨peer, rg, version⟩ := ri
    simp only at hp hver hrg
    subst hp hver
    exact ⟨(e, i), hx, rg, hrg, rfl⟩

/-- **`AllRangeInfo` gives each peer the ranges `OwnedRangesOfPeer` gives it.** -/
theorem allRangeInfo_iff_ownedRangesOfPeer [DecidableEq P] {r : Ring P} (hv : r.Valid)
    (hn : 0 < r.Entries.length) (p : P) (rg : Range) :
    (∃ ri ∈ r.allRangeInfo, ri.Peer = p ∧ ri.Range = rg) ↔ rg ∈ r.ownedRangesOfPeer p := by
  rw [mem_ownedRangesOfPeer hv hn]
  constructor
  · rintro ⟨ri, hri, rfl, rfl⟩
    obtain ⟨x, hx, hp, -, hrg⟩ := (mem_allRangeInfo r).1 hri
    exact ⟨x, hx, hp.symm, hrg⟩
  · rintro ⟨x, hx, rfl, hrg⟩
    exact ⟨⟨x.1.Peer, rg, x.1.Version⟩, (mem_allRangeInfo r).2 ⟨x, hx, rfl, rfl, hrg⟩, rfl, rfl⟩

/-- The ranges `AllRangeInfo` lists are proper and inside the ring. -/
theorem allRangeInfo_bounds {r : Ring P} (hv : r.Valid) {ri : RangeInfo P}
    (h : ri ∈ r.allRangeInfo) : r.Start ≤ ri.Range.Start ∧ ri.Range.Start < ri.Range.End ∧
      ri.Range.End ≤ r.End := by
  obtain ⟨x, hx, -, -, hrg⟩ := (mem_allRangeInfo r).1 h
  exact pieces_bounds hv hx hrg

/-- **The ranges `AllRangeInfo` gives `p` contain exactly the addresses `p` owns.** -/
theorem exists_allRangeInfo_iff [DecidableEq P] {r : Ring P} (hv : r.Valid)
    (hn : 0 < r.Entries.length) (p : P) (a : Address) :
    (∃ ri ∈ r.allRangeInfo, ri.Peer = p ∧ ri.Range.contains a = true) ↔
      r.Start ≤ a ∧ a < r.End ∧ r.owner a = p := by
  rw [← exists_ownedRangesOfPeer_iff hv hn p a]
  constructor
  · rintro ⟨ri, hri, hp, hc⟩
    exact ⟨ri.Range, (allRangeInfo_iff_ownedRangesOfPeer hv hn p _).1 ⟨ri, hri, hp, rfl⟩, hc⟩
  · rintro ⟨rg, hrg, hc⟩
    obtain ⟨ri, hri, hp, rfl⟩ := (allRangeInfo_iff_ownedRangesOfPeer hv hn p rg).2 hrg
    exact ⟨ri, hri, hp, hc⟩

/-- **No two ranges `AllRangeInfo` lists overlap.** The two pieces of one entry are the two parts of
the last range; pieces of two entries sharing an address would both be its owner. -/
theorem allRangeInfo_pairwise {r : Ring P} (hv : r.Valid) :
    (r.allRangeInfo.map (·.Range)).Pairwise (fun x y => x.overlaps y = false) := by
  rw [allRangeInfo_ranges, List.pairwise_flatMap]
  constructor
  · -- the pieces of one entry
    intro x hx
    obtain ⟨i, hi, rfl⟩ := mem_zipIdx_iff.1 hx
    rcases Nat.lt_or_ge (i + 1) r.Entries.length with hlt | hge
    · rw [pieces_of_lt hv hlt]
      exact List.pairwise_singleton _ _
    · obtain rfl : i = r.Entries.length - 1 := by omega
      have hn : 0 < r.Entries.length := by omega
      rw [pieces_last hv hn]
      split
      · exact List.pairwise_singleton _ _
      · rw [List.pairwise_pair]
        exact Range.overlaps_eq_false_of_end_le (token_le hv.sorted hi (Nat.zero_le _))
  · -- the pieces of two entries
    rw [List.pairwise_iff_getElem]
    intro j k hj hk hjk x hx y hy
    simp only [List.length_zipIdx] at hj hk
    simp only [List.getElem_zipIdx, Nat.zero_add] at hx hy
    have hmj : (r.Entries[j], j) ∈ r.Entries.zipIdx := mem_zipIdx_iff.2 ⟨j, hj, rfl⟩
    have hmk : (r.Entries[k], k) ∈ r.Entries.zipIdx := mem_zipIdx_iff.2 ⟨k, hk, rfl⟩
    apply Range.overlaps_eq_false_of_contains (pieces_bounds hv hmj hx).2.1
      (pieces_bounds hv hmk hy).2.1
    intro a hax hay
    have hownj := ((exists_mem_pieces_iff hv hmj a).1 ⟨x, hx, hax⟩).2.2
    have hownk := ((exists_mem_pieces_iff hv hmk a).1 ⟨y, hy, hay⟩).2.2
    simp only at hownj hownk
    omega

/-! ## Asking for space -/

/-- Entry `j` adds its peer `p` to the totals of `ChoosePeersToAskForSpace start end`: the loop does
not skip it as ending at or before `start`, its token is below `end`, it has free space and it is
not ours. -/
def Adds (r : Ring P) (start endAddr : Address) (j : Nat) (p : P) : Prop :=
  ∃ hj : j < r.Entries.length,
    ¬(j + 1 < r.Entries.length ∧ (Entries.entry r.Entries (j + 1)).Token - 1 < start) ∧
      r.Entries[j].Token < endAddr ∧ ¬r.Entries[j].Free ≤ 0 ∧ r.Entries[j].Peer ≠ r.Peer ∧
      r.Entries[j].Peer = p

omit [Inhabited P] in
/-- The entries from `i` on are entry `i` and those from `i + 1` on. -/
theorem exists_le_iff {Q : Nat → Prop} (i : Nat) :
    (∃ j, i ≤ j ∧ Q j) ↔ Q i ∨ ∃ j, i + 1 ≤ j ∧ Q j := by
  constructor
  · rintro ⟨j, hij, hq⟩
    rcases Nat.lt_or_eq_of_le hij with hlt | rfl
    · exact Or.inr ⟨j, hlt, hq⟩
    · exact Or.inl hq
  · rintro (hq | ⟨j, hij, hq⟩)
    · exact ⟨i, le_refl i, hq⟩
    · exact ⟨j, by omega, hq⟩

section Space

variable [DecidableEq P] {r : Ring P} (hs : r.Entries.Pairwise (fun a b => a.Token < b.Token))
  (start endAddr : Address)

/-- The totals of `ChoosePeersToAskForSpace` keep one entry for each peer. -/
theorem nodup_keys_spacePerPeer : ∀ (rest : List (Entry P)) (i : Nat) (totals : List (P × Count)),
    (totals.map Prod.fst).Nodup → ((r.spacePerPeer start endAddr rest i totals).map Prod.fst).Nodup
  | [], _, _, h => h
  | entry :: rest, i, totals, h => by
    rw [spacePerPeer]
    split_ifs
    · exact nodup_keys_spacePerPeer rest (i + 1) totals h
    · exact h
    · exact nodup_keys_spacePerPeer rest (i + 1) totals h
    · exact nodup_keys_spacePerPeer rest (i + 1) totals h
    · exact nodup_keys_spacePerPeer rest (i + 1) _ (Map.nodup_keys_set h _ _)

include hs in
/-- **The loop of `ChoosePeersToAskForSpace` from entry `i` adds exactly the peers of the entries
from `i` on that it does not skip.** It stops at the first token at or past `end`; the tokens after
it are no lower, so none of them would add its peer. -/
theorem mem_keys_spacePerPeer (p : P) :
    ∀ (rest : List (Entry P)) (i : Nat) (totals : List (P × Count)), rest = r.Entries.drop i →
      (p ∈ (r.spacePerPeer start endAddr rest i totals).map Prod.fst ↔
        p ∈ totals.map Prod.fst ∨ ∃ j, i ≤ j ∧ r.Adds start endAddr j p)
  | [], i, totals, h => by
    have hi : r.Entries.length ≤ i := List.drop_eq_nil_iff.1 h.symm
    rw [spacePerPeer]
    constructor
    · exact Or.inl
    · rintro (h | ⟨j, hij, hj, -⟩)
      · exact h
      · omega
  | entry :: rest, i, totals, h => by
    have hi : i < r.Entries.length := by
      by_contra hge
      rw [List.drop_eq_nil_of_le (not_lt.1 hge)] at h
      exact List.cons_ne_nil _ _ h
    rw [List.drop_eq_getElem_cons hi, List.cons.injEq] at h
    obtain ⟨rfl, hrest⟩ := h
    have ih := mem_keys_spacePerPeer p rest (i + 1)
    -- an entry that does not add `p` leaves it to the entries after it
    have hskipped : ¬r.Adds start endAddr i p →
        (p ∈ (r.spacePerPeer start endAddr rest (i + 1) totals).map Prod.fst ↔
          p ∈ totals.map Prod.fst ∨ r.Adds start endAddr i p ∨
            ∃ j, i + 1 ≤ j ∧ r.Adds start endAddr j p) := by
      intro hno
      rw [ih totals hrest]
      simp only [hno, false_or]
    rw [spacePerPeer, exists_le_iff i]
    split_ifs with hskip hend hfree hpeer
    · -- skipped: it ends at or before `start`
      exact hskipped fun ⟨_, h, _⟩ => h hskip
    · -- the loop stops: no entry from `i` on is below `end`
      have hno : ∀ j, i ≤ j → ¬r.Adds start endAddr j p := fun j hij ⟨hj, _, hlt, _⟩ =>
        not_le.2 hlt (le_trans hend (token_le hs hj hij))
      simp only [hno i (le_refl i), false_or]
      constructor
      · exact Or.inl
      · rintro (h | ⟨j, hij, hj⟩)
        · exact h
        · exact absurd hj (hno j (by omega))
    · -- no free space
      exact hskipped fun ⟨_, _, _, h, _⟩ => h hfree
    · -- our own entry
      exact hskipped fun ⟨_, _, _, _, h, _⟩ => h hpeer
    · -- its free space is added to its peer's total
      have hadds : r.Adds start endAddr i p ↔ r.Entries[i].Peer = p :=
        ⟨fun ⟨_, _, _, _, _, h⟩ => h, fun h => ⟨hi, hskip, not_le.1 hend, hfree, hpeer, h⟩⟩
      rw [ih _ hrest, Map.mem_keys_set, hadds, eq_comm (a := p)]
      tauto

/-- `ChoosePeersToAskForSpace` returns the peers of its totals, in the order of their weights. -/
theorem choosePeersToAskForSpace_perm (rand : List Nat) :
    (r.choosePeersToAskForSpace start endAddr rand).Perm
      ((r.spacePerPeer start endAddr r.Entries 0 []).map Prod.fst) := by
  unfold choosePeersToAskForSpace
  refine ((List.mergeSort_perm _ _).map _).trans (List.Perm.of_eq ?_)
  -- each weighted peer keeps the peer of its total
  conv_rhs => rw [← List.zipIdx_map_fst 0 (r.spacePerPeer start endAddr r.Entries 0 [])]
  rw [List.map_map, List.map_map]
  refine List.map_congr_left fun x _ => ?_
  obtain ⟨⟨peer, space⟩, i⟩ := x
  rfl

end Space

section Overlap

variable {r : Ring P} (hv : r.Valid)

include hv in
/-- On a valid ring with an entry at `Start`, that entry is the first. -/
theorem first_token_eq_start (hstart : ∃ e ∈ r.Entries, e.Token = r.Start) :
    ∃ hn : 0 < r.Entries.length, r.Entries[0].Token = r.Start := by
  obtain ⟨e, he, hes⟩ := hstart
  obtain ⟨k, hk, rfl⟩ := List.getElem_of_mem he
  have hn : 0 < r.Entries.length := by omega
  refine ⟨hn, le_antisymm ?_ (token_bounds hv hn).1⟩
  calc r.Entries[0].Token ≤ r.Entries[k].Token := token_le hv.sorted hk (Nat.zero_le k)
    _ = r.Start := hes

include hv in
/-- **The loop goes on to an entry below `end` exactly when its range overlaps `[start, end)`.**
The skip test `next.Token - 1 < start` is `next.Token ≤ start`, next tokens being above zero; the
last entry, with an entry at `Start`, owns up to `End`, past `start`. -/
theorem reaches_iff_overlaps (hn : 0 < r.Entries.length) (h0 : r.Entries[0].Token = r.Start)
    {start endAddr : Address} (hlt : start < endAddr) (hhi : endAddr ≤ r.End) {i : Nat}
    (hi : i < r.Entries.length) :
    (¬(i + 1 < r.Entries.length ∧ (Entries.entry r.Entries (i + 1)).Token - 1 < start) ∧
        r.Entries[i].Token < endAddr) ↔
      ∃ rg ∈ pieces r (r.Entries[i], i), rg.overlaps ⟨start, endAddr⟩ = true := by
  rcases Nat.lt_or_ge (i + 1) r.Entries.length with hnext | hge
  · have hpos : 0 < r.Entries[i + 1].Token :=
      lt_of_le_of_lt (Fin.zero_le _)
        (List.pairwise_iff_getElem.1 hv.sorted i (i + 1) hi hnext (Nat.lt_succ_self i))
    rw [show ((i : Int) + 1) = ((i + 1 : Nat) : Int) by omega, Entries.entry_of_lt hnext,
      Address.sub_one_lt_iff hpos, pieces_of_lt hv hnext]
    simp only [hnext, true_and, List.mem_singleton, exists_eq_left, Range.overlaps,
      Bool.not_eq_true', Bool.or_eq_false_iff, decide_eq_false_iff_not, not_le]
    exact and_comm
  · obtain rfl : i = r.Entries.length - 1 := by omega
    rw [pieces_last hv hn, if_pos h0]
    simp only [List.mem_singleton, exists_eq_left, Range.overlaps, Bool.not_eq_true',
      Bool.or_eq_false_iff, decide_eq_false_iff_not, not_le]
    have hstart : start < r.End := lt_of_lt_of_le hlt hhi
    constructor
    · rintro ⟨-, h⟩
      exact ⟨h, hstart⟩
    · rintro ⟨h, -⟩
      exact ⟨fun h' => by omega, h⟩

end Overlap

/-- **`ChoosePeersToAskForSpace` returns each donor once.** On a valid ring with an entry at `Start`,
for `start < end ≤ End`, it returns without repetition exactly the peers other than ours that have
free space in an entry whose range, split over zero as `AllRangeInfo` lists it, overlaps
`[start, end)`. -/
theorem choosePeersToAskForSpace_spec [DecidableEq P] (r : Ring P)
    (hv : r.checkInvariants = .ok ()) (hstart : ∃ e ∈ r.Entries, e.Token = r.Start)
    (start endAddr : Address) (hlt : start < endAddr) (hhi : endAddr ≤ r.End) (rand : List Nat) :
    (r.choosePeersToAskForSpace start endAddr rand).Nodup ∧
    ∀ p, p ∈ r.choosePeersToAskForSpace start endAddr rand ↔
      p ≠ r.Peer ∧ ∃ x ∈ r.Entries.zipIdx, x.1.Peer = p ∧ 0 < x.1.Free ∧
        ∃ rg ∈ pieces r x, rg.overlaps ⟨start, endAddr⟩ = true := by
  have hval := checkInvariants_eq_ok.1 hv
  obtain ⟨hn, h0⟩ := first_token_eq_start hval hstart
  have hperm := choosePeersToAskForSpace_perm start endAddr rand (r := r)
  refine ⟨hperm.nodup_iff.2 (nodup_keys_spacePerPeer start endAddr _ 0 [] List.nodup_nil),
    fun p => ?_⟩
  -- the totals start empty and the loop starts at the first entry
  rw [hperm.mem_iff,
    mem_keys_spacePerPeer hval.sorted start endAddr p _ 0 [] List.drop_zero.symm]
  simp only [List.map_nil, List.not_mem_nil, false_or, Nat.zero_le, true_and]
  constructor
  · rintro ⟨j, hj, hskip, hend, hfree, hpeer, rfl⟩
    exact ⟨hpeer, (r.Entries[j], j), mem_zipIdx_iff.2 ⟨j, hj, rfl⟩, rfl, not_le.1 hfree,
      (reaches_iff_overlaps hval hn h0 hlt hhi hj).1 ⟨hskip, hend⟩⟩
  · rintro ⟨hpeer, x, hx, rfl, hfree, hov⟩
    obtain ⟨j, hj, rfl⟩ := mem_zipIdx_iff.1 hx
    obtain ⟨hskip, hend⟩ := (reaches_iff_overlaps hval hn h0 hlt hhi hj).2 hov
    exact ⟨j, hj, hskip, hend, not_le.2 hfree, hpeer, rfl⟩

/-- A witness of `choosePeersToAskForSpace_spec`: three entries from `Start`, asking for `[40, 60)`,
which the entries of peers `1` and `2` overlap; `1` is ours. -/
theorem choosePeersToAskForSpace_spec_three :
    let r : Ring Nat := ⟨0, 100, 1, [⟨0, 1, 0, 10⟩, ⟨50, 2, 0, 20⟩, ⟨80, 3, 0, 5⟩], []⟩
    r.checkInvariants = .ok () ∧ (∃ e ∈ r.Entries, e.Token = r.Start) ∧ (40 : Address) < 60 ∧
      (60 : Address) ≤ r.End ∧
    (r.choosePeersToAskForSpace 40 60 [1, 2]).Nodup ∧
    ∀ p, p ∈ r.choosePeersToAskForSpace 40 60 [1, 2] ↔
      p ≠ r.Peer ∧ ∃ x ∈ r.Entries.zipIdx, x.1.Peer = p ∧ 0 < x.1.Free ∧
        ∃ rg ∈ pieces r x, rg.overlaps ⟨40, 60⟩ = true :=
  ⟨by decide, by decide, by decide, by decide,
    choosePeersToAskForSpace_spec _ (by decide) (by decide) 40 60 (by decide) (by decide) [1, 2]⟩

/-! ## The ranges of a valid ring with entries -/

/-- **On a valid ring with entries the listed ranges partition ownership.** The ranges
`OwnedRangesOfPeer p` lists are proper, inside the ring, in increasing order without overlap, and
contain exactly the addresses `p` owns; those `AllRangeInfo` lists are proper, inside the ring and
without overlap, and those it gives `p` contain exactly the addresses `p` owns, so that together they
cover the ring once. -/
theorem ownedRanges_partition_of_nonempty [DecidableEq P] (r : Ring P)
    (hv : r.checkInvariants = .ok ()) (hn : r.Entries ≠ []) (p : P) :
    (∀ rg ∈ r.ownedRangesOfPeer p, r.Start ≤ rg.Start ∧ rg.Start < rg.End ∧ rg.End ≤ r.End) ∧
    (r.ownedRangesOfPeer p).Pairwise (fun x y => x.Start < y.Start ∧ x.overlaps y = false) ∧
    (∀ a, (∃ rg ∈ r.ownedRangesOfPeer p, rg.contains a = true) ↔
      r.Start ≤ a ∧ a < r.End ∧ r.owner a = p) ∧
    (∀ ri ∈ r.allRangeInfo,
      r.Start ≤ ri.Range.Start ∧ ri.Range.Start < ri.Range.End ∧ ri.Range.End ≤ r.End) ∧
    (r.allRangeInfo.map (·.Range)).Pairwise (fun x y => x.overlaps y = false) ∧
    (∀ a, (∃ ri ∈ r.allRangeInfo, ri.Peer = p ∧ ri.Range.contains a = true) ↔
      r.Start ≤ a ∧ a < r.End ∧ r.owner a = p) := by
  have hval := checkInvariants_eq_ok.1 hv
  have hlen : 0 < r.Entries.length := List.length_pos_iff.2 hn
  refine ⟨fun rg h => ownedRangesOfPeer_bounds hval hlen h, ?_,
    exists_ownedRangesOfPeer_iff hval hlen p, fun ri h => allRangeInfo_bounds hval h,
    allRangeInfo_pairwise hval, exists_allRangeInfo_iff hval hlen p⟩
  -- a range that ends before the next starts also starts before it
  refine (ownedRangesOfPeer_pairwise hval hlen p).imp_of_mem fun hx _ hxy =>
    ⟨?_, Range.overlaps_eq_false_of_end_le hxy⟩
  exact lt_of_lt_of_le (ownedRangesOfPeer_bounds hval hlen hx).2.1 hxy

/-- A witness of `ownedRanges_partition_of_nonempty`: a ring of three entries whose last range
wraps, for the peer owning the first and the last entry. -/
theorem ownedRanges_partition_wrapped :
    let r : Ring Nat := ⟨0, 100, 1, [⟨10, 1, 0, 0⟩, ⟨50, 2, 0, 0⟩, ⟨80, 1, 0, 0⟩], []⟩
    r.checkInvariants = .ok () ∧ r.Entries ≠ [] ∧
    (∀ rg ∈ r.ownedRangesOfPeer 1, r.Start ≤ rg.Start ∧ rg.Start < rg.End ∧ rg.End ≤ r.End) ∧
    (r.ownedRangesOfPeer 1).Pairwise (fun x y => x.Start < y.Start ∧ x.overlaps y = false) ∧
    (∀ a, (∃ rg ∈ r.ownedRangesOfPeer 1, rg.contains a = true) ↔
      r.Start ≤ a ∧ a < r.End ∧ r.owner a = 1) ∧
    (∀ ri ∈ r.allRangeInfo,
      r.Start ≤ ri.Range.Start ∧ ri.Range.Start < ri.Range.End ∧ ri.Range.End ≤ r.End) ∧
    (r.allRangeInfo.map (·.Range)).Pairwise (fun x y => x.overlaps y = false) ∧
    (∀ a, (∃ ri ∈ r.allRangeInfo, ri.Peer = 1 ∧ ri.Range.contains a = true) ↔
      r.Start ≤ a ∧ a < r.End ∧ r.owner a = 1) :=
  ⟨by decide, by simp, ownedRanges_partition_of_nonempty _ (by decide) (by simp) 1⟩

/-- **The empty ring and the order of `AllRangeInfo`.** On the empty ring, which `checkInvariants`
accepts, `Owner` gives every address to the unknown peer while `OwnedRangesOfPeer` lists it no
range and `AllRangeInfo` lists none at all; on a ring whose first token is above `Start`,
`AllRangeInfo` lists the part of the last range from `Start` after the ranges of the other
entries. -/
theorem ranges_of_empty_and_wrapped :
    let empty : Ring Nat := Ring.new 0 100 0
    let wrapped : Ring Nat := ⟨0, 100, 1, [⟨10, 1, 0, 0⟩, ⟨50, 2, 0, 0⟩, ⟨80, 1, 0, 0⟩], []⟩
    empty.checkInvariants = .ok () ∧ empty.owner 5 = 0 ∧ empty.ownedRangesOfPeer 0 = [] ∧
      empty.allRangeInfo = [] ∧
    wrapped.checkInvariants = .ok () ∧
      wrapped.allRangeInfo.map (·.Range) = [⟨10, 50⟩, ⟨50, 80⟩, ⟨0, 10⟩, ⟨80, 100⟩] := by
  decide

end WeaveNet.Ring
