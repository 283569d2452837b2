import Mathlib

/-!
# The union of two lists sorted by a key

`unionWith k c xs ys` merges two lists sorted by the key `k`, as the merge step of merge sort
does, and puts `c x y` in place of two elements `x`, `y` of one key. On lists strictly sorted by
the key it is the union of two finite maps from keys, combined by `c` where both have a key:

* it stays strictly sorted (`pairwise_unionWith`), and finds at each key what `c` makes of what
  the two lists find there (`find?_unionWith`);
* a strictly sorted list is determined by what it finds at each key (`eq_of_find?_eq`), so the
  laws of `c` carry over: `unionWith` is commutative, associative and idempotent when `c` is, on
  the elements the lists hold (`unionWith_comm`, `unionWith_assoc`, `unionWith_self`).

A loop that inserts the elements of one sorted list into another, one at a time, passing over the
elements below each, computes it; `append_unionWith_of_lt` is the step that passes over them.
-/

namespace WeaveNet.Lib

variable {α β : Type*} [LinearOrder β] (k : α → β) (c : α → α → α)

/-- The merge of two lists sorted by `k`, combining two elements of one key by `c`. -/
def unionWith : List α → List α → List α
  | [], ys => ys
  | x :: xs, [] => x :: xs
  | x :: xs, y :: ys =>
    if k x < k y then x :: unionWith xs (y :: ys)
    else if k y < k x then y :: unionWith (x :: xs) ys
    else c x y :: unionWith xs ys
termination_by xs ys => xs.length + ys.length

variable {k c}

@[simp] theorem unionWith_nil_left (ys : List α) : unionWith k c [] ys = ys := by
  rw [unionWith]

@[simp] theorem unionWith_nil_right (xs : List α) : unionWith k c xs [] = xs := by
  cases xs <;> rw [unionWith]

theorem unionWith_cons_of_lt {x y : α} (xs ys : List α) (h : k x < k y) :
    unionWith k c (x :: xs) (y :: ys) = x :: unionWith k c xs (y :: ys) := by
  rw [unionWith, if_pos h]

theorem unionWith_cons_of_gt {x y : α} (xs ys : List α) (h : k y < k x) :
    unionWith k c (x :: xs) (y :: ys) = y :: unionWith k c (x :: xs) ys := by
  rw [unionWith, if_neg (not_lt.2 h.le), if_pos h]

theorem unionWith_cons_of_eq {x y : α} (xs ys : List α) (h : k x = k y) :
    unionWith k c (x :: xs) (y :: ys) = c x y :: unionWith k c xs ys := by
  rw [unionWith, if_neg (not_lt.2 h.ge), if_neg (not_lt.2 h.le)]

/-- The elements below the first of the other list come first, as they are. -/
theorem append_unionWith_of_lt {y : α} {ys : List α} :
    ∀ {below : List α} (xs : List α), (∀ x ∈ below, k x < k y) →
      unionWith k c (below ++ xs) (y :: ys) = below ++ unionWith k c xs (y :: ys)
  | [], _, _ => rfl
  | x :: below, xs, h => by
    rw [List.cons_append, unionWith_cons_of_lt _ _ (h x (by simp)),
      append_unionWith_of_lt xs fun x hx => h x (by simp [hx]), List.cons_append]

/-- An element of the union is one of either list, or what `c` made of one of each. -/
theorem mem_unionWith {z : α} :
    ∀ {xs ys : List α}, z ∈ unionWith k c xs ys → z ∈ xs ∨ z ∈ ys ∨ ∃ x ∈ xs, ∃ y ∈ ys, z = c x y
  | [], ys, h => .inr (.inl (by simpa using h))
  | x :: xs, [], h => .inl (by simpa using h)
  | x :: xs, y :: ys, h => by
    rcases lt_trichotomy (k x) (k y) with hlt | heq | hgt
    · rw [unionWith_cons_of_lt _ _ hlt, List.mem_cons] at h
      rcases h with rfl | h
      · exact .inl (by simp)
      rcases mem_unionWith h with h | h | ⟨x', hx', y', hy', rfl⟩
      · exact .inl (by simp [h])
      · exact .inr (.inl h)
      · exact .inr (.inr ⟨x', by simp [hx'], y', hy', rfl⟩)
    · rw [unionWith_cons_of_eq _ _ heq, List.mem_cons] at h
      rcases h with rfl | h
      · exact .inr (.inr ⟨x, by simp, y, by simp, rfl⟩)
      rcases mem_unionWith h with h | h | ⟨x', hx', y', hy', rfl⟩
      · exact .inl (by simp [h])
      · exact .inr (.inl (by simp [h]))
      · exact .inr (.inr ⟨x', by simp [hx'], y', by simp [hy'], rfl⟩)
    · rw [unionWith_cons_of_gt _ _ hgt, List.mem_cons] at h
      rcases h with rfl | h
      · exact .inr (.inl (by simp))
      rcases mem_unionWith h with h | h | ⟨x', hx', y', hy', rfl⟩
      · exact .inl h
      · exact .inr (.inl (by simp [h]))
      · exact .inr (.inr ⟨x', hx', y', by simp [hy'], rfl⟩)
termination_by xs ys => xs.length + ys.length

/-! ## Sorted lists -/

/-- A key below the head of a list sorted strictly from it is below all of the list. -/
theorem forall_lt_cons {a : β} {y : α} {ys : List α} (hlt : a < k y) (hy : ∀ y' ∈ ys, k y < k y') :
    ∀ y' ∈ y :: ys, a < k y' := by
  intro y' hy'
  rcases List.mem_cons.1 hy' with rfl | hy'
  · exact hlt
  · exact hlt.trans (hy y' hy')

section Sorted

variable (hk : ∀ x y, k x = k y → k (c x y) = k x)
include hk

/-- A bound on the keys of both lists bounds the keys of their union. -/
theorem forall_key_unionWith {P : β → Prop} :
    ∀ {xs ys : List α}, (∀ x ∈ xs, P (k x)) → (∀ y ∈ ys, P (k y)) →
      ∀ z ∈ unionWith k c xs ys, P (k z)
  | [], ys, _, hy => by simpa using hy
  | x :: xs, [], hx, _ => by simpa using hx
  | x :: xs, y :: ys, hx, hy => by
    have hx' : ∀ x' ∈ xs, P (k x') := fun x' h => hx x' (by simp [h])
    have hy' : ∀ y' ∈ ys, P (k y') := fun y' h => hy y' (by simp [h])
    rcases lt_trichotomy (k x) (k y) with hlt | heq | hgt
    · rw [unionWith_cons_of_lt _ _ hlt]
      simpa [hx x (by simp)] using forall_key_unionWith hx' hy
    · rw [unionWith_cons_of_eq _ _ heq]
      simpa [hk x y heq, hx x (by simp)] using forall_key_unionWith hx' hy'
    · rw [unionWith_cons_of_gt _ _ hgt]
      simpa [hy y (by simp)] using forall_key_unionWith hx hy'
termination_by xs ys => xs.length + ys.length

/-- **The union of strictly sorted lists is strictly sorted.** -/
theorem pairwise_unionWith :
    ∀ {xs ys : List α}, xs.Pairwise (fun a b => k a < k b) → ys.Pairwise (fun a b => k a < k b) →
      (unionWith k c xs ys).Pairwise fun a b => k a < k b
  | [], ys, _, hy => by simpa using hy
  | x :: xs, [], hx, _ => by simpa using hx
  | x :: xs, y :: ys, hx, hy => by
    rw [List.pairwise_cons] at hx hy
    rcases lt_trichotomy (k x) (k y) with hlt | heq | hgt
    · -- `x` comes first, below all of `xs` and of `y :: ys`
      rw [unionWith_cons_of_lt _ _ hlt, List.pairwise_cons]
      exact ⟨forall_key_unionWith hk hx.1 (forall_lt_cons hlt hy.1),
        pairwise_unionWith hx.2 (List.pairwise_cons.2 hy)⟩
    · -- `c x y` comes first, of the key of both heads
      rw [unionWith_cons_of_eq _ _ heq, List.pairwise_cons]
      refine ⟨forall_key_unionWith hk (P := fun b => k (c x y) < b) ?_ ?_,
        pairwise_unionWith hx.2 hy.2⟩
      · intro x' hx'
        rw [hk x y heq]
        exact hx.1 x' hx'
      · intro y' hy'
        rw [hk x y heq, heq]
        exact hy.1 y' hy'
    · rw [unionWith_cons_of_gt _ _ hgt, List.pairwise_cons]
      exact ⟨forall_key_unionWith hk (forall_lt_cons hgt hx.1) hy.1,
        pairwise_unionWith (List.pairwise_cons.2 hx) hy.2⟩
termination_by xs ys => xs.length + ys.length

end Sorted

/-! ## What the union finds at each key -/

/-- What a list finds at the key `b`: its first element of that key. -/
theorem find?_cons_of_ne {x : α} {b : β} (xs : List α) (h : k x ≠ b) :
    (x :: xs).find? (fun z => k z = b) = xs.find? (fun z => k z = b) := by
  simp [h]

/-- A list strictly sorted by key finds nothing at a key below its first one. -/
theorem find?_eq_none_of_lt {b : β} :
    ∀ {xs : List α}, (∀ x ∈ xs, b < k x) → xs.find? (fun z => k z = b) = none
  | [], _ => rfl
  | x :: xs, h => by
    rw [find?_cons_of_ne xs (h x (by simp)).ne', find?_eq_none_of_lt fun x' hx' => h x' (by simp [hx'])]

section Find

variable (hk : ∀ x y, k x = k y → k (c x y) = k x)
include hk

/-- **The union finds what `c` makes of what both lists find.** -/
theorem find?_unionWith (b : β) :
    ∀ {xs ys : List α}, xs.Pairwise (fun a b => k a < k b) → ys.Pairwise (fun a b => k a < k b) →
      (unionWith k c xs ys).find? (fun z => k z = b) =
        Option.merge c (xs.find? fun z => k z = b) (ys.find? fun z => k z = b)
  | [], ys, _, _ => by
    rw [unionWith_nil_left]
    cases ys.find? (fun z => k z = b) <;> rfl
  | x :: xs, [], _, _ => by
    rw [unionWith_nil_right]
    cases (x :: xs).find? (fun z => k z = b) <;> rfl
  | x :: xs, y :: ys, hx, hy => by
    have hx' := List.pairwise_cons.1 hx
    have hy' := List.pairwise_cons.1 hy
    rcases lt_trichotomy (k x) (k y) with hlt | heq | hgt
    · rw [unionWith_cons_of_lt _ _ hlt]
      by_cases hb : k x = b
      · -- found at `x`; the other list's keys are all above it
        have hnone : (y :: ys).find? (fun z => k z = b) = none :=
          find?_eq_none_of_lt (hb ▸ forall_lt_cons hlt hy'.1)
        simp [hb, hnone]
      · rw [find?_cons_of_ne _ hb, find?_cons_of_ne _ hb, find?_unionWith b hx'.2 hy]
    · rw [unionWith_cons_of_eq _ _ heq]
      by_cases hb : k x = b
      · simp [hb, hk x y heq, ← heq]
      · have hb' : k y ≠ b := heq ▸ hb
        have hb'' : k (c x y) ≠ b := (hk x y heq).symm ▸ hb
        rw [find?_cons_of_ne _ hb'', find?_cons_of_ne _ hb, find?_cons_of_ne _ hb',
          find?_unionWith b hx'.2 hy'.2]
    · rw [unionWith_cons_of_gt _ _ hgt]
      by_cases hb : k y = b
      · have hnone : (x :: xs).find? (fun z => k z = b) = none :=
          find?_eq_none_of_lt (hb ▸ forall_lt_cons hgt hx'.1)
        simp [hb, hnone]
      · rw [find?_cons_of_ne _ hb, find?_cons_of_ne _ hb, find?_unionWith b hx hy'.2]
termination_by xs ys => xs.length + ys.length

end Find

/-- **A strictly sorted list is what it finds at each key.** -/
theorem eq_of_find?_eq :
    ∀ {l₁ l₂ : List α}, l₁.Pairwise (fun a b => k a < k b) → l₂.Pairwise (fun a b => k a < k b) →
      (∀ b, l₁.find? (fun z => k z = b) = l₂.find? (fun z => k z = b)) → l₁ = l₂
  | [], [], _, _, _ => rfl
  | [], y :: ys, _, _, h => by simpa using h (k y)
  | x :: xs, [], _, _, h => by simpa using h (k x)
  | x :: xs, y :: ys, h₁, h₂, h => by
    rw [List.pairwise_cons] at h₁ h₂
    have hfx : (y :: ys).find? (fun z => k z = k x) = some x := by
      rw [← h (k x)]
      simp
    have hfy : (x :: xs).find? (fun z => k z = k y) = some y := by
      rw [h (k y)]
      simp
    -- each head is found in the other list, so neither key is below the other
    have hxy : k x = k y := by
      rcases List.mem_cons.1 (List.mem_of_find?_eq_some hfx) with rfl | hx
      · rfl
      rcases List.mem_cons.1 (List.mem_of_find?_eq_some hfy) with rfl | hy
      · rfl
      exact absurd (h₂.1 x hx) (not_lt.2 (h₁.1 y hy).le)
    obtain rfl : y = x := by simpa [hxy] using hfx
    congr 1
    refine eq_of_find?_eq h₁.2 h₂.2 fun b => ?_
    by_cases hb : k y = b
    · rw [find?_eq_none_of_lt fun x' h' => hb ▸ h₁.1 x' h', find?_eq_none_of_lt fun y' h' => hb ▸ h₂.1 y' h']
    · have hb' := h b
      rwa [find?_cons_of_ne _ hb, find?_cons_of_ne _ hb] at hb'

/-! ## The laws of the combine carry over -/

/-- `unionWith` is commutative when `c` is, on elements of one key. -/
theorem unionWith_comm :
    ∀ {xs ys : List α}, (∀ x ∈ xs, ∀ y ∈ ys, k x = k y → c x y = c y x) →
      unionWith k c xs ys = unionWith k c ys xs
  | [], ys, _ => by simp
  | x :: xs, [], _ => by simp
  | x :: xs, y :: ys, hc => by
    rcases lt_trichotomy (k x) (k y) with hlt | heq | hgt
    · rw [unionWith_cons_of_lt _ _ hlt, unionWith_cons_of_gt _ _ hlt,
        unionWith_comm fun x' hx' y' hy' => hc x' (by simp [hx']) y' hy']
    · rw [unionWith_cons_of_eq _ _ heq, unionWith_cons_of_eq _ _ heq.symm, hc x (by simp) y (by simp) heq,
        unionWith_comm fun x' hx' y' hy' => hc x' (by simp [hx']) y' (by simp [hy'])]
    · rw [unionWith_cons_of_gt _ _ hgt, unionWith_cons_of_lt _ _ hgt,
        unionWith_comm fun x' hx' y' hy' => hc x' hx' y' (by simp [hy'])]
termination_by xs ys => xs.length + ys.length

/-- `unionWith` of a list with itself is the list when `c` is idempotent on its elements. -/
theorem unionWith_self : ∀ {xs : List α}, (∀ x ∈ xs, c x x = x) → unionWith k c xs xs = xs
  | [], _ => unionWith_nil_left []
  | x :: xs, hc => by
    rw [unionWith_cons_of_eq _ _ rfl, hc x (by simp), unionWith_self fun x' hx' => hc x' (by simp [hx'])]

/-- `unionWith` is associative on strictly sorted lists when `c` keeps the key and is associative
on elements of one key. Both sides are strictly sorted and find the same at every key. -/
theorem unionWith_assoc (hk : ∀ x y, k x = k y → k (c x y) = k x) {xs ys zs : List α}
    (hx : xs.Pairwise fun a b => k a < k b) (hy : ys.Pairwise fun a b => k a < k b)
    (hz : zs.Pairwise fun a b => k a < k b)
    (hc : ∀ x ∈ xs, ∀ y ∈ ys, ∀ z ∈ zs, k x = k y → k y = k z → c (c x y) z = c x (c y z)) :
    unionWith k c (unionWith k c xs ys) zs = unionWith k c xs (unionWith k c ys zs) := by
  refine eq_of_find?_eq (pairwise_unionWith hk (pairwise_unionWith hk hx hy) hz)
    (pairwise_unionWith hk hx (pairwise_unionWith hk hy hz)) fun b => ?_
  rw [find?_unionWith hk b (pairwise_unionWith hk hx hy) hz, find?_unionWith hk b hx hy,
    find?_unionWith hk b hx (pairwise_unionWith hk hy hz), find?_unionWith hk b hy hz]
  -- only an element found in all three lists meets the law
  cases hX : xs.find? (fun z => k z = b) with
  | none => cases ys.find? (fun z => k z = b) <;> cases zs.find? (fun z => k z = b) <;> rfl
  | some x =>
    cases hY : ys.find? (fun z => k z = b) with
    | none => cases zs.find? (fun z => k z = b) <;> rfl
    | some y =>
      cases hZ : zs.find? (fun z => k z = b) with
      | none => rfl
      | some z =>
        have hkx : k x = b := by simpa using List.find?_some hX
        have hky : k y = b := by simpa using List.find?_some hY
        have hkz : k z = b := by simpa using List.find?_some hZ
        simp only [Option.merge]
        rw [hc x (List.mem_of_find?_eq_some hX) y (List.mem_of_find?_eq_some hY) z
          (List.mem_of_find?_eq_some hZ) (hkx.trans hky.symm) (hky.trans hkz.symm)]

end WeaveNet.Lib
