import Mathlib
import WeaveNet.Lib.Search

/-!
# Searching a sorted list

The binary search of `Lib.Search` run over the indices of a list, with a predicate of the element
at each index. Along a list on which the predicate, once it holds, keeps holding, the search
returns the length of the prefix where it fails (`search_eq_length_takeWhile`), and `takeWhile`
and `dropWhile` of that prefix are filters. For a list sorted by a key, the search for the first
element not below `x` cuts it into the elements below `x` and the others
(`take_search_eq_filter`, `drop_search_eq_filter`); two searches, for the
first element not below `x` and then for the first above it, cut out exactly the elements of key
`x` (`drop_take_search_eq_filter`), and none has key `x` when the first search lands on an
element of another key (`filter_eq_nil_of_search`).
-/

namespace WeaveNet.Lib

variable {α : Type*}

section Monotone

variable {p : α → Bool}

/-- The prefix where `p` holds is `l` up to its length. -/
theorem take_length_takeWhile (p : α → Bool) (l : List α) :
    l.take (l.takeWhile p).length = l.takeWhile p := by
  have h : (l.takeWhile p ++ l.dropWhile p).take (l.takeWhile p).length = l.takeWhile p :=
    List.take_left
  rwa [List.takeWhile_append_dropWhile] at h

/-- What follows the prefix where `p` holds is what `dropWhile` leaves. -/
theorem drop_length_takeWhile (p : α → Bool) (l : List α) :
    l.drop (l.takeWhile p).length = l.dropWhile p := by
  have h : (l.takeWhile p ++ l.dropWhile p).drop (l.takeWhile p).length = l.dropWhile p :=
    List.drop_left
  rwa [List.takeWhile_append_dropWhile] at h

/-- Reading past `i` elements of `l` is reading what `drop i` leaves. -/
theorem getD_drop (l : List α) (i j : Nat) (d : α) : (l.drop i).getD j d = l.getD (i + j) d := by
  simp only [List.getD_eq_getElem?_getD, List.getElem?_drop]

/-- Along a list on which `p`, once it holds, keeps holding, the elements where it fails come
first: `dropWhile` and `takeWhile` of its failure are filters. Induction on the list. -/
theorem dropWhile_not_eq_filter :
    ∀ {l : List α}, l.Pairwise (fun a b => p a = true → p b = true) →
      l.dropWhile (fun a => !p a) = l.filter p
  | [], _ => rfl
  | a :: l, hl => by
    obtain ⟨ha, hl⟩ := List.pairwise_cons.1 hl
    cases hpa : p a with
    | true =>
      -- from `a` on, `p` holds throughout
      have hall : ∀ b ∈ l, p b = true := fun b hb => ha b hb hpa
      rw [List.dropWhile_cons_of_neg (by simp [hpa]), List.filter_cons_of_pos hpa,
        List.filter_eq_self.2 hall]
    | false =>
      rw [List.dropWhile_cons_of_pos (by simp [hpa]), List.filter_cons_of_neg (by simp [hpa])]
      exact dropWhile_not_eq_filter hl

theorem takeWhile_not_eq_filter :
    ∀ {l : List α}, l.Pairwise (fun a b => p a = true → p b = true) →
      l.takeWhile (fun a => !p a) = l.filter fun a => !p a
  | [], _ => rfl
  | a :: l, hl => by
    obtain ⟨ha, hl⟩ := List.pairwise_cons.1 hl
    cases hpa : p a with
    | true =>
      have hall : ∀ b ∈ l, p b = true := fun b hb => ha b hb hpa
      rw [List.takeWhile_cons_of_neg (by simp [hpa]), List.filter_cons_of_neg (by simp [hpa]),
        List.filter_eq_nil_iff.2 fun b hb => by simp [hall b hb]]
    | false =>
      rw [List.takeWhile_cons_of_pos (by simp [hpa]), List.filter_cons_of_pos (by simp [hpa]),
        takeWhile_not_eq_filter hl]

/-- **Search along a list.** On a list along which `p`, once it holds, keeps holding, the search
for the first index where `p` holds returns the length of the prefix where it fails. -/
theorem search_eq_length_takeWhile {l : List α} (d : α)
    (hl : l.Pairwise fun a b => p a = true → p b = true) :
    search l.length (fun i => p (l.getD i d)) = (l.takeWhile fun a => !p a).length := by
  have hmono : MonotoneBelow l.length fun i => p (l.getD i d) := by
    intro a b hab hb ha
    simp only at ha ⊢
    rcases Nat.lt_or_eq_of_le hab with hlt | rfl
    · rw [List.getD_eq_getElem _ _ (by omega)] at ha
      rw [List.getD_eq_getElem _ _ hb]
      exact List.pairwise_iff_getElem.1 hl a b (by omega) hb hlt ha
    · exact ha
  have hle := (List.takeWhile_sublist (fun a => !p a) (l := l)).length_le
  refine search_eq_of_spec hmono ⟨hle, fun m hm => ?_, fun hk => ?_⟩
  · -- below the prefix's length, `p` fails
    have hget : l[m]? = (l.takeWhile fun a => !p a)[m]? := by
      rw [← take_length_takeWhile, List.getElem?_take_of_lt hm]
    rw [List.getElem?_eq_getElem hm] at hget
    simp only [List.getD_eq_getElem?_getD, hget, Option.getD_some]
    simpa using List.mem_takeWhile_imp (List.getElem_mem hm)
  · -- at the prefix's length stands the first element of what `dropWhile` leaves
    have hne : l.dropWhile (fun a => !p a) ≠ [] := by
      rw [← drop_length_takeWhile]
      simpa using hk
    have hget : l[(l.takeWhile fun a => !p a).length]? = some ((l.dropWhile fun a => !p a).head hne) := by
      rw [List.head_eq_getElem, ← List.getElem?_eq_getElem]
      simp only [← drop_length_takeWhile, List.getElem?_drop, Nat.add_zero]
    simp only [List.getD_eq_getElem?_getD, hget, Option.getD_some]
    simpa using List.head_dropWhile_not (fun a => !p a) hne

end Monotone

section Keyed

variable {β : Type*} [LinearOrder β] {k : α → β} {l : List α}

/-- In a list sorted by `k`, what follows the first element whose key is not below `x`, found by
`search`, is the elements whose key is not below `x`. -/
theorem drop_search_eq_filter (d : α) (hs : l.Pairwise fun a b => k a ≤ k b) (x : β) :
    l.drop (search l.length fun j => decide (x ≤ k (l.getD j d))) =
      l.filter fun a => decide (x ≤ k a) := by
  have hmono : l.Pairwise fun a b => decide (x ≤ k a) = true → decide (x ≤ k b) = true :=
    hs.imp fun hab hxa => by simp at hxa ⊢; exact le_trans hxa hab
  rw [search_eq_length_takeWhile d hmono, drop_length_takeWhile, dropWhile_not_eq_filter hmono]

/-- In a list sorted by `k`, what comes before the first element whose key is not below `x`,
found by `search`, is the elements whose key is below `x`. -/
theorem take_search_eq_filter (d : α) (hs : l.Pairwise fun a b => k a ≤ k b) (x : β) :
    l.take (search l.length fun j => decide (x ≤ k (l.getD j d))) =
      l.filter fun a => decide (k a < x) := by
  have hmono : l.Pairwise fun a b => decide (x ≤ k a) = true → decide (x ≤ k b) = true :=
    hs.imp fun hab hxa => by simp at hxa ⊢; exact le_trans hxa hab
  rw [search_eq_length_takeWhile d hmono, take_length_takeWhile, takeWhile_not_eq_filter hmono]
  exact List.filter_congr fun a _ => by rw [Bool.eq_iff_iff]; simp

/-- **The block of a key.** In a list sorted by `k`, the elements from the first whose key is not
below `x` up to the first whose key is above it, each found by `search`, are those of key `x`. -/
theorem drop_take_search_eq_filter (d : α) (hs : l.Pairwise fun a b => k a ≤ k b) (x : β) :
    (l.drop (search l.length fun j => decide (x ≤ k (l.getD j d)))).take
        (search (l.length - search l.length fun j => decide (x ≤ k (l.getD j d)))
          fun j => decide (x < k (l.getD ((search l.length fun j => decide (x ≤ k (l.getD j d))) + j) d))) =
      l.filter fun a => k a = x := by
  -- the second search runs along what the first left: the elements whose keys are at least `x`
  have hdrop := drop_search_eq_filter d hs x
  have hlen : l.length - (search l.length fun j => decide (x ≤ k (l.getD j d))) =
      (l.filter fun a => decide (x ≤ k a)).length := by
    rw [← hdrop, List.length_drop]
  have hmono : (l.filter fun a => decide (x ≤ k a)).Pairwise
      fun a b => decide (x < k a) = true → decide (x < k b) = true :=
    (hs.filter _).imp fun hab hxa => by simp at hxa ⊢; exact lt_of_lt_of_le hxa hab
  simp only [← getD_drop, hdrop, hlen]
  rw [search_eq_length_takeWhile d hmono, take_length_takeWhile, takeWhile_not_eq_filter hmono,
    List.filter_filter]
  refine List.filter_congr fun a _ => ?_
  -- not above `x` and not below it is `x`
  rw [Bool.eq_iff_iff]
  simp only [Bool.and_eq_true, Bool.not_eq_true', decide_eq_false_iff_not, not_lt, decide_eq_true_eq]
  exact ⟨fun h => le_antisymm h.1 h.2, fun h => ⟨h.le, h.ge⟩⟩

/-- In a list sorted by `k`, when the first element whose key is not below `x` is missing or of
another key, no element has key `x`. -/
theorem filter_eq_nil_of_search (d : α) (hs : l.Pairwise fun a b => k a ≤ k b) (x : β)
    (h : ∀ b, l[search l.length fun j => decide (x ≤ k (l.getD j d))]? = some b → k b ≠ x) :
    l.filter (fun a => k a = x) = [] := by
  refine List.filter_eq_nil_iff.2 fun a ha hax => ?_
  simp only [decide_eq_true_eq] at hax
  -- `a` lies after the first element not below `x`, which sorts at most as high as `a`
  have hmem : a ∈ l.drop (search l.length fun j => decide (x ≤ k (l.getD j d))) := by
    rw [drop_search_eq_filter d hs x]
    exact List.mem_filter.2 ⟨ha, by simp [hax]⟩
  obtain ⟨b, rest, hcons⟩ := List.exists_cons_of_ne_nil (List.ne_nil_of_mem hmem)
  have hb : l[search l.length fun j => decide (x ≤ k (l.getD j d))]? = some b := by
    rw [← List.head?_drop, hcons, List.head?_cons]
  have hxb : x ≤ k b := by
    have hbmem : b ∈ l.filter fun a => decide (x ≤ k a) := by
      rw [← drop_search_eq_filter d hs x, hcons]
      exact List.mem_cons_self
    simpa using (List.mem_filter.1 hbmem).2
  have hba : k b ≤ k a := by
    rw [hcons] at hmem
    rcases List.mem_cons.1 hmem with rfl | har
    · exact le_rfl
    · have hs' : (b :: rest).Pairwise fun a b => k a ≤ k b := by
        rw [← hcons]
        exact hs.sublist (List.drop_sublist _ _)
      exact List.rel_of_pairwise_cons hs' har
  exact h b hb (le_antisymm (hax ▸ hba) hxb)

end Keyed

end WeaveNet.Lib
