import Mathlib

/-!
# Binary search for the first index of a monotone predicate

The halving loop of a lower-bound binary search over `[0, n)`, written as a structurally
recursive function of an iteration budget (`searchLoop`), and its specification: on a predicate
that is monotone on `[0, n)` the loop returns the least index where the predicate holds, or `n`
when it holds nowhere (`search_spec`, `search_eq_of_spec`). The budget `n` always suffices,
because each iteration shrinks the interval by at least one.
-/

namespace WeaveNet.Lib

/-- The halving loop on `[i, j)` with `fuel` iterations left: test the midpoint, keep the right
half when the predicate fails there and the left half (midpoint included) when it holds. -/
def searchLoop (f : Nat → Bool) : Nat → Nat → Nat → Nat
  | 0, i, _ => i
  | fuel + 1, i, j =>
    if i < j then
      if f ((i + j) / 2) then searchLoop f fuel i ((i + j) / 2)
      else searchLoop f fuel ((i + j) / 2 + 1) j
    else i

/-- The least index of `[0, n)` where `f` holds, or `n`, by the halving loop from `[0, n)`. -/
def search (n : Nat) (f : Nat → Bool) : Nat := searchLoop f n 0 n

/-- `f` is monotone on `[0, n)`: once it holds it keeps holding. -/
def MonotoneBelow (n : Nat) (f : Nat → Bool) : Prop :=
  ∀ a b, a ≤ b → b < n → f a = true → f b = true

/-- What a search result `k` satisfies: it is in `[0, n]`, `f` fails below it, and `f` holds at
it when it is inside. -/
def SearchSpec (n : Nat) (f : Nat → Bool) (k : Nat) : Prop :=
  k ≤ n ∧ (∀ m, m < k → f m = false) ∧ (k < n → f k = true)

section
variable {n : Nat} {f : Nat → Bool}

/-- The loop invariant: `f` fails below `i`, holds at `j` when `j < n`, and the budget covers
the interval. Induction on the budget, one case per branch of the loop. -/
theorem searchLoop_spec (hm : MonotoneBelow n f) :
    ∀ (fuel i j : Nat), i ≤ j → j ≤ n → j - i ≤ fuel →
      (∀ m, m < i → f m = false) → (j < n → f j = true) →
      SearchSpec n f (searchLoop f fuel i j)
  | 0, i, j, hij, hjn, hfuel, hlo, hhi => by
    have hji : j = i := by omega
    subst hji
    exact ⟨hjn, hlo, hhi⟩
  | fuel + 1, i, j, hij, hjn, hfuel, hlo, hhi => by
    simp only [searchLoop]
    split
    · rename_i hlt
      split
      · -- the midpoint satisfies `f`: it becomes the new right end
        rename_i hmid
        exact searchLoop_spec hm fuel i _ (by omega) (by omega) (by omega) hlo (fun _ => hmid)
      · -- `f` fails at the midpoint, hence everywhere before it
        rename_i hmid
        refine searchLoop_spec hm fuel _ j (by omega) hjn (by omega) ?_ hhi
        intro m hm'
        rcases Nat.lt_or_ge m i with hmi | hmi
        · exact hlo m hmi
        · cases hfm : f m
          · rfl
          · exact absurd (hm m _ (by omega) (by omega) hfm) hmid
    · have hji : j = i := by omega
      subst hji
      exact ⟨hjn, hlo, hhi⟩

/-- **The search finds the least index where a monotone predicate holds.** -/
theorem search_spec (hm : MonotoneBelow n f) : SearchSpec n f (search n f) :=
  searchLoop_spec hm n 0 n (Nat.zero_le _) (Nat.le_refl n) (by omega) (fun _ h => absurd h (by omega))
    (fun h => absurd h (Nat.lt_irrefl n))

/-- A search specification has at most one solution. -/
theorem SearchSpec.unique {k k' : Nat} (h : SearchSpec n f k) (h' : SearchSpec n f k') :
    k = k' := by
  obtain ⟨hk, hlo, hat⟩ := h
  obtain ⟨hk', hlo', hat'⟩ := h'
  rcases Nat.lt_trichotomy k k' with hlt | heq | hgt
  · have := hlo' k hlt
    rw [hat (by omega)] at this
    cases this
  · exact heq
  · have := hlo k' hgt
    rw [hat' (by omega)] at this
    cases this

/-- The search returns any index that meets its specification. -/
theorem search_eq_of_spec (hm : MonotoneBelow n f) {k : Nat} (hk : SearchSpec n f k) :
    search n f = k :=
  (search_spec hm).unique hk

end

end WeaveNet.Lib
