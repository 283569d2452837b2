import WeaveNet.Ring.Basic

/-!
# What `checkInvariants` checks, and who owns an address

`checkInvariants` runs three checks on the entries: `sort.IsSorted` with a separate loop for
repeated tokens, the first and last tokens against `[Start, End)`, and a loop over the free counts.
`checkInvariants_eq_ok` states what they accept as one proposition, `Ring.Valid`: the tokens
strictly increase, all lie in `[Start, End)`, and each free count is at most the distance to the
next token, the first one after the last.

On a valid ring the binary search of `Owner` finds the number of tokens at or below an address
(`search_countLE`), so the owner is the entry at that count less one, the last entry when no token
is at or below (`owner_eq`). `ownerIndex` is that entry's index.
-/

namespace WeaveNet.Ring

open Lib

/-! ## Indexing modulo the length -/

namespace Entries

variable {P : Type} [Inhabited P] {es : List (Entry P)}

theorem entry_of_lt {i : Nat} (h : i < es.length) : entry es i = es[i] := by
  have hmod : ((i : Int) % (es.length : Int)).toNat = i := by
    rw [Int.emod_eq_of_lt (by omega) (by omega)]
    rfl
  rw [entry, hmod]
  exact (List.getElem_eq_getD _).symm

/-- The entry after the last is the first. -/
theorem entry_length (h : 0 < es.length) : entry es es.length = es[0] := by
  have hmod : ((es.length : Int) % (es.length : Int)).toNat = 0 := by simp
  rw [entry, hmod]
  exact (List.getElem_eq_getD _).symm

/-- The entry before the first is the last. -/
theorem entry_neg_one (h : 0 < es.length) : entry es (-1) = es[es.length - 1] := by
  have hmod : ((-1 : Int) % (es.length : Int)).toNat = es.length - 1 := by
    rw [Int.emod_eq_add_self_emod, Int.emod_eq_of_lt (by omega) (by omega)]
    omega
  rw [entry, hmod]
  exact (List.getElem_eq_getD _).symm

/-- The entry one before the `k`-th, round the ring. -/
theorem entry_sub_one {k : Nat} (h : 0 < es.length) (hk : k ≤ es.length) :
    entry es ((k : Int) - 1) = if k = 0 then es[es.length - 1] else es[k - 1] := by
  split
  · next hk0 =>
    subst hk0
    exact entry_neg_one h
  · next hk0 =>
    have hcast : (k : Int) - 1 = ((k - 1 : Nat) : Int) := by omega
    rw [hcast, entry_of_lt (by omega)]

end Entries

/-! ## The checks as a proposition -/

section Order

variable {P : Type}

/-- Sorted with no repeated token is strictly increasing. -/
theorem isSorted_hasRepeat_iff : ∀ {es : List (Entry P)},
    isSorted es = true ∧ hasRepeat es = false ↔ es.Pairwise (fun a b => a.Token < b.Token)
  | [] => by simp [isSorted, hasRepeat]
  | [a] => by simp [isSorted, hasRepeat]
  | a :: b :: rest => by
    have ih : isSorted (b :: rest) = true ∧ hasRepeat (b :: rest) = false ↔
        (b :: rest).Pairwise (fun a b => a.Token < b.Token) := isSorted_hasRepeat_iff
    simp only [isSorted, hasRepeat, Bool.and_eq_true, Bool.not_eq_true', decide_eq_false_iff_not,
      Bool.or_eq_false_iff]
    constructor
    · rintro ⟨⟨hle, hs⟩, hne, hr⟩
      have hbr := ih.1 ⟨hs, hr⟩
      have hab : a.Token < b.Token := lt_of_le_of_ne (not_lt.1 hle) hne
      -- `a` is below `b`, and `b` below the rest
      refine List.Pairwise.cons (fun x hx => ?_) hbr
      rcases List.mem_cons.1 hx with rfl | hx
      · exact hab
      · exact lt_trans hab (List.rel_of_pairwise_cons hbr hx)
    · intro h
      have hab : a.Token < b.Token := List.rel_of_pairwise_cons h (List.mem_cons_self ..)
      have hbr := ih.2 h.of_cons
      exact ⟨⟨not_lt.2 hab.le, hbr.1⟩, ne_of_lt hab, hbr.2⟩

/-- In a strictly increasing list every token lies between the first and the last. -/
theorem inRange_iff {es : List (Entry P)} (lo hi : Address)
    (hs : es.Pairwise (fun a b => a.Token < b.Token)) (h : 0 < es.length) :
    (lo ≤ es[0].Token ∧ es[es.length - 1].Token < hi) ↔ ∀ e ∈ es, lo ≤ e.Token ∧ e.Token < hi := by
  constructor
  · rintro ⟨hlo, hhi⟩ e he
    obtain ⟨i, hi, rfl⟩ := List.getElem_of_mem he
    have hle : ∀ {j k : Nat} (hj : j < es.length) (hk : k < es.length), j ≤ k →
        es[j].Token ≤ es[k].Token := by
      intro j k hj hk hjk
      rcases Nat.lt_or_eq_of_le hjk with hlt | rfl
      · exact (List.pairwise_iff_getElem.1 hs j k hj hk hlt).le
      · exact le_refl _
    exact ⟨le_trans hlo (hle h hi (Nat.zero_le i)),
      lt_of_le_of_lt (hle hi (by omega) (by omega)) hhi⟩
  · intro hall
    exact ⟨(hall _ (List.getElem_mem _)).1, (hall _ (List.getElem_mem _)).2⟩

end Order

variable {P : Type} [Inhabited P]

/-- What `checkInvariants` accepts: strictly increasing tokens in `[Start, End)`, and each free
count at most the distance to the next token. -/
structure Valid (r : Ring P) : Prop where
  sorted : r.Entries.Pairwise (fun a b => a.Token < b.Token)
  start_le : ∀ e ∈ r.Entries, r.Start ≤ e.Token
  lt_end : ∀ e ∈ r.Entries, e.Token < r.End
  free_le : ∀ (i : Nat) (h : i < r.Entries.length),
    r.Entries[i].Free ≤ r.distance r.Entries[i].Token (Entries.entry r.Entries (i + 1)).Token

/-- The free-space loop accepts exactly when each free count is at most the distance to the
entry after it. -/
theorem checkFree_eq_ok (r : Ring P) (es : List (Entry P)) : ∀ (rest : List (Entry P)) (i : Nat),
    r.checkFree es rest i = .ok () ↔ ∀ (j : Nat) (h : j < rest.length),
      rest[j].Free ≤ r.distance rest[j].Token (Entries.entry es ((i + j + 1 : Nat) : Int)).Token
  | [], _ => by simp [checkFree]
  | e :: rest, i => by
    have ih := checkFree_eq_ok r es rest (i + 1)
    simp only [checkFree]
    split
    · next hgt =>
      simp only [reduceCtorEq, false_iff, not_forall]
      exact ⟨0, by simp, by simpa using not_le.2 hgt⟩
    · next hle =>
      rw [ih]
      constructor
      · intro hrest j hj
        cases j with
        | zero => simpa using not_lt.1 hle
        | succ j =>
          have := hrest j (by simpa using hj)
          rwa [show i + 1 + j + 1 = i + (j + 1) + 1 by omega] at this
      · intro hall j hj
        have := hall (j + 1) (by simpa using hj)
        rwa [show i + (j + 1) + 1 = i + 1 + j + 1 by omega] at this

/-- **What `checkInvariants` accepts.** -/
theorem checkInvariants_eq_ok {r : Ring P} : r.checkInvariants = .ok () ↔ r.Valid := by
  unfold checkInvariants checkEntries
  by_cases hs : isSorted r.Entries = true ∧ hasRepeat r.Entries = false
  · have hsorted := isSorted_hasRepeat_iff.1 hs
    rw [if_neg (by simp [hs.1]), if_neg (by simp [hs.2])]
    by_cases he : r.Entries = []
    · rw [if_pos he]
      simp only [true_iff]
      exact ⟨hsorted, by simp [he], by simp [he], by simp [he]⟩
    · have hn : 0 < r.Entries.length := List.length_pos_iff.2 he
      have hrange := inRange_iff r.Start r.End hsorted hn
      rw [if_neg he, Entries.entry_neg_one hn,
        show Entries.entry r.Entries 0 = r.Entries[0] from Entries.entry_of_lt hn]
      by_cases hlo : r.Entries[0].Token < r.Start
      · rw [if_pos hlo]
        simp only [reduceCtorEq, false_iff]
        exact fun hv => absurd (hv.start_le _ (List.getElem_mem hn)) (not_le.2 hlo)
      · rw [if_neg hlo]
        by_cases hhi : r.Entries[r.Entries.length - 1].Token ≥ r.End
        · rw [if_pos hhi]
          simp only [reduceCtorEq, false_iff]
          exact fun hv => absurd (hv.lt_end _ (List.getElem_mem _)) (not_lt.2 hhi)
        · rw [if_neg hhi, checkFree_eq_ok]
          have hin := hrange.1 ⟨not_lt.1 hlo, not_le.1 hhi⟩
          constructor
          · intro hfree
            exact ⟨hsorted, fun e he => (hin e he).1, fun e he => (hin e he).2,
              fun i hi => by simpa using hfree i hi⟩
          · intro hv j hj
            simpa using hv.free_le j hj
  · -- a failed sort or repeat check rejects, and `Valid` requires both
    have hnot : ¬r.Valid := fun hv => hs (isSorted_hasRepeat_iff.2 hv.sorted)
    simp only [hnot, iff_false]
    by_cases h1 : isSorted r.Entries = true
    · have h2 : hasRepeat r.Entries = true := by
        cases h : hasRepeat r.Entries
        · exact absurd ⟨h1, h⟩ hs
        · rfl
      rw [if_neg (by simp [h1]), if_pos h2]
      exact nofun
    · rw [if_pos (by simpa using h1)]
      exact nofun

/-! ## The owner of an address -/

/-- The number of tokens at or below `a`. -/
def countLE (es : List (Entry P)) (a : Address) : Nat := es.countP fun e => e.Token ≤ a

/-- The index of the entry that owns `a`: the last token at or below it, or the last entry when
no token is. -/
def ownerIndex (es : List (Entry P)) (a : Address) : Nat :=
  if countLE es a = 0 then es.length - 1 else countLE es a - 1

section Owner

variable {es : List (Entry P)} (hs : es.Pairwise (fun a b => a.Token < b.Token))
include hs

/-- In a strictly increasing list the tokens at or below `a` come first, so their number is where
a search for the first token above `a` stops. -/
theorem countLE_spec (a : Address) :
    SearchSpec es.length (fun j => decide ((es.getD j default).Token > a)) (countLE es a) := by
  induction es with
  | nil => exact ⟨Nat.le_refl 0, nofun, nofun⟩
  | cons x xs ih =>
    obtain ⟨hx, hxs⟩ := List.pairwise_cons.1 hs
    obtain ⟨hle, hbelow, hat⟩ := ih hxs
    by_cases hxa : x.Token ≤ a
    · -- `x` is counted, and the search over the rest moves one place up
      have hc : countLE (x :: xs) a = countLE xs a + 1 := by
        simp [countLE, hxa]
      rw [hc]
      refine ⟨by simpa using hle, fun m hm => ?_, fun hk => by simpa using hat (by simpa using hk)⟩
      cases m with
      | zero => simpa using hxa
      | succ m => simpa using hbelow m (by omega)
    · -- every token of the list is above `a`
      have hzero : countLE (x :: xs) a = 0 := by
        rw [countLE, List.countP_eq_zero]
        intro y hy
        rcases List.mem_cons.1 hy with rfl | hy
        · simpa using hxa
        · simpa using lt_trans (not_le.1 hxa) (hx y hy)
      rw [hzero]
      exact ⟨Nat.zero_le _, nofun, fun _ => by simpa using not_le.1 hxa⟩

theorem search_countLE (a : Address) :
    search es.length (fun j => decide ((es.getD j default).Token > a)) = countLE es a := by
  refine search_eq_of_spec (fun i j hij hj hi => ?_) (countLE_spec hs a)
  rw [List.getD_eq_getElem?_getD, List.getElem?_eq_getElem (by omega)] at hi
  rw [List.getD_eq_getElem?_getD, List.getElem?_eq_getElem hj]
  rcases Nat.lt_or_eq_of_le hij with hlt | rfl
  · simpa using lt_trans (by simpa using hi) (List.pairwise_iff_getElem.1 hs i j _ hj hlt)
  · exact hi

theorem countLE_eq_iff {a : Address} {k : Nat} :
    countLE es a = k ↔ k ≤ es.length ∧ (∀ (j : Nat), j < k → ∀ (h : j < es.length), es[j].Token ≤ a) ∧
      ∀ h : k < es.length, a < es[k].Token := by
  have hspec := countLE_spec hs a
  constructor
  · rintro rfl
    refine ⟨hspec.1, fun j hj h' => ?_, fun h => ?_⟩
    · simpa [List.getD_eq_getElem?_getD, List.getElem?_eq_getElem h'] using hspec.2.1 j hj
    · simpa [List.getD_eq_getElem?_getD, List.getElem?_eq_getElem h] using hspec.2.2 h
  · rintro ⟨hk, hbelow, hat⟩
    refine hspec.unique ⟨hk, fun j hj => ?_, fun h => ?_⟩
    · simpa [List.getD_eq_getElem?_getD, List.getElem?_eq_getElem (Nat.lt_of_lt_of_le hj hk)]
        using hbelow j hj (by omega)
    · simpa [List.getD_eq_getElem?_getD, List.getElem?_eq_getElem h] using hat h

theorem countLE_le (a : Address) : countLE es a ≤ es.length := (countLE_spec hs a).1

theorem ownerIndex_lt (hn : 0 < es.length) (a : Address) : ownerIndex es a < es.length := by
  have := countLE_le hs a
  unfold ownerIndex
  split <;> omega

/-- An entry before the last owns exactly the addresses from its token up to the next one. -/
theorem ownerIndex_eq_iff_of_lt {i : Nat} (hi : i + 1 < es.length) (a : Address) :
    ownerIndex es a = i ↔ es[i].Token ≤ a ∧ a < es[i + 1].Token := by
  have hiff := countLE_eq_iff hs (a := a) (k := i + 1)
  unfold ownerIndex
  split
  · next h0 =>
    -- the last entry owns it, so no token before the last is at or below `a`
    have hfirst := ((countLE_eq_iff hs).1 h0).2.2 (by omega)
    have hmono := List.pairwise_iff_getElem.1 hs 0 i (by omega) (by omega)
    constructor
    · omega
    · rintro ⟨hia, -⟩
      rcases Nat.eq_zero_or_pos i with rfl | hpos
      · exact absurd hia (not_le.2 hfirst)
      · exact absurd (lt_of_lt_of_le (hmono hpos) hia) (not_lt.2 hfirst.le)
  · next h0 =>
    rw [show (countLE es a - 1 = i) ↔ countLE es a = i + 1 by omega, hiff]
    constructor
    · rintro ⟨-, hbelow, hat⟩
      exact ⟨hbelow i (by omega) (by omega), hat hi⟩
    · rintro ⟨hia, hanext⟩
      refine ⟨by omega, fun j hj h' => ?_, fun _ => hanext⟩
      rcases Nat.lt_or_eq_of_le (Nat.le_of_lt_succ hj) with hlt | rfl
      · exact le_trans (List.pairwise_iff_getElem.1 hs j i h' (by omega) hlt).le hia
      · exact hia

/-- The last entry owns the addresses from its token on, and those below the first token. -/
theorem ownerIndex_eq_last_iff (hn : 0 < es.length) (a : Address) :
    ownerIndex es a = es.length - 1 ↔ es[es.length - 1].Token ≤ a ∨ a < es[0].Token := by
  have hle := countLE_le hs a
  unfold ownerIndex
  split
  · next h0 =>
    simp only [true_iff]
    exact Or.inr (((countLE_eq_iff hs).1 h0).2.2 hn)
  · next h0 =>
    rw [show (countLE es a - 1 = es.length - 1) ↔ countLE es a = es.length by omega,
      countLE_eq_iff hs]
    constructor
    · rintro ⟨-, hbelow, -⟩
      exact Or.inl (hbelow _ (by omega) (by omega))
    · rintro (hlast | hfirst)
      · refine ⟨le_refl _, fun j hj h' => ?_, fun h => absurd h (lt_irrefl _)⟩
        rcases Nat.lt_or_eq_of_le (Nat.le_sub_one_of_lt hj) with hlt | heq
        · exact le_trans (List.pairwise_iff_getElem.1 hs j _ h' (by omega) hlt).le hlast
        · simpa [heq] using hlast
      · exact absurd ((countLE_eq_iff hs).2 ⟨Nat.zero_le _, nofun, fun _ => hfirst⟩) h0

end Owner

/-- **The owner of an address** on a valid ring with entries: the entry at `ownerIndex`. -/
theorem owner_eq {r : Ring P} (hv : r.Valid) (hn : 0 < r.Entries.length) (a : Address) :
    r.owner a = (r.Entries.get ⟨ownerIndex r.Entries a, ownerIndex_lt hv.sorted hn a⟩).Peer := by
  have hle := countLE_le hv.sorted a
  have he : r.Entries ≠ [] := List.length_pos_iff.1 hn
  unfold owner
  rw [if_neg he]
  simp only [search_countLE hv.sorted, Entries.entry_sub_one hn hle, ownerIndex]
  split <;> rfl

end WeaveNet.Ring
