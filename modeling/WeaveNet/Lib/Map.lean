import Mathlib

/-!
# Maps as association lists

A Go map is modelled as an association list in its iteration order. Go leaves that order
unspecified, so a model that iterates the list in order describes one legal execution. `set`
writes a key in place when it is present and appends it otherwise, so the keys stay distinct
(`nodup_keys_set`); `lookup` is the list's own `List.lookup`.

The rules here are how a write changes the keys (`mem_keys_set`) and the values
(`lookup_set`), what a run of writes leaves (`mem_keys_setAll`), and what deleting keys
(`lookup_filter`) or rewriting every value (`lookup_map_snd`) does to a lookup.
-/

namespace WeaveNet.Lib

namespace Map

variable {κ ν : Type*}

section Set
variable [DecidableEq κ]

/-- `m[k] = v`: in place when `k` is present, otherwise a new last key. -/
def set : List (κ × ν) → κ → ν → List (κ × ν)
  | [], k, v => [(k, v)]
  | (k', v') :: m, k, v => if k' = k then (k, v) :: m else (k', v') :: set m k v

/-- `m[key(x)] = x` for every `x` in turn. -/
def setAll (key : ν → κ) (m : List (κ × ν)) (xs : List ν) : List (κ × ν) :=
  xs.foldl (fun m x => set m (key x) x) m

@[simp] theorem mem_keys_set {m : List (κ × ν)} {k k' : κ} {v : ν} :
    k' ∈ (set m k v).map Prod.fst ↔ k' = k ∨ k' ∈ m.map Prod.fst := by
  induction m with
  | nil => simp [set]
  | cons e m ih =>
    obtain ⟨k'', v''⟩ := e
    by_cases h : k'' = k
    · subst h; simp [set]
    · simp only [set, h, if_false, List.map_cons, List.mem_cons, ih]
      tauto

theorem nodup_keys_set {m : List (κ × ν)} (hm : (m.map Prod.fst).Nodup) (k : κ) (v : ν) :
    ((set m k v).map Prod.fst).Nodup := by
  induction m with
  | nil => simp [set]
  | cons e m ih =>
    obtain ⟨k'', v''⟩ := e
    rw [List.map_cons, List.nodup_cons] at hm
    by_cases h : k'' = k
    · subst h; simpa [set] using hm
    · simp only [set, h, if_false, List.map_cons, List.nodup_cons, mem_keys_set, false_or]
      exact ⟨hm.1, ih hm.2⟩

/-- A run of writes keeps the keys there were and adds the key of each value written. -/
theorem mem_keys_setAll {key : ν → κ} {k : κ} :
    ∀ {m : List (κ × ν)} {xs : List ν},
      k ∈ (setAll key m xs).map Prod.fst ↔ k ∈ m.map Prod.fst ∨ ∃ x ∈ xs, key x = k
  | m, [] => by simp [setAll]
  | m, x :: xs => by
    rw [setAll, List.foldl_cons, ← setAll, mem_keys_setAll, mem_keys_set]
    simp only [List.mem_cons, exists_eq_or_imp, eq_comm (a := k)]
    tauto

end Set

/-! ## Lookups

A lookup compares keys with `==`, which for a pair of strings is the pair's own `BEq`; the rules
hold for every lawful one. -/

section Lookup
variable [BEq κ] [LawfulBEq κ]

theorem lookup_cons_of_ne {m : List (κ × ν)} {k k' : κ} (v : ν) (h : k' ≠ k) :
    ((k, v) :: m).lookup k' = m.lookup k' := by
  simp [List.lookup_cons, beq_false_of_ne h]

theorem lookup_set [DecidableEq κ] (m : List (κ × ν)) (k k' : κ) (v : ν) :
    (set m k v).lookup k' = if k' = k then some v else m.lookup k' := by
  induction m with
  | nil =>
    by_cases h : k' = k
    · subst h; simp [set]
    · simp [set, lookup_cons_of_ne v h, h]
  | cons e m ih =>
    obtain ⟨k'', v''⟩ := e
    by_cases h : k'' = k
    · subst h
      by_cases h' : k' = k''
      · subst h'; simp [set]
      · simp [set, lookup_cons_of_ne _ h', h']
    · by_cases h' : k' = k''
      · subst h'; simp [set, h]
      · simp only [set, h, if_false, lookup_cons_of_ne _ h', ih]

/-- Keeping the entries whose keys satisfy `P` keeps their values and drops the others. -/
theorem lookup_filter (P : κ → Bool) (m : List (κ × ν)) (k : κ) :
    (m.filter (fun e => P e.1)).lookup k = if P k then m.lookup k else none := by
  induction m with
  | nil => simp
  | cons e m ih =>
    obtain ⟨k', v'⟩ := e
    by_cases hk : k = k'
    · subst hk
      by_cases hp : P k <;> simp [hp, ih]
    · by_cases hp : P k' <;> simp [hp, ih, lookup_cons_of_ne _ hk]

/-- Rewriting every value rewrites what a lookup finds. -/
theorem lookup_map_snd {ν' : Type*} (f : ν → ν') (m : List (κ × ν)) (k : κ) :
    (m.map fun e => (e.1, f e.2)).lookup k = (m.lookup k).map f := by
  induction m with
  | nil => rfl
  | cons e m ih =>
    obtain ⟨k', v'⟩ := e
    by_cases hk : k = k'
    · subst hk
      simp
    · simp only [List.map_cons, lookup_cons_of_ne _ hk, ih]

end Lookup

end Map

end WeaveNet.Lib
