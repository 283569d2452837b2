import Mathlib

/-!
# Sliding replay windows

A receiver that must drop replayed messages, but cannot keep every sequence number it has seen,
cuts sequence numbers into windows of `2 ^ k` (the window of `s` is `s >>> k`, its offset
`s % 2 ^ k`) and keeps, for each class of messages, the highest window it has accepted and the
offsets it has accepted in that window and in the one below. This module says what such a
receiver accepts, in terms of the keys `(class, sequence number)` it accepted before: a key that
is new and whose window is at most one below the highest window of its class (`Admits`).

What is refused stays refused as more is accepted (`Admits.of_subset`), and keys of a class that
arrive in increasing order are all admitted (`admits_of_lt`). A set of offsets holds those
accepted in one window (`OffsetsOf`), and the two sets with the current window track the accepted
keys (`WindowTracks`). Each way the receiver moves its window keeps that
(`WindowTracks.insertUsed`, `insertPrevious`, `slide`, `reset`, `cons_of_ne`), and under it the
offset's membership in the set of its window decides `Admits` (`OffsetsOf.mem_iff`,
`WindowTracks.admits_iff`, `not_admits_of_lt`, `admits_of_gt`).
-/

namespace WeaveNet.Lib

/-! ## Windows and offsets -/

section Offsets

variable {α : Type} {k : Nat} {a b : α} {s w : Nat} {acc : List (α × Nat)} {set : List Nat}

theorem shiftRight_add_mod (s : Nat) : (s >>> k) * 2 ^ k + s % 2 ^ k = s := by
  rw [Nat.shiftRight_eq_div_pow, Nat.div_add_mod']

/-- A sequence number is its window and its offset. -/
theorem mul_add_eq_iff {w o : Nat} (ho : o < 2 ^ k) :
    w * 2 ^ k + o = s ↔ s >>> k = w ∧ s % 2 ^ k = o := by
  constructor
  · rintro rfl
    refine ⟨?_, by rw [Nat.add_comm, Nat.add_mul_mod_self_right, Nat.mod_eq_of_lt ho]⟩
    rw [Nat.shiftRight_eq_div_pow, Nat.add_comm, Nat.add_mul_div_right _ _ (Nat.two_pow_pos k),
      Nat.div_eq_of_lt ho, Nat.zero_add]
  · rintro ⟨rfl, rfl⟩
    exact shiftRight_add_mod s

/-- `set` holds the offsets of the keys of class `a` accepted in window `w`. -/
def OffsetsOf (k : Nat) (a : α) (acc : List (α × Nat)) (w : Nat) (set : List Nat) : Prop :=
  ∀ o, o ∈ set ↔ o < 2 ^ k ∧ (a, w * 2 ^ k + o) ∈ acc

/-- The offset of a key of window `w` is in the set exactly when the key was accepted. -/
theorem OffsetsOf.mem_iff (h : OffsetsOf k a acc w set) (hs : s >>> k = w) :
    s % 2 ^ k ∈ set ↔ (a, s) ∈ acc := by
  rw [h, ← hs, shiftRight_add_mod]
  exact and_iff_right (Nat.mod_lt _ (Nat.two_pow_pos k))

/-- Accepting a key of window `w` adds its offset. -/
theorem OffsetsOf.insert (h : OffsetsOf k a acc w set) (hs : s >>> k = w) :
    OffsetsOf k a ((a, s) :: acc) w (set.insert (s % 2 ^ k)) := by
  intro o
  rw [List.mem_insert_iff, h, List.mem_cons, Prod.mk.injEq]
  constructor
  · rintro (rfl | ⟨ho, hm⟩)
    · exact ⟨Nat.mod_lt _ (Nat.two_pow_pos k), .inl ⟨rfl, (mul_add_eq_iff
        (Nat.mod_lt _ (Nat.two_pow_pos k))).2 ⟨hs, rfl⟩⟩⟩
    · exact ⟨ho, .inr hm⟩
  · rintro ⟨ho, ⟨-, he⟩ | hm⟩
    · exact .inl ((mul_add_eq_iff ho).1 he).2.symm
    · exact .inr ⟨ho, hm⟩

/-- Accepting a key of another window leaves the set as it is. -/
theorem OffsetsOf.cons_of_ne_window (h : OffsetsOf k a acc w set) (hs : s >>> k ≠ w) :
    OffsetsOf k a ((b, s) :: acc) w set := by
  intro o
  rw [h, List.mem_cons, Prod.mk.injEq]
  refine and_congr_right fun ho => (or_iff_right ?_).symm
  rintro ⟨-, he⟩
  exact hs ((mul_add_eq_iff ho).1 he).1

/-- Accepting a key of another class leaves the set as it is. -/
theorem OffsetsOf.cons_of_ne (h : OffsetsOf k a acc w set) (hb : b ≠ a) :
    OffsetsOf k a ((b, s) :: acc) w set := by
  intro o
  rw [h, List.mem_cons, Prod.mk.injEq]
  exact and_congr_right fun _ => (or_iff_right fun he => hb he.1.symm).symm

/-- A window above every accepted key of the class has no offset. -/
theorem offsetsOf_nil (h : ∀ t, (a, t) ∈ acc → t >>> k < w) : OffsetsOf k a acc w [] := by
  intro o
  simp only [List.not_mem_nil, false_iff, not_and]
  intro ho hm
  have := h _ hm
  rw [((mul_add_eq_iff ho).1 rfl).1] at this
  exact lt_irrefl w this

end Offsets

/-! ## What the receiver admits -/

section Window

variable {α : Type} [DecidableEq α] (k : Nat)

/-- The highest window among the accepted keys of class `a`, `0` if there is none. -/
def maxWindow (a : α) : List (α × Nat) → Nat
  | [] => 0
  | (b, s) :: acc => if b = a then max (s >>> k) (maxWindow a acc) else maxWindow a acc

/-- The key `(a, s)` may be accepted after `acc`: it was not accepted before, and its window is at
most one below the highest window accepted of its class. -/
def Admits (acc : List (α × Nat)) (key : α × Nat) : Prop :=
  key ∉ acc ∧ maxWindow k key.1 acc ≤ key.2 >>> k + 1

instance (acc : List (α × Nat)) (key : α × Nat) : Decidable (Admits k acc key) :=
  inferInstanceAs (Decidable (_ ∧ _))

variable {k} {a b : α} {s : Nat} {acc acc' : List (α × Nat)}

theorem maxWindow_le_iff {n : Nat} :
    maxWindow k a acc ≤ n ↔ ∀ t, (a, t) ∈ acc → t >>> k ≤ n := by
  induction acc with
  | nil => simp [maxWindow]
  | cons p acc ih =>
    obtain ⟨b, t⟩ := p
    by_cases hb : b = a
    · subst hb
      simp [maxWindow, ih]
    · simp [maxWindow, hb, ih, Ne.symm hb]

theorem le_maxWindow (h : (a, s) ∈ acc) : s >>> k ≤ maxWindow k a acc :=
  maxWindow_le_iff.1 le_rfl s h

theorem maxWindow_mono (h : acc ⊆ acc') : maxWindow k a acc ≤ maxWindow k a acc' :=
  maxWindow_le_iff.2 fun _ ht => le_maxWindow (h ht)

@[simp] theorem maxWindow_cons_self :
    maxWindow k a ((a, s) :: acc) = max (s >>> k) (maxWindow k a acc) := by
  simp [maxWindow]

@[simp] theorem maxWindow_cons_of_ne (h : b ≠ a) :
    maxWindow k a ((b, s) :: acc) = maxWindow k a acc := by
  simp [maxWindow, h]

/-- **What is refused stays refused**: a key admitted after more accepted keys is admitted after
fewer. -/
theorem Admits.of_subset {key : α × Nat} (h : Admits k acc' key) (hsub : acc ⊆ acc') :
    Admits k acc key :=
  ⟨fun hm => h.1 (hsub hm), (maxWindow_mono hsub).trans h.2⟩

theorem shiftRight_mono {s t : Nat} (h : s ≤ t) : s >>> k ≤ t >>> k := by
  simp only [Nat.shiftRight_eq_div_pow]
  exact Nat.div_le_div_right h

/-- A key above every accepted key of its class is admitted. -/
theorem admits_of_lt (h : ∀ t, (a, t) ∈ acc → t < s) : Admits k acc (a, s) := by
  refine ⟨fun hm => lt_irrefl s (h s hm), ?_⟩
  -- every accepted window of the class is at most the window of `s`
  have hle : maxWindow k a acc ≤ s >>> k :=
    maxWindow_le_iff.2 fun t ht => shiftRight_mono (h t ht).le
  simp only
  omega

variable (k)

/-- The window state `current`, `used`, `previous` tracks the accepted keys `acc` of class `a`: the
current window is the highest accepted, `used` holds the offsets accepted in it, and `previous`,
once there is one, those accepted in the window below; there is no previous set exactly while the
current window is `0`. -/
structure WindowTracks (a : α) (acc : List (α × Nat)) (current : Nat) (used : List Nat)
    (previous : Option (List Nat)) : Prop where
  current_eq : current = maxWindow k a acc
  mem_used : OffsetsOf k a acc current used
  mem_previous : ∀ set, previous = some set → OffsetsOf k a acc (current - 1) set
  previous_none : previous = none ↔ current = 0

variable {k} {w : Nat} {set : List Nat} {current : Nat} {used : List Nat} {previous : Option (List Nat)}

/-- Nothing accepted: window `0`, no offset, no previous set. -/
theorem windowTracks_nil (a : α) : WindowTracks k a [] 0 [] none :=
  ⟨rfl, offsetsOf_nil (by simp), by simp, iff_of_true rfl rfl⟩

section Tracks

variable (h : WindowTracks k a acc current used previous)
include h

/-- There is a previous set once the window has moved from `0`. -/
theorem WindowTracks.previous_isSome (hc : 0 < current) : ∃ set, previous = some set := by
  cases hp : previous with
  | none => exact absurd (h.previous_none.1 hp) (by omega)
  | some set => exact ⟨set, rfl⟩

/-- The window has moved from `0` once there is a previous set. -/
theorem WindowTracks.pos_of_some (hp : previous = some set) : 0 < current :=
  Nat.pos_of_ne_zero fun hc => by simp [h.previous_none.2 hc] at hp

/-- Every accepted key of the class lies in the current window or below it. -/
theorem WindowTracks.shiftRight_le (hm : (a, s) ∈ acc) : s >>> k ≤ current :=
  h.current_eq ▸ le_maxWindow hm

/-- A key in the current window or the one below is admitted exactly when it is new. -/
theorem WindowTracks.admits_iff (hs : current ≤ s >>> k + 1) :
    Admits k acc (a, s) ↔ (a, s) ∉ acc := by
  simp only [Admits, ← h.current_eq]
  exact and_iff_left hs

/-- A key two windows or more below the current one is refused. -/
theorem WindowTracks.not_admits_of_lt (hs : s >>> k + 1 < current) : ¬Admits k acc (a, s) := by
  simp only [Admits, ← h.current_eq]
  omega

/-- A key above the current window is new, and admitted. -/
theorem WindowTracks.admits_of_gt (hs : current < s >>> k) : Admits k acc (a, s) :=
  (h.admits_iff (by omega)).2 fun hm => absurd (h.shiftRight_le hm) (by omega)

/-- Accepting a key of the current window adds its offset to `used`. -/
theorem WindowTracks.insertUsed (hs : s >>> k = current) :
    WindowTracks k a ((a, s) :: acc) current (used.insert (s % 2 ^ k)) previous := by
  refine ⟨?_, h.mem_used.insert hs, fun set hp => ?_, h.previous_none⟩
  · rw [maxWindow_cons_self, ← h.current_eq, hs, Nat.max_self]
  · -- the key lies in the current window, not the one below
    have := h.pos_of_some hp
    exact (h.mem_previous set hp).cons_of_ne_window (by omega)

/-- Accepting a key of the window below adds its offset to the previous set. -/
theorem WindowTracks.insertPrevious (hp : previous = some set) (hs : s >>> k + 1 = current) :
    WindowTracks k a ((a, s) :: acc) current used (some (set.insert (s % 2 ^ k))) := by
  refine ⟨?_, h.mem_used.cons_of_ne_window (show s >>> k ≠ current by omega),
    fun set' hp' => ?_, ?_⟩
  · rw [maxWindow_cons_self, ← h.current_eq, ← hs]
    omega
  · cases hp'
    exact (h.mem_previous set hp).insert (by rw [← hs, Nat.add_sub_cancel])
  · have := h.pos_of_some hp
    simp only [reduceCtorEq, false_iff]
    omega

/-- Accepting a key of the window above: the current set becomes the previous one, and the new
current set holds its offset. -/
theorem WindowTracks.slide (hs : s >>> k = current + 1) :
    WindowTracks k a ((a, s) :: acc) (s >>> k) (([] : List Nat).insert (s % 2 ^ k))
      (some used) := by
  refine ⟨?_, (offsetsOf_nil fun t ht => ?_).insert rfl, fun set hp => ?_, ?_⟩
  · rw [maxWindow_cons_self, ← h.current_eq]
    omega
  · have := h.shiftRight_le ht
    omega
  · cases hp
    rw [hs, Nat.add_sub_cancel]
    exact h.mem_used.cons_of_ne_window (by omega)
  · simp only [reduceCtorEq, false_iff]
    omega

/-- Accepting a key two windows or more above: both sets start again, the current one with its
offset. -/
theorem WindowTracks.reset (hs : current + 1 < s >>> k) :
    WindowTracks k a ((a, s) :: acc) (s >>> k) (([] : List Nat).insert (s % 2 ^ k))
      (some []) := by
  refine ⟨?_, (offsetsOf_nil fun t ht => ?_).insert rfl, fun set hp => ?_, ?_⟩
  · rw [maxWindow_cons_self, ← h.current_eq]
    omega
  · have := h.shiftRight_le ht
    omega
  · cases hp
    refine (offsetsOf_nil fun t ht => ?_).cons_of_ne_window (by omega)
    have := h.shiftRight_le ht
    omega
  · simp only [reduceCtorEq, false_iff]
    omega

/-- Accepting a key of another class changes nothing. -/
theorem WindowTracks.cons_of_ne (hb : b ≠ a) :
    WindowTracks k a ((b, s) :: acc) current used previous :=
  ⟨by rw [maxWindow_cons_of_ne hb, ← h.current_eq], h.mem_used.cons_of_ne hb,
    fun set hp => (h.mem_previous set hp).cons_of_ne hb, h.previous_none⟩

end Tracks

end Window

end WeaveNet.Lib
