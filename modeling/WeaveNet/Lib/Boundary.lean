import Mathlib
import WeaveNet.Lib.Search

/-!
# Sets of points as sorted boundary lists

A strictly increasing list `[s₀, e₀, s₁, e₁, …]` of even length denotes the union of the
half-open intervals `[sₖ, eₖ)` (`Covers`). Membership is a parity: `x` is covered exactly when an
odd number of boundaries are `≤ x` (`covers_iff_odd`). This is what lets a union or a difference
with one interval `[s, e)` be computed by splicing (`splice`): keep the boundaries below `s` and
above `e`, and insert `s` and `e` themselves according to the parity of their positions. The two
splice theorems (`covers_splice_union`, `covers_splice_diff`) are the whole correctness argument
for such an update; they ask only that the list be strictly increasing, of even length, and that
`s < e`.

Over `Fin n` the points a list covers are counted by the lengths of its intervals
(`card_covers`), and never reach the top point (`spanLength_lt`).
-/

namespace WeaveNet.Lib

variable {α : Type*} [LinearOrder α]

/-- The set a boundary list denotes: each even element opens a half-open interval that the next
element closes. A trailing unpaired element denotes nothing. -/
def Covers : List α → α → Prop
  | s :: e :: rest, x => (s ≤ x ∧ x < e) ∨ Covers rest x
  | _, _ => False

instance Covers.instDecidable : ∀ (a : List α) (x : α), Decidable (Covers a x)
  | [], _ => isFalse id
  | [_], _ => isFalse id
  | s :: e :: rest, x =>
    haveI := Covers.instDecidable rest x
    inferInstanceAs (Decidable ((s ≤ x ∧ x < e) ∨ Covers rest x))

@[simp] theorem covers_nil (x : α) : ¬Covers [] x := id

@[simp] theorem covers_cons_cons (s e x : α) (rest : List α) :
    Covers (s :: e :: rest) x ↔ (s ≤ x ∧ x < e) ∨ Covers rest x := Iff.rfl

/-- A well-formed boundary list: strictly increasing, of even length. -/
structure Boundaries (a : List α) : Prop where
  sorted : a.Pairwise (· < ·)
  even : a.length % 2 = 0

namespace Boundaries
variable {s e : α} {rest : List α}

theorem head_lt (h : Boundaries (s :: e :: rest)) : s < e :=
  List.rel_of_pairwise_cons h.sorted (List.mem_cons_self ..)

/-- Every boundary after the first interval lies above its end. -/
theorem lt_of_mem_rest (h : Boundaries (s :: e :: rest)) : ∀ b ∈ rest, e < b :=
  (List.pairwise_cons.1 (List.pairwise_cons.1 h.sorted).2).1

theorem of_cons_cons (h : Boundaries (s :: e :: rest)) : Boundaries rest :=
  ⟨(List.pairwise_cons.1 (List.pairwise_cons.1 h.sorted).2).2, by
    have := h.even; simp only [List.length_cons] at this; omega⟩

/-- An interval followed by a boundary list lying above it is a boundary list. -/
theorem cons_cons (hse : s < e) (habove : ∀ b ∈ rest, e < b) (h : Boundaries rest) :
    Boundaries (s :: e :: rest) := by
  refine ⟨List.pairwise_cons.2 ⟨?_, List.pairwise_cons.2 ⟨habove, h.sorted⟩⟩, ?_⟩
  · intro b hb
    rcases List.mem_cons.1 hb with rfl | hb
    · exact hse
    · exact lt_trans hse (habove b hb)
  · have := h.even; simp only [List.length_cons]; omega

end Boundaries

/-- A covered point lies at or above some boundary. -/
theorem exists_le_of_covers : ∀ {a : List α} {x : α}, Covers a x → ∃ b ∈ a, b ≤ x
  | s :: e :: rest, x, h => by
    rcases h with ⟨hs, -⟩ | h
    · exact ⟨s, List.mem_cons_self .., hs⟩
    · obtain ⟨b, hb, hbx⟩ := exists_le_of_covers h
      exact ⟨b, List.mem_cons_of_mem _ (List.mem_cons_of_mem _ hb), hbx⟩

/-- A covered point lies below some boundary. -/
theorem exists_gt_of_covers : ∀ {a : List α} {x : α}, Covers a x → ∃ b ∈ a, x < b
  | s :: e :: rest, x, h => by
    rcases h with ⟨-, he⟩ | h
    · exact ⟨e, List.mem_cons_of_mem _ (List.mem_cons_self ..), he⟩
    · obtain ⟨b, hb, hbx⟩ := exists_gt_of_covers h
      exact ⟨b, List.mem_cons_of_mem _ (List.mem_cons_of_mem _ hb), hbx⟩

/-- The first boundary of a well-formed list is the least point it covers. -/
theorem head_le_of_covers {s x : α} {rest : List α} (h : Boundaries (s :: rest))
    (hx : Covers (s :: rest) x) : s ≤ x := by
  obtain ⟨b, hb, hbx⟩ := exists_le_of_covers hx
  rcases List.mem_cons.1 hb with rfl | hb
  · exact hbx
  · exact le_trans (List.rel_of_pairwise_cons h.sorted hb).le hbx

theorem covers_head {s e : α} {rest : List α} (h : Boundaries (s :: e :: rest)) :
    Covers (s :: e :: rest) s :=
  Or.inl ⟨le_rfl, h.head_lt⟩

/-- The rest of a list covers nothing at or below the end of its first interval. -/
theorem Boundaries.not_covers_rest {s e x : α} {rest : List α} (h : Boundaries (s :: e :: rest))
    (hx : x ≤ e) : ¬Covers rest x := fun hc => by
  obtain ⟨b, hb, hbx⟩ := exists_le_of_covers hc
  exact lt_irrefl b (lt_of_le_of_lt (le_trans hbx hx) (h.lt_of_mem_rest b hb))

/-- The end of the first interval is not covered. -/
theorem Boundaries.not_covers_end {s e : α} {rest : List α} (h : Boundaries (s :: e :: rest)) :
    ¬Covers (s :: e :: rest) e := by
  rintro (⟨-, he⟩ | hc)
  · exact lt_irrefl e he
  · exact h.not_covers_rest le_rfl hc

/-- **A well-formed boundary list is determined by the set it covers.** Its first boundary is
the least covered point and its second the least point above it that is not covered; the rest
covers the same set above that. -/
theorem Boundaries.ext : ∀ {a b : List α}, Boundaries a → Boundaries b →
    (∀ x, Covers a x ↔ Covers b x) → a = b
  | [], [], _, _, _ => rfl
  | [_], _, ha, _, _ => absurd ha.even (by simp)
  | _, [_], _, hb, _ => absurd hb.even (by simp)
  | [], s :: _ :: _, _, hb, h => absurd ((h s).2 (covers_head hb)) (covers_nil s)
  | s :: _ :: _, [], ha, _, h => absurd ((h s).1 (covers_head ha)) (covers_nil s)
  | s :: e :: ra, s' :: e' :: rb, ha, hb, h => by
    have hs : s = s' := le_antisymm (head_le_of_covers ha ((h s').2 (covers_head hb)))
      (head_le_of_covers hb ((h s).1 (covers_head ha)))
    subst hs
    have he : e = e' := by
      rcases lt_trichotomy e e' with hlt | heq | hgt
      · exact absurd ((h e).2 (Or.inl ⟨ha.head_lt.le, hlt⟩)) ha.not_covers_end
      · exact heq
      · exact absurd ((h e').1 (Or.inl ⟨hb.head_lt.le, hgt⟩)) hb.not_covers_end
    subst he
    -- above the first interval the lists cover with their rests; at or below its end neither
    -- rest covers anything
    have hrest : ∀ x, Covers ra x ↔ Covers rb x := fun x => by
      rcases le_or_gt x e with hxe | hex
      · exact iff_of_false (ha.not_covers_rest hxe) (hb.not_covers_rest hxe)
      · have hx := h x
        simp only [covers_cons_cons, not_lt.2 hex.le, and_false, false_or] at hx
        exact hx
    rw [Boundaries.ext ha.of_cons_cons hb.of_cons_cons hrest]

/-- The number of boundaries at or below `x`. -/
def atOrBelow (a : List α) (x : α) : Nat := a.countP (fun b => decide (b ≤ x))

/-- **Membership is the parity of the boundaries below.** -/
theorem covers_iff_odd : ∀ {a : List α}, Boundaries a → ∀ x, Covers a x ↔ atOrBelow a x % 2 = 1
  | [], _, x => by simp [atOrBelow]
  | [_], h, _ => absurd h.even (by simp)
  | s :: e :: rest, h, x => by
    have hse := h.head_lt
    have habove := h.lt_of_mem_rest
    have ih := covers_iff_odd h.of_cons_cons x
    simp only [covers_cons_cons, atOrBelow, List.countP_cons] at ih ⊢
    rcases lt_or_ge x s with hxs | hsx
    · -- below the first interval: nothing is at or below `x`
      have hzero : rest.countP (fun b => decide (b ≤ x)) = 0 :=
        List.countP_eq_zero.2 fun b hb => by
          simp only [decide_eq_true_eq, not_le]
          exact lt_trans (lt_trans hxs hse) (habove b hb)
      rw [ih, hzero]
      simp [not_le.2 hxs, not_le.2 (lt_trans hxs hse)]
    · rcases lt_or_ge x e with hxe | hex
      · have hzero : rest.countP (fun b => decide (b ≤ x)) = 0 :=
          List.countP_eq_zero.2 fun b hb => by
            simp only [decide_eq_true_eq, not_le]; exact lt_trans hxe (habove b hb)
        rw [ih, hzero]
        simp [hsx, hxe, not_le.2 hxe]
      · rw [ih]
        simp [hsx, hex, not_lt.2 hex]
        omega

/-! ## The two sides of a cut -/

omit [LinearOrder α] in
/-- In a sorted list, a predicate closed towards smaller elements holds on the first
`countP` elements and fails on the rest. -/
theorem take_drop_countP {r : α → α → Prop} {P : α → Bool}
    (hP : ∀ y z, r y z → P z = true → P y = true) :
    ∀ {a : List α}, a.Pairwise r →
      (∀ y ∈ a.take (a.countP P), P y = true) ∧ (∀ y ∈ a.drop (a.countP P), P y = false)
  | [], _ => by simp
  | b :: rest, h => by
    obtain ⟨hb, hrest⟩ := List.pairwise_cons.1 h
    cases hPb : P b
    · -- `b` fails, so everything after it fails too
      have hall : ∀ z ∈ rest, P z = false := fun z hz => by
        cases hPz : P z
        · rfl
        · rw [hP b z (hb z hz) hPz] at hPb; cases hPb
      have hzero : rest.countP P = 0 := List.countP_eq_zero.2 fun z hz => by simp [hall z hz]
      have hcount : (b :: rest).countP P = 0 := by simp [hPb, hzero]
      rw [hcount]
      refine ⟨by simp, ?_⟩
      intro y hy
      rcases List.mem_cons.1 hy with rfl | hy
      · exact hPb
      · exact hall y hy
    · obtain ⟨ih1, ih2⟩ := take_drop_countP hP hrest
      simp only [List.countP_cons, hPb, if_true, List.take_succ_cons, List.drop_succ_cons]
      refine ⟨?_, ih2⟩
      intro y hy
      rcases List.mem_cons.1 hy with rfl | hy
      · exact hPb
      · exact ih1 y hy

omit [LinearOrder α] in
/-- **Binary search on a sorted list finds the end of a leading segment.** When a predicate `Q`
holds on an initial segment of a sorted list, the first index where it fails is the number of
elements satisfying it. -/
theorem search_not_eq_countP {r : α → α → Prop} {Q : α → Bool}
    (hQ : ∀ y z, r y z → Q z = true → Q y = true) {a : List α} (h : a.Pairwise r) (d : α) :
    search a.length (fun i => !Q (a.getD i d)) = a.countP Q := by
  obtain ⟨htake, hdrop⟩ := take_drop_countP hQ h
  apply search_eq_of_spec
  · -- failing `Q` is monotone along the list
    intro i j hij hj hi
    dsimp only at hi ⊢
    rw [List.getD_eq_getElem _ _ (by omega)] at hi
    rw [List.getD_eq_getElem _ _ hj]
    rcases Nat.lt_or_eq_of_le hij with hlt | rfl
    · cases hQj : Q a[j]
      · rfl
      · have := hQ _ _ (List.pairwise_iff_getElem.1 h i j (by omega) hj hlt) hQj
        simp [this] at hi
    · exact hi
  · refine ⟨List.countP_le_length, fun m hm => ?_, fun hk => ?_⟩
    · have hml : m < a.length := Nat.lt_of_lt_of_le hm List.countP_le_length
      show (!Q (a.getD m d)) = false
      rw [List.getD_eq_getElem _ _ hml]
      have hmem : a[m] ∈ a.take (a.countP Q) := by
        rw [← List.getElem_take (j := a.countP Q) (h := by rw [List.length_take]; omega)]
        exact List.getElem_mem ..
      simp [htake _ hmem]
    · show (!Q (a.getD (a.countP Q) d)) = true
      rw [List.getD_eq_getElem _ _ hk]
      have hmem : a[a.countP Q] ∈ a.drop (a.countP Q) :=
        List.mem_iff_getElem.2 ⟨0, by rw [List.length_drop]; omega,
          by simp only [List.getElem_drop, Nat.add_zero]⟩
      simp [hdrop _ hmem]

/-- The number of boundaries below `s`: the position where `s` would be inserted. -/
def below (a : List α) (s : α) : Nat := a.countP (fun b => decide (b < s))

theorem atOrBelow_eq_length {l : List α} {x : α} (h : ∀ y ∈ l, y ≤ x) :
    atOrBelow l x = l.length :=
  List.countP_eq_length.2 fun y hy => by simpa using h y hy

theorem atOrBelow_eq_zero {l : List α} {x : α} (h : ∀ y ∈ l, x < y) : atOrBelow l x = 0 :=
  List.countP_eq_zero.2 fun y hy => by simpa using h y hy

@[simp] theorem atOrBelow_append (l₁ l₂ : List α) (x : α) :
    atOrBelow (l₁ ++ l₂) x = atOrBelow l₁ x + atOrBelow l₂ x := List.countP_append

/-- Where the cut at `[s, e]` falls in a boundary list: the boundaries before position
`below a s` lie under `s`, those from it on lie at or above `s`, those before position
`atOrBelow a e` lie at or under `e`, and those from it on lie above `e`. -/
structure Cut (a : List α) (s e : α) : Prop where
  le : below a s ≤ atOrBelow a e
  le_length : atOrBelow a e ≤ a.length
  take_lt : ∀ y ∈ a.take (below a s), y < s
  drop_ge : ∀ y ∈ a.drop (below a s), s ≤ y
  take_le : ∀ y ∈ a.take (atOrBelow a e), y ≤ e
  drop_gt : ∀ y ∈ a.drop (atOrBelow a e), e < y

theorem cut_of_sorted {a : List α} (h : a.Pairwise (· < ·)) {s e : α} (hse : s < e) :
    Cut a s e := by
  obtain ⟨h1, h2⟩ := take_drop_countP (P := fun b => decide (b < s))
    (fun y z hyz hz => by simp only [decide_eq_true_eq] at hz ⊢; exact lt_trans hyz hz) h
  obtain ⟨h3, h4⟩ := take_drop_countP (P := fun b => decide (b ≤ e))
    (fun y z hyz hz => by simp only [decide_eq_true_eq] at hz ⊢; exact le_trans hyz.le hz) h
  refine ⟨?_, List.countP_le_length, fun y hy => by simpa using h1 y hy,
    fun y hy => by simpa using h2 y hy, fun y hy => by simpa using h3 y hy,
    fun y hy => by simpa using h4 y hy⟩
  exact List.countP_mono_left fun y _ hy => by
    simp only [decide_eq_true_eq] at hy ⊢; exact (lt_trans hy hse).le

/-! ## Splicing in one interval -/

/-- Keep the boundaries before position `p` and from position `q` on, and put `s` and `e`
between them, each only when its position has the parity `sense` (`0` for a union, `1` for a
difference). -/
def splice (a : List α) (p q : Nat) (s e : α) (sense : Nat) : List α :=
  a.take p ++ ((if p % 2 = sense then [s] else []) ++
    ((if q % 2 = sense then [e] else []) ++ a.drop q))

theorem atOrBelow_splice (a : List α) (p q : Nat) (s e x : α) (sense : Nat) :
    atOrBelow (splice a p q s e sense) x = atOrBelow (a.take p) x +
      ((if p % 2 = sense ∧ s ≤ x then 1 else 0) +
        ((if q % 2 = sense ∧ e ≤ x then 1 else 0) + atOrBelow (a.drop q) x)) := by
  simp only [splice, atOrBelow_append]
  congr 1
  congr 1
  · split_ifs <;> simp_all [atOrBelow]
  · congr 1
    split_ifs <;> simp_all [atOrBelow]

section
variable {a : List α} {s e : α}

/-- The spliced list is again a well-formed boundary list. -/
theorem splice_boundaries (h : Boundaries a) (hse : s < e) (sense : Nat) (hs : sense < 2) :
    Boundaries (splice a (below a s) (atOrBelow a e) s e sense) := by
  have hc := cut_of_sorted h.sorted hse
  refine ⟨?_, ?_⟩
  · simp only [splice, List.pairwise_append]
    refine ⟨h.sorted.sublist (List.take_sublist _ _), ⟨?_, ⟨?_, h.sorted.sublist
      (List.drop_sublist _ _), ?_⟩, ?_⟩, ?_⟩
    · split_ifs <;> simp
    · split_ifs <;> simp
    · intro y hy z hz
      split_ifs at hy with h1 <;> simp at hy
      subst hy; exact hc.drop_gt z hz
    · intro y hy z hz
      split_ifs at hy with h1 <;> simp at hy
      subst hy
      rw [List.mem_append] at hz
      rcases hz with hz | hz
      · split_ifs at hz <;> simp at hz; subst hz; exact hse
      · exact lt_trans hse (hc.drop_gt z hz)
    · intro y hy z hz
      have hys := hc.take_lt y hy
      rw [List.mem_append] at hz
      rcases hz with hz | hz
      · split_ifs at hz <;> simp at hz; subst hz; exact hys
      · rw [List.mem_append] at hz
        rcases hz with hz | hz
        · split_ifs at hz <;> simp at hz; subst hz; exact lt_trans hys hse
        · exact lt_trans (lt_trans hys hse) (hc.drop_gt z hz)
  · have hp := hc.le
    have hq := hc.le_length
    have he := h.even
    simp only [splice, List.length_append, List.length_take, List.length_drop]
    split_ifs <;> simp <;> omega

/-- **Splicing computes the union or the difference.** Inside `[s, e)` the spliced list covers
exactly when `sense = 0`; outside it covers what the old list covered. -/
theorem covers_splice (h : Boundaries a) (hse : s < e) (sense : Nat) (hs : sense < 2) (x : α) :
    Covers (splice a (below a s) (atOrBelow a e) s e sense) x ↔
      if s ≤ x ∧ x < e then sense = 0 else Covers a x := by
  have hc := cut_of_sorted h.sorted hse
  rw [covers_iff_odd (splice_boundaries h hse sense hs), atOrBelow_splice]
  rcases lt_or_ge x s with hxs | hsx
  · -- below the interval the new boundaries do not count, nor does anything from the cut on
    have h1 : atOrBelow (a.drop (atOrBelow a e)) x = 0 :=
      atOrBelow_eq_zero fun y hy => lt_trans (lt_trans hxs hse) (hc.drop_gt y hy)
    have h2 : atOrBelow a x = atOrBelow (a.take (below a s)) x := by
      conv_lhs => rw [← List.take_append_drop (below a s) a]
      rw [atOrBelow_append, atOrBelow_eq_zero (l := a.drop _)
        fun y hy => lt_of_lt_of_le hxs (hc.drop_ge y hy)]
      simp
    have hi1 : ¬(s ≤ x ∧ x < e) := fun hx => absurd hx.1 (not_le.2 hxs)
    have hi2 : ¬(below a s % 2 = sense ∧ s ≤ x) := fun hx => absurd hx.2 (not_le.2 hxs)
    have hi3 : ¬(atOrBelow a e % 2 = sense ∧ e ≤ x) :=
      fun hx => absurd hx.2 (not_le.2 (lt_trans hxs hse))
    rw [if_neg hi1, if_neg hi2, if_neg hi3, covers_iff_odd h, h2, h1]
    simp
  · have hlen : atOrBelow (a.take (below a s)) x = below a s := by
      rw [atOrBelow_eq_length fun y hy => (lt_of_lt_of_le (hc.take_lt y hy) hsx).le]
      simp only [List.length_take]
      exact Nat.min_eq_left (Nat.le_trans hc.le hc.le_length)
    rw [hlen]
    rcases lt_or_ge x e with hxe | hex
    · -- inside the interval only `s` can count
      have h1 : atOrBelow (a.drop (atOrBelow a e)) x = 0 :=
        atOrBelow_eq_zero fun y hy => lt_trans hxe (hc.drop_gt y hy)
      have hi3 : ¬(atOrBelow a e % 2 = sense ∧ e ≤ x) := fun hx => absurd hx.2 (not_le.2 hxe)
      have hin : s ≤ x ∧ x < e := ⟨hsx, hxe⟩
      rw [h1, if_pos hin, if_neg hi3]
      by_cases hp : below a s % 2 = sense
      · have hi2 : below a s % 2 = sense ∧ s ≤ x := ⟨hp, hsx⟩
        rw [if_pos hi2]; omega
      · have hi2 : ¬(below a s % 2 = sense ∧ s ≤ x) := fun hx => hp hx.1
        rw [if_neg hi2]; omega
    · -- above the interval both new boundaries count, which keeps the old parity
      have h2 : atOrBelow a x = atOrBelow a e + atOrBelow (a.drop (atOrBelow a e)) x := by
        conv_lhs => rw [← List.take_append_drop (atOrBelow a e) a]
        rw [atOrBelow_append, atOrBelow_eq_length fun y hy => le_trans (hc.take_le y hy) hex]
        simp only [List.length_take]
        rw [Nat.min_eq_left hc.le_length]
      have hi1 : ¬(s ≤ x ∧ x < e) := fun hx => absurd hx.2 (not_lt.2 hex)
      rw [if_neg hi1, covers_iff_odd h, h2]
      by_cases hp : below a s % 2 = sense <;> by_cases hq : atOrBelow a e % 2 = sense <;>
        simp only [hp, hq, hsx, hex, and_self, and_true, if_true, if_false] <;> omega

/-- Splicing with `sense = 0` adds `[s, e)`. -/
theorem covers_splice_union (h : Boundaries a) (hse : s < e) (x : α) :
    Covers (splice a (below a s) (atOrBelow a e) s e 0) x ↔ Covers a x ∨ (s ≤ x ∧ x < e) := by
  rw [covers_splice h hse 0 (by omega)]
  split_ifs with hx <;> simp [hx]

/-- Splicing with `sense = 1` removes `[s, e)`. -/
theorem covers_splice_diff (h : Boundaries a) (hse : s < e) (x : α) :
    Covers (splice a (below a s) (atOrBelow a e) s e 1) x ↔ Covers a x ∧ ¬(s ≤ x ∧ x < e) := by
  rw [covers_splice h hse 1 (by omega)]
  split_ifs with hx <;> simp [hx]

end

/-! ## Counting the covered points over `Fin n` -/

section Count
variable {n : Nat}

/-- The number of points the intervals of a boundary list over `Fin n` span. -/
def spanLength : List (Fin n) → Nat
  | s :: e :: rest => (e.val - s.val) + spanLength rest
  | _ => 0

/-- **A boundary list spans as many points as it covers.** -/
theorem card_covers : ∀ {a : List (Fin n)}, Boundaries a →
    (Finset.univ.filter (fun x => Covers a x)).card = spanLength a
  | [], _ => by simp [spanLength]
  | [_], h => absurd h.even (by simp)
  | s :: e :: rest, h => by
    have hsplit : Finset.univ.filter (fun x => Covers (s :: e :: rest) x) =
        Finset.Ico s e ∪ Finset.univ.filter (fun x => Covers rest x) := by
      ext x; simp [Finset.mem_Ico]
    -- the rest lies above `e`, so it shares no point with `[s, e)`
    have hdisj : Disjoint (Finset.Ico s e) (Finset.univ.filter (fun x => Covers rest x)) := by
      rw [Finset.disjoint_left]
      intro x hx hx'
      obtain ⟨b, hb, hbx⟩ := exists_le_of_covers (Finset.mem_filter.1 hx').2
      exact lt_asymm (Finset.mem_Ico.1 hx).2 (lt_of_lt_of_le (h.lt_of_mem_rest b hb) hbx)
    rw [hsplit, Finset.card_union_of_disjoint hdisj, Fin.card_Ico, card_covers h.of_cons_cons,
      spanLength]

/-- The top point of `Fin n` lies below no boundary, so it is never covered. -/
theorem not_covers_top {a : List (Fin n)} (hn : 0 < n) : ¬Covers a ⟨n - 1, by omega⟩ := by
  intro hc
  obtain ⟨b, -, hb⟩ := exists_gt_of_covers hc
  have := b.isLt
  rw [Fin.lt_def] at hb
  simp only at hb
  omega

theorem spanLength_lt {a : List (Fin n)} (h : Boundaries a) (hn : 0 < n) : spanLength a < n := by
  rw [← card_covers h]
  calc (Finset.univ.filter (fun x => Covers a x)).card < (Finset.univ : Finset (Fin n)).card :=
        Finset.card_lt_card (Finset.filter_ssubset.2 ⟨_, Finset.mem_univ _, not_covers_top hn⟩)
    _ = n := Finset.card_fin n

end Count

end WeaveNet.Lib
