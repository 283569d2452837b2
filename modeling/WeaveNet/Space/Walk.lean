import WeaveNet.Lib.Loop
import WeaveNet.Space.Basic

/-!
# What `walkFree` visits

The loop of `walkFree` is an early-exit loop (`Lib.foldUntil`) over a list of chunks: the free
ranges that meet the requested range, cut to it (`walkFree_eq`). On a well-formed free array the
chunks, read back as a boundary array, are well formed and cover exactly the free addresses of
the range (`chunks_boundaries`, `covers_chunks`); in particular the first chunk starts at the
least such address (`chunks_head_isLeast`). The three callers are then described through their
callbacks: `allocate` stops at the first chunk (`allocate_eq`), and `biggestFreeRange` returns
either the empty range, when there is no chunk, or the aligned block of one chunk
(`biggestFreeRange_cases`).
-/

namespace WeaveNet.Space

open Lib

/-- The chunks the loop of `walkFree` hands to its callback, in order: a free range ending at or
before the range is skipped, the loop breaks at the first one starting at or after its end, and
the others are cut to it. -/
def chunks (r : Range) : List Address → List Range
  | s :: e :: rest =>
    if e ≤ r.Start then chunks r rest
    else if s ≥ r.End then []
    else ⟨if s < r.Start then r.Start else s, if e > r.End then r.End else e⟩ :: chunks r rest
  | _ => []

/-- The boundary array of a list of ranges. -/
def boundariesOf : List Range → List Address
  | [] => []
  | c :: cs => c.Start :: c.End :: boundariesOf cs

/-- The chunks `walkFree` visits: none for a degenerate range. -/
def freeChunks (s : Space) (r : Range) : List Range :=
  if r.Start ≥ r.End then [] else chunks r s.free

section
variable {σ : Type}

theorem walkChunks_eq (r : Range) (g : Range → σ → Bool × σ) :
    ∀ (a : List Address) (st : σ), Space.walkChunks r g a st = foldUntil g (chunks r a) st
  | s :: e :: rest, st => by
    rw [Space.walkChunks, chunks]
    by_cases h1 : e ≤ r.Start
    · simp only [h1, if_true]
      exact walkChunks_eq r g rest st
    by_cases h2 : s ≥ r.End
    · simp only [h1, h2, if_true, if_false, foldUntil_nil]
    simp only [h1, h2, if_false]
    rw [foldUntil]
    split
    · next st' heq => rw [heq]
    · next st' heq => rw [heq]; exact walkChunks_eq r g rest st'
  | [], _ => rfl
  | [_], _ => rfl

/-- **`walkFree` is an early-exit loop over the chunks.** -/
theorem walkFree_eq (s : Space) (r : Range) (g : Range → σ → Bool × σ) (st : σ) :
    s.walkFree r g st = foldUntil g (s.freeChunks r) st := by
  rw [Space.walkFree, Space.freeChunks]
  split_ifs
  · rfl
  · exact walkChunks_eq r g s.free st

end

/-! ## The chunks of a well-formed array -/

section
variable {r : Range} {a : List Address}

/-- A chunk's ends are the larger of the two starts and the smaller of the two ends. -/
theorem cut_eq (s e : Address) :
    (⟨if s < r.Start then r.Start else s, if e > r.End then r.End else e⟩ : Range) =
      ⟨max s r.Start, min e r.End⟩ := by
  congr 1
  · split_ifs with h
    · exact (max_eq_right h.le).symm
    · exact (max_eq_left (not_lt.1 h)).symm
  · split_ifs with h
    · exact (min_eq_right h.le).symm
    · exact (min_eq_left (not_lt.1 h)).symm

/-- Every boundary of the chunks lies at or above a boundary of the array. -/
theorem exists_le_of_mem_chunks :
    ∀ {a : List Address}, Boundaries a → ∀ {b : Address}, b ∈ boundariesOf (chunks r a) →
      ∃ x ∈ a, x ≤ b
  | s :: e :: rest, h, b, hb => by
    rw [chunks, cut_eq] at hb
    split_ifs at hb with h1 h2
    · obtain ⟨x, hx, hxb⟩ := exists_le_of_mem_chunks h.of_cons_cons hb
      exact ⟨x, List.mem_cons_of_mem _ (List.mem_cons_of_mem _ hx), hxb⟩
    · simp [boundariesOf] at hb
    · simp only [boundariesOf, List.mem_cons] at hb
      rcases hb with rfl | rfl | hb
      · exact ⟨s, List.mem_cons_self .., le_max_left _ _⟩
      · exact ⟨s, List.mem_cons_self .., le_min h.head_lt.le (not_le.1 h2).le⟩
      · obtain ⟨x, hx, hxb⟩ := exists_le_of_mem_chunks h.of_cons_cons hb
        exact ⟨x, List.mem_cons_of_mem _ (List.mem_cons_of_mem _ hx), hxb⟩
  | [], _, _, hb => by simp [chunks, boundariesOf] at hb
  | [_], _, _, hb => by simp [chunks, boundariesOf] at hb

/-- The chunks of a well-formed array, in a non-degenerate range, form a well-formed array. -/
theorem chunks_boundaries (hr : r.Start < r.End) :
    ∀ {a : List Address}, Boundaries a → Boundaries (boundariesOf (chunks r a))
  | s :: e :: rest, h => by
    rw [chunks, cut_eq]
    split_ifs with h1 h2
    · exact chunks_boundaries hr h.of_cons_cons
    · exact ⟨List.Pairwise.nil, rfl⟩
    · -- the chunk is non-empty, and the later chunks lie above `e`, which bounds its end
      refine Boundaries.cons_cons ?_ (fun b hb => ?_) (chunks_boundaries hr h.of_cons_cons)
      · exact max_lt_iff.2 ⟨lt_min_iff.2 ⟨h.head_lt, not_le.1 h2⟩,
          lt_min_iff.2 ⟨not_le.1 h1, hr⟩⟩
      · obtain ⟨x, hx, hxb⟩ := exists_le_of_mem_chunks h.of_cons_cons hb
        exact lt_of_le_of_lt (min_le_left _ _) (lt_of_lt_of_le (h.lt_of_mem_rest x hx) hxb)
  | [], _ => ⟨List.Pairwise.nil, rfl⟩
  | [_], h => absurd h.even (by simp)

/-- **The chunks cover exactly the free addresses of the range.** -/
theorem covers_chunks :
    ∀ {a : List Address}, Boundaries a → ∀ x : Address,
      Covers (boundariesOf (chunks r a)) x ↔ Covers a x ∧ r.Start ≤ x ∧ x < r.End
  | s :: e :: rest, h, x => by
    have ih := covers_chunks h.of_cons_cons x
    rw [chunks, cut_eq]
    split_ifs with h1 h2
    · -- the first range ends before the range starts
      rw [ih, covers_cons_cons]
      constructor
      · exact fun hx => ⟨.inr hx.1, hx.2⟩
      · rintro ⟨hs | hx, hx'⟩
        · exact absurd (lt_of_le_of_lt (le_trans h1 hx'.1) hs.2) (lt_irrefl _)
        · exact ⟨hx, hx'⟩
    · -- the first range, and so everything after it, starts after the range ends
      simp only [boundariesOf, covers_nil, covers_cons_cons, false_iff]
      rintro ⟨hs | hx, -, hxr⟩
      · exact absurd (lt_of_lt_of_le hxr (le_trans h2 hs.1)) (lt_irrefl _)
      · obtain ⟨b, hb, hbx⟩ := exists_le_of_covers hx
        have heb := h.lt_of_mem_rest b hb
        exact absurd (lt_of_lt_of_le hxr (le_trans (le_trans h2 (h.head_lt.trans heb).le) hbx))
          (lt_irrefl _)
    · simp only [boundariesOf, covers_cons_cons] at ih ⊢
      rw [ih, max_le_iff, lt_min_iff]
      constructor
      · rintro (⟨⟨hs, hrs⟩, he, hre⟩ | ⟨hx, hx'⟩)
        · exact ⟨.inl ⟨hs, he⟩, hrs, hre⟩
        · exact ⟨.inr hx, hx'⟩
      · rintro ⟨⟨hs, he⟩ | hx, hrs, hre⟩
        · exact .inl ⟨⟨hs, hrs⟩, he, hre⟩
        · exact .inr ⟨hx, hrs, hre⟩
  | [], _, x => by simp [chunks, boundariesOf]
  | [_], h, _ => absurd h.even (by simp)

/-- The ranges of a well-formed boundary array are non-empty. -/
theorem start_lt_end_of_mem :
    ∀ {cs : List Range}, Boundaries (boundariesOf cs) → ∀ c ∈ cs, c.Start < c.End
  | c' :: cs, h, c, hc => by
    rcases List.mem_cons.1 hc with rfl | hc
    · exact h.head_lt
    · exact start_lt_end_of_mem h.of_cons_cons c hc

/-- A point of one of the ranges is covered by their boundary array. -/
theorem covers_of_mem : ∀ {cs : List Range} {c : Range}, c ∈ cs → ∀ {x : Address},
    c.Start ≤ x → x < c.End → Covers (boundariesOf cs) x
  | c' :: cs, c, hc, x, hs, he => by
    rw [boundariesOf, covers_cons_cons]
    rcases List.mem_cons.1 hc with rfl | hc
    · exact .inl ⟨hs, he⟩
    · exact .inr (covers_of_mem hc hs he)

/-- **A run of covered points lies inside one of the ranges**: the end of each range is not
covered, so a run that starts in a range cannot pass it. -/
theorem exists_mem_of_covers_Icc : ∀ {cs : List Range}, Boundaries (boundariesOf cs) →
    ∀ {lo hi : Address}, lo ≤ hi → (∀ x, lo ≤ x → x ≤ hi → Covers (boundariesOf cs) x) →
      ∃ c ∈ cs, c.Start ≤ lo ∧ hi < c.End
  | [], _, lo, _, hle, hcov => absurd (hcov lo le_rfl hle) (covers_nil lo)
  | c :: cs, h, lo, hi, hle, hcov => by
    rcases hcov lo le_rfl hle with ⟨hs, he⟩ | hrest
    · exact ⟨c, List.mem_cons_self .., hs,
        not_le.1 fun hhi => h.not_covers_end (hcov c.End he.le hhi)⟩
    · -- the run starts above `c`, so the rest covers all of it
      have hlo : c.End < lo := by
        obtain ⟨b, hb, hbx⟩ := exists_le_of_covers hrest
        exact lt_of_lt_of_le (h.lt_of_mem_rest b hb) hbx
      obtain ⟨c', hc', hs', he'⟩ := exists_mem_of_covers_Icc h.of_cons_cons hle fun x hx hx' =>
        (hcov x hx hx').resolve_left fun hin => absurd hin.2 (not_lt.2 (hlo.trans_le hx).le)
      exact ⟨c', List.mem_cons_of_mem _ hc', hs', he'⟩

/-- **The first chunk starts at the least free address of the range.** -/
theorem chunks_head_isLeast (h : Boundaries a) (hr : r.Start < r.End) {c : Range}
    {cs : List Range} (hc : chunks r a = c :: cs) :
    IsLeast {x | Covers a x ∧ r.Start ≤ x ∧ x < r.End} c.Start := by
  have hb := chunks_boundaries hr h
  rw [hc] at hb
  refine ⟨?_, fun x hx => ?_⟩
  · have hcov : Covers (boundariesOf (chunks r a)) c.Start := by rw [hc]; exact covers_head hb
    exact (covers_chunks h _).1 hcov
  · have hcov := (covers_chunks h x).2 hx
    rw [hc] at hcov
    exact head_le_of_covers hb hcov

end

/-! ## The callers of `walkFree` -/

variable (s : Space) (r : Range)

/-- `allocate` takes the start of the first chunk, and changes nothing when there is none. -/
theorem allocate_eq :
    s.allocate r = match s.freeChunks r with
      | [] => (s, false, 0)
      | c :: _ => (⟨add s.ours c.Start (c.Start + 1), subtract s.free c.Start (c.Start + 1)⟩,
          true, c.Start) := by
  rw [allocate, walkFree_eq]
  cases s.freeChunks r with
  | nil => rfl
  | cons c cs => rw [foldUntil_cons_of_stop _ rfl]

/-- `biggestFreeRange` returns the empty range when there is no chunk, and otherwise the aligned
block of some chunk: its callback only ever replaces the block it holds by a chunk's block. -/
theorem biggestFreeRange_cases :
    (s.freeChunks r = [] ∧ s.biggestFreeRange r = ⟨0, 0⟩) ∨
      ∃ c ∈ s.freeChunks r, s.biggestFreeRange r = c.biggestCIDRRange := by
  rw [biggestFreeRange, walkFree_eq]
  cases hcs : s.freeChunks r with
  | nil => exact .inl ⟨rfl, rfl⟩
  | cons c cs =>
    refine .inr ?_
    -- the first chunk replaces the empty range, as every size is at least zero
    rw [foldUntil_cons_of_continue _ rfl]
    refine foldUntil_induction _
      (fun st : Range × Count => ∃ c' ∈ c :: cs, st.1 = c'.biggestCIDRRange)
      (fun c'' hc'' st hst => ?_) ⟨c, List.mem_cons_self .., by simp⟩
    obtain ⟨b, sz⟩ := st
    dsimp only
    split_ifs
    · exact ⟨c'', List.mem_cons_of_mem _ hc'', rfl⟩
    · exact hst
    · exact hst

end WeaveNet.Space
