import WeaveNet.Ring.Ops
import WeaveNet.Ring.Valid

/-!
# Seeding an empty ring

`claimForPeers` fills an empty ring with `subdivide`, which halves the range and the list of peers
together and gives each piece it stops at to the first peer of its part. Every entry it inserts
lies above those already there, so `insert` appends (`insert_of_lt`), and the entries it leaves
tile the range in order (`Tiles`): each block is a power of two long, aligned to its length when
the range is, and holds its length as free space. `subdivide_tiles` proves this by induction on
the recursion, with the peers given entries forming a sub-list of the peers, as many as the
smaller of their number and the size of the range.

A tiling of `[Start, End)` is a valid ring (`Tiles.valid`), each of whose entries owns its block.
`claimForPeers_spec` collects what the seeded ring satisfies. Its blocks are CIDR-aligned only
when the range itself is: `claimForPeers_unaligned` is a ring of two addresses from `1`, whose
one block is `[1, 3)`.
-/

namespace WeaveNet.Ring

open Lib

variable {P : Type}

namespace Entries

/-- An entry above all the others goes last. -/
theorem insert_of_lt [Inhabited P] {es : List (Entry P)} {e : Entry P} (h : ∀ x ∈ es, x.Token < e.Token) :
    insert es e = es ++ [e] := by
  have hall : ∀ m, m < es.length → decide ((es.getD m default).Token ≥ e.Token) = false := by
    intro m hm
    rw [List.getD_eq_getElem?_getD, List.getElem?_eq_getElem hm]
    simpa using h _ (List.getElem_mem hm)
  have hs : search es.length (fun j => decide ((es.getD j default).Token ≥ e.Token)) = es.length :=
    search_eq_of_spec (fun a b _ hb ha => absurd ha (by rw [hall a (by omega)]; exact Bool.false_ne_true))
      ⟨Nat.le_refl _, hall, fun h => absurd h (Nat.lt_irrefl _)⟩
  simp only [insert, hs, List.take_length, List.drop_length]

end Entries

/-! ## Tilings -/

/-- Entries tiling `[lo, hi)` in order: each token is where the block before it ends, and each
block is a power of two long, aligned to its length, with its length as the entry's free count. -/
def Tiles : Nat → List (Entry P) → Nat → Prop
  | lo, [], hi => lo = hi
  | lo, e :: es, hi =>
    e.Token.val = lo ∧ (∃ j, e.Free.val = 2 ^ j ∧ 2 ^ j ∣ lo) ∧ Tiles (lo + e.Free.val) es hi

namespace Tiles

variable {lo hi : Nat}

theorem append : ∀ {L₁ L₂ : List (Entry P)} {lo mid hi : Nat},
    Tiles lo L₁ mid → Tiles mid L₂ hi → Tiles lo (L₁ ++ L₂) hi
  | [], _, _, _, _, h₁, h₂ => by
    cases h₁
    exact h₂
  | _ :: _, _, _, _, _, ⟨ht, hb, h₁⟩, h₂ => ⟨ht, hb, append h₁ h₂⟩

/-- Each block of a tiling lies inside the range and is not empty. -/
theorem bounds : ∀ {L : List (Entry P)} {lo hi : Nat}, Tiles lo L hi →
    lo ≤ hi ∧ ∀ x ∈ L, lo ≤ x.Token.val ∧ 0 < x.Free.val ∧ x.Token.val + x.Free.val ≤ hi
  | [], _, _, h => ⟨Nat.le_of_eq h, nofun⟩
  | e :: es, lo, hi, ⟨ht, ⟨j, hj, _⟩, h⟩ => by
    have hpos : 0 < e.Free.val := hj ▸ Nat.two_pow_pos j
    obtain ⟨hle, hrest⟩ := bounds h
    refine ⟨by omega, fun x hx => ?_⟩
    rcases List.mem_cons.1 hx with rfl | hx
    · exact ⟨by omega, hpos, by omega⟩
    · have := hrest x hx
      exact ⟨by omega, this.2.1, this.2.2⟩

theorem sorted : ∀ {L : List (Entry P)} {lo hi : Nat}, Tiles lo L hi →
    L.Pairwise (fun a b => a.Token < b.Token)
  | [], _, _, _ => List.Pairwise.nil
  | e :: es, _, _, ⟨ht, ⟨j, hj, _⟩, h⟩ => by
    have hpos : 0 < e.Free.val := hj ▸ Nat.two_pow_pos j
    refine List.Pairwise.cons (fun x hx => ?_) (sorted h)
    rw [Fin.lt_def]
    have := ((bounds h).2 x hx).1
    omega

theorem aligned : ∀ {L : List (Entry P)} {lo hi : Nat}, Tiles lo L hi →
    ∀ x ∈ L, ∃ j, x.Free.val = 2 ^ j ∧ 2 ^ j ∣ x.Token.val
  | [], _, _, _ => nofun
  | e :: es, _, _, ⟨ht, hb, h⟩ => by
    intro x hx
    rcases List.mem_cons.1 hx with rfl | hx
    · rw [ht]
      exact hb
    · exact aligned h x hx

theorem sum_free : ∀ {L : List (Entry P)} {lo hi : Nat}, Tiles lo L hi →
    (L.map (·.Free.val)).sum = hi - lo
  | [], _, _, h => by
    cases h
    simp
  | e :: es, _, _, ⟨_, _, h⟩ => by
    have := sum_free h
    have := (bounds h).1
    simp only [List.map_cons, List.sum_cons]
    omega

theorem head_token : ∀ {L : List (Entry P)} {lo hi : Nat}, Tiles lo L hi → ∀ (h : 0 < L.length),
    L[0].Token.val = lo
  | _ :: _, _, _, ⟨ht, _, _⟩, _ => ht

/-- Each block ends where the next begins. -/
theorem next_token : ∀ {L : List (Entry P)} {lo hi : Nat}, Tiles lo L hi →
    ∀ (i : Nat) (_ : i < L.length) (h : i + 1 < L.length),
      L[i + 1].Token.val = L[i].Token.val + L[i].Free.val
  | e :: es, _, _, ⟨ht, _, h⟩, 0, _, hi => by
    simpa [ht] using head_token h (by simp at hi; omega)
  | _ :: es, _, _, ⟨_, _, h⟩, i + 1, _, hi => by
    simpa using next_token h i (by simp at hi; omega) (by simp at hi; omega)

/-- The last block ends at the end of the range. -/
theorem last_end : ∀ {L : List (Entry P)} {lo hi : Nat}, Tiles lo L hi →
    ∀ (h : L.length - 1 < L.length), L[L.length - 1].Token.val + L[L.length - 1].Free.val = hi
  | [e], _, _, ⟨ht, _, h⟩, _ => by
    cases h
    simp [ht]
  | _ :: e' :: es, _, _, ⟨_, _, h⟩, _ => by
    simpa using last_end h (by simp)

end Tiles

/-! ## The ring a tiling makes -/

/-- The distance from one block to the next is the block's length. -/
theorem distance_of_lt (r : Ring P) {a b : Address} (h : a < b) : (r.distance a b).val = b.val - a.val := by
  rw [distance, if_pos h, Fin.coe_sub_iff_le.2 h.le]

/-- The distance from the last block round to the first token `Start` is what is left up to `End`. -/
theorem distance_to_start (r : Ring P) {a : Address} (hs : r.Start ≤ a) (he : a < r.End) :
    (r.distance a r.Start).val = r.End.val - a.val := by
  rw [distance, if_neg (not_lt.2 hs), Fin.val_add, Fin.coe_sub_iff_le.2 he.le, Fin.sub_self]
  simp only [Fin.val_zero, Nat.add_zero]
  exact Nat.mod_eq_of_lt (by omega)

/-- **A tiling of `[Start, End)` makes a valid ring**, each entry's free count being exactly the
distance to the next token. -/
theorem Tiles.valid [Inhabited P] {r : Ring P} (ht : Tiles r.Start.val r.Entries r.End.val)
    (hn : 0 < r.Entries.length) :
    r.Valid ∧ ∀ (i : Nat) (h : i < r.Entries.length),
      r.Entries[i].Free = r.distance r.Entries[i].Token (Entries.entry r.Entries (i + 1)).Token := by
  have hb := ht.bounds
  have hfree : ∀ (i : Nat) (h : i < r.Entries.length),
      r.Entries[i].Free = r.distance r.Entries[i].Token (Entries.entry r.Entries (i + 1)).Token := by
    intro i hi
    have hx := hb.2 _ (List.getElem_mem hi)
    apply Fin.ext
    by_cases hlast : i + 1 < r.Entries.length
    · -- the next block starts where this one ends
      rw [show ((i : Int) + 1) = ((i + 1 : Nat) : Int) by omega, Entries.entry_of_lt hlast,
        distance_of_lt r (Fin.lt_def.2 (by rw [ht.next_token i hi hlast]; omega)),
        ht.next_token i hi hlast]
      omega
    · -- the last block runs to `End`, and the next token is the first, `Start`
      have hi' : i = r.Entries.length - 1 := by omega
      subst hi'
      rw [show ((r.Entries.length - 1 : Nat) : Int) + 1 = ((r.Entries.length : Nat) : Int) by omega,
        Entries.entry_length hn, Fin.ext (ht.head_token hn),
        distance_to_start r (Fin.le_def.2 hx.1) (Fin.lt_def.2 (by omega)), ← ht.last_end hi]
      omega
  refine ⟨⟨ht.sorted, fun e he => Fin.le_def.2 (hb.2 e he).1, fun e he => Fin.lt_def.2 ?_,
    fun i hi => (hfree i hi).le⟩, hfree⟩
  have := hb.2 e he
  omega

/-! ## What `subdivide` leaves -/

/-- A range of `2 ^ k` addresses that does not wrap has `Length` `2 ^ k`. -/
theorem length_of_eq_add {fromA toA : Address} {k : Nat} (hsize : toA.val = fromA.val + 2 ^ k) :
    (Address.length toA fromA).val = 2 ^ k := by
  have := Nat.two_pow_pos k
  rw [Address.length, Fin.coe_sub_iff_le.2 (Fin.le_def.2 (by omega))]
  omega

/-- `subdivide` cuts such a range of `2 ^ (k + 1)` addresses in the middle, in both of the
source's forms: half its length past the start, and that again past the length's remainder
mod 2, which is 0. -/
theorem mid_of_eq_add {fromA toA : Address} {k : Nat} (hsize : toA.val = fromA.val + 2 ^ (k + 1)) :
    let mid := Address.add fromA (Address.length toA fromA / 2)
    mid.val = fromA.val + 2 ^ k ∧
      (Address.add mid (Address.length toA fromA % 2)).val = fromA.val + 2 ^ k := by
  intro mid
  have hshare := length_of_eq_add hsize
  have hpow : 2 ^ (k + 1) = 2 * 2 ^ k := by rw [Nat.pow_succ, Nat.mul_comm]
  have hbound : toA.val < 2 ^ 32 := toA.isLt
  have hmid : mid.val = fromA.val + 2 ^ k := by
    simp only [mid, Address.add, Fin.val_add, Fin.div_val, hshare]
    rw [show (2 : Address).val = 2 from rfl, hpow, Nat.mul_div_cancel_left _ (by decide)]
    exact Nat.mod_eq_of_lt (by omega)
  -- the length is even, so the second form adds nothing
  have hodd : (Address.length toA fromA % 2).val = 0 := by
    rw [Fin.mod_val, hshare, show (2 : Address).val = 2 from rfl, hpow, Nat.mul_mod_right]
  refine ⟨hmid, ?_⟩
  simp only [Address.add, Fin.val_add, hodd, Nat.add_zero, hmid]
  exact Nat.mod_eq_of_lt (by omega)

section Subdivide

/-- **`subdivide` tiles its range.** Starting from entries below `from`, it appends entries that
tile `[from, to)`, whose peers are a sub-list of `peers`, as many as the smaller of their number
and the size `2 ^ k` of the range. The recursion budget must be at least the number of peers. -/
theorem subdivide_tiles [Inhabited P] : ∀ (depth k : Nat) (fromA toA : Address) (peers : List P)
    (es : List (Entry P)), toA.val = fromA.val + 2 ^ k → 2 ^ k ∣ fromA.val →
    0 < peers.length → peers.length ≤ depth → (∀ x ∈ es, x.Token.val < fromA.val) →
    ∃ L, Ring.subdivide fromA toA peers es depth = es ++ L ∧ Tiles fromA.val L toA.val ∧
      (L.map (·.Peer)).Sublist peers ∧ L.length = min peers.length (2 ^ k)
  | 0, _, _, _, _, _, _, _, hp, hd, _ => absurd hd (by omega)
  | depth + 1, k, fromA, toA, peers, es, hsize, halign, hp, hd, hes => by
    have hshare := length_of_eq_add hsize
    have hne : Address.length toA fromA ≠ 0 := fun h0 => by
      have := Nat.two_pow_pos k
      rw [h0] at hshare
      simp at hshare
      omega
    rw [Ring.subdivide.eq_def]
    simp only [if_neg hne]
    split
    · -- one piece: the whole range goes to the first peer
      next hbase =>
      obtain ⟨p, ps, rfl⟩ : ∃ p ps, peers = p :: ps := List.exists_cons_of_length_pos hp
      simp only
      rw [Entries.insert_of_lt (fun x hx => Fin.lt_def.2 (hes x hx))]
      refine ⟨_, rfl, ⟨rfl, ⟨k, hshare, halign⟩, by rw [hshare, hsize]; rfl⟩, by simp, ?_⟩
      -- a single address, or a single peer
      rcases hbase with h1 | h1
      · have hk : 2 ^ k = 1 := by rw [← hshare, h1]; rfl
        simp [hk]
      · simp only [List.length_cons, List.length_nil] at h1 ⊢
        have := Nat.one_le_two_pow (n := k)
        omega
    · next hbase =>
      -- two halves, with half of the peers each
      have hn2 : 2 ≤ peers.length := by
        rcases Nat.lt_or_ge peers.length 2 with h | h
        · exact absurd (Or.inr (by omega)) hbase
        · exact h
      have hk : 1 ≤ k := by
        rcases Nat.eq_zero_or_pos k with rfl | h
        · exact absurd (Or.inl (Fin.ext (by simpa using hshare))) hbase
        · exact h
      obtain ⟨k', rfl⟩ : ∃ k', k = k' + 1 := ⟨k - 1, by omega⟩
      have hpow : 2 ^ (k' + 1) = 2 * 2 ^ k' := by rw [Nat.pow_succ, Nat.mul_comm]
      let mid := Address.add fromA (Address.length toA fromA / 2)
      let mid' := Address.add mid (Address.length toA fromA % 2)
      obtain ⟨hmid, hmid'⟩ : mid.val = fromA.val + 2 ^ k' ∧ mid'.val = fromA.val + 2 ^ k' :=
        mid_of_eq_add hsize
      have hal : 2 ^ k' ∣ fromA.val := Nat.dvd_trans ⟨2, by rw [hpow, Nat.mul_comm]⟩ halign
      obtain ⟨L₁, h₁, ht₁, hs₁, hl₁⟩ := subdivide_tiles depth k' fromA mid
        (peers.take (peers.length / 2)) es hmid hal (by simp; omega)
        (by simp; omega) hes
      -- the left half's entries all lie below the middle
      have hbelow : ∀ x ∈ es ++ L₁, x.Token.val < mid'.val := by
        intro x hx
        rw [hmid']
        rcases List.mem_append.1 hx with hx | hx
        · have := hes x hx
          omega
        · have := ht₁.bounds.2 x hx
          rw [hmid] at this
          omega
      obtain ⟨L₂, h₂, ht₂, hs₂, hl₂⟩ := subdivide_tiles depth k' mid' toA
        (peers.drop (peers.length / 2)) (es ++ L₁) (by rw [hmid', hsize, hpow]; omega)
        (by rw [hmid']; exact Nat.dvd_add hal (Nat.dvd_refl _)) (by simp; omega) (by simp; omega)
        hbelow
      refine ⟨L₁ ++ L₂, ?_, ?_, ?_, ?_⟩
      · simp only [mid, mid'] at h₁ h₂
        simp only [h₁, h₂, List.append_assoc]
      · rw [hmid] at ht₁
        rw [hmid'] at ht₂
        exact ht₁.append ht₂
      · have hsub := hs₁.append hs₂
        rwa [List.take_append_drop, ← List.map_append] at hsub
      · simp only [List.length_append, hl₁, hl₂, List.length_take, List.length_drop, hpow]
        omega

end Subdivide

/-! ## The seeded ring -/

/-- **Seeding an empty ring** whose range `[Start, End)` is a block of `2 ^ k` addresses aligned to
its size, for a non-empty list of distinct peers: the ring passes `checkInvariants`, has a token at
`Start`, gives an entry to each of `min (length peers) (End - Start)` of the peers and to no peer
twice, makes each entry's range a power of two long, aligned to its length and with its length as
free space, and its free counts add up to the size of the range. -/
theorem claimForPeers_spec [Inhabited P] {r : Ring P} {peers : List P} {k : Nat}
    (hempty : r.Entries = []) (hsize : r.End.val = r.Start.val + 2 ^ k)
    (halign : 2 ^ k ∣ r.Start.val) (hp : peers ≠ []) (hnd : peers.Nodup) :
    let r' := r.claimForPeers peers
    r'.checkInvariants = .ok () ∧
      (∃ e ∈ r'.Entries, e.Token = r.Start) ∧
      (r'.Entries.map (·.Peer)).Nodup ∧ (∀ e ∈ r'.Entries, e.Peer ∈ peers) ∧
      r'.Entries.length = min peers.length (r.End.val - r.Start.val) ∧
      (∀ (i : Nat) (h : i < r'.Entries.length),
        let len := r'.distance r'.Entries[i].Token (Entries.entry r'.Entries (i + 1)).Token
        (∃ j, len.val = 2 ^ j) ∧ len.val ∣ r'.Entries[i].Token.val ∧ r'.Entries[i].Free = len) ∧
      (r'.Entries.map (·.Free.val)).sum = r.End.val - r.Start.val := by
  intro r'
  have hlen : 0 < peers.length := List.length_pos_iff.2 hp
  obtain ⟨L, hsub, ht, hs, hl⟩ :=
    subdivide_tiles peers.length k r.Start r.End peers r.Entries hsize halign hlen (Nat.le_refl _)
      (by simp [hempty])
  -- the seeded entries are the tiling
  have hL : r'.Entries = L := by
    simp only [r', claimForPeers]
    rw [hsub, hempty, List.nil_append]
  have hn : 0 < r'.Entries.length := by
    rw [hL, hl]
    exact Nat.lt_min.2 ⟨hlen, Nat.two_pow_pos k⟩
  have ht' : Tiles r'.Start.val r'.Entries r'.End.val := by
    rw [hL]
    exact ht
  obtain ⟨hv, hfree⟩ := Tiles.valid ht' hn
  have hsz : r.End.val - r.Start.val = 2 ^ k := by omega
  refine ⟨checkInvariants_eq_ok.2 hv, ⟨_, List.getElem_mem hn, Fin.ext (ht'.head_token hn)⟩,
    by rw [hL]; exact hs.nodup hnd, fun e he => hs.subset (List.mem_map_of_mem (hL ▸ he)),
    by rw [hL, hl, hsz], fun i hi => ?_, by rw [← hL] at ht; rw [ht.sum_free]⟩
  -- each entry's range is its block
  obtain ⟨j, hj, hdvd⟩ := ht'.aligned _ (List.getElem_mem hi)
  rw [← hfree i hi]
  exact ⟨⟨j, hj⟩, hj ▸ hdvd, rfl⟩

/-- A witness of `claimForPeers_spec`: the ring over `[0, 4)` seeded for three peers. -/
theorem claimForPeers_spec_four :
    (Ring.new 0 4 0 : Ring Nat).Entries = [] ∧ (4 : Address).val = (0 : Address).val + 2 ^ 2 ∧
      2 ^ 2 ∣ (0 : Address).val ∧ [1, 2, 3] ≠ ([] : List Nat) ∧ [1, 2, 3].Nodup ∧
      let r' := (Ring.new 0 4 0 : Ring Nat).claimForPeers [1, 2, 3]
      r'.checkInvariants = .ok () ∧
        (∃ e ∈ r'.Entries, e.Token = (Ring.new 0 4 0 : Ring Nat).Start) ∧
        (r'.Entries.map (·.Peer)).Nodup ∧ (∀ e ∈ r'.Entries, e.Peer ∈ [1, 2, 3]) ∧
        r'.Entries.length = min [1, 2, 3].length
          ((Ring.new 0 4 0 : Ring Nat).End.val - (Ring.new 0 4 0 : Ring Nat).Start.val) ∧
        (∀ (i : Nat) (h : i < r'.Entries.length),
          let len := r'.distance r'.Entries[i].Token (Entries.entry r'.Entries (i + 1)).Token
          (∃ j, len.val = 2 ^ j) ∧ len.val ∣ r'.Entries[i].Token.val ∧ r'.Entries[i].Free = len) ∧
        (r'.Entries.map (·.Free.val)).sum =
          (Ring.new 0 4 0 : Ring Nat).End.val - (Ring.new 0 4 0 : Ring Nat).Start.val :=
  ⟨rfl, by decide, by decide, by decide, by decide,
    claimForPeers_spec (k := 2) rfl (by decide) (by decide) (by decide) (by decide)⟩

/-- **A range that is not aligned gives an unaligned block.** Seeding the ring of the two addresses
`[1, 3)` for one peer gives it one entry, whose range `[1, 3)` is `2` long and starts at `1`. -/
theorem claimForPeers_unaligned :
    let r := (Ring.new 1 3 0 : Ring Nat).claimForPeers [7]
    r.Entries = [⟨1, 7, 0, 2⟩] ∧ (r.distance 1 (Entries.entry r.Entries 1).Token).val = 2 ∧
      ¬2 ∣ (1 : Nat) := by
  decide

end WeaveNet.Ring
