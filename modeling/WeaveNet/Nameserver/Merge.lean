import Mathlib
import WeaveNet.Lib.UnionWith
import WeaveNet.Nameserver.Check

/-!
# The merge of gossip

`Entries.merge` inserts the incoming entries, one at a time, into our sorted list, passing over
ours below each and merging it into an `equal` one where it finds one. When `equal` means "of one
key", which holds when every hostname is written as the order reads it (`lHostname`), this is the
union of two lists sorted by the key (`Lib.unionWith`), two entries of one key combined by
`Entry.merge`, which keeps the higher version and then the later tombstone (`Entry.merged`):

* one step of the loop passes over the entries below the incoming one (`skipBelow_eq`), then either
  merges it into the entry found or inserts it there (`mergeLoop_of_equal`,
  `mergeLoop_of_insert`); by induction on the incoming entries the loop computes the union
  (`mergeLoop_fst`);
* a list that passes the check and whose hostnames are so written (`Plain`) has no key twice, so
  the merge of two of them never panics and is again one (`merge_plain`);
* `Entry.merged` keeps an entry and takes the greater of the two `(Version, Tombstone)` stamps, so
  on such entries it is commutative, associative and idempotent, and so is `GossipData.Merge`
  (`gossipMerge_join`): the gossip of the mesh converges whatever the order it arrives in.

`merge_self_duplicates` is what happens without the condition: a case variant of a hostname
stops the scan before an `equal` entry, and `Merge` of a gossip with itself grows.
-/

namespace WeaveNet.Nameserver

open Lib

namespace Entry

/-- The version and the tombstone, the part of an entry that `merge` decides by. -/
def stamp (e : Entry) : Lex (Int × Int) := toLex (e.Version, e.Tombstone)

/-- What `merge` leaves of `e1` with `e2` merged in. -/
def merged (e1 e2 : Entry) : Entry := (e1.merge e2).2

/-- An entry is its stripped entry and its stamp. -/
theorem ext_strip_stamp {a b : Entry} (hs : a.strip = b.strip) (ht : a.stamp = b.stamp) : a = b := by
  obtain ⟨c, o, ad, h, l, v, t⟩ := a
  obtain ⟨c', o', ad', h', l', v', t'⟩ := b
  simp only [strip, Entry.mk.injEq, and_true] at hs
  simp only [stamp, toLex_inj, Prod.mk.injEq] at ht
  obtain ⟨rfl, rfl, rfl, rfl, rfl⟩ := hs
  obtain ⟨rfl, rfl⟩ := ht
  rfl

@[simp] theorem strip_merged (e1 e2 : Entry) : (e1.merged e2).strip = e1.strip := by
  unfold merged Entry.merge
  split_ifs <;> rfl

@[simp] theorem key_merged (e1 e2 : Entry) : (e1.merged e2).key = e1.key := by
  rw [← key_strip, strip_merged, key_strip]

@[simp] theorem lHostname_merged (e1 e2 : Entry) : (e1.merged e2).lHostname = e1.lHostname :=
  lHostname_eq_of_strip (strip_merged e1 e2)

@[simp] theorem Hostname_merged (e1 e2 : Entry) : (e1.merged e2).Hostname = e1.Hostname :=
  Hostname_eq_of_strip (strip_merged e1 e2)

/-- `merge` takes the greater stamp. -/
theorem stamp_merged (e1 e2 : Entry) : (e1.merged e2).stamp = max e1.stamp e2.stamp := by
  unfold merged Entry.merge stamp
  split_ifs with h1 h2
  · -- a higher version wins
    rw [max_eq_right (Prod.Lex.toLex_lt_toLex.2 (.inl h1)).le]
  · rw [max_eq_right (Prod.Lex.toLex_lt_toLex.2 (.inr ⟨h2.1.symm, h2.2⟩)).le, h2.1]
  · -- no higher version, and no later tombstone at the same version
    refine (max_eq_left (Prod.Lex.toLex_le_toLex.2 ?_)).symm
    simp only [gt_iff_lt, not_lt, not_and] at h1 h2
    rcases h1.lt_or_eq with h | h
    · exact .inl h
    · exact .inr ⟨h, h2 h⟩

theorem merged_self (e : Entry) : e.merged e = e :=
  ext_strip_stamp (strip_merged e e) (by rw [stamp_merged, max_self])

/-- Entries whose hostnames are written as the order reads them are `equal` exactly when they have
one key, and then they differ at most in their stamps. -/
theorem equal_iff_key_eq {a b : Entry} (ha : a.lHostname = a.Hostname) (hb : b.lHostname = b.Hostname) :
    a.equal b = true ↔ a.key = b.key := by
  rw [equal_eq_true_iff]
  simp only [key, toLex_inj, Prod.mk.injEq, ← ha, ← hb]
  tauto

theorem strip_eq_of_key_eq {a b : Entry} (ha : a.lHostname = a.Hostname) (hb : b.lHostname = b.Hostname)
    (h : a.key = b.key) : a.strip = b.strip := by
  have hab := (equal_iff_key_eq ha hb).2 h
  rw [equal_eq_true_iff] at hab
  obtain ⟨hc, ho, had, hh⟩ := hab
  simp only [strip, hc, ho, had, hh, Entry.mk.injEq, true_and, and_true]
  rw [ha, hb, hh]

/-- Merging is commutative on entries of one key whose hostnames are written as the order reads
them: they differ only in their stamps. -/
theorem merged_comm {x y : Entry} (hx : x.lHostname = x.Hostname) (hy : y.lHostname = y.Hostname)
    (h : x.key = y.key) : x.merged y = y.merged x :=
  ext_strip_stamp (by rw [strip_merged, strip_merged, strip_eq_of_key_eq hx hy h])
    (by rw [stamp_merged, stamp_merged, max_comm])

/-- Merging is associative: it keeps the first entry and the greatest stamp. -/
theorem merged_assoc (x y z : Entry) : (x.merged y).merged z = x.merged (y.merged z) :=
  ext_strip_stamp (by simp only [strip_merged])
    (by rw [stamp_merged, stamp_merged, stamp_merged, stamp_merged, max_assoc])

theorem key_eq_of_strip {a b : Entry} (h : a.strip = b.strip) : a.key = b.key := by
  rw [← key_strip, h, key_strip]

end Entry

/-- Hostnames written as the order reads them, in a list that passes the check. -/
structure Plain (es : Entries) : Prop where
  checked : Checked es
  cased : ∀ e ∈ es, e.lHostname = e.Hostname

/-- Neighbours sorted by key and not `equal` rise strictly, when `equal` means "of one key". -/
theorem isChain_key_lt : ∀ {es : Entries}, (∀ e ∈ es, e.lHostname = e.Hostname) →
    (es.IsChain fun a b => a.key ≤ b.key) → (es.IsChain fun a b => b.equal a = false) →
      es.IsChain fun a b => a.key < b.key
  | [], _, _, _ => .nil
  | [_], _, _, _ => List.isChain_singleton _
  | a :: b :: rest, hc, h1, h2 => by
    rw [List.isChain_cons_cons] at h1 h2 ⊢
    refine ⟨lt_of_le_of_ne h1.1 fun heq => ?_,
      isChain_key_lt (fun e he => hc e (List.mem_cons_of_mem a he)) h1.2 h2.2⟩
    have hba := (Entry.equal_iff_key_eq (hc b (by simp)) (hc a (by simp))).2 heq.symm
    rw [h2.1] at hba
    exact Bool.false_ne_true hba

namespace Plain

variable {es : Entries}

/-- **No key twice.** The check's sorted chain, with no neighbours `equal`, rises strictly when
`equal` means "of one key". -/
theorem strict (h : Plain es) : es.Pairwise fun a b => a.key < b.key := by
  have hchain := isChain_key_lt h.cased (isChain_key_iff.2 h.checked.sorted) h.checked.neighbours
  rwa [← List.isChain_map Entry.key, List.isChain_iff_pairwise, List.pairwise_map] at hchain

/-- A strictly sorted list of such entries passes the check. -/
theorem of_strict (hs : es.Pairwise fun a b => a.key < b.key) (hc : ∀ e ∈ es, e.lHostname = e.Hostname) :
    Plain es := by
  refine ⟨⟨hs.imp le_of_lt, ?_⟩, hc⟩
  refine List.Pairwise.isChain (R := fun a b : Entry => b.equal a = false) ?_
  refine List.Pairwise.imp_of_mem (fun {a b} ha hb hab => ?_) hs
  cases hba : b.equal a with
  | false => rfl
  | true => exact absurd ((Entry.equal_iff_key_eq (hc b hb) (hc a ha)).1 hba) (ne_of_gt hab)

/-- No two entries of such a list are `equal`. -/
theorem valid (h : Plain es) : es.Valid := by
  refine ⟨isSorted_iff.2 (isChain_key_iff.2 h.checked.sorted), ?_⟩
  refine List.Pairwise.imp_of_mem (fun {a b} ha hb hab => ?_) h.strict
  cases hab' : a.equal b with
  | false => rfl
  | true => exact absurd ((Entry.equal_iff_key_eq (h.cased a ha) (h.cased b hb)).1 hab') (ne_of_lt hab)

/-- What a filter keeps of such a list is one. -/
theorem filter (h : Plain es) (p : Entry → Bool) : Plain (List.filter p es) :=
  of_strict (h.strict.sublist List.filter_sublist) fun e he => h.cased e (List.mem_filter.1 he).1

/-- A map that rewrites no entry but its stamp keeps such a list one. -/
theorem map (h : Plain es) {g : Entry → Entry} (hg : ∀ e ∈ es, (g e).strip = e.strip) :
    Plain (es.map g) := by
  refine of_strict ?_ ?_
  · rw [List.pairwise_map]
    refine List.Pairwise.imp_of_mem (fun {a b} ha hb hab => ?_) h.strict
    rwa [Entry.key_eq_of_strip (hg a ha), Entry.key_eq_of_strip (hg b hb)]
  · intro e' he'
    obtain ⟨e, he, rfl⟩ := List.mem_map.1 he'
    rw [Entry.lHostname_eq_of_strip (hg e he), Entry.Hostname_eq_of_strip (hg e he)]
    exact h.cased e he

/-- The union of two such lists, entries of one key merged, is one. -/
theorem unionWith {xs ys : Entries} (hx : Plain xs) (hy : Plain ys) :
    Plain (Lib.unionWith Entry.key Entry.merged xs ys) := by
  refine of_strict (pairwise_unionWith (fun x y _ => Entry.key_merged x y) hx.strict hy.strict)
    fun z hz => ?_
  rcases mem_unionWith hz with hz | hz | ⟨x, hx', y, -, rfl⟩
  · exact hx.cased z hz
  · exact hy.cased z hz
  · rw [Entry.lHostname_merged, Entry.Hostname_merged]
    exact hx.cased x hx'

end Plain

/-! ## The merge loop -/

namespace Entries

/-- The entries of `rest` below the incoming one, which the scan passes over, and the others. -/
theorem exists_below (rest : Entries) (entry : Entry) :
    ∃ below rest', rest = below ++ rest' ∧ (∀ x ∈ below, x.key < entry.key) ∧
      ∀ r ∈ rest'.head?, ¬ r.key < entry.key := by
  refine ⟨rest.takeWhile (·.insensitiveLess entry), rest.dropWhile (·.insensitiveLess entry),
    List.takeWhile_append_dropWhile.symm, fun x hx => ?_, fun r hr => ?_⟩
  · have hlt := List.mem_takeWhile_imp hx
    rw [Entry.insensitiveLess_eq] at hlt
    simpa using hlt
  · cases hd : rest.dropWhile (·.insensitiveLess entry) with
    | nil => simp [hd] at hr
    | cons r' t =>
      have hnot := List.head_dropWhile_not (·.insensitiveLess entry) (l := rest) (by simp [hd])
      simp only [hd, List.head?_cons, Option.mem_def, Option.some.injEq] at hr hnot
      subst hr
      rw [List.head_cons, Entry.insensitiveLess_eq] at hnot
      simpa using hnot

/-- The scan of one incoming entry passes over the entries of `pre` from `i` on and over those of
`below`, all below it, and stops at the first of `rest`, not below it. -/
theorem skipBelow_eq {pre below rest : Entries} {entry : Entry} {i : Nat} (hi : i ≤ pre.length)
    (hpre : ∀ x ∈ pre.drop i, x.key < entry.key) (hbelow : ∀ x ∈ below, x.key < entry.key)
    (hrest : ∀ r ∈ rest.head?, ¬ r.key < entry.key) :
    skipBelow (pre ++ below ++ rest) entry i = (pre ++ below).length := by
  have hp : ∀ x : Entry, x.key < entry.key → x.insensitiveLess entry = true := fun x hx => by
    rw [Entry.insensitiveLess_eq]
    exact decide_eq_true hx
  have hstop : rest.takeWhile (·.insensitiveLess entry) = [] := by
    cases rest with
    | nil => rfl
    | cons r rest =>
      refine List.takeWhile_cons_of_neg ?_
      rw [Entry.insensitiveLess_eq]
      simpa using hrest r rfl
  unfold skipBelow
  rw [List.append_assoc, List.drop_append_of_le_length hi,
    List.takeWhile_append_of_pos fun x hx => hp x (hpre x hx),
    List.takeWhile_append_of_pos fun x hx => hp x (hbelow x hx), hstop]
  simp only [List.append_nil, List.length_append, List.length_drop]
  omega

/-- A step of the loop that finds an `equal` entry merges the incoming one into it. -/
theorem mergeLoop_of_equal {es : Entries} {i : Nat} {entry e : Entry} {incoming acc : Entries}
    (he : es[skipBelow es entry i]? = some e) (heq : e.equal entry = true) :
    mergeLoop es i (entry :: incoming) acc =
      mergeLoop (es.set (skipBelow es entry i) (e.merged entry)) (skipBelow es entry i) incoming
        (if (e.merge entry).1 then acc ++ [entry] else acc) := by
  cases hm : e.merge entry with
  | mk changed e' => simp [mergeLoop, he, heq, hm, Entry.merged]

/-- A step of the loop that finds no `equal` entry inserts the incoming one where it stopped. -/
theorem mergeLoop_of_insert {es : Entries} {i : Nat} {entry : Entry} {incoming acc : Entries}
    (hins : ∀ e, es[skipBelow es entry i]? = some e → e.equal entry = false) :
    mergeLoop es i (entry :: incoming) acc =
      mergeLoop (es.take (skipBelow es entry i) ++ entry :: es.drop (skipBelow es entry i))
        (skipBelow es entry i) incoming (acc ++ [entry]) := by
  cases he : es[skipBelow es entry i]? with
  | none => simp [mergeLoop, he]
  | some e => simp [mergeLoop, he, hins e he]

/-- **The merge loop computes the union.** From index `i` of `pre ++ rest`, the entries of `pre`
from `i` on below every incoming one, the loop leaves `pre` as it is and merges the incoming
entries, strictly sorted, into `rest`, when an entry of `rest` and an incoming one are `equal`
exactly when they have one key. Induction on the incoming entries: each is merged into, or
inserted before, the first entry of `rest` not below it, which becomes the last of `pre`. -/
theorem mergeLoop_fst : ∀ {incoming : Entries}, incoming.Pairwise (fun a b => a.key < b.key) →
    ∀ (pre rest : Entries) (i : Nat) (acc : Entries), i ≤ pre.length →
      (∀ x ∈ pre.drop i, ∀ y ∈ incoming, x.key < y.key) →
      (∀ x ∈ rest, ∀ y ∈ incoming, x.equal y = true ↔ x.key = y.key) →
      (mergeLoop (pre ++ rest) i incoming acc).1 = pre ++ unionWith Entry.key Entry.merged rest incoming
  | [], _, pre, rest, i, acc, _, _, _ => by simp [mergeLoop]
  | entry :: incoming, hinc, pre, rest, i, acc, hi, hpre, hcomb => by
    obtain ⟨hentry, hinc⟩ := List.pairwise_cons.1 hinc
    obtain ⟨below, rest, rfl, hbelow, hhead⟩ := exists_below rest entry
    have hskip := skipBelow_eq hi (fun x hx => hpre x hx entry (by simp)) hbelow hhead
    rw [append_unionWith_of_lt _ hbelow, ← List.append_assoc, ← List.append_assoc]
    -- an entry of the incoming one's key, placed at the stop, is below every later incoming one
    have hplaced : ∀ m : Entry, m.key = entry.key →
        ∀ x ∈ (pre ++ below ++ [m]).drop (pre ++ below).length, ∀ y ∈ incoming, x.key < y.key := by
      intro m hm x hx y hy
      rw [List.drop_left' rfl, List.mem_singleton] at hx
      rw [hx, hm]
      exact hentry y hy
    cases rest with
    | nil =>
      -- nothing left: the entry goes last
      simp only [List.append_nil] at hskip ⊢
      have hloop := mergeLoop_fst hinc (pre ++ below ++ [entry]) [] (pre ++ below).length (acc ++ [entry])
        (by simp) (hplaced entry rfl) (by simp)
      rw [List.append_nil] at hloop
      rw [mergeLoop_of_insert fun e he => by rw [hskip] at he; simp at he, hskip, List.take_length,
        List.drop_length, hloop]
      simp
    | cons r rest =>
      have hr : ¬ r.key < entry.key := hhead r rfl
      have hcomb' : ∀ x ∈ rest, ∀ y ∈ incoming, x.equal y = true ↔ x.key = y.key :=
        fun x hx y hy => hcomb x (by simp [hx]) y (by simp [hy])
      have hat : (pre ++ below ++ r :: rest)[skipBelow (pre ++ below ++ r :: rest) entry i]? = some r := by
        rw [hskip]
        simp
      by_cases heq : r.equal entry = true
      · -- merged into the entry of its key
        have hkey : r.key = entry.key := (hcomb r (by simp) entry (by simp)).1 heq
        have hset : (pre ++ below ++ r :: rest).set (pre ++ below).length (r.merged entry) =
            pre ++ below ++ [r.merged entry] ++ rest := by
          rw [List.set_append_right _ _ le_rfl]
          simp
        rw [mergeLoop_of_equal hat heq, hskip, hset,
          mergeLoop_fst hinc _ rest _ _ (by simp) (hplaced _ ((Entry.key_merged r entry).trans hkey)) hcomb',
          unionWith_cons_of_eq _ _ hkey]
        simp
      · -- inserted before the first entry above it
        have hne : r.key ≠ entry.key := fun h => heq ((hcomb r (by simp) entry (by simp)).2 h)
        have hgt : entry.key < r.key := lt_of_le_of_ne (not_lt.1 hr) hne.symm
        have hins : ∀ e, (pre ++ below ++ r :: rest)[skipBelow (pre ++ below ++ r :: rest) entry i]? = some e →
            e.equal entry = false := by
          intro e he
          rw [hat, Option.some.injEq] at he
          subst he
          exact Bool.eq_false_iff.2 heq
        rw [mergeLoop_of_insert hins, hskip, List.take_left' rfl, List.drop_left' rfl,
          show pre ++ below ++ entry :: r :: rest = pre ++ below ++ [entry] ++ r :: rest by simp,
          mergeLoop_fst hinc _ (r :: rest) _ _ (by simp) (hplaced entry rfl)
            fun x hx y hy => hcomb x (by simp [hx]) y (by simp [hy]),
          unionWith_cons_of_gt _ _ hgt]
        simp

/-- **The merge of plain lists.** `merge` of two plain lists does not panic: it returns their union,
entries of one key merged, which is again plain. -/
theorem merge_plain {es incoming : Entries} (ha : Plain es) (hb : Plain incoming) :
    ∃ news, es.merge incoming = .ok (unionWith Entry.key Entry.merged es incoming, news) := by
  have hloop := mergeLoop_fst hb.strict [] es 0 [] le_rfl (by simp)
    fun x hx y hy => Entry.equal_iff_key_eq (ha.cased x hx) (hb.cased y hy)
  rw [List.nil_append, List.nil_append] at hloop
  cases hm : mergeLoop es 0 incoming [] with
  | mk l news =>
    rw [hm] at hloop
    subst hloop
    refine ⟨news, ?_⟩
    simp [merge, checkAndPanic_eq_ok_iff.2 ha.checked, checkAndPanic_eq_ok_iff.2 hb.checked, hm,
      checkAndPanic_eq_ok_iff.2 (ha.unionWith hb).checked, bind, Except.bind, pure, Except.pure]

end Entries

/-! ## Gossip converges -/

/-- `Merge` of plain gossip: the later timestamp, and the union of the entries. -/
theorem gossipMerge_eq {a b : GossipData} (ha : Plain a.Entries) (hb : Plain b.Entries) :
    a.Merge b = .ok ⟨max a.Timestamp b.Timestamp, unionWith Entry.key Entry.merged a.Entries b.Entries⟩ := by
  obtain ⟨news, hm⟩ := Entries.merge_plain ha hb
  simp [GossipData.Merge, hm, bind, Except.bind, pure, Except.pure]

/-- **Gossip merges as a join.** On gossip whose hostnames are written as the order reads them,
`GossipData.Merge` never panics and is idempotent, commutative and associative, and its results
are again such gossip: peers that receive the same messages, in any order and any number of times,
hold the same entries. -/
theorem gossipMerge_join {a b c : GossipData} (ha : Plain a.Entries) (hb : Plain b.Entries)
    (hc : Plain c.Entries) :
    a.Merge a = .ok a ∧
      (∃ ab, a.Merge b = .ok ab ∧ b.Merge a = .ok ab ∧ Plain ab.Entries) ∧
      (a.Merge b >>= fun ab => ab.Merge c) = (b.Merge c >>= fun bc => a.Merge bc) := by
  refine ⟨?_, ⟨_, gossipMerge_eq ha hb, ?_, ha.unionWith hb⟩, ?_⟩
  · rw [gossipMerge_eq ha ha, unionWith_self fun x _ => Entry.merged_self x, max_self]
  · rw [gossipMerge_eq hb ha, max_comm,
      unionWith_comm fun y hy x hx h => Entry.merged_comm (hb.cased y hy) (ha.cased x hx) h]
  · -- both sides merge the three lists, in either grouping
    rw [gossipMerge_eq ha hb, gossipMerge_eq hb hc]
    simp only [bind, Except.bind]
    rw [gossipMerge_eq (a := ⟨_, _⟩) (ha.unionWith hb) hc, gossipMerge_eq (b := ⟨_, _⟩) ha (hb.unionWith hc),
      max_assoc, unionWith_assoc (fun x y _ => Entry.key_merged x y) ha.strict hb.strict hc.strict
        fun x _ y _ z _ _ _ => Entry.merged_assoc x y z]

theorem gossipMerge_join_web :
    let a : GossipData := ⟨1, [webEntry "web"]⟩
    let b : GossipData := ⟨2, [{ webEntry "web" with Version := 1, Tombstone := 5 }]⟩
    let c : GossipData := ⟨3, [webEntry "db"]⟩
    Plain a.Entries ∧ Plain b.Entries ∧ Plain c.Entries ∧
      a.Merge a = .ok a ∧
      (∃ ab, a.Merge b = .ok ab ∧ b.Merge a = .ok ab ∧ Plain ab.Entries) ∧
      (a.Merge b >>= fun ab => ab.Merge c) = (b.Merge c >>= fun bc => a.Merge bc) := by
  intro a b c
  have ha : Plain a.Entries := Plain.of_strict (List.pairwise_singleton _ _)
    (by simp only [a, List.mem_singleton, forall_eq, webEntry]; decide +kernel)
  have hb : Plain b.Entries := Plain.of_strict (List.pairwise_singleton _ _)
    (by simp only [b, List.mem_singleton, forall_eq, webEntry]; decide +kernel)
  have hc : Plain c.Entries := Plain.of_strict (List.pairwise_singleton _ _)
    (by simp only [c, List.mem_singleton, forall_eq, webEntry]; decide +kernel)
  exact ⟨ha, hb, hc, gossipMerge_join ha hb hc⟩

end WeaveNet.Nameserver
