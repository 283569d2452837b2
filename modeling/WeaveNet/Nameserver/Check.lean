import Mathlib
import WeaveNet.Lib.SortedSearch
import WeaveNet.Nameserver.Store

/-!
# What the check accepts, and what each list operation does

Every operation on the entries runs `checkAndPanic` before and after it. This module says what
the check accepts and, from it, what `lookup`, `add`, `tombstone` and `filter` do, in the order
the module proves them:

* the check's order is the lexicographic order of `Entry.key`, the lower-cased hostname, origin,
  container and address (`insensitiveLess_eq`), and a list passes the check exactly when it is
  sorted by the key and no two neighbours are `equal` (`Checked`, `checkAndPanic_eq_ok_iff`);
  neither reads a version or a tombstone (`checked_iff_strip`);
* on a checked list the two searches of `lookup` cut out the block of the name, so `lookup` is
  the filter of the entries of the lower-cased name (`Entries.lookup_eq`);
* the search of `add` stops at the first entry not below the new one; when every `lHostname` is
  its hostname lower-cased, an entry `equal` to the new one has its key, and `add` either revives
  the one found there or puts the new entry in, and the list stays checked (`add_spec`);
* `tombstone` changes no key, so it never panics on a checked list (`tombstone_spec`);
* `filter` keeps the check only when no two entries of the list are `equal` at all, as the
  entries it drops may have stood between two `equal` ones (`Valid`, `filter_spec`).
-/

namespace WeaveNet.Nameserver

open Lib

namespace Entry

@[simp] theorem equal_eq_true_iff (a b : Entry) : a.equal b = true ↔
    a.ContainerID = b.ContainerID ∧ a.Origin = b.Origin ∧ a.Addr = b.Addr ∧ a.Hostname = b.Hostname := by
  simp [equal, and_assoc]

/-- The key the check orders entries by: the lower-cased hostname, then origin, container and
address. -/
def key (e : Entry) : Lex (String × Lex (PeerName × Lex (String × Address))) :=
  toLex (e.lHostname, toLex (e.Origin, toLex (e.ContainerID, e.Addr)))

/-- `insensitiveLess` is the order of the keys. -/
theorem insensitiveLess_eq (a b : Entry) : a.insensitiveLess b = decide (a.key < b.key) := by
  simp only [insensitiveLess, lessBy, key, Prod.Lex.toLex_lt_toLex]
  by_cases h1 : a.lHostname = b.lHostname <;> by_cases h2 : a.Origin = b.Origin <;>
    by_cases h3 : a.ContainerID = b.ContainerID <;> simp [h1, h2, h3]

/-- The lower-cased hostname comes first in the key. -/
theorem lHostname_le_of_key_le {a b : Entry} (h : a.key ≤ b.key) : a.lHostname ≤ b.lHostname := by
  rcases Prod.Lex.le_iff.1 h with h | ⟨h, -⟩
  · exact h.le
  · exact h.le

/-- An entry without its version and tombstone: what the order and `equal` read. -/
def strip (e : Entry) : Entry := { e with Version := 0, Tombstone := 0 }

@[simp] theorem key_strip (e : Entry) : e.strip.key = e.key := rfl

@[simp] theorem lHostname_strip (e : Entry) : e.strip.lHostname = e.lHostname := rfl

@[simp] theorem Hostname_strip (e : Entry) : e.strip.Hostname = e.Hostname := rfl

@[simp] theorem Addr_strip (e : Entry) : e.strip.Addr = e.Addr := rfl

theorem lHostname_eq_of_strip {a b : Entry} (h : a.strip = b.strip) : a.lHostname = b.lHostname := by
  simpa only [lHostname_strip] using congrArg Entry.lHostname h

theorem Hostname_eq_of_strip {a b : Entry} (h : a.strip = b.strip) : a.Hostname = b.Hostname := by
  simpa only [Hostname_strip] using congrArg Entry.Hostname h

theorem Addr_eq_of_strip {a b : Entry} (h : a.strip = b.strip) : a.Addr = b.Addr := by
  simpa only [Addr_strip] using congrArg Entry.Addr h

/-- `equal` is symmetric. -/
theorem equal_comm (a b : Entry) : a.equal b = b.equal a := by
  rw [Bool.eq_iff_iff, equal_eq_true_iff, equal_eq_true_iff]
  grind

@[simp] theorem equal_strip (a b : Entry) : a.strip.equal b.strip = a.equal b := rfl

/-- `equal` entries whose `lHostname` is their hostname lower-cased have one key. -/
theorem key_eq_of_equal {toLower : String → String} {a b : Entry}
    (ha : a.lHostname = toLower a.Hostname) (hb : b.lHostname = toLower b.Hostname)
    (h : a.equal b = true) : a.key = b.key := by
  simp only [equal, Bool.and_eq_true, beq_iff_eq] at h
  obtain ⟨⟨⟨hc, ho⟩, hadd⟩, hh⟩ := h
  simp only [key, ha, hb, hc, ho, hadd, hh]

end Entry

/-- What `checkAndPanic` accepts: sorted by the key, no two neighbours `equal`. -/
structure Checked (es : Entries) : Prop where
  sorted : es.Pairwise fun a b => a.key ≤ b.key
  neighbours : es.IsChain fun a b => b.equal a = false

/-- The chain of `isSorted` is the sorted chain of the keys. -/
theorem isSorted_iff : ∀ {es : Entries},
    isSorted Entry.insensitiveLess es = true ↔ es.IsChain fun a b => a.key ≤ b.key
  | [] => by simp [isSorted]
  | [a] => by simp [isSorted]
  | a :: b :: rest => by
    rw [isSorted, List.isChain_cons_cons, Bool.and_eq_true, isSorted_iff, Entry.insensitiveLess_eq]
    simp

/-- The loop of `check` finds nothing exactly when no two neighbours are `equal`. -/
theorem findDuplicate_eq_none_iff : ∀ {i : Nat} {es : Entries},
    findDuplicate i es = none ↔ es.IsChain fun a b => b.equal a = false
  | _, [] => by simp [findDuplicate]
  | _, [a] => by simp [findDuplicate]
  | i, a :: b :: rest => by
    rw [findDuplicate, List.isChain_cons_cons]
    cases hb : b.equal a with
    | true => simp
    | false => simpa using findDuplicate_eq_none_iff

/-- The keys, an order, are sorted along the list exactly when they are sorted pairwise. -/
theorem isChain_key_iff {es : Entries} :
    (es.IsChain fun a b => a.key ≤ b.key) ↔ es.Pairwise fun a b => a.key ≤ b.key := by
  rw [← List.isChain_map Entry.key, ← List.pairwise_map, List.isChain_iff_pairwise]

/-- **What the check accepts.** -/
theorem checkAndPanic_eq_ok_iff {es : Entries} : checkAndPanic es = .ok () ↔ Checked es := by
  have hsorted : (es.IsChain fun a b => a.key ≤ b.key) ↔ es.Pairwise fun a b => a.key ≤ b.key :=
    isChain_key_iff
  rw [checkAndPanic, check]
  cases hs : isSorted Entry.insensitiveLess es with
  | false =>
    have : ¬ es.IsChain fun a b => a.key ≤ b.key := by rw [← isSorted_iff, hs]; simp
    simp only [Bool.not_false, ↓reduceIte, reduceCtorEq, false_iff]
    exact fun h => this (hsorted.2 h.sorted)
  | true =>
    have hc := isSorted_iff.1 hs
    simp only [Bool.not_true, Bool.false_eq_true, ↓reduceIte]
    cases hd : findDuplicate 0 es with
    | some err =>
      have : ¬ es.IsChain fun a b => b.equal a = false := by rw [← findDuplicate_eq_none_iff, hd]; simp
      simp only [reduceCtorEq, false_iff]
      exact fun h => this h.neighbours
    | none => exact iff_of_true rfl ⟨hsorted.1 hc, findDuplicate_eq_none_iff.1 hd⟩

theorem Checked.nil : Checked [] := ⟨.nil, .nil⟩

theorem Checked.singleton (e : Entry) : Checked [e] := ⟨List.pairwise_singleton _ _, List.isChain_singleton _⟩

/-- The check reads no version and no tombstone. -/
theorem checked_iff_strip {es : Entries} : Checked es ↔ Checked (es.map Entry.strip) := by
  constructor
  · intro h
    exact ⟨by simpa [List.pairwise_map] using h.sorted, by simpa [List.isChain_map] using h.neighbours⟩
  · intro h
    exact ⟨by simpa [List.pairwise_map] using h.sorted, by simpa [List.isChain_map] using h.neighbours⟩

/-- A list whose stripped entries are those of a checked list is checked. -/
theorem Checked.of_strip {es es' : Entries} (h : Checked es)
    (hs : es'.map Entry.strip = es.map Entry.strip) : Checked es' := by
  rw [checked_iff_strip, hs]
  exact checked_iff_strip.1 h

namespace Entries

variable {toLower : String → String} {es : Entries}

/-- **`lookup` cuts out the block of the name.** On a list that passes the check, `lookup` returns
the entries whose `lHostname` is the name lower-cased: its two searches run over the sorted
`lHostname`s. -/
theorem lookup_eq (h : Checked es) (hostname : String) :
    es.lookup toLower hostname = .ok (List.filter (fun e => e.lHostname = toLower hostname) es) := by
  have hs : es.Pairwise fun a b => a.lHostname ≤ b.lHostname :=
    h.sorted.imp Entry.lHostname_le_of_key_le
  rw [lookup, checkAndPanic_eq_ok_iff.2 h]
  simp only [bind, Except.bind, pure, Except.pure]
  split
  · rename_i e he
    split_ifs with hne
    · -- the first entry not below the name is of another name: none is of it
      rw [filter_eq_nil_of_search default hs _ fun b hb => by rw [he] at hb; cases hb; exact hne]
    · rw [drop_take_search_eq_filter default hs]
  · rename_i hnone
    rw [filter_eq_nil_of_search default hs _ fun b hb => by rw [hnone] at hb; cases hb]

/-- `searchIndex` searches by the key. -/
theorem searchIndex_eq (es : Entries) (e : Entry) :
    searchIndex es e = search es.length fun j => decide (e.key ≤ (es.getD j default).key) := by
  simp only [searchIndex, Entry.insensitiveLess_eq, ← decide_not, not_lt]

/-- An entry put between two parts of a checked list, not below the first and not above the second,
and `equal` to neither neighbour, leaves the list checked. -/
theorem Checked.insert {pre post : Entries} {x : Entry} (h : Checked (pre ++ post))
    (hpre : ∀ a ∈ pre, a.key ≤ x.key) (hpost : ∀ b ∈ post, x.key ≤ b.key)
    (hlast : ∀ a ∈ pre.getLast?, x.equal a = false) (hhead : ∀ b ∈ post.head?, b.equal x = false) :
    Checked (pre ++ x :: post) := by
  obtain ⟨hpre_s, hpost_s, hcross⟩ := List.pairwise_append.1 h.sorted
  obtain ⟨hpre_c, hpost_c, -⟩ := List.isChain_append.1 h.neighbours
  refine ⟨List.pairwise_append.2 ⟨hpre_s, List.pairwise_cons.2 ⟨hpost, hpost_s⟩, ?_⟩,
    List.isChain_append.2 ⟨hpre_c, List.isChain_cons.2 ⟨hhead, hpost_c⟩, ?_⟩⟩
  · rintro a ha b (_ | ⟨_, hb⟩)
    · exact hpre a ha
    · exact hcross a ha b hb
  · intro a ha b hb
    cases hb
    exact hlast a ha

/-- The entry `add` makes for a record it does not hold. -/
def newEntry (toLower : String → String) (hostname containerid : String) (origin : PeerName)
    (addr : Address) : Entry :=
  ⟨containerid, origin, addr, hostname, toLower hostname, 0, 0⟩

section Add

variable {hostname containerid : String} {origin : PeerName} {addr : Address}

/-- `add` of a record whose place holds no `equal` entry puts the new entry there. -/
theorem add_of_insert (hc : checkAndPanic es = .ok ())
    (hfound : ∀ found, es[searchIndex es (newEntry toLower hostname containerid origin addr)]? = some found →
      found.equal (newEntry toLower hostname containerid origin addr) = false)
    (hc' : checkAndPanic (es.take (searchIndex es (newEntry toLower hostname containerid origin addr)) ++
      newEntry toLower hostname containerid origin addr ::
        es.drop (searchIndex es (newEntry toLower hostname containerid origin addr))) = .ok ()) :
    es.add toLower hostname containerid origin addr =
      .ok (newEntry toLower hostname containerid origin addr,
        es.take (searchIndex es (newEntry toLower hostname containerid origin addr)) ++
          newEntry toLower hostname containerid origin addr ::
            es.drop (searchIndex es (newEntry toLower hostname containerid origin addr))) := by
  unfold newEntry at hfound hc' ⊢
  cases hf : es[searchIndex es ⟨containerid, origin, addr, hostname, toLower hostname, 0, 0⟩]? with
  | none => simp only [add, hc, hf, hc', bind, Except.bind, pure, Except.pure]
  | some found =>
    simp only [add, hc, hf, hfound found hf, Bool.false_eq_true, ↓reduceIte, hc', bind, Except.bind,
      pure, Except.pure]

/-- The entry `add` leaves of an `equal` one it finds: revived when it was deleted. -/
def revived (found : Entry) : Entry :=
  if found.Tombstone > 0 then { found with Tombstone := 0, Version := found.Version + 1 } else found

@[simp] theorem strip_revived (found : Entry) : (revived found).strip = found.strip := by
  unfold revived
  split_ifs <;> rfl

theorem not_tombstone_revived (found : Entry) : ¬ (revived found).Tombstone > 0 := by
  unfold revived
  split_ifs with h
  · simp
  · exact h

/-- `add` of a record whose place holds an `equal` entry revives that entry. -/
theorem add_of_equal (hc : checkAndPanic es = .ok ()) {found : Entry}
    (hf : es[searchIndex es (newEntry toLower hostname containerid origin addr)]? = some found)
    (heq : found.equal (newEntry toLower hostname containerid origin addr) = true)
    (hc' : checkAndPanic (es.set (searchIndex es (newEntry toLower hostname containerid origin addr))
      (revived found)) = .ok ()) :
    es.add toLower hostname containerid origin addr =
      .ok (revived found, es.set (searchIndex es (newEntry toLower hostname containerid origin addr))
        (revived found)) := by
  unfold newEntry at hf heq hc' ⊢
  unfold revived at hc' ⊢
  simp only [add, hc, hf, heq, ↓reduceIte, hc', bind, Except.bind, pure, Except.pure]

end Add

/-- **What `add` does.** On a well-formed list, `add` does not panic: it puts a live entry of the
record at the place of its key, either a new one or, in place of an `equal` entry found there, that
one revived; the rest of the list stays as it was. -/
theorem add_spec (h : Checked es) (hl : ∀ e ∈ es, e.lHostname = toLower e.Hostname)
    (hostname containerid : String) (origin : PeerName) (addr : Address) :
    ∃ e pre old post, es = pre ++ old ++ post ∧
      es.add toLower hostname containerid origin addr = .ok (e, pre ++ e :: post) ∧
      Checked (pre ++ e :: post) ∧ e.Hostname = hostname ∧ e.lHostname = toLower hostname ∧
      e.ContainerID = containerid ∧ e.Origin = origin ∧ e.Addr = addr ∧ ¬ e.Tombstone > 0 ∧
      old.length ≤ 1 ∧ ∀ f ∈ old, f.strip = e.strip := by
  set entry := newEntry toLower hostname containerid origin addr with hentry
  set i := searchIndex es entry with hi
  have hc := checkAndPanic_eq_ok_iff.2 h
  by_cases hins : ∀ found, es[i]? = some found → found.equal entry = false
  · -- the new entry goes in at `i`, between the entries below its key and the others
    have hbelow : ∀ a ∈ es.take i, a.key < entry.key := by
      rw [hi, searchIndex_eq, take_search_eq_filter default h.sorted]
      intro a ha
      simpa using (List.mem_filter.1 ha).2
    have habove : ∀ b ∈ es.drop i, entry.key ≤ b.key := by
      rw [hi, searchIndex_eq, drop_search_eq_filter default h.sorted]
      intro b hb
      simpa using (List.mem_filter.1 hb).2
    have hchecked : Checked (es.take i ++ entry :: es.drop i) := by
      refine Checked.insert (by rwa [List.take_append_drop]) (fun a ha => (hbelow a ha).le) habove
        (fun a ha => ?_) (fun b hb => hins b (by rwa [List.head?_drop] at hb))
      -- the entry before is below the new one, so of another key, so not `equal` to it
      have ha' := List.mem_of_mem_getLast? ha
      cases heq : entry.equal a with
      | false => rfl
      | true =>
        have := Entry.key_eq_of_equal rfl (hl a (List.mem_of_mem_take ha')) heq
        exact absurd this (ne_of_gt (hbelow a ha'))
    exact ⟨entry, es.take i, [], es.drop i, by simp,
      add_of_insert hc hins (checkAndPanic_eq_ok_iff.2 hchecked), hchecked, rfl, rfl, rfl, rfl, rfl,
      by simp [hentry, newEntry], by simp, by simp⟩
  · -- an `equal` entry stands at `i`: it is revived in place
    simp only [not_forall, Bool.not_eq_false] at hins
    obtain ⟨found, hf, heq⟩ := hins
    obtain ⟨hlt, rfl⟩ := List.getElem?_eq_some_iff.1 hf
    have hset : es.set i (revived es[i]) = es.take i ++ revived es[i] :: es.drop (i + 1) := by
      rw [List.set_eq_take_append_cons_drop, if_pos hlt]
    have hchecked : Checked (es.set i (revived es[i])) := by
      refine h.of_strip ?_
      have hlt' : i < (es.map Entry.strip).length := by simpa using hlt
      have hget : (es.map Entry.strip)[i] = es[i].strip := List.getElem_map _
      rw [List.map_set, strip_revived, ← hget, List.set_getElem_self]
    obtain ⟨hcid, horigin, haddr, hhost⟩ := (Entry.equal_eq_true_iff _ _).1 heq
    refine ⟨revived es[i], es.take i, [es[i]], es.drop (i + 1), ?_,
      hset ▸ add_of_equal hc hf heq (checkAndPanic_eq_ok_iff.2 hchecked), hset ▸ hchecked, ?_, ?_, ?_, ?_,
      ?_, not_tombstone_revived _, by simp, by simp⟩
    · rw [List.append_assoc, List.singleton_append, ← List.drop_eq_getElem_cons hlt, List.take_append_drop]
    -- the revived entry is the record, as the one found is `equal` to it
    · exact (congrArg Entry.Hostname (strip_revived es[i])).trans hhost
    · exact (congrArg Entry.lHostname (strip_revived es[i])).trans
        ((hl _ (List.getElem_mem hlt)).trans (congrArg toLower hhost))
    · exact (congrArg Entry.ContainerID (strip_revived es[i])).trans hcid
    · exact (congrArg Entry.Origin (strip_revived es[i])).trans horigin
    · exact (congrArg Entry.Addr (strip_revived es[i])).trans haddr

/-- The entry `tombstone` leaves of `e`: deleted at `now` when `f` picks it and it is ours. -/
def tombstoned (now : Int) (ourname : PeerName) (f : Entry → Bool) (e : Entry) : Entry :=
  if f e ∧ e.Origin = ourname then (e.tombstone now).2 else e

@[simp] theorem strip_tombstoned (now : Int) (ourname : PeerName) (f : Entry → Bool) (e : Entry) :
    (tombstoned now ourname f e).strip = e.strip := by
  unfold tombstoned Entry.tombstone
  split_ifs <;> rfl

@[simp] theorem lHostname_tombstoned (now : Int) (ourname : PeerName) (f : Entry → Bool) (e : Entry) :
    (tombstoned now ourname f e).lHostname = e.lHostname :=
  Entry.lHostname_eq_of_strip (strip_tombstoned now ourname f e)

@[simp] theorem Hostname_tombstoned (now : Int) (ourname : PeerName) (f : Entry → Bool) (e : Entry) :
    (tombstoned now ourname f e).Hostname = e.Hostname :=
  Entry.Hostname_eq_of_strip (strip_tombstoned now ourname f e)

@[simp] theorem Addr_tombstoned (now : Int) (ourname : PeerName) (f : Entry → Bool) (e : Entry) :
    (tombstoned now ourname f e).Addr = e.Addr :=
  Entry.Addr_eq_of_strip (strip_tombstoned now ourname f e)

/-- A deletion at a positive time leaves an entry deleted exactly when it was, or was picked and
is ours. -/
theorem tombstone_tombstoned {now : Int} (hnow : 0 < now) (ourname : PeerName) (f : Entry → Bool)
    (e : Entry) : (tombstoned now ourname f e).Tombstone > 0 ↔ e.Tombstone > 0 ∨ (f e ∧ e.Origin = ourname) := by
  unfold tombstoned Entry.tombstone
  by_cases hf : f e = true ∧ e.Origin = ourname
  · by_cases ht : e.Tombstone > 0 <;> simp [hf, ht, hnow]
  · simp only [hf, ↓reduceIte, or_false]

/-- **What `tombstone` does.** On a list that passes the check, `tombstone` does not panic: it
deletes, at `now`, the live entries of ours that `f` picks, and returns them. -/
theorem tombstone_spec (h : Checked es) (now : Int) (ourname : PeerName) (f : Entry → Bool) :
    es.tombstone now ourname f =
      .ok (es.map (tombstoned now ourname f),
        (List.filter (fun e => f e ∧ e.Origin = ourname ∧ ¬ e.Tombstone > 0) es).map
          fun e => (e.tombstone now).2) ∧
      Checked (es.map (tombstoned now ourname f)) := by
  have hchecked : Checked (es.map (tombstoned now ourname f)) :=
    h.of_strip (by rw [List.map_map]; exact List.map_congr_left fun e _ => strip_tombstoned ..)
  refine ⟨?_, hchecked⟩
  -- the deleted entries, in order
  have hdeleted : List.filterMap (fun x => x.2) (es.map fun e => (tombstoned now ourname f e,
      if f e = true ∧ e.Origin = ourname ∧ ¬ e.Tombstone > 0 then some (e.tombstone now).2 else none)) =
      (List.filter (fun e => f e ∧ e.Origin = ourname ∧ ¬ e.Tombstone > 0) es).map
        fun e => (e.tombstone now).2 := by
    clear hchecked h
    induction es with
    | nil => rfl
    | cons e es ih =>
      by_cases hq : f e = true ∧ e.Origin = ourname ∧ ¬ e.Tombstone > 0 <;> simp_all
  unfold tombstone
  simp only [checkAndPanic_eq_ok_iff.2 h, bind, Except.bind, pure, Except.pure]
  -- each entry's step leaves it as `tombstoned` says, and returns it when it deleted it
  rw [List.map_congr_left (l := es) (g := fun e => (tombstoned now ourname f e,
      if f e = true ∧ e.Origin = ourname ∧ ¬ e.Tombstone > 0 then some (e.tombstone now).2 else none))
    fun e _ => ?step, List.map_map]
  case step =>
    unfold tombstoned Entry.tombstone
    by_cases hf : f e = true ∧ e.Origin = ourname
    · by_cases ht : e.Tombstone > 0 <;> simp [hf, ht]
    · have hq : ¬ (f e = true ∧ e.Origin = ourname ∧ ¬ e.Tombstone > 0) := fun hq => hf ⟨hq.1, hq.2.1⟩
      simp only [hf, hq, ↓reduceIte]
  have hfst : (Prod.fst ∘ fun e => (tombstoned now ourname f e,
      if f e = true ∧ e.Origin = ourname ∧ ¬ e.Tombstone > 0 then some (e.tombstone now).2 else none)) =
      tombstoned now ourname f := rfl
  rw [hfst, checkAndPanic_eq_ok_iff.2 hchecked, hdeleted]

/-- A valid list, no two of whose entries are `equal`, passes the check. -/
theorem Valid.checked (h : es.Valid) : Checked es :=
  ⟨isChain_key_iff.1 (isSorted_iff.1 h.1),
    (h.2.imp fun hab => by rwa [Entry.equal_comm]).isChain⟩

/-- What a filter keeps of a valid list is valid. -/
theorem Valid.filter (h : es.Valid) (p : Entry → Bool) : Valid (List.filter p es) := by
  have hsorted : (List.filter p es).Pairwise fun a b => a.key ≤ b.key :=
    h.checked.sorted.sublist List.filter_sublist
  exact ⟨isSorted_iff.2 (isChain_key_iff.2 hsorted), h.2.sublist List.filter_sublist⟩

/-- **What `filter` does.** On a valid list, `filter` of a function that keeps the entries as they
are does not panic, and keeps those it picks. -/
theorem filter_spec (h : es.Valid) (p : Entry → Bool) :
    es.filter (fun e => (p e, e)) = .ok (List.filter p es) := by
  have hfm : es.filterMap (fun e => if p e then some e else none) = List.filter p es := by
    rw [← List.filterMap_eq_filter]
    rfl
  unfold filter
  simp only [checkAndPanic_eq_ok_iff.2 h.checked, bind, Except.bind, pure, Except.pure, hfm,
    checkAndPanic_eq_ok_iff.2 (h.filter p).checked]

end Entries

end WeaveNet.Nameserver
