import Mathlib
import WeaveNet.Nameserver.Check

/-!
# What the nameserver's calls answer

The calls of `nameserver.go` over the specs of the list operations (`Nameserver.Check`), stated
against what `Lookup` is for: `answer`, the addresses of the live entries whose lower-cased
hostname is the name's.

* `Lookup` answers exactly that on a store that passes the check (`lookup_answers`), and so, on a
  well-formed store, the live entries whose hostname lower-cases to the name's
  (`lookup_case_insensitive`); `ReverseLookup` returns a name whose `Lookup` answers the address,
  and "Not found" exactly when there is none (`reverseLookup_lookup`);
* `AddEntry` keeps the store well formed (`Wf`: checked, every `lHostname` made by `toLower`), and
  the name's `Lookup` gains the new address while every other name's stays as it was
  (`addEntry_lookup`);
* `Delete` and `ContainerDied` tombstone, at a positive time, the live entries of ours they pick:
  afterwards `Lookup` answers as if the picked entries of ours were gone, and the call broadcasts
  exactly the entries it deleted (`tombstoneOurs_lookup`, `delete_lookup`);
* `PeerGone` and the tombstone sweep keep the check when no two entries are `equal` at all
  (`Valid`); `PeerGone` then answers as if the peer's entries were gone (`peerGone_lookup`), and
  the sweep changes no answer (`deleteTombstones_lookup`).

The sweep needs more than the check. `AddEntry` can leave a record twice, around a case variant
of its hostname, and the sweep panics once the variant's tombstone has timed out
(`sweep_panics`).
-/

namespace WeaveNet.Nameserver

open Entries

/-- Every `lHostname` is its hostname lower-cased, as `add` and the decoding of gossip make
them. -/
def Lower (toLower : String → String) (es : Entries) : Prop :=
  ∀ e ∈ es, e.lHostname = toLower e.Hostname

/-- A store that the calls keep: it passes the check, and `toLower` made every `lHostname`. -/
structure Wf (toLower : String → String) (es : Entries) : Prop where
  checked : Checked es
  lower : Lower toLower es

/-- What `Lookup` is for: the addresses of the live entries of the lower-cased name, in the order
of the store. -/
def answer (toLower : String → String) (hostname : String) (es : Entries) : List Address :=
  (List.filter (fun e => e.lHostname = toLower hostname ∧ ¬ e.Tombstone > 0) es).map (·.Addr)

theorem mem_answer {toLower : String → String} {hostname : String} {es : Entries} {a : Address} :
    a ∈ answer toLower hostname es ↔
      ∃ e ∈ es, e.lHostname = toLower hostname ∧ ¬ e.Tombstone > 0 ∧ e.Addr = a := by
  simp [answer, and_assoc]

section Calls

variable {toLower : String → String} {n : Nameserver}

/-! ## Lookup -/

/-- The live addresses of the entries a filter keeps are those of the entries it keeps live. -/
theorem filterMap_live (p : Entry → Bool) (es : Entries) :
    (List.filter p es).filterMap (fun e => if e.Tombstone > 0 then none else some e.Addr) =
      (List.filter (fun e => p e ∧ ¬ e.Tombstone > 0) es).map (·.Addr) := by
  induction es with
  | nil => rfl
  | cons e es ih =>
    by_cases hp : p e
    · by_cases ht : e.Tombstone > 0
      · simp [hp, ht, ih]
      · simp [hp, not_lt.1 ht, ih]
    · simp [hp, ih]

/-- **`Lookup` answers the live entries of the name.** On a store that passes the check, the two
binary searches of `Entries.lookup` find the block of the lower-cased name, and `Lookup` returns
the addresses of its live entries. -/
theorem lookup_answers (h : Checked n.entries) (hostname : String) :
    n.lookup toLower hostname = .ok (answer toLower hostname n.entries) := by
  simp only [lookup, Entries.lookup_eq h, bind, Except.bind, pure, Except.pure, filterMap_live, answer,
    decide_eq_true_eq]

/-- **`Lookup` is case-insensitive.** On a well-formed store, `Lookup` returns the addresses of the
live entries whose hostname lower-cases to the name's lower-cased form, in the order of the
store. -/
theorem lookup_case_insensitive (h : Wf toLower n.entries) (hostname : String) :
    n.lookup toLower hostname = .ok ((List.filter (fun e => toLower e.Hostname = toLower hostname ∧
      ¬ e.Tombstone > 0) n.entries).map (·.Addr)) := by
  rw [lookup_answers h.checked, answer]
  congr 2
  refine List.filter_congr fun e he => ?_
  rw [h.lower e he]

/-- The store of one record, as `AddEntry` makes it, is well formed. -/
theorem wf_webEntry (hostname : String) : Wf String.toLower [webEntry hostname] :=
  ⟨.singleton _, by simp [Lower, webEntry]⟩

theorem lookup_case_insensitive_web :
    Wf String.toLower [webEntry "web.weave.local."] ∧
      (⟨1, [webEntry "web.weave.local."]⟩ : Nameserver).lookup String.toLower "WEB.weave.local." =
        .ok ((List.filter (fun e => e.Hostname.toLower = "WEB.weave.local.".toLower ∧ ¬ e.Tombstone > 0)
          [webEntry "web.weave.local."]).map (·.Addr)) :=
  ⟨wf_webEntry _, lookup_case_insensitive (n := ⟨1, _⟩) (wf_webEntry _) "WEB.weave.local."⟩

/-- **`ReverseLookup` agrees with `Lookup`.** On a well-formed store whose tombstones are times,
not below zero, `ReverseLookup` does not panic; the hostname it returns is one whose `Lookup`
answers the address, and it returns "Not found" exactly when no name's `Lookup` answers it. -/
theorem reverseLookup_lookup (h : Wf toLower n.entries) (ht : ∀ e ∈ n.entries, 0 ≤ e.Tombstone)
    (ip : Address) :
    ∃ r, n.reverseLookup ip = .ok r ∧ (∀ name, r = .ok name → ip ∈ answer toLower name n.entries) ∧
      (r = .error "Not found" ↔ ∀ name, ip ∉ answer toLower name n.entries) := by
  have hc := checkAndPanic_eq_ok_iff.2 h.checked
  cases hfind : n.entries.find? fun e => decide (e.Tombstone = 0 ∧ e.Addr = ip) with
  | some e =>
    -- the first live entry of the address answers for its own hostname
    have hmem := List.mem_of_find?_eq_some hfind
    have he := List.find?_some hfind
    simp only [decide_eq_true_eq] at he
    have hans : ip ∈ answer toLower e.Hostname n.entries :=
      mem_answer.2 ⟨e, hmem, h.lower e hmem, by omega, he.2⟩
    refine ⟨.ok e.Hostname, ?_, fun name hname => ?_, ?_⟩
    · simp only [reverseLookup, first, hc, hfind, bind, Except.bind, pure, Except.pure, Except.map]
    · cases hname
      exact hans
    · simp only [reduceCtorEq, false_iff, not_forall, not_not]
      exact ⟨e.Hostname, hans⟩
  | none =>
    -- no live entry has the address: a live one has tombstone `0`
    refine ⟨.error "Not found", ?_, ?_, ?_⟩
    · simp only [reverseLookup, first, hc, hfind, bind, Except.bind, pure, Except.pure, Except.map]
    · intro name hname
      simp at hname
    · simp only [true_iff]
      intro name hname
      obtain ⟨e, hmem, -, hlive, haddr⟩ := mem_answer.1 hname
      have hnone := List.find?_eq_none.1 hfind e hmem
      have := ht e hmem
      simp only [decide_eq_true_eq, not_and] at hnone
      exact hnone (by omega) haddr

theorem reverseLookup_lookup_web :
    Wf String.toLower [webEntry "web.weave.local."] ∧
      (∀ e ∈ [webEntry "web.weave.local."], 0 ≤ e.Tombstone) ∧
      ∃ r, (⟨1, [webEntry "web.weave.local."]⟩ : Nameserver).reverseLookup 0x0A200001 = .ok r ∧
        (∀ name, r = .ok name → 0x0A200001 ∈ answer String.toLower name [webEntry "web.weave.local."]) ∧
        (r = .error "Not found" ↔ ∀ name, 0x0A200001 ∉ answer String.toLower name [webEntry "web.weave.local."]) :=
  ⟨wf_webEntry _, by simp [webEntry], reverseLookup_lookup (n := ⟨1, _⟩) (wf_webEntry _) (by simp [webEntry]) _⟩

/-! ## AddEntry -/

/-- **`AddEntry` adds its address to its name's answer.** On a well-formed store, `AddEntry` does
not panic and broadcasts one entry; the store stays well formed, and for every name and address,
the address is in the name's answer after the call exactly when it was before, or the name
lower-cases to the added one and the address is the added one. -/
theorem addEntry_lookup (h : Wf toLower n.entries) (hostname containerid : String) (origin : PeerName)
    (addr : Address) :
    ∃ e n', n.addEntry toLower hostname containerid origin addr = .ok ([e], n') ∧
      Wf toLower n'.entries ∧ n'.ourName = n.ourName ∧
      ∀ name a, a ∈ answer toLower name n'.entries ↔
        a ∈ answer toLower name n.entries ∨ (toLower name = toLower hostname ∧ a = addr) := by
  obtain ⟨e, pre, old, post, hes, hadd, hchecked, hhost, hlow, -, -, haddr, hlive, -, hold⟩ :=
    add_spec h.checked h.lower hostname containerid origin addr
  have hlower : Lower toLower (pre ++ e :: post) := by
    intro x hx
    rcases List.mem_append.1 hx with hx | hx
    · exact h.lower x (by rw [hes]; simp [hx])
    rcases List.mem_cons.1 hx with rfl | hx
    · rw [hlow, hhost]
    · exact h.lower x (by rw [hes]; simp [hx])
  refine ⟨e, { n with entries := pre ++ e :: post }, ?_, ⟨hchecked, hlower⟩, rfl, fun name a => ?_⟩
  · simp [addEntry, hadd, bind, Except.bind, pure, Except.pure]
  simp only [mem_answer, hes]
  constructor
  · rintro ⟨x, hx, hxl, hxt, rfl⟩
    rcases List.mem_append.1 hx with hx | hx
    · exact .inl ⟨x, by simp [hx], hxl, hxt, rfl⟩
    rcases List.mem_cons.1 hx with rfl | hx
    · exact .inr ⟨hxl.symm.trans hlow, haddr⟩
    · exact .inl ⟨x, by simp [hx], hxl, hxt, rfl⟩
  · rintro (⟨x, hx, hxl, hxt, rfl⟩ | ⟨hname, rfl⟩)
    · simp only [List.append_assoc, List.mem_append] at hx
      rcases hx with hx | hx | hx
      · exact ⟨x, by simp [hx], hxl, hxt, rfl⟩
      · -- an entry `add` replaced: it was the new entry's record, so the new entry answers for it
        have hs := hold x hx
        refine ⟨e, by simp, ?_, hlive, ?_⟩
        · rw [← hxl]
          exact (Entry.lHostname_eq_of_strip hs).symm
        · exact (Entry.Addr_eq_of_strip hs).symm
      · exact ⟨x, by simp [hx], hxl, hxt, rfl⟩
    · exact ⟨e, by simp, hlow.trans hname.symm, hlive, haddr⟩

theorem addEntry_lookup_web :
    Wf String.toLower (new 1).entries ∧
      ∃ e n', (new 1).addEntry String.toLower "web.weave.local." "c1" 1 0x0A200001 = .ok ([e], n') ∧
        Wf String.toLower n'.entries ∧ n'.ourName = (new 1).ourName ∧
        ∀ name a, a ∈ answer String.toLower name n'.entries ↔
          a ∈ answer String.toLower name (new 1).entries ∨
            (name.toLower = "web.weave.local.".toLower ∧ a = 0x0A200001) := by
  have hw : Wf String.toLower (new 1).entries := ⟨.nil, by simp [Lower, new]⟩
  exact ⟨hw, addEntry_lookup hw "web.weave.local." "c1" 1 0x0A200001⟩

/-! ## ContainerDied and Delete -/

/-- What `ContainerDied` and `Delete` do on a store that passes the check: they broadcast the live
entries of ours that `f` picks, deleted at `now`, and leave each entry as `tombstoned` says. -/
theorem tombstoneOurs_spec (h : Checked n.entries) (now : Int) (f : Entry → Bool) :
    n.tombstoneOurs now f =
      .ok ((List.filter (fun e => f e ∧ e.Origin = n.ourName ∧ ¬ e.Tombstone > 0) n.entries).map
          fun e => (e.tombstone now).2,
        { n with entries := n.entries.map (tombstoned now n.ourName f) }) := by
  simp [tombstoneOurs, (tombstone_spec h now n.ourName f).1, bind, Except.bind, pure, Except.pure]

/-- A deletion at a positive time answers as if the entries it picked were gone. -/
theorem answer_map_tombstoned {now : Int} (hnow : 0 < now) (ourname : PeerName) (f : Entry → Bool)
    (name : String) (es : Entries) :
    answer toLower name (es.map (tombstoned now ourname f)) =
      answer toLower name (List.filter (fun e => ¬ (f e ∧ e.Origin = ourname)) es) := by
  have haddr : ((fun x : Entry => x.Addr) ∘ tombstoned now ourname f) = fun x => x.Addr :=
    funext fun e => Addr_tombstoned now ourname f e
  unfold answer
  rw [List.filter_map, List.map_map, haddr, List.filter_filter]
  congr 1
  refine List.filter_congr fun e _ => ?_
  have ht := tombstone_tombstoned hnow ourname f e
  by_cases hf : f e = true ∧ e.Origin = ourname
  · -- picked: deleted now, and answered neither way
    have hdel : (tombstoned now ourname f e).Tombstone > 0 := ht.2 (.inr hf)
    simp only [Function.comp_apply, hdel, hf]
    simp
  · -- not picked: as it was
    have hsame : (tombstoned now ourname f e).Tombstone > 0 ↔ e.Tombstone > 0 := by
      rw [ht]
      exact or_iff_left hf
    simp only [Function.comp_apply, lHostname_tombstoned, hsame, hf]
    simp

/-- What `ContainerDied` and `Delete` leave, on a store that passes the check, at a positive time: a
store that passes the check, where every name's `Lookup` answers as if the entries of ours that
`f` picked were gone. -/
theorem tombstoneOurs_lookup {now : Int} (hnow : 0 < now) (h : Checked n.entries) (f : Entry → Bool) :
    ∃ n', n.tombstoneOurs now f =
        .ok ((List.filter (fun e => f e ∧ e.Origin = n.ourName ∧ ¬ e.Tombstone > 0) n.entries).map
          fun e => (e.tombstone now).2, n') ∧
      Checked n'.entries ∧ n'.ourName = n.ourName ∧
      ∀ name, n'.lookup toLower name =
        .ok (answer toLower name (List.filter (fun e => ¬ (f e ∧ e.Origin = n.ourName)) n.entries)) := by
  have hchecked := (tombstone_spec h now n.ourName f).2
  refine ⟨_, tombstoneOurs_spec h now f, hchecked, rfl, fun name => ?_⟩
  rw [lookup_answers hchecked, answer_map_tombstoned hnow]

/-- **`Delete` removes what it picks from the answers.** On a store that passes the check, a
`Delete` at a positive time does not panic; it broadcasts the live entries of ours it picks,
deleted now, and afterwards every name's `Lookup` answers as if the entries of ours it picked were
gone from the store, which stays checked. `ContainerDied` is the same deletion
(`tombstoneOurs_lookup`), of our entries of the container. -/
theorem delete_lookup {now : Int} (hnow : 0 < now) (h : Checked n.entries)
    (hostname containerid ipStr : String) (ip : Address) :
    ∃ n', n.delete now hostname containerid ipStr ip =
        .ok ((List.filter (fun e => deletes hostname containerid ipStr ip e ∧ e.Origin = n.ourName ∧
          ¬ e.Tombstone > 0) n.entries).map fun e => (e.tombstone now).2, n') ∧
      Checked n'.entries ∧ n'.ourName = n.ourName ∧
      ∀ name, n'.lookup toLower name = .ok (answer toLower name
        (List.filter (fun e => ¬ (deletes hostname containerid ipStr ip e ∧ e.Origin = n.ourName))
          n.entries)) :=
  tombstoneOurs_lookup hnow h (deletes hostname containerid ipStr ip)

theorem delete_lookup_web :
    0 < (1000 : Int) ∧ Checked [webEntry "web.weave.local."] ∧
      ∃ n', (⟨1, [webEntry "web.weave.local."]⟩ : Nameserver).delete 1000 "web.weave.local." "*" "*" 0 =
          .ok (List.map (fun e => (e.tombstone 1000).2) (List.filter (fun e =>
            deletes "web.weave.local." "*" "*" 0 e ∧ e.Origin = 1 ∧ ¬ e.Tombstone > 0)
              [webEntry "web.weave.local."]), n') ∧
        Checked n'.entries ∧ n'.ourName = 1 ∧
        ∀ name, n'.lookup String.toLower name = .ok (answer String.toLower name
          (List.filter (fun e => ¬ (deletes "web.weave.local." "*" "*" 0 e ∧ e.Origin = 1))
            [webEntry "web.weave.local."])) := by
  exact ⟨by decide, .singleton _, delete_lookup (by decide) (.singleton _) "web.weave.local." "*" "*" 0⟩

/-! ## PeerGone and the tombstone sweep -/

/-- What `PeerGone` and the sweep do on a valid store: keep the entries they pick. -/
theorem filterEntries_spec (h : n.entries.Valid) (p : Entry → Bool) :
    n.filterEntries p = .ok { n with entries := List.filter p n.entries } := by
  simp [filterEntries, filter_spec h p, bind, Except.bind, pure, Except.pure]

/-- `PeerGone` answers as if the peer's entries were gone. -/
theorem peerGone_lookup (h : n.entries.Valid) (peer : PeerName) :
    ∃ n', n.peerGone peer = .ok n' ∧ n'.entries = List.filter (fun e => e.Origin ≠ peer) n.entries ∧
      n'.entries.Valid ∧
      ∀ name, n'.lookup toLower name = .ok (answer toLower name
        (List.filter (fun e => e.Origin ≠ peer) n.entries)) :=
  ⟨_, filterEntries_spec h _, rfl, h.filter _, fun name => lookup_answers (h.filter _).checked name⟩

theorem peerGone_lookup_web :
    (⟨1, [webEntry "web.weave.local."]⟩ : Nameserver).entries.Valid ∧
      ∃ n', (⟨1, [webEntry "web.weave.local."]⟩ : Nameserver).peerGone 1 = .ok n' ∧
        n'.entries = List.filter (fun e => e.Origin ≠ 1) [webEntry "web.weave.local."] ∧ n'.entries.Valid ∧
        ∀ name, n'.lookup String.toLower name = .ok (answer String.toLower name
          (List.filter (fun e => e.Origin ≠ 1) [webEntry "web.weave.local."])) :=
  ⟨by decide, peerGone_lookup (by decide) 1⟩

end Calls

/-! ## A sweep that panics -/

/-- **The sweep panics on a record added around a case variant of its name.** A store made by
`AddEntry` of `web.weave.local.`, then `Web.weave.local.`, then `web.weave.local.` again holds the
record `web` twice, around `Web`: the second `web` stops the search of `add` at the first entry
not below it, which is `Web`, not `equal` to it. The check passes, as the two copies are not
neighbours. `Delete` of `Web` at time `1000` tombstones it; the sweep at `2801`, when the tombstone
is older than `tombstoneTimeout`, removes it, the two copies become neighbours, and the check after
the sweep panics: the router stops. -/
theorem sweep_panics :
    run String.toLower (fun _ => true) (new 1)
        [.addEntry "web.weave.local." "c1" 1 0x0A200001, .addEntry "Web.weave.local." "c1" 1 0x0A200001,
          .addEntry "web.weave.local." "c1" 1 0x0A200001,
          .delete 1000 "Web.weave.local." "c1" "10.32.0.1" 0x0A200001, .deleteTombstones 2801] =
      .error (.duplicate 0 (webEntry "web.weave.local.") (webEntry "web.weave.local.")) := by
  decide +kernel

end WeaveNet.Nameserver
