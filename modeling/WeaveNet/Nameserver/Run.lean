import Mathlib
import WeaveNet.Nameserver.Calls
import WeaveNet.Nameserver.Merge

/-!
# Runs of the nameserver on lower-case hostnames

The calls of `nameserver.go` as one state machine (`Nameserver.step`, `run`), and the invariant
that keeps it from panicking. A store is `Canon` when it passes the check and every hostname is
written in lower case (`Plain`, and `toLower` leaves it: `Lower`). On such a store:

* `AddEntry` of a lower-case hostname keeps it so (`add_spec`);
* `Delete` and `ContainerDied` rewrite only stamps, `PeerGone` and the sweep only filter, and
  neither breaks it (`tombstone_spec`, `filter_spec`);
* `receiveGossip` of such gossip from a peer either refuses it for clock skew or merges the entries
  of known peers, as `override` rewrote them, into the store (`receiveGossip_eq`): `override` keeps
  every incoming entry's record, as `findEqual` finds ours by its key (`strip_override`), and the
  merge is the union of the two lists (`merge_plain`).

So every call keeps the invariant (`step_canon`), and a run of any calls of this kind never panics
(`run_canon`). A weave network is one nameserver at each peer, with gossip sent by one peer's
`Gossip` and received by another's `receiveGossip`: in any interleaving of such calls and such
gossip no peer panics (`netRun_canon`). `sweep_panics` is a run that breaks the condition, with a
hostname written in two cases, and panics.
-/

namespace WeaveNet.Nameserver

open Lib Entries

/-- A store of lower-case hostnames: it passes the check, and every hostname is its own
`lHostname` and one that `toLower` leaves. -/
structure Canon (toLower : String → String) (es : Entries) : Prop where
  plain : Plain es
  lower : Lower toLower es

namespace Canon

variable {toLower : String → String} {es : Entries}

theorem mem (h : Canon toLower es) {e : Entry} (he : e ∈ es) :
    e.lHostname = e.Hostname ∧ e.lHostname = toLower e.Hostname :=
  ⟨h.plain.cased e he, h.lower e he⟩

theorem of_checked (hc : Checked es)
    (hl : ∀ e ∈ es, e.lHostname = e.Hostname ∧ e.lHostname = toLower e.Hostname) : Canon toLower es :=
  ⟨⟨hc, fun e he => (hl e he).1⟩, fun e he => (hl e he).2⟩

theorem filter (h : Canon toLower es) (p : Entry → Bool) : Canon toLower (List.filter p es) :=
  ⟨h.plain.filter p, fun e he => h.lower e (List.mem_filter.1 he).1⟩

/-- A map that rewrites no entry but its stamp keeps the store lower-case. -/
theorem map (h : Canon toLower es) {g : Entry → Entry} (hg : ∀ e ∈ es, (g e).strip = e.strip) :
    Canon toLower (es.map g) := by
  refine ⟨h.plain.map hg, fun e' he' => ?_⟩
  obtain ⟨e, he, rfl⟩ := List.mem_map.1 he'
  rw [Entry.lHostname_eq_of_strip (hg e he), Entry.Hostname_eq_of_strip (hg e he)]
  exact h.lower e he

theorem unionWith {xs ys : Entries} (hx : Canon toLower xs) (hy : Canon toLower ys) :
    Canon toLower (Lib.unionWith Entry.key Entry.merged xs ys) := by
  refine ⟨hx.plain.unionWith hy.plain, fun z hz => ?_⟩
  rcases mem_unionWith hz with hz | hz | ⟨x, hx', y, -, rfl⟩
  · exact hx.lower z hz
  · exact hy.lower z hz
  · rw [Entry.lHostname_merged, Entry.Hostname_merged]
    exact hx.lower x hx'

end Canon

/-! ## Receiving gossip -/

namespace Entries

/-- `findEqual` finds an entry of the list that is `equal`. -/
theorem findEqual_some {es : Entries} {e found : Entry} (h : es.findEqual e = some found) :
    found ∈ es ∧ found.equal e = true := by
  unfold findEqual at h
  split at h
  · next x hget =>
    split at h
    · next heq =>
      cases h
      exact ⟨List.mem_of_getElem? hget, heq⟩
    · cases h
  · cases h

/-- **What `filter` does with a rewrite.** On a list that passes the check, `filter` of a function
that keeps every entry, rewritten by `g`, does not panic when the rewritten list passes the check,
and returns it. -/
theorem filter_map_spec {es : Entries} (h : Checked es) {g : Entry → Entry} (hg : Checked (es.map g)) :
    es.filter (fun e => (true, g e)) = .ok (es.map g) := by
  simp [filter, checkAndPanic_eq_ok_iff.2 h, bind, Except.bind, pure, Except.pure,
    checkAndPanic_eq_ok_iff.2 hg]

end Entries

section Gossip

variable (isKnownPeer : PeerName → Bool) {now : Int} {n : Nameserver} {gossip : GossipData}

/-- `override` keeps the record of an incoming entry, and changes at most its stamp: the copy of
ours it puts in its place is `equal` to it, so of the same record when hostnames are written as
the order reads them. -/
theorem strip_override (hn : ∀ x ∈ n.entries, x.lHostname = x.Hostname) {e : Entry}
    (he : e.lHostname = e.Hostname) (now : Int) : (override n now e).1.strip = e.strip := by
  unfold override
  split_ifs
  · split
    · next ourEntry hfind =>
      obtain ⟨hmem, heq⟩ := findEqual_some hfind
      have hs : ourEntry.strip = e.strip :=
        Entry.strip_eq_of_key_eq (hn _ hmem) he ((Entry.equal_iff_key_eq (hn _ hmem) he).1 heq)
      split_ifs
      · exact hs
      · rfl
    · unfold Entry.tombstone
      split_ifs <;> rfl
  · rfl

/-- The entries `receiveGossip` merges: those of known peers, as `override` rewrote them. -/
def received (isKnownPeer : PeerName → Bool) (now : Int) (n : Nameserver) (gossip : GossipData) :
    Entries :=
  (List.filter (fun e => isKnownPeer e.Origin) gossip.Entries).map fun e => (override n now e).1

theorem received_canon {toLower : String → String} (hn : Canon toLower n.entries)
    (hg : Canon toLower gossip.Entries) : Canon toLower (received isKnownPeer now n gossip) :=
  (hg.filter _).map fun e he => strip_override hn.plain.cased ((hg.filter _).plain.cased e he) now

/-- Gossip whose timestamp is more than `gossipWindow` away is refused. -/
theorem receiveGossip_skew
    (hskew : gossip.Timestamp - now > gossipWindow ∨ gossip.Timestamp - now < -gossipWindow) :
    receiveGossip isKnownPeer now n gossip = .error (.clockSkew (gossip.Timestamp - now) gossipWindow) := by
  simp [receiveGossip, hskew, throw, throwThe, MonadExceptOf.throw, bind, Except.bind]

/-- **What `receiveGossip` does.** Gossip within the window, from a store like ours, does not
panic: the store becomes the union of ours and the entries of known peers, as `override` rewrote
them. -/
theorem receiveGossip_eq {toLower : String → String} (hn : Canon toLower n.entries)
    (hg : Canon toLower gossip.Entries)
    (hskew : ¬ (gossip.Timestamp - now > gossipWindow ∨ gossip.Timestamp - now < -gossipWindow)) :
    ∃ out, receiveGossip isKnownPeer now n gossip =
      .ok (out, { n with entries := unionWith Entry.key Entry.merged n.entries (received isKnownPeer now n gossip) }) := by
  have hknown := filter_spec hg.plain.valid fun e => isKnownPeer e.Origin
  have hrec : Canon toLower (received isKnownPeer now n gossip) := received_canon isKnownPeer hn hg
  have hover : Entries.filter (fun e => (true, (override n now e).1))
      (List.filter (fun e => isKnownPeer e.Origin) gossip.Entries) = .ok (received isKnownPeer now n gossip) :=
    filter_map_spec (hg.plain.filter fun e => isKnownPeer e.Origin).checked hrec.plain.checked
  obtain ⟨news, hmerge⟩ := merge_plain hn.plain hrec.plain
  simp only [receiveGossip, hskew, hknown, hover, hmerge, ↓reduceIte, Except.mapError, bind,
    Except.bind, pure, Except.pure]
  exact ⟨_, rfl⟩

end Gossip

/-! ## Every call keeps the store lower-case -/

/-- A call of lower-case hostnames: `AddEntry` of a hostname that `toLower` leaves, or gossip from
a store like ours. The other calls add no hostname. -/
def Event.Canon (toLower : String → String) : Event → Prop
  | .addEntry hostname _ _ _ => toLower hostname = hostname
  | .gossip _ msg => Nameserver.Canon toLower msg.Entries
  | _ => True

section Step

variable {toLower : String → String} (isKnownPeer : PeerName → Bool) {n : Nameserver}

theorem addEntry_canon (h : Canon toLower n.entries) {hostname : String} (hlow : toLower hostname = hostname)
    (containerid : String) (origin : PeerName) (addr : Address) :
    ∃ out n', n.addEntry toLower hostname containerid origin addr = .ok (out, n') ∧
      n'.ourName = n.ourName ∧ Canon toLower n'.entries := by
  obtain ⟨e, pre, old, post, hes, hadd, hchecked, hhost, hlowe, -⟩ :=
    add_spec h.plain.checked h.lower hostname containerid origin addr
  refine ⟨[e], { n with entries := pre ++ e :: post },
    by simp [addEntry, hadd, bind, Except.bind, pure, Except.pure], rfl,
    Canon.of_checked hchecked fun x hx => ?_⟩
  -- the entries around the added one were in the store; the added one is in lower case
  rcases List.mem_append.1 hx with hx | hx
  · exact h.mem (by rw [hes]; simp [hx])
  rcases List.mem_cons.1 hx with rfl | hx
  · refine ⟨?_, ?_⟩ <;> rw [hlowe, hhost, hlow]
  · exact h.mem (by rw [hes]; simp [hx])

theorem tombstoneOurs_canon (h : Canon toLower n.entries) (now : Int) (f : Entry → Bool) :
    ∃ out n', n.tombstoneOurs now f = .ok (out, n') ∧ n'.ourName = n.ourName ∧ Canon toLower n'.entries :=
  ⟨_, _, tombstoneOurs_spec h.plain.checked now f, rfl, h.map fun _ _ => strip_tombstoned ..⟩

theorem filterEntries_canon (h : Canon toLower n.entries) (p : Entry → Bool) :
    ∃ n', n.filterEntries p = .ok n' ∧ n'.ourName = n.ourName ∧ Canon toLower n'.entries :=
  ⟨_, filterEntries_spec h.plain.valid p, rfl, h.filter p⟩

theorem gossip_canon (h : Canon toLower n.entries) (now : Int) {msg : GossipData}
    (hg : Canon toLower msg.Entries) :
    ∃ out n', n.step toLower isKnownPeer (.gossip now msg) = .ok (out, n') ∧ n'.ourName = n.ourName ∧
      Canon toLower n'.entries := by
  by_cases hskew : msg.Timestamp - now > gossipWindow ∨ msg.Timestamp - now < -gossipWindow
  · -- refused for clock skew: nothing changes
    exact ⟨[], n, by simp [step, receiveGossip_skew isKnownPeer hskew, pure, Except.pure], rfl, h⟩
  · obtain ⟨out, hr⟩ := receiveGossip_eq isKnownPeer h hg hskew
    have hrec : Canon toLower (received isKnownPeer now n msg) := received_canon isKnownPeer h hg
    exact ⟨out.2.2, { n with entries := unionWith Entry.key Entry.merged n.entries (received isKnownPeer now n msg) },
      by simp [step, hr, pure, Except.pure], rfl, h.unionWith hrec⟩

/-- **Every call keeps the store lower-case.** A call of lower-case hostnames on a store of
lower-case hostnames does not panic, and leaves a store of lower-case hostnames. -/
theorem step_canon (h : Canon toLower n.entries) {ev : Event} (hev : ev.Canon toLower) :
    ∃ out n', n.step toLower isKnownPeer ev = .ok (out, n') ∧ n'.ourName = n.ourName ∧
      Canon toLower n'.entries := by
  cases ev with
  | addEntry hostname containerid origin addr => exact addEntry_canon h hev containerid origin addr
  | containerDied now ident => exact tombstoneOurs_canon h now _
  | peerGone peer =>
    obtain ⟨n', hn', hname, hc⟩ := filterEntries_canon h fun e => e.Origin ≠ peer
    exact ⟨[], n', by simp only [step, peerGone, hn', bind, Except.bind, pure, Except.pure], hname, hc⟩
  | delete now hostname containerid ipStr ip => exact tombstoneOurs_canon h now _
  | deleteTombstones now =>
    obtain ⟨n', hn', hname, hc⟩ := filterEntries_canon h fun e => e.Tombstone = 0 ∨ now - e.Tombstone ≤ tombstoneTimeout
    exact ⟨[], n', by simp only [step, deleteTombstones, hn', bind, Except.bind, pure, Except.pure], hname, hc⟩
  | gossip now msg => exact gossip_canon isKnownPeer h now hev

/-- **A run of lower-case hostnames never panics.** From a store of lower-case hostnames, any run
of calls that add only lower-case hostnames and receive only gossip of stores like ours ends
without a panic, in a store of lower-case hostnames. -/
theorem run_canon (h : Canon toLower n.entries) {evs : List Event} (hevs : ∀ ev ∈ evs, ev.Canon toLower) :
    ∃ n', run toLower isKnownPeer n evs = .ok n' ∧ n'.ourName = n.ourName ∧ Canon toLower n'.entries := by
  induction evs generalizing n with
  | nil => exact ⟨n, rfl, rfl, h⟩
  | cons ev evs ih =>
    obtain ⟨out, n₁, hstep, hname₁, h₁⟩ := step_canon isKnownPeer h (hevs ev (by simp))
    obtain ⟨n', hrun, hname, h'⟩ := ih h₁ fun ev' hev' => hevs ev' (by simp [hev'])
    refine ⟨n', ?_, hname.trans hname₁, h'⟩
    simp [run, hstep, hrun, bind, Except.bind]

theorem run_canon_web :
    let evs : List Event :=
      [.addEntry "web.weave.local." "c1" 1 0x0A200001, .gossip 0 ⟨0, [webEntry "db.weave.local."]⟩,
        .delete 1000 "web.weave.local." "c1" "*" 0, .deleteTombstones 2801]
    Canon String.toLower (new 1).entries ∧ (∀ ev ∈ evs, ev.Canon String.toLower) ∧
      ∃ n', run String.toLower (fun _ => true) (new 1) evs = .ok n' ∧ n'.ourName = (new 1).ourName ∧
        Canon String.toLower n'.entries := by
  intro evs
  have hnew : Canon String.toLower (new 1).entries := Canon.of_checked .nil (by simp [new])
  have hdb : Canon String.toLower [webEntry "db.weave.local."] :=
    Canon.of_checked (.singleton _) (by simp only [List.mem_singleton, forall_eq, webEntry]; decide +kernel)
  have hevs : ∀ ev ∈ evs, ev.Canon String.toLower := by
    simp only [evs, List.mem_cons, List.not_mem_nil, or_false, forall_eq_or_imp, forall_eq]
    exact ⟨show "web.weave.local.".toLower = "web.weave.local." by decide +kernel, hdb, trivial, trivial⟩
  exact ⟨hnew, hevs, run_canon (fun _ => true) hnew hevs⟩

end Step

/-! ## A network of nameservers -/

/-- What happens in a weave network: a call at one peer, or the gossip that the peer `src` sends at
the time `sent` (`Gossip`) and the peer `dst` receives at `now`. -/
inductive NetEvent where
  | call (peer : PeerName) (ev : Event)
  | gossip (src dst : PeerName) (sent now : Int)
  deriving DecidableEq, Repr

/-- A call of lower-case hostnames; gossip between peers always is one. -/
def NetEvent.Canon (toLower : String → String) : NetEvent → Prop
  | .call _ ev => ev.Canon toLower
  | .gossip .. => True

section Network

/- `isKnownPeer peer` is the peer's own view of the mesh, and `wire` the encoding of gossip and
its decoding at the receiver (`GossipData.Encode`, `Decode`). -/
variable (toLower : String → String) (isKnownPeer : PeerName → PeerName → Bool)
  (wire : GossipData → GossipData)

/-- One event of the network: the peer it happens at takes its step. A panic at any peer is the
error. -/
def netStep (net : PeerName → Nameserver) : NetEvent → Except CheckError (PeerName → Nameserver)
  | .call peer ev => do
    let (_, n) ← (net peer).step toLower (isKnownPeer peer) ev
    pure (Function.update net peer n)
  | .gossip src dst sent now => do
    let (_, n) ← (net dst).step toLower (isKnownPeer dst) (.gossip now (wire ((net src).gossip sent)))
    pure (Function.update net dst n)

/-- A run of the network, in one interleaving of its events; the first panic ends it. -/
def netRun : (PeerName → Nameserver) → List NetEvent → Except CheckError (PeerName → Nameserver)
  | net, [] => pure net
  | net, ev :: evs => do
    let net ← netStep toLower isKnownPeer wire net ev
    netRun net evs

variable {toLower wire}

/-- Replacing one peer's nameserver by one of the same name on a lower-case store keeps every
peer's name, and every store lower-case. -/
theorem update_canon {net : PeerName → Nameserver} (hnet : ∀ p, Canon toLower (net p).entries)
    {peer : PeerName} {n : Nameserver} (hname : n.ourName = (net peer).ourName) (hn : Canon toLower n.entries) :
    ∀ p, (Function.update net peer n p).ourName = (net p).ourName ∧
      Canon toLower (Function.update net peer n p).entries := by
  intro p
  by_cases hp : p = peer
  · subst hp
    rw [Function.update_self]
    exact ⟨hname, hn⟩
  · rw [Function.update_of_ne hp]
    exact ⟨rfl, hnet p⟩

/-- Every event of the network keeps every peer's store lower-case, when the wire keeps gossip so. -/
theorem netStep_canon (hwire : ∀ g, Canon toLower g.Entries → Canon toLower (wire g).Entries)
    {net : PeerName → Nameserver} (hnet : ∀ p, Canon toLower (net p).entries) {ev : NetEvent}
    (hev : ev.Canon toLower) :
    ∃ net', netStep toLower isKnownPeer wire net ev = .ok net' ∧
      ∀ p, (net' p).ourName = (net p).ourName ∧ Canon toLower (net' p).entries := by
  cases ev with
  | call peer ev =>
    obtain ⟨out, n, hstep, hname, hn⟩ := step_canon (isKnownPeer peer) (hnet peer) hev
    exact ⟨_, by simp only [netStep, hstep, bind, Except.bind, pure, Except.pure], update_canon hnet hname hn⟩
  | gossip src dst sent now =>
    -- what `src` gossips is its own store, which the wire keeps lower-case
    obtain ⟨out, n, hstep, hname, hn⟩ := gossip_canon (isKnownPeer dst) (hnet dst) now (hwire ((net src).gossip sent) (hnet src))
    exact ⟨_, by simp only [netStep, hstep, bind, Except.bind, pure, Except.pure], update_canon hnet hname hn⟩

/-- **No peer panics, in any interleaving.** In a network whose peers hold lower-case stores, any
interleaving of calls of lower-case hostnames at any peers and of gossip between any two of them
ends without a panic at any peer, every peer keeping its name and a lower-case store; the wire
only has to keep gossip of lower-case stores so. -/
theorem netRun_canon (hwire : ∀ g, Canon toLower g.Entries → Canon toLower (wire g).Entries)
    {net : PeerName → Nameserver} (hnet : ∀ p, Canon toLower (net p).entries) {evs : List NetEvent}
    (hevs : ∀ ev ∈ evs, ev.Canon toLower) :
    ∃ net', netRun toLower isKnownPeer wire net evs = .ok net' ∧
      ∀ p, (net' p).ourName = (net p).ourName ∧ Canon toLower (net' p).entries := by
  induction evs generalizing net with
  | nil => exact ⟨net, rfl, fun p => ⟨rfl, hnet p⟩⟩
  | cons ev evs ih =>
    obtain ⟨net₁, hstep, h₁⟩ := netStep_canon isKnownPeer hwire hnet (hevs ev (by simp))
    obtain ⟨net', hrun, h'⟩ := ih (fun p => (h₁ p).2) fun ev' hev' => hevs ev' (by simp [hev'])
    refine ⟨net', ?_, fun p => ⟨(h' p).1.trans (h₁ p).1, (h' p).2⟩⟩
    simp only [netRun, hstep, hrun, bind, Except.bind]

theorem netRun_canon_web :
    let evs : List NetEvent :=
      [.call 1 (.addEntry "web.weave.local." "c1" 1 0x0A200001), .gossip 1 2 100 100,
        .call 2 (.delete 200 "*" "*" "*" 0), .gossip 2 1 300 300]
    (∀ g : GossipData, Canon String.toLower g.Entries → Canon String.toLower (id g).Entries) ∧
      (∀ p, Canon String.toLower (new p).entries) ∧ (∀ ev ∈ evs, ev.Canon String.toLower) ∧
      ∃ net', netRun String.toLower (fun _ _ => true) id new evs = .ok net' ∧
        ∀ p, (net' p).ourName = (new p).ourName ∧ Canon String.toLower (net' p).entries := by
  intro evs
  have hwire : ∀ g : GossipData, Canon String.toLower g.Entries → Canon String.toLower (id g).Entries :=
    fun _ hg => hg
  have hnew : ∀ p, Canon String.toLower (new p).entries := fun _ => Canon.of_checked .nil (by simp [new])
  have hevs : ∀ ev ∈ evs, ev.Canon String.toLower := by
    simp only [evs, List.mem_cons, List.not_mem_nil, or_false, forall_eq_or_imp, forall_eq]
    exact ⟨show "web.weave.local.".toLower = "web.weave.local." by decide +kernel, trivial, trivial, trivial⟩
  exact ⟨hwire, hnew, hevs, netRun_canon (fun _ _ => true) hwire hnew hevs⟩

end Network

end WeaveNet.Nameserver
