import WeaveNet.Nameserver.Entry

/-!
# Receiving gossip

The model of `Nameserver.receiveGossip` (`nameserver/nameserver.go`). A decoded gossip message,
its entries sorted case-insensitively and lower-cased, is rejected when its timestamp is more
than `gossipWindow` away from ours; its entries from unknown peers are dropped; and each entry
that claims to be ours is checked against our own copy, found by `findEqual`, before the merge
(`override`): a copy of ours that is older, or as old with another tombstone, is replaced by our
data one version above it, and an entry of ours that we do not know is deleted. The entries so
rewritten are broadcast again.

The check finds our copy only when `findEqual` does. `receiveGossip_deletes_our_entry` is a
message that `findEqual` misses our copy for, as the copy stands behind a case variant of its
hostname: the incoming deletion of our entry is merged in unchanged, beside our live copy, and
wins at the next peer.
-/

namespace WeaveNet

/-- The nameserver's state that gossip reads and writes: our peer name and our entries. -/
structure Nameserver where
  ourName : Nameserver.PeerName
  entries : Nameserver.Entries
  deriving DecidableEq, Repr

namespace Nameserver

/-- `gossipWindow`: half of `tombstoneTimeout` (30 minutes), in seconds. -/
def gossipWindow : Int := 900

/-- How `receiveGossip` fails: "host clock skew of %ds exceeds %ds limit", or a panic of
`checkAndPanic`. -/
inductive GossipError where
  | clockSkew (delta limit : Int)
  | panic (err : CheckError)
  deriving DecidableEq, Repr

/-- The second filter of `receiveGossip` on one incoming entry: the entry as it is merged, and
whether it was overridden. -/
def override (n : Nameserver) (now : Int) (e : Entry) : Entry × Option Entry :=
  if e.Origin = n.ourName then
    match n.entries.findEqual e with
    | some ourEntry =>
      if ourEntry.Version < e.Version ∨ (ourEntry.Version = e.Version ∧ ourEntry.Tombstone ≠ e.Tombstone) then
        -- our data, one version above the incoming
        let e := { ourEntry with Version := e.Version + 1 }
        (e, some e)
      else (e, none)
    | none =>
      match e.tombstone now with
      | (true, e) => (e, some e)
      | (false, e) => (e, none)
  else (e, none)

/-- `n.receiveGossip(msg)` on the decoded message, at the time `now`: the gossip of what was new
(or `none`), the message as merged, and the entries broadcast again. -/
def receiveGossip (isKnownPeer : PeerName → Bool) (now : Int) (n : Nameserver)
    (gossip : GossipData) : Except GossipError ((Option GossipData × GossipData × Entries) × Nameserver) := do
  let delta := gossip.Timestamp - now
  if delta > gossipWindow ∨ delta < -gossipWindow then throw (.clockSkew delta gossipWindow)
  let es ← (Entries.filter (fun e => (isKnownPeer e.Origin, e)) gossip.Entries).mapError .panic
  let overriddenEntries := es.filterMap fun e => (override n now e).2
  let es ← (Entries.filter (fun e => (true, (override n now e).1)) es).mapError .panic
  let (entries, newEntries) ← (Entries.merge n.entries es).mapError .panic
  let newGossip := if newEntries.isEmpty then none else some ⟨now, newEntries⟩
  pure ((newGossip, ⟨gossip.Timestamp, es⟩, overriddenEntries), { n with entries })

/-- **Gossip deletes one of our own entries.** We are peer `1` and hold our record `c1 → 10.32.0.1`
under both `web` and `Web`, live, in the order `add` leaves them. A message deletes our `Web` at
version `1`. `findEqual` stops at `web` and misses our `Web`, so the deletion is taken as an
unknown entry of ours, which is deleted already, and is merged in as it came: we now hold a
deleted `Web` beside our live one, broadcast no correction, and gossip the deletion on; a peer
that held our live `Web` deletes it on merging. -/
theorem receiveGossip_deletes_our_entry :
    let n : Nameserver := ⟨1, [webEntry "web", webEntry "Web"]⟩
    let deleted : Entry := { webEntry "Web" with Version := 1, Tombstone := 500 }
    n.entries.Valid ∧
      receiveGossip (fun _ => true) 1000 n ⟨1000, [deleted]⟩ =
        .ok ((some ⟨1000, [deleted]⟩, ⟨1000, [deleted]⟩, []),
          ⟨1, [deleted, webEntry "web", webEntry "Web"]⟩) ∧
      Entries.merge [webEntry "Web"] [deleted] = .ok ([deleted], [deleted]) := by
  decide +kernel

end Nameserver

end WeaveNet
