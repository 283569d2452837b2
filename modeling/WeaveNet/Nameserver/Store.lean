import Mathlib
import WeaveNet.Lib.SortedSearch
import WeaveNet.Nameserver.Gossip

/-!
# The nameserver's store of entries

The model of the rest of `nameserver/nameserver.go` and of `Entries.lookup` and `Entries.first`
of `nameserver/entry.go`: the calls of the weave HTTP API and of Docker (`AddEntry`, `Delete`,
`ContainerDied`), of the mesh (`PeerGone`, the gossip of `receiveGossip`) and of the tombstone
sweep (`deleteTombstones`) as one state machine over the entries (`Nameserver.step`, `run`), and
the lookups that read it (`Lookup`, `ReverseLookup`).

Every call checks the list before and after it (`checkAndPanic`), and a failed check is a Go
panic, which ends the weave router. The modules above this one say what the calls do:

* `Nameserver.Check`: what the check accepts (`checkAndPanic_eq_ok_iff`), and what `add`,
  `tombstone`, `filter` and `lookup` do on a list it accepts (`add_spec`, `tombstone_spec`,
  `filter_spec`, `Entries.lookup_eq`);
* `Nameserver.Calls`: what each call answers afterwards (`lookup_case_insensitive`,
  `addEntry_lookup`, `delete_lookup`, `peerGone_lookup`, `deleteTombstones_lookup`), and a run of
  `AddEntry` around a case variant of a hostname, after which the sweep panics (`sweep_panics`);
* `Nameserver.Merge`: `merge` of two lists whose hostnames are in one case is their union, and
  `GossipData.Merge` a join (`merge_plain`, `gossipMerge_join`);
* `Nameserver.Run`: on hostnames in lower case every call keeps the store so (`step_canon`), and a
  run of such calls never panics (`run_canon`).
-/

namespace WeaveNet.Nameserver

open Lib

/-- `tombstoneTimeout`: 30 minutes, in seconds. -/
def tombstoneTimeout : Int := 1800

namespace Entries

/-- `es.lookup(hostname)`: the entries of the lower-cased hostname, from the first whose
`lHostname` is not below it to the first above it, each found by `sort.Search`. -/
def lookup (toLower : String → String) (hostname : String) (es : Entries) :
    Except CheckError Entries := do
  checkAndPanic es
  let lowerHostname := toLower hostname
  let i := search es.length fun i => decide (lowerHostname ≤ (es.getD i default).lHostname)
  match es[i]? with
  | some e =>
    if e.lHostname ≠ lowerHostname then pure []
    else
      let j := search (es.length - i) fun j => decide (lowerHostname < (es.getD (i + j) default).lHostname)
      pure ((es.drop i).take j)
  | none => pure []

/-- `es.first(f)`: the first entry `f` picks, or the error "Not found". -/
def first (f : Entry → Bool) (es : Entries) : Except CheckError (Except String Entry) := do
  checkAndPanic es
  match es.find? f with
  | some e => pure (.ok e)
  | none => pure (.error "Not found")

end Entries

section Calls

/- `toLower` is `strings.ToLower`. -/
variable (toLower : String → String)

/-- `New`: no entries yet. -/
def new (ourName : PeerName) : Nameserver := ⟨ourName, []⟩

/-- `n.AddEntry(hostname, containerid, origin, addr)`: add the record, and broadcast its entry. -/
def addEntry (hostname containerid : String) (origin : PeerName) (addr : Address) (n : Nameserver) :
    Except CheckError (Entries × Nameserver) := do
  let (entry, entries) ← n.entries.add toLower hostname containerid origin addr
  pure ([entry], { n with entries })

/-- `n.Lookup(hostname)`: the addresses of the live entries that `lookup` finds. -/
def lookup (hostname : String) (n : Nameserver) : Except CheckError (List Address) := do
  let entries ← n.entries.lookup toLower hostname
  pure (entries.filterMap fun e => if e.Tombstone > 0 then none else some e.Addr)

/-- `n.ReverseLookup(ip)`: the hostname of the first live entry of the address. -/
def reverseLookup (ip : Address) (n : Nameserver) : Except CheckError (Except String String) := do
  let r ← n.entries.first fun e => e.Tombstone = 0 ∧ e.Addr = ip
  pure (r.map (·.Hostname))

/-- What `ContainerDied` and `Delete` do, at the time `now`: tombstone our entries that `f` picks,
and broadcast them. -/
def tombstoneOurs (now : Int) (f : Entry → Bool) (n : Nameserver) :
    Except CheckError (Entries × Nameserver) := do
  let (entries, tombstoned) ← n.entries.tombstone now n.ourName f
  pure (tombstoned, { n with entries })

/-- What `PeerGone` and `deleteTombstones` do: keep the entries `p` keeps. -/
def filterEntries (p : Entry → Bool) (n : Nameserver) : Except CheckError Nameserver := do
  let entries ← n.entries.filter fun e => (p e, e)
  pure { n with entries }

/-- `n.ContainerDied(ident)`, at the time `now`: tombstone our entries of the container, and
broadcast them. -/
def containerDied (now : Int) (ident : String) (n : Nameserver) :
    Except CheckError (Entries × Nameserver) :=
  n.tombstoneOurs now fun e => e.ContainerID = ident

/-- `n.PeerGone(peer)`: drop the peer's entries. -/
def peerGone (peer : PeerName) (n : Nameserver) : Except CheckError Nameserver :=
  n.filterEntries fun e => e.Origin ≠ peer

/-- The entries `Delete` picks: `*` matches any hostname, container or address. -/
def deletes (hostname containerid ipStr : String) (ip : Address) (e : Entry) : Bool :=
  if hostname ≠ "*" ∧ e.Hostname ≠ hostname then false
  else if containerid ≠ "*" ∧ e.ContainerID ≠ containerid then false
  else if ipStr ≠ "*" ∧ e.Addr ≠ ip then false
  else true

/-- `n.Delete(hostname, containerid, ipStr, ip)`, at the time `now`: tombstone our entries it
picks, and broadcast them. -/
def delete (now : Int) (hostname containerid ipStr : String) (ip : Address) (n : Nameserver) :
    Except CheckError (Entries × Nameserver) :=
  n.tombstoneOurs now (deletes hostname containerid ipStr ip)

/-- `n.deleteTombstones()`, at the time `now`: drop the tombstones older than `tombstoneTimeout`. -/
def deleteTombstones (now : Int) (n : Nameserver) : Except CheckError Nameserver :=
  n.filterEntries fun e => e.Tombstone = 0 ∨ now - e.Tombstone ≤ tombstoneTimeout

/-- `n.Gossip()`, at the time `now`: all our entries. -/
def gossip (now : Int) (n : Nameserver) : GossipData := ⟨now, n.entries⟩

end Calls

/-- The calls that change the entries: the HTTP API's and Docker's (`AddEntry`, `Delete`,
`ContainerDied`), the mesh's (`PeerGone`, and gossip received by `OnGossip` or
`OnGossipBroadcast`, decoded), and the tombstone sweep of `Start`'s ticker. Each carries the time
it reads. -/
inductive Event where
  | addEntry (hostname containerid : String) (origin : PeerName) (addr : Address)
  | containerDied (now : Int) (ident : String)
  | peerGone (peer : PeerName)
  | delete (now : Int) (hostname containerid ipStr : String) (ip : Address)
  | deleteTombstones (now : Int)
  | gossip (now : Int) (msg : GossipData)
  deriving DecidableEq, Repr

/-- One call: the entries it broadcasts, and the nameserver after it; an error is a panic. Gossip
with too much clock skew is refused, and changes nothing. -/
def step (toLower : String → String) (isKnownPeer : PeerName → Bool) (n : Nameserver) :
    Event → Except CheckError (Entries × Nameserver)
  | .addEntry hostname containerid origin addr => n.addEntry toLower hostname containerid origin addr
  | .containerDied now ident => n.containerDied now ident
  | .peerGone peer => do pure ([], ← n.peerGone peer)
  | .delete now hostname containerid ipStr ip => n.delete now hostname containerid ipStr ip
  | .deleteTombstones now => do pure ([], ← n.deleteTombstones now)
  | .gossip now msg =>
    match receiveGossip isKnownPeer now n msg with
    | .ok ((_, _, overriddenEntries), n) => pure (overriddenEntries, n)
    | .error (.clockSkew _ _) => pure ([], n)
    | .error (.panic err) => throw err

/-- A run of calls, each from the nameserver the one before left; the first panic ends it. -/
def run (toLower : String → String) (isKnownPeer : PeerName → Bool) :
    Nameserver → List Event → Except CheckError Nameserver
  | n, [] => pure n
  | n, ev :: evs => do
    let (_, n) ← n.step toLower isKnownPeer ev
    run toLower isKnownPeer n evs

end WeaveNet.Nameserver
