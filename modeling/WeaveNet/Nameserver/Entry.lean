import WeaveNet.Lib.Search
import WeaveNet.Address.Basic

/-!
# DNS entries and their merge

The model of `nameserver/entry.go`. Every peer keeps the DNS records of the whole cluster as one
list of entries, sorted case-insensitively (`insensitiveLess`: by lower-cased hostname, then
origin, container and address), and gossips it; a received list is merged in entry by entry
(`Entries.merge`), the higher version, then the later tombstone, of two `equal` entries winning.
`equal` compares hostnames as they are written. Go's `checkAndPanic` checks that a list is
sorted and that no two neighbours are `equal`; its panic is an error here (`CheckError`).

`Entries.Valid` is the representation invariant: sorted, and no two entries anywhere `equal`.
Two entries whose hostnames differ only in case are neither below nor above each other in the
order, so they may stand in either order, and `merge`, `add` and `findEqual`, which look only at
the first entry not below the one they seek, can miss an `equal` one behind its case variant.
`merge_self_duplicates` is such a merge: a valid list merged with itself gains a second copy of
one of its entries, and `check` still passes.

Strings are compared as Go compares them, by code point; `strings.ToLower` is a parameter
(`toLower`), since Lean's lower-casing only knows ASCII.
-/

namespace WeaveNet.Nameserver

open Lib

/-- `mesh.PeerName`, a `uint64` in the default build. -/
abbrev PeerName := Nat

/-- `type Entry struct`: a record `Hostname → Addr` of a container, made by the peer `Origin`;
`lHostname` is the lower-cased hostname, `Tombstone` the time of deletion, `0` while live. -/
structure Entry where
  ContainerID : String
  Origin : PeerName
  Addr : Address
  Hostname : String
  lHostname : String
  Version : Int
  Tombstone : Int
  deriving DecidableEq, Repr, Inhabited

/-- `type Entries []Entry`. -/
abbrev Entries := List Entry

namespace Entry

/-- `e1.equal(e2)`: the same record, hostnames compared as written. -/
def equal (e1 e2 : Entry) : Bool :=
  e1.ContainerID == e2.ContainerID && e1.Origin == e2.Origin && e1.Addr == e2.Addr &&
    e1.Hostname == e2.Hostname

/-- `e1.less(e2)` and `e1.insensitiveLess(e2)`: by hostname (as written, or lower-cased), then
origin, container and address. -/
def lessBy (e1Hostname e2Hostname : String) (e1 e2 : Entry) : Bool :=
  if e1Hostname ≠ e2Hostname then decide (e1Hostname < e2Hostname)
  else if e1.Origin ≠ e2.Origin then decide (e1.Origin < e2.Origin)
  else if e1.ContainerID ≠ e2.ContainerID then decide (e1.ContainerID < e2.ContainerID)
  else decide (e1.Addr < e2.Addr)

def less (e1 e2 : Entry) : Bool := lessBy e1.Hostname e2.Hostname e1 e2

def insensitiveLess (e1 e2 : Entry) : Bool := lessBy e1.lHostname e2.lHostname e1 e2

/-- `e1.merge(e2)` of two `equal` entries: the higher version wins, then the later tombstone;
also return whether `e1` changed. -/
def merge (e1 e2 : Entry) : Bool × Entry :=
  if e2.Version > e1.Version then (true, { e1 with Version := e2.Version, Tombstone := e2.Tombstone })
  else if e2.Version = e1.Version ∧ e2.Tombstone > e1.Tombstone then
    (true, { e1 with Tombstone := e2.Tombstone })
  else (false, e1)

/-- `e1.tombstone()`, at the time `now`: a live entry is deleted, one version later. -/
def tombstone (now : Int) (e1 : Entry) : Bool × Entry :=
  if e1.Tombstone > 0 then (false, e1)
  else (true, { e1 with Tombstone := now, Version := e1.Version + 1 })

end Entry

/-! ## Checking a list -/

/-- The panics of `check`: "Not sorted", and "Duplicate entry" of two neighbours, by index. -/
inductive CheckError where
  | notSorted
  | duplicate (i : Nat) (a b : Entry)
  deriving DecidableEq, Repr

/-- `sort.IsSorted`: no entry is below the one before it. -/
def isSorted (lt : Entry → Entry → Bool) : Entries → Bool
  | a :: b :: rest => !lt b a && isSorted lt (b :: rest)
  | _ => true

/-- The loop of `check` over neighbours, from index `i`. -/
def findDuplicate : Nat → Entries → Option CheckError
  | i, a :: b :: rest => if b.equal a then some (.duplicate i a b) else findDuplicate (i + 1) (b :: rest)
  | _, _ => none

/-- `check`, and the panic of `checkAndPanic`. -/
def check (lt : Entry → Entry → Bool) (es : Entries) : Except CheckError Unit :=
  if !isSorted lt es then .error .notSorted
  else match findDuplicate 0 es with
    | some err => .error err
    | none => .ok ()

/-- `es.checkAndPanic()`: the case-insensitive `check`. -/
def checkAndPanic (es : Entries) : Except CheckError Unit := check Entry.insensitiveLess es

namespace Entries

/-- The representation invariant: sorted case-insensitively, and no two entries `equal`. -/
def Valid (es : Entries) : Prop :=
  isSorted Entry.insensitiveLess es = true ∧ es.Pairwise fun a b => a.equal b = false

instance (es : Entries) : Decidable es.Valid := inferInstanceAs (Decidable (_ ∧ _))

/-- The index `sort.Search` finds: the first entry not below `e`. -/
def searchIndex (es : Entries) (e : Entry) : Nat :=
  search es.length fun i => !(es.getD i default).insensitiveLess e

/-- `es.add`: the entry of a new record; an `equal` one found at the searched index is revived
if it was deleted, and is returned. -/
def add (toLower : String → String) (hostname containerid : String) (origin : PeerName)
    (addr : Address) (es : Entries) : Except CheckError (Entry × Entries) := do
  checkAndPanic es
  let entry : Entry := ⟨containerid, origin, addr, hostname, toLower hostname, 0, 0⟩
  let i := searchIndex es entry
  let (e, es) :=
    match es[i]? with
    | some found =>
      if found.equal entry then
        let found := if found.Tombstone > 0 then { found with Tombstone := 0, Version := found.Version + 1 }
          else found
        (found, es.set i found)
      else (entry, es.take i ++ entry :: es.drop i)
    | none => (entry, es.take i ++ entry :: es.drop i)
  checkAndPanic es
  pure (e, es)

/-- The inner loop of `es.merge`: from index `i`, past the entries below `entry`. -/
def skipBelow (es : Entries) (entry : Entry) (i : Nat) : Nat :=
  i + ((es.drop i).takeWhile (·.insensitiveLess entry)).length

/-- The outer loop of `es.merge` over the incoming entries, with the scan index `i` and the
entries that were new. -/
def mergeLoop : Entries → Nat → Entries → Entries → Entries × Entries
  | es, _, [], newEntries => (es, newEntries)
  | es, i, entry :: incoming, newEntries =>
    let i := skipBelow es entry i
    match es[i]? with
    | some e =>
      if e.equal entry then
        let (changed, e) := e.merge entry
        mergeLoop (es.set i e) i incoming (if changed then newEntries ++ [entry] else newEntries)
      else mergeLoop (es.take i ++ entry :: es.drop i) i incoming (newEntries ++ [entry])
    | none => mergeLoop (es.take i ++ entry :: es.drop i) i incoming (newEntries ++ [entry])

/-- `es.merge(incoming)`: the merged list, and the incoming entries that were new or newer. -/
def merge (es incoming : Entries) : Except CheckError (Entries × Entries) := do
  checkAndPanic es
  checkAndPanic incoming
  let (es, newEntries) := mergeLoop es 0 incoming []
  checkAndPanic es
  pure (es, newEntries)

/-- `es.tombstone(ourname, f)`: delete the live entries of ours that `f` picks. -/
def tombstone (now : Int) (ourname : PeerName) (f : Entry → Bool) (es : Entries) :
    Except CheckError (Entries × Entries) := do
  checkAndPanic es
  let step := fun (e : Entry) =>
    if f e ∧ e.Origin = ourname then
      match e.tombstone now with
      | (true, e) => (e, some e)
      | (false, e) => (e, none)
    else (e, none)
  let results := es.map step
  let es := results.map (·.1)
  checkAndPanic es
  pure (es, results.filterMap (·.2))

/-- `es.filter(f)`: keep the entries `f` keeps, as `f` rewrote them. -/
def filter (f : Entry → Bool × Entry) (es : Entries) : Except CheckError Entries := do
  checkAndPanic es
  let es := es.filterMap fun e => if (f e).1 then some (f e).2 else none
  checkAndPanic es
  pure es

/-- `es.findEqual(e)`: the entry at the searched index, if it is `equal` to `e`. -/
def findEqual (es : Entries) (e : Entry) : Option Entry :=
  match es[searchIndex es e]? with
  | some found => if found.equal e then some found else none
  | none => none

end Entries

/-- `type GossipData struct`. -/
structure GossipData where
  Timestamp : Int
  Entries : Entries
  deriving DecidableEq, Repr

/-- `g.Merge(other)`: a copy of `g` with `other`'s entries merged in and the later timestamp. -/
def GossipData.Merge (g other : GossipData) : Except CheckError GossipData := do
  let (es, _) ← Entries.merge g.Entries other.Entries
  pure ⟨max g.Timestamp other.Timestamp, es⟩

/-! ## A merge that duplicates an entry -/

/-- The record `web → 10.32.0.1` of container `c1`, made by peer `1`, under a hostname spelt
`hostname`, as `add` makes it. -/
def webEntry (hostname : String) : Entry := ⟨"c1", 1, 0x0A200001, hostname, hostname.toLower, 0, 0⟩

/-- **Merging a list with itself duplicates an entry.** The list holds the same record under
`web` and under `Web`, as `add` leaves them after adding `Web` and then `web`; it is valid. Merged
with itself it gains a third entry, a second copy of `Web`: the scan for `Web` stops at `web`,
which is not below it and not `equal` to it, and inserts it there. `checkAndPanic` does not see
it, as the two copies are not neighbours; so `Merge` of a gossip with itself is not idempotent. -/
theorem merge_self_duplicates :
    let a : Entries := [webEntry "web", webEntry "Web"]
    a.Valid ∧ (Entries.add String.toLower "Web" "c1" 1 0x0A200001 [] >>= fun (_, es) =>
        Entries.add String.toLower "web" "c1" 1 0x0A200001 es) = .ok (webEntry "web", a) ∧
      Entries.merge a a = .ok ([webEntry "Web", webEntry "web", webEntry "Web"], [webEntry "Web"]) ∧
      GossipData.Merge ⟨0, a⟩ ⟨0, a⟩ = .ok ⟨0, [webEntry "Web", webEntry "web", webEntry "Web"]⟩ := by
  decide +kernel

end WeaveNet.Nameserver
