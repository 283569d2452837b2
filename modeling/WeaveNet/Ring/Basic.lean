import WeaveNet.Lib.Search
import WeaveNet.Address.Basic

/-!
# The ring CRDT

The model of `ipam/ring`: a ring is a list of entries sorted by token, each entry owning the
addresses from its token up to the next entry's token, the last one wrapping round to the
first. Peers exchange rings by gossip and `Merge` them entry by entry, the higher version of a
token winning.

Peer names are a type parameter: `mesh.PeerName` is a `uint64` or a `string` depending on the
build, and the ring only compares names for equality; `mesh.UnknownPeerName` is the type's
`default` (`0` and `""`). Versions are `uint32`, as `Fin (2 ^ 32)`. Operations that can fail
return `Except RingError`; the ring's `onUpdate` callback, which only notifies the allocator,
is left out.
-/

namespace WeaveNet.Ring

/-- `type entry struct { Token; Peer; Version uint32; Free }`: the start of a range, its owner,
the version of this entry and the owner's count of free addresses in the range. -/
structure Entry (P : Type) where
  Token : Address
  Peer : P
  Version : Fin (2 ^ 32)
  Free : Count
  deriving DecidableEq, Repr, Inhabited

end WeaveNet.Ring

namespace WeaveNet

/-- `type Ring struct`: the ring's tokens lie in `[Start, End)`; `Peer` owns this copy. -/
structure Ring (P : Type) where
  Start : Address
  End : Address
  Peer : P
  Entries : List (Ring.Entry P)
  Seeds : List P
  deriving DecidableEq, Repr

namespace Ring

open Lib

variable {P : Type} [DecidableEq P] [Inhabited P]

/-- The errors of `ring.go`, with the values their messages print. -/
inductive RingError (P : Type) where
  /-- `ErrNotSorted`: "Ring not sorted". -/
  | notSorted
  /-- `ErrTokenRepeated`: "Token appears twice in ring". -/
  | tokenRepeated
  /-- `ErrTokenOutOfRange`: "Token is out of range". -/
  | tokenOutOfRange
  /-- `ErrDifferentSeeds`: "Received ring was seeded differently from ours". -/
  | differentSeeds
  /-- `ErrDifferentRange`: "Received range differs from ours". -/
  | differentRange
  /-- "Entry %s-%s reporting too much free space: %d > %d". -/
  | tooMuchFree (token next : Address) (free distance : Count)
  /-- `errInconsistentEntry`: "Inconsistent entries for %s: owned by %s but incoming message
  says %s". -/
  | inconsistentEntry (token : Address) (mine theirs : P)
  /-- `errEntryInMyRange`: "Peer %s says it owns the IP range from %s, which I think I own". -/
  | entryInMyRange (peer : P) (token : Address)
  /-- `errNewerVersion`: "Received update for IP range I own at %s v%d: incoming message says
  owner %s v%d". -/
  | newerVersion (token : Address) (mine : Fin (2 ^ 32)) (theirs : P) (theirsVersion : Fin (2 ^ 32))
  /-- "Merge of incoming data causes: %s". -/
  | mergeCauses (err : RingError P)
  deriving DecidableEq, Repr

/-! ## Entries -/

namespace Entry

/-- `entry.Equal`: same token, owner and version; the free count is not compared. -/
def Equal (e e2 : Entry P) : Bool := e.Token == e2.Token && e.Peer == e2.Peer && e.Version == e2.Version

/-- `entry.update`: a new owner and free count, one version later. -/
def update (e : Entry P) (peername : P) (free : Count) : Entry P :=
  { e with Peer := peername, Version := e.Version + 1, Free := free }

end Entry

namespace Entries

/-- `entries.entry`: the entry at index `i` taken modulo the length, so that `-1` is the last
entry and the length is the first. On an empty list Go divides by zero; no caller does that. -/
def entry (es : List (Entry P)) (i : Int) : Entry P :=
  es.getD (i % es.length).toNat default

/-- `entries.get`: the entry with the given token, found by binary search. -/
def get (es : List (Entry P)) (token : Address) : Option (Entry P) :=
  let i := search es.length (fun j => decide ((es.getD j default).Token ≥ token))
  if h : i < es.length then
    if es[i].Token = token then some es[i] else none
  else none

/-- `entries.insert`: put `e` at its place by token; Go panics if the token is there already. -/
def insert (es : List (Entry P)) (e : Entry P) : List (Entry P) :=
  let i := search es.length (fun j => decide ((es.getD j default).Token ≥ e.Token))
  es.take i ++ e :: es.drop i

end Entries

/-! ## Checking a list of entries -/

/-- `Ring.distance`: the number of addresses from `start` up to `end`, going round the ring
past `End` when `end` is not above `start`. -/
def distance (r : Ring P) (start endAddr : Address) : Count :=
  if endAddr > start then endAddr - start else (r.End - start) + (endAddr - r.Start)

/-- `sort.IsSorted(entries)`: no token is below its predecessor. -/
def isSorted : List (Entry P) → Bool
  | a :: b :: rest => !decide (b.Token < a.Token) && isSorted (b :: rest)
  | _ => true

/-- The loop "Check no token appears twice": adjacent tokens differ. -/
def hasRepeat : List (Entry P) → Bool
  | a :: b :: rest => decide (a.Token = b.Token) || hasRepeat (b :: rest)
  | _ => false

/-- The loop "Check all the freespaces are in range": each entry's free count is at most the
distance to the next entry, the entry at index `i + 1` modulo the length. -/
def checkFree (r : Ring P) (es : List (Entry P)) : List (Entry P) → Nat → Except (RingError P) Unit
  | [], _ => .ok ()
  | e :: rest, i =>
    let next := Entries.entry es (i + 1)
    let distance := r.distance e.Token next.Token
    if e.Free > distance then .error (.tooMuchFree e.Token next.Token e.Free distance)
    else checkFree r es rest (i + 1)

/-- `Ring.checkEntries`. -/
def checkEntries (r : Ring P) (entries : List (Entry P)) : Except (RingError P) Unit :=
  if !isSorted entries then .error .notSorted
  else if hasRepeat entries then .error .tokenRepeated
  else if entries = [] then .ok ()
  else if (Entries.entry entries 0).Token < r.Start then .error .tokenOutOfRange
  else if (Entries.entry entries (-1)).Token ≥ r.End then .error .tokenOutOfRange
  else checkFree r entries entries 0

/-- `Ring.checkInvariants`. -/
def checkInvariants (r : Ring P) : Except (RingError P) Unit := r.checkEntries r.Entries

/-- `New`: an empty ring. -/
def new (start endAddr : Address) (peer : P) : Ring P := ⟨start, endAddr, peer, [], []⟩

/-- `Ring.Empty`. -/
def Empty (r : Ring P) : Bool := r.Entries.isEmpty

/-- `Ring.Contains`. -/
def Contains (r : Ring P) (addr : Address) : Bool := decide (addr ≥ r.Start ∧ addr < r.End)

/-- `Ring.Owner`: the peer of the right-most entry at or below `token`, or of the last entry when
`token` lies before the first one. -/
def owner (r : Ring P) (token : Address) : P :=
  if r.Entries = [] then default
  else
    let preceedingEntry :=
      search r.Entries.length (fun j => decide ((r.Entries.getD j default).Token > token))
    (Entries.entry r.Entries ((preceedingEntry : Int) - 1)).Peer

/-! ## Merging gossiped entries -/

namespace Entries

/-- The last loop of `entries.merge`: the remaining incoming entries are taken, each checked
against the owner of the previous local entry emitted (`previousOwner`, reset after each
incoming one). -/
def mergeRest (ourPeer : P) : List (Entry P) → Option P → Bool → List (Entry P) →
    Except (RingError P) (List (Entry P) × Bool)
  | [], _, updated, result => .ok (result, updated)
  | theirs :: other, previousOwner, _, result =>
    if previousOwner = some ourPeer ∧ theirs.Peer ≠ ourPeer then
      .error (.entryInMyRange theirs.Peer theirs.Token)
    else mergeRest ourPeer other none true (result ++ [theirs])

/-- The main loop of `entries.merge` over both lists, one iteration per unit of `fuel`. Each
iteration takes an entry from at least one list, so `fuel = len es + len other` runs it to the
end, and no fuel is left only once both lists are done. -/
def mergeLoop (ourPeer : P) : Nat → List (Entry P) → List (Entry P) → Option P → Bool →
    List (Entry P) → Except (RingError P) (List (Entry P) × Bool)
  | fuel + 1, mine :: es, theirs :: other, previousOwner, updated, result =>
    if mine.Token < theirs.Token then
      mergeLoop ourPeer fuel es (theirs :: other) (some mine.Peer) updated (result ++ [mine])
    else if mine.Token > theirs.Token then
      -- insert, checking that a range owned by us has not been split
      if previousOwner = some ourPeer ∧ theirs.Peer ≠ ourPeer then
        .error (.entryInMyRange theirs.Peer theirs.Token)
      else mergeLoop ourPeer fuel (mine :: es) other none true (result ++ [theirs])
    else if mine.Version ≥ theirs.Version then
      if mine.Version = theirs.Version ∧ !mine.Equal theirs then
        .error (.inconsistentEntry mine.Token mine.Peer theirs.Peer)
      else mergeLoop ourPeer fuel es other (some mine.Peer) updated (result ++ [mine])
    else if mine.Peer = ourPeer then
      -- we should not receive updates to our own tokens
      .error (.newerVersion mine.Token mine.Version theirs.Peer theirs.Version)
    else mergeLoop ourPeer fuel es other none true (result ++ [theirs])
  | _ + 1, es, [], _, updated, result => .ok (result ++ es, updated)
  | _ + 1, [], other, previousOwner, updated, result =>
    mergeRest ourPeer other previousOwner updated result
  | 0, es, other, _, updated, result => .ok (result ++ es ++ other, updated)

/-- `entries.merge`: merge the incoming entries into ours, "and complain when that stomps on
entries belonging to ourPeer"; also return whether the result differs from ours. -/
def merge (es other : List (Entry P)) (ourPeer : P) :
    Except (RingError P) (List (Entry P) × Bool) :=
  mergeLoop ourPeer (es.length + other.length) es other none false []

end Entries

/-- `Ring.Merge`: check the gossiped ring, its seeds and its range, merge its entries and check
the result. On an error the receiving ring is unchanged: the new ring is only returned on
success. -/
def merge (r gossip : Ring P) : Except (RingError P) (Ring P × Bool) := do
  gossip.checkInvariants
  if gossip.Seeds ≠ [] ∧ r.Seeds ≠ [] then
    if gossip.Seeds.length ≠ r.Seeds.length then throw .differentSeeds
    -- the loop over the seeds compares them one by one
    if gossip.Seeds ≠ r.Seeds then throw .differentSeeds
  if r.Start ≠ gossip.Start ∨ r.End ≠ gossip.End then throw .differentRange
  let (result, updated) ← Entries.merge r.Entries gossip.Entries r.Peer
  match r.checkEntries result with
  | .error err => throw (.mergeCauses err)
  | .ok () => pure ()
  let r := if r.Seeds = [] then { r with Seeds := gossip.Seeds } else r
  pure ({ r with Entries := result }, updated)

/-- **`Merge` hands part of our range to another peer.** Our ring has one token, `10`, so we own
the whole ring, `[10, 100)` and, wrapping round, `[0, 10)`. A gossiped ring inserts peer `2`'s
token `5` before ours: no local entry has been emitted yet when it arrives, so the guard of
`entries.merge` does not fire, and afterwards `[5, 10)` is peer `2`'s. The same happens to our
range `[48, 50)` when an incoming entry of ours at `48` precedes a foreign one at `49`, since each
incoming entry clears the guard. -/
theorem merge_takes_our_range :
    let r : Ring Nat := ⟨0, 100, 1, [⟨10, 1, 0, 0⟩], []⟩
    let g : Ring Nat := ⟨0, 100, 2, [⟨5, 2, 0, 0⟩, ⟨10, 1, 0, 0⟩], []⟩
    let r' : Ring Nat := ⟨0, 100, 1, [⟨0, 1, 0, 0⟩, ⟨50, 3, 0, 0⟩], []⟩
    let g' : Ring Nat := ⟨0, 100, 2, [⟨0, 1, 0, 0⟩, ⟨48, 1, 0, 0⟩, ⟨49, 2, 0, 0⟩, ⟨50, 3, 0, 0⟩], []⟩
    r.checkInvariants = .ok () ∧ r.owner 7 = r.Peer ∧
      r.merge g = .ok ({ r with Entries := g.Entries }, true) ∧
      ({ r with Entries := g.Entries } : Ring Nat).owner 7 = 2 ∧
    r'.checkInvariants = .ok () ∧ r'.owner 49 = r'.Peer ∧
      r'.merge g' = .ok ({ r' with Entries := g'.Entries }, true) ∧
      ({ r' with Entries := g'.Entries } : Ring Nat).owner 49 = 2 := by
  decide

end Ring

end WeaveNet
