import WeaveNet.Ring.Basic
import WeaveNet.Lib.Map

/-!
# The ring's local operations

The operations a peer applies to its own copy of the ring: reading off the ranges a peer owns
(`ownedRangesOfPeer`), seeding an empty ring (`claimForPeers`), giving a range to another peer
(`grantRangeToHost`), reporting free space (`reportFree`) and taking over a departed peer's
entries (`transfer`). Go mutates entries through pointers; here each operation returns the new
ring. Their `common.Assert` preconditions are the callers' obligations and are not modelled.
-/

namespace WeaveNet.Ring

open Lib

variable {P : Type} [DecidableEq P] [Inhabited P]

/-- `Ring.splitRangesOverZero`: the ranges are in order except that the last may wrap past the
end of the ring; such a range is split in two, the part from `Start` moving to the front. -/
def splitRangesOverZero (r : Ring P) (ranges : List Range) : List Range :=
  match ranges.getLast? with
  | none => ranges
  | some lastRange =>
    -- if the end token is the ring's start, the range runs to the ring's end
    if lastRange.End = r.Start then ranges.dropLast ++ [⟨lastRange.Start, r.End⟩]
    else if lastRange.End ≤ lastRange.Start then
      ⟨r.Start, lastRange.End⟩ :: ranges.dropLast ++ [⟨lastRange.Start, r.End⟩]
    else ranges

/-- The loop of `OwnedRangesOfPeer`: the range of each entry of `peer`, up to the next token. -/
def rangesOfPeer (es : List (Entry P)) (peer : P) : List Range :=
  ((es.zipIdx).filter (fun (e, _) => e.Peer = peer)).map
    (fun (e, i) => ⟨e.Token, (Entries.entry es (i + 1)).Token⟩)

/-- `Ring.OwnedRangesOfPeer`. -/
def ownedRangesOfPeer (r : Ring P) (peer : P) : List Range :=
  r.splitRangesOverZero (rangesOfPeer r.Entries peer)

/-- `Ring.OwnedRanges`: the ranges this peer owns, "split around 0". -/
def ownedRanges (r : Ring P) : List Range := r.ownedRangesOfPeer r.Peer

/-- `RangeInfo`, for printing status: a range with the peer and the version of its entry. -/
structure RangeInfo (P : Type) where
  Peer : P
  Range : Range
  Version : Fin (2 ^ 32)
  deriving DecidableEq, Repr

/-- `Ring.AllRangeInfo`: the range of each entry up to the next token, split over zero, with the
entry's peer and version. -/
def allRangeInfo (r : Ring P) : List (RangeInfo P) :=
  r.Entries.zipIdx.flatMap fun (entry, i) =>
    (r.splitRangesOverZero [⟨entry.Token, (Entries.entry r.Entries (i + 1)).Token⟩]).map
      fun rg => ⟨entry.Peer, rg, entry.Version⟩

/-! ## Asking for space -/

/-- The loop of `ChoosePeersToAskForSpace` over the entries from index `i`: add the free space of
each entry whose range reaches `start`, until the first token at or past `end`, to its peer's total,
leaving out entries with no free space and our own. -/
def spacePerPeer (r : Ring P) (start endAddr : Address) :
    List (Entry P) → Nat → List (P × Count) → List (P × Count)
  | [], _, totals => totals
  | entry :: rest, i, totals =>
    -- ignore entries that don't span the range we want
    if i + 1 < r.Entries.length ∧ (Entries.entry r.Entries (i + 1)).Token - 1 < start then
      spacePerPeer r start endAddr rest (i + 1) totals
    else if entry.Token ≥ endAddr then totals
    -- ignore ranges with no free space
    else if entry.Free ≤ 0 then spacePerPeer r start endAddr rest (i + 1) totals
    -- don't talk to yourself
    else if entry.Peer = r.Peer then spacePerPeer r start endAddr rest (i + 1) totals
    else
      spacePerPeer r start endAddr rest (i + 1)
        (Map.set totals entry.Peer ((totals.lookup entry.Peer).getD 0 + entry.Free))

/-- `Ring.ChoosePeersToAskForSpace`: the peers we can ask for space in `[start, end)`, in weighted
random order, the largest product of a peer's free space and a random number first. `rand` holds
the draws of `rand.Float64()`, as numerators over `2^53`, in the order the totals are kept. -/
def choosePeersToAskForSpace (r : Ring P) (start endAddr : Address) (rand : List Nat) : List P :=
  let totalSpacePerPeer := r.spacePerPeer start endAddr r.Entries 0 []
  let ws := totalSpacePerPeer.zipIdx.map fun ((peername, space), i) => (space.val * rand.getD i 0, peername)
  (ws.mergeSort fun a b => decide (a.1 ≥ b.1)).map (·.2)

/-! ## Seeding -/

/-- `Ring.subdivide`: split `[from, to)` into CIDR-aligned parts, one for each peer, halving the
range and the peer list together. The recursion is bounded by `depth`, which `claimForPeers`
sets to the number of peers: each level halves a list of at least two. Go indexes `peers[0]`
and panics when no peer is left; the model then adds nothing. -/
def subdivide (fromA toA : Address) (peers : List P) (es : List (Entry P)) :
    Nat → List (Entry P)
  | 0 => es
  | depth + 1 =>
    let share := Address.length toA fromA
    if share = 0 then es
    else if share = 1 ∨ peers.length = 1 then
      match peers with
      | [] => es
      | peer :: _ => Entries.insert es ⟨fromA, peer, 0, share⟩
    else
      let mid := Address.add fromA (share / 2)
      let es := subdivide fromA mid (peers.take (peers.length / 2)) es depth
      subdivide (Address.add mid (share % 2)) toA (peers.drop (peers.length / 2)) es depth

/-- `Ring.ClaimForPeers`: "claims the entire ring for the array of peers passed in. Only works
for empty rings." -/
def claimForPeers (r : Ring P) (peers : List P) : Ring P :=
  { r with Entries := subdivide r.Start r.End peers r.Entries peers.length, Seeds := peers }

/-! ## Granting a range -/

/-- The loop "Give all intervening tokens to the other peer": the entries from `pos` on whose
token is below `end` go to `peer`; also return how many there were. -/
def grantTail (r : Ring P) (peer : P) (endAddr : Address) :
    List (Entry P) → List (Entry P) × Nat
  | [] => ([], 0)
  | e :: rest =>
    if e.Token < endAddr then
      let (rest, n) := grantTail r peer endAddr rest
      (e.update peer (min e.Free (r.distance e.Token endAddr)) :: rest, n + 1)
    else (e :: rest, 0)

/-- `Ring.GrantRangeToHost`: "modifies the ring such that range [start, end) is assigned to peer.
This may insert up to two new tokens." The range must be non-empty and owned by this peer. -/
def grantRangeToHost (r : Ring P) (start endAddr : Address) (peer : P) : Ring P :=
  let es := r.Entries
  -- the right-most entry at or below `start`, `-1` when `start` lies before the first token
  let preceedingPos : Int :=
    (search es.length (fun j => decide ((es.getD j default).Token > start)) : Int) - 1
  -- free space at start is the smaller of the length of the range and the distance to the next
  -- token
  let startFree := r.distance start (Entries.entry es (preceedingPos + 1)).Token
  let length := r.distance start endAddr
  let startFree := if startFree > length then length else startFree
  let previousEntry := Entries.entry es preceedingPos
  let (es, preceedingPos) :=
    if previousEntry.Token = start then
      (es.modify (preceedingPos % es.length).toNat (·.update peer startFree), preceedingPos)
    else
      -- a new token at `start`; the previous entry, which we own, keeps the space before it and
      -- moves up one place when it was the last entry, as `start` goes in front of all tokens
      let p := (preceedingPos % es.length).toNat
      let p := if p ≥ (preceedingPos + 1).toNat then p + 1 else p
      ((Entries.insert es ⟨start, peer, 0, startFree⟩).modify p
        (fun e => e.update r.Peer (r.distance e.Token start)), preceedingPos + 1)
  let pos := (preceedingPos + 1).toNat
  let (tail, n) := grantTail r peer endAddr (es.drop pos)
  let es := es.take pos ++ tail
  let pos := pos + n
  -- there is never an entry with a token of `End`, as the end of the ring is exclusive
  let endAddr := if endAddr = r.End then r.Start else endAddr
  if (Entries.get es endAddr).isSome then { r with Entries := es }
  else
    let endFree := r.distance endAddr (Entries.entry es pos).Token
    { r with Entries := Entries.insert es ⟨endAddr, r.Peer, 0, endFree⟩ }

/-! ## Free space and departed peers -/

/-- The loop of `Ring.ReportFree` over the reported free counts, by the start of each range. -/
def reportFreeLoop (r : Ring P) : List (Entry P) → List (Address × Count) → Bool →
    List (Entry P) × Bool
  | es, [], updated => (es, updated)
  | es, (start, free) :: rest, updated =>
    let i := search es.length (fun j => decide ((es.getD j default).Token ≥ start))
    if (es.getD i default).Free = free then reportFreeLoop r es rest updated
    else
      reportFreeLoop r (es.modify i (fun e => { e with Free := free, Version := e.Version + 1 }))
        rest true

/-- `Ring.ReportFree`: "tell the ring how many free ips are in a given range". The count for the
range that `OwnedRanges` split off at `Start` is added to that of the last token first. -/
def reportFree (r : Ring P) (freespace : List (Address × Count)) : Ring P × Bool :=
  let es := r.Entries
  let freespace :=
    match freespace.lookup r.Start with
    | some free =>
      if (Entries.entry es 0).Token ≠ r.Start then
        let lastToken := (Entries.entry es (-1)).Token
        let prevFree := (freespace.lookup lastToken).getD 0
        ((freespace.filter (·.1 ≠ r.Start)).filter (·.1 ≠ lastToken)) ++
          [(lastToken, prevFree + free)]
      else freespace
    | none => freespace
  let (es, updated) := reportFreeLoop r es freespace false
  ({ r with Entries := es }, updated)

/-- `Ring.Transfer`: "mark all entries associated with 'from' peer as owned by 'to' peer and
return ranges indicating the new space we picked up". -/
def transfer (r : Ring P) (fromPeer toPeer : P) : Ring P × List Range :=
  let newRanges := rangesOfPeer r.Entries fromPeer
  let es := r.Entries.map (fun e =>
    if e.Peer = fromPeer then { e with Peer := toPeer, Version := e.Version + 1 } else e)
  ({ r with Entries := es }, r.splitRangesOverZero newRanges)

end WeaveNet.Ring
