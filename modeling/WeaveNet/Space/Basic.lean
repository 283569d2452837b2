import WeaveNet.Space.AddSub

/-!
# The address space of one peer

The model of `type Space` (`ipam/space/space.go`): the addresses a peer owns and has handed out
(`ours`) and the addresses it owns and has not (`free`), each a boundary array. The operations
are the Go methods with the receiver passed and returned explicitly; an operation that can fail
returns `Except SpaceError`, carrying the address the error message names, and leaves the space
as it was.

`walkFree` is the one loop of the file: it hands each free range, cut to the requested range,
to a callback that may stop the walk. The Go callbacks are closures that write to captured
variables; here the captured variables are the state `σ` the callback threads.
-/

namespace WeaveNet

/-- `type Space struct { ours, free []address.Address }`. -/
structure Space where
  ours : List Address
  free : List Address
  deriving DecidableEq, Repr

namespace Space

/-- The errors `Space.Claim` and `Space.Free` return; each names the address it refuses. -/
inductive SpaceError where
  /-- `"Address %v is not free to claim"` (`space.go:83`). -/
  | notFreeToClaim (addr : Address)
  /-- `"Address %v is not ours"` (`space.go:118`). -/
  | notOurs (addr : Address)
  /-- `"Address %v is already free"` (`space.go:121`). -/
  | alreadyFree (addr : Address)
  deriving DecidableEq, Repr

/-- `New`: an empty space. -/
def new : Space := ⟨[], []⟩

/-- `Clear`: "removes all spaces from this space set. Used during node shutdown." -/
def clear (_ : Space) : Space := ⟨[], []⟩

/-- The body of the loop of `walkFree` over the pairs of the free array: skip a free range that
ends before `r`, stop at one that starts after it, and hand the others, cut to `r`, to `f`. -/
def walkChunks {σ : Type} (r : Range) (f : Range → σ → Bool × σ) :
    List Address → σ → Bool × σ
  | s :: e :: rest, st =>
    if e ≤ r.Start then walkChunks r f rest st
    else if s ≥ r.End then (false, st)
    else
      match f ⟨if s < r.Start then r.Start else s, if e > r.End then r.End else e⟩ st with
      | (true, st') => (true, st')
      | (false, st') => walkChunks r f rest st'
  | _, st => (false, st)

/-- `walkFree`: "Walk down the free list calling f() on the in-range portions, until f() returns
true or we run out of free space. Return true iff f() returned true". -/
def walkFree {σ : Type} (s : Space) (r : Range) (f : Range → σ → Bool × σ) (st : σ) :
    Bool × σ :=
  if r.Start ≥ r.End then (false, st) else walkChunks r f s.free st

/-- `Allocate`: take the first in-range free address and move it from `free` to `ours`. The
returned address is the one the callback stored (`result` is read after the walk, as the
source's tests rely on). -/
def allocate (s : Space) (r : Range) : Space × Bool × Address :=
  let (ok, result, ours, free) := walkFree s r (fun chunk (_, ours, free) =>
    (true, chunk.Start, add ours chunk.Start (chunk.Start + 1),
      subtract free chunk.Start (chunk.Start + 1))) (0, s.ours, s.free)
  (⟨ours, free⟩, ok, result)

/-- `Claim`: move one free address to `ours`. -/
def claim (s : Space) (addr : Address) : Space × Except SpaceError Unit :=
  if !contains s.free addr then (s, .error (.notFreeToClaim addr))
  else (⟨add s.ours addr (addr + 1), subtract s.free addr (addr + 1)⟩, .ok ())

/-- The sum of the lengths of the ranges of a boundary array, as the loops of
`NumOwnedAddresses` and `NumFreeAddresses` add them up, in `uint32`. -/
def sumRanges : List Address → Count
  | s :: e :: rest => Address.length e s + sumRanges rest
  | _ => 0

/-- `NumOwnedAddresses`. -/
def numOwnedAddresses (s : Space) : Count := sumRanges s.ours

/-- `NumFreeAddresses`. -/
def numFreeAddresses (s : Space) : Count := sumRanges s.free

/-- `NumFreeAddressesInRange`: the sizes of the in-range free chunks, added up by the callback. -/
def numFreeAddressesInRange (s : Space) (r : Range) : Count :=
  (walkFree s r (fun chunk res => (false, res + chunk.size)) 0).2

/-- `Free`: give an address of `ours` back to `free` (the name `free` is the field's). -/
def freeAddr (s : Space) (addr : Address) : Space × Except SpaceError Unit :=
  if !contains s.ours addr then (s, .error (.notOurs addr))
  else if contains s.free addr then (s, .error (.alreadyFree addr))
  else (⟨subtract s.ours addr (addr + 1), add s.free addr (addr + 1)⟩, .ok ())

/-- `biggestFreeRange`: over the in-range free chunks, keep the last of the largest aligned
blocks (`>=` on both the chunk size and the block size). -/
def biggestFreeRange (s : Space) (r : Range) : Range :=
  (walkFree s r (fun chunk (biggest, biggestSize) =>
    if chunk.size ≥ biggestSize then
      let chunk := chunk.biggestCIDRRange
      if chunk.size ≥ biggestSize then (false, chunk, chunk.size) else (false, biggest, biggestSize)
    else (false, biggest, biggestSize)) ((⟨0, 0⟩ : Range), (0 : Count))).2.1

/-- `Donate`: give away the biggest aligned free block in `r`, or its upper half when it is more
than half of the free space in `r`. -/
def donate (s : Space) (r : Range) : Space × Range × Bool :=
  let biggest := s.biggestFreeRange r
  if biggest.size = 0 then (s, ⟨0, 0⟩, false)
  else
    let biggest := if biggest.size > s.numFreeAddressesInRange r / 2 then
      { biggest with Start := Address.add biggest.Start (biggest.size / 2) } else biggest
    (⟨subtract s.ours biggest.Start biggest.End, subtract s.free biggest.Start biggest.End⟩,
      biggest, true)

/-- The loop of `everything` and of the last loop of `UpdateRanges`: add each range of a
boundary array to another. -/
def addAll (a : List Address) : List Address → List Address
  | s :: e :: rest => addAll (add a s e) rest
  | _ => a

/-- The middle loop of `UpdateRanges`: subtract each range of a boundary array. -/
def subtractAll (a : List Address) : List Address → List Address
  | s :: e :: rest => subtractAll (subtract a s e) rest
  | _ => a

/-- `everything`: "a slice representing everything we own, whether it is free or not". -/
def everything (s : Space) : List Address := addAll s.ours s.free

/-- The pairs of a boundary array as ranges. -/
def toRanges : List Address → List Range
  | s :: e :: rest => ⟨s, e⟩ :: toRanges rest
  | _ => []

/-- `OwnedRanges`: the ranges of `everything`, "gluing together contiguous sequences of owned and
free addresses". -/
def ownedRanges (s : Space) : List Range := toRanges s.everything

/-- The boundary array of a list of ranges, added one by one. -/
def ofRanges (ranges : List Range) : List Address :=
  ranges.foldl (fun a r => add a r.Start r.End) []

/-- `UpdateRanges`: "Taking ranges to be a set of all space we should own, add in any excess as
free space". -/
def updateRanges (s : Space) (ranges : List Range) : Space :=
  let new := ofRanges ranges
  let new := subtractAll new s.everything
  { s with free := addAll s.free new }

end Space

end WeaveNet
