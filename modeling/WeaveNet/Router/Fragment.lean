import Mathlib
import WeaveNet.Lib.Chunks

/-!
# Fragmenting IP packets in the sleeve

When the kernel cannot be trusted to fragment, `curriedForward.Process` (`src/router/sleeve.go`)
cuts an IPv4 packet too big for the sleeve's MTU into fragments itself, with `fragment`. That
cuts the payload into segments of `maxSegmentSize` bytes, `mtu - 4 * IHL` rounded down to a
multiple of 8. Its loop keeps two cursors, an offset and the slice of the payload left, and
carries one copy of the headers from pass to pass: it writes each fragment's `FragOffset`, and,
when what is left fits, the last fragment's `Length`, the original `Flags` and the Ethernet
length.

With a segment size `S` of at least 8, the loop ends after `⌈P / S⌉` passes over a payload of
`P` bytes (`fragment_eq`, `fragmentLoop_cursorAt`), and the `k`-th fragment is `IsFragment`:
the bytes `[k * S, min ((k + 1) * S, P))` of the payload, `k * S` bytes further on, its own
length, and `MoreFragments` set unless it is the last, which keeps the original flags. A
receiver that joins the fragments in order (`reassemble`) gets the original packet back
(`reassemble_of_isFragment`).

`Process` sends a frame whole or refuses it when its `DF` flag is set, leaves it to the kernel
when `stackFrag` is on, and otherwise sends it whole with `DF` set if it fits and fragmented if
not (`process`). Whatever the frame, every frame it hands to the `DF` aggregator fits the MTU
(`process_dfFrames_fit`): every pass of the loop forwards at most a segment
(`fragmentLoop_forwarded`).

`gopacket.SerializeLayers` is a parameter, `serializeLayers`, whose result `forward` receives.
The header fields that `fragment` neither reads nor writes are not modelled: every fragment
carries the original's.
-/

namespace WeaveNet.Router

open Lib

/-- `layers.EthernetTypeLLC`. -/
def EthernetTypeLLC : UInt16 := 0

/-- `layers.IPv4MoreFragments`, the lowest of the three `IPv4Flag` bits. -/
def IPv4MoreFragments : UInt8 := 1

/-- The fields of a `layers.Ethernet` that `fragment` reads or writes. -/
structure Ethernet where
  EthernetType : UInt16
  Length : UInt16
  deriving DecidableEq, Repr

/-- The fields of a `layers.IPv4` that `fragment` reads or writes, and the layer's payload
(`BaseLayer.Payload`). -/
@[ext]
structure IPv4 where
  IHL : UInt8
  Length : UInt16
  Flags : UInt8
  FragOffset : UInt16
  Payload : List UInt8
  deriving DecidableEq, Repr

/-- The layers `fragment` hands to `gopacket.SerializeLayers` for one fragment. -/
structure Layers where
  eth : Ethernet
  ip : IPv4
  payload : List UInt8
  deriving DecidableEq, Repr

/-- The Ethernet length that goes with an IP length: an LLC frame's is that of its payload, the
IP packet, and other frames have none. -/
def Ethernet.setLength (eth : Ethernet) (ipLength : UInt16) : Ethernet :=
  { eth with Length := if eth.EthernetType = EthernetTypeLLC then ipLength else 0 }

@[simp] theorem Ethernet.setLength_setLength (eth : Ethernet) (a b : UInt16) :
    (eth.setLength a).setLength b = eth.setLength b := rfl

/-- The variables the loop of `fragment` carries from one pass to the next. -/
structure Cursor where
  offset : Int
  payload : List UInt8
  eth : Ethernet
  ip : IPv4

/-! ## The model -/

section Loop
variable {α : Type} (serializeLayers : Layers → Except String α)
  (headerSize maxSegmentSize payloadSize offsetBase : Int) (origFlags : UInt8)

/-- The first part of a pass of the loop of `fragment`: the segment's payload and the loop's
variables after it. When what is left of the payload fits, it is the last segment, and the
headers get its length and the original flags; `payload[:maxSegmentSize]` panics at a negative
size (`none`). -/
def segment (c : Cursor) : Option (List UInt8 × Cursor) :=
  if (c.payload.length : Int) ≤ maxSegmentSize then
    let ip := { c.ip with
      Length := UInt16.ofInt (c.payload.length + headerSize), Flags := origFlags }
    some (c.payload, { c with eth := c.eth.setLength ip.Length, ip })
  else if maxSegmentSize < 0 then none
  else
    some (c.payload.take maxSegmentSize.toNat,
      { c with payload := c.payload.drop maxSegmentSize.toNat })

/-- The loop of `fragment`, over at most `fuel` passes: the results of `serializeLayers` that it
forwards, in order, and the error that stops it, if any; `none` when a pass panics or the passes
run out. -/
def fragmentLoop : Nat → Cursor → Option (List α × Option String)
  | 0, _ => none
  | fuel + 1, c =>
    if c.offset < payloadSize then
      match segment headerSize maxSegmentSize origFlags c with
      | none => none
      | some (segmentPayload, c) =>
        let ip := { c.ip with FragOffset := UInt16.ofInt ((c.offset + offsetBase) >>> (3 : Nat)) }
        match serializeLayers ⟨c.eth, ip, segmentPayload⟩ with
        | .error err => some ([], some err)
        | .ok frame =>
          (fragmentLoop fuel { c with offset := c.offset + maxSegmentSize, ip }).map
            fun r => (frame :: r.1, r.2)
    else some ([], none)

end Loop

section Passes
variable {α : Type} {serializeLayers : Layers → Except String α}
  {headerSize maxSegmentSize payloadSize offsetBase : Int} {origFlags : UInt8} {c : Cursor}
  {fuel : Nat}

/-- When what is left fits in a segment, it is the last segment. -/
theorem segment_of_le (h : (c.payload.length : Int) ≤ maxSegmentSize) :
    segment headerSize maxSegmentSize origFlags c =
      some (c.payload, { c with
        eth := c.eth.setLength (UInt16.ofInt (c.payload.length + headerSize)),
        ip := { c.ip with
          Length := UInt16.ofInt (c.payload.length + headerSize), Flags := origFlags } }) := by
  rw [segment, if_pos h]

/-- Otherwise a segment is cut off the front of what is left. -/
theorem segment_of_lt (h : maxSegmentSize < c.payload.length) (h0 : 0 ≤ maxSegmentSize) :
    segment headerSize maxSegmentSize origFlags c =
      some (c.payload.take maxSegmentSize.toNat,
        { c with payload := c.payload.drop maxSegmentSize.toNat }) := by
  rw [segment, if_neg (by omega), if_neg (by omega)]

/-- A pass with the offset past the payload stops the loop. -/
theorem fragmentLoop_of_ge (h : ¬c.offset < payloadSize) :
    fragmentLoop serializeLayers headerSize maxSegmentSize payloadSize offsetBase origFlags
      (fuel + 1) c = some ([], none) := by
  rw [fragmentLoop, if_neg h]

/-- A pass inside the payload whose segment serializes to `frame` forwards `frame`, and the
passes after it go on a segment further, with the `FragOffset` it wrote. -/
theorem fragmentLoop_of_ok {c' : Cursor} {p : List UInt8} {frame : α}
    (hoff : c.offset < payloadSize)
    (hseg : segment headerSize maxSegmentSize origFlags c = some (p, c'))
    (hser : serializeLayers ⟨c'.eth,
      { c'.ip with FragOffset := UInt16.ofInt ((c'.offset + offsetBase) >>> (3 : Nat)) }, p⟩ =
        .ok frame) :
    fragmentLoop serializeLayers headerSize maxSegmentSize payloadSize offsetBase origFlags
        (fuel + 1) c =
      (fragmentLoop serializeLayers headerSize maxSegmentSize payloadSize offsetBase origFlags
        fuel { c' with
          offset := c'.offset + maxSegmentSize,
          ip := { c'.ip with
            FragOffset := UInt16.ofInt ((c'.offset + offsetBase) >>> (3 : Nat)) } }).map
        fun r => (frame :: r.1, r.2) := by
  rw [fragmentLoop, if_pos hoff, hseg]
  dsimp only
  rw [hser]

end Passes

/-- `fragment(eth, ip, mtu, forward)`: what `forward` receives, in order, and the error returned.
`none` where the Go function does not return: the slice of the payload panics (or, past the
payload's length, reads beyond it), a negative segment size panics, and one of 0 loops. -/
def fragment {α : Type} (serializeLayers : Layers → Except String α) (eth : Ethernet)
    (ip : IPv4) (mtu : Int) : Option (List α × Option String) :=
  let headerSize : Int := ip.IHL.toNat * 4
  -- `&^ 7` clears the lowest three bits: of a two's-complement `int`, its remainder mod 8
  let maxSegmentSize := (mtu - headerSize) - (mtu - headerSize) % 8
  let payloadSize : Int := ip.Length.toNat - headerSize
  if payloadSize < 0 ∨ (ip.Payload.length : Int) < payloadSize then none
  else
    let payload := ip.Payload.take payloadSize.toNat
    let offsetBase : Int := (ip.FragOffset.toNat : Int) <<< 3
    let origFlags := ip.Flags
    let ip := { ip with
      Flags := ip.Flags ||| IPv4MoreFragments,
      Length := UInt16.ofInt (headerSize + maxSegmentSize) }
    let eth := eth.setLength ip.Length
    -- a pass per segment of at least one byte, and a last test of the offset
    fragmentLoop serializeLayers headerSize maxSegmentSize payloadSize offsetBase origFlags
      (payloadSize.toNat + 1) ⟨0, payload, eth, ip⟩

/-- 24 bytes of payload after a 20-byte header, at an MTU of 36: two fragments of 16 and 8
bytes, 3 and 5 blocks of 8 in, the first with `MoreFragments` set. -/
example : (fragment (fun l => .ok l) ⟨0x0800, 0⟩ ⟨5, 44, 2, 3, List.replicate 24 7⟩ 36).map
      (fun r => r.1.map fun l => (l.ip.FragOffset, l.ip.Length, l.ip.Flags, l.payload.length)) =
    some [(3, 36, 3, 16), (5, 28, 2, 8)] := by
  decide

/-- `EthernetOverhead`: the Ethernet header, which a captured frame holds and an MTU does not
count. -/
def EthernetOverhead : Int := 14

/-- `frameTooBig`. -/
def frameTooBig (frame : List UInt8) (mtu : Int) : Bool :=
  decide ((frame.length : Int) > mtu + EthernetOverhead)

/-- What `curriedForward.Process` does with a captured frame. -/
inductive Forwarding where
  /-- the peer has not been contacted yet: the frame is dropped -/
  | awaitingContact
  /-- the frame goes to the `DF` aggregator as it is -/
  | aggregateDF (frame : List UInt8)
  /-- a `DF` broadcast frame too big for the MTU is dropped -/
  | dropBroadcast
  /-- a `DF` frame too big for the MTU: an ICMP "fragmentation needed" goes back to its sender -/
  | fragNeeded
  /-- the frame goes to the aggregator as it is, for the kernel to fragment -/
  | aggregate (frame : List UInt8)
  /-- what `fragment` forwards goes to the `DF` aggregator -/
  | fragments (r : Option (List (List UInt8) × Option String))
  deriving DecidableEq, Repr

/-- `curriedForward.Process`, from what it reads: whether the peer has been contacted, the
forwarder's `mtu` and `stackFrag`, the frame, whether its IP header has `DF` set, the broadcast
hint, the number of layers decoded, and the decoded Ethernet and IPv4 layers. -/
def process (serializeLayers : Layers → Except String (List UInt8)) (haveContact : Bool)
    (mtu : Int) (stackFrag : Bool) (frame : List UInt8) (df broadcast : Bool) (decoded : Nat)
    (eth : Ethernet) (ip : IPv4) : Forwarding :=
  if !haveContact then .awaitingContact
  else if df then
    if !frameTooBig frame mtu then .aggregateDF frame
    else if broadcast then .dropBroadcast
    else .fragNeeded
  else if stackFrag || decoded < 2 then .aggregate frame
  -- no trustworthy stack: the frame goes out with `DF` set in any case
  else if !frameTooBig frame mtu then .aggregateDF frame
  else .fragments (fragment serializeLayers eth ip mtu)

/-- The frames that `Process` hands to the `DF` aggregator. -/
def Forwarding.dfFrames : Forwarding → List (List UInt8)
  | .aggregateDF frame => [frame]
  | .fragments (some (frames, _)) => frames
  | _ => []

/-! ## What each fragment is -/

namespace IPv4

/-- The header's length in bytes, `4 * IHL`. -/
def headerLen (ip : IPv4) : Nat := 4 * ip.IHL.toNat

/-- The payload the header announces, `Length - 4 * IHL` bytes. -/
def payloadLen (ip : IPv4) : Nat := ip.Length.toNat - ip.headerLen

end IPv4

/-- The segment size of `fragment`, `mtu - 4 * IHL` rounded down to a multiple of 8. -/
def segmentSize (ip : IPv4) (mtu : Int) : Nat := (mtu - ip.headerLen).toNat / 8 * 8

section Spec
variable (eth : Ethernet) (ip : IPv4)

/-- The `k`-th of the `n` fragments that `fragment` makes of `ip` in segments of `S` bytes: the
`k`-th segment of the payload, `k * S` bytes further on, its own length, `MoreFragments` set
unless it is the last, and the Ethernet length that goes with its IP length. -/
structure IsFragment (S n k : Nat) (f : Layers) : Prop where
  payload : f.payload = chunk S k (ip.Payload.take ip.payloadLen)
  ihl : f.ip.IHL = ip.IHL
  fragOffset : f.ip.FragOffset = UInt16.ofNat (ip.FragOffset.toNat + k * S / 8)
  length : f.ip.Length = UInt16.ofNat (ip.headerLen + f.payload.length)
  flags : f.ip.Flags = if k + 1 < n then ip.Flags ||| IPv4MoreFragments else ip.Flags
  eth : f.eth = eth.setLength f.ip.Length

/-- The loop's variables before its `k`-th pass, the segments before it having been full, with
whatever `FragOffset` the pass before wrote. -/
def cursorAt (S k : Nat) (fo : UInt16) : Cursor :=
  ⟨(k * S : Nat), (ip.Payload.take ip.payloadLen).drop (k * S),
    eth.setLength (UInt16.ofNat (ip.headerLen + S)),
    { ip with
      Flags := ip.Flags ||| IPv4MoreFragments, Length := UInt16.ofNat (ip.headerLen + S),
      FragOffset := fo }⟩

/-! ## The loop, pass by pass -/

theorem ofInt_natCast (n : Nat) : UInt16.ofInt n = UInt16.ofNat n := by
  apply UInt16.toNat_inj.1
  simp only [UInt16.ofInt, UInt16.toNat_ofNat']
  omega

/-- The offset a pass writes, in blocks of 8 bytes: `a` bytes after `fo` blocks. -/
theorem fragOffset_of_offset (a fo : Nat) :
    UInt16.ofInt (((a : Int) + ((fo * 8 : Nat) : Int)) >>> (3 : Nat)) =
      UInt16.ofNat (fo + a / 8) := by
  have h : ((a : Int) + ((fo * 8 : Nat) : Int)) / ((2 ^ 3 : Nat) : Int) =
      ((fo + a / 8 : Nat) : Int) := by
    push_cast
    omega
  rw [Int.shiftRight_eq_div_pow, h, ofInt_natCast]

theorem length_take_payloadLen (hpay : ip.payloadLen ≤ ip.Payload.length) :
    (ip.Payload.take ip.payloadLen).length = ip.payloadLen := by
  simp [hpay]

variable {α : Type} (g : Layers → α) {S k : Nat} (hS : 0 < S)
  (hpay : ip.payloadLen ≤ ip.Payload.length)
include hS

/-- The loop's test: the `k`-th pass is inside the payload exactly when there is a `k`-th
segment. -/
theorem cursorAt_offset_lt_iff (fo : UInt16) :
    (cursorAt eth ip S k fo).offset < ip.payloadLen ↔ k < chunkCount S ip.payloadLen := by
  rw [lt_chunkCount_iff hS]
  simp only [cursorAt]
  omega

/-- Past the last segment the loop stops. -/
theorem fragmentLoop_cursorAt_of_ge (hk : chunkCount S ip.payloadLen ≤ k) (fo : UInt16)
    (fuel : Nat) :
    fragmentLoop (fun l => .ok (g l)) ip.headerLen S ip.payloadLen (ip.FragOffset.toNat * 8 : Nat)
      ip.Flags (fuel + 1) (cursorAt eth ip S k fo) = some ([], none) :=
  fragmentLoop_of_ge fun h => absurd ((cursorAt_offset_lt_iff eth ip hS fo).1 h) (by omega)

include hpay

/-- A pass before the last forwards a full segment, the `k`-th fragment, and leaves the loop's
variables as they were, one segment further on. -/
theorem fragmentLoop_cursorAt_of_full (hk : k + 1 < chunkCount S ip.payloadLen) (fo : UInt16)
    (fuel : Nat) :
    ∃ f, IsFragment eth ip S (chunkCount S ip.payloadLen) k f ∧
      fragmentLoop (fun l => .ok (g l)) ip.headerLen S ip.payloadLen
        (ip.FragOffset.toNat * 8 : Nat) ip.Flags (fuel + 1) (cursorAt eth ip S k fo) =
      (fragmentLoop (fun l => .ok (g l)) ip.headerLen S ip.payloadLen
        (ip.FragOffset.toNat * 8 : Nat) ip.Flags fuel
        (cursorAt eth ip S (k + 1) f.ip.FragOffset)).map fun r => (g f :: r.1, r.2) := by
  have hlt : (k + 1) * S < ip.payloadLen := (lt_chunkCount_iff hS).1 hk
  have hrest := length_take_payloadLen ip hpay
  have hlen : (chunk S k (ip.Payload.take ip.payloadLen)).length = S := by
    rw [length_chunk, hrest, Nat.succ_mul] at *
    omega
  -- what is left does not fit: a full segment is cut off its front
  have hfull : (S : Int) < (cursorAt eth ip S k fo).payload.length := by
    simp only [cursorAt]
    rw [List.length_drop, hrest, Nat.succ_mul] at *
    omega
  refine ⟨⟨eth.setLength (UInt16.ofNat (ip.headerLen + S)),
    { ip with
      Flags := ip.Flags ||| IPv4MoreFragments, Length := UInt16.ofNat (ip.headerLen + S),
      FragOffset := UInt16.ofNat (ip.FragOffset.toNat + k * S / 8) },
    chunk S k (ip.Payload.take ip.payloadLen)⟩,
    ⟨rfl, rfl, rfl, by rw [hlen], (if_pos hk).symm, rfl⟩, ?_⟩
  rw [fragmentLoop_of_ok ((cursorAt_offset_lt_iff eth ip hS fo).2 (by omega))
    (segment_of_lt hfull (Int.natCast_nonneg S)) (by rfl)]
  have hnext : ((k * S : Nat) : Int) + S = ((k + 1) * S : Nat) := by
    push_cast
    ring
  simp only [cursorAt, Int.toNat_natCast, chunk, drop_drop_mul, fragOffset_of_offset, hnext]

/-- The last pass forwards what is left of the payload, the last fragment, with the original
flags and its own length, and the loop stops after it. -/
theorem fragmentLoop_cursorAt_of_last (hk : k + 1 = chunkCount S ip.payloadLen) (fo : UInt16)
    (fuel : Nat) :
    ∃ f, IsFragment eth ip S (chunkCount S ip.payloadLen) k f ∧
      fragmentLoop (fun l => .ok (g l)) ip.headerLen S ip.payloadLen
        (ip.FragOffset.toNat * 8 : Nat) ip.Flags (fuel + 2) (cursorAt eth ip S k fo) =
      some ([g f], none) := by
  have hend : ¬(k + 1) * S < ip.payloadLen := fun h =>
    absurd ((lt_chunkCount_iff hS).2 h) (by omega)
  have hrest := length_take_payloadLen ip hpay
  -- what is left fits: it is the last segment
  have hfits : ((ip.Payload.take ip.payloadLen).drop (k * S)).length ≤ S := by
    rw [List.length_drop, hrest]
    rw [Nat.succ_mul] at hend
    omega
  have hfits' : ((cursorAt eth ip S k fo).payload.length : Int) ≤ S := by
    simp only [cursorAt]
    exact_mod_cast hfits
  have hlength : (((ip.Payload.take ip.payloadLen).drop (k * S)).length : Int) + ip.headerLen =
      ((ip.headerLen + ((ip.Payload.take ip.payloadLen).drop (k * S)).length : Nat) : Int) := by
    push_cast
    ring
  have hnext : ((k * S : Nat) : Int) + S = ((k + 1) * S : Nat) := by
    push_cast
    ring
  refine ⟨⟨eth.setLength
      (UInt16.ofNat (ip.headerLen + ((ip.Payload.take ip.payloadLen).drop (k * S)).length)),
    { ip with
      Length := UInt16.ofNat (ip.headerLen + ((ip.Payload.take ip.payloadLen).drop (k * S)).length),
      FragOffset := UInt16.ofNat (ip.FragOffset.toNat + k * S / 8) },
    (ip.Payload.take ip.payloadLen).drop (k * S)⟩,
    ⟨(chunk_of_length_le hfits).symm, rfl, rfl, rfl, (if_neg (by omega)).symm, rfl⟩, ?_⟩
  rw [fragmentLoop_of_ok ((cursorAt_offset_lt_iff eth ip hS fo).2 (by omega))
    (segment_of_le hfits') (by rfl)]
  simp only [cursorAt, fragOffset_of_offset, hlength, ofInt_natCast, hnext,
    Ethernet.setLength_setLength]
  -- the offset is now past the payload
  rw [fragmentLoop_of_ge (by dsimp only; exact_mod_cast hend)]
  rfl

/-- The loop from its `k`-th pass on, given a pass more than the segments left: it forwards the
fragments `k` to the last, each `IsFragment`. Recursion on the segments left, by the three kinds
of pass. -/
theorem fragmentLoop_cursorAt : ∀ (m k fuel : Nat) (fo : UInt16),
    k + m = chunkCount S ip.payloadLen → m < fuel →
    ∃ L, fragmentLoop (fun l => .ok (g l)) ip.headerLen S ip.payloadLen
        (ip.FragOffset.toNat * 8 : Nat) ip.Flags fuel (cursorAt eth ip S k fo) =
      some (L.map g, none) ∧
      List.Forall₂ (IsFragment eth ip S (chunkCount S ip.payloadLen)) (List.range' k m) L
  | 0, k, fuel, fo, hkm, hfuel => by
    obtain ⟨fuel, rfl⟩ := Nat.exists_eq_succ_of_ne_zero (Nat.pos_iff_ne_zero.1 hfuel)
    exact ⟨[], fragmentLoop_cursorAt_of_ge eth ip g hS (by omega) fo fuel, List.Forall₂.nil⟩
  | 1, k, fuel, fo, hkm, hfuel => by
    obtain ⟨fuel, rfl⟩ : ∃ f, fuel = f + 2 := ⟨fuel - 2, by omega⟩
    obtain ⟨f, hf, hrun⟩ := fragmentLoop_cursorAt_of_last eth ip g hS hpay hkm fo fuel
    exact ⟨[f], hrun, List.Forall₂.cons hf List.Forall₂.nil⟩
  | m + 2, k, fuel, fo, hkm, hfuel => by
    obtain ⟨fuel, rfl⟩ :=
      Nat.exists_eq_succ_of_ne_zero (Nat.pos_iff_ne_zero.1 (by omega : 0 < fuel))
    obtain ⟨f, hf, hrun⟩ :=
      fragmentLoop_cursorAt_of_full eth ip g hS hpay (k := k) (by omega) fo fuel
    obtain ⟨L, hL, hLs⟩ :=
      fragmentLoop_cursorAt (m + 1) (k + 1) fuel f.ip.FragOffset (by omega) (by omega)
    refine ⟨f :: L, ?_, ?_⟩
    · rw [hrun, hL]
      rfl
    · rw [List.range'_succ]
      exact List.Forall₂.cons hf hLs

end Spec

/-- With a well-formed header and a segment size of at least 0, `fragment` runs its loop from
the start, for one pass more than there are bytes of payload. -/
theorem fragment_eq {α : Type} (serializeLayers : Layers → Except String α) (eth : Ethernet)
    (ip : IPv4) (mtu : Int) (hlen : ip.headerLen ≤ ip.Length.toNat)
    (hpay : ip.payloadLen ≤ ip.Payload.length) (hmtu : 0 ≤ mtu - ip.headerLen) :
    fragment serializeLayers eth ip mtu =
      fragmentLoop serializeLayers ip.headerLen (segmentSize ip mtu) ip.payloadLen
        (ip.FragOffset.toNat * 8 : Nat) ip.Flags (ip.payloadLen + 1)
        (cursorAt eth ip (segmentSize ip mtu) 0 ip.FragOffset) := by
  have hhs : (ip.IHL.toNat : Int) * 4 = ip.headerLen := by
    simp only [IPv4.headerLen]
    push_cast
    ring
  have hmss : (mtu - ip.headerLen) - (mtu - ip.headerLen) % 8 = segmentSize ip mtu := by
    simp only [segmentSize]
    omega
  have hP : (ip.Length.toNat : Int) - ip.headerLen = ip.payloadLen := by
    simp only [IPv4.payloadLen]
    omega
  have hbase : (ip.FragOffset.toNat : Int) <<< 3 = ((ip.FragOffset.toNat * 8 : Nat) : Int) := by
    show (ip.FragOffset.toNat : Int) <<< ((3 : Nat) : Int) = _
    rw [Int.shiftLeft_eq_mul_pow]
    push_cast
    ring
  have hslice : ¬((ip.payloadLen : Int) < 0 ∨ (ip.Payload.length : Int) < ip.payloadLen) := by
    omega
  have hlength : (ip.headerLen : Int) + segmentSize ip mtu =
      ((ip.headerLen + segmentSize ip mtu : Nat) : Int) := by
    push_cast
    rfl
  simp only [fragment, hhs, hmss, hP, hbase]
  rw [if_neg hslice]
  simp only [Int.toNat_natCast, hlength, ofInt_natCast, cursorAt, Nat.zero_mul, List.drop_zero,
    Nat.cast_zero]

/-! ## Fragments in numbers -/

section Numbers
variable {eth : Ethernet} {ip : IPv4} {S n k : Nat} {f : Layers}

theorem IsFragment.length_payload (hf : IsFragment eth ip S n k f)
    (hpay : ip.payloadLen ≤ ip.Payload.length) :
    f.payload.length = min S (ip.payloadLen - k * S) := by
  rw [hf.payload, length_chunk, length_take_payloadLen ip hpay]

/-- A fragment's offset, in bytes: `k * S` after the original's. The field does not wrap: the
original's is a 13-bit field, and `k * S` is inside a payload of less than `2 ^ 16` bytes. -/
theorem IsFragment.fragOffset_toNat (hf : IsFragment eth ip S n k f) (h8 : 8 ∣ S)
    (hk : k * S < ip.payloadLen) (hoff : ip.FragOffset.toNat < 2 ^ 13) :
    f.ip.FragOffset.toNat * 8 = ip.FragOffset.toNat * 8 + k * S := by
  have hP : ip.payloadLen < 2 ^ 16 := lt_of_le_of_lt (Nat.sub_le _ _) (UInt16.toNat_lt _)
  have hdiv : k * S / 8 * 8 = k * S := Nat.div_mul_cancel (Dvd.dvd.mul_left h8 k)
  rw [hf.fragOffset, UInt16.toNat_ofNat', Nat.mod_eq_of_lt (by omega)]
  omega

/-- A fragment's length is its header's and its payload's: no more than the original's. -/
theorem IsFragment.length_toNat (hf : IsFragment eth ip S n k f)
    (hpay : ip.payloadLen ≤ ip.Payload.length) (hlen : ip.headerLen ≤ ip.Length.toNat) :
    f.ip.Length.toNat = ip.headerLen + f.payload.length := by
  have hp := hf.length_payload hpay
  have hL := UInt16.toNat_lt ip.Length
  simp only [IPv4.payloadLen] at hp
  rw [hf.length, UInt16.toNat_ofNat', Nat.mod_eq_of_lt (by omega)]

end Numbers

/-! ## Reassembly

What the fragments are for: a receiver joins them, in order, back into the packet they were cut
from. -/

/-- A receiver's join of a fragment to the packet reassembled so far: the packet must have
`MoreFragments` set and end where the fragment starts, and the fragment must have the same
header length; the packet then grows by the fragment's payload and takes its flags. -/
def joinFragment (pkt : IPv4) (f : Layers) : Option IPv4 :=
  if pkt.Flags &&& IPv4MoreFragments = IPv4MoreFragments ∧ f.ip.IHL = pkt.IHL ∧
      pkt.FragOffset.toNat * 8 + pkt.Payload.length = f.ip.FragOffset.toNat * 8 then
    some { pkt with
      Length := pkt.Length + UInt16.ofNat f.payload.length, Flags := f.ip.Flags,
      Payload := pkt.Payload ++ f.payload }
  else none

/-- The packet that fragments, in order, reassemble to: the first one's header and payload, and
each next one joined to it. -/
def reassemble : List Layers → Option IPv4
  | [] => none
  | f :: fs => fs.foldlM joinFragment { f.ip with Payload := f.payload }

theorem moreFragments_set (flags : UInt8) :
    (flags ||| IPv4MoreFragments) &&& IPv4MoreFragments = IPv4MoreFragments := by
  apply UInt8.toNat_inj.1
  rw [UInt8.toNat_and, UInt8.toNat_or, show IPv4MoreFragments.toNat = 1 from rfl,
    Nat.and_one_is_mod]
  have h : (flags.toNat ||| 1).testBit 0 = true := by simp
  rw [Nat.testBit_zero, decide_eq_true_eq] at h
  exact h

section Reassembly
variable {eth : Ethernet} (ip : IPv4) {S : Nat}

/-- The packet that the first `j` of the `n` fragments of `ip` in segments of `S` bytes join to. -/
def joinedAt (S n j : Nat) : IPv4 :=
  { ip with
    Length := UInt16.ofNat (ip.headerLen + min (j * S) ip.payloadLen),
    Flags := if j < n then ip.Flags ||| IPv4MoreFragments else ip.Flags,
    Payload := (ip.Payload.take ip.payloadLen).take (j * S) }

variable (hS : 0 < S) (h8 : 8 ∣ S) (hpay : ip.payloadLen ≤ ip.Payload.length)
  (hoff : ip.FragOffset.toNat < 2 ^ 13)
include hS h8 hpay hoff

/-- Joining the `j`-th fragment to the first `j` gives the first `j + 1`. -/
theorem joinFragment_joinedAt {j : Nat} {f : Layers} (hj : j < chunkCount S ip.payloadLen)
    (hf : IsFragment eth ip S (chunkCount S ip.payloadLen) j f) :
    joinFragment (joinedAt ip S (chunkCount S ip.payloadLen) j) f =
      some (joinedAt ip S (chunkCount S ip.payloadLen) (j + 1)) := by
  have hjS : j * S < ip.payloadLen := (lt_chunkCount_iff hS).1 hj
  have hrest := length_take_payloadLen ip hpay
  have hlen := hf.length_payload hpay
  -- the packet so far has `MoreFragments` set and ends where the fragment starts
  have hcond : (joinedAt ip S (chunkCount S ip.payloadLen) j).Flags &&& IPv4MoreFragments =
        IPv4MoreFragments ∧ f.ip.IHL = (joinedAt ip S (chunkCount S ip.payloadLen) j).IHL ∧
      (joinedAt ip S (chunkCount S ip.payloadLen) j).FragOffset.toNat * 8 +
        (joinedAt ip S (chunkCount S ip.payloadLen) j).Payload.length =
        f.ip.FragOffset.toNat * 8 := by
    refine ⟨by simp only [joinedAt, if_pos hj, moreFragments_set], hf.ihl, ?_⟩
    rw [hf.fragOffset_toNat h8 hjS hoff]
    simp only [joinedAt, List.length_take, hrest]
    omega
  rw [joinFragment, if_pos hcond]
  congr 1
  apply IPv4.ext
  · rfl
  · simp only [joinedAt]
    rw [← UInt16.ofNat_add, hlen, Nat.succ_mul]
    congr 1
    omega
  · simp only [joinedAt]
    rw [hf.flags]
  · rfl
  · simp only [joinedAt]
    rw [hf.payload, chunk, Nat.succ_mul, List.take_add]

/-- Joining the fragments from the `j`-th on to the first `j` gives them all. Recursion on the
fragments left. -/
theorem foldlM_joinFragment : ∀ (m j : Nat) (fs : List Layers),
    j + m = chunkCount S ip.payloadLen →
    List.Forall₂ (IsFragment eth ip S (chunkCount S ip.payloadLen)) (List.range' j m) fs →
    fs.foldlM joinFragment (joinedAt ip S (chunkCount S ip.payloadLen) j) =
      some (joinedAt ip S (chunkCount S ip.payloadLen) (chunkCount S ip.payloadLen))
  | 0, j, fs, hjm, hfs => by
    rw [List.range'_zero] at hfs
    cases hfs
    rw [Nat.add_zero] at hjm
    rw [hjm]
    rfl
  | m + 1, j, fs, hjm, hfs => by
    rw [List.range'_succ] at hfs
    cases hfs with
    | cons hf hrest =>
      rw [List.foldlM_cons, joinFragment_joinedAt ip hS h8 hpay hoff (by omega) hf]
      exact foldlM_joinFragment m (j + 1) _ (by omega) hrest

/-- The fragments `0` to the last, each `IsFragment`, reassemble to the original packet, with the
payload its header announces. -/
theorem reassemble_of_isFragment (hlen : ip.headerLen ≤ ip.Length.toNat)
    (hP : 0 < ip.payloadLen) {L : List Layers}
    (hL : List.Forall₂ (IsFragment eth ip S (chunkCount S ip.payloadLen))
      (List.range (chunkCount S ip.payloadLen)) L) :
    reassemble L = some { ip with Payload := ip.Payload.take ip.payloadLen } := by
  have hn : 0 < chunkCount S ip.payloadLen := (lt_chunkCount_iff hS).2 (by simpa using hP)
  obtain ⟨m, hm⟩ : ∃ m, chunkCount S ip.payloadLen = m + 1 := ⟨_, (Nat.succ_pred_eq_of_pos hn).symm⟩
  have hr : List.range (chunkCount S ip.payloadLen) = 0 :: List.range' 1 m := by
    rw [hm, List.range_eq_range', List.range'_succ]
  have hrest := length_take_payloadLen ip hpay
  have hcover := le_chunkCount_mul (n := ip.payloadLen) hS
  rw [hr] at hL
  cases hL with
  | @cons _ f0 _ fs hf0 hfs =>
    have hlen0 := hf0.length_payload hpay
    -- the first fragment, with its payload, is the first packet joined
    have hfirst : { f0.ip with Payload := f0.payload } =
        joinedAt ip S (chunkCount S ip.payloadLen) 1 := by
      apply IPv4.ext
      · exact hf0.ihl
      · simp only [joinedAt]
        rw [hf0.length, hlen0]
        congr 2
        omega
      · simp only [joinedAt]
        rw [hf0.flags]
      · simp only [joinedAt]
        rw [hf0.fragOffset, Nat.zero_mul, Nat.zero_div, Nat.add_zero, UInt16.ofNat_toNat]
      · simp only [joinedAt]
        rw [hf0.payload, chunk, Nat.zero_mul, List.drop_zero, Nat.one_mul]
    -- all of them join to the packet with the whole payload
    have hall : joinedAt ip S (chunkCount S ip.payloadLen) (chunkCount S ip.payloadLen) =
        { ip with Payload := ip.Payload.take ip.payloadLen } := by
      apply IPv4.ext
      · rfl
      · simp only [joinedAt, IPv4.payloadLen] at hcover ⊢
        rw [min_eq_right hcover, Nat.add_sub_cancel' hlen, UInt16.ofNat_toNat]
      · simp only [joinedAt, lt_irrefl, if_false]
      · rfl
      · simp only [joinedAt]
        exact List.take_of_length_le (by rw [hrest]; exact hcover)
    rw [reassemble, hfirst, foldlM_joinFragment ip hS h8 hpay hoff m 1 fs (by omega) hfs, hall]

end Reassembly

/-! ## What every pass forwards -/

section Forwarded
variable {α : Type} {serializeLayers : Layers → Except String α}
  {headerSize maxSegmentSize payloadSize offsetBase : Int} {origFlags : UInt8}

/-- What a pass can do: cut a segment no longer than the segment size, and keep the offset and
the header length. -/
theorem segment_eq_some {c c' : Cursor} {p : List UInt8}
    (h : segment headerSize maxSegmentSize origFlags c = some (p, c')) :
    (p.length : Int) ≤ maxSegmentSize ∧ c'.offset = c.offset ∧ c'.ip.IHL = c.ip.IHL := by
  unfold segment at h
  split_ifs at h with hlast hneg
  · cases h
    exact ⟨hlast, rfl, rfl⟩
  · cases h
    refine ⟨?_, rfl, rfl⟩
    rw [List.length_take]
    omega

/-- Every frame the loop forwards is the serialization of layers with the cursor's header length
and a segment no longer than the segment size. Induction on the passes. -/
theorem fragmentLoop_forwarded : ∀ (fuel : Nat) (c : Cursor) {frames : List α}
    {err : Option String},
    fragmentLoop serializeLayers headerSize maxSegmentSize payloadSize offsetBase origFlags fuel c =
      some (frames, err) →
    ∀ b ∈ frames, ∃ l, serializeLayers l = .ok b ∧ (l.payload.length : Int) ≤ maxSegmentSize ∧
      l.ip.IHL = c.ip.IHL
  | 0, _, _, _, h => by cases h
  | fuel + 1, c, frames, err, h => by
    unfold fragmentLoop at h
    split_ifs at h with hoff
    · -- a pass: one segment, serialized, then the passes after it
      rcases hseg : segment headerSize maxSegmentSize origFlags c with _ | ⟨p, c'⟩
      · rw [hseg] at h
        cases h
      · obtain ⟨hp, -, hihl⟩ := segment_eq_some hseg
        rw [hseg] at h
        dsimp only at h
        split at h
        · cases h
          simp
        · rename_i frame hser
          obtain ⟨⟨frames', err'⟩, hrest, hmap⟩ := Option.map_eq_some_iff.1 h
          cases hmap
          intro b hb
          rcases List.mem_cons.1 hb with rfl | hb
          · exact ⟨_, hser, hp, hihl⟩
          · obtain ⟨l, hl, hlp, hlihl⟩ := fragmentLoop_forwarded fuel _ hrest b hb
            exact ⟨l, hl, hlp, hlihl.trans hihl⟩
    · cases h
      simp

end Forwarded

/-- Every frame `fragment` forwards is the serialization of layers with the packet's header
length and a segment no longer than `maxSegmentSize`. -/
theorem fragment_forwarded {α : Type} {serializeLayers : Layers → Except String α}
    {eth : Ethernet} {ip : IPv4} {mtu : Int} {frames : List α} {err : Option String}
    (h : fragment serializeLayers eth ip mtu = some (frames, err)) :
    ∀ b ∈ frames, ∃ l, serializeLayers l = .ok b ∧
      (l.payload.length : Int) ≤ (mtu - ip.IHL.toNat * 4) - (mtu - ip.IHL.toNat * 4) % 8 ∧
      l.ip.IHL = ip.IHL := by
  unfold fragment at h
  dsimp only at h
  split_ifs at h
  exact fragmentLoop_forwarded _ _ h

/-- Every frame `Process` hands to the `DF` aggregator fits the MTU, when serialization writes
the Ethernet header, an IP header of `4 * IHL` bytes and the payload. -/
theorem process_dfFrames_fit (encode : Layers → List UInt8)
    (hencode : ∀ l, ((encode l).length : Int) =
      EthernetOverhead + 4 * l.ip.IHL.toNat + l.payload.length)
    (haveContact : Bool) (mtu : Int) (stackFrag : Bool) (frame : List UInt8)
    (df broadcast : Bool) (decoded : Nat) (eth : Ethernet) (ip : IPv4) :
    ∀ b ∈ (process (fun l => .ok (encode l)) haveContact mtu stackFrag frame df broadcast
      decoded eth ip).dfFrames, frameTooBig b mtu = false := by
  intro b hb
  unfold process at hb
  split_ifs at hb with hc hdf hbig hbc hstack hbig'
  · simp [Forwarding.dfFrames] at hb
  · -- a `DF` frame that fits goes as it is
    simp only [Forwarding.dfFrames, List.mem_singleton] at hb
    subst hb
    simpa using hbig
  · simp [Forwarding.dfFrames] at hb
  · simp [Forwarding.dfFrames] at hb
  · simp [Forwarding.dfFrames] at hb
  · simp only [Forwarding.dfFrames, List.mem_singleton] at hb
    subst hb
    simpa using hbig'
  · -- a frame too big is fragmented: each fragment is a header and at most a segment
    rcases hfr : fragment (fun l => .ok (encode l)) eth ip mtu with _ | ⟨frames, err⟩
    · simp [hfr, Forwarding.dfFrames] at hb
    · rw [hfr] at hb
      obtain ⟨l, hl, hlp, hihl⟩ := fragment_forwarded hfr b hb
      cases hl
      have hlen := hencode l
      rw [hihl] at hlen
      simp only [EthernetOverhead] at hlen
      rw [frameTooBig, EthernetOverhead, decide_eq_false_iff_not]
      omega

/-! ## Fragmenting a packet -/

theorem fragment_spec {α : Type} (g : Layers → α) (eth : Ethernet) (ip : IPv4) (mtu : Int)
    (hlen : 4 * ip.IHL.toNat ≤ ip.Length.toNat)
    (hpay : ip.Length.toNat - 4 * ip.IHL.toNat ≤ ip.Payload.length)
    (hmtu : 8 ≤ mtu - (4 * ip.IHL.toNat : Nat)) (hoff : ip.FragOffset.toNat < 2 ^ 13) :
    let P := ip.Length.toNat - 4 * ip.IHL.toNat
    let S := (mtu - (4 * ip.IHL.toNat : Nat)).toNat / 8 * 8
    ∃ L : List Layers, fragment (fun l => .ok (g l)) eth ip mtu = some (L.map g, none) ∧
      L.length = (P + S - 1) / S ∧
      (∀ k (hk : k < L.length),
        L[k].payload = ip.Payload.extract (k * S) (min ((k + 1) * S) P) ∧
        L[k].ip.FragOffset.toNat * 8 = ip.FragOffset.toNat * 8 + k * S ∧
        L[k].ip.Length.toNat = 4 * ip.IHL.toNat + L[k].payload.length ∧
        (L[k].ip.Length.toNat : Int) ≤ mtu ∧
        L[k].ip.Flags = if k + 1 < L.length then ip.Flags ||| IPv4MoreFragments else ip.Flags) ∧
      (0 < P → reassemble L = some { ip with Payload := ip.Payload.take P }) := by
  intro P S
  have hPdef : ip.payloadLen = P := rfl
  have hS : 0 < S := by omega
  have h8 : 8 ∣ S := Nat.dvd_mul_left 8 _
  have hmtu0 : 0 ≤ mtu - ip.headerLen := by
    simp only [IPv4.headerLen]
    omega
  -- the loop runs one pass per segment, within the passes `fragment` gives it
  obtain ⟨L, hrun, hL⟩ := fragmentLoop_cursorAt eth ip g hS hpay (chunkCount S P) 0 (P + 1)
    ip.FragOffset (Nat.zero_add _) (Nat.lt_succ_of_le (chunkCount_le hS))
  have hlenL : L.length = chunkCount S P := by simpa using hL.length_eq.symm
  rw [← List.range_eq_range'] at hL
  refine ⟨L, (fragment_eq _ eth ip mtu hlen hpay hmtu0).trans hrun, hlenL, fun k hk => ?_,
    fun hP => reassemble_of_isFragment ip hS h8 hpay hoff hlen hP hL⟩
  have hf := forall₂_range_getElem hL k hk
  have hkS : k * S < P := (lt_chunkCount_iff hS).1 (hlenL ▸ hk)
  have hlenk := hf.length_toNat hpay hlen
  have hpl := hf.length_payload hpay
  refine ⟨by rw [hf.payload, chunk_take, hPdef], hf.fragOffset_toNat h8 hkS hoff, hlenk, ?_,
    by rw [hf.flags, hlenL, hPdef]⟩
  -- a header and at most a segment, which the MTU holds
  rw [hlenk]
  simp only [IPv4.headerLen] at hpl ⊢
  omega

theorem fragment_spec_two_fragments :
    let eth : Ethernet := ⟨0x0800, 0⟩
    let ip : IPv4 := ⟨5, 44, 2, 3, List.replicate 24 7⟩
    let mtu : Int := 36
    (4 * ip.IHL.toNat ≤ ip.Length.toNat ∧
      ip.Length.toNat - 4 * ip.IHL.toNat ≤ ip.Payload.length ∧
      8 ≤ mtu - (4 * ip.IHL.toNat : Nat) ∧ ip.FragOffset.toNat < 2 ^ 13) ∧
    let P := ip.Length.toNat - 4 * ip.IHL.toNat
    let S := (mtu - (4 * ip.IHL.toNat : Nat)).toNat / 8 * 8
    ∃ L : List Layers, fragment (fun l => .ok (id l)) eth ip mtu = some (L.map id, none) ∧
      L.length = (P + S - 1) / S ∧
      (∀ k (hk : k < L.length),
        L[k].payload = ip.Payload.extract (k * S) (min ((k + 1) * S) P) ∧
        L[k].ip.FragOffset.toNat * 8 = ip.FragOffset.toNat * 8 + k * S ∧
        L[k].ip.Length.toNat = 4 * ip.IHL.toNat + L[k].payload.length ∧
        (L[k].ip.Length.toNat : Int) ≤ mtu ∧
        L[k].ip.Flags = if k + 1 < L.length then ip.Flags ||| IPv4MoreFragments else ip.Flags) ∧
      (0 < P → reassemble L = some { ip with Payload := ip.Payload.take P }) := by
  intro eth ip mtu
  have h : 4 * ip.IHL.toNat ≤ ip.Length.toNat ∧
      ip.Length.toNat - 4 * ip.IHL.toNat ≤ ip.Payload.length ∧
      8 ≤ mtu - (4 * ip.IHL.toNat : Nat) ∧ ip.FragOffset.toNat < 2 ^ 13 := by
    decide
  exact ⟨h, fragment_spec id eth ip mtu h.1 h.2.1 h.2.2.1 h.2.2.2⟩

end WeaveNet.Router
