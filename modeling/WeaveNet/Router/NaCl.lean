import Mathlib
import WeaveNet.Lib.Scan
import WeaveNet.Router.Frames

/-!
# The NaCl sleeve crypto

The model of `NaClEncryptor` and `NaClDecryptor` of `router/frame_crypto.go`. An encryptor seals
the records its `NonEncryptor` holds under a nonce that carries its sequence number and, in the top
bit, whether it is the encryptor for DF packets, and writes that number in the clear after the
prefix. A decryptor keeps one `NaClDecryptorInstance` for each flag; after a packet opens, the
instance's sliding window (`advanceState`) decides whether its sequence number was seen before,
and a duplicate is dropped without an error. `secretbox` is a parameter (`Secretbox`).

Each function has its spec lemmas here, one for each way through it: `advanceState` for each case
of its `switch` (`advanceState_of_lt`, `_of_pred`, `_of_eq`, `_of_succ`, `_of_gt`, under the
bounds that make `int64` of the difference the difference), the duplicate check after it
(`recordSeqNo_of_none`, `_of_mem`, `_of_not_mem`), and `IterateFrames` (`iterateFrames_of_lt`,
`_of_failed`, `_of_opened`). The window's invariant is in `Router.Replay`.
-/

namespace WeaveNet.Router

open Lib

/-- `secretbox.Seal` and `secretbox.Open` under a nonce and a key, as the model meets them: the box
of a message, and the message of a box, if it opens. -/
structure Secretbox where
  sealBox : List UInt8 → List UInt8 → List UInt8 → List UInt8
  openBox : List UInt8 → List UInt8 → List UInt8 → Option (List UInt8)

/-- A box opens, under the nonce and the key it was sealed with, to its message. -/
def Secretbox.Correct (sb : Secretbox) : Prop :=
  ∀ message nonce key, sb.openBox (sb.sealBox message nonce key) nonce key = some message

/-- `secretbox.Overhead`. -/
def secretboxOverhead : Nat := 16

/-- A box is `secretbox.Overhead` bytes longer than its message. -/
def Secretbox.Sized (sb : Secretbox) : Prop :=
  ∀ message nonce key, (sb.sealBox message nonce key).length = message.length + secretboxOverhead

/-- `WindowSize`: sequence numbers are cut into windows of `2 ^ WindowSize`. -/
def WindowSize : Nat := 20

/-- A `[24]byte` nonce as `NewNaClEncryptor` and `NewNaClDecryptorInstance` make it: zero, with the
high bit of its first byte set when `high`. -/
def newNonce (high : Bool) : List UInt8 :=
  (if high then (0 : UInt8) ||| (1 : UInt8) <<< 7 else 0) :: List.replicate 23 0

/-- `binary.BigEndian.PutUint64(nonce[16:24], seqNoAndDF)`. -/
def putNonceSeqNo (nonce : List UInt8) (seqNoAndDF : Nat) : List UInt8 :=
  (copyAt nonce 16 (putUint64 seqNoAndDF)).1

/-- A nonce of high bit `high` after `PutUint64(nonce[16:24], seqNoAndDF)`: what an encryptor seals
with and a decryptor opens with. -/
def nonceFor (high : Bool) (seqNoAndDF : Nat) : List UInt8 :=
  (newNonce high).take 16 ++ putUint64 seqNoAndDF

/-- `PutUint64(nonce[16:24], ..)` on a nonce of high bit `high`. -/
theorem putNonceSeqNo_of {nonce : List UInt8} {high : Bool} (hl : nonce.length = 24)
    (ht : nonce.take 16 = (newNonce high).take 16) (x : Nat) :
    putNonceSeqNo nonce x = nonceFor high x := by
  rw [putNonceSeqNo, copyAt_of_le (by rw [hl, length_putUint64]),
    List.drop_eq_nil_of_le (by rw [hl, length_putUint64]), List.append_nil, ht, nonceFor]

@[simp] theorem length_nonceFor (high : Bool) (x : Nat) : (nonceFor high x).length = 24 := by
  simp [nonceFor, newNonce]

@[simp] theorem take_nonceFor (high : Bool) (x : Nat) :
    (nonceFor high x).take 16 = (newNonce high).take 16 := by
  simp [nonceFor, newNonce]

/-! ## Encryption -/

/-- `type NaClEncryptor struct`: the `NonEncryptor` the frames are appended to, the packet buffer
that holds the prefix, the prefix's length, the session key, the nonce, the next sequence number,
and whether it is the encryptor for DF packets. -/
structure NaClEncryptor where
  nonEncryptor : NonEncryptor
  buf : List UInt8
  prefixLen : Nat
  sessionKey : List UInt8
  nonce : List UInt8
  seqNo : Nat
  df : Bool

namespace NaClEncryptor

/-- `NewNaClEncryptor(prefix, sessionKey, outbound, df)`: the frames go to a `NonEncryptor` with an
empty prefix, and the prefix to a buffer of its own. -/
def new (pfx sessionKey : List UInt8) (outbound df : Bool) : NaClEncryptor :=
  let (buf, prefixLen) := copyAt (List.replicate MaxUDPPacketSize 0) 0 pfx
  { nonEncryptor := NonEncryptor.new [], buf, prefixLen, sessionKey, nonce := newNonce outbound,
    seqNo := 0, df }

/-- `ne.PacketOverhead()`. -/
def packetOverhead (ne : NaClEncryptor) : Nat :=
  ne.prefixLen + 8 + secretboxOverhead + ne.nonEncryptor.prefixLen

/-- `ne.TotalLen()`. -/
def totalLen (ne : NaClEncryptor) : Nat := ne.packetOverhead + ne.nonEncryptor.totalLen

/-- `ne.AppendFrame(src, dst, frame)`, which is the embedded `NonEncryptor`'s. -/
def appendFrame (ne : NaClEncryptor) (src dst frame : List UInt8) : Option NaClEncryptor :=
  (ne.nonEncryptor.appendFrame src dst frame).map fun nonEncryptor => { ne with nonEncryptor }

/-- `AppendFrame` of each frame in turn. -/
def appendFrames (ne : NaClEncryptor) (fs : List Frame) : Option NaClEncryptor :=
  fs.foldlM (fun ne f => ne.appendFrame f.src f.dst f.frame) ne

/-- The sequence number `Bytes` writes in the clear, with the DF flag in its top bit. -/
def seqNoAndDF (ne : NaClEncryptor) : Nat := if ne.df then ne.seqNo ||| 1 <<< 63 else ne.seqNo

/-- `ne.Bytes()`: the prefix, the sequence number with the DF flag in its top bit, and the box of
the records under a nonce that carries the same number; `none` where Go panics. The sequence
number is a `uint64` and wraps. -/
def bytes (sb : Secretbox) (ne : NaClEncryptor) : Option (List UInt8 × NaClEncryptor) := do
  let (plaintext, nonEncryptor) ← ne.nonEncryptor.bytes
  let seqNoAndDF := ne.seqNoAndDF
  -- `PutUint64(ciphertext[ne.prefixLen:], ..)` panics on fewer than eight bytes
  if ne.buf.length < ne.prefixLen + 8 then none
  let buf := (copyAt ne.buf ne.prefixLen (putUint64 seqNoAndDF)).1
  let nonce := putNonceSeqNo ne.nonce seqNoAndDF
  -- `Seal` appends the box to the prefix and the sequence number
  pure (buf.take (ne.prefixLen + 8) ++ sb.sealBox plaintext nonce ne.sessionKey,
    { ne with nonEncryptor, buf, nonce, seqNo := (ne.seqNo + 1) % 2 ^ 64 })

end NaClEncryptor

/-! ## Decryption -/

/-- `type NaClDecryptorInstance struct`: the nonce, the current window, the offsets seen in it, and
those seen in the window below, `nil` until the window first moves. A `bit.Set` is a list. -/
structure NaClDecryptorInstance where
  nonce : List UInt8
  currentWindow : Nat
  usedOffsets : List Nat
  previousUsedOffsets : Option (List Nat)
  deriving DecidableEq, Repr

/-- Which of its two sets `advanceState` returns a pointer to. -/
inductive UsedSet where
  | previous
  | current
  deriving DecidableEq, Repr

namespace NaClDecryptorInstance

/-- `NewNaClDecryptorInstance(outbound)`: the high bit of the nonce is set for an inbound
connection, the opposite of the encryptor's. -/
def new (outbound : Bool) : NaClDecryptorInstance := ⟨newNonce !outbound, 0, [], none⟩

/-- `di.advanceState(seqNo)`: the offset of `seqNo` in its window, the set to look it up in (`none`
for `nil`), and the instance after its window moved. Go tries the cases of the `switch` in order
and takes `default` (a `delta` of 0) when none holds. -/
def advanceState (di : NaClDecryptorInstance) (seqNo : Nat) :
    (Nat × Option UsedSet) × NaClDecryptorInstance :=
  let offset := seqNo &&& ((1 <<< WindowSize) - 1)
  let window := seqNo >>> WindowSize
  -- `int64(window - di.currentWindow)`, a difference of `uint64`s
  let delta := int64 ((window + 2 ^ 64 - di.currentWindow) % 2 ^ 64)
  if delta < -1 then ((offset, none), di)
  else if delta = -1 then ((offset, some .previous), di)
  else if delta = 1 then
    ((offset, some .current),
      { di with
        currentWindow := window
        previousUsedOffsets := some di.usedOffsets
        usedOffsets := [] })
  else if delta > 1 then
    ((offset, some .current),
      { di with
        currentWindow := window
        previousUsedOffsets := some []
        usedOffsets := [] })
  else ((offset, some .current), di)

/-- The set a pointer returned by `advanceState` points to. -/
def usedSet (di : NaClDecryptorInstance) : Option UsedSet → Option (List Nat)
  | none => none
  | some .previous => di.previousUsedOffsets
  | some .current => some di.usedOffsets

/-- `usedOffsets.Add(offset)` on the set a pointer points to. -/
def addOffset (di : NaClDecryptorInstance) (offset : Nat) :
    Option UsedSet → NaClDecryptorInstance
  | none => di
  | some .previous =>
    { di with previousUsedOffsets := di.previousUsedOffsets.map fun set => set.insert offset }
  | some .current => { di with usedOffsets := di.usedOffsets.insert offset }

/-- What `decrypt` does with the sequence number of a packet that opened: `advanceState`, then the
packet is dropped when the set is `nil` or holds its offset, and its offset is added otherwise.
Whether the packet is kept, and the instance after. -/
def recordSeqNo (di : NaClDecryptorInstance) (seqNo : Nat) : Bool × NaClDecryptorInstance :=
  let advanced := di.advanceState seqNo
  let offset := advanced.1.1
  let usedOffsets := advanced.1.2
  let di := advanced.2
  if (di.usedSet usedOffsets).isNone || (di.usedSet usedOffsets).any (·.contains offset) then
    (false, di)
  else (true, di.addOffset offset usedOffsets)

end NaClDecryptorInstance

/-- `type NaClDecryptor struct`: the session key, and an instance for packets without the DF flag
and one for those with it. -/
structure NaClDecryptor where
  sessionKey : List UInt8
  «instance» : NaClDecryptorInstance
  instanceDF : NaClDecryptorInstance
  deriving DecidableEq, Repr

/-- The errors of `NaClDecryptor.IterateFrames`: the two of its own, and those of the
`NonDecryptor` reading the plaintext. All are `PacketDecodingError`s in Go. -/
inductive NaClDecodingError where
  | tooShort (got : Nat)
  | decryptionFailed
  | frames (e : PacketDecodingError)
  deriving DecidableEq, Repr

/-- `pde.Error()`. -/
def NaClDecodingError.Error : NaClDecodingError → String
  | .tooShort got =>
    "Failed to decode packet: encrypted UDP packet too short; expected length >= 8, got " ++
      toString got
  | .decryptionFailed => "Failed to decode packet: UDP packet decryption failed"
  | .frames e => e.Error

/-- `nd.NonDecryptor.IterateFrames(plaintext, consumer)`: the frames of a plaintext, and the error
of reading them. -/
def framesOf (plaintext : List UInt8) : List Frame × Option NaClDecodingError :=
  ((Router.iterateFrames plaintext).1, (Router.iterateFrames plaintext).2.map .frames)

/-- The records of well-formed frames are read back as those frames, without error. -/
theorem framesOf_encodeFrames {fs : List Frame} (hwf : ∀ f ∈ fs, f.WellFormed) :
    framesOf (encodeFrames fs) = (fs, none) := by
  simp only [framesOf, iterateFrames_encodeFrames hwf, Option.map_none]

/-- A dropped duplicate's `nil` plaintext has no frame and no error. -/
theorem framesOf_nil : framesOf [] = ([], none) :=
  framesOf_encodeFrames fun _ h => absurd h List.not_mem_nil

namespace NaClDecryptor

/-- `NewNaClDecryptor(sessionKey, outbound)`. -/
def new (sessionKey : List UInt8) (outbound : Bool) : NaClDecryptor :=
  ⟨sessionKey, .new outbound, .new outbound⟩

/-- The instance for packets with the DF flag `df`. -/
def get (nd : NaClDecryptor) (df : Bool) : NaClDecryptorInstance :=
  if df then nd.instanceDF else nd.«instance»

/-- The decryptor with the instance for `df` replaced. -/
def set (nd : NaClDecryptor) (df : Bool) (di : NaClDecryptorInstance) : NaClDecryptor :=
  if df then { nd with instanceDF := di } else { nd with «instance» := di }

/-- `nd.decrypt(buf)`: the plaintext (`nil` for a dropped duplicate) and whether the packet opened.
The instance is a pointer, so the nonce written before `Open` stays, whether it opens or not. -/
def decrypt (sb : Secretbox) (nd : NaClDecryptor) (buf : List UInt8) :
    (Option (List UInt8) × Bool) × NaClDecryptor :=
  let seqNoAndDF := uint64 (buf.take 8)
  let df := seqNoAndDF &&& 1 <<< 63 != 0
  let seqNo := seqNoAndDF &&& ((1 <<< 63) - 1)
  let di := { nd.get df with nonce := putNonceSeqNo (nd.get df).nonce seqNoAndDF }
  match sb.openBox (buf.drop 8) di.nonce nd.sessionKey with
  | none => ((none, false), nd.set df di)
  | some result =>
    -- duplicates are dropped only once the packet opened
    let recorded := di.recordSeqNo seqNo
    ((if recorded.1 then some result else none, true), nd.set df recorded.2)

/-- `nd.IterateFrames(packet, consumer)`: the frames handed to the consumer and the error, and the
decryptor after. A dropped duplicate is a `nil` plaintext, which has no frame and no error. -/
def iterateFrames (sb : Secretbox) (nd : NaClDecryptor) (packet : List UInt8) :
    (List Frame × Option NaClDecodingError) × NaClDecryptor :=
  if packet.length < 8 then (([], some (.tooShort packet.length)), nd)
  else
    let decrypted := nd.decrypt sb packet
    if !decrypted.1.2 then (([], some .decryptionFailed), decrypted.2)
    else (framesOf (decrypted.1.1.getD []), decrypted.2)

/-- `IterateFrames` of each packet in turn, as `readUDP` calls it for the packets of one
forwarder: for each, the frames and the error. -/
def run (sb : Secretbox) : NaClDecryptor → List (List UInt8) →
    List (List Frame × Option NaClDecodingError)
  | _, [] => []
  | nd, packet :: packets =>
    (nd.iterateFrames sb packet).1 :: run sb (nd.iterateFrames sb packet).2 packets

end NaClDecryptor

/-- The identity `secretbox`, which opens every box to itself: a cipher to run the model on. -/
def plainSecretbox : Secretbox := ⟨fun message _ _ => message, fun box _ _ => some box⟩

theorem plainSecretbox_correct : plainSecretbox.Correct := fun _ _ _ => rfl

/-- A `secretbox` that appends a zero tag of `secretbox.Overhead` bytes and opens by dropping it:
a cipher of the right size to run the model on. -/
def tagSecretbox : Secretbox :=
  ⟨fun message _ _ => message ++ List.replicate secretboxOverhead 0,
    fun box _ _ => some (box.take (box.length - secretboxOverhead))⟩

theorem tagSecretbox_sized : tagSecretbox.Sized := fun message _ _ => by
  simp [tagSecretbox]

/-! ## Spec lemmas -/

theorem offset_eq (s : Nat) : s &&& ((1 <<< WindowSize) - 1) = s % 2 ^ WindowSize := by
  rw [Nat.one_shiftLeft, Nat.and_two_pow_sub_one_eq_mod]

namespace NaClDecryptorInstance

section Advance

variable {di : NaClDecryptorInstance} {s : Nat} (hs : s < 2 ^ 63) (hc : di.currentWindow < 2 ^ 63)
include hs hc

theorem delta_eq : int64 ((s >>> WindowSize + 2 ^ 64 - di.currentWindow) % 2 ^ 64) =
    (s >>> WindowSize : Int) - di.currentWindow :=
  int64_sub (lt_of_le_of_lt (Nat.shiftRight_le _ _) hs) hc

theorem advanceState_of_lt (h : s >>> WindowSize + 1 < di.currentWindow) :
    di.advanceState s = ((s % 2 ^ WindowSize, none), di) := by
  simp only [advanceState, delta_eq hs hc, offset_eq]
  rw [if_pos (by omega)]

theorem advanceState_of_pred (h : s >>> WindowSize + 1 = di.currentWindow) :
    di.advanceState s = ((s % 2 ^ WindowSize, some .previous), di) := by
  simp only [advanceState, delta_eq hs hc, offset_eq]
  rw [if_neg (by omega), if_pos (by omega)]

theorem advanceState_of_eq (h : s >>> WindowSize = di.currentWindow) :
    di.advanceState s = ((s % 2 ^ WindowSize, some .current), di) := by
  simp only [advanceState, delta_eq hs hc, offset_eq]
  rw [if_neg (by omega), if_neg (by omega), if_neg (by omega), if_neg (by omega)]

theorem advanceState_of_succ (h : s >>> WindowSize = di.currentWindow + 1) :
    di.advanceState s = ((s % 2 ^ WindowSize, some .current),
      { di with currentWindow := s >>> WindowSize, previousUsedOffsets := some di.usedOffsets,
                usedOffsets := [] }) := by
  simp only [advanceState, delta_eq hs hc, offset_eq]
  rw [if_neg (by omega), if_neg (by omega), if_pos (by omega)]

theorem advanceState_of_gt (h : di.currentWindow + 1 < s >>> WindowSize) :
    di.advanceState s = ((s % 2 ^ WindowSize, some .current),
      { di with currentWindow := s >>> WindowSize, previousUsedOffsets := some [],
                usedOffsets := [] }) := by
  simp only [advanceState, delta_eq hs hc, offset_eq]
  rw [if_neg (by omega), if_neg (by omega), if_neg (by omega), if_pos (by omega)]

end Advance

section Record

variable {di : NaClDecryptorInstance} {s : Nat} {o : Nat} {ref : Option UsedSet}
  {di' : NaClDecryptorInstance}
  (h : di.advanceState s = ((o, ref), di'))
include h

/-- A `nil` set drops the packet. -/
theorem recordSeqNo_of_none (hn : di'.usedSet ref = none) : di.recordSeqNo s = (false, di') := by
  simp only [recordSeqNo, h, hn, Option.isNone_none, Bool.true_or, if_true]

/-- A set that holds the offset drops the packet. -/
theorem recordSeqNo_of_mem {set : List Nat} (hs : di'.usedSet ref = some set) (hm : o ∈ set) :
    di.recordSeqNo s = (false, di') := by
  simp only [recordSeqNo, h, hs, Option.isNone_some, Option.any_some, List.contains_iff_mem.2 hm,
    Bool.or_true, if_true]

/-- A set that does not hold the offset keeps the packet, and takes the offset. -/
theorem recordSeqNo_of_not_mem {set : List Nat} (hs : di'.usedSet ref = some set) (hm : o ∉ set) :
    di.recordSeqNo s = (true, di'.addOffset o ref) := by
  have hc : set.contains o = false := by simpa using hm
  simp only [recordSeqNo, h, hs, Option.isNone_some, Option.any_some, hc, Bool.or_false,
    Bool.false_eq_true, if_false]

end Record

end NaClDecryptorInstance

/-- The DF flag of a `uint64` read off a packet is its top bit. -/
theorem df_eq {x : Nat} (hx : x < 2 ^ 64) : (x &&& 1 <<< 63 != 0) = decide (2 ^ 63 ≤ x) := by
  rw [Nat.one_shiftLeft, Nat.and_two_pow, Nat.testBit_eq_decide_div_mod_eq]
  -- bit 63 is the quotient by `2 ^ 63`, which is 0 or 1
  have hq : x / 2 ^ 63 < 2 := Nat.div_lt_of_lt_mul (by omega)
  by_cases h : 2 ^ 63 ≤ x
  · rw [show x / 2 ^ 63 = 1 by omega, decide_eq_true h]
    rfl
  · rw [Nat.div_eq_of_lt (by omega), decide_eq_false h]
    rfl

theorem seqNo_eq (x : Nat) : x &&& ((1 <<< 63) - 1) = x % 2 ^ 63 := by
  rw [Nat.one_shiftLeft, Nat.and_two_pow_sub_one_eq_mod]

theorem uint64_take_lt (buf : List UInt8) : uint64 (buf.take 8) < 2 ^ 64 :=
  calc uint64 (buf.take 8) < 256 ^ (buf.take 8).length := uint64_lt _
    _ ≤ 256 ^ 8 := Nat.pow_le_pow_right (by norm_num) (List.length_take_le _ _)
    _ = 2 ^ 64 := by norm_num

namespace NaClDecryptor

variable {nd : NaClDecryptor} {df df' : Bool} {di : NaClDecryptorInstance}

@[simp] theorem get_set_self : (nd.set df di).get df = di := by
  cases df <;> rfl

@[simp] theorem get_set_of_ne (h : df' ≠ df) : (nd.set df di).get df' = nd.get df' := by
  cases df <;> cases df' <;> first | rfl | exact absurd rfl h

@[simp] theorem sessionKey_set : (nd.set df di).sessionKey = nd.sessionKey := by
  cases df <;> rfl

variable {sb : Secretbox} {buf : List UInt8}

theorem iterateFrames_of_lt (h : buf.length < 8) :
    nd.iterateFrames sb buf = (([], some (.tooShort buf.length)), nd) :=
  if_pos h

theorem iterateFrames_of_failed (h : ¬buf.length < 8) {r : Option (List UInt8)}
    {nd' : NaClDecryptor} (hd : nd.decrypt sb buf = ((r, false), nd')) :
    nd.iterateFrames sb buf = (([], some .decryptionFailed), nd') := by
  rw [NaClDecryptor.iterateFrames, if_neg h]
  simp only [hd, Bool.not_false, if_true]

theorem iterateFrames_of_opened (h : ¬buf.length < 8) {r : Option (List UInt8)}
    {nd' : NaClDecryptor} (hd : nd.decrypt sb buf = ((r, true), nd')) :
    nd.iterateFrames sb buf = (framesOf (r.getD []), nd') := by
  rw [NaClDecryptor.iterateFrames, if_neg h]
  simp only [hd, Bool.not_true, Bool.false_eq_true, if_false]

end NaClDecryptor

end WeaveNet.Router
