import WeaveNet.Lib.Bytes

/-!
# Frames on the wire

The model of the plaintext frame codec of `router/frame_crypto.go`. A sleeve packet carries
frames as records: the source and destination peer names, `NameSize` bytes each, the frame's
length as a big-endian `uint16`, and the frame (`Frame.encode`). `NonDecryptor.IterateFrames`
reads records off a packet and hands each to a consumer (`iterateFrames`). A `NonEncryptor`
writes records into a fixed buffer of `MaxUDPPacketSize` bytes after a prefix, through Go's
`copy`, and `Bytes` returns the buffer up to what was written and empties the encryptor. The
`NonEncryptor` inside a `NaClEncryptor` is one made with an empty prefix.

The parser reads the records of well-formed frames back as those frames
(`iterateFrames_encodeFrames`), and accepts nothing else (`encodeFrames_of_iterateFrames`). An
encryptor holding a prefix and some records (`NonEncryptor.Holds`) holds one more after
`AppendFrame` of a frame that passes the check `fits` of `aggregateAndSend` against the buffer
(`Holds.appendFrame`, and over a sequence `FitEach`), and `Bytes` returns the prefix and the
records and empties it (`Holds.bytes`).
-/

namespace WeaveNet.Router

open Lib

/-- `mesh.NameSize`: the bytes of a peer name on the wire, in the default build. -/
def NameSize : Nat := 6

/-- `MaxUDPPacketSize`. -/
def MaxUDPPacketSize : Nat := 65535

/-- A frame as the consumer of `IterateFrames` receives it. -/
structure Frame where
  src : List UInt8
  dst : List UInt8
  frame : List UInt8
  deriving DecidableEq, Repr

namespace Frame

/-- The record of a frame. -/
def encode (f : Frame) : List UInt8 :=
  f.src ++ f.dst ++ putUint16 (UInt16.ofNat f.frame.length) ++ f.frame

/-- A frame that a record carries: names of `NameSize` bytes, and a length that fits a `uint16`. -/
def WellFormed (f : Frame) : Prop :=
  f.src.length = NameSize ∧ f.dst.length = NameSize ∧ f.frame.length < 2 ^ 16

instance (f : Frame) : Decidable f.WellFormed := inferInstanceAs (Decidable (_ ∧ _))

end Frame

/-- The records of a list of frames, one after another. -/
def encodeFrames (fs : List Frame) : List UInt8 := fs.flatMap Frame.encode

@[simp] theorem encodeFrames_nil : encodeFrames [] = [] := rfl

@[simp] theorem encodeFrames_cons (f : Frame) (fs : List Frame) :
    encodeFrames (f :: fs) = f.encode ++ encodeFrames fs := rfl

theorem encodeFrames_append (fs gs : List Frame) :
    encodeFrames (fs ++ gs) = encodeFrames fs ++ encodeFrames gs :=
  List.flatMap_append

/-! ## Decoding -/

/-- The two `PacketDecodingError`s of `IterateFrames`. -/
inductive PacketDecodingError where
  | tooShort (length got : Nat)
  | trailingGarbage (octets : Nat)
  deriving DecidableEq, Repr

/-- `pde.Error()`. -/
def PacketDecodingError.Error : PacketDecodingError → String
  | .tooShort length got =>
    "Failed to decode packet: too short; expected frame of length " ++ toString length ++
      ", got " ++ toString got
  | .trailingGarbage octets =>
    "Failed to decode packet: " ++ toString octets ++ " octets of trailing garbage"

/-- `nd.IterateFrames(packet, consumer)`: the frames handed to `consumer`, in order, and the
error returned. -/
def iterateFrames (packet : List UInt8) : List Frame × Option PacketDecodingError :=
  if packet.length ≥ 2 + NameSize + NameSize then
    let srcNameByte := packet.take NameSize
    let afterSrc := packet.drop NameSize
    let dstNameByte := afterSrc.take NameSize
    let afterDst := afterSrc.drop NameSize
    let length := (uint16 (afterDst.take 2)).toNat
    let body := afterDst.drop 2
    if body.length < length then ([], some (.tooShort length body.length))
    else
      let rest := iterateFrames (body.drop length)
      (⟨srcNameByte, dstNameByte, body.take length⟩ :: rest.1, rest.2)
  else if packet.length > 0 then ([], some (.trailingGarbage packet.length))
  else ([], none)
termination_by packet.length
decreasing_by simp only [List.length_drop, NameSize] at *; omega

theorem length_encode {f : Frame} (hf : f.WellFormed) :
    f.encode.length = 2 + NameSize + NameSize + f.frame.length := by
  obtain ⟨hs, hd, -⟩ := hf
  simp only [Frame.encode, List.length_append, hs, hd, putUint16, List.length_cons,
    List.length_nil]
  omega

/-- **A record followed by anything is read as its frame**, and reading goes on after it. -/
theorem iterateFrames_encode_append {f : Frame} (hf : f.WellFormed) (rest : List UInt8) :
    iterateFrames (f.encode ++ rest) =
      (f :: (iterateFrames rest).1, (iterateFrames rest).2) := by
  have hlen := length_encode hf
  obtain ⟨hs, hd, hL⟩ := hf
  have hput : (putUint16 (UInt16.ofNat f.frame.length)).length = 2 := rfl
  have hval : (UInt16.ofNat f.frame.length).toNat = f.frame.length := by
    simp only [UInt16.toNat_ofNat', Nat.mod_eq_of_lt hL]
  -- the record, split at the fields the parser reads
  have hsplit : f.encode ++ rest =
      f.src ++ (f.dst ++ (putUint16 (UInt16.ofNat f.frame.length) ++ (f.frame ++ rest))) := by
    simp only [Frame.encode, List.append_assoc]
  rw [iterateFrames, if_pos (by rw [List.length_append, hlen]; omega)]
  simp only [hsplit, List.take_left' hs, List.drop_left' hs, List.take_left' hd,
    List.drop_left' hd, List.take_left' hput, List.drop_left' hput, uint16_putUint16, hval,
    List.take_left, List.drop_left, List.length_append]
  rw [if_neg (by omega)]

/-- **The records of well-formed frames are read back as those frames**, without error. -/
theorem iterateFrames_encodeFrames :
    ∀ {fs : List Frame}, (∀ f ∈ fs, f.WellFormed) → iterateFrames (encodeFrames fs) = (fs, none)
  | [], _ => by rw [encodeFrames_nil, iterateFrames]; rfl
  | f :: fs, hwf => by
    rw [encodeFrames_cons, iterateFrames_encode_append (hwf f (List.mem_cons_self ..)),
      iterateFrames_encodeFrames fun g hg => hwf g (List.mem_cons_of_mem _ hg)]

/-- **What `IterateFrames` accepts is a concatenation of records**, of the frames it handed to
the consumer. -/
theorem encodeFrames_of_iterateFrames :
    ∀ {p : List UInt8} {fs : List Frame}, iterateFrames p = (fs, none) →
      (∀ f ∈ fs, f.WellFormed) ∧ p = encodeFrames fs := by
  intro p
  induction p using iterateFrames.induct with
  | case1 p h =>
    rename_i afterSrc afterDst length body hshort
    intro fs hit
    simp only [body, afterDst, afterSrc, length] at hshort
    rw [iterateFrames, if_pos h] at hit
    simp only [if_pos hshort, Prod.mk.injEq, reduceCtorEq, and_false] at hit
  | case2 p h =>
    rename_i afterSrc afterDst length body hlong ih
    intro fs hit
    simp only [body, afterDst, afterSrc, length] at hlong ih
    rw [iterateFrames, if_pos h] at hit
    simp only [if_neg hlong, Prod.mk.injEq] at hit
    obtain ⟨rfl, hrest⟩ := hit
    obtain ⟨hwf, hp⟩ := ih (Prod.ext rfl hrest)
    have hL := (uint16 (((p.drop NameSize).drop NameSize).take 2)).toNat_lt
    have hlong' := Nat.not_lt.1 hlong
    refine ⟨fun f hf => ?_, ?_⟩
    · rcases List.mem_cons.1 hf with rfl | hf
      · refine ⟨?_, ?_, ?_⟩ <;> simp only [List.length_take, List.length_drop] <;> omega
      · exact hwf f hf
    · -- the record of the frame read is the part of the packet it was read from
      have h2 : (((p.drop NameSize).drop NameSize).take 2).length = 2 := by
        simp only [List.length_take, List.length_drop]
        omega
      rw [encodeFrames_cons, Frame.encode, List.length_take, Nat.min_eq_left hlong',
        UInt16.ofNat_toNat, putUint16_uint16 h2, ← hp]
      simp only [List.append_assoc, List.take_append_drop]
  | case3 p h hpos =>
    intro fs hit
    rw [iterateFrames, if_neg h, if_pos hpos] at hit
    cases hit
  | case4 p h hpos =>
    intro fs hit
    rw [iterateFrames, if_neg h, if_neg hpos] at hit
    cases hit
    refine ⟨fun f hf => absurd hf List.not_mem_nil, ?_⟩
    exact List.eq_nil_of_length_eq_zero (by omega)

/-! ## Encoding -/

/-- `type NonEncryptor struct`: the buffer, the offset in it of the slice `bufTail`, the number of
bytes buffered, and the length of the prefix. -/
structure NonEncryptor where
  buf : List UInt8
  bufTail : Nat
  buffered : Nat
  prefixLen : Nat
  deriving DecidableEq, Repr

/-- `ne.FrameOverhead()`. -/
def frameOverhead : Nat := NameSize + NameSize + 2

namespace NonEncryptor

/-- `NewNonEncryptor(prefix)`: a zeroed buffer with as much of the prefix as fits copied in. -/
def new (pfx : List UInt8) : NonEncryptor :=
  let (buf, prefixLen) := copyAt (List.replicate MaxUDPPacketSize 0) 0 pfx
  ⟨buf, prefixLen, prefixLen, prefixLen⟩

/-- `ne.TotalLen()`. -/
def totalLen (ne : NonEncryptor) : Nat := ne.buffered

/-- `ne.AppendFrame(src, dst, frame)`, or `none` where Go panics: `PutUint16` on a tail shorter
than two bytes, or a tail shorter than the frame. Each `copy` writes what fits. -/
def appendFrame (ne : NonEncryptor) (src dst frame : List UInt8) : Option NonEncryptor := do
  let (buf, srcLen) := copyAt ne.buf ne.bufTail src
  let (buf, dstLen) := copyAt buf (ne.bufTail + srcLen) dst
  let bufTail := ne.bufTail + srcLen + dstLen
  if buf.length < bufTail + 2 then none
  let (buf, _) := copyAt buf bufTail (putUint16 (UInt16.ofNat frame.length))
  let bufTail := bufTail + 2
  let (buf, _) := copyAt buf bufTail frame
  if buf.length < bufTail + frame.length then none
  pure ⟨buf, bufTail + frame.length, ne.buffered + srcLen + dstLen + 2 + frame.length, ne.prefixLen⟩

/-- `ne.Bytes()`: the buffer up to `buffered`, after which the encryptor is empty again; `none`
where Go's slicing panics. -/
def bytes (ne : NonEncryptor) : Option (List UInt8 × NonEncryptor) :=
  if ne.buffered ≤ ne.buf.length ∧ ne.prefixLen ≤ ne.buf.length then
    some (ne.buf.take ne.buffered, { ne with buffered := ne.prefixLen, bufTail := ne.prefixLen })
  else none

/-- `AppendFrame` of each frame in turn. -/
def appendFrames (ne : NonEncryptor) (fs : List Frame) : Option NonEncryptor :=
  fs.foldlM (fun ne f => ne.appendFrame f.src f.dst f.frame) ne

/-- **`AppendFrame` of a frame that fits in the rest of the buffer** writes its record at
`bufTail`, and moves `bufTail` and `buffered` past it. -/
theorem appendFrame_of_le {ne : NonEncryptor} {src dst frame : List UInt8}
    (h : ne.bufTail + src.length + dst.length + 2 + frame.length ≤ ne.buf.length) :
    ∃ buf, ne.appendFrame src dst frame =
        some ⟨buf, ne.bufTail + src.length + dst.length + 2 + frame.length,
          ne.buffered + src.length + dst.length + 2 + frame.length, ne.prefixLen⟩ ∧
      buf.length = ne.buf.length ∧
      buf.take (ne.bufTail + src.length + dst.length + 2 + frame.length) =
        ne.buf.take ne.bufTail ++ src ++ dst ++ putUint16 (UInt16.ofNat frame.length) ++ frame := by
  have hput : (putUint16 (UInt16.ofNat frame.length)).length = 2 := rfl
  -- the four copies, each of which fits
  obtain ⟨b1, e1, l1, t1⟩ := copyAt_spec (show ne.bufTail + src.length ≤ ne.buf.length by omega)
  obtain ⟨b2, e2, l2, t2⟩ :=
    copyAt_spec (show ne.bufTail + src.length + dst.length ≤ b1.length by omega)
  obtain ⟨b3, e3, l3, t3⟩ := copyAt_spec (show ne.bufTail + src.length + dst.length +
    (putUint16 (UInt16.ofNat frame.length)).length ≤ b2.length by omega)
  obtain ⟨b4, e4, l4, t4⟩ :=
    copyAt_spec (show ne.bufTail + src.length + dst.length + 2 + frame.length ≤ b3.length by omega)
  rw [hput] at e3 t3
  have c2 : ¬b2.length < ne.bufTail + src.length + dst.length + 2 := by omega
  have c4 : ¬b4.length < ne.bufTail + src.length + dst.length + 2 + frame.length := by omega
  refine ⟨b4, ?_, by omega, by rw [t4, t3, t2, t1]⟩
  simp only [appendFrame, e1, e2, e3, e4, c2, c4, if_false]
  rfl

end NonEncryptor

/-- The check `fits` of `aggregateAndSend`, against the buffer, passes before each frame, from
the total length `len`. -/
def FitEach : Nat → List Frame → Prop
  | _, [] => True
  | len, f :: fs => len + frameOverhead + f.frame.length ≤ MaxUDPPacketSize ∧
      FitEach (len + frameOverhead + f.frame.length) fs

namespace NonEncryptor

/-- The encryptor holds the prefix `pfx` and the records of `fs`: its buffer has the size of the
packet buffer, `bufTail` starts where `buffered` ends, and the buffer up to there is the prefix
followed by the records. -/
structure Holds (ne : NonEncryptor) (pfx : List UInt8) (fs : List Frame) : Prop where
  length_buf : ne.buf.length = MaxUDPPacketSize
  prefixLen_eq : ne.prefixLen = pfx.length
  buffered_eq : ne.buffered = pfx.length + (encodeFrames fs).length
  bufTail_eq : ne.bufTail = ne.buffered
  take_buf : ne.buf.take ne.buffered = pfx ++ encodeFrames fs

variable {ne : NonEncryptor} {pfx : List UInt8} {fs : List Frame}

/-- A new encryptor holds its prefix, as much of it as fits, and no record. -/
theorem holds_new (pfx : List UInt8) : (new pfx).Holds (pfx.take MaxUDPPacketSize) [] := by
  have hlen : (List.replicate MaxUDPPacketSize (0 : UInt8)).length = MaxUDPPacketSize :=
    List.length_replicate
  refine ⟨?_, ?_, ?_, rfl, ?_⟩
  · simp only [new, length_copyAt (Nat.zero_le _), hlen]
  · simp only [new, copyAt, hlen, Nat.sub_zero, List.length_take]
  · simp only [new, copyAt, hlen, Nat.sub_zero, List.length_take, encodeFrames_nil,
      List.length_nil, Nat.add_zero]
  · simp only [new, copyAt, hlen, Nat.sub_zero, List.take_zero, List.nil_append, Nat.zero_add,
      encodeFrames_nil, List.append_nil]
    rw [List.take_left' (by simp only [List.length_take]; omega), ← List.take_take, List.take_length]

/-- **`AppendFrame` of a well-formed frame that passes `fits` adds its record.** -/
theorem Holds.appendFrame (h : ne.Holds pfx fs) {f : Frame} (hf : f.WellFormed)
    (hfits : ne.totalLen + frameOverhead + f.frame.length ≤ MaxUDPPacketSize) :
    ∃ ne', ne.appendFrame f.src f.dst f.frame = some ne' ∧ ne'.Holds pfx (fs ++ [f]) := by
  have hlen := length_encode hf
  obtain ⟨hs, hd, -⟩ := hf
  simp only [totalLen, frameOverhead] at hfits
  obtain ⟨buf, happ, hbuf, htake⟩ := appendFrame_of_le
    (show ne.bufTail + f.src.length + f.dst.length + 2 + f.frame.length ≤ ne.buf.length by
      rw [h.bufTail_eq, h.length_buf, hs, hd]; omega)
  refine ⟨_, happ, h.length_buf ▸ hbuf, h.prefixLen_eq, ?_, by rw [h.bufTail_eq], ?_⟩
  · simp only [h.buffered_eq, encodeFrames_append, encodeFrames_cons, encodeFrames_nil,
      List.append_nil, List.length_append, hlen, hs, hd]
    omega
  · rw [← h.bufTail_eq, htake, h.bufTail_eq, h.take_buf, encodeFrames_append, encodeFrames_cons,
      encodeFrames_nil, List.append_nil, Frame.encode]
    simp only [List.append_assoc]

/-- **Appending frames that each pass `fits` adds their records**, by `Holds.appendFrame` at
each step. -/
theorem Holds.appendFrames :
    ∀ {fs' : List Frame} {ne : NonEncryptor} {fs : List Frame}, ne.Holds pfx fs →
      (∀ f ∈ fs', f.WellFormed) → FitEach ne.totalLen fs' →
      ∃ ne', ne.appendFrames fs' = some ne' ∧ ne'.Holds pfx (fs ++ fs')
  | [], ne, fs, h, _, _ => ⟨ne, rfl, by rw [List.append_nil]; exact h⟩
  | f :: fs', ne, fs, h, hwf, ⟨hfits, hrest⟩ => by
    obtain ⟨ne₁, happ, h₁⟩ := h.appendFrame (hwf f (List.mem_cons_self ..)) hfits
    -- the total length after the frame is the one `FitEach` goes on from
    have htotal : ne₁.totalLen = ne.totalLen + frameOverhead + f.frame.length := by
      have hlen := length_encode (hwf f (List.mem_cons_self ..))
      simp only [totalLen, h₁.buffered_eq, h.buffered_eq, encodeFrames_append, encodeFrames_cons,
        encodeFrames_nil, List.append_nil, List.length_append, hlen, frameOverhead]
      omega
    obtain ⟨ne₂, happ₂, h₂⟩ :=
      Holds.appendFrames h₁ (fun g hg => hwf g (List.mem_cons_of_mem _ hg)) (htotal ▸ hrest)
    refine ⟨ne₂, ?_, by rw [← List.singleton_append, ← List.append_assoc]; exact h₂⟩
    rw [NonEncryptor.appendFrames, List.foldlM_cons, happ]
    exact happ₂

/-- **`Bytes` returns the prefix and the records, and empties the encryptor.** -/
theorem Holds.bytes (h : ne.Holds pfx fs) :
    ∃ ne', ne.bytes = some (pfx ++ encodeFrames fs, ne') ∧ ne'.Holds pfx [] := by
  -- what is buffered lies in the buffer, as the buffer up to it is that long
  have hle : ne.buffered ≤ ne.buf.length := by
    have := congrArg List.length h.take_buf
    rw [List.length_take, List.length_append, ← h.buffered_eq] at this
    omega
  have hpre : ne.prefixLen ≤ ne.buffered := by rw [h.prefixLen_eq, h.buffered_eq]; omega
  refine ⟨{ ne with buffered := ne.prefixLen, bufTail := ne.prefixLen },
    by rw [NonEncryptor.bytes, if_pos ⟨hle, by omega⟩, h.take_buf], h.length_buf, h.prefixLen_eq,
    by simp [h.prefixLen_eq], rfl, ?_⟩
  -- the prefix is the start of what is buffered
  show ne.buf.take ne.prefixLen = pfx ++ encodeFrames []
  have htake := congrArg (List.take pfx.length) h.take_buf
  rw [List.take_take, Nat.min_eq_left (by rw [h.buffered_eq]; omega), List.take_left' rfl] at htake
  rw [encodeFrames_nil, List.append_nil, h.prefixLen_eq, htake]

end NonEncryptor

/-! ## The codec -/

/-- **The frame codec.** `IterateFrames` returns no error, having handed the consumer the frames
`fs` in order, exactly when the packet is the records of `fs`, each well formed. A new
encryptor holds its prefix and no record. From an encryptor that holds a prefix and no record
(a new one, or one that `Bytes` emptied), appending well-formed frames that each pass `fits`
against the buffer and calling `Bytes` returns the prefix followed by a packet that
`IterateFrames` reads back as those frames, and leaves the encryptor empty again. -/
theorem frameCodec_roundTrip :
    (∀ (p : List UInt8) (fs : List Frame),
      iterateFrames p = (fs, none) ↔ (∀ f ∈ fs, f.WellFormed) ∧ p = encodeFrames fs) ∧
    (∀ pfx : List UInt8, (NonEncryptor.new pfx).Holds (pfx.take MaxUDPPacketSize) []) ∧
    ∀ (ne : NonEncryptor) (pfx : List UInt8) (fs : List Frame), ne.Holds pfx [] →
      (∀ f ∈ fs, f.WellFormed) → FitEach pfx.length fs →
      ∃ ne', ne.appendFrames fs = some ne' ∧ ∃ ne'', ne'.bytes = some (pfx ++ encodeFrames fs, ne'') ∧
        ne''.Holds pfx [] ∧ iterateFrames (encodeFrames fs) = (fs, none) := by
  refine ⟨fun p fs => ⟨encodeFrames_of_iterateFrames, ?_⟩, NonEncryptor.holds_new, ?_⟩
  · rintro ⟨hwf, rfl⟩
    exact iterateFrames_encodeFrames hwf
  · intro ne pfx fs h hwf hfits
    -- an empty encryptor's total length is its prefix's
    have htotal : ne.totalLen = pfx.length := by
      rw [NonEncryptor.totalLen, h.buffered_eq, encodeFrames_nil, List.length_nil, Nat.add_zero]
    obtain ⟨ne', happ, h'⟩ := h.appendFrames hwf (htotal ▸ hfits)
    rw [List.nil_append] at h'
    obtain ⟨ne'', hbytes, h''⟩ := h'.bytes
    exact ⟨ne', happ, ne'', hbytes, h'', iterateFrames_encodeFrames hwf⟩

theorem frameCodec_roundTrip_one_frame :
    ∃ ne', (NonEncryptor.new []).appendFrames [⟨[1, 1, 1, 1, 1, 1], [2, 2, 2, 2, 2, 2], [7]⟩] =
        some ne' ∧
      ∃ ne'', ne'.bytes = some ([] ++ encodeFrames [⟨[1, 1, 1, 1, 1, 1], [2, 2, 2, 2, 2, 2], [7]⟩],
        ne'') ∧ ne''.Holds [] [] ∧
        iterateFrames (encodeFrames [⟨[1, 1, 1, 1, 1, 1], [2, 2, 2, 2, 2, 2], [7]⟩]) =
          ([⟨[1, 1, 1, 1, 1, 1], [2, 2, 2, 2, 2, 2], [7]⟩], none) :=
  frameCodec_roundTrip.2.2 _ [] _ (frameCodec_roundTrip.2.1 []) (by decide)
    ⟨by decide, trivial⟩

end WeaveNet.Router
