import Mathlib
import WeaveNet.Router.Replay

/-!
# The sealed channel of a sleeve connection

With a session key, `newSleeveCrypto` gives each side of a connection a `NaClDecryptor` and two
`NaClEncryptor`s, one for packets without the DF flag and one for those with it, all with the
nonce bit of the side's direction. What one side sends is read back by the other side's
decryptor, made for the other direction.

An encryptor holds its prefix and the records appended since the last packet
(`NaClEncryptor.Holds`); `Bytes` returns the prefix, the sequence number with the DF flag in the
clear, and the box of the records (`Holds.bytes`), which `decode` reads back as the flag, the
number and the records (`decode_seal`). Sent one batch at a time through the encryptor of its
flag (`SleeveCrypto.sendBatches`), the packets carry keys that increase for each flag
(`SleeveCrypto.Sends.sendBatches`), so that a receiver handed them in the order sent, with any
of them lost, hands over exactly the frames of each (`channel_delivers`).
-/

namespace WeaveNet.Router

open Lib

/-- `type sleeveCrypto struct` of a connection with a session key: the decryptor, and the
encryptors for packets without and with the DF flag. -/
structure SleeveCrypto where
  dec : NaClDecryptor
  enc : NaClEncryptor
  encDF : NaClEncryptor

/-- `newSleeveCrypto(name, sessionKey, outbound)` with a session key: the encryptors write `name`
before each packet. -/
def newSleeveCrypto (name sessionKey : List UInt8) (outbound : Bool) : SleeveCrypto :=
  ⟨NaClDecryptor.new sessionKey outbound, NaClEncryptor.new name sessionKey outbound false,
    NaClEncryptor.new name sessionKey outbound true⟩

namespace NaClEncryptor

/-! ## The sequence number in the clear -/

section SeqNo

variable {ne : NaClEncryptor} (hs : ne.seqNo < 2 ^ 63)
include hs

/-- Below `2 ^ 63`, the DF flag adds its bit to the sequence number. -/
theorem seqNoAndDF_eq : ne.seqNoAndDF = ne.seqNo + if ne.df then 2 ^ 63 else 0 := by
  unfold seqNoAndDF
  cases ne.df with
  | false => simp
  | true =>
    have hor := Nat.two_pow_add_eq_or_of_lt hs 1
    rw [Nat.mul_one] at hor
    rw [if_pos rfl, if_pos rfl, Nat.one_shiftLeft, Nat.lor_comm, ← hor, Nat.add_comm]

theorem seqNoAndDF_lt : ne.seqNoAndDF < 2 ^ 64 := by
  rw [seqNoAndDF_eq hs]
  split <;> omega

/-- The top bit read back is the DF flag. -/
theorem decide_le_seqNoAndDF : decide (2 ^ 63 ≤ ne.seqNoAndDF) = ne.df := by
  rw [seqNoAndDF_eq hs]
  cases ne.df with
  | false => simpa using hs
  | true => simp

/-- The low bits read back are the sequence number. -/
theorem seqNoAndDF_mod : ne.seqNoAndDF % 2 ^ 63 = ne.seqNo := by
  rw [seqNoAndDF_eq hs]
  split
  · rw [Nat.add_mod_right, Nat.mod_eq_of_lt hs]
  · rw [Nat.add_zero, Nat.mod_eq_of_lt hs]

end SeqNo

/-! ## What an encryptor holds -/

/-- The encryptor holds the records of `fs` after the prefix `pfx`, with nonces of high bit
`outbound`: its `NonEncryptor` holds no prefix and those records, its own buffer holds the prefix
with room for the sequence number after it, and its nonce is one of that high bit. -/
structure Holds (ne : NaClEncryptor) (pfx : List UInt8) (outbound : Bool) (fs : List Frame) :
    Prop where
  nonEncryptor : ne.nonEncryptor.Holds [] fs
  length_buf : ne.buf.length = MaxUDPPacketSize
  prefixLen_eq : ne.prefixLen = pfx.length
  take_buf : ne.buf.take ne.prefixLen = pfx
  room : pfx.length + 8 ≤ MaxUDPPacketSize
  length_nonce : ne.nonce.length = 24
  take_nonce : ne.nonce.take 16 = (newNonce outbound).take 16

variable {ne : NaClEncryptor} {pfx : List UInt8} {outbound : Bool} {fs : List Frame}

/-- A new encryptor holds its prefix, when there is room for the sequence number after it, and
no record. -/
theorem holds_new (hp : pfx.length + 8 ≤ MaxUDPPacketSize) (key : List UInt8)
    (outbound df : Bool) : (new pfx key outbound df).Holds pfx outbound [] := by
  have hlen : (List.replicate MaxUDPPacketSize (0 : UInt8)).length = MaxUDPPacketSize :=
    List.length_replicate
  have hcopy : copyAt (List.replicate MaxUDPPacketSize (0 : UInt8)) 0 pfx =
      ((List.replicate MaxUDPPacketSize 0).take 0 ++ pfx ++
        (List.replicate MaxUDPPacketSize 0).drop (0 + pfx.length), pfx.length) :=
    copyAt_of_le (by rw [hlen]; omega)
  refine ⟨?_, ?_, ?_, ?_, hp, rfl, rfl⟩
  · show (NonEncryptor.new []).Holds [] []
    simpa using NonEncryptor.holds_new []
  · simp only [new, hcopy, List.length_append, List.length_take, List.length_drop, hlen]
    omega
  · simp only [new, hcopy]
  · simp only [new, hcopy, List.take_zero, List.nil_append, List.take_left]

/-- `AppendFrame` of each frame changes only the embedded `NonEncryptor`. -/
theorem appendFrames_eq (fs' : List Frame) (ne : NaClEncryptor) :
    ne.appendFrames fs' =
      (ne.nonEncryptor.appendFrames fs').map fun nonEncryptor => { ne with nonEncryptor } := by
  induction fs' generalizing ne with
  | nil => rfl
  | cons f fs' ih =>
    cases h : ne.nonEncryptor.appendFrame f.src f.dst f.frame with
    | none =>
      have hne : ne.appendFrame f.src f.dst f.frame = none := by
        rw [appendFrame, h, Option.map_none]
      rw [appendFrames, List.foldlM_cons, hne, NonEncryptor.appendFrames, List.foldlM_cons, h]
      rfl
    | some e =>
      have hne : ne.appendFrame f.src f.dst f.frame = some { ne with nonEncryptor := e } := by
        rw [appendFrame, h, Option.map_some]
      rw [appendFrames, List.foldlM_cons, hne, NonEncryptor.appendFrames, List.foldlM_cons, h]
      exact ih { ne with nonEncryptor := e }

/-- **Appending frames that each pass `fits` adds their records**, by the `NonEncryptor`'s
`Holds.appendFrames`. -/
theorem Holds.appendFrames (h : ne.Holds pfx outbound fs) {fs' : List Frame}
    (hwf : ∀ f ∈ fs', f.WellFormed) (hfit : FitEach ne.nonEncryptor.totalLen fs') :
    ∃ ne', ne.appendFrames fs' = some ne' ∧ ne'.Holds pfx outbound (fs ++ fs') ∧
      ne'.seqNo = ne.seqNo ∧ ne'.df = ne.df ∧ ne'.sessionKey = ne.sessionKey := by
  obtain ⟨e, he, hh⟩ := h.nonEncryptor.appendFrames hwf hfit
  refine ⟨{ ne with nonEncryptor := e }, by rw [appendFrames_eq, he, Option.map_some], ?_,
    rfl, rfl, rfl⟩
  exact ⟨hh, h.length_buf, h.prefixLen_eq, h.take_buf, h.room, h.length_nonce, h.take_nonce⟩

/-- **`Bytes` sends the prefix, the sequence number and the box of the records**, under the nonce
that carries the number, and empties the encryptor, whose number moves on by one. -/
theorem Holds.bytes (h : ne.Holds pfx outbound fs) (sb : Secretbox) :
    ∃ ne', ne.bytes sb = some (pfx ++ (putUint64 ne.seqNoAndDF ++
        sb.sealBox (encodeFrames fs) (nonceFor outbound ne.seqNoAndDF) ne.sessionKey), ne') ∧
      ne'.Holds pfx outbound [] ∧ ne'.seqNo = (ne.seqNo + 1) % 2 ^ 64 ∧ ne'.df = ne.df ∧
        ne'.sessionKey = ne.sessionKey := by
  obtain ⟨e, he, hh⟩ := h.nonEncryptor.bytes
  have hroom : ¬ne.buf.length < ne.prefixLen + 8 := by
    rw [h.length_buf, h.prefixLen_eq]
    have := h.room
    omega
  have hfit : ne.prefixLen + (putUint64 ne.seqNoAndDF).length ≤ ne.buf.length := by
    rw [length_putUint64]
    omega
  have hnonce := putNonceSeqNo_of h.length_nonce h.take_nonce ne.seqNoAndDF
  refine ⟨{ ne with
      nonEncryptor := e
      buf := (copyAt ne.buf ne.prefixLen (putUint64 ne.seqNoAndDF)).1
      nonce := nonceFor outbound ne.seqNoAndDF
      seqNo := (ne.seqNo + 1) % 2 ^ 64 }, ?_,
    ⟨hh, ?_, h.prefixLen_eq, ?_, h.room, length_nonceFor _ _, take_nonceFor _ _⟩, rfl, rfl, rfl⟩
  · -- the buffer up to the number is the prefix and the number
    have htake := take_copyAt hfit
    rw [length_putUint64, h.take_buf] at htake
    simp only [NaClEncryptor.bytes, he, List.nil_append, hroom, if_false, hnonce, htake,
      List.append_assoc]
    rfl
  · rw [length_copyAt (by omega), h.length_buf]
  · -- the prefix stays where it was
    have htake := take_copyAt hfit
    rw [length_putUint64, h.take_buf] at htake
    have := congrArg (List.take ne.prefixLen) htake
    rwa [List.take_take, Nat.min_eq_left (by omega), List.take_left' (by rw [h.prefixLen_eq])]
      at this

/-- **One flush**: an empty encryptor, after `AppendFrame` of well-formed frames that fit and
`Bytes`, has sent the prefix, the sequence number and the box of their records, and is empty
again. -/
theorem Holds.flush (h : ne.Holds pfx outbound []) (sb : Secretbox) (hwf : ∀ f ∈ fs, f.WellFormed)
    (hfit : FitEach 0 fs) :
    ∃ ne', (ne.appendFrames fs >>= fun e => e.bytes sb) = some (pfx ++ (putUint64 ne.seqNoAndDF ++
        sb.sealBox (encodeFrames fs) (nonceFor outbound ne.seqNoAndDF) ne.sessionKey), ne') ∧
      ne'.Holds pfx outbound [] ∧ ne'.seqNo = (ne.seqNo + 1) % 2 ^ 64 ∧ ne'.df = ne.df ∧
        ne'.sessionKey = ne.sessionKey := by
  -- an empty encryptor's total length is zero
  have htotal : ne.nonEncryptor.totalLen = 0 := by
    rw [NonEncryptor.totalLen, h.nonEncryptor.buffered_eq]
    rfl
  obtain ⟨ne₁, happ, h₁, hs₁, hd₁, hk₁⟩ := h.appendFrames hwf (htotal ▸ hfit)
  rw [List.nil_append] at h₁
  obtain ⟨ne₂, hbytes, h₂, hs₂, hd₂, hk₂⟩ := h₁.bytes sb
  refine ⟨ne₂, ?_, h₂, by rw [hs₂, hs₁], by rw [hd₂, hd₁], by rw [hk₂, hk₁]⟩
  rw [happ, Option.bind_eq_bind, Option.bind_some, hbytes, NaClEncryptor.seqNoAndDF, NaClEncryptor.seqNoAndDF, hs₁, hd₁,
    hk₁]

end NaClEncryptor

/-- **A sealed packet is read back.** After the prefix, the sequence number in the clear and the
box of a message under the nonce that carries it decode, with a cipher that opens what it sealed,
to the encryptor's DF flag, its sequence number and the message, when the number is below
`2 ^ 63`. -/
theorem decode_seal {sb : Secretbox} (hsb : sb.Correct) {ne : NaClEncryptor}
    (hs : ne.seqNo < 2 ^ 63) (high : Bool) (key m : List UInt8) :
    decode sb key high
        (putUint64 ne.seqNoAndDF ++ sb.sealBox m (nonceFor high ne.seqNoAndDF) key) =
      .ok (ne.df, ne.seqNo, m) := by
  have hlen : ¬(putUint64 ne.seqNoAndDF ++
      sb.sealBox m (nonceFor high ne.seqNoAndDF) key).length < 8 := by
    simp
  -- the number in the clear, then the box
  have htake : (putUint64 ne.seqNoAndDF ++
      sb.sealBox m (nonceFor high ne.seqNoAndDF) key).take 8 = putUint64 ne.seqNoAndDF :=
    List.take_left' (length_putUint64 _)
  have hdrop : (putUint64 ne.seqNoAndDF ++
      sb.sealBox m (nonceFor high ne.seqNoAndDF) key).drop 8 =
        sb.sealBox m (nonceFor high ne.seqNoAndDF) key :=
    List.drop_left' (length_putUint64 _)
  have hx : uint64 (putUint64 ne.seqNoAndDF) = ne.seqNoAndDF := by
    rw [uint64_putUint64, Nat.mod_eq_of_lt (NaClEncryptor.seqNoAndDF_lt hs)]
  rw [decode_of_some hlen (m := m) (by rw [htake, hdrop, hx]; exact hsb m _ key), htake, hx,
    NaClEncryptor.decide_le_seqNoAndDF hs, NaClEncryptor.seqNoAndDF_mod hs]

namespace SleeveCrypto

/-- One flush of the aggregator of flag `df`: `AppendFrame` of each frame of the batch to the
encryptor of that flag, then its `Bytes` (`flushEncryptor`). The packet sent, and the crypto
after. -/
def sendBatch (sb : Secretbox) (c : SleeveCrypto) (df : Bool) (fs : List Frame) :
    Option (List UInt8 × SleeveCrypto) := do
  let enc ← (if df then c.encDF else c.enc).appendFrames fs
  let sent ← enc.bytes sb
  pure (sent.1, if df then { c with encDF := sent.2 } else { c with enc := sent.2 })

/-- Batches sent one after another: each packet, with the frames it was sent with. -/
def sendBatches (sb : Secretbox) : SleeveCrypto → List (Bool × List Frame) →
    Option (List (List UInt8 × List Frame))
  | _, [] => some []
  | c, (df, fs) :: bs => do
    let sent ← c.sendBatch sb df fs
    let rest ← sendBatches sb sent.2 bs
    pure ((sent.1, fs) :: rest)

/-- The next sequence number of the encryptor of flag `df`. -/
def seqNo (c : SleeveCrypto) (df : Bool) : Nat := if df then c.encDF.seqNo else c.enc.seqNo

/-- The encryptors of a side are ready to send: each holds the prefix and no record, with the
nonces of the side's direction and the session key, the first without the DF flag and the second
with it. -/
structure Sends (c : SleeveCrypto) (pfx key : List UInt8) (outbound : Bool) : Prop where
  enc : c.enc.Holds pfx outbound []
  encDF : c.encDF.Holds pfx outbound []
  df_enc : c.enc.df = false
  df_encDF : c.encDF.df = true
  key_enc : c.enc.sessionKey = key
  key_encDF : c.encDF.sessionKey = key

theorem sends_new {name : List UInt8} (hp : name.length + 8 ≤ MaxUDPPacketSize)
    (key : List UInt8) (outbound : Bool) : (newSleeveCrypto name key outbound).Sends name key outbound :=
  ⟨NaClEncryptor.holds_new hp key outbound false, NaClEncryptor.holds_new hp key outbound true, rfl,
    rfl, rfl, rfl⟩

variable {c : SleeveCrypto} {pfx key : List UInt8} {outbound : Bool} {sb : Secretbox}

/-- **One batch**: the packet is the prefix and what `decode` reads as the batch's flag, the next
sequence number of that flag and the records of the batch; the number of that flag moves on by one,
the other stays. -/
theorem Sends.sendBatch (h : c.Sends pfx key outbound) (hsb : sb.Correct) {df : Bool}
    {fs : List Frame} (hwf : ∀ f ∈ fs, f.WellFormed) (hfit : FitEach 0 fs)
    (hs : c.seqNo df < 2 ^ 63) :
    ∃ packet c', c.sendBatch sb df fs = some (pfx ++ packet, c') ∧
      decode sb key outbound packet = .ok (df, c.seqNo df, encodeFrames fs) ∧ c'.Sends pfx key outbound ∧
        c'.seqNo df = c.seqNo df + 1 ∧ c'.seqNo (!df) = c.seqNo (!df) := by
  cases df with
  | false =>
    obtain ⟨ne, hflush, hne, hs', hd', hk'⟩ := h.enc.flush sb hwf hfit
    have hs : c.enc.seqNo < 2 ^ 63 := hs
    refine ⟨putUint64 c.enc.seqNoAndDF ++ sb.sealBox (encodeFrames fs)
        (nonceFor outbound c.enc.seqNoAndDF) c.enc.sessionKey, { c with enc := ne }, ?_, ?_,
      ⟨hne, h.encDF, hd'.trans h.df_enc, h.df_encDF, hk'.trans h.key_enc, h.key_encDF⟩, ?_, rfl⟩
    · simp only [SleeveCrypto.sendBatch, Bool.false_eq_true, if_false]
      rw [← bind_assoc, hflush]
      rfl
    · rw [h.key_enc, decode_seal hsb hs, h.df_enc]
      rfl
    · show ne.seqNo = c.enc.seqNo + 1
      rw [hs', Nat.mod_eq_of_lt (by omega)]
  | true =>
    obtain ⟨ne, hflush, hne, hs', hd', hk'⟩ := h.encDF.flush sb hwf hfit
    have hs : c.encDF.seqNo < 2 ^ 63 := hs
    refine ⟨putUint64 c.encDF.seqNoAndDF ++ sb.sealBox (encodeFrames fs)
        (nonceFor outbound c.encDF.seqNoAndDF) c.encDF.sessionKey, { c with encDF := ne }, ?_, ?_,
      ⟨h.enc, hne, h.df_enc, hd'.trans h.df_encDF, h.key_enc, hk'.trans h.key_encDF⟩, ?_, rfl⟩
    · simp only [SleeveCrypto.sendBatch, if_true]
      rw [← bind_assoc, hflush]
      rfl
    · rw [h.key_encDF, decode_seal hsb hs, h.df_encDF]
      rfl
    · show ne.seqNo = c.encDF.seqNo + 1
      rw [hs', Nat.mod_eq_of_lt (by omega)]

/-- The sequence number of one flag after a batch of either flag: moved by one, or not at all. -/
theorem seqNo_le_of_sendBatch {c' : SleeveCrypto} {df : Bool} (d : Bool)
    (hnext : c'.seqNo df = c.seqNo df + 1) (hother : c'.seqNo (!df) = c.seqNo (!df)) :
    c.seqNo d ≤ c'.seqNo d ∧ c'.seqNo d ≤ c.seqNo d + 1 := by
  by_cases hd : d = df
  · subst hd
    omega
  · rw [Bool.eq_not_of_ne hd, hother]
    omega

/-- **A sequence of batches**, with room for them in the sequence numbers: each batch is sent as
one packet, the prefix and what `decode` reads as the batch's flag, a sequence number and its
records; the numbers start from the encryptors' and increase along the packets of each flag.
Induction on the batches, by `Sends.sendBatch` at each. -/
theorem Sends.sendBatches (hsb : sb.Correct) {bs : List (Bool × List Frame)} :
    ∀ {c : SleeveCrypto}, c.Sends pfx key outbound →
      (∀ b ∈ bs, (∀ f ∈ b.2, f.WellFormed) ∧ FitEach 0 b.2) →
      (∀ df, c.seqNo df + bs.length < 2 ^ 63) →
      ∃ tagged : List ((List UInt8 × List Frame) × Bool × Nat),
        c.sendBatches sb bs = some (tagged.map Prod.fst) ∧
        tagged.map (fun t => t.1.2) = bs.map Prod.snd ∧
        (∀ t ∈ tagged, decode sb key outbound (t.1.1.drop pfx.length) =
          .ok (t.2.1, t.2.2, encodeFrames t.1.2)) ∧
        (∀ t ∈ tagged, c.seqNo t.2.1 ≤ t.2.2) ∧
        tagged.Pairwise fun t u => t.2.1 = u.2.1 → t.2.2 < u.2.2 := by
  induction bs with
  | nil =>
    intro c _ _ _
    exact ⟨[], rfl, rfl, by simp, by simp, List.Pairwise.nil⟩
  | cons b bs ih =>
    intro c h hbs hroom
    obtain ⟨df, fs⟩ := b
    obtain ⟨hwf, hfit⟩ := hbs (df, fs) List.mem_cons_self
    have hroom₀ := hroom df
    rw [List.length_cons] at hroom₀
    obtain ⟨packet, c', hsend, hdec, h', hnext, hother⟩ := h.sendBatch hsb hwf hfit
      (show c.seqNo df < 2 ^ 63 by omega)
    -- the rest is sent from the crypto after, whose numbers moved by at most one
    have hroom' : ∀ d, c'.seqNo d + bs.length < 2 ^ 63 := fun d => by
      have := hroom d
      have := seqNo_le_of_sendBatch d hnext hother
      rw [List.length_cons] at *
      omega
    obtain ⟨tagged, hsends, hframes, hdecs, hle, hpw⟩ :=
      ih h' (fun b hb => hbs b (List.mem_cons_of_mem _ hb)) hroom'
    refine ⟨((pfx ++ packet, fs), df, c.seqNo df) :: tagged, ?_, ?_, ?_, ?_, ?_⟩
    · rw [SleeveCrypto.sendBatches, hsend]
      simp only [Option.bind_eq_bind, Option.bind_some, hsends, List.map_cons]
      rfl
    · simp only [List.map_cons, hframes]
    · rintro t (_ | ⟨_, ht⟩)
      · rw [List.drop_left]
        exact hdec
      · exact hdecs t ht
    · rintro t (_ | ⟨_, ht⟩)
      · exact le_rfl
      · exact (seqNo_le_of_sendBatch t.2.1 hnext hother).1.trans (hle t ht)
    · -- later packets of the same flag carry numbers from the next one on
      refine List.Pairwise.cons (fun u hu hdf => ?_) hpw
      dsimp only at hdf ⊢
      have := hle u hu
      rw [← hdf, hnext] at this
      omega

end SleeveCrypto

/-- **The sealed channel delivers.** One side of a connection with a session key, whose name is a
peer name, sends batches of well-formed frames that fit, each through the encryptor of its DF flag
(fewer than `2 ^ 63` of them, so that no sequence number wraps into the DF bit). With a cipher that
opens what it sealed, it sends one packet for each batch, and when `readUDP` on the other side
hands the packets to its decryptor (made for the other direction) in the order they were sent,
with any of them lost, `IterateFrames` hands over exactly the frames of each, with no error. -/
theorem channel_delivers {sb : Secretbox} (hsb : sb.Correct) {name name' key : List UInt8}
    (hname : name.length = NameSize) (outbound : Bool) {bs : List (Bool × List Frame)}
    (hbs : ∀ b ∈ bs, (∀ f ∈ b.2, f.WellFormed) ∧ FitEach 0 b.2) (hlen : bs.length < 2 ^ 63) :
    ∃ sent, (newSleeveCrypto name key outbound).sendBatches sb bs = some sent ∧
      sent.map Prod.snd = bs.map Prod.snd ∧
      ∀ delivered : List (List UInt8 × List Frame), delivered.Sublist sent →
        (newSleeveCrypto name' key !outbound).dec.run sb
            (delivered.map fun d => d.1.drop NameSize) =
          delivered.map fun d => (d.2, none) := by
  have hroom : name.length + 8 ≤ MaxUDPPacketSize := by
    rw [hname]
    decide
  obtain ⟨tagged, hsend, hframes, hdec, -, hpw⟩ :=
    (SleeveCrypto.sends_new hroom key outbound).sendBatches hsb hbs fun df => by
      cases df <;> exact (by simpa [SleeveCrypto.seqNo, newSleeveCrypto, NaClEncryptor.new] using hlen)
  refine ⟨tagged.map Prod.fst, hsend, by rw [List.map_map]; exact hframes, fun delivered hsub => ?_⟩
  obtain ⟨sub, hsub', rfl⟩ := List.sublist_map_iff.1 hsub
  -- what the delivered packets carry, in order
  have hdec' : ((sub.map Prod.fst).map fun d => d.1.drop NameSize).map (decode sb key (!(!outbound))) =
      (sub.map fun t => (t.2.1, t.2.2, encodeFrames t.1.2)).map .ok := by
    simp only [List.map_map, Bool.not_not]
    refine List.map_congr_left fun t ht => ?_
    simp only [Function.comp_apply, ← hname]
    exact hdec t (hsub'.subset ht)
  have hpw' : (sub.map fun t => (t.2.1, t.2.2, encodeFrames t.1.2)).Pairwise
      fun a b => a.1 = b.1 → a.2.1 < b.2.1 :=
    List.pairwise_map.2 (hpw.sublist hsub')
  rw [show (newSleeveCrypto name' key !outbound).dec = NaClDecryptor.new key !outbound from rfl,
    (NaClDecryptor.tracks_new key !outbound).run, hdec', replayFilter_increasing (by simp) hpw',
    List.map_map, List.map_map]
  refine List.map_congr_left fun t ht => ?_
  -- the frames of each delivered packet are those of a batch, so well formed
  have hmem : t.1.2 ∈ bs.map Prod.snd := hframes ▸ List.mem_map_of_mem (hsub'.subset ht)
  obtain ⟨b, hb, hbt⟩ := List.mem_map.1 hmem
  simp only [Function.comp_apply]
  exact framesOf_encodeFrames (hbt ▸ (hbs b hb).1)

/-- A batch of each flag between two peers, with the identity cipher. -/
theorem channel_delivers_two_batches :
    ∃ sent, (newSleeveCrypto [1, 1, 1, 1, 1, 1] [] false).sendBatches plainSecretbox
        [(false, [⟨[1, 1, 1, 1, 1, 1], [2, 2, 2, 2, 2, 2], [7]⟩]),
          (true, [⟨[1, 1, 1, 1, 1, 1], [2, 2, 2, 2, 2, 2], [8]⟩])] = some sent ∧
      sent.map Prod.snd = [(false, [⟨[1, 1, 1, 1, 1, 1], [2, 2, 2, 2, 2, 2], [7]⟩]),
          (true, [⟨[1, 1, 1, 1, 1, 1], [2, 2, 2, 2, 2, 2], [8]⟩])].map Prod.snd ∧
      ∀ delivered : List (List UInt8 × List Frame), delivered.Sublist sent →
        (newSleeveCrypto [2, 2, 2, 2, 2, 2] [] !false).dec.run plainSecretbox
            (delivered.map fun d => d.1.drop NameSize) =
          delivered.map fun d => (d.2, none) :=
  channel_delivers plainSecretbox_correct rfl false
    (fun b hb => by
      rcases List.mem_pair.1 hb with rfl | rfl <;> exact ⟨by decide, by decide, trivial⟩)
    (by decide)

end WeaveNet.Router
