import Mathlib
import WeaveNet.Lib.Chunks
import WeaveNet.Router.Aggregate
import WeaveNet.Router.Mtu

/-!
# The sending side of a sleeve forwarder

The model of what `sleeveForwarder.run` of `router/sleeve.go` sends on a connection with a session
key, as a state machine driven by events in any order: `Process` puts a frame in the aggregator
channel of its DF flag (`fwd.aggregate`), the forwarder goroutine's `select` takes the frame at the
head of a channel and hands it to `aggregateAndSend` with the frames ready after it, through the
encryptor of that flag, and a heartbeat, fragmentation or MTU test goes out by `sendSpecial`. The
loop ends at the first error (`for err == nil`).

A run keeps one invariant (`SendSide.Inv`): the encryptors are ready to send, every packet on the
wire decodes to its flag, a sequence number below the encryptor's and the records of its frames,
the numbers of each flag increase along the wire, and the frames the aggregator sent with each
flag, followed by those still in the channel, are a sublist of the frames that arrived on it. From
a new connection, over any events (`Inv.run`), the peer's decryptor therefore hands over exactly
the frames of the packets it receives in the order sent, with any of them lost
(`forwarder_delivers`); and when no send fails and every frame fits, every frame that arrived was
sent or is still waiting, in order (`forwarder_no_loss`).
-/

namespace WeaveNet.Router

open Lib

/-- The events on the sending side of a connection: `fwd.aggregate` putting a frame in the
aggregator channel of a DF flag, the forwarder goroutine taking the frame at the head of that
channel (the `aggChan` and `aggDFChan` cases of `run`), and a `sendSpecial` through the encryptor
of a flag. -/
inductive SendEvent where
  | aggregate (df : Bool) (frame : Frame)
  | forward (df : Bool)
  | special (df : Bool) (data : List UInt8)
  deriving DecidableEq, Repr

/-! ## The flushes of one encryptor -/

namespace NaClEncryptor

variable {σ ε : Type} {sb : Secretbox} {send : σ → List UInt8 → σ × Option ε}
  {ne : NaClEncryptor} {pfx : List UInt8} {outbound : Bool}

/-- **One flush** of an empty encryptor, as the aggregator makes it: `AppendFrame` of well-formed
frames that fit, then `flushEncryptor`, which hands the sender a packet that `decode` reads, after
the prefix, as the encryptor's flag, its sequence number and the records, and leaves the encryptor
empty with the next number. -/
theorem Holds.flushOne (hsb : sb.Correct) (h : ne.Holds pfx outbound []) {b : List Frame}
    (hwf : ∀ f ∈ b, f.WellFormed) (hfit : FitEach 0 b) (hs : ne.seqNo < 2 ^ 63)
    (send : σ → List UInt8 → σ × Option ε) (s : σ) :
    ∃ msg ne₁ ne₂, (NaClEncryptor.encryptor sb).appendFrames ne b = some ne₁ ∧
      (NaClEncryptor.encryptor sb).flushEncryptor send s ne₁ =
        some ⟨[msg], (send s msg).2, (send s msg).1, ne₂⟩ ∧
      msg = pfx ++ (putUint64 ne.seqNoAndDF ++
        sb.sealBox (encodeFrames b) (nonceFor outbound ne.seqNoAndDF) ne.sessionKey) ∧
      decode sb ne.sessionKey outbound (msg.drop pfx.length) = .ok (ne.df, ne.seqNo, encodeFrames b) ∧
      ne₂.Holds pfx outbound [] ∧ ne₂.seqNo = ne.seqNo + 1 ∧ ne₂.df = ne.df ∧
      ne₂.sessionKey = ne.sessionKey := by
  -- an empty encryptor's `NonEncryptor` holds nothing
  have htotal : ne.nonEncryptor.totalLen = 0 := by
    rw [NonEncryptor.totalLen, h.nonEncryptor.buffered_eq]
    rfl
  obtain ⟨ne₁, happ, h₁, hs₁, hd₁, hk₁⟩ := h.appendFrames hwf (htotal ▸ hfit)
  rw [List.nil_append] at h₁
  obtain ⟨ne₂, hb, h₂, hs₂, hd₂, hk₂⟩ := h₁.bytes sb
  have hsd : ne₁.seqNoAndDF = ne.seqNoAndDF := by
    simp only [seqNoAndDF, hs₁, hd₁]
  refine ⟨pfx ++ (putUint64 ne₁.seqNoAndDF ++
      sb.sealBox (encodeFrames b) (nonceFor outbound ne₁.seqNoAndDF) ne₁.sessionKey),
    ne₁, ne₂, happ, ?_, by rw [hsd, hk₁], ?_, h₂, ?_, hd₂.trans hd₁, hk₂.trans hk₁⟩
  · simp only [Encryptor.flushEncryptor, NaClEncryptor.encryptor, hb]
    rfl
  · rw [List.drop_left, hsd, hk₁]
    exact decode_seal hsb hs outbound _ _
  · rw [hs₂, hs₁, Nat.mod_eq_of_lt (by omega)]

/-- **Batches flushed one after another by one encryptor**, with room for them in the sequence
numbers: the packets handed to the sender are those of the first batches, all of them unless a send
failed, each reading back as the flag, the next sequence number and the records of its batch. The
encryptor is left empty, its number moved on by the packets. Induction on the batches, by
`Holds.flushOne` at each. -/
theorem Holds.flushBatches (hsb : sb.Correct) :
    ∀ {bs : List (List Frame)} {ne : NaClEncryptor} {s : σ} {r : Flushed σ NaClEncryptor ε},
      ne.Holds pfx outbound [] → (∀ b ∈ bs, (∀ f ∈ b, f.WellFormed) ∧ FitEach 0 b) →
      ne.seqNo + bs.length < 2 ^ 63 →
      (NaClEncryptor.encryptor sb).flushBatches send s ne bs = some r →
      ∃ tagged : List (List UInt8 × List Frame × Nat),
        r.sent = tagged.map Prod.fst ∧ tagged.map (·.2.1) = bs.take tagged.length ∧
        (r.err = none → tagged.length = bs.length) ∧
        (∀ t ∈ tagged, decode sb ne.sessionKey outbound (t.1.drop pfx.length) =
          .ok (ne.df, t.2.2, encodeFrames t.2.1) ∧ ne.seqNo ≤ t.2.2 ∧
            t.2.2 < ne.seqNo + tagged.length ∧
            ∃ x nonce, t.1 = pfx ++ (putUint64 x ++ sb.sealBox (encodeFrames t.2.1) nonce ne.sessionKey)) ∧
        tagged.Pairwise (fun t u => t.2.2 < u.2.2) ∧
        r.enc.Holds pfx outbound [] ∧ r.enc.seqNo = ne.seqNo + tagged.length ∧
        r.enc.df = ne.df ∧ r.enc.sessionKey = ne.sessionKey
  | [], ne, s, r, h, _, _, hr => by
    simp only [Encryptor.flushBatches, Option.some.injEq] at hr
    subst hr
    exact ⟨[], rfl, rfl, fun _ => rfl, by simp, .nil, h, rfl, rfl, rfl⟩
  | b :: bs, ne, s, r, h, hbs, hroom, hr => by
    obtain ⟨hwf, hfit⟩ := hbs b List.mem_cons_self
    rw [List.length_cons] at hroom
    obtain ⟨msg, ne₁, ne₂, happ, hflush, hmsg, hdec, h₂, hs₂, hd₂, hk₂⟩ :=
      h.flushOne hsb hwf hfit (by omega) send s
    cases herr : (send s msg).2 with
    | some err =>
      -- the send failed: this packet is the last
      rw [Encryptor.flushBatches_cons_of_err happ hflush (by rw [herr]; rfl), Option.some.injEq]
        at hr
      subst hr
      refine ⟨[(msg, b, ne.seqNo)], rfl, by simp, by simp [herr], ?_, List.pairwise_singleton _ _,
        h₂, hs₂, hd₂, hk₂⟩
      simp only [List.mem_singleton, forall_eq, List.length_singleton]
      exact ⟨hdec, le_rfl, by omega, _, _, hmsg⟩
    | none =>
      rw [Encryptor.flushBatches_cons_of_ok happ hflush herr, Option.map_eq_some_iff] at hr
      obtain ⟨r', hr', rfl⟩ := hr
      obtain ⟨tagged, hsent, hframes, hall, htags, hpw, h', hs', hd', hk'⟩ :=
        Holds.flushBatches hsb h₂ (fun b' hb' => hbs b' (List.mem_cons_of_mem _ hb'))
          (by rw [hs₂]; omega) hr'
      refine ⟨(msg, b, ne.seqNo) :: tagged, by simp [hsent], by simp [hframes],
        fun he => by simpa using hall he, ?_, ?_, h', by simp [hs', hs₂]; omega, hd'.trans hd₂,
        hk'.trans hk₂⟩
      · rintro t (_ | ⟨_, ht⟩)
        · exact ⟨hdec, le_rfl, by simp, _, _, hmsg⟩
        · obtain ⟨hdt, hlo, hhi, hform⟩ := htags t ht
          rw [hd₂, hk₂] at hdt
          rw [hk₂] at hform
          rw [hs₂] at hlo hhi
          refine ⟨hdt, by omega, by simp; omega, hform⟩
      · -- the later packets carry the numbers after this one's
        refine List.Pairwise.cons (fun u hu => ?_) hpw
        have hlo := (htags u hu).2.1
        rw [hs₂] at hlo
        show ne.seqNo < u.2.2
        omega

end NaClEncryptor

namespace SleeveCrypto

/-- The encryptor of a DF flag: `EncDF`, or `Enc`. -/
def encOf (c : SleeveCrypto) (df : Bool) : NaClEncryptor := if df then c.encDF else c.enc

/-- The crypto with the encryptor of a DF flag replaced. -/
def setEnc (c : SleeveCrypto) (df : Bool) (ne : NaClEncryptor) : SleeveCrypto :=
  if df then { c with encDF := ne } else { c with enc := ne }

theorem seqNo_eq_encOf (c : SleeveCrypto) (df : Bool) : c.seqNo df = (c.encOf df).seqNo := by
  cases df <;> rfl

@[simp] theorem seqNo_setEnc_self (c : SleeveCrypto) (df : Bool) (ne : NaClEncryptor) :
    (c.setEnc df ne).seqNo df = ne.seqNo := by
  cases df <;> rfl

theorem seqNo_setEnc_of_ne (c : SleeveCrypto) {df d : Bool} (ne : NaClEncryptor) (h : d ≠ df) :
    (c.setEnc df ne).seqNo d = c.seqNo d := by
  cases df <;> cases d <;> first | rfl | exact absurd rfl h

variable {c : SleeveCrypto} {pfx key : List UInt8} {outbound : Bool}

/-- The encryptor of either flag of a crypto ready to send is empty, of that flag and that key. -/
theorem Sends.encOf (h : c.Sends pfx key outbound) (df : Bool) :
    (c.encOf df).Holds pfx outbound [] ∧ (c.encOf df).df = df ∧ (c.encOf df).sessionKey = key := by
  cases df
  · exact ⟨h.enc, h.df_enc, h.key_enc⟩
  · exact ⟨h.encDF, h.df_encDF, h.key_encDF⟩

/-- An empty encryptor of the right flag and key keeps the crypto ready to send. -/
theorem Sends.setEnc (h : c.Sends pfx key outbound) {df : Bool} {ne : NaClEncryptor}
    (hn : ne.Holds pfx outbound []) (hd : ne.df = df) (hk : ne.sessionKey = key) :
    (c.setEnc df ne).Sends pfx key outbound := by
  cases df
  · exact ⟨hn, h.encDF, hd, h.df_encDF, hk, h.key_encDF⟩
  · exact ⟨h.enc, hn, h.df_enc, hd, h.key_enc, hk⟩

end SleeveCrypto

/-- The sending side of a `sleeveForwarder` with a session key: its crypto, the rest of the
forwarder `σ` (the MTU search and the senders), and the frames in `aggregatorChan` and
`aggregatorDFChan`. -/
structure SendSide (σ : Type) where
  crypto : SleeveCrypto
  fwd : σ
  aggChan : List Frame
  aggDFChan : List Frame

namespace SendSide

variable {σ ε : Type}

/-- The aggregator channel of a DF flag. -/
def chanOf (ss : SendSide σ) (df : Bool) : List Frame := if df then ss.aggDFChan else ss.aggChan

/-- The side with the aggregator channel of a DF flag replaced. -/
def setChan (ss : SendSide σ) (df : Bool) (q : List Frame) : SendSide σ :=
  if df then { ss with aggDFChan := q } else { ss with aggChan := q }

/-- `PrepareConnection`: the crypto of `newSleeveCrypto(localPeer.NameByte, sessionKey,
outbound)`, the forwarder `fwd`, and empty channels. -/
def new (name sessionKey : List UInt8) (outbound : Bool) (fwd : σ) : SendSide σ :=
  ⟨newSleeveCrypto name sessionKey outbound, fwd, [], []⟩

section Step

/- `name` and `remoteName` are `fwd.sleeve.localPeerBin` and `fwd.remotePeerBin`; `maxPayload`
reads `fwd.maxPayload`; `send df` is the send through `fwd.senderDF` (`df`) or `fwd.sleeve`,
followed by `processSendError`. -/
variable (sb : Secretbox) (name remoteName : List UInt8) (maxPayload : σ → Int)
  (send : Bool → σ → List UInt8 → σ × Option ε)

/-- The `limit` that `run` gives `aggregateAndSend` for the channel of a DF flag. -/
def limitOf (df : Bool) (fwd : σ) : Int :=
  if df then maxPayload fwd else (MaxUDPPacketSize : Int) - UDPOverhead

/-- One event: the side after, the packets sent, and the error returned. -/
def step (ss : SendSide σ) : SendEvent → Option (SendSide σ × List (List UInt8) × Option ε)
  | .aggregate df frame => some (ss.setChan df (ss.chanOf df ++ [frame]), [], none)
  | .forward df =>
    match ss.chanOf df with
    -- the `select` case of an empty channel does not fire
    | [] => some (ss, [], none)
    | frame :: queue =>
      ((NaClEncryptor.encryptor sb).aggregateAndSend maxPayload (send df) (limitOf maxPayload df ss.fwd)
          frame queue ss.fwd (ss.crypto.encOf df)).map fun r =>
        ({ ss with crypto := ss.crypto.setEnc df r.enc, fwd := r.fwd }.setChan df r.rest, r.sent, r.err)
  | .special df data =>
    ((NaClEncryptor.encryptor sb).sendSpecial (send df) name remoteName data ss.fwd
        (ss.crypto.encOf df)).map fun r =>
      ({ ss with crypto := ss.crypto.setEnc df r.enc, fwd := r.fwd }, r.sent, r.err)

/-- The forwarder goroutine's loop over the events, `for err == nil`: the side after, the packets
sent, and the error that ended it. -/
def run : SendSide σ → List SendEvent → Option (SendSide σ × List (List UInt8) × Option ε)
  | ss, [] => some (ss, [], none)
  | ss, ev :: evs => do
    let r ← ss.step sb name remoteName maxPayload send ev
    match r.2.2 with
    | some _ => pure r
    | none => (run r.1 evs).map fun r' => (r'.1, r.2.1 ++ r'.2.1, r'.2.2)

end Step

@[simp] theorem chanOf_setChan_self (ss : SendSide σ) (df : Bool) (q : List Frame) :
    (ss.setChan df q).chanOf df = q := by
  cases df <;> rfl

theorem chanOf_setChan_of_ne (ss : SendSide σ) {df d : Bool} (q : List Frame) (h : d ≠ df) :
    (ss.setChan df q).chanOf d = ss.chanOf d := by
  cases df <;> cases d <;> first | rfl | exact absurd rfl h

@[simp] theorem chanOf_with (ss : SendSide σ) (c : SleeveCrypto) (fwd : σ) (d : Bool) :
    { ss with crypto := c, fwd := fwd }.chanOf d = ss.chanOf d := rfl

@[simp] theorem crypto_setChan (ss : SendSide σ) (df : Bool) (q : List Frame) :
    (ss.setChan df q).crypto = ss.crypto := by
  cases df <;> rfl

@[simp] theorem fwd_setChan (ss : SendSide σ) (df : Bool) (q : List Frame) :
    (ss.setChan df q).fwd = ss.fwd := by
  cases df <;> rfl

end SendSide

/-! ## What the wire carries -/

/-- A packet on the wire, as the proofs follow it: its bytes, the frames it carries, its DF flag and
sequence number, and whether `sendSpecial` sent it. -/
structure Packet where
  bytes : List UInt8
  frames : List Frame
  df : Bool
  seqNo : Nat
  special : Bool

/-- The frames the aggregator sent with the flag `df`, in the order of the wire. -/
def aggFrames (wire : List Packet) (df : Bool) : List Frame :=
  (wire.filter fun p => p.df == df && !p.special).flatMap Packet.frames

@[simp] theorem aggFrames_append (wire wire' : List Packet) (df : Bool) :
    aggFrames (wire ++ wire') df = aggFrames wire df ++ aggFrames wire' df := by
  simp [aggFrames]

/-- Packets of another flag, or special ones, carry no frame of the aggregator of `df`. -/
theorem aggFrames_of_none {new : List Packet} {df : Bool}
    (h : ∀ p ∈ new, p.df ≠ df ∨ p.special = true) : aggFrames new df = [] := by
  rw [aggFrames, List.filter_eq_nil_iff.2, List.flatMap_nil]
  intro p hp
  rcases h p hp with h | h <;> simp [h]

/-- Packets of the aggregator of `df` carry their frames. -/
theorem aggFrames_of_all {new : List Packet} {df : Bool}
    (h : ∀ p ∈ new, p.df = df ∧ p.special = false) :
    aggFrames new df = (new.map Packet.frames).flatten := by
  have hall : new.filter (fun p => p.df == df && !p.special) = new :=
    List.filter_eq_self.2 fun p hp => by simp [(h p hp).1, (h p hp).2]
  rw [aggFrames, hall, List.flatMap_def]

/-- The frame an event puts in the aggregator channel of `df`. -/
def SendEvent.arrival (df : Bool) : SendEvent → List Frame
  | .aggregate d frame => if d = df then [frame] else []
  | _ => []

/-- The frames that the events put in the aggregator channel of `df`, in order. -/
def arrived (events : List SendEvent) (df : Bool) : List Frame :=
  events.flatMap (SendEvent.arrival df)

section Wire

variable {σ ε : Type} (sb : Secretbox) (name key : List UInt8) (outbound : Bool)

/-- The crypto and the packets on the wire agree: the crypto is ready to send; every packet reads
back, after the prefix, as its flag, its sequence number and the records of its well-formed frames;
its number is below the next number of its flag; the numbers of each flag increase along the wire;
and no flag has sent more packets than the wire holds. -/
structure WireInv (c : SleeveCrypto) (wire : List Packet) : Prop where
  sends : c.Sends name key outbound
  decodes : ∀ p ∈ wire,
    decode sb key outbound (p.bytes.drop name.length) = .ok (p.df, p.seqNo, encodeFrames p.frames)
  wf : ∀ p ∈ wire, ∀ f ∈ p.frames, f.WellFormed
  below : ∀ p ∈ wire, p.seqNo < c.seqNo p.df
  order : wire.Pairwise fun p q => p.df = q.df → p.seqNo < q.seqNo
  count : ∀ df, c.seqNo df ≤ wire.length

variable {sb name key outbound}

theorem wireInv_new (hname : name.length + 8 ≤ MaxUDPPacketSize) :
    WireInv sb name key outbound (newSleeveCrypto name key outbound) [] :=
  ⟨SleeveCrypto.sends_new hname key outbound, by simp, by simp, by simp, .nil,
    fun df => by cases df <;> exact Nat.le_refl 0⟩

/-- **The flushes of one encryptor keep the wire in step.** Batches of well-formed frames that fit,
flushed by the encryptor of `df`, with room for them in the sequence numbers, put on the wire
packets of that flag that carry the first batches, all of them unless a send failed, and the crypto
with that encryptor after them agrees with the longer wire. -/
theorem WireInv.flush (hsb : sb.Correct) {c : SleeveCrypto} {wire : List Packet}
    (hw : WireInv sb name key outbound c wire) {df : Bool} {bs : List (List Frame)}
    {send : σ → List UInt8 → σ × Option ε} {s : σ} {r : Flushed σ NaClEncryptor ε}
    (hbs : ∀ b ∈ bs, (∀ f ∈ b, f.WellFormed) ∧ FitEach 0 b) (hroom : wire.length + bs.length < 2 ^ 63)
    (hr : (NaClEncryptor.encryptor sb).flushBatches send s (c.encOf df) bs = some r) (sp : Bool) :
    ∃ new : List Packet, r.sent = new.map Packet.bytes ∧
      new.map Packet.frames = bs.take new.length ∧ (∀ p ∈ new, p.df = df ∧ p.special = sp) ∧
      (r.err = none → new.length = bs.length) ∧
      WireInv sb name key outbound (c.setEnc df r.enc) (wire ++ new) := by
  obtain ⟨hh, hdf, hkey⟩ := hw.sends.encOf df
  have hseq : (c.encOf df).seqNo + bs.length < 2 ^ 63 := by
    have := hw.count df
    rw [SleeveCrypto.seqNo_eq_encOf] at this
    omega
  obtain ⟨tagged, hsent, hframes, hall, htags, hpw, h', hs', hd', hk'⟩ :=
    NaClEncryptor.Holds.flushBatches hsb hh hbs hseq hr
  rw [hdf, hkey] at htags
  -- the packets of this flush, in the order sent
  refine ⟨tagged.map fun t => ⟨t.1, t.2.1, df, t.2.2, sp⟩, by simp [hsent],
    by simpa [Function.comp_def] using hframes, ?_, by simpa using hall,
    hw.sends.setEnc h' (hd'.trans hdf) (hk'.trans hkey), ?_, ?_, ?_, ?_, ?_⟩
  · simp only [List.mem_map]
    rintro p ⟨t, -, rfl⟩
    exact ⟨rfl, rfl⟩
  · intro p hp
    rcases List.mem_append.1 hp with hp | hp
    · exact hw.decodes p hp
    · obtain ⟨t, ht, rfl⟩ := List.mem_map.1 hp
      exact (htags t ht).1
  · intro p hp
    rcases List.mem_append.1 hp with hp | hp
    · exact hw.wf p hp
    · obtain ⟨t, ht, rfl⟩ := List.mem_map.1 hp
      have hmem : t.2.1 ∈ bs := by
        have : t.2.1 ∈ tagged.map (·.2.1) := List.mem_map_of_mem ht
        rw [hframes] at this
        exact List.mem_of_mem_take this
      exact (hbs t.2.1 hmem).1
  · intro p hp
    rcases List.mem_append.1 hp with hp | hp
    · have hb := hw.below p hp
      by_cases hd : p.df = df
      · rw [hd, SleeveCrypto.seqNo_setEnc_self, hs', ← SleeveCrypto.seqNo_eq_encOf]
        rw [hd] at hb
        omega
      · rwa [SleeveCrypto.seqNo_setEnc_of_ne _ _ hd]
    · obtain ⟨t, ht, rfl⟩ := List.mem_map.1 hp
      rw [SleeveCrypto.seqNo_setEnc_self, hs']
      exact (htags t ht).2.2.1
  · -- the new packets carry numbers from the encryptor's on, above every earlier one of the flag
    refine List.pairwise_append.2 ⟨hw.order, ?_, ?_⟩
    · refine List.pairwise_map.2 (hpw.imp ?_)
      intro t u htu _
      exact htu
    · intro p hp q hq hpq
      obtain ⟨t, ht, rfl⟩ := List.mem_map.1 hq
      have hb := hw.below p hp
      rw [hpq, SleeveCrypto.seqNo_eq_encOf] at hb
      exact lt_of_lt_of_le hb (htags t ht).2.1
  · intro d
    by_cases hd : d = df
    · subst hd
      rw [SleeveCrypto.seqNo_setEnc_self, hs', List.length_append, List.length_map,
        ← SleeveCrypto.seqNo_eq_encOf]
      have := hw.count d
      omega
    · rw [SleeveCrypto.seqNo_setEnc_of_ne _ _ hd, List.length_append]
      have := hw.count d
      omega

/-- **What the peer hands over.** The peer's decryptor, made for the other direction, handed
packets of the wire in the order sent, with any of them lost and the prefix stripped, hands over
exactly the frames of each, with no error: each opens to its flag, a sequence number and its
records, and the numbers of each flag increase, so the replay window lets all of them through. -/
theorem WireInv.delivers {c : SleeveCrypto} {wire : List Packet}
    (hw : WireInv sb name key outbound c wire) {delivered : List Packet}
    (hsub : delivered.Sublist wire) :
    (NaClDecryptor.new key !outbound).run sb (delivered.map fun p => p.bytes.drop name.length) =
      delivered.map fun p => (p.frames, none) := by
  have hdec : (delivered.map fun p => p.bytes.drop name.length).map (decode sb key (!(!outbound))) =
      (delivered.map fun p => (p.df, p.seqNo, encodeFrames p.frames)).map .ok := by
    simp only [List.map_map, Bool.not_not]
    exact List.map_congr_left fun p hp => hw.decodes p (hsub.subset hp)
  have hpw : (delivered.map fun p => (p.df, p.seqNo, encodeFrames p.frames)).Pairwise
      fun a b => a.1 = b.1 → a.2.1 < b.2.1 :=
    List.pairwise_map.2 (hw.order.sublist hsub)
  rw [(NaClDecryptor.tracks_new key !outbound).run, hdec, replayFilter_increasing (by simp) hpw,
    List.map_map]
  exact List.map_congr_left fun p hp => framesOf_encodeFrames (hw.wf p (hsub.subset hp))

end Wire

/-! ## The invariant of a run -/

/-- What an event needs for the run to go on: a frame put in a channel has the property `P`, and
the data of a special frame fits the packet buffer. -/
def SendEvent.Ok (P : Frame → Prop) : SendEvent → Prop
  | .aggregate _ frame => P frame
  | .forward _ => True
  | .special _ data => frameOverhead + data.length ≤ MaxUDPPacketSize

instance SendEvent.decidableOk (P : Frame → Prop) [DecidablePred P] :
    ∀ ev : SendEvent, Decidable (ev.Ok P)
  | .aggregate _ frame => inferInstanceAs (Decidable (P frame))
  | .forward _ => inferInstanceAs (Decidable True)
  | .special _ data => inferInstanceAs (Decidable (frameOverhead + data.length ≤ MaxUDPPacketSize))

section Inv

variable {σ ε : Type} (sb : Secretbox) (name key : List UInt8) (outbound : Bool)
  (maxPayload : σ → Int) (M : Nat) (P : Frame → Prop)

/-- **The invariant of the sending side**, after the packets `wire` and with the frames `arr`
arrived in the channels, under a bound `M` on `maxPayload` and a property `P` of the frames that
arrive: the crypto and the wire agree; the frames the aggregator sent with each flag, followed by
those in its channel, are a sublist of those that arrived on it; the frames in the channels have
`P`; and `maxPayload` is within `M`. -/
structure SendSide.Inv (ss : SendSide σ) (wire : List Packet) (arr : Bool → List Frame) : Prop where
  wireInv : WireInv sb name key outbound ss.crypto wire
  chan : ∀ df, (aggFrames wire df ++ ss.chanOf df).Sublist (arr df)
  chan_P : ∀ df, ∀ f ∈ ss.chanOf df, P f
  maxPayload_le : maxPayload ss.fwd ≤ M

end Inv

namespace SendSide

section Steps

variable {σ ε : Type} {sb : Secretbox} {name remoteName key : List UInt8} {outbound : Bool}
  {maxPayload : σ → Int} {send : Bool → σ → List UInt8 → σ × Option ε} {M : Nat}
  {P : Frame → Prop} {ss : SendSide σ} {wire : List Packet} {arr : Bool → List Frame}

/-- **A frame put in a channel** is the last of it, and the last to arrive. -/
theorem Inv.aggregate (hI : ss.Inv sb name key outbound maxPayload M P wire arr) {df : Bool}
    {frame : Frame} (hf : P frame) :
    (ss.setChan df (ss.chanOf df ++ [frame])).Inv sb name key outbound maxPayload M P wire
      fun d => arr d ++ (SendEvent.aggregate df frame).arrival d := by
  refine ⟨by simpa using hI.wireInv, fun d => ?_, fun d => ?_, by simpa using hI.maxPayload_le⟩
  · by_cases hd : d = df
    · subst hd
      simpa [SendEvent.arrival] using (hI.chan d).append_right [frame]
    · simpa [SendEvent.arrival, Ne.symm hd, chanOf_setChan_of_ne _ _ hd] using hI.chan d
  · by_cases hd : d = df
    · subst hd
      intro f hf'
      rcases (by simpa using hf' : f ∈ ss.chanOf d ∨ f = frame) with hf' | rfl
      · exact hI.chan_P d f hf'
      · exact hf
    · rw [chanOf_setChan_of_ne _ _ hd]
      exact hI.chan_P d

/-- A batch the aggregator sends is not empty. -/
theorem batchFits_ne_nil {enc : Encryptor NaClEncryptor} {base : Nat} {limit : Int} {b : List Frame}
    (h : enc.BatchFits base limit M b) : b ≠ [] := by
  cases b with
  | nil => exact h.elim
  | cons _ _ => exact List.cons_ne_nil _ _

/-- A batch that fits a bound within the buffer passes `fits` against the buffer frame by frame. -/
theorem fitEach_of_batchFits {limit : Int} {b : List Frame}
    (h : (NaClEncryptor.encryptor sb).BatchFits (name.length + 8 + secretboxOverhead) limit M b)
    (hM : M ≤ name.length + 8 + secretboxOverhead + MaxUDPPacketSize) : FitEach 0 b := by
  cases b with
  | nil => exact h.elim
  | cons f fs =>
    refine fitEach_of_le ?_
    have := h.2
    rw [Nat.zero_add]
    exact (show (NaClEncryptor.encryptor sb).recordsLen (f :: fs) ≤ MaxUDPPacketSize by omega)

variable (hsb : sb.Correct) (hM : M ≤ name.length + 8 + secretboxOverhead + MaxUDPPacketSize)
  (hlimit : (MaxUDPPacketSize : Int) - UDPOverhead ≤ M)
  (hsend : ∀ df s msg, maxPayload s ≤ M → maxPayload (send df s msg).1 ≤ M)
  (hP : ∀ f, P f → f.WellFormed)
include hsb hM hlimit hsend hP

/-- **The aggregator takes from a channel.** From a side that keeps the invariant, with room in the
sequence numbers, the `forward` of a non-empty channel sends at most 100 packets, which extend the
wire, and keeps the invariant. When no send fails and every frame with `P` fits within both limits,
the call returns no error and loses no frame: what the aggregator sent, followed by the channel, is
as before. -/
theorem Inv.forward (remoteName : List UInt8) (hI : ss.Inv sb name key outbound maxPayload M P wire arr) {df : Bool}
    {frame : Frame} {queue : List Frame} (hq : ss.chanOf df = frame :: queue)
    (hroom : wire.length + 100 < 2 ^ 63) :
    ∃ ss' new err, ss.step sb name remoteName maxPayload send (.forward df) =
        some (ss', new.map Packet.bytes, err) ∧ new.length ≤ 100 ∧
      ss'.Inv sb name key outbound maxPayload M P (wire ++ new) arr ∧
      ∀ L : Int, (∀ s msg, (send df s msg).2 = none) → (∀ s, L ≤ maxPayload s) →
        (∀ f, P f → ((name.length + 8 + secretboxOverhead + frameOverhead + f.frame.length : Nat) : Int)
          ≤ min L ((MaxUDPPacketSize : Int) - UDPOverhead)) →
        err = none ∧ ∀ d, aggFrames (wire ++ new) d ++ ss'.chanOf d = aggFrames wire d ++ ss.chanOf d := by
  obtain ⟨hh, -, -⟩ := hI.wireInv.sends.encOf df
  have hwf : ∀ f ∈ frame :: queue, f.WellFormed := fun f hf => hP f (hI.chan_P df f (hq ▸ hf))
  have hlim : limitOf maxPayload df ss.fwd ≤ M := by
    cases df
    · exact hlimit
    · exact hI.maxPayload_le
  obtain ⟨bs, dropped, r, hrun, hflush, hpart, hcount, hbs, hdrop, hr⟩ :=
    Encryptor.aggregateAndSend_spec (NaClEncryptor.lawful sb name outbound) hM hlim (hsend df) hh
      hI.maxPayload_le hwf
  -- the frames of the batches are frames of the channel
  have hmem : ∀ b ∈ bs, ∀ f ∈ b, f ∈ frame :: queue := fun b hb f hf => by
    rw [hpart]
    exact List.mem_append_left _ (List.mem_append_left _ (List.mem_flatten_of_mem hb hf))
  have hbs' : ∀ b ∈ bs, (∀ f ∈ b, f.WellFormed) ∧ FitEach 0 b := fun b hb =>
    ⟨fun f hf => hwf f (hmem b hb f hf), fitEach_of_batchFits (hbs b hb) hM⟩
  have hlen : bs.length ≤ 100 := by
    have := Lib.length_le_length_flatten fun b hb => batchFits_ne_nil (hbs b hb)
    simp only [List.length_append] at hcount
    omega
  obtain ⟨new, hsent, hframes, hnew, hall, hw'⟩ := hI.wireInv.flush hsb hbs' (by omega) hflush false
  have hnewlen : new.length ≤ bs.length := by
    have := congrArg List.length hframes
    simp only [List.length_map, List.length_take] at this
    omega
  -- the new packets are the aggregator's, of the flag `df`
  have hagg : aggFrames new df = (bs.take new.length).flatten := by
    rw [aggFrames_of_all hnew, hframes]
  have hother : ∀ d, d ≠ df → aggFrames new d = [] := fun d hd =>
    aggFrames_of_none fun p hp => .inl ((hnew p hp).1 ▸ Ne.symm hd)
  have hrest : ∀ f ∈ r.rest, f ∈ frame :: queue := fun f hf => by
    rw [hpart]
    exact List.mem_append_right _ hf
  refine ⟨{ ss with crypto := ss.crypto.setEnc df r.enc, fwd := r.fwd }.setChan df r.rest, new, r.err,
    ?_, by omega, ⟨by simpa using hw', fun d => ?_, fun d => ?_,
      by simpa using
        Encryptor.flushBatches_fwd (fun s => maxPayload s ≤ M) (hsend df) hI.maxPayload_le hflush⟩, ?_⟩
  · simp only [step, hq, hrun, Option.map_some, hsent]
  · by_cases hd : d = df
    · -- what this call sent, then what it left, is what it took less what it dropped
      subst hd
      have htake : ((bs.take new.length).flatten ++ r.rest).Sublist (frame :: queue) := by
        rw [hpart, List.append_assoc]
        exact ((List.take_sublist _ bs).flatten).append (List.sublist_append_right _ _)
      have hchan := hI.chan d
      rw [hq] at hchan
      simpa [hagg, List.append_assoc] using (htake.append_left (aggFrames wire d)).trans hchan
    · simpa [hother d hd, chanOf_setChan_of_ne _ _ hd] using hI.chan d
  · by_cases hd : d = df
    · subst hd
      simpa using fun f hf => hI.chan_P d f (hq ▸ hrest f hf)
    · simpa [chanOf_setChan_of_ne _ _ hd] using hI.chan_P d
  · intro L hnoerr hL hfit
    have herr : r.err = none := Encryptor.flushBatches_err hnoerr hflush
    have hk := hall herr
    -- no frame fails `fits` against the call's limit, so none is dropped
    have hnil : dropped = [] := by
      have hdrop' : (NaClEncryptor.encryptor sb).Dropped _ _ none dropped := herr ▸ hdrop
      refine Encryptor.Dropped.eq_nil _ hdrop' fun f hf => ?_
      have hf' : f ∈ frame :: queue := by
        rw [hpart]
        exact List.mem_append_left _ (List.mem_append_right _ hf)
      have := hfit f (hI.chan_P df f (hq ▸ hf'))
      cases df
      · exact this.trans (min_le_right _ _)
      · exact this.trans ((min_le_left _ _).trans (hL ss.fwd))
    refine ⟨herr, fun d => ?_⟩
    by_cases hd : d = df
    · subst hd
      rw [aggFrames_append, hagg, hk, List.take_length, hq, hpart, hnil]
      simp
    · simp [hother d hd, chanOf_setChan_of_ne _ _ hd]

omit hM hlimit hP in
/-- **A special frame** goes out in a packet of its own through the encryptor of its flag, which
extends the wire and keeps the invariant, the aggregator's frames and the channels as they were;
with sends that do not fail, it returns no error. -/
theorem Inv.special (hname : name.length = NameSize) (hremote : remoteName.length = NameSize)
    (hI : ss.Inv sb name key outbound maxPayload M P wire arr) {df : Bool} {data : List UInt8}
    (hdata : frameOverhead + data.length ≤ MaxUDPPacketSize) (hroom : wire.length + 1 < 2 ^ 63) :
    ∃ ss' new err, ss.step sb name remoteName maxPayload send (.special df data) =
        some (ss', new.map Packet.bytes, err) ∧ new.length ≤ 1 ∧
      ss'.Inv sb name key outbound maxPayload M P (wire ++ new) arr ∧
      (∀ d, aggFrames (wire ++ new) d ++ ss'.chanOf d = aggFrames wire d ++ ss.chanOf d) ∧
      ((∀ s msg, (send df s msg).2 = none) → err = none) := by
  obtain ⟨hh, -, -⟩ := hI.wireInv.sends.encOf df
  have hwf : (⟨name, remoteName, data⟩ : Frame).WellFormed :=
    ⟨hname, hremote, show data.length < 2 ^ 16 by
      simp only [frameOverhead, NameSize, MaxUDPPacketSize] at hdata; omega⟩
  have hfit : FitEach 0 [⟨name, remoteName, data⟩] := ⟨by simpa using hdata, trivial⟩
  have hs : (ss.crypto.encOf df).seqNo < 2 ^ 63 := by
    have := hI.wireInv.count df
    rw [SleeveCrypto.seqNo_eq_encOf] at this
    omega
  obtain ⟨msg, ne₁, ne₂, happ, hflush, -⟩ :=
    hh.flushOne hsb (by simpa using hwf) hfit hs (send df) ss.fwd
  have hr := Encryptor.flushBatches_singleton happ hflush
  obtain ⟨new, hsent, hframes, hnew, -, hw'⟩ :=
    hI.wireInv.flush hsb (by simpa using ⟨hwf, hfit⟩)
      (by simpa using hroom) hr true
  have hnone : ∀ d, aggFrames new d = [] := fun d =>
    aggFrames_of_none fun p hp => .inr (hnew p hp).2
  refine ⟨{ ss with crypto := ss.crypto.setEnc df ne₂, fwd := (send df ss.fwd msg).1 }, new,
    (send df ss.fwd msg).2, ?_, ?_, ⟨hw', fun d => ?_, fun d => ?_, ?_⟩, fun d => ?_, fun hnoerr => hnoerr _ _⟩
  · rw [step, Encryptor.sendSpecial_eq, hr, ← hsent]
    rfl
  · have := congrArg List.length hframes
    simp only [List.length_map, List.length_take, List.length_singleton] at this
    omega
  · simpa [hnone d] using hI.chan d
  · simpa using hI.chan_P d
  · exact Encryptor.flushBatches_fwd (fun s => maxPayload s ≤ M) (hsend df) hI.maxPayload_le hr
  · simp [hnone d]

omit hsb hM hlimit hsend hP in
/-- The invariant holds for any frames that arrived after more. -/
theorem Inv.mono (hI : ss.Inv sb name key outbound maxPayload M P wire arr)
    {arr' : Bool → List Frame} (h : ∀ df, (arr df).Sublist (arr' df)) :
    ss.Inv sb name key outbound maxPayload M P wire arr' :=
  ⟨hI.wireInv, fun df => (hI.chan df).trans (h df), hI.chan_P, hI.maxPayload_le⟩

/-- **One event keeps the invariant**: it sends at most 100 packets, which extend the wire, and
what it puts in a channel arrives. When no send fails, the path keeps `maxPayload` at least `L`,
and every frame with `P` fits within `L` and the buffer's limit, it returns no error and loses no
frame. One case for each event. -/
theorem Inv.step (hname : name.length = NameSize) (hremote : remoteName.length = NameSize)
    (hI : ss.Inv sb name key outbound maxPayload M P wire arr) {ev : SendEvent} (hev : ev.Ok P)
    (hroom : wire.length + 100 < 2 ^ 63) :
    ∃ ss' new err, ss.step sb name remoteName maxPayload send ev = some (ss', new.map Packet.bytes, err) ∧
      new.length ≤ 100 ∧
      ss'.Inv sb name key outbound maxPayload M P (wire ++ new) (fun d => arr d ++ ev.arrival d) ∧
      ∀ L : Int, (∀ df s msg, (send df s msg).2 = none) → (∀ s, L ≤ maxPayload s) →
        (∀ f, P f → ((name.length + 8 + secretboxOverhead + frameOverhead + f.frame.length : Nat) : Int)
          ≤ min L ((MaxUDPPacketSize : Int) - UDPOverhead)) →
        err = none ∧
          ∀ d, aggFrames (wire ++ new) d ++ ss'.chanOf d = aggFrames wire d ++ ss.chanOf d ++ ev.arrival d := by
  -- an event that puts nothing in a channel leaves what arrived as it was
  have hsame : ∀ ev : SendEvent, (∀ d, ev.arrival d = []) →
      (fun d => arr d ++ ev.arrival d) = arr := fun ev h => funext fun d => by rw [h d, List.append_nil]
  cases ev with
  | aggregate df frame =>
    refine ⟨ss.setChan df (ss.chanOf df ++ [frame]), [], none, by simp [SendSide.step], by simp,
      by simpa using hI.aggregate hev, fun L _ _ _ => ⟨rfl, fun d => ?_⟩⟩
    by_cases hd : d = df
    · subst hd
      simp [SendEvent.arrival]
    · simp [SendEvent.arrival, Ne.symm hd, chanOf_setChan_of_ne _ _ hd]
  | forward df =>
    rw [hsame _ fun _ => rfl]
    cases hq : ss.chanOf df with
    | nil =>
      -- the `select` case of an empty channel does not fire
      exact ⟨ss, [], none, by simp [SendSide.step, hq], by simp, by simpa using hI,
        fun L _ _ _ => ⟨rfl, fun d => by simp [SendEvent.arrival]⟩⟩
    | cons frame queue =>
      obtain ⟨ss', new, err, hstep, hlen, hI', hloss⟩ :=
        hI.forward hsb hM hlimit hsend hP remoteName hq hroom
      refine ⟨ss', new, err, hstep, hlen, hI', fun L hnoerr hL hfit => ?_⟩
      obtain ⟨herr, hacc⟩ := hloss L (hnoerr df) hL hfit
      exact ⟨herr, fun d => by rw [hacc d]; simp [SendEvent.arrival]⟩
  | special df data =>
    rw [hsame _ fun _ => rfl]
    obtain ⟨ss', new, err, hstep, hlen, hI', hacc, herr⟩ :=
      hI.special hsb hsend hname hremote hev (by omega)
    exact ⟨ss', new, err, hstep, by omega, hI', fun L hnoerr _ _ =>
      ⟨herr (hnoerr df), fun d => by rw [hacc d]; simp [SendEvent.arrival]⟩⟩

/-- **A run keeps the invariant**: from a side that keeps it, over any events that are `Ok`, with
room in the sequence numbers, the loop sends packets that extend the wire and keeps the invariant
with the frames the events put in the channels. When no send fails, the path keeps `maxPayload`
at least `L`, and every frame with `P` fits, the loop runs to the end and loses no frame. Induction
on the events, by `Inv.step`. -/
theorem Inv.run (hname : name.length = NameSize) (hremote : remoteName.length = NameSize) :
    ∀ (events : List SendEvent) (ss : SendSide σ) (wire : List Packet) (arr : Bool → List Frame),
      ss.Inv sb name key outbound maxPayload M P wire arr → (∀ ev ∈ events, ev.Ok P) →
      wire.length + 100 * events.length < 2 ^ 63 →
      ∃ ss' new err, ss.run sb name remoteName maxPayload send events =
          some (ss', new.map Packet.bytes, err) ∧
        ss'.Inv sb name key outbound maxPayload M P (wire ++ new)
          (fun d => arr d ++ arrived events d) ∧
        ∀ L : Int, (∀ df s msg, (send df s msg).2 = none) → (∀ s, L ≤ maxPayload s) →
          (∀ f, P f → ((name.length + 8 + secretboxOverhead + frameOverhead + f.frame.length : Nat) : Int)
            ≤ min L ((MaxUDPPacketSize : Int) - UDPOverhead)) →
          err = none ∧
            ∀ d, aggFrames (wire ++ new) d ++ ss'.chanOf d = aggFrames wire d ++ ss.chanOf d ++ arrived events d
  | [], ss, wire, arr, hI, _, _ =>
    ⟨ss, [], none, rfl, by simpa [arrived] using hI, fun _ _ _ _ => ⟨rfl, fun d => by simp [arrived]⟩⟩
  | ev :: evs, ss, wire, arr, hI, hev, hroom => by
    rw [List.length_cons] at hroom
    obtain ⟨ss₁, new₁, err₁, hstep, hlen₁, hI₁, hloss₁⟩ :=
      hI.step hsb hM hlimit hsend hP hname hremote (hev ev List.mem_cons_self) (by omega)
    -- what arrived over the events is what arrived at the first, then over the rest
    have harr : ∀ d, arrived (ev :: evs) d = ev.arrival d ++ arrived evs d := fun d => rfl
    cases err₁ with
    | some err =>
      -- the loop ends at the first error
      refine ⟨ss₁, new₁, some err, by simp [SendSide.run, hstep], hI₁.mono fun d => ?_,
        fun L hnoerr hL hfit => absurd (hloss₁ L hnoerr hL hfit).1 (by simp)⟩
      rw [harr, ← List.append_assoc]
      exact List.sublist_append_left _ _
    | none =>
      obtain ⟨ss', new, err, hrun, hI', hloss⟩ :=
        Inv.run hname hremote evs ss₁ (wire ++ new₁) _ hI₁
          (fun ev' hev' => hev ev' (List.mem_cons_of_mem _ hev'))
          (by rw [List.length_append]; omega)
      refine ⟨ss', new₁ ++ new, err, by simp [SendSide.run, hstep, hrun], ?_, fun L hnoerr hL hfit => ?_⟩
      · simpa [harr, List.append_assoc] using hI'
      · obtain ⟨herr, hacc⟩ := hloss L hnoerr hL hfit
        refine ⟨herr, fun d => ?_⟩
        rw [← List.append_assoc, hacc d, (hloss₁ L hnoerr hL hfit).2 d, harr]
        simp only [List.append_assoc]

end Steps

/-- A new side keeps the invariant, with nothing sent and nothing arrived. -/
theorem inv_new {σ : Type} {sb : Secretbox} {name key : List UInt8} {outbound : Bool}
    {maxPayload : σ → Int} {M : Nat} {P : Frame → Prop} (hname : name.length + 8 ≤ MaxUDPPacketSize)
    {fwd : σ} (hfwd : maxPayload fwd ≤ M) :
    (SendSide.new name key outbound fwd).Inv sb name key outbound maxPayload M P [] fun _ => [] :=
  ⟨wireInv_new hname, fun df => by cases df <;> simp [aggFrames, chanOf, SendSide.new],
    fun df => by cases df <;> simp [chanOf, SendSide.new], hfwd⟩

end SendSide

/-! ## The connection -/

section Connection

variable {σ ε : Type} {sb : Secretbox} {name remoteName key : List UInt8}
  {maxPayload : σ → Int} {send : Bool → σ → List UInt8 → σ × Option ε} {fwd : σ}
  {events : List SendEvent}

/-- **The sending side of a connection delivers.** A forwarder of a connection with a session key,
whose name and the peer's are peer names, takes any events in any order: well-formed frames put
in its aggregator channels, the forwarder goroutine taking from either channel, and special frames
that fit the buffer (fewer than `2 ^ 63 / 100` events, so that no sequence number wraps into the
DF bit). With a cipher that opens what it sealed and sends that keep `maxPayload` within what the
buffer holds, the loop does not panic. The frames it sent through the aggregator with each DF flag,
followed by those still in the channel, are a sublist of the frames put in that channel, in order:
none is invented, duplicated or reordered. And the peer's decryptor, handed the packets in the order
sent with any of them lost, as `readUDP` hands them after the name, hands over exactly the frames of
each, with no error. -/
theorem forwarder_delivers (hsb : sb.Correct) (hname : name.length = NameSize)
    (hremote : remoteName.length = NameSize) (outbound : Bool)
    (hsend : ∀ df s msg, maxPayload s ≤ name.length + 8 + secretboxOverhead + MaxUDPPacketSize →
      maxPayload (send df s msg).1 ≤ name.length + 8 + secretboxOverhead + MaxUDPPacketSize)
    (hfwd : maxPayload fwd ≤ name.length + 8 + secretboxOverhead + MaxUDPPacketSize)
    (hev : ∀ ev ∈ events, ev.Ok Frame.WellFormed) (hlen : 100 * events.length < 2 ^ 63) :
    ∃ ss' wire err, (SendSide.new name key outbound fwd).run sb name remoteName maxPayload send events =
        some (ss', wire.map Packet.bytes, err) ∧
      (∀ df, (aggFrames wire df ++ ss'.chanOf df).Sublist (arrived events df)) ∧
      ∀ delivered : List Packet, delivered.Sublist wire →
        (newSleeveCrypto remoteName key !outbound).dec.run sb
            (delivered.map fun p => p.bytes.drop NameSize) =
          delivered.map fun p => (p.frames, none) := by
  have hroom : name.length + 8 ≤ MaxUDPPacketSize := by
    rw [hname]
    decide
  obtain ⟨ss', wire, err, hrun, hI, -⟩ :=
    SendSide.Inv.run hsb le_rfl
      (by simp only [MaxUDPPacketSize, UDPOverhead]; omega) hsend (fun _ hf => hf) hname hremote
      events _ [] _ (SendSide.inv_new hroom hfwd) hev (by simpa using hlen)
  refine ⟨ss', wire, err, by simpa using hrun, fun df => by simpa using hI.chan df,
    fun delivered hsub => ?_⟩
  rw [← hname]
  exact hI.wireInv.delivers (by simpa using hsub)

/-- Two frames put in the channel without the DF flag, the aggregator taking them in one packet,
and a heartbeat through the DF encryptor, with the identity cipher and a path that never moves. -/
theorem forwarder_delivers_heartbeat :
    ∃ ss' wire err, (SendSide.new [1, 1, 1, 1, 1, 1] [] false ()).run plainSecretbox
        [1, 1, 1, 1, 1, 1] [2, 2, 2, 2, 2, 2] (fun _ => 65507) (fun _ s _ => (s, (none : Option Unit)))
        [.aggregate false ⟨[1, 1, 1, 1, 1, 1], [2, 2, 2, 2, 2, 2], [7]⟩,
          .aggregate false ⟨[1, 1, 1, 1, 1, 1], [2, 2, 2, 2, 2, 2], [8]⟩, .forward false,
          .special true (List.replicate 22 0)] = some (ss', wire.map Packet.bytes, err) ∧
      (∀ df, (aggFrames wire df ++ ss'.chanOf df).Sublist (arrived
        [.aggregate false ⟨[1, 1, 1, 1, 1, 1], [2, 2, 2, 2, 2, 2], [7]⟩,
          .aggregate false ⟨[1, 1, 1, 1, 1, 1], [2, 2, 2, 2, 2, 2], [8]⟩, .forward false,
          .special true (List.replicate 22 0)] df)) ∧
      ∀ delivered : List Packet, delivered.Sublist wire →
        (newSleeveCrypto [2, 2, 2, 2, 2, 2] [] !false).dec.run plainSecretbox
            (delivered.map fun p => p.bytes.drop NameSize) =
          delivered.map fun p => (p.frames, none) :=
  forwarder_delivers plainSecretbox_correct rfl rfl false (fun _ _ _ h => h) (by decide) (by decide)
    (by norm_num)

/-- **No frame is lost when nothing fails.** With sends that never fail, a path whose `maxPayload`
never falls below `L`, and frames whose records fit both `L` and the limit of the channel without
the DF flag, every frame put in an aggregator channel is sent or still waiting there, in order: the
frames the aggregator sent with each flag, followed by the channel, are the frames put in it. -/
theorem forwarder_no_loss (hsb : sb.Correct) (hname : name.length = NameSize)
    (hremote : remoteName.length = NameSize) (outbound : Bool)
    (hsend : ∀ df s msg, maxPayload s ≤ name.length + 8 + secretboxOverhead + MaxUDPPacketSize →
      maxPayload (send df s msg).1 ≤ name.length + 8 + secretboxOverhead + MaxUDPPacketSize)
    (hfwd : maxPayload fwd ≤ name.length + 8 + secretboxOverhead + MaxUDPPacketSize)
    (hnoerr : ∀ df s msg, (send df s msg).2 = none) {L : Int} (hL : ∀ s, L ≤ maxPayload s)
    (hev : ∀ ev ∈ events, ev.Ok fun f => f.WellFormed ∧
      ((name.length + 8 + secretboxOverhead + frameOverhead + f.frame.length : Nat) : Int) ≤
        min L ((MaxUDPPacketSize : Int) - UDPOverhead))
    (hlen : 100 * events.length < 2 ^ 63) :
    ∃ ss' wire, (SendSide.new name key outbound fwd).run sb name remoteName maxPayload send events =
        some (ss', wire.map Packet.bytes, none) ∧
      ∀ df, aggFrames wire df ++ ss'.chanOf df = arrived events df := by
  have hroom : name.length + 8 ≤ MaxUDPPacketSize := by
    rw [hname]
    decide
  obtain ⟨ss', wire, err, hrun, -, hloss⟩ :=
    SendSide.Inv.run hsb le_rfl
      (by simp only [MaxUDPPacketSize, UDPOverhead]; omega) hsend (fun _ hf => hf.1) hname hremote
      events _ [] _ (SendSide.inv_new hroom hfwd) hev (by simpa using hlen)
  obtain ⟨rfl, hacc⟩ := hloss L hnoerr hL fun _ hf => hf.2
  refine ⟨ss', wire, by simpa using hrun, fun df => ?_⟩
  simpa [aggFrames, SendSide.chanOf, SendSide.new] using hacc df

/-- Three frames put in the two channels, the aggregator taking from both, with sends that never
fail on a path that never moves: every frame is sent. -/
theorem forwarder_no_loss_both_channels :
    ∃ ss' wire, (SendSide.new [1, 1, 1, 1, 1, 1] [] false ()).run plainSecretbox
        [1, 1, 1, 1, 1, 1] [2, 2, 2, 2, 2, 2] (fun _ => 65507) (fun _ s _ => (s, (none : Option Unit)))
        [.aggregate false ⟨[1, 1, 1, 1, 1, 1], [2, 2, 2, 2, 2, 2], [7]⟩,
          .aggregate true ⟨[1, 1, 1, 1, 1, 1], [2, 2, 2, 2, 2, 2], [8]⟩, .forward true,
          .aggregate false ⟨[1, 1, 1, 1, 1, 1], [2, 2, 2, 2, 2, 2], [9]⟩, .forward false] =
        some (ss', wire.map Packet.bytes, none) ∧
      ∀ df, aggFrames wire df ++ ss'.chanOf df = arrived
        [.aggregate false ⟨[1, 1, 1, 1, 1, 1], [2, 2, 2, 2, 2, 2], [7]⟩,
          .aggregate true ⟨[1, 1, 1, 1, 1, 1], [2, 2, 2, 2, 2, 2], [8]⟩, .forward true,
          .aggregate false ⟨[1, 1, 1, 1, 1, 1], [2, 2, 2, 2, 2, 2], [9]⟩, .forward false] df :=
  forwarder_no_loss (L := 65507) plainSecretbox_correct rfl rfl false (fun _ _ _ h => h) (by decide)
    (fun _ _ _ => rfl) (fun _ => le_rfl) (by decide) (by norm_num)

end Connection

end WeaveNet.Router
