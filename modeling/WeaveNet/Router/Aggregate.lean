import Mathlib
import WeaveNet.Router.Channel

/-!
# The aggregator of a sleeve forwarder

The model of `aggregateAndSend` of `router/sleeve.go`, over the `Encryptor` interface. The
forwarder's goroutine takes a frame from an aggregator channel and hands it here with the frames
that are ready in the channel after it. The loop appends frames to the encryptor while fewer than
100 were appended in this call and the next one `fits` within the forwarder's `maxPayload`; a
frame that does not fit makes it flush (`flushEncryptor`: `Bytes`, then the send and
`processSendError`, given as `send`), after which that frame starts the next packet if it fits
within the call's `limit` alone, and is dropped otherwise.

Against it stands a plain sender, `flushBatches`, which appends and flushes given batches one after
another. For an encryptor that keeps its laws (`Encryptor.Lawful`: its total length is a fixed
overhead and the records' lengths, a frame that fits its buffer is appended, `Bytes` empties it),
the aggregator sends exactly what `flushBatches` sends for some cut of the frames it took into
batches (`aggregateAndSend_spec`): it takes at most 100 frames, in order, and leaves the rest in the
channel; every batch fits the bound on `maxPayload` and starts with a frame that fits `limit`; and
at most one taken frame is not sent, the last, which either did not fit `limit` alone or followed
a send that failed. Both encryptors keep the laws (`NonEncryptor.lawful`, `NaClEncryptor.lawful`).
-/

namespace WeaveNet.Router

open Lib

/-- The `Encryptor` interface, over the state `E` of an encryptor: `FrameOverhead()`,
`TotalLen()`, `AppendFrame` and `Bytes()`, each `none` where Go panics. -/
structure Encryptor (E : Type) where
  frameOverhead : Nat
  totalLen : E → Nat
  appendFrame : E → List UInt8 → List UInt8 → List UInt8 → Option E
  bytes : E → Option (List UInt8 × E)

/-- A `NonEncryptor` as an `Encryptor`. -/
def NonEncryptor.encryptor : Encryptor NonEncryptor :=
  ⟨frameOverhead, NonEncryptor.totalLen, NonEncryptor.appendFrame, NonEncryptor.bytes⟩

/-- A `NaClEncryptor` as an `Encryptor`, sealing with `sb`; `FrameOverhead` is the embedded
`NonEncryptor`'s. -/
def NaClEncryptor.encryptor (sb : Secretbox) : Encryptor NaClEncryptor :=
  ⟨frameOverhead, NaClEncryptor.totalLen, NaClEncryptor.appendFrame, NaClEncryptor.bytes sb⟩

/-- What flushes of the encryptor did: the messages handed to the sender, in order, the error
returned, and the forwarder and the encryptor after. -/
structure Flushed (σ E ε : Type) where
  sent : List (List UInt8)
  err : Option ε
  fwd : σ
  enc : E

/-- What `aggregateAndSend` did: its flushes, and the frames it left in the channel. -/
structure Aggregated (σ E ε : Type) extends Flushed σ E ε where
  rest : List Frame

namespace Encryptor

variable {E σ ε : Type} (enc : Encryptor E)

/-- `AppendFrame` of each frame in turn. -/
def appendFrames (e : E) (fs : List Frame) : Option E :=
  fs.foldlM (fun e f => enc.appendFrame e f.src f.dst f.frame) e

/-- `fits(frame, enc, limit)`: the frame's record after what the encryptor holds stays within
`limit`. -/
def fits (frame : Frame) (e : E) (limit : Int) : Bool :=
  decide (((enc.totalLen e + enc.frameOverhead + frame.frame.length : Nat) : Int) ≤ limit)

section Sender

/- `maxPayload` reads `fwd.maxPayload`; `send` is `sender.send(msg, fwd.remoteAddr)` followed by
`fwd.processSendError` of its result: the forwarder after, and the error returned. -/
variable (maxPayload : σ → Int) (send : σ → List UInt8 → σ × Option ε)

/-- `fwd.flushEncryptor(enc, sender)`: the message of `enc.Bytes()` handed to the sender. -/
def flushEncryptor (s : σ) (e : E) : Option (Flushed σ E ε) := do
  let (msg, e) ← enc.bytes e
  let (s, err) := send s msg
  pure ⟨[msg], err, s, e⟩

/-- `fwd.sendSpecial(enc, sender, data)`: `AppendFrame` of a frame from `src` to `dst`, with no
`fits`, then `flushEncryptor`. -/
def sendSpecial (src dst data : List UInt8) (s : σ) (e : E) : Option (Flushed σ E ε) := do
  let e ← enc.appendFrame e src dst data
  enc.flushEncryptor send s e

/-- The loop of `aggregateAndSend` from `AppendFrame` of `frame`, with `i` frames appended before it
in this call and the frames `queue` ready in the channel. After a flush that a frame not fitting
`maxPayload` caused, the outer loop's `fits` of that frame against `limit` comes back here. -/
def aggregateFrom (limit : Int) :
    Nat → Frame → List Frame → σ → E → Option (Aggregated σ E ε)
  | i, frame, queue, s, e => do
    let e ← enc.appendFrame e frame.src frame.dst frame.frame
    match queue with
    | next :: rest =>
      -- `select` takes a frame from the channel only while fewer than 100 were appended
      if i + 1 < 100 then
        if enc.fits next e (maxPayload s) then aggregateFrom limit (i + 1) next rest s e
        else do
          let r ← enc.flushEncryptor send s e
          match r.err with
          | some _ => pure ⟨r, rest⟩
          | none =>
            if enc.fits next r.enc limit then
              (aggregateFrom limit (i + 1) next rest r.fwd r.enc).map fun a =>
                { a with sent := r.sent ++ a.sent }
            -- "Dropping too big frame during forwarding"
            else pure ⟨r, rest⟩
      else (enc.flushEncryptor send s e).map fun r => ⟨r, next :: rest⟩
    | [] => (enc.flushEncryptor send s e).map fun r => ⟨r, []⟩

/-- `fwd.aggregateAndSend(frame, aggChan, enc, sender, limit)`, with the frames `queue` ready in
`aggChan` after `frame`. -/
def aggregateAndSend (limit : Int) (frame : Frame) (queue : List Frame) (s : σ) (e : E) :
    Option (Aggregated σ E ε) :=
  if enc.fits frame e limit then enc.aggregateFrom maxPayload send limit 0 frame queue s e
  else some ⟨⟨[], none, s, e⟩, queue⟩

/-- The plain sender: the batches `bs` sent one after another, each by `AppendFrame` of its frames
and `flushEncryptor`; the first error ends it. -/
def flushBatches : σ → E → List (List Frame) → Option (Flushed σ E ε)
  | s, e, [] => some ⟨[], none, s, e⟩
  | s, e, b :: bs => do
    let e ← enc.appendFrames e b
    let r ← enc.flushEncryptor send s e
    match r.err with
    | some _ => pure r
    | none => (flushBatches r.fwd r.enc bs).map fun r' => { r' with sent := r.sent ++ r'.sent }

end Sender

/-! ## The laws of an encryptor -/

/-- The length the records of `fs` add to an encryptor, as `fits` counts them. -/
def recordsLen (fs : List Frame) : Nat := (fs.map fun f => enc.frameOverhead + f.frame.length).sum

@[simp] theorem recordsLen_nil : enc.recordsLen [] = 0 := rfl

@[simp] theorem recordsLen_cons (f : Frame) (fs : List Frame) :
    enc.recordsLen (f :: fs) = enc.frameOverhead + f.frame.length + enc.recordsLen fs := by
  simp [recordsLen]

@[simp] theorem recordsLen_append (fs gs : List Frame) :
    enc.recordsLen (fs ++ gs) = enc.recordsLen fs + enc.recordsLen gs := by
  simp [recordsLen]

/-- The laws of an encryptor whose states `Holds` the frames appended since the last `Bytes`: its
total length is the overhead `base` and the lengths of the records; a well-formed frame whose
record fits within `cap` is appended; `Bytes` returns a message and empties it. -/
structure Lawful (Holds : E → List Frame → Prop) (base cap : Nat) : Prop where
  totalLen_eq : ∀ {e fs}, Holds e fs → (∀ f ∈ fs, f.WellFormed) →
    enc.totalLen e = base + enc.recordsLen fs
  appendFrame : ∀ {e fs} {f : Frame}, Holds e fs → f.WellFormed →
    enc.totalLen e + enc.frameOverhead + f.frame.length ≤ cap →
    ∃ e', enc.appendFrame e f.src f.dst f.frame = some e' ∧ Holds e' (fs ++ [f])
  bytes : ∀ {e fs}, Holds e fs → ∃ msg e', enc.bytes e = some (msg, e') ∧ Holds e' []

/-- The message of `Bytes` is as long as the encryptor's total length: what `fits` counts is what
goes on the wire. -/
def SizedBytes (Holds : E → List Frame → Prop) : Prop :=
  ∀ {e fs msg e'}, Holds e fs → enc.bytes e = some (msg, e') → msg.length = enc.totalLen e

/-- A batch that the aggregator sends under the limit `limit` and a bound `M` on `maxPayload`: it
is not empty, its first frame fits `limit` alone, and all of it fits `M`. -/
def BatchFits (base : Nat) (limit : Int) (M : Nat) : List Frame → Prop
  | [] => False
  | f :: fs => ((base + enc.frameOverhead + f.frame.length : Nat) : Int) ≤ limit ∧
      base + enc.recordsLen (f :: fs) ≤ M

/-- The frames the aggregator took and did not send: none, or one, which either did not fit
`limit` alone or came after a send that failed with `err`. -/
def Dropped (base : Nat) (limit : Int) (err : Option ε) : List Frame → Prop
  | [] => True
  | [f] => err.isSome ∨ limit < ((base + enc.frameOverhead + f.frame.length : Nat) : Int)
  | _ :: _ :: _ => False

/-- With no failed send, a frame that fits `limit` alone is not dropped. -/
theorem Dropped.eq_nil {base : Nat} {limit : Int} {dropped : List Frame}
    (hd : enc.Dropped base limit (none : Option ε) dropped)
    (hfit : ∀ f ∈ dropped, ((base + enc.frameOverhead + f.frame.length : Nat) : Int) ≤ limit) :
    dropped = [] := by
  match dropped, hd with
  | [], _ => rfl
  | [f], hd =>
    rcases hd with hd | hd
    · cases hd
    · exact absurd (hfit f List.mem_cons_self) (not_le.2 hd)

/-! ## The plain sender -/

section Plain

variable {enc} {maxPayload : σ → Int} {send : σ → List UInt8 → σ × Option ε} {s : σ} {e e' : E}

theorem appendFrames_cons {f : Frame} (h : enc.appendFrame e f.src f.dst f.frame = some e')
    (fs : List Frame) : enc.appendFrames e (f :: fs) = enc.appendFrames e' fs := by
  rw [appendFrames, List.foldlM_cons, h]
  rfl

/-- A batch that starts with an appended frame is sent as the rest of it from there. -/
theorem flushBatches_cons_cons {f : Frame} (h : enc.appendFrame e f.src f.dst f.frame = some e')
    (b : List Frame) (bs : List (List Frame)) :
    enc.flushBatches send s e ((f :: b) :: bs) = enc.flushBatches send s e' (b :: bs) := by
  simp only [flushBatches, appendFrames_cons h]

/-- A batch whose flush fails ends the plain sender with that flush. -/
theorem flushBatches_cons_of_err {b : List Frame} {r : Flushed σ E ε}
    (ha : enc.appendFrames e b = some e') (hr : enc.flushEncryptor send s e' = some r)
    (herr : r.err.isSome) (bs : List (List Frame)) : enc.flushBatches send s e (b :: bs) = some r := by
  obtain ⟨err, herr⟩ := Option.isSome_iff_exists.1 herr
  simp only [flushBatches, ha, hr, Option.bind_eq_bind, Option.bind_some, herr]
  rfl

/-- A batch whose flush succeeds is followed by the rest, from the forwarder and the encryptor
after it. -/
theorem flushBatches_cons_of_ok {b : List Frame} {r : Flushed σ E ε}
    (ha : enc.appendFrames e b = some e') (hr : enc.flushEncryptor send s e' = some r)
    (herr : r.err = none) (bs : List (List Frame)) :
    enc.flushBatches send s e (b :: bs) =
      (enc.flushBatches send r.fwd r.enc bs).map fun r' => { r' with sent := r.sent ++ r'.sent } := by
  simp only [flushBatches, ha, hr, Option.bind_eq_bind, Option.bind_some, herr]

/-- One batch is sent by its flush. -/
theorem flushBatches_singleton {b : List Frame} {r : Flushed σ E ε}
    (ha : enc.appendFrames e b = some e') (hr : enc.flushEncryptor send s e' = some r) :
    enc.flushBatches send s e [b] = some r := by
  cases herr : r.err with
  | some err => exact flushBatches_cons_of_err ha hr (by rw [herr]; rfl) []
  | none =>
    rw [flushBatches_cons_of_ok ha hr herr, flushBatches, Option.map_some]
    obtain ⟨sent, err, fwd, enc⟩ := r
    simp only at herr
    simp only [List.append_nil, herr]

/-- What the sends keep of the forwarder, the plain sender keeps. Induction on the batches. -/
theorem flushBatches_fwd (P : σ → Prop) (hP : ∀ s msg, P s → P (send s msg).1) :
    ∀ {bs : List (List Frame)} {s : σ} {e : E} {r : Flushed σ E ε}, P s →
      enc.flushBatches send s e bs = some r → P r.fwd
  | [], s, e, r, hs, hr => by
    simp only [flushBatches, Option.some.injEq] at hr
    rw [← hr]
    exact hs
  | b :: bs, s, e, r, hs, hr => by
    simp only [flushBatches, Option.bind_eq_bind, Option.bind_eq_some_iff] at hr
    obtain ⟨e₁, -, r₁, hr₁, hr⟩ := hr
    simp only [flushEncryptor, Option.bind_eq_bind, Option.bind_eq_some_iff, Option.pure_def,
      Option.some.injEq] at hr₁
    obtain ⟨⟨msg, e₂⟩, -, rfl⟩ := hr₁
    -- the flush moved the forwarder by one send; the rest of the batches go on from there
    have hs₁ := hP s msg hs
    cases herr : (send s msg).2 with
    | some err =>
      simp only [herr, Option.pure_def, Option.some.injEq] at hr
      rw [← hr]
      exact hs₁
    | none =>
      simp only [herr, Option.map_eq_some_iff] at hr
      obtain ⟨r', hr', rfl⟩ := hr
      exact flushBatches_fwd P hP (r := r') hs₁ hr'

/-- With sends that never fail, the plain sender returns no error. -/
theorem flushBatches_err (hsend : ∀ s msg, (send s msg).2 = none) :
    ∀ {bs : List (List Frame)} {s : σ} {e : E} {r : Flushed σ E ε},
      enc.flushBatches send s e bs = some r → r.err = none
  | [], s, e, r, hr => by
    simp only [flushBatches, Option.some.injEq] at hr
    rw [← hr]
  | b :: bs, s, e, r, hr => by
    simp only [flushBatches, Option.bind_eq_bind, Option.bind_eq_some_iff] at hr
    obtain ⟨e₁, -, r₁, hr₁, hr⟩ := hr
    simp only [flushEncryptor, Option.bind_eq_bind, Option.bind_eq_some_iff, Option.pure_def,
      Option.some.injEq] at hr₁
    obtain ⟨⟨msg, e₂⟩, -, rfl⟩ := hr₁
    simp only [hsend, Option.map_eq_some_iff] at hr
    obtain ⟨r', hr', rfl⟩ := hr
    exact flushBatches_err hsend (r := r') hr'

/-- A special frame is sent as a batch of its own. -/
theorem sendSpecial_eq (src dst data : List UInt8) (s : σ) (e : E) :
    enc.sendSpecial send src dst data s e = enc.flushBatches send s e [[⟨src, dst, data⟩]] := by
  cases ha : enc.appendFrame e src dst data with
  | none =>
    have ha' : enc.appendFrames e [⟨src, dst, data⟩] = none := by
      simp only [appendFrames, List.foldlM_cons, ha]
      rfl
    simp only [sendSpecial, ha, flushBatches, ha']
    rfl
  | some e' =>
    have ha' : enc.appendFrames e [⟨src, dst, data⟩] = some e' := by
      rw [appendFrames_cons (f := ⟨src, dst, data⟩) ha]
      rfl
    cases hr : enc.flushEncryptor send s e' with
    | none => simp only [sendSpecial, ha, flushBatches, ha', hr, Option.bind_eq_bind, Option.bind_some, Option.bind_none]
    | some r =>
      rw [flushBatches_singleton ha' hr]
      simp only [sendSpecial, ha, hr, Option.bind_eq_bind, Option.bind_some]

end Plain

/-! ## Lawful encryptors -/

section Lawful

variable {enc} {Holds : E → List Frame → Prop} {base cap : Nat} (hl : enc.Lawful Holds base cap)
include hl

variable {e : E} {fs : List Frame}

/-- `fits` of a frame is whether the total length with its record stays within the limit. -/
theorem Lawful.fits_iff (h : Holds e fs) (hwf : ∀ f ∈ fs, f.WellFormed) (f : Frame) (limit : Int) :
    enc.fits f e limit = true ↔ ((base + enc.recordsLen (fs ++ [f]) : Nat) : Int) ≤ limit := by
  simp only [fits, decide_eq_true_eq, hl.totalLen_eq h hwf, recordsLen_append, recordsLen_cons,
    recordsLen_nil]
  constructor <;> intro h <;> push_cast at h ⊢ <;> omega

/-- A well-formed frame whose record fits within `cap` after the records the encryptor holds is
appended. -/
theorem Lawful.append (h : Holds e fs) (hwf : ∀ f ∈ fs, f.WellFormed) {f : Frame}
    (hf : f.WellFormed) (hcap : base + enc.recordsLen (fs ++ [f]) ≤ cap) :
    ∃ e', enc.appendFrame e f.src f.dst f.frame = some e' ∧ Holds e' (fs ++ [f]) := by
  refine hl.appendFrame h hf ?_
  rw [hl.totalLen_eq h hwf]
  simp only [recordsLen_append, recordsLen_cons, recordsLen_nil] at hcap
  omega

/-- A flush hands the encryptor's message to the sender and empties it. -/
theorem Lawful.flush (send : σ → List UInt8 → σ × Option ε) (h : Holds e fs) (s : σ) :
    ∃ msg e', enc.bytes e = some (msg, e') ∧
      enc.flushEncryptor send s e = some ⟨[msg], (send s msg).2, (send s msg).1, e'⟩ ∧
      Holds e' [] := by
  obtain ⟨msg, e', hb, h'⟩ := hl.bytes h
  exact ⟨msg, e', hb, by simp [flushEncryptor, hb], h'⟩

/-- `AppendFrame` of well-formed frames whose records fit within `cap`. Induction on the frames. -/
theorem Lawful.appendFrames : ∀ {b : List Frame} {e : E} {fs : List Frame}, Holds e fs →
    (∀ f ∈ fs, f.WellFormed) → (∀ f ∈ b, f.WellFormed) → base + enc.recordsLen (fs ++ b) ≤ cap →
    ∃ e', enc.appendFrames e b = some e' ∧ Holds e' (fs ++ b)
  | [], e, fs, h, _, _, _ => ⟨e, rfl, by simpa using h⟩
  | f :: b, e, fs, h, hwf, hb, hcap => by
    obtain ⟨e₁, happ, h₁⟩ := hl.append h hwf (hb f List.mem_cons_self)
      (by simp only [recordsLen_append, recordsLen_cons, recordsLen_nil] at hcap ⊢; omega)
    have hwf₁ : ∀ g ∈ fs ++ [f], g.WellFormed := by
      simpa [or_imp, forall_and] using ⟨hwf, hb f List.mem_cons_self⟩
    obtain ⟨e', happ', h'⟩ := Lawful.appendFrames h₁ hwf₁ (fun g hg => hb g (List.mem_cons_of_mem _ hg))
      (by simpa using hcap)
    exact ⟨e', by rw [appendFrames_cons happ]; exact happ', by simpa using h'⟩

/-- **The plain sender sends nothing longer than its batches.** From an empty encryptor whose
message is as long as it counts, batches of well-formed frames that each fit `M` within the room
are sent in messages of at most `M` bytes. Induction on the batches. -/
theorem flushBatches_length_le (hsized : enc.SizedBytes Holds) {M : Nat} (hM : M ≤ cap)
    {send : σ → List UInt8 → σ × Option ε} :
    ∀ {bs : List (List Frame)} {s : σ} {e : E} {r : Flushed σ E ε}, Holds e [] →
      (∀ b ∈ bs, (∀ f ∈ b, f.WellFormed) ∧ base + enc.recordsLen b ≤ M) →
      enc.flushBatches send s e bs = some r → ∀ msg ∈ r.sent, msg.length ≤ M
  | [], s, e, r, _, _, hr => by
    simp only [flushBatches, Option.some.injEq] at hr
    subst hr
    simp
  | b :: bs, s, e, r, he, hbs, hr => by
    obtain ⟨hwf, hfit⟩ := hbs b List.mem_cons_self
    obtain ⟨e₁, happ, h₁⟩ := hl.appendFrames he (by simp) hwf (by simpa using hfit.trans hM)
    rw [List.nil_append] at h₁
    obtain ⟨msg, e₂, hb, hflush, h₂⟩ := hl.flush send h₁ s
    -- the message is as long as the records of the batch after the overhead
    have hlen : msg.length ≤ M := by
      rw [hsized h₁ hb, hl.totalLen_eq h₁ hwf]
      exact hfit
    cases herr : (send s msg).2 with
    | some err =>
      rw [flushBatches_cons_of_err happ hflush (by rw [herr]; rfl), Option.some.injEq] at hr
      subst hr
      simpa using hlen
    | none =>
      rw [flushBatches_cons_of_ok happ hflush herr, Option.map_eq_some_iff] at hr
      obtain ⟨r', hr', rfl⟩ := hr
      intro m hm
      rcases List.mem_append.1 hm with hm | hm
      · rw [List.mem_singleton.1 hm]
        exact hlen
      · exact flushBatches_length_le hsized hM h₂ (fun b' hb' => hbs b' (List.mem_cons_of_mem _ hb'))
          hr' m hm

end Lawful

/-! ## The loop, one way through it at a time -/

section Loop

variable {enc} {maxPayload : σ → Int} {send : σ → List UInt8 → σ × Option ε} {limit : Int}
  {i : Nat} {frame next : Frame} {rest : List Frame} {s : σ} {e e₁ : E} {r : Flushed σ E ε}
  (happ : enc.appendFrame e frame.src frame.dst frame.frame = some e₁)
include happ

/-- With no frame ready in the channel, the loop flushes and returns. -/
theorem aggregateFrom_nil :
    enc.aggregateFrom maxPayload send limit i frame [] s e =
      (enc.flushEncryptor send s e₁).map fun r => ⟨r, []⟩ := by
  rw [aggregateFrom, happ]
  rfl

/-- After 100 frames the loop takes no more from the channel: it flushes and returns. -/
theorem aggregateFrom_of_full (hi : ¬i + 1 < 100) :
    enc.aggregateFrom maxPayload send limit i frame (next :: rest) s e =
      (enc.flushEncryptor send s e₁).map fun r => ⟨r, next :: rest⟩ := by
  rw [aggregateFrom, happ]
  simp only [Option.bind_eq_bind, Option.bind_some, hi, if_false]

/-- A frame taken from the channel that fits `maxPayload` goes into the same packet. -/
theorem aggregateFrom_of_fits (hi : i + 1 < 100) (hf : enc.fits next e₁ (maxPayload s) = true) :
    enc.aggregateFrom maxPayload send limit i frame (next :: rest) s e =
      enc.aggregateFrom maxPayload send limit (i + 1) next rest s e₁ := by
  rw [aggregateFrom, happ]
  simp only [Option.bind_eq_bind, Option.bind_some, hi, hf, if_true]

/-- A frame taken from the channel that does not fit `maxPayload` makes the loop flush; when the
send fails, or the frame does not fit `limit` alone, the loop returns and the frame is gone. -/
theorem aggregateFrom_of_stop (hi : i + 1 < 100) (hf : enc.fits next e₁ (maxPayload s) = false)
    (hr : enc.flushEncryptor send s e₁ = some r)
    (hstop : r.err.isSome ∨ enc.fits next r.enc limit = false) :
    enc.aggregateFrom maxPayload send limit i frame (next :: rest) s e = some ⟨r, rest⟩ := by
  rw [aggregateFrom, happ]
  simp only [Option.bind_eq_bind, Option.bind_some, hi, hf, if_true, hr]
  rcases hstop with herr | hl
  · obtain ⟨err, herr⟩ := Option.isSome_iff_exists.1 herr
    simp only [herr, Bool.false_eq_true, if_false]
    rfl
  · cases herr : r.err with
    | some err => rfl
    | none => simp only [hl, Bool.false_eq_true, if_false]; rfl

/-- After that flush succeeds, a frame that fits `limit` alone starts the next packet. -/
theorem aggregateFrom_of_next (hi : i + 1 < 100) (hf : enc.fits next e₁ (maxPayload s) = false)
    (hr : enc.flushEncryptor send s e₁ = some r) (herr : r.err = none)
    (hl : enc.fits next r.enc limit = true) :
    enc.aggregateFrom maxPayload send limit i frame (next :: rest) s e =
      (enc.aggregateFrom maxPayload send limit (i + 1) next rest r.fwd r.enc).map fun a =>
        { a with sent := r.sent ++ a.sent } := by
  rw [aggregateFrom, happ]
  simp only [Option.bind_eq_bind, Option.bind_some, hi, hf, if_true, hr, herr, hl,
    Bool.false_eq_true, if_false]

end Loop

/-! ## What a call sends -/

section Run

variable {enc} {Holds : E → List Frame → Prop} {base cap M : Nat} {limit : Int}
  {maxPayload : σ → Int} {send : σ → List UInt8 → σ × Option ε}
  (hl : enc.Lawful Holds base cap) (hM : M ≤ cap) (hlimit : limit ≤ M)
  (hsend : ∀ s msg, maxPayload s ≤ M → maxPayload (send s msg).1 ≤ M)
include hl hM hlimit hsend

/-- **The loop of the aggregator.** From an encryptor that holds the well-formed records `cur` of
the packet being filled, before `AppendFrame` of `frame`, whose record fits `M` after them: the loop
sends what `flushBatches` sends for the batch `frame :: b` and the batches `bs` after it, where
`b`, `bs` and at most one dropped frame are the frames it takes from the channel, within the 100
of the call. Induction on the frames ready in the channel, one case for each way through the
loop. -/
theorem aggregateFrom_spec : ∀ (queue : List Frame) (i : Nat) (frame : Frame) (cur : List Frame)
    (s : σ) (e : E), Holds e cur → (∀ f ∈ cur, f.WellFormed) → (∀ f ∈ frame :: queue, f.WellFormed) →
    maxPayload s ≤ M → i < 100 → base + enc.recordsLen (cur ++ [frame]) ≤ M →
    ∃ b bs dropped r, enc.aggregateFrom maxPayload send limit i frame queue s e = some r ∧
      enc.flushBatches send s e ((frame :: b) :: bs) = some r.toFlushed ∧
      queue = b ++ bs.flatten ++ dropped ++ r.rest ∧
      i + 1 + (b ++ bs.flatten ++ dropped).length ≤ 100 ∧
      base + enc.recordsLen (cur ++ frame :: b) ≤ M ∧ (∀ b' ∈ bs, enc.BatchFits base limit M b') ∧
      enc.Dropped base limit r.err dropped ∧ Holds r.enc []
  | queue, i, frame, cur, s, e, h, hcur, hwf, hs, hi, hfit => by
    have hwf₁ : ∀ f ∈ cur ++ [frame], f.WellFormed := by
      intro f hf
      rcases List.mem_append.1 hf with hf | hf
      · exact hcur f hf
      · rw [List.mem_singleton.1 hf]
        exact hwf frame List.mem_cons_self
    obtain ⟨e₁, happ, h₁⟩ := hl.append h hcur (hwf frame List.mem_cons_self) (hfit.trans hM)
    -- the flush of the packet that ends with `frame`, wherever it happens
    obtain ⟨msg, e₂, -, hflush, h₂⟩ := hl.flush send h₁ s
    have hone : enc.flushBatches send s e [[frame]] =
        some ⟨[msg], (send s msg).2, (send s msg).1, e₂⟩ :=
      flushBatches_singleton (by rw [appendFrames_cons happ]; rfl) hflush
    match queue with
    | [] =>
      refine ⟨[], [], [], ⟨⟨[msg], (send s msg).2, (send s msg).1, e₂⟩, []⟩,
        by rw [aggregateFrom_nil happ, hflush]; rfl, hone, rfl, by simp; omega, hfit, by simp,
        trivial, h₂⟩
    | next :: rest =>
      have hwfn : ∀ f ∈ next :: rest, f.WellFormed := fun f hf => hwf f (List.mem_cons_of_mem _ hf)
      by_cases hlt : i + 1 < 100
      · cases hnext : enc.fits next e₁ (maxPayload s) with
        | true =>
          -- `next` goes into the packet being filled
          have hfit' : base + enc.recordsLen ((cur ++ [frame]) ++ [next]) ≤ M := by
            have := (hl.fits_iff h₁ hwf₁ next _).1 hnext
            omega
          obtain ⟨b, bs, dropped, r, hrun, hsent, hpart, hcount, hsize, hbs, hdrop, hr⟩ :=
            aggregateFrom_spec rest (i + 1) next (cur ++ [frame]) s e₁ h₁ hwf₁ hwfn hs hlt hfit'
          refine ⟨next :: b, bs, dropped, r, by rw [aggregateFrom_of_fits happ hlt hnext]; exact hrun,
            by rw [flushBatches_cons_cons happ]; exact hsent, by rw [hpart]; simp, ?_,
            by simpa using hsize, hbs, hdrop, hr⟩
          simp only [List.length_append, List.length_cons] at hcount ⊢
          omega
        | false =>
          cases herr : (send s msg).2 with
          | some err =>
            -- the send failed: `next` was taken from the channel and is lost
            refine ⟨[], [], [next], ⟨⟨[msg], some err, (send s msg).1, e₂⟩, rest⟩, ?_,
              herr ▸ hone, rfl, by simp; omega, hfit, by simp, .inl rfl, h₂⟩
            exact aggregateFrom_of_stop happ hlt hnext (herr ▸ hflush) (.inl rfl)
          | none =>
            cases hnl : enc.fits next e₂ limit with
            | false =>
              -- "Dropping too big frame during forwarding"
              have hbig := (hl.fits_iff h₂ (by simp) next limit).not.1 (by simp [hnl])
              refine ⟨[], [], [next], ⟨⟨[msg], none, (send s msg).1, e₂⟩, rest⟩, ?_,
                herr ▸ hone, rfl, by simp; omega, hfit, by simp, .inr ?_, h₂⟩
              · exact aggregateFrom_of_stop happ hlt hnext (herr ▸ hflush) (.inr hnl)
              · simp only [List.nil_append, recordsLen_cons, recordsLen_nil] at hbig
                push_cast at hbig ⊢
                omega
            | true =>
              -- `next` starts the next packet, after a flush that moved the forwarder on
              have hfirst := (hl.fits_iff h₂ (by simp) next limit).1 hnl
              simp only [List.nil_append, recordsLen_cons, recordsLen_nil] at hfirst
              have hfit₂ : base + enc.recordsLen ([] ++ [next]) ≤ M := by
                simp only [List.nil_append, recordsLen_cons, recordsLen_nil]
                omega
              obtain ⟨b, bs, dropped, r, hrun, hsent, hpart, hcount, hsize, hbs, hdrop, hr⟩ :=
                aggregateFrom_spec rest (i + 1) next [] (send s msg).1 e₂ h₂ (by simp) hwfn
                  (hsend s msg hs) hlt hfit₂
              refine ⟨[], (next :: b) :: bs, dropped, { r with sent := [msg] ++ r.sent }, ?_, ?_,
                by rw [hpart]; simp, ?_, hfit, ?_, hdrop, hr⟩
              · rw [aggregateFrom_of_next happ hlt hnext (herr ▸ hflush) rfl hnl, hrun]
                rfl
              · rw [flushBatches_cons_of_ok (by rw [appendFrames_cons happ]; rfl) (herr ▸ hflush) rfl,
                  hsent]
                rfl
              · simp only [List.length_append, List.length_cons, List.length_nil, List.flatten_cons]
                  at hcount ⊢
                omega
              · rintro b' (_ | ⟨_, hb'⟩)
                · exact ⟨by push_cast at hfirst ⊢; omega, by simpa using hsize⟩
                · exact hbs b' hb'
      · -- the call took 100 frames: it flushes and leaves `next` in the channel
        refine ⟨[], [], [], ⟨⟨[msg], (send s msg).2, (send s msg).1, e₂⟩, next :: rest⟩,
          by rw [aggregateFrom_of_full happ hlt, hflush]; rfl, hone, by simp, by simp; omega, hfit,
          by simp, trivial, h₂⟩

/-- **What one call of the aggregator sends.** From an empty encryptor that keeps its laws, with
a bound `M` on `maxPayload` that the sends keep, no higher than what the buffer holds and no lower
than the call's `limit`, and well-formed frames: `aggregateAndSend` does not panic, and sends
exactly what the plain sender `flushBatches` sends for batches `bs` that the frames it took make,
in order, with at most one frame `dropped` after them; it takes at most 100 frames and leaves the
rest in the channel. Each batch starts with a frame that fits `limit` alone and fits `M` as a
whole; the dropped frame did not fit `limit` alone, or came after a send that failed; the
encryptor is left empty. -/
theorem aggregateAndSend_spec {frame : Frame} {queue : List Frame} {s : σ} {e : E}
    (he : Holds e []) (hs : maxPayload s ≤ M) (hwf : ∀ f ∈ frame :: queue, f.WellFormed) :
    ∃ bs dropped r, enc.aggregateAndSend maxPayload send limit frame queue s e = some r ∧
      enc.flushBatches send s e bs = some r.toFlushed ∧
      frame :: queue = bs.flatten ++ dropped ++ r.rest ∧ (bs.flatten ++ dropped).length ≤ 100 ∧
      (∀ b ∈ bs, enc.BatchFits base limit M b) ∧ enc.Dropped base limit r.err dropped ∧
      Holds r.enc [] := by
  by_cases hf : enc.fits frame e limit
  · -- the first frame fits: the loop runs from it
    have hfirst := (hl.fits_iff he (by simp) frame limit).1 hf
    simp only [List.nil_append, recordsLen_cons, recordsLen_nil] at hfirst
    obtain ⟨b, bs, dropped, r, hrun, hsent, hpart, hcount, hsize, hbs, hdrop, hr⟩ :=
      aggregateFrom_spec hl hM hlimit hsend queue 0 frame [] s e he (by simp) hwf hs (by decide)
        (by simp only [List.nil_append, recordsLen_cons, recordsLen_nil]; omega)
    refine ⟨(frame :: b) :: bs, dropped, r, by rw [aggregateAndSend, if_pos hf]; exact hrun, hsent,
      by rw [hpart]; simp, ?_, ?_, hdrop, hr⟩
    · simp only [List.length_append, List.length_cons, List.flatten_cons] at hcount ⊢
      omega
    · rintro b' (_ | ⟨_, hb'⟩)
      · exact ⟨by push_cast at hfirst ⊢; omega, by simpa using hsize⟩
      · exact hbs b' hb'
  · -- "Dropping too big frame during forwarding", before anything was appended
    have hbig := (hl.fits_iff he (by simp) frame limit).not.1 hf
    simp only [List.nil_append, recordsLen_cons, recordsLen_nil] at hbig
    refine ⟨[], [frame], ⟨⟨[], none, s, e⟩, queue⟩, by rw [aggregateAndSend, if_neg hf], rfl, rfl,
      by simp, by simp, .inr ?_, he⟩
    push_cast at hbig ⊢
    omega

/-- From an empty encryptor whose message is as long as it counts, what one call of the aggregator
sends is at most `M` bytes a message: each batch fits `M`. -/
theorem aggregateAndSend_length_le (hsized : enc.SizedBytes Holds) {frame : Frame}
    {queue : List Frame} {s : σ} {e : E} (he : Holds e []) (hs : maxPayload s ≤ M)
    (hwf : ∀ f ∈ frame :: queue, f.WellFormed) :
    ∃ r, enc.aggregateAndSend maxPayload send limit frame queue s e = some r ∧
      ∀ msg ∈ r.sent, msg.length ≤ M := by
  obtain ⟨bs, dropped, r, hagg, hsent, hpart, -, hbs, -, -⟩ :=
    aggregateAndSend_spec hl hM hlimit hsend he hs hwf
  refine ⟨r, hagg, flushBatches_length_le hl hsized hM he (fun b hb => ⟨fun f hf => ?_, ?_⟩) hsent⟩
  · -- the frames of the batches are among those taken
    refine hwf f ?_
    rw [hpart]
    exact List.mem_append_left _ (List.mem_append_left _ (List.mem_flatten_of_mem hb hf))
  · match b, hbs b hb with
    | _ :: _, ⟨_, hfit⟩ => exact hfit

end Run

end Encryptor

/-! ## The two encryptors keep the laws -/

/-- The records of well-formed frames are as long as `fits` counts them. -/
theorem length_encodeFrames {fs : List Frame} (hwf : ∀ f ∈ fs, f.WellFormed) :
    (encodeFrames fs).length = NonEncryptor.encryptor.recordsLen fs := by
  induction fs with
  | nil => rfl
  | cons f fs ih =>
    rw [encodeFrames_cons, List.length_append, length_encode (hwf f List.mem_cons_self),
      ih fun g hg => hwf g (List.mem_cons_of_mem _ hg), Encryptor.recordsLen_cons]
    simp only [NonEncryptor.encryptor, frameOverhead]
    omega

/-- Frames whose records fit in the buffer after `len` pass `fits` one after another. -/
theorem fitEach_of_le : ∀ {len : Nat} {fs : List Frame},
    len + NonEncryptor.encryptor.recordsLen fs ≤ MaxUDPPacketSize → FitEach len fs
  | _, [], _ => trivial
  | len, f :: fs, h => by
    simp only [Encryptor.recordsLen_cons, NonEncryptor.encryptor] at h
    refine ⟨by omega, fitEach_of_le ?_⟩
    simp only [NonEncryptor.encryptor]
    omega

/-- A `NonEncryptor` with the prefix `pfx` keeps the laws, with the prefix as its overhead and
the packet buffer as its room. -/
theorem NonEncryptor.lawful (pfx : List UInt8) :
    NonEncryptor.encryptor.Lawful (fun ne fs => ne.Holds pfx fs) pfx.length MaxUDPPacketSize :=
  ⟨fun h hwf => by
      show NonEncryptor.totalLen _ = _
      rw [NonEncryptor.totalLen, h.buffered_eq, length_encodeFrames hwf],
    fun h hf hcap => h.appendFrame hf hcap,
    fun h => by
      obtain ⟨ne', hb, h'⟩ := h.bytes
      exact ⟨_, ne', hb, h'⟩⟩

namespace NaClEncryptor

variable {ne : NaClEncryptor} {pfx : List UInt8} {outbound : Bool} {fs : List Frame}

/-- The total length of a `NaClEncryptor` is its packet overhead and what its `NonEncryptor`
holds. -/
theorem Holds.totalLen_eq (h : ne.Holds pfx outbound fs) :
    ne.totalLen = pfx.length + 8 + secretboxOverhead + ne.nonEncryptor.totalLen := by
  rw [totalLen, packetOverhead, h.prefixLen_eq, h.nonEncryptor.prefixLen_eq, List.length_nil,
    Nat.add_zero]

/-- `AppendFrame` of one frame is `AppendFrame` of the list of it. -/
theorem appendFrames_singleton (f : Frame) :
    ne.appendFrames [f] = ne.appendFrame f.src f.dst f.frame := by
  simp only [appendFrames, List.foldlM_cons, List.foldlM_nil, bind_pure]

/-- A `NaClEncryptor` with the prefix `pfx` keeps the laws, with the prefix, the sequence number
and the box's overhead as its overhead. -/
theorem lawful (sb : Secretbox) (pfx : List UInt8) (outbound : Bool) :
    (NaClEncryptor.encryptor sb).Lawful (fun ne fs => ne.Holds pfx outbound fs)
      (pfx.length + 8 + secretboxOverhead) (pfx.length + 8 + secretboxOverhead + MaxUDPPacketSize) :=
  ⟨fun h hwf => by
      show NaClEncryptor.totalLen _ = _
      rw [h.totalLen_eq, NonEncryptor.totalLen, h.nonEncryptor.buffered_eq, List.length_nil,
        Nat.zero_add, length_encodeFrames hwf]
      rfl,
    fun {ne} {fs} {f} h hf hcap => by
      have hcap' : ne.nonEncryptor.totalLen + frameOverhead + f.frame.length ≤ MaxUDPPacketSize := by
        have : NaClEncryptor.totalLen ne + frameOverhead + f.frame.length ≤
            pfx.length + 8 + secretboxOverhead + MaxUDPPacketSize := hcap
        rw [h.totalLen_eq] at this
        omega
      obtain ⟨ne', happ, h', -⟩ := h.appendFrames (show ∀ g ∈ [f], g.WellFormed by simpa using hf) ⟨hcap', trivial⟩
      exact ⟨ne', (appendFrames_singleton f).symm.trans happ, h'⟩,
    fun h => by
      obtain ⟨ne', hb, h', -⟩ := h.bytes sb
      exact ⟨_, ne', hb, h'⟩⟩

/-- With a box that adds its overhead, the packet of a `NaClEncryptor` is as long as its
`TotalLen`: the prefix, the sequence number, the box's overhead and the records. -/
theorem sizedBytes {sb : Secretbox} (hsized : sb.Sized) (pfx : List UInt8) (outbound : Bool) :
    (NaClEncryptor.encryptor sb).SizedBytes (fun ne fs => ne.Holds pfx outbound fs) := by
  intro ne fs msg ne' h hb
  obtain ⟨ne'', hb', -⟩ := h.bytes sb
  obtain ⟨rfl, -⟩ := Prod.mk.inj (Option.some.inj (hb'.symm.trans hb))
  show List.length _ = NaClEncryptor.totalLen ne
  rw [h.totalLen_eq, NonEncryptor.totalLen, h.nonEncryptor.buffered_eq]
  simp only [List.length_append, length_putUint64, List.length_nil]
  rw [hsized]
  omega

/-- **No packet of the aggregator is longer than the path allows.** Through a `NaClEncryptor` with
a box that adds its overhead, every packet one call of `aggregateAndSend` sends is at most `M`
bytes, for any bound `M` on `fwd.maxPayload` that the sends keep, no lower than the call's `limit`
and within the buffer: on the `aggChan` path at most `MaxUDPPacketSize - UDPOverhead` bytes, and on
the `aggDFChan` path, while the path's payload stays as it was, at most `fwd.maxPayload`. -/
theorem aggregateAndSend_packet_le {sb : Secretbox} (hsized : sb.Sized) {M : Nat} {limit : Int}
    {σ ε : Type} {maxPayload : σ → Int} {send : σ → List UInt8 → σ × Option ε}
    (hM : M ≤ pfx.length + 8 + secretboxOverhead + MaxUDPPacketSize) (hlimit : limit ≤ M)
    (hsend : ∀ s msg, maxPayload s ≤ M → maxPayload (send s msg).1 ≤ M)
    {frame : Frame} {queue : List Frame} {s : σ} (he : ne.Holds pfx outbound [])
    (hs : maxPayload s ≤ M) (hwf : ∀ f ∈ frame :: queue, f.WellFormed) :
    ∃ r, (NaClEncryptor.encryptor sb).aggregateAndSend maxPayload send limit frame queue s ne = some r ∧
      ∀ msg ∈ r.sent, msg.length ≤ M :=
  Encryptor.aggregateAndSend_length_le (lawful sb pfx outbound) hM hlimit hsend
    (sizedBytes hsized pfx outbound) he hs hwf

/-- Three frames of ten bytes on the DF path of a payload of 60 bytes, with a new encryptor:
each goes in a packet of its own. -/
theorem aggregateAndSend_packet_le_df :
    ∃ r, (NaClEncryptor.encryptor tagSecretbox).aggregateAndSend (fun (_ : Unit) => (60 : Int))
        (fun s _ => (s, (none : Option Unit))) 60
        ⟨List.replicate 6 1, List.replicate 6 2, List.replicate 10 0⟩
        [⟨List.replicate 6 1, List.replicate 6 2, List.replicate 10 0⟩,
          ⟨List.replicate 6 1, List.replicate 6 2, List.replicate 10 0⟩] ()
        (NaClEncryptor.new [] [] false true) = some r ∧
      ∀ msg ∈ r.sent, msg.length ≤ 60 :=
  aggregateAndSend_packet_le tagSecretbox_sized (by norm_num [MaxUDPPacketSize, secretboxOverhead])
    le_rfl (fun _ _ h => h) (holds_new (by decide) [] false true) le_rfl (by decide)

end NaClEncryptor

end WeaveNet.Router
