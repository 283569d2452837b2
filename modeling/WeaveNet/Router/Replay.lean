import Mathlib
import WeaveNet.Lib.Scan
import WeaveNet.Lib.Window
import WeaveNet.Router.NaCl

/-!
# The replay window of the NaCl decryptor

What `NaClDecryptor.IterateFrames` hands over is specified by a replay filter over what the packets
carry (`decode`): a packet too short or that does not open is answered by its error; one that
opens is answered by the frames of its plaintext when its key, the DF flag and the sequence
number, is admitted after the keys accepted before it (`Lib.Admits`: new, and at most one window
below the highest window accepted with its flag), and by nothing otherwise (`replayFilter`).

A decryptor tracks the keys it accepted (`NaClDecryptor.Tracks`): each instance's window tracks
those of its flag (`Lib.WindowTracks`), and its nonce keeps its high bit. One sequence number at a
time the window keeps that and decides as the filter does (`NaClDecryptorInstance.Tracks.recordSeqNo`,
by the cases of `advanceState`), so one packet (`NaClDecryptor.Tracks.iterateFrames`) and a whole
run from a new decryptor (`run_new`) are answered as the filter answers. From the filter: no
packet with the key of an earlier one that opened is handed over (`run_drops_replay`), packets in
order are all handed over (`run_in_order`), and a packet that does not open changes no other
answer (`run_insert_unopened`).
-/

namespace WeaveNet.Router

open Lib

/-! ## The replay filter -/

/-- What a packet carries to a decryptor whose nonces have the high bit `high`: its DF flag, its
sequence number and its plaintext, or the error `IterateFrames` answers it with. -/
def decode (sb : Secretbox) (key : List UInt8) (high : Bool) (packet : List UInt8) :
    Except NaClDecodingError (Bool × Nat × List UInt8) :=
  if packet.length < 8 then .error (.tooShort packet.length)
  else
    let seqNoAndDF := uint64 (packet.take 8)
    match sb.openBox (packet.drop 8) (nonceFor high seqNoAndDF) key with
    | none => .error .decryptionFailed
    | some plaintext => .ok (2 ^ 63 ≤ seqNoAndDF, seqNoAndDF % 2 ^ 63, plaintext)

section Decode

variable {sb : Secretbox} {key packet : List UInt8} {high : Bool}

theorem decode_of_lt (h : packet.length < 8) :
    decode sb key high packet = .error (.tooShort packet.length) :=
  if_pos h

theorem decode_of_none (h : ¬packet.length < 8)
    (ho : sb.openBox (packet.drop 8) (nonceFor high (uint64 (packet.take 8))) key = none) :
    decode sb key high packet = .error .decryptionFailed := by
  rw [decode, if_neg h]
  simp only [ho]

theorem decode_of_some (h : ¬packet.length < 8) {m : List UInt8}
    (ho : sb.openBox (packet.drop 8) (nonceFor high (uint64 (packet.take 8))) key = some m) :
    decode sb key high packet =
      .ok (decide (2 ^ 63 ≤ uint64 (packet.take 8)), uint64 (packet.take 8) % 2 ^ 63, m) := by
  rw [decode, if_neg h]
  simp only [ho]

end Decode

/-- One packet through the replay filter, after the keys `acc` were accepted: the answer, and the
keys accepted after it. -/
def replayStep (acc : List (Bool × Nat)) :
    Except NaClDecodingError (Bool × Nat × List UInt8) →
      (List Frame × Option NaClDecodingError) × List (Bool × Nat)
  | .error e => (([], some e), acc)
  | .ok (df, seqNo, plaintext) =>
    if Admits WindowSize acc (df, seqNo) then (framesOf plaintext, (df, seqNo) :: acc)
    else (([], none), acc)

/-- **The replay filter**: the answers to a sequence of packets, after the keys `acc`. -/
def replayFilter (acc : List (Bool × Nat)) :
    List (Except NaClDecodingError (Bool × Nat × List UInt8)) →
      List (List Frame × Option NaClDecodingError)
  | [] => []
  | p :: ps => (replayStep acc p).1 :: replayFilter (replayStep acc p).2 ps

/-- The keys accepted after a sequence of packets, from the keys `acc`. -/
def acceptedAfter (acc : List (Bool × Nat))
    (ps : List (Except NaClDecodingError (Bool × Nat × List UInt8))) : List (Bool × Nat) :=
  ps.foldl (fun acc p => (replayStep acc p).2) acc

section Filter

variable {acc : List (Bool × Nat)} {df : Bool} {seqNo : Nat} {plaintext : List UInt8}
  {ps : List (Except NaClDecodingError (Bool × Nat × List UInt8))}

@[simp] theorem length_replayFilter (acc : List (Bool × Nat)) :
    ∀ ps : List (Except NaClDecodingError (Bool × Nat × List UInt8)),
      (replayFilter acc ps).length = ps.length
  | [] => rfl
  | p :: ps => by rw [replayFilter, List.length_cons, length_replayFilter, List.length_cons]

/-- The filter answers a concatenation part by part, the second after what the first accepted. -/
theorem replayFilter_append (acc : List (Bool × Nat)) :
    ∀ ps qs : List (Except NaClDecodingError (Bool × Nat × List UInt8)),
      replayFilter acc (ps ++ qs) = replayFilter acc ps ++ replayFilter (acceptedAfter acc ps) qs
  | [], qs => rfl
  | p :: ps, qs => by
    rw [List.cons_append, replayFilter, replayFilter, replayFilter_append, List.cons_append]
    rfl

/-- The accepted keys only grow. -/
theorem subset_replayStep (acc : List (Bool × Nat))
    (p : Except NaClDecodingError (Bool × Nat × List UInt8)) : acc ⊆ (replayStep acc p).2 := by
  rcases p with e | ⟨df, seqNo, plaintext⟩
  · exact List.Subset.refl acc
  · simp only [replayStep]
    split_ifs
    · exact List.subset_cons_self _ _
    · exact List.Subset.refl acc

/-- A packet that opens leaves its key refused, whether it was accepted or not. -/
theorem not_admits_replayStep_ok :
    ¬Admits WindowSize (replayStep acc (.ok (df, seqNo, plaintext))).2 (df, seqNo) := by
  simp only [replayStep]
  split_ifs with ha
  · exact fun ha' => ha'.1 (List.mem_cons_self ..)
  · exact ha

/-- **A refused key stays refused**: every later packet with it is answered by nothing. Induction
on the packets, the refusal kept by `Admits.of_subset`. -/
theorem replayFilter_of_not_admits {j : Nat} (h : ¬Admits WindowSize acc (df, seqNo))
    (hj : ps[j]? = some (.ok (df, seqNo, plaintext))) :
    (replayFilter acc ps)[j]? = some ([], none) := by
  induction ps generalizing acc j with
  | nil => simp at hj
  | cons p ps ih =>
    cases j with
    | zero =>
      simp only [List.getElem?_cons_zero, Option.some.injEq] at hj
      subst hj
      simp only [replayFilter, replayStep, if_neg h, List.getElem?_cons_zero]
    | succ j =>
      rw [List.getElem?_cons_succ] at hj
      rw [replayFilter, List.getElem?_cons_succ]
      exact ih (fun ha => h (ha.of_subset (subset_replayStep acc p))) hj

/-- **No replay is handed over**: a packet whose flag and sequence number an earlier packet that
opened carried is answered by nothing. -/
theorem replayFilter_replay {i j : Nat} {m m' : List UInt8} (hij : i < j)
    (hi : ps[i]? = some (.ok (df, seqNo, m))) (hj : ps[j]? = some (.ok (df, seqNo, m'))) :
    (replayFilter acc ps)[j]? = some ([], none) := by
  induction ps generalizing acc i j with
  | nil => simp at hi
  | cons p ps ih =>
    obtain ⟨j, rfl⟩ : ∃ j', j = j' + 1 := ⟨j - 1, by omega⟩
    rw [List.getElem?_cons_succ] at hj
    rw [replayFilter, List.getElem?_cons_succ]
    cases i with
    | zero =>
      -- the earlier packet is this one: its key is refused from now on
      simp only [List.getElem?_cons_zero, Option.some.injEq] at hi
      subst hi
      exact replayFilter_of_not_admits not_admits_replayStep_ok hj
    | succ i =>
      rw [List.getElem?_cons_succ] at hi
      exact ih (by omega) hi hj

/-- **Packets in order are all handed over**: when every packet opens and the sequence numbers of
each flag increase along the sequence, above those accepted before, each packet is answered by
the frames of its plaintext. Induction on the packets, each admitted by `admits_of_lt`. -/
theorem replayFilter_increasing :
    ∀ {acc : List (Bool × Nat)} {carried : List (Bool × Nat × List UInt8)},
      (∀ key ∈ acc, ∀ c ∈ carried, key.1 = c.1 → key.2 < c.2.1) →
      carried.Pairwise (fun a b => a.1 = b.1 → a.2.1 < b.2.1) →
      replayFilter acc (carried.map .ok) = carried.map fun c => framesOf c.2.2
  | _, [], _, _ => rfl
  | acc, ⟨df, seqNo, plaintext⟩ :: carried, hacc, hinc => by
    obtain ⟨hhead, htail⟩ := List.pairwise_cons.1 hinc
    have ha : Admits WindowSize acc (df, seqNo) :=
      admits_of_lt fun t ht => hacc (df, t) ht _ (List.mem_cons_self ..) rfl
    rw [List.map_cons, replayFilter, replayStep, if_pos ha, List.map_cons]
    refine congrArg _ (replayFilter_increasing ?_ htail)
    -- the keys accepted now are below every later one of their flag
    rintro key (_ | ⟨_, hk⟩) c hc hkc
    · exact hhead c hc hkc
    · exact hacc key hk c (List.mem_cons_of_mem _ hc) hkc

end Filter

/-! ## The window of an instance -/

namespace NaClDecryptorInstance

/-- An instance tracks the keys `acc` accepted so far with the flag `df`: its nonce is one of high
bit `high`, its window tracks those keys (`Lib.WindowTracks`), and every accepted sequence number
is below `2 ^ 63`. -/
structure Tracks (di : NaClDecryptorInstance) (high df : Bool) (acc : List (Bool × Nat)) :
    Prop where
  length_nonce : di.nonce.length = 24
  take_nonce : di.nonce.take 16 = (newNonce high).take 16
  window : WindowTracks WindowSize df acc di.currentWindow di.usedOffsets di.previousUsedOffsets
  lt : ∀ key ∈ acc, key.2 < 2 ^ 63

variable {di : NaClDecryptorInstance} {high df d : Bool} {acc : List (Bool × Nat)} {s : Nat}

theorem tracks_new (outbound df : Bool) : (new outbound).Tracks (!outbound) df [] :=
  ⟨rfl, rfl, windowTracks_nil df, by simp⟩

section Tracks

variable (h : di.Tracks high df acc)
include h

/-- The current window is below `2 ^ 63`, as every accepted sequence number is. -/
theorem Tracks.currentWindow_lt : di.currentWindow < 2 ^ 63 := by
  have hle : di.currentWindow ≤ 2 ^ 63 - 1 := by
    rw [h.window.current_eq, maxWindow_le_iff]
    intro t ht
    have := h.lt _ ht
    have := Nat.shiftRight_le t WindowSize
    omega
  omega

/-- The nonce `decrypt` opens with. -/
theorem Tracks.putNonceSeqNo_eq (x : Nat) : putNonceSeqNo di.nonce x = nonceFor high x :=
  putNonceSeqNo_of h.length_nonce h.take_nonce x

/-- Writing the nonce keeps what the instance tracks. -/
theorem Tracks.withNonce (x : Nat) : { di with nonce := nonceFor high x }.Tracks high df acc :=
  ⟨length_nonceFor high x, take_nonceFor high x, h.window, h.lt⟩

/-- An instance whose nonce is kept and whose window tracks one more key tracks it. -/
theorem Tracks.cons {di' : NaClDecryptorInstance} (hs : s < 2 ^ 63) (hn : di'.nonce = di.nonce)
    (hw : WindowTracks WindowSize df ((d, s) :: acc) di'.currentWindow di'.usedOffsets
      di'.previousUsedOffsets) : di'.Tracks high df ((d, s) :: acc) := by
  refine ⟨hn ▸ h.length_nonce, hn ▸ h.take_nonce, hw, ?_⟩
  rintro key (_ | ⟨_, hk⟩)
  · exact hs
  · exact h.lt key hk

/-- A key accepted with the other flag changes nothing the instance tracks. -/
theorem Tracks.cons_of_ne (hs : s < 2 ^ 63) (hd : d ≠ df) : di.Tracks high df ((d, s) :: acc) :=
  h.cons hs rfl (h.window.cons_of_ne hd)

/-- **One sequence number through the window.** A packet that opened is kept exactly when its key
is admitted after the keys accepted before it, and the instance then tracks the keys with it. By
cases on its window against the current one, as `advanceState` splits them. -/
theorem Tracks.recordSeqNo (hs : s < 2 ^ 63) :
    ∃ di', di.recordSeqNo s = (decide (Admits WindowSize acc (df, s)), di') ∧
      di'.Tracks high df (if Admits WindowSize acc (df, s) then (df, s) :: acc else acc) := by
  have hc := h.currentWindow_lt
  have hw := h.window
  -- `omega` reads no shift by a named width, so the window gets a name
  obtain ⟨w, hw_eq⟩ : ∃ w, s >>> WindowSize = w := ⟨_, rfl⟩
  obtain h1 | h1 | h1 | h1 | h1 : w + 1 < di.currentWindow ∨ w + 1 = di.currentWindow ∨
      w = di.currentWindow ∨ w = di.currentWindow + 1 ∨ di.currentWindow + 1 < w := by
    omega
  · -- two windows or more below: the set is `nil`
    have hna := hw.not_admits_of_lt (hw_eq ▸ h1)
    refine ⟨di, ?_, by rw [if_neg hna]; exact h⟩
    rw [recordSeqNo_of_none (advanceState_of_lt hs hc (hw_eq ▸ h1)) rfl, decide_eq_false hna]
  · -- the window below: the previous set, which is there once the window has moved
    obtain ⟨set, hp⟩ := hw.previous_isSome (show 0 < di.currentWindow by omega)
    have hmem := (hw.mem_previous set hp).mem_iff
      (show s >>> WindowSize = di.currentWindow - 1 by omega)
    have hiff := hw.admits_iff (s := s) (show di.currentWindow ≤ s >>> WindowSize + 1 by omega)
    have hadv := advanceState_of_pred hs hc (hw_eq ▸ h1)
    by_cases hm : (df, s) ∈ acc
    · have hna : ¬Admits WindowSize acc (df, s) := fun ha => hiff.1 ha hm
      refine ⟨di, ?_, by rw [if_neg hna]; exact h⟩
      rw [recordSeqNo_of_mem hadv hp (hmem.2 hm), decide_eq_false hna]
    · have ha := hiff.2 hm
      refine ⟨{ di with previousUsedOffsets := some (set.insert (s % 2 ^ WindowSize)) }, ?_,
        by rw [if_pos ha]; exact h.cons hs rfl (hw.insertPrevious hp (hw_eq ▸ h1))⟩
      rw [recordSeqNo_of_not_mem hadv hp (mt hmem.1 hm), decide_eq_true ha]
      simp only [addOffset, hp, Option.map_some]
  · -- the current window: the current set
    have hmem := hw.mem_used.mem_iff (hw_eq ▸ h1)
    have hiff := hw.admits_iff (s := s) (show di.currentWindow ≤ s >>> WindowSize + 1 by omega)
    have hadv := advanceState_of_eq hs hc (hw_eq ▸ h1)
    by_cases hm : (df, s) ∈ acc
    · have hna : ¬Admits WindowSize acc (df, s) := fun ha => hiff.1 ha hm
      refine ⟨di, ?_, by rw [if_neg hna]; exact h⟩
      rw [recordSeqNo_of_mem hadv rfl (hmem.2 hm), decide_eq_false hna]
    · have ha := hiff.2 hm
      refine ⟨{ di with usedOffsets := di.usedOffsets.insert (s % 2 ^ WindowSize) }, ?_,
        by rw [if_pos ha]; exact h.cons hs rfl (hw.insertUsed (hw_eq ▸ h1))⟩
      rw [recordSeqNo_of_not_mem hadv rfl (mt hmem.1 hm), decide_eq_true ha]
      rfl
  · -- the window above: the window slides by one, and the new set is empty
    have ha := hw.admits_of_gt (s := s) (show di.currentWindow < s >>> WindowSize by omega)
    refine ⟨{ di with
        currentWindow := s >>> WindowSize
        previousUsedOffsets := some di.usedOffsets
        usedOffsets := ([] : List Nat).insert (s % 2 ^ WindowSize) }, ?_,
      by rw [if_pos ha]; exact h.cons hs rfl (hw.slide (hw_eq ▸ h1))⟩
    rw [recordSeqNo_of_not_mem (advanceState_of_succ hs hc (hw_eq ▸ h1)) rfl List.not_mem_nil,
      decide_eq_true ha]
    rfl
  · -- further above: both sets start again
    have ha := hw.admits_of_gt (s := s) (show di.currentWindow < s >>> WindowSize by omega)
    refine ⟨{ di with
        currentWindow := s >>> WindowSize
        previousUsedOffsets := some []
        usedOffsets := ([] : List Nat).insert (s % 2 ^ WindowSize) }, ?_,
      by rw [if_pos ha]; exact h.cons hs rfl (hw.reset (hw_eq ▸ h1))⟩
    rw [recordSeqNo_of_not_mem (advanceState_of_gt hs hc (hw_eq ▸ h1)) rfl List.not_mem_nil,
      decide_eq_true ha]
    rfl

end Tracks

end NaClDecryptorInstance

/-! ## The decryptor -/

namespace NaClDecryptor

variable {nd : NaClDecryptor} {df df' : Bool} {di : NaClDecryptorInstance}

/-- The decryptor tracks the keys `acc` accepted so far: its key is `key`, and each instance tracks
the keys of its flag, with nonces of high bit `high`. -/
structure Tracks (nd : NaClDecryptor) (key : List UInt8) (high : Bool) (acc : List (Bool × Nat)) :
    Prop where
  sessionKey_eq : nd.sessionKey = key
  get : ∀ df, (nd.get df).Tracks high df acc

theorem tracks_new (key : List UInt8) (outbound : Bool) :
    (new key outbound).Tracks key (!outbound) [] :=
  ⟨rfl, fun df => by cases df <;> exact NaClDecryptorInstance.tracks_new outbound _⟩

variable {key : List UInt8} {high : Bool} {acc : List (Bool × Nat)}

/-- Replacing one instance with one that tracks `acc'`, when the other already tracks it. -/
theorem Tracks.set {acc' : List (Bool × Nat)} (h : nd.Tracks key high acc)
    (hdi : di.Tracks high df acc') (hother : (nd.get !df).Tracks high (!df) acc') :
    (nd.set df di).Tracks key high acc' := by
  refine ⟨by rw [sessionKey_set, h.sessionKey_eq], fun df' => ?_⟩
  by_cases hd : df' = df
  · subst hd
    rw [get_set_self]
    exact hdi
  · rw [get_set_of_ne hd]
    rw [Bool.eq_not_of_ne hd]
    exact hother

variable {sb : Secretbox} {buf : List UInt8}

section Decrypt

variable (h : nd.Tracks key high acc)
include h

/-- **A packet that does not open** fails, and leaves the windows as they were: only the nonce of
its instance changed. -/
theorem Tracks.decrypt_none
    (ho : sb.openBox (buf.drop 8) (nonceFor high (uint64 (buf.take 8))) key = none) :
    ∃ nd', nd.decrypt sb buf = ((none, false), nd') ∧ nd'.Tracks key high acc := by
  have hn := fun d => (h.get d).putNonceSeqNo_eq (uint64 (buf.take 8))
  refine ⟨_, ?_, h.set ((h.get (decide (2 ^ 63 ≤ uint64 (buf.take 8)))).withNonce
    (uint64 (buf.take 8))) (h.get _)⟩
  simp only [decrypt, df_eq (uint64_take_lt buf), hn, h.sessionKey_eq, ho]

/-- **A packet that opens** is kept exactly when its key is admitted, and the decryptor then tracks
the keys with it. -/
theorem Tracks.decrypt_some {m : List UInt8}
    (ho : sb.openBox (buf.drop 8) (nonceFor high (uint64 (buf.take 8))) key = some m) :
    ∃ nd', nd.decrypt sb buf = ((if Admits WindowSize acc
        (decide (2 ^ 63 ≤ uint64 (buf.take 8)), uint64 (buf.take 8) % 2 ^ 63) then some m else none,
        true), nd') ∧
      nd'.Tracks key high (if Admits WindowSize acc
        (decide (2 ^ 63 ≤ uint64 (buf.take 8)), uint64 (buf.take 8) % 2 ^ 63)
        then (decide (2 ^ 63 ≤ uint64 (buf.take 8)), uint64 (buf.take 8) % 2 ^ 63) :: acc else acc) := by
  have hn := fun d => (h.get d).putNonceSeqNo_eq (uint64 (buf.take 8))
  have hs : uint64 (buf.take 8) % 2 ^ 63 < 2 ^ 63 := Nat.mod_lt _ (by norm_num)
  obtain ⟨di', hrec, hdi'⟩ := ((h.get (decide (2 ^ 63 ≤ uint64 (buf.take 8)))).withNonce
    (uint64 (buf.take 8))).recordSeqNo hs
  refine ⟨_, ?_, h.set hdi' ?_⟩
  · simp only [decrypt, df_eq (uint64_take_lt buf), hn, seqNo_eq, h.sessionKey_eq, ho, hrec,
      decide_eq_true_eq]
  · -- the other instance sees a key of the other flag, if any
    split_ifs
    · exact (h.get _).cons_of_ne hs (Bool.not_ne_self _).symm
    · exact h.get _

/-- **One packet**: `IterateFrames` answers it as the replay filter does, after the keys the
decryptor tracks, and the decryptor then tracks the keys the filter accepted. -/
theorem Tracks.iterateFrames (sb : Secretbox) (packet : List UInt8) :
    (nd.iterateFrames sb packet).1 = (replayStep acc (decode sb key high packet)).1 ∧
      (nd.iterateFrames sb packet).2.Tracks key high
        (replayStep acc (decode sb key high packet)).2 := by
  by_cases hlen : packet.length < 8
  · -- too short to carry a sequence number
    rw [iterateFrames_of_lt hlen, decode_of_lt hlen]
    exact ⟨rfl, h⟩
  cases ho : sb.openBox (packet.drop 8) (nonceFor high (uint64 (packet.take 8))) key with
  | none =>
    obtain ⟨nd', hd, h'⟩ := h.decrypt_none ho
    rw [iterateFrames_of_failed hlen hd, decode_of_none hlen ho]
    exact ⟨rfl, h'⟩
  | some m =>
    obtain ⟨nd', hd, h'⟩ := h.decrypt_some ho
    rw [iterateFrames_of_opened hlen hd, decode_of_some hlen ho, replayStep]
    -- kept, the plaintext's frames; dropped, a `nil` plaintext
    split_ifs at h' ⊢
    · exact ⟨rfl, h'⟩
    · exact ⟨framesOf_nil, h'⟩

end Decrypt

/-- **A run is the replay filter**: from a decryptor that tracks the keys `acc`, `IterateFrames`
answers each packet as the replay filter does. Induction on the packets, by
`Tracks.iterateFrames` at each. -/
theorem Tracks.run (h : nd.Tracks key high acc) (packets : List (List UInt8)) :
    nd.run sb packets = replayFilter acc (packets.map (decode sb key high)) := by
  induction packets generalizing nd acc with
  | nil => rfl
  | cons packet packets ih =>
    obtain ⟨h1, h2⟩ := h.iterateFrames sb packet
    rw [NaClDecryptor.run, List.map_cons, replayFilter, ← h1, ← ih h2]

end NaClDecryptor

/-- **The decryptor's replay window is the replay filter.** For any sequence of packets, what a new
`NaClDecryptor` hands to the consumer and the error it returns for each, over successive calls of
`IterateFrames`, is what the replay filter answers from no accepted key: a packet too short or that
does not open is answered by its error, and one that opens by the frames of its plaintext when its
DF flag and sequence number were not accepted before and its window is at most one below the highest
window accepted with its flag, and by nothing otherwise. -/
theorem run_new (sb : Secretbox) (key : List UInt8) (outbound : Bool)
    (packets : List (List UInt8)) :
    (NaClDecryptor.new key outbound).run sb packets =
      replayFilter [] (packets.map (decode sb key !outbound)) :=
  (NaClDecryptor.tracks_new key outbound).run packets

/-- **No replay is handed over.** In any sequence of packets, a packet that carries the DF flag and
the sequence number of an earlier packet that opened is answered by nothing: no frame and no
error, whether the earlier one was handed over or not. -/
theorem run_drops_replay (sb : Secretbox) (key : List UInt8) (outbound : Bool)
    {packets : List (List UInt8)} {i j : Nat} {p q : List UInt8} {df : Bool} {seqNo : Nat}
    {m m' : List UInt8} (hij : i < j) (hp : packets[i]? = some p) (hq : packets[j]? = some q)
    (hdp : decode sb key (!outbound) p = .ok (df, seqNo, m))
    (hdq : decode sb key (!outbound) q = .ok (df, seqNo, m')) :
    ((NaClDecryptor.new key outbound).run sb packets)[j]? = some ([], none) := by
  rw [(NaClDecryptor.tracks_new key outbound).run]
  exact replayFilter_replay hij (by rw [List.getElem?_map, hp, Option.map_some, hdp])
    (by rw [List.getElem?_map, hq, Option.map_some, hdq])

/-- A packet sent twice: the second copy is answered by nothing. -/
theorem run_drops_replay_resent :
    ((NaClDecryptor.new [] false).run plainSecretbox
      [List.replicate 8 0, List.replicate 8 0])[1]? = some ([], none) :=
  run_drops_replay plainSecretbox [] false (i := 0) (by decide) rfl rfl
    (show decode plainSecretbox [] (!false) (List.replicate 8 0) = .ok (false, 0, []) by
      decide +kernel)
    (show decode plainSecretbox [] (!false) (List.replicate 8 0) = .ok (false, 0, []) by
      decide +kernel)

/-- **Packets delivered in order are all handed over.** When every packet opens and the sequence
numbers of each DF flag increase along the sequence, as they do when the packets of an encryptor
arrive in the order it sent them, with any of them lost, each packet is answered by the frames of
its plaintext. -/
theorem run_in_order (sb : Secretbox) (key : List UInt8) (outbound : Bool)
    {packets : List (List UInt8)} {carried : List (Bool × Nat × List UInt8)}
    (hdec : packets.map (decode sb key !outbound) = carried.map .ok)
    (hinc : carried.Pairwise fun a b => a.1 = b.1 → a.2.1 < b.2.1) :
    (NaClDecryptor.new key outbound).run sb packets = carried.map fun c => framesOf c.2.2 := by
  rw [(NaClDecryptor.tracks_new key outbound).run, hdec]
  exact replayFilter_increasing (by simp) hinc

/-- Packets of both flags in order, some lost: all are handed over. -/
theorem run_in_order_two_flags :
    (NaClDecryptor.new [] false).run plainSecretbox
        [putUint64 0, putUint64 (2 ^ 63), putUint64 5, putUint64 (2 ^ 63 + 1)] =
      [(false, 0, []), (true, 0, []), (false, 5, []), (true, 1, [])].map
        fun c => framesOf c.2.2 :=
  run_in_order plainSecretbox [] false (by decide +kernel) (by decide)

/-- **A packet that does not open changes no other answer**: inserted anywhere in a sequence, it is
answered by its error, and every other packet as without it. This is why `decrypt` moves the
window only after `Open` succeeded: a forged packet cannot push the window past genuine ones. -/
theorem run_insert_unopened (sb : Secretbox) (key : List UInt8) (outbound : Bool)
    (xs ys : List (List UInt8)) {q : List UInt8} {e : NaClDecodingError}
    (hq : decode sb key (!outbound) q = .error e) :
    (NaClDecryptor.new key outbound).run sb (xs ++ q :: ys) =
      ((NaClDecryptor.new key outbound).run sb (xs ++ ys)).take xs.length ++
        ([], some e) :: ((NaClDecryptor.new key outbound).run sb (xs ++ ys)).drop xs.length := by
  have hlen : (replayFilter [] (xs.map (decode sb key !outbound))).length = xs.length := by
    rw [length_replayFilter, List.length_map]
  rw [(NaClDecryptor.tracks_new key outbound).run, (NaClDecryptor.tracks_new key outbound).run,
    List.map_append, List.map_append, List.map_cons, replayFilter_append,
    replayFilter_append, hq, ← hlen, List.take_left, List.drop_left]
  rfl

/-- A forged packet between two genuine ones: it is refused, and both genuine ones are handed
over. -/
theorem run_insert_unopened_forged :
    (NaClDecryptor.new [] false).run plainSecretbox ([putUint64 0] ++ [1, 2, 3] :: [putUint64 1]) =
      ((NaClDecryptor.new [] false).run plainSecretbox ([putUint64 0] ++ [putUint64 1])).take 1 ++
        ([], some (.tooShort 3)) ::
          ((NaClDecryptor.new [] false).run plainSecretbox ([putUint64 0] ++ [putUint64 1])).drop 1 :=
  run_insert_unopened plainSecretbox [] false [putUint64 0] [putUint64 1] (by decide +kernel)

end WeaveNet.Router
