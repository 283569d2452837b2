import Mathlib
import WeaveNet.Lib.Search

/-!
# Truncating a DNS reply

`handler.makeResponse` (`src/nameserver/dns.go`) answers a request with a list of records. When the
reply is too big (`responseTooBig`: more than one answer, a size limit set, and the packed reply
longer than `getMaxResponseSize`), it keeps the answers before the first one whose prefix is too
big, found by `sort.Search` (`Lib.search`), and sets `Truncated`.

The packed length of a reply, `dns.Msg.Len()`, is a parameter (`msgLen`, the length of the reply
to the request with the given answers); where it grows with the answers kept, the reply keeps
the longest prefix of the answers that fits, and `Truncated` says whether answers were dropped
(`makeResponse_spec`). The reply's other fields (`SetReply`'s id, question and opcode) are not
modelled: nothing here reads them.
-/

namespace WeaveNet.Nameserver

open Lib

/-- The `handler` fields `makeResponse` reads: `maxResponseSize`, `minUDPSize` for UDP and `-1`
for TCP, where no limit applies. -/
structure Handler where
  maxResponseSize : Int
  deriving DecidableEq, Repr

/-- What `makeResponse` reads of a request: the UDP size of its EDNS0 `OPT` record, if any. -/
structure Request where
  edns0UDPSize : Option Nat
  deriving DecidableEq, Repr

/-- The fields of a `dns.Msg` reply that `makeResponse` sets. -/
structure Response (RR : Type) where
  Answer : List RR
  Truncated : Bool
  RecursionAvailable : Bool
  Authoritative : Bool
  deriving DecidableEq, Repr

namespace Handler

variable {RR : Type} (h : Handler) (req : Request) (msgLen : List RR → Int)

/-- `getMaxResponseSize`: the request's EDNS0 UDP size, or the handler's limit. -/
def getMaxResponseSize : Int :=
  match req.edns0UDPSize with
  | some udpSize => udpSize
  | none => h.maxResponseSize

/-- `responseTooBig`: more than one answer, a limit set, and the packed reply over the size. -/
def responseTooBig (response : Response RR) : Bool :=
  decide (1 < response.Answer.length) && decide (0 < h.maxResponseSize) &&
    decide (h.getMaxResponseSize req < msgLen response.Answer)

/-- `makeResponse`: all the answers, or, when that is too big, those before the first index `i`
whose prefix `answers[:i+1]` is too big. -/
def makeResponse (answers : List RR) : Response RR :=
  let response : Response RR :=
    { Answer := answers, Truncated := false, RecursionAvailable := true, Authoritative := true }
  if !h.responseTooBig req msgLen response then response
  else
    let maxSize := h.getMaxResponseSize req
    let i := search answers.length fun i => decide (maxSize < msgLen (answers.take (i + 1)))
    { response with Answer := answers.take i, Truncated := decide (i < answers.length) }

/-- Three answers of 10 bytes after a 12-byte header, under a limit of 40: two fit. -/
example : (makeResponse ⟨40⟩ ⟨none⟩ (fun l => 12 + 10 * (l.length : Int)) [1, 2, 3]) =
    ⟨[1, 2], true, true, true⟩ := by decide

/-- The truncating search asks whether `answers[:i+1]` is too big; with a packed length that
grows with the answers kept, that is monotone in `i`. -/
theorem tooBig_monotone {answers : List RR}
    (hmono : ∀ k k', k ≤ k' → msgLen (answers.take k) ≤ msgLen (answers.take k')) :
    MonotoneBelow answers.length
      (fun i => decide (h.getMaxResponseSize req < msgLen (answers.take (i + 1)))) := by
  intro a b hab _ ha
  simp only [decide_eq_true_eq] at ha ⊢
  exact lt_of_lt_of_le ha (hmono _ _ (by omega))

theorem makeResponse_spec (answers : List RR)
    (hmono : ∀ k k', k ≤ k' → msgLen (answers.take k) ≤ msgLen (answers.take k')) :
    let r : Response RR := h.makeResponse req msgLen answers
    let Fits := fun k => msgLen (answers.take k) ≤ h.getMaxResponseSize req
    r.RecursionAvailable = true ∧ r.Authoritative = true ∧
      ∃ k ≤ answers.length, r.Answer = answers.take k ∧ (r.Truncated = true ↔ k < answers.length) ∧
        ((Fits answers.length ∨ answers.length ≤ 1 ∨ h.maxResponseSize ≤ 0) →
          k = answers.length) ∧
        (¬(Fits answers.length ∨ answers.length ≤ 1 ∨ h.maxResponseSize ≤ 0) →
          ∀ j, 1 ≤ j → j ≤ answers.length → (Fits j ↔ j ≤ k)) := by
  dsimp only
  by_cases hbig : h.responseTooBig req msgLen
      ⟨answers, false, true, true⟩ = true
  · -- too big: more than one answer, a limit, and the whole reply over it
    simp only [responseTooBig, Bool.and_eq_true, decide_eq_true_eq] at hbig
    obtain ⟨⟨hlen, hlim⟩, hover⟩ := hbig
    rw [List.take_length]
    have hspec := search_spec (tooBig_monotone h req msgLen hmono)
    set i := search answers.length
      (fun i => decide (h.getMaxResponseSize req < msgLen (answers.take (i + 1)))) with hi
    -- the last prefix, the whole reply, is too big, so the search stops inside the list
    have hlt : i < answers.length := by
      rcases Nat.lt_or_ge i answers.length with h' | h'
      · exact h'
      · have := hspec.2.1 (answers.length - 1) (by omega)
        dsimp only at this
        rw [Nat.sub_add_cancel (by omega), List.take_length] at this
        simp only [decide_eq_false_iff_not, not_lt] at this
        omega
    have hr : h.makeResponse req msgLen answers =
        ⟨answers.take i, decide (i < answers.length), true, true⟩ := by
      have hbig' : h.responseTooBig req msgLen ⟨answers, false, true, true⟩ = true := by
        simp only [responseTooBig, Bool.and_eq_true, decide_eq_true_eq]
        exact ⟨⟨hlen, hlim⟩, hover⟩
      simp only [makeResponse, hbig', Bool.not_true, Bool.false_eq_true, if_false]
      rfl
    rw [hr]
    refine ⟨rfl, rfl, i, le_of_lt hlt, rfl, by simp [hlt], fun hfit => ?_, fun _ j hj hjn => ?_⟩
    · omega
    · constructor
      · -- a prefix past `i` holds `answers[:i+1]`, which is too big
        intro hfit
        by_contra hji
        have htoo := hspec.2.2 hlt
        simp only [decide_eq_true_eq] at htoo
        have := hmono (i + 1) j (by omega)
        omega
      · -- a prefix up to `i` is one the search passed over
        intro hji
        have := hspec.2.1 (j - 1) (by omega)
        dsimp only at this
        rw [Nat.sub_add_cancel hj] at this
        simpa using this
  · -- not too big: the reply holds every answer
    have hr : h.makeResponse req msgLen answers = ⟨answers, false, true, true⟩ := by
      simp only [Bool.not_eq_true] at hbig
      simp [makeResponse, hbig]
    rw [hr]
    refine ⟨rfl, rfl, answers.length, le_rfl, List.take_length.symm, by simp, fun _ => rfl,
      fun hnot => absurd ?_ hnot⟩
    simp only [responseTooBig, Bool.and_eq_true, decide_eq_true_eq, not_and, not_lt] at hbig
    rw [List.take_length]
    by_cases h1 : answers.length ≤ 1
    · exact Or.inr (Or.inl h1)
    · by_cases h2 : h.maxResponseSize ≤ 0
      · exact Or.inr (Or.inr h2)
      · exact Or.inl (hbig ⟨by omega, by omega⟩)

theorem makeResponse_spec_three :
    let r : Response Nat :=
      (⟨40⟩ : Handler).makeResponse ⟨none⟩ (fun l : List Nat => 12 + 10 * (l.length : Int)) [1, 2, 3]
    let Fits := fun k => 12 + 10 * (([1, 2, 3].take k).length : Int) ≤
      (⟨40⟩ : Handler).getMaxResponseSize ⟨none⟩
    r.RecursionAvailable = true ∧ r.Authoritative = true ∧
      ∃ k ≤ [1, 2, 3].length, r.Answer = [1, 2, 3].take k ∧
        (r.Truncated = true ↔ k < [1, 2, 3].length) ∧
        ((Fits [1, 2, 3].length ∨ [1, 2, 3].length ≤ 1 ∨ (⟨40⟩ : Handler).maxResponseSize ≤ 0) →
          k = [1, 2, 3].length) ∧
        (¬(Fits [1, 2, 3].length ∨ [1, 2, 3].length ≤ 1 ∨ (⟨40⟩ : Handler).maxResponseSize ≤ 0) →
          ∀ j, 1 ≤ j → j ≤ [1, 2, 3].length → (Fits j ↔ j ≤ k)) :=
  makeResponse_spec ⟨40⟩ ⟨none⟩ (fun l : List Nat => 12 + 10 * (l.length : Int)) [1, 2, 3]
    (fun k k' hk => by
      simp only [List.length_take, List.length_cons, List.length_nil]
      omega)

end Handler

end WeaveNet.Nameserver
