import WeaveNet.Lib.Bytes
import WeaveNet.Lib.Loop

/-!
# The path-MTU search of a sleeve forwarder

The model of the MTU fields of `sleeveForwarder` (`router/sleeve.go`) and of the handlers that
move them. An `EMSGSIZE` reporting the underlay's path MTU `p` (`processSendError`) starts a
binary search for the overlay MTU: `mtuHighestGood` starts at `552`, `mtuLowestBad` just above
`p - overheadDF`, and the first candidate is `p - overheadDF` itself. Each candidate is tested
by a frame of its size (`sendMTUTest`), retried on a timeout with a doubled timer up to
`MTUVerifyAttempts` times (`handleMTUTestFailure`), and confirmed by the peer's
acknowledgement naming it (`handleMTUTestAck`). `searchMTU` halves the interval, or ends the
search at `mtuHighestGood`. Every test send succeeds here; the timer is modelled by whether a
timeout is pending.

Each handler has its branches as equations, which the proofs use in place of its body. Over every
order of events whose `EMSGSIZE`s leave an overlay MTU above `552`, a test is pending exactly while
`mtuCandidate != 0`, and the candidate then lies strictly between the bounds (`SearchInv.run`).
Every event that moves a running search on lowers its `rank`, so without a new `EMSGSIZE` it ends
(`rank_step_lt`); and a search started above `552` ends between `552` and the path's overlay MTU,
if no acknowledgement names `0` (`run_below`).

`mtuSearch_idle_ack_and_low_pmtu` is two runs the search gets wrong. A forwarder that has never
searched has candidate `0`, so an acknowledgement of `0` is taken as confirming it and sets the
MTU to `0`. And a path MTU whose overlay MTU is below `552` starts the search with its bounds the
wrong way round: when the tests time out, the search ends at `552`, above the path's MTU.
-/

namespace WeaveNet.Router

open Lib

/-- `UDPOverhead`: the IPv4 and UDP headers. -/
def UDPOverhead : Int := 28

/-- `DefaultMTU`. -/
def DefaultMTU : Int := 65535

/-- `MTUVerifyAttempts`. -/
def MTUVerifyAttempts : Nat := 8

/-- The fields of `sleeveForwarder` the MTU search reads and writes; `timerArmed` is whether a
timeout of `mtuTestTimeout` is pending. -/
structure MtuState where
  mtu : Int
  maxPayload : Int
  overheadDF : Int
  mtuHighestGood : Int
  mtuLowestBad : Int
  mtuCandidate : Int
  mtuTestsSent : Nat
  timerArmed : Bool
  deriving DecidableEq, Repr

namespace MtuState

/-- A new forwarder: `mtu` is `DefaultMTU` and no search has run. -/
def initial (overheadDF : Int) : MtuState :=
  ⟨DefaultMTU, DefaultMTU - UDPOverhead, overheadDF, 0, 0, 0, 0, false⟩

/-- `fwd.sendMTUTest()`, the send succeeding: arm the timer and count the test. -/
def sendMTUTest (fwd : MtuState) : MtuState :=
  { fwd with timerArmed := true, mtuTestsSent := fwd.mtuTestsSent + 1 }

/-- `fwd.searchMTU()`: end the search at `mtuHighestGood` when the interval is closed, and
otherwise test its midpoint. -/
def searchMTU (fwd : MtuState) : MtuState :=
  if fwd.mtuHighestGood + 1 ≥ fwd.mtuLowestBad then
    let mtu := fwd.mtuHighestGood
    { fwd with
      timerArmed := false, mtuCandidate := 0, maxPayload := mtu + fwd.overheadDF - UDPOverhead, mtu }
  else
    sendMTUTest { fwd with
      mtuCandidate := Int.tdiv (fwd.mtuHighestGood + fwd.mtuLowestBad) 2, mtuTestsSent := 0 }

/-- `fwd.processSendError(msgTooBigError{underlayPMTU})`: start a search, unless one is running
with a candidate the new path MTU admits. -/
def processSendError (underlayPMTU : Int) (fwd : MtuState) : MtuState :=
  let mtu := underlayPMTU - fwd.overheadDF
  if fwd.mtuCandidate ≠ 0 ∧ mtu ≥ fwd.mtuCandidate then fwd
  else
    sendMTUTest { fwd with
      mtuHighestGood := 552, mtuLowestBad := mtu + 1, mtuCandidate := mtu, mtuTestsSent := 0,
      maxPayload := underlayPMTU - UDPOverhead, mtu }

/-- `fwd.handleMTUTestAck(msg)`: an acknowledgement naming the candidate raises
`mtuHighestGood` to it; a truncated one, or one naming another size, is ignored. -/
def handleMTUTestAck (msg : List UInt8) (fwd : MtuState) : MtuState :=
  if msg.length < 2 then fwd
  else
    let mtu : Int := (uint16 msg).toNat
    if mtu ≠ fwd.mtuCandidate then fwd
    else searchMTU { fwd with mtuHighestGood := mtu }

/-- `fwd.handleMTUTestFailure()`: retry the candidate, or after `MTUVerifyAttempts` tests take it
as too big. -/
def handleMTUTestFailure (fwd : MtuState) : MtuState :=
  if fwd.mtuTestsSent < MTUVerifyAttempts then sendMTUTest fwd
  else searchMTU { fwd with mtuLowestBad := fwd.mtuCandidate }

end MtuState

/-- What reaches the MTU search: an `EMSGSIZE` with the underlay's path MTU, an acknowledgement
`ProtocolPMTUVerified` with its message, and a timeout of the test timer. -/
inductive MtuEvent where
  | msgTooBig (underlayPMTU : Int)
  | testAck (msg : List UInt8)
  | testTimeout
  deriving DecidableEq, Repr

/-- An event of a running search that a peer following the protocol sends: a timeout, or an
acknowledgement that does not name `0`, the candidate of a forwarder running no search. -/
def MtuEvent.Probe : MtuEvent → Prop
  | .msgTooBig _ => False
  | .testAck msg => ¬msg.length < 2 → ((uint16 msg).toNat : Int) ≠ 0
  | .testTimeout => True

namespace MtuState

/-- One event, handled by the forwarder's loop; a timeout happens only while one is pending. -/
def step (fwd : MtuState) : MtuEvent → Option MtuState
  | .msgTooBig p => some (fwd.processSendError p)
  | .testAck msg => some (fwd.handleMTUTestAck msg)
  | .testTimeout => if fwd.timerArmed then some ({ fwd with timerArmed := false }.handleMTUTestFailure) else none

/-- A run of events, `none` if one of them cannot happen. -/
def run (fwd : MtuState) (events : List MtuEvent) : Option MtuState :=
  events.foldlM step fwd

end MtuState

namespace MtuState

/-! ## What each handler does -/

section Handlers

variable {fwd : MtuState}

/-- The midpoint that `searchMTU` tests lies strictly inside an interval of nonnegative bounds with
room in it; Go's division truncates, which is the floor here. -/
theorem midpoint_mem {lo hi : Int} (h0 : 0 ≤ lo) (h : lo + 1 < hi) :
    lo < Int.tdiv (lo + hi) 2 ∧ Int.tdiv (lo + hi) 2 < hi := by
  rw [Int.tdiv_eq_ediv_of_nonneg (by omega)]
  omega

theorem searchMTU_of_closed (h : fwd.mtuLowestBad ≤ fwd.mtuHighestGood + 1) :
    fwd.searchMTU = { fwd with
      timerArmed := false, mtuCandidate := 0,
      maxPayload := fwd.mtuHighestGood + fwd.overheadDF - UDPOverhead, mtu := fwd.mtuHighestGood } := by
  rw [searchMTU, if_pos h]

theorem searchMTU_of_open (h : fwd.mtuHighestGood + 1 < fwd.mtuLowestBad) :
    fwd.searchMTU = { fwd with
      timerArmed := true, mtuTestsSent := 1,
      mtuCandidate := Int.tdiv (fwd.mtuHighestGood + fwd.mtuLowestBad) 2 } := by
  rw [searchMTU, if_neg (Int.not_le.2 h)]
  rfl

/-- An `EMSGSIZE` whose path MTU admits the running search's candidate changes nothing. -/
theorem processSendError_of_admits {p : Int}
    (h : fwd.mtuCandidate ≠ 0 ∧ p - fwd.overheadDF ≥ fwd.mtuCandidate) :
    fwd.processSendError p = fwd := by
  simp only [processSendError, if_pos h]

/-- Any other `EMSGSIZE` restarts the search from `552`, testing the path's overlay MTU first. -/
theorem processSendError_of_restarts {p : Int}
    (h : ¬(fwd.mtuCandidate ≠ 0 ∧ p - fwd.overheadDF ≥ fwd.mtuCandidate)) :
    fwd.processSendError p = { fwd with
      mtuHighestGood := 552, mtuLowestBad := p - fwd.overheadDF + 1,
      mtuCandidate := p - fwd.overheadDF, mtuTestsSent := 1, timerArmed := true,
      maxPayload := p - UDPOverhead, mtu := p - fwd.overheadDF } := by
  simp only [processSendError, if_neg h]
  rfl

/-- An acknowledgement that is truncated, or names another size than the candidate, changes
nothing. -/
theorem handleMTUTestAck_of_ne {msg : List UInt8}
    (h : msg.length < 2 ∨ ((uint16 msg).toNat : Int) ≠ fwd.mtuCandidate) :
    fwd.handleMTUTestAck msg = fwd := by
  rcases h with h | h
  · simp only [handleMTUTestAck, if_pos h]
  · simp only [handleMTUTestAck, if_pos h, ite_self]

/-- An acknowledgement of the candidate raises `mtuHighestGood` to it and searches on. -/
theorem handleMTUTestAck_of_eq {msg : List UInt8} (hl : ¬msg.length < 2)
    (h : ((uint16 msg).toNat : Int) = fwd.mtuCandidate) :
    fwd.handleMTUTestAck msg = { fwd with mtuHighestGood := fwd.mtuCandidate }.searchMTU := by
  simp only [handleMTUTestAck, if_neg hl, h, ne_eq, not_true_eq_false, if_false]

theorem handleMTUTestFailure_of_lt (h : fwd.mtuTestsSent < MTUVerifyAttempts) :
    fwd.handleMTUTestFailure = fwd.sendMTUTest := by
  rw [handleMTUTestFailure, if_pos h]

theorem handleMTUTestFailure_of_ge (h : ¬fwd.mtuTestsSent < MTUVerifyAttempts) :
    fwd.handleMTUTestFailure = { fwd with mtuLowestBad := fwd.mtuCandidate }.searchMTU := by
  rw [handleMTUTestFailure, if_neg h]

/-- No handler changes `overheadDF`, which the crypto of the connection fixes. -/
@[simp] theorem overheadDF_searchMTU : fwd.searchMTU.overheadDF = fwd.overheadDF := by
  by_cases h : fwd.mtuHighestGood + 1 < fwd.mtuLowestBad
  · rw [searchMTU_of_open h]
  · rw [searchMTU_of_closed (by omega)]

@[simp] theorem overheadDF_processSendError (p : Int) :
    (fwd.processSendError p).overheadDF = fwd.overheadDF := by
  by_cases h : fwd.mtuCandidate ≠ 0 ∧ p - fwd.overheadDF ≥ fwd.mtuCandidate
  · rw [processSendError_of_admits h]
  · rw [processSendError_of_restarts h]

@[simp] theorem overheadDF_handleMTUTestAck (msg : List UInt8) :
    (fwd.handleMTUTestAck msg).overheadDF = fwd.overheadDF := by
  by_cases h : msg.length < 2 ∨ ((uint16 msg).toNat : Int) ≠ fwd.mtuCandidate
  · rw [handleMTUTestAck_of_ne h]
  · rw [not_or, not_not] at h
    rw [handleMTUTestAck_of_eq h.1 h.2, overheadDF_searchMTU]

@[simp] theorem overheadDF_handleMTUTestFailure :
    fwd.handleMTUTestFailure.overheadDF = fwd.overheadDF := by
  by_cases h : fwd.mtuTestsSent < MTUVerifyAttempts
  · rw [handleMTUTestFailure_of_lt h]
    rfl
  · rw [handleMTUTestFailure_of_ge h, overheadDF_searchMTU]

/-- A timeout happens only while a test is pending; the timer is then spent. -/
theorem step_timeout {fwd' : MtuState} (h : fwd.step .testTimeout = some fwd') :
    fwd.timerArmed = true ∧ fwd' = { fwd with timerArmed := false }.handleMTUTestFailure := by
  simp only [step] at h
  split at h
  · next ha => exact ⟨ha, (Option.some.inj h).symm⟩
  · cases h

theorem overheadDF_step {e : MtuEvent} {fwd' : MtuState} (h : fwd.step e = some fwd') :
    fwd'.overheadDF = fwd.overheadDF := by
  cases e with
  | msgTooBig p => cases h; simp
  | testAck msg => cases h; simp
  | testTimeout =>
    obtain ⟨-, rfl⟩ := step_timeout h
    simp

theorem run_cons (e : MtuEvent) (events : List MtuEvent) :
    fwd.run (e :: events) = (fwd.step e).bind (·.run events) := rfl

end Handlers

/-! ## The search interval, over every order of events -/

/-- What the search keeps of its fields: `mtuHighestGood` is not negative, a test is pending
exactly while a search runs, and a running search tests a candidate strictly between
`mtuHighestGood` and `mtuLowestBad`. -/
structure SearchInv (fwd : MtuState) : Prop where
  highestGood_nonneg : 0 ≤ fwd.mtuHighestGood
  running : fwd.timerArmed = true →
    fwd.mtuHighestGood < fwd.mtuCandidate ∧ fwd.mtuCandidate < fwd.mtuLowestBad
  idle : fwd.timerArmed = false → fwd.mtuCandidate = 0

namespace SearchInv

variable {fwd fwd' : MtuState}

theorem initial (overheadDF : Int) : SearchInv (MtuState.initial overheadDF) :=
  ⟨Int.le_refl 0, nofun, fun _ => rfl⟩

/-- `searchMTU` needs no more than a nonnegative `mtuHighestGood`: it either ends the search or
tests a midpoint. -/
theorem searchMTU (h0 : 0 ≤ fwd.mtuHighestGood) : SearchInv fwd.searchMTU := by
  by_cases h : fwd.mtuHighestGood + 1 < fwd.mtuLowestBad
  · rw [searchMTU_of_open h]
    exact ⟨h0, fun _ => midpoint_mem h0 h, nofun⟩
  · rw [searchMTU_of_closed (by omega)]
    exact ⟨h0, nofun, fun _ => rfl⟩

/-- An `EMSGSIZE` keeps the invariant when its path MTU leaves an overlay MTU above `552`, the
bound the search restarts from. -/
theorem processSendError (hi : SearchInv fwd) {p : Int} (hp : 552 < p - fwd.overheadDF) :
    SearchInv (fwd.processSendError p) := by
  by_cases h : fwd.mtuCandidate ≠ 0 ∧ p - fwd.overheadDF ≥ fwd.mtuCandidate
  · rw [processSendError_of_admits h]
    exact hi
  · rw [processSendError_of_restarts h]
    exact ⟨(by decide : (0 : Int) ≤ 552), fun _ => ⟨hp, Int.lt_add_one_iff.2 (Int.le_refl _)⟩, nofun⟩

/-- Every acknowledgement keeps the invariant, even one received while no search runs: the size it
names is not negative. -/
theorem handleMTUTestAck (hi : SearchInv fwd) (msg : List UInt8) :
    SearchInv (fwd.handleMTUTestAck msg) := by
  by_cases h : msg.length < 2 ∨ ((uint16 msg).toNat : Int) ≠ fwd.mtuCandidate
  · rw [handleMTUTestAck_of_ne h]
    exact hi
  · rw [not_or, not_not] at h
    rw [handleMTUTestAck_of_eq h.1 h.2]
    exact searchMTU (h.2 ▸ Int.natCast_nonneg _)

/-- A timeout of a pending test retries the candidate, or takes it as too big. -/
theorem timeout (hi : SearchInv fwd) (ha : fwd.timerArmed = true) :
    SearchInv { fwd with timerArmed := false }.handleMTUTestFailure := by
  by_cases h : fwd.mtuTestsSent < MTUVerifyAttempts
  · rw [handleMTUTestFailure_of_lt (show { fwd with timerArmed := false }.mtuTestsSent < _ from h)]
    exact ⟨hi.highestGood_nonneg, fun _ => hi.running ha, nofun⟩
  · rw [handleMTUTestFailure_of_ge (show ¬{ fwd with timerArmed := false }.mtuTestsSent < _ from h)]
    exact searchMTU hi.highestGood_nonneg

theorem step {e : MtuEvent} (hi : SearchInv fwd)
    (he : ∀ p, e = .msgTooBig p → 552 < p - fwd.overheadDF) (h : fwd.step e = some fwd') :
    SearchInv fwd' := by
  cases e with
  | msgTooBig p =>
    cases h
    exact hi.processSendError (he p rfl)
  | testAck msg =>
    cases h
    exact hi.handleMTUTestAck msg
  | testTimeout =>
    obtain ⟨ha, rfl⟩ := step_timeout h
    exact hi.timeout ha

/-- **While a search runs, its candidate lies strictly between its bounds**, over every run whose
`EMSGSIZE`s all leave an overlay MTU above `552`, whatever the order of the events. -/
theorem run {events : List MtuEvent}
    (hr : ∀ p, .msgTooBig p ∈ events → 552 < p - fwd.overheadDF) (hi : SearchInv fwd)
    (h : fwd.run events = some fwd') : SearchInv fwd' := by
  -- the step needs the reports measured against the forwarder's own `overheadDF`, which no step changes
  have hrun := Lib.foldlM_some_induction (fun s => SearchInv s ∧ s.overheadDF = fwd.overheadDF)
    (fun e => ∀ p, e = .msgTooBig p → 552 < p - fwd.overheadDF)
    (fun _ _ _ he ⟨hs, ho⟩ hst => ⟨hs.step (ho ▸ he) hst, (overheadDF_step hst).trans ho⟩)
    (fun _ he p hp => by subst hp; exact hr p he) ⟨hi, rfl⟩ h
  exact hrun.1

end SearchInv

/-! ## The search ends -/

/-- What a running search has left to do: the width of its interval, each unit of it worth a full
round of tests, and the tests left for the current candidate. -/
def rank (fwd : MtuState) : Nat :=
  (fwd.mtuLowestBad - fwd.mtuHighestGood).toNat * (MTUVerifyAttempts + 1) +
    (MTUVerifyAttempts - fwd.mtuTestsSent)

section Rank

variable {fwd fwd' : MtuState}

/-- A search continued on a narrower interval has less left. -/
theorem rank_searchMTU_lt (hlt : fwd.mtuLowestBad - fwd.mtuHighestGood < w)
    (h : fwd.mtuHighestGood + 1 < fwd.mtuLowestBad) :
    fwd.searchMTU.rank < w.toNat * (MTUVerifyAttempts + 1) := by
  rw [searchMTU_of_open h, rank, MTUVerifyAttempts]
  simp only
  omega

/-- **Every event that changes a running search and leaves it running lowers its rank**, so a search
that no `EMSGSIZE` restarts ends after at most `rank` such events: at most `MTUVerifyAttempts`
timeouts per candidate, and a narrower interval at each new candidate. -/
theorem rank_step_lt {e : MtuEvent} (hi : SearchInv fwd) (ha : fwd.timerArmed = true)
    (he : ∀ p, e ≠ .msgTooBig p) (h : fwd.step e = some fwd') (hne : fwd' ≠ fwd)
    (ha' : fwd'.timerArmed = true) : fwd'.rank < fwd.rank := by
  have hr := hi.running ha
  have hw : (fwd.mtuLowestBad - fwd.mtuHighestGood).toNat * (MTUVerifyAttempts + 1) ≤ fwd.rank :=
    Nat.le_add_right _ _
  cases e with
  | msgTooBig p => exact absurd rfl (he p)
  | testAck msg =>
    cases h
    by_cases hc : msg.length < 2 ∨ ((uint16 msg).toNat : Int) ≠ fwd.mtuCandidate
    · exact absurd (handleMTUTestAck_of_ne hc) hne
    · -- the acknowledgement names the candidate, which becomes `mtuHighestGood`
      rw [not_or, not_not] at hc
      rw [handleMTUTestAck_of_eq hc.1 hc.2] at ha' ⊢
      by_cases ho : fwd.mtuCandidate + 1 < fwd.mtuLowestBad
      · exact Nat.lt_of_lt_of_le (rank_searchMTU_lt (by simp only; omega) ho) hw
      · rw [searchMTU_of_closed (by simp only; omega)] at ha'
        cases ha'
  | testTimeout =>
    obtain ⟨-, rfl⟩ := step_timeout h
    by_cases ht : fwd.mtuTestsSent < MTUVerifyAttempts
    · -- a retry of the candidate: one test fewer left
      rw [handleMTUTestFailure_of_lt (show { fwd with timerArmed := false }.mtuTestsSent < _ from ht)]
      simp only [rank, sendMTUTest, MTUVerifyAttempts] at ht ⊢
      omega
    · -- the candidate is taken as too big: a narrower interval
      rw [handleMTUTestFailure_of_ge (show ¬{ fwd with timerArmed := false }.mtuTestsSent < _ from ht)]
        at ha' ⊢
      by_cases ho : fwd.mtuHighestGood + 1 < fwd.mtuCandidate
      · exact Nat.lt_of_lt_of_le (rank_searchMTU_lt (by simp only; omega) ho) hw
      · rw [searchMTU_of_closed (by simp only; omega)] at ha'
        cases ha'

end Rank

/-! ## Where the search ends -/

/-- A search below `top` from `552`: while it runs, its candidate lies between its bounds and
`mtuLowestBad` is at most one above `top`; once it has ended, the MTU is `mtuHighestGood`, at most
`top`. -/
structure Below (top : Int) (fwd : MtuState) : Prop where
  highestGood_ge : 552 ≤ fwd.mtuHighestGood
  running : fwd.timerArmed = true → fwd.mtuHighestGood < fwd.mtuCandidate ∧
    fwd.mtuCandidate < fwd.mtuLowestBad ∧ fwd.mtuLowestBad ≤ top + 1
  found : fwd.timerArmed = false →
    fwd.mtuCandidate = 0 ∧ fwd.mtu = fwd.mtuHighestGood ∧ fwd.mtuHighestGood ≤ top

namespace Below

variable {top : Int} {fwd fwd' : MtuState}

/-- An `EMSGSIZE` that restarts the search starts it below the path's overlay MTU. -/
theorem restart {p : Int} (hp : 552 < p - fwd.overheadDF)
    (h : ¬(fwd.mtuCandidate ≠ 0 ∧ p - fwd.overheadDF ≥ fwd.mtuCandidate)) :
    Below (p - fwd.overheadDF) (fwd.processSendError p) := by
  rw [processSendError_of_restarts h]
  exact ⟨Int.le_refl _, fun _ => ⟨hp, Int.lt_add_one_iff.2 (Int.le_refl _), Int.le_refl _⟩, nofun⟩

theorem searchMTU (h552 : 552 ≤ fwd.mtuHighestGood) (hg : fwd.mtuHighestGood ≤ top)
    (hlb : fwd.mtuLowestBad ≤ top + 1) : Below top fwd.searchMTU := by
  by_cases h : fwd.mtuHighestGood + 1 < fwd.mtuLowestBad
  · rw [searchMTU_of_open h]
    have hm := midpoint_mem (by omega) h
    exact ⟨h552, fun _ => ⟨hm.1, hm.2, hlb⟩, nofun⟩
  · rw [searchMTU_of_closed (by omega)]
    exact ⟨h552, nofun, fun _ => ⟨rfl, rfl, hg⟩⟩

theorem step {e : MtuEvent} (hi : Below top fwd) (he : e.Probe) (h : fwd.step e = some fwd') :
    Below top fwd' := by
  cases e with
  | msgTooBig p => exact he.elim
  | testAck msg =>
    cases h
    by_cases hc : msg.length < 2 ∨ ((uint16 msg).toNat : Int) ≠ fwd.mtuCandidate
    · rw [handleMTUTestAck_of_ne hc]
      exact hi
    · rw [not_or, not_not] at hc
      -- the candidate it names is not `0`, so a search is running
      have ha : fwd.timerArmed = true := by
        cases ha : fwd.timerArmed with
        | false => exact absurd ((hi.found ha).1 ▸ hc.2) (he hc.1)
        | true => rfl
      have hr := hi.running ha
      have h552 := hi.highestGood_ge
      rw [handleMTUTestAck_of_eq hc.1 hc.2]
      exact searchMTU (by simp only; omega) (by simp only; omega) hr.2.2
  | testTimeout =>
    obtain ⟨ha, rfl⟩ := step_timeout h
    have hr := hi.running ha
    by_cases ht : fwd.mtuTestsSent < MTUVerifyAttempts
    · rw [handleMTUTestFailure_of_lt (show { fwd with timerArmed := false }.mtuTestsSent < _ from ht)]
      exact ⟨hi.highestGood_ge, fun _ => hr, nofun⟩
    · rw [handleMTUTestFailure_of_ge (show ¬{ fwd with timerArmed := false }.mtuTestsSent < _ from ht)]
      exact searchMTU hi.highestGood_ge (by simp only; omega) (by simp only; omega)

theorem run {events : List MtuEvent} (hev : ∀ e ∈ events, e.Probe) (hi : Below top fwd)
    (h : fwd.run events = some fwd') : Below top fwd' :=
  Lib.foldlM_some_induction (Below top) MtuEvent.Probe (fun _ _ _ he hs hst => hs.step he hst)
    hev hi h

end Below

/-- **A search whose bounds start in order ends within them.** After an `EMSGSIZE` that starts a
search for an overlay MTU `p - overheadDF` above `552`, and any run of timeouts and
acknowledgements not naming `0`, a search that has ended holds the MTU `mtuHighestGood`, between
`552` and `p - overheadDF`, and one still running tests a candidate between its bounds. -/
theorem run_below {fwd fwd' : MtuState} {p : Int} {events : List MtuEvent}
    (hp : 552 < p - fwd.overheadDF)
    (hstart : ¬(fwd.mtuCandidate ≠ 0 ∧ p - fwd.overheadDF ≥ fwd.mtuCandidate))
    (hev : ∀ e ∈ events, e.Probe) (h : fwd.run (.msgTooBig p :: events) = some fwd') :
    Below (p - fwd.overheadDF) fwd' := by
  rw [run_cons] at h
  exact Below.run hev (Below.restart hp hstart) h

end MtuState

open MtuState in
/-- **Two runs the search gets wrong**, on a forwarder whose `overheadDF` is `62` (no encryption,
a 6-byte peer name as the packet prefix): a new forwarder takes an acknowledgement of `0` as
confirming its candidate `0`, and sets its MTU to `0` though no search was running; and after
an `EMSGSIZE` with path MTU `576`, whose overlay MTU is `514`, the search starts with
`mtuHighestGood` `552` above the candidate, and once the eight tests of `514` have timed out it
ends with the MTU at `552`. -/
theorem mtuSearch_idle_ack_and_low_pmtu :
    (initial 62).run [.testAck [0, 0]] =
        some { initial 62 with mtu := 0, maxPayload := 34, mtuHighestGood := 0 } ∧
      (initial 62).run [.msgTooBig 576] =
        some ⟨514, 548, 62, 552, 515, 514, 1, true⟩ ∧
      (initial 62).run (.msgTooBig 576 :: List.replicate 8 .testTimeout) =
        some ⟨552, 586, 62, 552, 514, 0, 8, false⟩ := by
  decide

end WeaveNet.Router
