import Mathlib

/-!
# Gossip Paxos

The model of `ipam/paxos`: each node keeps the claims (promise, accepted proposal and value) it
knows of every node, merges the claims it hears by gossip (`update`), starts a ballot
(`propose`), advances its own claims from what it knows (`think`) and reads off a consensus
(`consensus`).

A Go map is an association list here, iterated in its order: Go leaves the iteration order
unspecified, so every order, this one included, is an execution of the source. A key that is
absent reads as the zero value (`default`). Peer names are a type parameter with its order (a
`uint64` or a `string` in `mesh`); a `mesh.PeerUID` is a number.
-/

namespace WeaveNet.Paxos

variable {P : Type} [LinearOrder P] [Inhabited P]

/-- `type NodeID struct { Name; UID }`. -/
structure NodeID (P : Type) where
  Name : P
  UID : Nat
  deriving DecidableEq, Repr, Inhabited

/-- `type ProposalID struct { Round uint; Proposer NodeID }`; round `0` is the uninitialised
proposal. -/
structure ProposalID (P : Type) where
  Round : Nat
  Proposer : NodeID P
  deriving DecidableEq, Repr, Inhabited

/-- `type AcceptedValue struct { Value []PeerName; Origin ProposalID }`. -/
structure AcceptedValue (P : Type) where
  Value : List P
  Origin : ProposalID P
  deriving DecidableEq, Repr, Inhabited

/-- `type NodeClaims struct { Promise; Accepted; AcceptedVal }`. -/
structure NodeClaims (P : Type) where
  Promise : ProposalID P
  Accepted : ProposalID P
  AcceptedVal : AcceptedValue P
  deriving DecidableEq, Repr, Inhabited

/-- `type GossipState map[NodeID]NodeClaims`, in iteration order. -/
abbrev GossipState (P : Type) := List (NodeID P × NodeClaims P)

/-- `type Node struct { id; quorum uint; knows GossipState }`. -/
structure Node (P : Type) where
  id : NodeID P
  quorum : Nat
  knows : GossipState P
  deriving DecidableEq, Repr

namespace ProposalID

/-- `ProposalID.precedes`: by round, then proposer name, then proposer UID. -/
def precedes (a b : ProposalID P) : Bool :=
  if a.Round ≠ b.Round then decide (a.Round < b.Round)
  else if a.Proposer.Name ≠ b.Proposer.Name then decide (a.Proposer.Name < b.Proposer.Name)
  else if a.Proposer.UID ≠ b.Proposer.UID then decide (a.Proposer.UID < b.Proposer.UID)
  else false

/-- `ProposalID.valid`. -/
def valid (a : ProposalID P) : Bool := decide (a.Round > 0)

end ProposalID

/-- `NodeClaims.equals`: the values themselves are not compared, only their origins. -/
def NodeClaims.equals (a b : NodeClaims P) : Bool :=
  a.Promise == b.Promise && a.Accepted == b.Accepted &&
    a.AcceptedVal.Origin == b.AcceptedVal.Origin

/-! ## Maps as association lists -/

namespace GossipState

/-- `m[k]`, the zero value when `k` is absent. -/
def get (m : GossipState P) (k : NodeID P) : NodeClaims P :=
  (m.lookup k).getD default

/-- `m[k] = v`: in place when `k` is present, otherwise a new key at the end. -/
def set : GossipState P → NodeID P → NodeClaims P → GossipState P
  | [], k, v => [(k, v)]
  | (k', v') :: rest, k, v => if k' = k then (k, v) :: rest else (k', v') :: set rest k v

end GossipState

/-! ## The node's operations -/

namespace Node

/-- `NewNode`. -/
def new (name : P) (uid : Nat) (quorum : Nat) : Node P := ⟨⟨name, uid⟩, quorum, []⟩

/-- One key of `Update`: take the incoming promise and accepted proposal when they are newer. -/
def updateClaims (claims? : Option (NodeClaims P)) (fromClaims : NodeClaims P) :
    NodeClaims P × Bool :=
  match claims? with
  | none => (fromClaims, true)
  | some claims =>
    let (claims, changed) := if claims.Promise.precedes fromClaims.Promise then
      ({ claims with Promise := fromClaims.Promise }, true) else (claims, false)
    if claims.Accepted.precedes fromClaims.Accepted then
      ({ claims with Accepted := fromClaims.Accepted, AcceptedVal := fromClaims.AcceptedVal }, true)
    else (claims, changed)

/-- `Node.Update`: "Update this node's information about what other nodes know. Returns true if
we learned something new." -/
def update (node : Node P) (fromState : GossipState P) : Node P × Bool :=
  fromState.foldl (fun (node, changed) (i, fromClaims) =>
    let (claims, ch) := updateClaims (node.knows.lookup i) fromClaims
    ({ node with knows := node.knows.set i claims }, changed || ch)) (node, false)

/-- `Node.pickValue`: the names of the nodes we know of. -/
def pickValue (node : Node P) : List P := node.knows.map (·.1.Name)

/-- The promise step of `Think`: the highest promise known. -/
def highestPromise (node : Node P) (promise : ProposalID P) : ProposalID P :=
  node.knows.foldl (fun p (_, claims) => if p.precedes claims.Promise then claims.Promise else p)
    promise

/-- The count of `Think`'s accept-request step: the nodes that made our promise, with the
highest proposal accepted among them and its value. -/
def countPromises (node : Node P) (promise : ProposalID P) :
    Nat × ProposalID P × AcceptedValue P :=
  node.knows.foldl (fun (count, accepted, acceptedVal) (_, claims) =>
    if claims.Promise = promise then
      if accepted.precedes claims.Accepted then (count + 1, claims.Accepted, claims.AcceptedVal)
      else (count + 1, accepted, acceptedVal)
    else (count, accepted, acceptedVal)) (0, default, default)

/-- The accepted step of `Think`: the first known claim that accepted our promise. -/
def findAccepted (node : Node P) (promise : ProposalID P) : Option (NodeClaims P) :=
  (node.knows.find? (fun (_, claims) => claims.Accepted == promise)).map (·.2)

/-- `Node.Think`: "The heart of the consensus algorithm. Return true if we have changed our
claims." -/
def think (node : Node P) : Node P × Bool :=
  let ourClaims := node.knows.get node.id
  let ourClaims := { ourClaims with Promise := node.highestPromise ourClaims.Promise }
  -- our proposal is only in the running if it is also our promise
  let ourClaims :=
    if ourClaims.Promise.Proposer = node.id then
      let (count, accepted, acceptedVal) := node.countPromises ourClaims.Promise
      if count ≥ node.quorum then
        let acceptedVal := if !accepted.valid then
          { acceptedVal with Value := node.pickValue, Origin := ourClaims.Promise } else acceptedVal
        { ourClaims with Accepted := ourClaims.Promise, AcceptedVal := acceptedVal }
      else ourClaims
    else ourClaims
  let ourClaims := match node.findAccepted ourClaims.Promise with
    | some claims => { ourClaims with Accepted := claims.Accepted, AcceptedVal := claims.AcceptedVal }
    | none => ourClaims
  if ourClaims.equals (node.knows.get node.id) then (node, false)
  else ({ node with knows := node.knows.set node.id ourClaims }, true)

/-- `Node.Propose`: "Initiate a new proposal", one round above every round known. Go panics
when no quorum is set. -/
def propose (node : Node P) : Option (Node P) :=
  if node.quorum = 0 then none
  else
    let round := node.knows.foldl (fun round (_, claims) =>
      max (max round claims.Promise.Round) claims.Accepted.Round) 0
    let ourClaims := node.knows.get node.id
    let ourClaims := { ourClaims with Promise := ⟨round + 1, node.id⟩ }
    let node := { node with knows := node.knows.set node.id ourClaims }
    -- with a quorum of 1 we can immediately accept our proposal
    if node.quorum = 1 then some node.think.1 else some node

/-- The loop of `Consensus` over the known claims, counting accepted values by origin. -/
def countOrigins (quorum : Nat) :
    GossipState P → List (ProposalID P × Nat) → Option (AcceptedValue P)
  | [], _ => none
  | (_, claims) :: rest, counts =>
    if claims.Accepted.valid then
      let origin := claims.AcceptedVal.Origin
      let count := ((counts.lookup origin).getD 0) + 1
      if count ≥ quorum then some claims.AcceptedVal
      else countOrigins quorum rest ((origin, count) :: counts.filter (·.1 ≠ origin))
    else countOrigins quorum rest counts

/-- `Node.Consensus`: "Has a consensus been reached, based on the known claims of other
nodes?" -/
def consensus (node : Node P) : Bool × AcceptedValue P :=
  if node.quorum = 0 then (false, default)
  else match countOrigins node.quorum node.knows [] with
    | some v => (true, v)
    | none => (false, default)

end Node

end WeaveNet.Paxos
