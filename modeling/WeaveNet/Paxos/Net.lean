import Mathlib
import WeaveNet.Paxos.Basic

/-!
# A network of gossiping Paxos nodes

The nodes of one election and the gossip between them. Any node may at any time propose, think,
or take in a gossip state that some node held earlier: gossip may be delayed, duplicated,
reordered or lost, so every state ever held stays deliverable (`Net.sent`). A node's own step
adds its new state to what has been sent.
-/

namespace WeaveNet.Paxos

variable {P : Type} [LinearOrder P] [Inhabited P]

/-- The nodes, by index, and every gossip state some node has held, in order. -/
structure Net (P : Type) where
  nodes : List (Node P)
  sent : List (GossipState P)
  deriving Repr

/-- What can happen next: node `i` proposes, thinks, or takes in the `k`-th state sent. -/
inductive Action where
  | propose (i : Nat)
  | think (i : Nat)
  | update (i k : Nat)
  deriving DecidableEq, Repr

namespace Net

/-- A network of fresh nodes, nothing sent. -/
def init (nodes : List (Node P)) : Net P := ⟨nodes, []⟩

/-- Replace node `i` and send its new state. -/
def setNode (net : Net P) (i : Nat) (node : Node P) : Net P :=
  ⟨net.nodes.set i node, net.sent ++ [node.knows]⟩

/-- One action; `none` when it names a node or a state that does not exist, or when the node
panics (`Propose` without a quorum). -/
def step (net : Net P) : Action → Option (Net P)
  | .propose i => do
    let node ← net.nodes[i]?
    let node ← node.propose
    pure (net.setNode i node)
  | .think i => do
    let node ← net.nodes[i]?
    pure (net.setNode i node.think.1)
  | .update i k => do
    let node ← net.nodes[i]?
    let s ← net.sent[k]?
    pure (net.setNode i (node.update s).1)

/-- A run of actions, stopping at the first that cannot happen. -/
def run (net : Net P) : List Action → Option (Net P)
  | [] => some net
  | a :: as => (net.step a).bind (fun net => net.run as)

/-- `Consensus()` at node `i`. -/
def consensus (net : Net P) (i : Nat) : Option (Bool × AcceptedValue P) :=
  (net.nodes[i]?).map Node.consensus

end Net

/-! ## Two consensus values -/

/-- Three electors `X`, `Y`, `Z` (names `1`, `2`, `3`), each with quorum `2`. -/
def electors : Net Nat := Net.init [Node.new 1 0 2, Node.new 2 0 2, Node.new 3 0 2]

/-- `X` proposes round 1 and accepts its own proposal with the value `[X, Y]` once `Y` has
promised; `Z`, hearing an old state, proposes round 2 and accepts `[X, Y, Z]` with `Y`'s promise;
`Y` proposes round 3, and with `X`'s promise takes over `X`'s accepted value. -/
def firstRun : List Action :=
  [.propose 0, .update 1 0, .think 1, .update 0 2, .think 0, .update 2 2, .propose 2,
    .update 1 6, .think 1, .update 2 8, .think 2, .propose 1, .update 0 11, .think 0,
    .update 1 13, .think 1]

/-- `Z` proposes round 4; with `X`'s promise it takes over its own round-2 value, the highest
accepted, and `X` accepts it. -/
def secondRun : List Action :=
  [.update 2 13, .propose 2, .update 0 17, .think 0, .update 2 19, .think 2, .update 0 21,
    .think 0]

/-- **Two nodes see consensus on different values.** After the first run `Y` sees consensus on
`[X, Y]`: `X` accepted it in round 1 and `Y` in round 3, and `Consensus` counts acceptances by the
value's origin, not by round. After the second run `X` sees consensus on `[X, Y, Z]`, accepted
by `Z` and `X` in round 4. -/
theorem consensus_diverges :
    ((electors.run firstRun).bind (·.consensus 1)) = some (true, ⟨[1, 2], ⟨1, ⟨1, 0⟩⟩⟩) ∧
      ((electors.run (firstRun ++ secondRun)).bind (·.consensus 0)) =
        some (true, ⟨[1, 2, 3], ⟨2, ⟨3, 0⟩⟩⟩) := by
  decide

end WeaveNet.Paxos
