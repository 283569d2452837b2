import WeaveNet.KubeUtils.Annotations

/-!
# Reclaiming the address space of removed peers

`kube-utils -reclaim` (`main.go`) runs on every weave peer as it starts. It adds the peer to the
stored peer list, then compares the list with the nodes Kubernetes reports (step 1) and reclaims
each listed peer whose node is gone (step 2, `reclaimRemovedPeers`). To reclaim a peer X
(`reclaimPeer`) it takes a lock, the annotation keyed by X with its own name as value (steps 3
to 5), calls weave's `RmPeer(X)` (step 6), and then, retrying on conflicts, removes every lock
that X held, X itself from the list, and its own lock on X (step 7). "Step 3-5 is to protect
against two simultaneous rmpeers of X."

A whole cluster is `Lib.Sys` over `Cluster`: the processes of the peers, run side by side with
their calls interleaved by a schedule (`reclaimSys`). Go's maps are association lists, iterated
in the order their keys were first set, which is one of the orders Go may take.

`reclaimRun_rmPeer_twice` is a run in which two processes both remove one peer: a process decides
whom to reclaim from the peer list it read at the start of its pass, but its earlier reclaim's
step 7 has meanwhile brought its ConfigMap up to date, so the lock on X that another process has
taken and released since is no longer in its way.
-/

namespace WeaveNet.KubeUtils

open Lib

/-- What `kube-utils` takes from outside the repository: `encoding/json` on the peer list, and
`net.ParseIP(a).To4().String()`, `none` where `a` is no IPv4 address. -/
structure Libs where
  json : Json
  parseIPv4 : String → Option String

/-- `nodeInfo`. -/
structure NodeInfo where
  name : String
  addr : String
  deriving DecidableEq, Repr

/-- The loop of `getKubePeers` over a node's addresses: the last IPv4 address of type
`InternalIP` and of type `ExternalIP`, empty where there is none. -/
def nodeIPs (parseIPv4 : String → Option String) (addresses : List NodeAddress) : String × String :=
  addresses.foldl (fun (internalIP, externalIP) addr =>
    match parseIPv4 addr.Address with
    | none => (internalIP, externalIP)
    | some ip =>
      if addr.Kind = "InternalIP" then (ip, externalIP)
      else if addr.Kind = "ExternalIP" then (internalIP, ip)
      else (internalIP, externalIP)) ("", "")

/-- `getKubePeers` on a host whose own addresses `isLocalNodeIP` recognises: the nodes with their
internal address, or else their external one, leaving out the host's own node. -/
def getKubePeers (libs : Libs) (isLocalNodeIP : String → Bool) (includeWithNoIPAddr : Bool) :
    GoM (List NodeInfo) := do
  let nodeList ← check (← call .listNodes)
  pure (nodeList.filterMap fun peer =>
    let (internalIP, externalIP) := nodeIPs libs.parseIPv4 peer.Addresses
    if internalIP ≠ "" then
      if isLocalNodeIP internalIP then none else some ⟨peer.Name, internalIP⟩
    else if externalIP ≠ "" then some ⟨peer.Name, externalIP⟩
    else if includeWithNoIPAddr then some ⟨peer.Name, ""⟩
    else none)

/-- `reclaimPeer`: whether it attempted to remove `peerName`. Go returns `(true, err)` when step 7
fails, and its caller then returns `err`; here the error is returned. -/
def reclaimPeer (json : Json) (fuel : Nat) (storedPeerList : PeerList)
    (peerName myPeerName : String) : GoM Bool := do
  let mut okToRemove := false
  let mut nonExistentPeer := false
  -- 3. the lock on X, if any
  let existingAnnotation ← getAnnotation (KubePeersPrefix ++ peerName)
  if let some existing := existingAnnotation then
    -- 4. it is ours; or its holder is not in the list this pass read
    if existing = myPeerName then okToRemove := true
    else if !storedPeerList.contains existing then nonExistentPeer := true
  if existingAnnotation.isNone || nonExistentPeer then
    -- 5. take the lock; a conflict leaves it to whoever changed the ConfigMap
    if let .ok () ← attempt <| updateAnnotation (KubePeersPrefix ++ peerName) myPeerName then
      okToRemove := true
  if !okToRemove then return false
  -- 6.
  match ← call (.rmPeer peerName) with
  | .error err => throwThe Error (.other err)
  | .ok _ => pure ()
  -- 7aa, 7a and 7b, against the latest ConfigMap
  loopUpdate fuel (do
    removeAnnotationsWithValue peerName
    let storedPeerList ← getPeerList json
    updatePeerList json (storedPeerList.remove peerName)
    removeAnnotation (KubePeersPrefix ++ peerName)) fuel
  return true

/-- `reclaimRemovedPeers`, from the pass with `loopsWhenNothingChanged`, with a budget of
`tries` more passes. -/
def reclaimRemovedPeers (libs : Libs) (isLocalNodeIP : String → Bool) (fuel : Nat)
    (myPeerName myNodeName : String) : Nat → Nat → GoM Unit
  | 0, _ => outOfFuel
  | tries + 1, loopsWhenNothingChanged => do
    if loopsWhenNothingChanged ≥ 3 then return
    init fuel
    -- 1. the stored peers against the nodes Kubernetes reports now
    let storedPeerList ← getPeerList libs.json
    let nodes ← getKubePeers libs isLocalNodeIP true
    let nodeSet := nodes.map (·.name)
    -- the peers of nodes that are gone, and those that share my node but are not me
    let peerMap := (Map.setAll (·.PeerName) [] storedPeerList.Peers).filter fun (_, peer) =>
      !nodeSet.contains peer.NodeName || (peer.NodeName == myNodeName && peer.PeerName != myPeerName)
    if peerMap.isEmpty then return
    -- 2.
    let mut loops := loopsWhenNothingChanged
    for (_, peer) in peerMap do
      if peer.PeerName = myPeerName then continue
      let changed ← reclaimPeer libs.json fuel storedPeerList peer.PeerName myPeerName
      if changed then loops := 0
    -- 9.
    reclaimRemovedPeers libs isLocalNodeIP fuel myPeerName myNodeName tries (loops + 1)

/-- `main` with `-reclaim`, whose errors end the process (`Fatalf`). -/
def reclaim (libs : Libs) (isLocalNodeIP : String → Bool) (fuel : Nat) (peerName nodeName : String) :
    GoM Unit := do
  addMyselfToPeerList libs.json fuel peerName nodeName
  reclaimRemovedPeers libs isLocalNodeIP fuel peerName nodeName fuel 0

/-- How a process ends: a panic, or else `main`'s error, if any, and its last ConfigMap. -/
abbrev Exit := Except String (Except Error Unit × Option ConfigMap)

/-- A peer's `kube-utils -reclaim` process, from a `nil` ConfigMap. -/
def reclaimProcess (libs : Libs) (isLocalNodeIP : String → Bool) (fuel : Nat)
    (peerName nodeName : String) : Prog Call Answer Exit :=
  (((reclaim libs isLocalNodeIP fuel peerName nodeName).run).run none).run

/-- A process has ended with no error and no panic. -/
def Exit.succeeded : Exit → Bool
  | Except.ok (Except.ok (), _) => true
  | _ => false

/-! ## Two simultaneous removals of one peer -/

/-! A JSON reader for `Json.plain`. -/

namespace JsonReader

/-- The characters of `lit` at the front of `cs`, and what follows. -/
def expect (lit : String) (cs : List Char) : Option (List Char) :=
  if lit.toList.isPrefixOf cs then some (cs.drop lit.length) else none

/-- A string's characters up to its closing quote, and what follows. -/
def readString : List Char → Option (List Char × List Char)
  | [] => none
  | '"' :: rest => some ([], rest)
  | c :: rest => (readString rest).map fun (s, r) => (c :: s, r)

/-- One `peerInfo` object. -/
def readPeerInfo (cs : List Char) : Option (PeerInfo × List Char) := do
  let cs ← expect "\x7b\"PeerName\":\"" cs
  let (peerName, cs) ← readString cs
  let cs ← expect ",\"NodeName\":\"" cs
  let (nodeName, cs) ← readString cs
  let cs ← expect "\x7d" cs
  pure (⟨String.ofList peerName, String.ofList nodeName⟩, cs)

/-- Objects separated by commas, at most `n` of them. -/
def readPeerInfos : Nat → List Char → Option (List PeerInfo × List Char)
  | 0, _ => none
  | n + 1, cs => do
    let (p, cs) ← readPeerInfo cs
    match cs with
    | ',' :: cs =>
      let (ps, cs) ← readPeerInfos n cs
      pure (p :: ps, cs)
    | cs => pure ([p], cs)

/-- A whole peer list. -/
def readPeerList (cs : List Char) : Option (List PeerInfo) := do
  let cs ← expect "\x7b\"Peers\":" cs
  if expect "null\x7d" cs = some [] then pure [] else
  let cs ← expect "[" cs
  if expect "]\x7d" cs = some [] then pure [] else
  let (ps, cs) ← readPeerInfos cs.length cs
  if expect "]\x7d" cs = some [] then pure ps else none

end JsonReader

/-- A JSON string of characters that need no escaping. -/
def quote (s : String) : String := "\"" ++ s ++ "\""

/-- `json.Marshal` and `json.Unmarshal` on peer lists whose names need no escaping: Go writes
`{"Peers":[{"PeerName":..,"NodeName":..},..]}`, or `null` for a `nil` list. -/
def Json.plain : Json where
  marshal list :=
    "\x7b\"Peers\":" ++
      (if list.Peers.isEmpty then "null"
       else "[" ++ ",".intercalate (list.Peers.map fun p =>
         "\x7b\"PeerName\":" ++ quote p.PeerName ++ ",\"NodeName\":" ++ quote p.NodeName ++ "\x7d") ++ "]") ++
      "\x7d"
  unmarshal s :=
    match JsonReader.readPeerList s.toList with
    | some peers => .ok ⟨peers⟩
    | none => .error "invalid character in JSON"

/-- `net.ParseIP(a).To4().String()` on dotted-decimal addresses. -/
def parseDottedIPv4 (a : String) : Option String :=
  let parts := (a.toList.splitOn '.').map fun part =>
    if part.isEmpty || part.length > 3 || !part.all Char.isDigit then none
    else
      let n := part.foldl (fun n c => 10 * n + (c.toNat - '0'.toNat)) 0
      if n < 256 then some n else none
  match parts with
  | [some a, some b, some c, some d] => some (".".intercalate ([a, b, c, d].map toString))
  | _ => none

/-- The libraries the runs below use. -/
def Libs.plain : Libs := ⟨Json.plain, parseDottedIPv4⟩

/-- The peers of the run: `peer-a` and `peer-b` are live on `node-a` and `node-b`; the nodes of
`peer-y` and `peer-x` have been deleted. -/
def peerA : PeerInfo := ⟨"peer-a", "node-a"⟩
def peerB : PeerInfo := ⟨"peer-b", "node-b"⟩
def peerX : PeerInfo := ⟨"peer-x", "node-x"⟩
def peerY : PeerInfo := ⟨"peer-y", "node-y"⟩

/-- The cluster: the ConfigMap lists the four peers, and two nodes are left. -/
def reclaimCluster : Cluster where
  configMap := some ⟨1, some [(KubePeersAnnotationKey, Json.plain.marshal ⟨[peerA, peerB, peerY, peerX]⟩)]⟩
  version := 1
  nodes := [⟨"node-a", [⟨"InternalIP", "10.32.0.1"⟩]⟩, ⟨"node-b", [⟨"InternalIP", "10.32.0.2"⟩]⟩]
  rmPeers := []

/-- The `-reclaim` processes of `peer-a` (thread 0) and `peer-b` (thread 1), each on its node,
with a budget of four for every loop. -/
def reclaimSys : Sys Cluster Call Answer Exit where
  service := reclaimCluster
  threads :=
    [reclaimProcess Libs.plain (· == "10.32.0.1") 4 peerA.PeerName peerA.NodeName,
     reclaimProcess Libs.plain (· == "10.32.0.2") 4 peerB.PeerName peerB.NodeName]

/-- The schedule, by calls. `peer-b` adds itself, starts a pass, takes the lock on `peer-y` and
removes it (5 calls). `peer-a` adds itself and starts a pass, in which `peer-y`'s lock is taken;
it takes the lock on `peer-x`, removes it, and does step 7 for it, which releases the lock
(9 calls). `peer-b` does step 7 for `peer-y`, which refreshes its ConfigMap, then, still in the
pass that listed `peer-x`, finds no lock on it, takes one and removes `peer-x` again (6 calls).
Both then run to the end (4 and 8 calls). -/
def reclaimSchedule : List Nat :=
  List.replicate 5 1 ++ List.replicate 9 0 ++ List.replicate 6 1 ++ List.replicate 4 0 ++
    List.replicate 8 1

/-- Both processes end with no error, and weave was asked to remove `peer-x` twice. -/
theorem reclaimRun_rmPeer_twice :
    (reclaimSys.run Cluster.answer reclaimSchedule).threads.map (fun t => t.result.map Exit.succeeded) =
        [some true, some true] ∧
      (reclaimSys.run Cluster.answer reclaimSchedule).service.rmPeers = ["peer-y", "peer-x", "peer-x"] := by
  decide +kernel

end WeaveNet.KubeUtils
