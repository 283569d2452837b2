import WeaveNet.Lib.Interleave
import WeaveNet.Lib.Map

/-!
# The weave-net ConfigMap and its annotations

`kube-utils` keeps two things in the annotations of the ConfigMap `kube-system/weave-net`: the
list of the weave peers that have joined the cluster (`peerlist.go`), as JSON under one key, and,
per peer being reclaimed, a lock naming the peer that reclaims it (`annotations.go`).

Every `kube-utils` process is a program over the calls it makes (`Lib.Prog`): to the api-server
for the ConfigMap and the nodes, and to its weave router for `RmPeer`. The api-server and the
routers are the service (`Cluster`). For the ConfigMap the api-server is a compare-and-swap
register: an Update succeeds exactly when the object sent has the stored resourceVersion, and the
stored object then gets a new one (`answer_update_ok`); a stale Update changes nothing
(`answer_update_stale`). `Cluster.run_inv` and `Cluster.run_grows` carry what every answer
keeps over every interleaving.

A process keeps its copy of the ConfigMap (`cml.cm`) as state, and stops on a Go panic (`KubeM`).
A Go function that returns an `error` is a step of `GoM`, which adds that error. Go's retry loops
run at most `fuel` times: a run that needs more stops, and says so.
-/

namespace WeaveNet.KubeUtils

open Lib

/-! ## The api-server and the weave routers -/

/-- `metav1.StatusReason`, for the reasons `kube-utils` tests. -/
inductive StatusReason where
  | NotFound
  | AlreadyExists
  | Conflict
  deriving DecidableEq, Repr

/-- A Go `error`: a status from the api-server, or any other, a wrapped status among them, as
`kubeErrors.ReasonForError` does not look inside `errors.Wrapf`. -/
inductive Error where
  | status (reason : StatusReason) (message : String)
  | other (message : String)
  deriving DecidableEq, Repr

namespace Error

/-- `err.Error()`. -/
def message : Error → String
  | status _ m => m
  | other m => m

/-- `kubeErrors.ReasonForError`. -/
def reason : Error → Option StatusReason
  | status r _ => some r
  | other _ => none

/-- `kubeErrors.IsNotFound`, `IsAlreadyExists` and `IsConflict`. -/
def isNotFound (err : Error) : Bool := err.reason == some .NotFound
def isAlreadyExists (err : Error) : Bool := err.reason == some .AlreadyExists
def isConflict (err : Error) : Bool := err.reason == some .Conflict

/-- `errors.Wrapf`. -/
def wrap (context : String) (err : Error) : Error := other (context ++ ": " ++ err.message)

end Error

/-- `configMapName` and `configMapNamespace`. -/
def configMapName : String := "weave-net"
def configMapNamespace : String := "kube-system"

/-- `v1.ConfigMap`, with the fields `kube-utils` reads: its resourceVersion, `0` when unset as
in the empty ConfigMap that client-go returns with an error, and its annotations, `none` for a
`nil` map. -/
structure ConfigMap where
  ResourceVersion : Nat
  Annotations : Option (List (String × String))
  deriving DecidableEq, Repr

/-- `&v1.ConfigMap{}`. -/
def ConfigMap.empty : ConfigMap := ⟨0, none⟩

/-- `v1.NodeAddress`: its `Type` and its address. -/
structure NodeAddress where
  Kind : String
  Address : String
  deriving DecidableEq, Repr

/-- `v1.Node`, with its name and `Status.Addresses`. -/
structure Node where
  Name : String
  Addresses : List NodeAddress
  deriving DecidableEq, Repr

/-- The calls of `kube-utils`: Get, Create and Update of the weave-net ConfigMap and List of the
nodes, to the api-server, and `RmPeer` to the weave router. -/
inductive Call where
  | get
  | create (obj : ConfigMap)
  | update (obj : ConfigMap)
  | listNodes
  | rmPeer (peerName : String)
  deriving DecidableEq, Repr

/-- The answer to each call. -/
@[reducible] def Answer : Call → Type
  | .get => Except Error ConfigMap
  | .create _ => Except Error ConfigMap
  | .update _ => Except Error ConfigMap
  | .listNodes => Except Error (List Node)
  | .rmPeer _ => Except String String

/-- The api-server's weave-net ConfigMap and last resourceVersion, the nodes, and the peers that
the weave routers were asked to remove, in order. -/
structure Cluster where
  configMap : Option ConfigMap
  version : Nat
  nodes : List Node
  rmPeers : List String
  deriving DecidableEq, Repr

/-- The errors of the api-server for the weave-net ConfigMap. -/
def notFoundError : Error :=
  .status .NotFound ("configmaps \"" ++ configMapName ++ "\" not found")
def alreadyExistsError : Error :=
  .status .AlreadyExists ("configmaps \"" ++ configMapName ++ "\" already exists")
def conflictError : Error :=
  .status .Conflict ("Operation cannot be fulfilled on configmaps \"" ++ configMapName ++
    "\": the object has been modified; please apply your changes to the latest version and try again")

/-- The object the api-server stores and returns: with a new resourceVersion, and an empty
annotation map read back as `nil`, since it is not serialised. -/
def stored (obj : ConfigMap) (version : Nat) : ConfigMap :=
  ⟨version, obj.Annotations.bind fun anns => if anns.isEmpty then none else some anns⟩

namespace Cluster

/-- Store `obj` under the next resourceVersion. -/
def write (w : Cluster) (obj : ConfigMap) : Except Error ConfigMap × Cluster :=
  (.ok (stored obj (w.version + 1)),
    { w with configMap := some (stored obj (w.version + 1)), version := w.version + 1 })

/-- The cluster's answer to a call. -/
def answer (w : Cluster) : (c : Call) → Answer c × Cluster
  | .get => (match w.configMap with
      | some cm => .ok cm
      | none => .error notFoundError, w)
  | .create obj =>
    match w.configMap with
    | some _ => (.error alreadyExistsError, w)
    | none => w.write obj
  | .update obj =>
    match w.configMap with
    | some cm => if obj.ResourceVersion = cm.ResourceVersion then w.write obj else (.error conflictError, w)
    | none => (.error notFoundError, w)
  | .listNodes => (.ok w.nodes, w)
  | .rmPeer peerName => (.ok "", { w with rmPeers := w.rmPeers ++ [peerName] })

/-- An Update succeeds exactly when it sends the stored resourceVersion, and then stores what it
sent under the next one. -/
theorem answer_update_ok {w : Cluster} {obj cm : ConfigMap} :
    (w.answer (.update obj)).1 = .ok cm ↔
      (∃ cur, w.configMap = some cur ∧ obj.ResourceVersion = cur.ResourceVersion) ∧
        cm = stored obj (w.version + 1) := by
  cases hw : w.configMap with
  | none => simp [answer, hw]
  | some cur =>
    by_cases hv : obj.ResourceVersion = cur.ResourceVersion
    · simp [answer, hw, hv, write, eq_comm]
    · simp [answer, hw, hv]

/-- An Update with a stale resourceVersion fails with a conflict and changes nothing. -/
theorem answer_update_stale {w : Cluster} {obj cur : ConfigMap} (hw : w.configMap = some cur)
    (hv : obj.ResourceVersion ≠ cur.ResourceVersion) :
    w.answer (.update obj) = (.error conflictError, w) := by
  simp [answer, hw, hv]

/-- What the cluster keeps: the stored ConfigMap carries the last resourceVersion, which is not
the unset one. -/
def Inv (w : Cluster) : Prop :=
  ∀ cm, w.configMap = some cm → cm.ResourceVersion = w.version ∧ 0 < w.version

theorem inv_write (w : Cluster) (obj : ConfigMap) : (w.write obj).2.Inv := by
  intro cm hcm
  simp only [write, Option.some.injEq] at hcm
  subst hcm
  exact ⟨rfl, Nat.succ_pos _⟩

theorem inv_answer {w : Cluster} (hw : w.Inv) : ∀ c, (w.answer c).2.Inv
  | .get => hw
  | .create obj => by
    simp only [answer]
    split
    · exact hw
    · exact inv_write w obj
  | .update obj => by
    simp only [answer]
    split
    · split
      · exact inv_write w obj
      · exact hw
    · exact hw
  | .listNodes => hw
  | .rmPeer _ => hw

/-- How the cluster changes: the resourceVersion never goes back, a stored ConfigMap stays, the
nodes are fixed, and the routers' removals are only added to. -/
def Grows (w w' : Cluster) : Prop :=
  w.version ≤ w'.version ∧ (w.configMap.isSome → w'.configMap.isSome) ∧ w'.nodes = w.nodes ∧
    w.rmPeers <+: w'.rmPeers

instance : IsPreorder Cluster Grows where
  refl _ := ⟨Nat.le_refl _, id, rfl, List.prefix_refl _⟩
  trans _ _ _ h h' := ⟨Nat.le_trans h.1 h'.1, h'.2.1 ∘ h.2.1, h'.2.2.1.trans h.2.2.1, h.2.2.2.trans h'.2.2.2⟩

theorem grows_write (w : Cluster) (obj : ConfigMap) : w.Grows (w.write obj).2 :=
  ⟨Nat.le_succ _, fun _ => rfl, rfl, List.prefix_refl _⟩

theorem grows_answer (w : Cluster) : ∀ c, w.Grows (w.answer c).2
  | .get => refl_of Grows w
  | .create obj => by
    simp only [answer]
    split
    · exact refl_of Grows w
    · exact grows_write w obj
  | .update obj => by
    simp only [answer]
    split
    · split
      · exact grows_write w obj
      · exact refl_of Grows w
    · exact refl_of Grows w
  | .listNodes => refl_of Grows w
  | .rmPeer _ => ⟨Nat.le_refl _, id, rfl, List.prefix_append _ _⟩

section Runs

variable {α : Type} (s : Sys Cluster Call Answer α) (sched : List Nat)

/-- However the calls of any processes interleave, the stored ConfigMap carries the last
resourceVersion. -/
theorem run_inv (h : s.service.Inv) : (s.run answer sched).service.Inv :=
  Sys.run_inv answer Inv (fun _ c hw => inv_answer hw c) sched s h

/-- However the calls of any processes interleave, the resourceVersion never goes back and the
routers' removals are only added to. -/
theorem run_grows : s.service.Grows (s.run answer sched).service :=
  Sys.run_rel answer Grows grows_answer sched s

end Runs

end Cluster

/-! ## A `kube-utils` process -/

/-- A `kube-utils` process: it calls the cluster, keeps `cml.cm` (`none` for a `nil` pointer),
and stops on a Go panic, or when a loop has run out of the model's budget. -/
abbrev KubeM := StateT (Option ConfigMap) (ExceptT String (Prog Call Answer))

/-- A Go function of `kube-utils` that returns an `error`. -/
abbrev GoM := ExceptT Error KubeM

/-- Make a call. -/
def call (c : Call) : GoM (Answer c) := monadLift (Prog.request c : Prog Call Answer (Answer c))

/-- A Go panic: the process stops. -/
def goPanic {α : Type} (msg : String) : GoM α := throwThe String ("panic: " ++ msg)

/-- A retry loop of the process has run more times than the model allows. -/
def outOfFuel {α : Type} : GoM α := throwThe String "out of fuel"

/-- `cml.cm, err = ...`: client-go returns an empty ConfigMap with an error. -/
def assign (r : Except Error ConfigMap) : GoM Unit :=
  set (some (match r with
    | .ok cm => cm
    | .error _ => ConfigMap.empty))

/-- `return err` of a call's error. -/
def check {α : Type} : Except Error α → GoM α
  | .ok a => pure a
  | .error err => throwThe Error err

/-- `err := f()`: run `f`, and take its error as a value. -/
def attempt {α : Type} (f : GoM α) : GoM (Except Error α) := ExceptT.lift f.run

/-- `cml.cm, err = cml.Client.ConfigMaps(cml.Namespace).Update(cml.cm); return err`. -/
def update (obj : ConfigMap) : GoM Unit := do
  let r ← call (.update obj)
  assign r
  discard (check r)

/-- The error of the annotation functions before `Init`. -/
def notInitialized : Error := .other "endpoint not initialized, call Init first"

/-- The end of `cml.Init`: "if cml.cm.Annotations == nil { make }". -/
def makeAnnotations : GoM Unit :=
  modify fun cm => cm.map fun cm => if cm.Annotations.isNone then { cm with Annotations := some [] } else cm

/-- `cml.Init`: Get the ConfigMap, or Create it when it is not found, and Get it again when it
was created between the two. -/
def init : Nat → GoM Unit
  | 0 => outOfFuel
  | fuel + 1 => do
    let r ← call .get
    assign r
    match r with
    | .ok _ => makeAnnotations
    | .error err =>
      if !err.isNotFound then
        throwThe Error (err.wrap ("Unable to fetch ConfigMap " ++ configMapNamespace ++ "/" ++ configMapName))
      let r ← call (.create ConfigMap.empty)
      assign r
      match r with
      | .ok _ => makeAnnotations
      | .error err =>
        if err.isAlreadyExists then init fuel
        else throwThe Error (err.wrap ("Unable to create ConfigMap " ++ configMapNamespace ++ "/" ++ configMapName))

/-- A byte that `cleanKey` keeps. -/
def keyChar (c : Char) : Bool :=
  ('A' ≤ c && c ≤ 'Z') || ('a' ≤ c && c ≤ 'z') || ('0' ≤ c && c ≤ '9') || c == '-' || c == '_' ||
    c == '.' || c == '/'

/-- `cleanKey`: every byte that may not stand in an annotation key becomes `_`, so a character
of several UTF-8 bytes becomes as many. -/
def cleanKey (key : String) : String :=
  String.ofList (key.toList.flatMap fun c => if keyChar c then [c] else List.replicate c.utf8Size '_')

/-- `cml.GetAnnotation`. -/
def getAnnotation (key : String) : GoM (Option String) := do
  let some cm ← get | goPanic "runtime error: invalid memory address or nil pointer dereference"
  pure ((cm.Annotations.getD []).lookup (cleanKey key))

/-- `cml.UpdateAnnotation`: set the key in the copy, then Update. -/
def updateAnnotation (key value : String) : GoM Unit := do
  let some cm ← get | throwThe Error notInitialized
  let some anns := cm.Annotations | goPanic "assignment to entry in nil map"
  update { cm with Annotations := some (Map.set anns (cleanKey key) value) }

/-- `cml.RemoveAnnotation`: delete the key from the copy, then Update. -/
def removeAnnotation (key : String) : GoM Unit := do
  let some cm ← get | throwThe Error notInitialized
  update { cm with Annotations := cm.Annotations.map (·.filter (·.1 != cleanKey key)) }

/-- `cml.RemoveAnnotationsWithValue`: delete every key with the value from the copy, then
Update. -/
def removeAnnotationsWithValue (valueToRemove : String) : GoM Unit := do
  let some cm ← get | throwThe Error notInitialized
  update { cm with Annotations := cm.Annotations.map (·.filter (·.2 != valueToRemove)) }

/-- `cml.LoopUpdate`: `Init`, then `f`, again while `f` fails with a conflict; `Init`'s budget
of retries is `fuel`, as is the loop's. -/
def loopUpdate (fuel : Nat) (f : GoM Unit) : Nat → GoM Unit
  | 0 => outOfFuel
  | tries + 1 => do
    init fuel
    match ← attempt f with
    | .ok () => pure ()
    | .error err => if err.isConflict then loopUpdate fuel f tries else throwThe Error err

/-! ## The peer list -/

/-- `KubePeersPrefix` and `KubePeersAnnotationKey`. -/
def KubePeersPrefix : String := "kube-peers.weave.works/"
def KubePeersAnnotationKey : String := KubePeersPrefix ++ "peers"

/-- `peerInfo`. -/
structure PeerInfo where
  PeerName : String
  NodeName : String
  deriving DecidableEq, Repr

/-- `peerList`. -/
structure PeerList where
  Peers : List PeerInfo
  deriving DecidableEq, Repr

namespace PeerList

/-- `pl.contains`. -/
def contains (pl : PeerList) (peerName : String) : Bool := pl.Peers.any (·.PeerName == peerName)

/-- `pl.add`. -/
def add (pl : PeerList) (peerName name : String) : PeerList := ⟨pl.Peers ++ [⟨peerName, name⟩]⟩

/-- `pl.remove`: every entry of the peer goes. -/
def remove (pl : PeerList) (peerNameToRemove : String) : PeerList :=
  ⟨pl.Peers.filter (·.PeerName != peerNameToRemove)⟩

end PeerList

/-- `encoding/json` on a `peerList`. -/
structure Json where
  marshal : PeerList → String
  unmarshal : String → Except String PeerList

/-- `cml.GetPeerList`: the list in the copy, empty when the key is missing. -/
def getPeerList (json : Json) : GoM PeerList := do
  let some cm ← get | throwThe Error notInitialized
  match (cm.Annotations.getD []).lookup KubePeersAnnotationKey with
  | some recordBytes =>
    match json.unmarshal recordBytes with
    | .ok record => pure record
    | .error e => throwThe Error (.other e)
  | none => pure ⟨[]⟩

/-- `cml.UpdatePeerList`. -/
def updatePeerList (json : Json) (list : PeerList) : GoM Unit :=
  updateAnnotation KubePeersAnnotationKey (json.marshal list)

/-- `addMyselfToPeerList`: add the peer to the stored list unless it is there, retrying on a
conflict. The list that Go also returns is only logged, and is left out. -/
def addMyselfToPeerList (json : Json) (fuel : Nat) (peerName name : String) : GoM Unit :=
  loopUpdate fuel (do
    let list ← getPeerList json
    if !list.contains peerName then
      updatePeerList json (list.add peerName name)) fuel

end WeaveNet.KubeUtils
