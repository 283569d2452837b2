import WeaveNet.Npc.Sets

/-!
# The network-policy controller

The handlers of `npc/namespace.go` and `npc/controller.go`. Each Kubernetes event goes to the
namespace it names (`withNS`), which is made on its first event and dropped when it has no pod,
no policy and no namespace object left. A namespace keeps:

* an ipset of all its pods (`allPods`), and an ipset per pod selector of the pods it matches;
* two "default-allow" ipsets, of the pods that the target selector of no policy of the
  namespace matches for ingress, and for egress;
* the rules, IP blocks and selectors its policies need, each provisioned once for all its users.

A pod's event updates the ipsets of the selectors that match it and the default-allow sets; a
policy's event provisions and deprovisions what its analysis (`analysePolicy`) needs, and the
selector set's callbacks move the matching pods in and out of the default-allow sets when a
selector becomes, or stops being, a target.

`Event` lists the controller's entry points, and `Controller.run` runs a sequence of them, each from the
state the last one left, whether it failed or not.
-/

namespace WeaveNet.Npc

open Lib
open Ipset (ipsetCommand)

/-! ## Pods and namespaces -/

/-- `hasIP`: "Ensure pod isn't dead, has an IP address and isn't sharing the host network
namespace". -/
def hasIP (pod : Pod) : Bool :=
  pod.Phase != "Succeeded" && pod.Phase != "Failed" && pod.PodIP.length > 0 && !pod.HostNetwork

/-- `equals` of two label maps: a key missing from `b` reads as the empty string. -/
def equals (a b : List (String × String)) : Bool :=
  a.length == b.length && a.all (fun (ak, av) => (b.lookup ak).getD "" == av)

/-- `namespaceComment`. -/
def namespaceComment {L S : Type} (ns : Ns L S) : String := "namespace: " ++ ns.name

/-- `podComment`. -/
def podComment (pod : Pod) : String := "namespace: " ++ pod.Namespace ++ ", pod: " ++ pod.Name

/-- `ns.defaultAllowIPSetName`. -/
def Ns.defaultAllowIPSetName {L S : Type} (ns : Ns L S) (pt : PolicyType) : String :=
  if pt = .egress then ns.egressDefaultAllowIPSet else ns.ingressDefaultAllowIPSet

/-- `ns.empty`. -/
def Ns.empty {L S : Type} (ns : Ns L S) : Bool :=
  ns.pods.isEmpty && ns.policies.isEmpty && ns.namespaceObj.isNone

/-- `DefaultChain` and `EgressDefaultChain`. -/
def DefaultChain : String := "WEAVE-NPC-DEFAULT"
def EgressDefaultChain : String := "WEAVE-NPC-EGRESS-DEFAULT"

/-- `bypassRules`: the rules that let the default-allow sets through, by chain. -/
def bypassRules (nsName ingress egress : String) : List (String × List (List String)) :=
  [(DefaultChain,
      [["-m", "set", "--match-set", ingress, "dst", "-j", "ACCEPT",
        "-m", "comment", "--comment", "DefaultAllow ingress isolation for namespace: " ++ nsName]]),
    (EgressDefaultChain,
      [["-m", "set", "--match-set", egress, "src", "-j", EgressMarkChain,
        "-m", "comment", "--comment", "DefaultAllow egress isolation for namespace: " ++ nsName],
       ["-m", "set", "--match-set", egress, "src", "-j", "RETURN",
        "-m", "comment", "--comment", "DefaultAllow egress isolation for namespace: " ++ nsName]])]

section Handlers

variable {L S : Type} (lib : Libs L S)

/-- A computation that cannot touch the state, such as the analysis of a policy. -/
def liftExcept {α : Type} : Except String α → NpcM L S α
  | .ok a => pure a
  | .error e => throw e

/-! ## The callbacks of a namespace's pod selectors -/

/-- `ns.addToDefaultAllowIfNoMatching`: "Add pod IP addr to default-allow ipset if there are no
matching target selectors". -/
def addToDefaultAllowIfNoMatching (nsName : String) (pod : Pod) (pt : PolicyType) :
    NpcM L S Unit := do
  let ns ← getNs nsName
  let found := ns.podSelectors.entries.any fun (_, s) =>
    ns.podSelectors.targetSelectorExist s pt && labelsMatch lib s pod.Labels
  if !found then
    ipsetOp (Ipset.addEntry ipsetCommand pod.UID (ns.defaultAllowIPSetName pt) pod.PodIP (podComment pod))

/-- `ns.onNewPodSelector`: fill a new selector's ipset with the pods it matches. -/
def onNewPodSelector (nsName : String) (spec : SelectorSpec S) : NpcM L S Unit := do
  let ns ← getNs nsName
  ns.pods.forM fun (_, pod) => do
    if hasIP pod && labelsMatch lib spec pod.Labels then
      ipsetOp (Ipset.addEntry ipsetCommand pod.UID spec.ipsetName pod.PodIP (podComment pod))

/-- `ns.onNewTargetPodSelector`: "Remove the pod from default-allow if dst podselector matches
the pod". -/
def onNewTargetPodSelector (nsName : String) (spec : SelectorSpec S) (pt : PolicyType) :
    NpcM L S Unit := do
  let ns ← getNs nsName
  ns.pods.forM fun (_, pod) => do
    if hasIP pod && labelsMatch lib spec pod.Labels then
      ipsetOp (Ipset.delEntry ipsetCommand pod.UID (ns.defaultAllowIPSetName pt) pod.PodIP)

/-- `ns.onDestroyTargetPodSelector`: the pods the selector matched go back to default-allow
unless another target selector matches them. -/
def onDestroyTargetPodSelector (nsName : String) (spec : SelectorSpec S) (pt : PolicyType) :
    NpcM L S Unit := do
  let ns ← getNs nsName
  ns.pods.forM fun (_, pod) => do
    if hasIP pod && labelsMatch lib spec pod.Labels then
      addToDefaultAllowIfNoMatching lib nsName pod pt

/-- The callbacks `newNS` gives its pod selectors. -/
def podCallbacks (nsName : String) : Callbacks L S :=
  ⟨onNewPodSelector lib nsName, onNewTargetPodSelector lib nsName, onDestroyTargetPodSelector lib nsName⟩

/-- `controller.onNewNsSelector`: fill a new namespace selector's `list:set` with the pod
ipsets of the namespaces it matches. -/
def onNewNsSelector (spec : SelectorSpec S) : NpcM L S Unit := do
  (← get).nss.forM fun (_, ns) => do
    match ns.namespaceObj with
    | some obj =>
      if labelsMatch lib spec obj.Labels then
        ipsetOp (Ipset.addEntry ipsetCommand obj.UID spec.ipsetName ns.allPods.ipsetName (namespaceComment ns))
    | none => pure ()

/-- The callbacks `New` gives the namespace selectors: nothing is done for targets. -/
def nsCallbacks : Callbacks L S :=
  ⟨onNewNsSelector lib, fun _ _ => pure (), fun _ _ => pure ()⟩

/-! ## Making and dropping a namespace -/

/-- `newNS`: the namespace's default-allow ipsets, and its `allPods` selector provisioned for the
namespace's own UID. Go adds the namespace to the controller only when this succeeds; here it
is added for the provisioning, whose callbacks look it up, and taken out again on an error. -/
def newNS (name : String) : NpcM L S Unit := do
  let allPods ← liftExcept (newSelectorSpec lib lib.emptyLabelSelector [] name .hashIP)
  let uid := lib.newUUID (← get).uuids
  modify fun s => { s with uuids := s.uuids + 1 }
  let ingressDefaultAllowIPSet := IpsetNamePrefix ++ shortName lib.sha1 ("ingress-default-allow:" ++ name)
  ipsetOp (Ipset.create ipsetCommand ingressDefaultAllowIPSet .hashIP)
  let egressDefaultAllowIPSet := IpsetNamePrefix ++ shortName lib.sha1 ("egress-default-allow:" ++ name)
  ipsetOp (Ipset.create ipsetCommand egressDefaultAllowIPSet .hashIP)
  let ns : Ns L S := ⟨name, none, [], [], uid, allPods, ingressDefaultAllowIPSet,
    egressDefaultAllowIPSet, .empty, [], []⟩
  modify fun s => { s with nss := Map.set s.nss name ns }
  fun s =>
    match SelectorSet.provision (.pods name) (podCallbacks lib name) uid []
        [(allPods.key, allPods)] s with
    | .ok () s => .ok () s
    | .error e s => .error e { s with nss := s.nss.filter (·.1 ≠ name) }

/-- `ns.destroy`: deprovision the `allPods` selector. The default-allow ipsets stay. -/
def destroy (nsName : String) : NpcM L S Unit := do
  let ns ← getNs nsName
  SelectorSet.deprovision (.pods nsName) (podCallbacks lib nsName) ns.uid
    [(ns.allPods.key, ns.allPods)] []

/-- `controller.withNS`: run `f` on the namespace, making it first if need be, and drop it if it
is left empty. -/
def withNS (name : String) (f : NpcM L S Unit) : NpcM L S Unit := do
  if ((← get).nss.lookup name).isNone then newNS lib name
  f
  if (← getNs name).empty then
    destroy lib name
    modify fun s => { s with nss := s.nss.filter (·.1 ≠ name) }

/-! ## Pods -/

/-- `ns.addPod`. -/
def addPod (nsName : String) (obj : Pod) : NpcM L S Unit := do
  modifyNs nsName fun ns => { ns with pods := Map.set ns.pods obj.UID obj }
  if !hasIP obj then return
  let (foundIngress, foundEgress) ←
    addToMatching lib (.pods nsName) obj.UID obj.Labels obj.PodIP (podComment obj)
  let ns ← getNs nsName
  -- "If there are no matching target selectors, add the pod to default-allow"
  if !foundIngress then
    ipsetOp (Ipset.addEntry ipsetCommand obj.UID ns.ingressDefaultAllowIPSet obj.PodIP (podComment obj))
  if !foundEgress then
    ipsetOp (Ipset.addEntry ipsetCommand obj.UID ns.egressDefaultAllowIPSet obj.PodIP (podComment obj))

/-- `ns.updateDefaultAllowIPSetEntry`: move the pod's entry to its new IP, if the old one was in
the set. -/
def updateDefaultAllowIPSetEntry (oldObj newObj : Pod) (ipsetName : String) : NpcM L S Unit := do
  if Ipset.exist (← get).ips oldObj.UID ipsetName oldObj.PodIP then
    ipsetOp (Ipset.delEntry ipsetCommand oldObj.UID ipsetName oldObj.PodIP)
    ipsetOp (Ipset.addEntry ipsetCommand newObj.UID ipsetName newObj.PodIP (podComment newObj))

/-- `ns.addOrRemoveToDefaultAllowIPSet`: when a target selector starts matching the pod, take
its old IP out of default-allow; when one stops, put the pod back unless another matches. -/
def addOrRemoveToDefaultAllowIPSet (nsName : String) (ps : SelectorSpec S) (oldObj newObj : Pod)
    (oldMatch newMatch : Bool) (pt : PolicyType) : NpcM L S Unit := do
  let ns ← getNs nsName
  let ipset := ns.defaultAllowIPSetName pt
  if ns.podSelectors.targetSelectorExist ps pt then
    if !oldMatch && newMatch then ipsetOp (Ipset.delEntry ipsetCommand oldObj.UID ipset oldObj.PodIP)
    else if oldMatch && !newMatch then addToDefaultAllowIfNoMatching lib nsName newObj pt

/-- `ns.updatePod`. -/
def updatePod (nsName : String) (oldObj newObj : Pod) : NpcM L S Unit := do
  modifyNs nsName fun ns =>
    { ns with pods := Map.set (ns.pods.filter (·.1 ≠ oldObj.UID)) newObj.UID newObj }
  if !hasIP oldObj && !hasIP newObj then return
  let ns ← getNs nsName
  if hasIP oldObj && !hasIP newObj then
    ipsetOp (Ipset.delEntry ipsetCommand oldObj.UID ns.ingressDefaultAllowIPSet oldObj.PodIP)
    ipsetOp (Ipset.delEntry ipsetCommand oldObj.UID ns.egressDefaultAllowIPSet oldObj.PodIP)
    delFromMatching lib (.pods nsName) oldObj.UID oldObj.Labels oldObj.PodIP
    return
  if !hasIP oldObj && hasIP newObj then
    let (foundIngress, foundEgress) ←
      addToMatching lib (.pods nsName) newObj.UID newObj.Labels newObj.PodIP (podComment newObj)
    if !foundIngress then
      ipsetOp (Ipset.addEntry ipsetCommand newObj.UID ns.ingressDefaultAllowIPSet newObj.PodIP (podComment newObj))
    if !foundEgress then
      ipsetOp (Ipset.addEntry ipsetCommand newObj.UID ns.egressDefaultAllowIPSet newObj.PodIP (podComment newObj))
    return
  if oldObj.PodIP != newObj.PodIP then
    updateDefaultAllowIPSetEntry oldObj newObj ns.ingressDefaultAllowIPSet
    updateDefaultAllowIPSetEntry oldObj newObj ns.egressDefaultAllowIPSet
  if !equals oldObj.Labels newObj.Labels || oldObj.PodIP != newObj.PodIP then
    (← getNs nsName).podSelectors.entries.forM fun (_, ps) => do
      let oldMatch := labelsMatch lib ps oldObj.Labels
      let newMatch := labelsMatch lib ps newObj.Labels
      if oldMatch == newMatch && oldObj.PodIP == newObj.PodIP then return
      if oldMatch then ipsetOp (Ipset.delEntry ipsetCommand oldObj.UID ps.ipsetName oldObj.PodIP)
      if newMatch then
        ipsetOp (Ipset.addEntry ipsetCommand newObj.UID ps.ipsetName newObj.PodIP (podComment newObj))
      addOrRemoveToDefaultAllowIPSet lib nsName ps oldObj newObj oldMatch newMatch .ingress
      addOrRemoveToDefaultAllowIPSet lib nsName ps oldObj newObj oldMatch newMatch .egress

/-- `ns.deletePod`. -/
def deletePod (nsName : String) (obj : Pod) : NpcM L S Unit := do
  modifyNs nsName fun ns => { ns with pods := ns.pods.filter (·.1 ≠ obj.UID) }
  if !hasIP obj then return
  let ns ← getNs nsName
  ipsetOp (Ipset.delEntry ipsetCommand obj.UID ns.ingressDefaultAllowIPSet obj.PodIP)
  ipsetOp (Ipset.delEntry ipsetCommand obj.UID ns.egressDefaultAllowIPSet obj.PodIP)
  delFromMatching lib (.pods nsName) obj.UID obj.Labels obj.PodIP

/-! ## Network policies -/

/-- `ns.analyse`: record the policy under its UID, then analyse it. Go also takes an
`extensions/v1beta1` policy, whose analysis would then fail its type assertion; the model takes
`networking/v1` policies only. -/
def analyse (nsName : String) (obj : NetworkPolicy L) : NpcM L S (String × Analysis S) := do
  modifyNs nsName fun ns => { ns with policies := Map.set ns.policies obj.UID obj }
  let a ← liftExcept (analysePolicy lib nsName obj)
  pure (obj.UID, a)

/-- `ns.addNetworkPolicy`: "Provision required resources in dependency order". -/
def addNetworkPolicy (nsName : String) (obj : NetworkPolicy L) : NpcM L S Unit := do
  let (uid, a) ← analyse lib nsName obj
  SelectorSet.provision .namespaces (nsCallbacks lib) uid [] a.nsSelectors
  SelectorSet.provision (.pods nsName) (podCallbacks lib nsName) uid [] a.podSelectors
  ipBlocksProvision nsName uid [] a.ipBlocks
  rulesProvision nsName uid [] a.rules

/-- `ns.updateNetworkPolicy`: "Deprovision unused and provision newly required resources in
dependency order", by key, for the old policy's UID. -/
def updateNetworkPolicy (nsName : String) (oldObj newObj : NetworkPolicy L) : NpcM L S Unit := do
  let (oldUID, old) ← analyse lib nsName oldObj
  let (newUID, new) ← analyse lib nsName newObj
  modifyNs nsName fun ns =>
    { ns with policies := Map.set (ns.policies.filter (·.1 ≠ oldUID)) newUID newObj }
  rulesDeprovision nsName oldUID old.rules new.rules
  SelectorSet.deprovision .namespaces (nsCallbacks lib) oldUID old.nsSelectors new.nsSelectors
  SelectorSet.deprovision (.pods nsName) (podCallbacks lib nsName) oldUID old.podSelectors
    new.podSelectors
  ipBlocksDeprovision nsName oldUID old.ipBlocks new.ipBlocks
  SelectorSet.provision .namespaces (nsCallbacks lib) oldUID old.nsSelectors new.nsSelectors
  SelectorSet.provision (.pods nsName) (podCallbacks lib nsName) oldUID old.podSelectors
    new.podSelectors
  ipBlocksProvision nsName oldUID old.ipBlocks new.ipBlocks
  rulesProvision nsName oldUID old.rules new.rules

/-- `ns.deleteNetworkPolicy`: "Deprovision unused resources in dependency order". -/
def deleteNetworkPolicy (nsName : String) (obj : NetworkPolicy L) : NpcM L S Unit := do
  let (uid, a) ← analyse lib nsName obj
  modifyNs nsName fun ns => { ns with policies := ns.policies.filter (·.1 ≠ uid) }
  rulesDeprovision nsName uid a.rules []
  SelectorSet.deprovision .namespaces (nsCallbacks lib) uid a.nsSelectors []
  SelectorSet.deprovision (.pods nsName) (podCallbacks lib nsName) uid a.podSelectors []
  ipBlocksDeprovision nsName uid a.ipBlocks []

/-! ## Namespaces -/

/-- `ns.ensureBypassRules`. -/
def ensureBypassRules (nsName : String) : NpcM L S Unit := do
  let ns ← getNs nsName
  (bypassRules ns.name ns.ingressDefaultAllowIPSet ns.egressDefaultAllowIPSet).forM
    fun (chain, rules) => rules.forM fun rule => iptablesOp (Iptables.append chain rule)

/-- `ns.deleteBypassRules`. -/
def deleteBypassRules (nsName : String) : NpcM L S Unit := do
  let ns ← getNs nsName
  (bypassRules ns.name ns.ingressDefaultAllowIPSet ns.egressDefaultAllowIPSet).forM
    fun (chain, rules) => rules.forM fun rule => iptablesOp (Iptables.delete chain rule)

/-- `ns.addNamespace`: "Insert a rule to bypass policies", and "Add namespace ipset to matching
namespace selectors". -/
def addNamespace (nsName : String) (obj : Namespace) : NpcM L S Unit := do
  modifyNs nsName fun ns => { ns with namespaceObj := some obj }
  ensureBypassRules nsName
  let ns ← getNs nsName
  let _ ← addToMatching lib .namespaces obj.UID obj.Labels ns.allPods.ipsetName (namespaceComment ns)

/-- `ns.updateNamespace`: "Re-evaluate namespace selector membership if labels have changed". -/
def updateNamespace (nsName : String) (oldObj newObj : Namespace) : NpcM L S Unit := do
  modifyNs nsName fun ns => { ns with namespaceObj := some newObj }
  if !equals oldObj.Labels newObj.Labels then
    let ns ← getNs nsName
    (← get).nsSelectors.entries.forM fun (_, selector) => do
      let oldMatch := labelsMatch lib selector oldObj.Labels
      let newMatch := labelsMatch lib selector newObj.Labels
      if oldMatch == newMatch then return
      if oldMatch then
        ipsetOp (Ipset.delEntry ipsetCommand newObj.UID selector.ipsetName ns.allPods.ipsetName)
      if newMatch then
        ipsetOp (Ipset.addEntry ipsetCommand newObj.UID selector.ipsetName ns.allPods.ipsetName
          (namespaceComment ns))

/-- `ns.deleteNamespace`: "Remove bypass rule", "Remove namespace ipset from any matching
namespace selectors", and destroy the default-allow ipsets. -/
def deleteNamespace (nsName : String) (obj : Namespace) : NpcM L S Unit := do
  modifyNs nsName fun ns => { ns with namespaceObj := none }
  deleteBypassRules nsName
  let ns ← getNs nsName
  delFromMatching lib .namespaces obj.UID obj.Labels ns.allPods.ipsetName
  ipsetOp (Ipset.destroy ipsetCommand ns.ingressDefaultAllowIPSet)
  ipsetOp (Ipset.destroy ipsetCommand ns.egressDefaultAllowIPSet)

end Handlers

/-! ## The controller -/

/-- The entry points of `NetworkPolicyController`. -/
inductive Event (L : Type) where
  | addNamespace (obj : Namespace)
  | updateNamespace (oldObj newObj : Namespace)
  | deleteNamespace (obj : Namespace)
  | addPod (obj : Pod)
  | updatePod (oldObj newObj : Pod)
  | deletePod (obj : Pod)
  | addNetworkPolicy (obj : NetworkPolicy L)
  | updateNetworkPolicy (oldObj newObj : NetworkPolicy L)
  | deleteNetworkPolicy (obj : NetworkPolicy L)

section Run

variable {L S : Type} (lib : Libs L S)

/-- `controller.AddNamespace` and the other entry points: the namespace the object names,
and the handler, its error wrapped with the event's name. -/
def handle : Event L → NpcM L S Unit
  | .addNamespace obj => withNS lib obj.Name (wrap "add namespace" (addNamespace lib obj.Name obj))
  | .updateNamespace oldObj newObj =>
    withNS lib oldObj.Name (wrap "update namespace" (updateNamespace lib oldObj.Name oldObj newObj))
  | .deleteNamespace obj =>
    withNS lib obj.Name (wrap "delete namespace" (deleteNamespace lib obj.Name obj))
  | .addPod obj => withNS lib obj.Namespace (wrap "add pod" (addPod lib obj.Namespace obj))
  | .updatePod oldObj newObj =>
    withNS lib oldObj.Namespace (wrap "update pod" (updatePod lib oldObj.Namespace oldObj newObj))
  | .deletePod obj => withNS lib obj.Namespace (wrap "delete pod" (deletePod lib obj.Namespace obj))
  | .addNetworkPolicy obj =>
    withNS lib obj.Namespace (wrap "add network policy" (addNetworkPolicy lib obj.Namespace obj))
  | .updateNetworkPolicy oldObj newObj =>
    withNS lib oldObj.Namespace
      (wrap "update network policy" (updateNetworkPolicy lib oldObj.Namespace oldObj newObj))
  | .deleteNetworkPolicy obj =>
    withNS lib obj.Namespace
      (wrap "delete network policy" (deleteNetworkPolicy lib obj.Namespace obj))

/-- `New`: no namespace yet, over the kernel's ipsets and rules as they are. -/
def Controller.new (ips : Ipset) (ipt : Iptables) : Controller L S := ⟨ips, ipt, [], .empty, 0⟩

/-- One event: what it returned, and the state it left. -/
def Controller.step (s : Controller L S) (ev : Event L) : Except String Unit × Controller L S :=
  match handle lib ev s with
  | .ok () s => (.ok (), s)
  | .error e s => (.error e, s)

/-- A sequence of events, each handled from the state the one before left: what each returned,
and the last state. -/
def Controller.run : Controller L S → List (Event L) → List (Except String Unit) × Controller L S
  | s, [] => ([], s)
  | s, ev :: evs =>
    let (r, s) := s.step lib ev
    let (rs, s) := Controller.run s evs
    (r :: rs, s)

end Run

/-! ## A pod that is relabelled and moved -/

/-- A policy of the namespace `default` that isolates the pods labelled `app=web` for ingress. -/
def webPolicy : NetworkPolicy (List (String × String)) where
  UID := "web-policy-uid"
  Namespace := "default"
  Name := "web-ingress"
  Spec := { PodSelector := [("app", "web")], Ingress := [], Egress := [], PolicyTypes := [.Ingress] }

/-- The pod `web-0`, unlabelled, at `10.32.0.1`. -/
def webPod : Pod := ⟨"web-0-uid", "default", "web-0", [], false, "Running", "10.32.0.1"⟩

/-- The namespace and the policy come; the pod comes, and in one update gets the label
`app=web` and the IP `10.32.0.2`. -/
def relabelTrace : List (Event (List (String × String))) :=
  [.addNamespace ⟨"default-uid", "default", []⟩, .addNetworkPolicy webPolicy, .addPod webPod,
    .updatePod webPod { webPod with Labels := [("app", "web")], PodIP := "10.32.0.2" }]

/-- Every event of `relabelTrace` succeeds, and the pod's new IP is both in the ipset of the
policy's target selector and in the namespace's ingress default-allow ipset: the policy does not
isolate the pod. `updatePod` moves the default-allow entry to the new IP first, then, as the
target selector starts to match, deletes the old IP, which is no longer there. -/
theorem relabelTrace_default_allow :
    let run := (Controller.new ⟨[], true, 0, []⟩ ⟨[]⟩).run Libs.matchLabels relabelTrace
    run.1 = [.ok (), .ok (), .ok (), .ok ()] ∧
      run.2.ips.kernel.lookup (IpsetNamePrefix ++ shortName sha1Sum "default:app=web") =
        some ["10.32.0.2"] ∧
      run.2.ips.kernel.lookup (IpsetNamePrefix ++ shortName sha1Sum "ingress-default-allow:default") =
        some ["10.32.0.2"] := by
  decide +kernel

end WeaveNet.Npc
