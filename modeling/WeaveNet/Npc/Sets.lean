import WeaveNet.Npc.Analyser

/-!
# The controller's state and its shared sets

The state of `npc`'s controller (`Controller`): the kernel's ipsets and `filter` table, the state of
each namespace (`Ns`), and the namespace selectors that all namespaces share. Every handler is
a step of `NpcM`, an `EStateM` over this state, so that what a handler changed before an error
stays changed, as it does in Go.

Three kinds of set count their users and provision the kernel object behind a key only for the
first user, removing it with the last: label selectors (`SelectorSet`, an ipset of what they
match), IP blocks with exceptions (an ipset of the exceptions) and rules (their iptables rules).
A selector set also counts, per policy type, the policies for which a selector is a target, and
calls back when the first such policy comes and the last goes. Go keeps the callbacks in the
struct; here they are passed along (`Callbacks`), and a selector set is named by where it lives
(`SetRef`), as it is one namespace's pod selectors or the shared namespace selectors.

A Go map is an association list, iterated in order, with `Lib.Map.set` for assignment.
-/

namespace WeaveNet.Npc

open Lib
open Ipset (ipsetCommand)

/-! ## Kubernetes objects and the kernel -/

/-- `coreapi.Pod`, with the fields `npc` reads. -/
structure Pod where
  UID : String
  Namespace : String
  Name : String
  Labels : List (String × String)
  HostNetwork : Bool
  Phase : String
  PodIP : String
  deriving DecidableEq, Repr

/-- `coreapi.Namespace`, with the fields `npc` reads. -/
structure Namespace where
  UID : String
  Name : String
  Labels : List (String × String)
  deriving DecidableEq, Repr

/-- The chains of the `filter` table, the only table `npc` writes, each with its rules. -/
structure Iptables where
  chains : List (String × List (List String))
  deriving DecidableEq, Repr

namespace Iptables

/-- `iptables.Append`. -/
def append (chain : String) (rulespec : List String) : EStateM String Iptables Unit :=
  modify fun t =>
    { t with chains := Map.set t.chains chain ((t.chains.lookup chain).getD [] ++ [rulespec]) }

/-- `iptables.Delete`: fails when the chain has no such rule. -/
def delete (chain : String) (rulespec : List String) : EStateM String Iptables Unit := fun t =>
  let rules := (t.chains.lookup chain).getD []
  if rulespec ∈ rules then .ok () { t with chains := Map.set t.chains chain (rules.erase rulespec) }
  else
    .error ("running [iptables -t filter -D " ++ chain ++ " " ++ " ".intercalate rulespec ++
      "]: exit status 1: iptables: Bad rule (does a matching rule exist in that chain?).") t

end Iptables

/-! ## Users -/

namespace Users

/-- `users[key][user] = struct{}{}`, making `users[key]` when it is missing. -/
def add (users : List (String × List String)) (key user : String) : List (String × List String) :=
  let us := (users.lookup key).getD []
  Map.set users key (if user ∈ us then us else us ++ [user])

/-- `delete(users[key], user)`: nothing when `users[key]` is missing. -/
def remove (users : List (String × List String)) (key user : String) :
    List (String × List String) :=
  match users.lookup key with
  | some us => Map.set users key (us.erase user)
  | none => users

/-- `len(users[key]) == 0`. -/
def none (users : List (String × List String)) (key : String) : Bool :=
  ((users.lookup key).getD []).isEmpty

end Users

/-! ## The state -/

/-- `type selectorSet struct` without its callbacks: the users of each selector, the selector
itself, and for each selector the number of policies it is a target of, per policy type. -/
structure SelectorSet (S : Type) where
  users : List (String × List String)
  entries : List (String × SelectorSpec S)
  targetSelectorsCount : List (String × List (PolicyType × Int))

/-- `newSelectorSet`. -/
def SelectorSet.empty {S : Type} : SelectorSet S := ⟨[], [], []⟩

/-- `type ns struct`, without its pointers to the kernel and to the namespace selectors. Its
field `namespace` is `namespaceObj`; the sets of IP blocks and of rules are their users maps. -/
structure Ns (L S : Type) where
  name : String
  namespaceObj : Option Namespace
  pods : List (String × Pod)
  policies : List (String × NetworkPolicy L)
  uid : String
  allPods : SelectorSpec S
  ingressDefaultAllowIPSet : String
  egressDefaultAllowIPSet : String
  podSelectors : SelectorSet S
  ipBlocks : List (String × List String)
  rules : List (String × List String)

/-- `type controller struct`, with the kernel it drives and the number of UUIDs drawn. -/
structure Controller (L S : Type) where
  ips : Ipset
  ipt : Iptables
  nss : List (String × Ns L S)
  nsSelectors : SelectorSet S
  uuids : Nat

/-- A step of the controller: it may fail, keeping what it changed. -/
abbrev NpcM (L S : Type) := EStateM String (Controller L S)

section State

variable {L S : Type}

/-- An ipset operation, on the controller's ipsets. -/
def ipsetOp {α : Type} (x : EStateM String Ipset α) : NpcM L S α := fun s =>
  match x s.ips with
  | .ok a ips => .ok a { s with ips }
  | .error e ips => .error e { s with ips }

/-- An iptables operation, on the controller's `filter` table. -/
def iptablesOp {α : Type} (x : EStateM String Iptables α) : NpcM L S α := fun s =>
  match x s.ipt with
  | .ok a ipt => .ok a { s with ipt }
  | .error e ipt => .error e { s with ipt }

/-- The namespace `name`. A handler only runs on a namespace that `withNS` has made. -/
def getNs (name : String) : NpcM L S (Ns L S) := do
  match (← get).nss.lookup name with
  | some ns => pure ns
  | none => throw ("no namespace " ++ name)

/-- Change the namespace `name`. -/
def modifyNs (name : String) (f : Ns L S → Ns L S) : NpcM L S Unit :=
  modify fun s =>
    { s with nss := s.nss.map (fun (n, ns) => if n = name then (n, f ns) else (n, ns)) }

/-- `errors.Wrap`: the error, if any, prefixed with what was being done. -/
def wrap {α : Type} (context : String) (x : NpcM L S α) : NpcM L S α := fun s =>
  match x s with
  | .ok a s => .ok a s
  | .error e s => .error (context ++ ": " ++ e) s

end State

/-! ## Selector sets -/

/-- Which selector set: the pod selectors of a namespace, or the namespace selectors. -/
inductive SetRef where
  | pods (nsName : String)
  | namespaces
  deriving DecidableEq, Repr

/-- The callbacks of a `selectorSet`. -/
structure Callbacks (L S : Type) where
  onNewSelector : SelectorSpec S → NpcM L S Unit
  onNewTargetSelector : SelectorSpec S → PolicyType → NpcM L S Unit
  onDestroyTargetSelector : SelectorSpec S → PolicyType → NpcM L S Unit

section Selectors

variable {L S : Type} (lib : Libs L S)

/-- The selector set named. -/
def SetRef.get : SetRef → NpcM L S (SelectorSet S)
  | .pods nsName => do pure (← getNs nsName).podSelectors
  | .namespaces => do pure (← MonadState.get).nsSelectors

/-- Change the selector set named. -/
def SetRef.modify (ref : SetRef) (f : SelectorSet S → SelectorSet S) : NpcM L S Unit :=
  match ref with
  | .pods nsName => modifyNs nsName fun ns => { ns with podSelectors := f ns.podSelectors }
  | .namespaces => MonadState.modifyGet fun s => ((), { s with nsSelectors := f s.nsSelectors })

/-- `selector.matches`. -/
def labelsMatch (spec : SelectorSpec S) (labelMap : List (String × String)) : Bool :=
  lib.selectorMatches spec.selector labelMap

/-- `ss.targetSelectorsCount[key][policyType]`, zero when missing. -/
def SelectorSet.count (ss : SelectorSet S) (key : String) (pt : PolicyType) : Int :=
  ((ss.targetSelectorsCount.lookup key).bind (·.lookup pt)).getD 0

/-- `selectorSet.targetSelectorExist`. -/
def SelectorSet.targetSelectorExist (ss : SelectorSet S) (spec : SelectorSpec S)
    (pt : PolicyType) : Bool :=
  decide (ss.count spec.key pt > 0)

/-- `ss.targetSelectorsCount[key][policyType] = n`, making the inner map when it is missing. -/
def SelectorSet.setCount (ss : SelectorSet S) (key : String) (pt : PolicyType) (n : Int) :
    SelectorSet S :=
  let counts := Map.set ((ss.targetSelectorsCount.lookup key).getD []) pt n
  { ss with targetSelectorsCount := Map.set ss.targetSelectorsCount key counts }

/-- `selectorSet.addToMatching`: add the entry to every matching selector's ipset; whether a
matching selector is an ingress, and an egress, target. -/
def addToMatching (ref : SetRef) (user : String) (labelMap : List (String × String))
    (entry comment : String) : NpcM L S (Bool × Bool) := do
  let ss ← ref.get
  ss.entries.foldlM (fun (foundIngress, foundEgress) (_, spec) => do
    if labelsMatch lib spec labelMap then
      let foundIngress := foundIngress || ss.targetSelectorExist spec .ingress
      let foundEgress := foundEgress || ss.targetSelectorExist spec .egress
      ipsetOp (Ipset.addEntry ipsetCommand user spec.ipsetName entry comment)
      pure (foundIngress, foundEgress)
    else pure (foundIngress, foundEgress)) (false, false)

/-- `selectorSet.delFromMatching`. -/
def delFromMatching (ref : SetRef) (user : String) (labelMap : List (String × String))
    (entry : String) : NpcM L S Unit := do
  let ss ← ref.get
  ss.entries.forM fun (_, spec) => do
    if labelsMatch lib spec labelMap then ipsetOp (Ipset.delEntry ipsetCommand user spec.ipsetName entry)

/-- `selectorSet.provision`: for each selector desired and not current, make its ipset if it is
new, add the user, and count it as a target for each of its policy types. -/
def SelectorSet.provision (ref : SetRef) (cb : Callbacks L S) (user : String)
    (current desired : List (String × SelectorSpec S)) : NpcM L S Unit :=
  desired.forM fun (key, spec) => do
    if (current.lookup key).isSome then return
    if ((← ref.get).users.lookup key).isNone then
      ipsetOp (Ipset.create ipsetCommand spec.ipsetName spec.ipsetType)
      cb.onNewSelector spec
      ref.modify fun ss => { ss with users := Map.set ss.users key [] }
      ref.modify fun ss => { ss with entries := Map.set ss.entries key spec }
    ref.modify fun ss => { ss with users := Users.add ss.users key user }
    spec.policyTypes.forM fun pt => do
      ref.modify fun ss => ss.setCount key pt (ss.count key pt + 1)
      if (← ref.get).count key pt = 1 then cb.onNewTargetSelector spec pt

/-- `selectorSet.deprovision`: for each selector current and not desired, remove the user,
destroy the ipset with the last user, and uncount it as a target. Go decrements the count in a
map that exists only if the selector was ever counted; writing to a missing one panics. -/
def SelectorSet.deprovision (ref : SetRef) (cb : Callbacks L S) (user : String)
    (current desired : List (String × SelectorSpec S)) : NpcM L S Unit :=
  current.forM fun (key, spec) => do
    if (desired.lookup key).isSome then return
    ref.modify fun ss => { ss with users := Users.remove ss.users key user }
    if Users.none (← ref.get).users key then
      ipsetOp (Ipset.destroy ipsetCommand spec.ipsetName)
      ref.modify fun ss => { ss with entries := ss.entries.filter (·.1 ≠ key) }
      ref.modify fun ss => { ss with users := ss.users.filter (·.1 ≠ key) }
    spec.policyTypes.forM fun pt => do
      if ((← ref.get).targetSelectorsCount.lookup key).isNone then
        throw "assignment to entry in nil map"
      ref.modify fun ss => ss.setCount key pt (ss.count key pt - 1)
      if (← ref.get).count key pt = 0 then cb.onDestroyTargetSelector spec pt

end Selectors

/-! ## IP blocks and rules -/

section Others

variable {L S : Type}

/-- `ipBlockSet.provision`: an IP block without exceptions needs no ipset. -/
def ipBlocksProvision (nsName user : String) (current desired : List (String × IPBlockSpec)) :
    NpcM L S Unit :=
  desired.forM fun (key, spec) => do
    if key = "" then return
    if (current.lookup key).isSome then return
    if ((← getNs nsName).ipBlocks.lookup key).isNone then
      ipsetOp (Ipset.create ipsetCommand spec.ipsetName .hashNet)
      let comment := "excepted from " ++ spec.ipBlock.CIDR
      spec.ipBlock.Except.forM fun cidr => ipsetOp (Ipset.addEntry ipsetCommand user spec.ipsetName cidr comment)
      modifyNs nsName fun ns => { ns with ipBlocks := Map.set ns.ipBlocks key [] }
    modifyNs nsName fun ns => { ns with ipBlocks := Users.add ns.ipBlocks key user }

/-- `ipBlockSet.deprovision`. -/
def ipBlocksDeprovision (nsName user : String) (current desired : List (String × IPBlockSpec)) :
    NpcM L S Unit :=
  current.forM fun (key, spec) => do
    if key = "" then return
    if (desired.lookup key).isSome then return
    modifyNs nsName fun ns => { ns with ipBlocks := Users.remove ns.ipBlocks key user }
    if Users.none (← getNs nsName).ipBlocks key then
      ipsetOp (Ipset.destroy ipsetCommand spec.ipsetName)
      modifyNs nsName fun ns => { ns with ipBlocks := ns.ipBlocks.filter (·.1 ≠ key) }

/-- `ruleSet.provision`: a rule's iptables rules are appended for its first user. -/
def rulesProvision (nsName user : String) (current desired : List (String × RuleSpec)) :
    NpcM L S Unit :=
  desired.forM fun (key, spec) => do
    if (current.lookup key).isSome then return
    if ((← getNs nsName).rules.lookup key).isNone then
      spec.iptRuleSpecs.forM fun rule => iptablesOp (Iptables.append spec.iptChain rule)
      modifyNs nsName fun ns => { ns with rules := Map.set ns.rules key [] }
    modifyNs nsName fun ns => { ns with rules := Users.add ns.rules key user }

/-- `ruleSet.deprovision`: a rule's iptables rules are deleted with its last user. -/
def rulesDeprovision (nsName user : String) (current desired : List (String × RuleSpec)) :
    NpcM L S Unit :=
  current.forM fun (key, spec) => do
    if (desired.lookup key).isSome then return
    modifyNs nsName fun ns => { ns with rules := Users.remove ns.rules key user }
    if Users.none (← getNs nsName).rules key then
      spec.iptRuleSpecs.forM fun rule => iptablesOp (Iptables.delete spec.iptChain rule)
      modifyNs nsName fun ns => { ns with rules := ns.rules.filter (·.1 ≠ key) }

end Others

end WeaveNet.Npc
