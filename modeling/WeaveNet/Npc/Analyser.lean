import WeaveNet.Lib.Loop
import WeaveNet.Npc.Rule

/-!
# Analysing a network policy

`ns.analysePolicy` turns a `NetworkPolicy` into the rule specs, selectors and IP blocks it needs,
each in a map keyed by its text. Its ingress and egress halves are loops over the policy's
rules and, within a rule, over its peers; a peer is read the same way in both halves
(`analysePeer`), and each half then adds the rules of one peer (`ingressRules`,
`egressRules`).

What a policy rule means for one peer is stated by `peerRules`: a rule with the peer's own host
for all ports, or one for each port listed. The egress half adds exactly these
(`egressRules_eq_peerRules`); the ingress half adds them when no port is listed or the peer is a
selector (`ingressRules_eq_peerRules`). For a peer with listed ports, though, the ingress half
builds the rule from the peer's selector, not from its rule host, and the selector of an IP
block is `nil`: the rules are those of a peer with no host, from anywhere
(`ingressRules_ipBlock`).

Of a successful analysis, the rules of every peer of every rule are present
(`analysePolicy_ingress`, `analysePolicy_egress`): a rule, once added, is only ever replaced by
one with the same key, so what is shown is that its key is among the keys of the result. For
an IP block, the egress rules keep the block (`analysePolicy_egress_ipBlock`) and the ingress
rules with ports do not (`analysePolicy_ingress_ipBlock`).
-/

namespace WeaveNet.Npc

open Lib

/-! ## The policy objects -/

/-- `networkingv1.PolicyType`. -/
inductive NetworkPolicyType where
  | Ingress
  | Egress
  deriving DecidableEq, Repr

/-- `intstr.IntOrString`. -/
inductive IntOrString where
  | int (IntVal : Int)
  | string (StrVal : String)
  deriving DecidableEq, Repr

/-- `networkingv1.NetworkPolicyPort`: a `nil` protocol or port is `none`. -/
structure NetworkPolicyPort where
  Protocol : Option String
  Port : Option IntOrString
  deriving DecidableEq, Repr

/-- `networkingv1.NetworkPolicyPeer`: "exactly one of its fields must be specified". -/
structure NetworkPolicyPeer (L : Type) where
  PodSelector : Option L
  NamespaceSelector : Option L
  IPBlock : Option IPBlock

/-- `networkingv1.NetworkPolicyIngressRule`. -/
structure NetworkPolicyIngressRule (L : Type) where
  Ports : List NetworkPolicyPort
  From : List (NetworkPolicyPeer L)

/-- `networkingv1.NetworkPolicyEgressRule`. -/
structure NetworkPolicyEgressRule (L : Type) where
  Ports : List NetworkPolicyPort
  To : List (NetworkPolicyPeer L)

/-- `networkingv1.NetworkPolicySpec`. -/
structure NetworkPolicySpec (L : Type) where
  PodSelector : L
  Ingress : List (NetworkPolicyIngressRule L)
  Egress : List (NetworkPolicyEgressRule L)
  PolicyTypes : List NetworkPolicyType

/-- `networkingv1.NetworkPolicy`, with the fields of its metadata that are read. -/
structure NetworkPolicy (L : Type) where
  UID : String
  Namespace : String
  Name : String
  Spec : NetworkPolicySpec L

/-! ## Ports -/

/-- `proto`: "If no proto is specified, default to TCP". -/
def proto (p : Option String) : String := p.getD "TCP"

/-- `port`: "If no port is specified, match any port". -/
def port : Option IntOrString → String
  | none => "0:65535"
  | some (.int IntVal) => toString IntVal
  | some (.string StrVal) => StrVal

/-- `checkForNamedPorts`: the first port given by name is an error. -/
def checkForNamedPorts : List NetworkPolicyPort → Except String Unit
  | [] => pure ()
  | npProtocolPort :: ports =>
    match npProtocolPort.Port with
    | some (.string StrVal) =>
      throw ("named port " ++ port (some (.string StrVal)) ++ " in network policy")
    | _ => checkForNamedPorts ports

/-- The error `analysePolicy` returns for a named port. Go builds it with `fmt.Errorf` from a
format to which the port's own error is appended; a port name has no `%` (Kubernetes allows
only letters, digits and `-` in one), so the format is plain text. -/
def namedPortsError (policyName err : String) : String :=
  "named ports in network policies is not supported yet. " ++
    "Rejecting network policy: " ++ policyName ++ " from further processing. " ++ err

/-- The check at the head of both halves' turn for a rule: "named ports in network policies is
not supported yet". -/
def checkPorts (policyName : String) (ports : List NetworkPolicyPort) : Except String Unit :=
  if !ports.isEmpty then
    match checkForNamedPorts ports with
    | .error err => throw (namedPortsError policyName err)
    | .ok () => pure ()
  else pure ()

/-- `withNormalisedProtoAndPort`: the rule that `f` builds for each port. Go calls `f` for its
effect of adding the rule; here the rules are returned, to be added by the caller. -/
def withNormalisedProtoAndPort (npps : List NetworkPolicyPort) (f : String → String → RuleSpec) :
    List RuleSpec :=
  npps.map (fun npp => f (proto npp.Protocol) (port npp.Port))

/-! ## The analysis -/

section Analysis

variable {L S : Type}

/-- The four maps `analysePolicy` returns. -/
structure Analysis (S : Type) where
  rules : List (String × RuleSpec)
  nsSelectors : List (String × SelectorSpec S)
  podSelectors : List (String × SelectorSpec S)
  ipBlocks : List (String × IPBlockSpec)

/-- `addIfNotExist`: a selector already present keeps its policy types. -/
def addIfNotExist (s : SelectorSpec S) (ss : List (String × SelectorSpec S)) :
    List (String × SelectorSpec S) :=
  if (ss.lookup s.key).isSome then ss else Map.set ss s.key s

/-- `rules[rule.key] = rule` for each rule in turn. -/
def Analysis.addRules (a : Analysis S) (rules : List RuleSpec) : Analysis S :=
  { a with rules := Map.setAll RuleSpec.key a.rules rules }

/-- The branch on a `NetworkPolicyPeer` that both halves of `analysePolicy` make: record the
peer's selector or IP block and return the peer's selector (`nil` for an IP block) and its rule
host (`nil` when no field is set). -/
def analysePeer (lib : Libs L S) (nsName : String) (a : Analysis S) (peer : NetworkPolicyPeer L) :
    Except String (Analysis S × Option (SelectorSpec S) × Option (RuleHost S)) :=
  match peer.PodSelector, peer.NamespaceSelector, peer.IPBlock with
  | some podSelector, _, _ => do
    let selector ← newSelectorSpec lib podSelector [] nsName .hashIP
    pure ({ a with podSelectors := addIfNotExist selector a.podSelectors },
      some selector, some (.selector selector))
  | none, some nsSelector, _ => do
    let selector ← newSelectorSpec lib nsSelector [] "" .listSet
    pure ({ a with nsSelectors := Map.set a.nsSelectors selector.key selector },
      some selector, some (.selector selector))
  | none, none, some ipb =>
    let ipBlock := newIPBlockSpec lib ipb nsName
    pure ({ a with ipBlocks := Map.set a.ipBlocks ipBlock.key ipBlock }, none, some (.ipBlock ipBlock))
  | none, none, none => pure (a, none, none)

/-- The ingress rules of one peer: one for all ports, or one for each port listed. With ports,
Go passes `srcSelector` to `newRuleSpec` where the all-ports case passes `srcRuleHost`. -/
def ingressRules (ports : List NetworkPolicyPort) (target : SelectorSpec S)
    (srcSelector : Option (SelectorSpec S)) (srcRuleHost : Option (RuleHost S)) : List RuleSpec :=
  if ports.isEmpty then [newRuleSpec .ingress none srcRuleHost (some (.selector target)) none]
  else
    withNormalisedProtoAndPort ports (fun proto port =>
      newRuleSpec .ingress (some proto) (srcSelector.map .selector) (some (.selector target))
        (some port))

/-- The egress rules of one peer: one for all ports, or one for each port listed. -/
def egressRules (ports : List NetworkPolicyPort) (target : SelectorSpec S)
    (dstRuleHost : Option (RuleHost S)) : List RuleSpec :=
  if ports.isEmpty then [newRuleSpec .egress none (some (.selector target)) dstRuleHost none]
  else
    withNormalisedProtoAndPort ports (fun proto port =>
      newRuleSpec .egress (some proto) (some (.selector target)) dstRuleHost (some port))

/-- One turn of the loop over an ingress rule's `From`. -/
def ingressPeer (lib : Libs L S) (nsName : String) (ports : List NetworkPolicyPort)
    (target : SelectorSpec S) (a : Analysis S) (peer : NetworkPolicyPeer L) :
    Except String (Analysis S) := do
  let (a, srcSelector, srcRuleHost) ← analysePeer lib nsName a peer
  pure (a.addRules (ingressRules ports target srcSelector srcRuleHost))

/-- One turn of the loop over an egress rule's `To`. -/
def egressPeer (lib : Libs L S) (nsName : String) (ports : List NetworkPolicyPort)
    (target : SelectorSpec S) (a : Analysis S) (peer : NetworkPolicyPeer L) :
    Except String (Analysis S) := do
  let (a, _, dstRuleHost) ← analysePeer lib nsName a peer
  pure (a.addRules (egressRules ports target dstRuleHost))

/-- One turn of the loop over `policy.Spec.Ingress`. "If From is empty or missing, this rule
matches all sources". -/
def analyseIngressRule (lib : Libs L S) (nsName policyName : String) (target : SelectorSpec S)
    (a : Analysis S) (ingressRule : NetworkPolicyIngressRule L) : Except String (Analysis S) := do
  checkPorts policyName ingressRule.Ports
  if ingressRule.From.isEmpty then
    if ingressRule.Ports.isEmpty then pure (a.addRules [newRuleSpec .ingress none none (some (.selector target)) none])
    else
      pure (a.addRules (withNormalisedProtoAndPort ingressRule.Ports (fun proto port =>
        newRuleSpec .ingress (some proto) none (some (.selector target)) (some port))))
  else ingressRule.From.foldlM (ingressPeer lib nsName ingressRule.Ports target) a

/-- One turn of the loop over `policy.Spec.Egress`. "If To is empty or missing, this rule
matches all destinations". -/
def analyseEgressRule (lib : Libs L S) (nsName policyName : String) (target : SelectorSpec S)
    (a : Analysis S) (egressRule : NetworkPolicyEgressRule L) : Except String (Analysis S) := do
  checkPorts policyName egressRule.Ports
  if egressRule.To.isEmpty then
    if egressRule.Ports.isEmpty then pure (a.addRules [newRuleSpec .egress none (some (.selector target)) none none])
    else
      pure (a.addRules (withNormalisedProtoAndPort egressRule.Ports (fun proto port =>
        newRuleSpec .egress (some proto) (some (.selector target)) none (some port))))
  else egressRule.To.foldlM (egressPeer lib nsName egressRule.Ports target) a

/-- The `policyTypes` of `analysePolicy`: each of the policy's types, in order. -/
def NetworkPolicyType.toPolicyType : NetworkPolicyType → PolicyType
  | .Ingress => .ingress
  | .Egress => .egress

/-- `ns.analysePolicy`. The target selector goes in first with `addIfNotExist`, so that a peer
selector with the same key cannot take away its policy types. -/
def analysePolicy (lib : Libs L S) (nsName : String) (policy : NetworkPolicy L) :
    Except String (Analysis S) := do
  let policyTypes := policy.Spec.PolicyTypes.map NetworkPolicyType.toPolicyType
  let targetSelector ← newSelectorSpec lib policy.Spec.PodSelector policyTypes nsName .hashIP
  let a : Analysis S := ⟨[], [], addIfNotExist targetSelector [], []⟩
  let a ← policy.Spec.Ingress.foldlM (analyseIngressRule lib nsName policy.Name targetSelector) a
  policy.Spec.Egress.foldlM (analyseEgressRule lib nsName policy.Name targetSelector) a

/-! ## What a rule means for one peer -/

/-- What a policy rule means for one peer: a rule from the peer's own host to the target
(ingress), or from the target to the host (egress), for all ports or for each port listed. -/
def peerRules (policyType : PolicyType) (ports : List NetworkPolicyPort) (target : SelectorSpec S)
    (host : Option (RuleHost S)) : List RuleSpec :=
  let (src, dst) : Option (RuleHost S) × Option (RuleHost S) :=
    if policyType = .ingress then (host, some (.selector target)) else (some (.selector target), host)
  if ports.isEmpty then [newRuleSpec policyType none src dst none]
  else
    ports.map (fun npp =>
      newRuleSpec policyType (some (proto npp.Protocol)) src dst (some (port npp.Port)))

variable {ports : List NetworkPolicyPort} {target : SelectorSpec S}
  {sel : Option (SelectorSpec S)} {host : Option (RuleHost S)}

theorem egressRules_eq_peerRules : egressRules ports target host = peerRules .egress ports target host :=
  rfl

theorem ingressRules_eq_peerRules (h : ports = [] ∨ host = sel.map .selector) :
    ingressRules ports target sel host = peerRules .ingress ports target host := by
  rcases h with rfl | rfl
  · rfl
  · rfl

/-- With ports listed, the ingress rules of a peer whose selector is `nil` are those of a peer
with no host at all, whatever its rule host. -/
theorem ingressRules_ipBlock (hp : ports ≠ []) :
    ingressRules ports target none host = peerRules .ingress ports target none := by
  simp only [ingressRules, peerRules, List.isEmpty_iff, hp, if_false, if_true,
    withNormalisedProtoAndPort, Option.map_none]

/-! ## What one step can do -/

/-- The rule keys of `a` are keys of `b`: no step of the analysis removes a rule. -/
def Analysis.Keeps (a b : Analysis S) : Prop := a.rules.map Prod.fst ⊆ b.rules.map Prod.fst

theorem Analysis.keeps_refl (a : Analysis S) : a.Keeps a := List.Subset.refl _

theorem Analysis.keeps_trans (a b c : Analysis S) (h₁ : a.Keeps b) (h₂ : b.Keeps c) : a.Keeps c :=
  List.Subset.trans h₁ h₂

theorem Analysis.mem_keys_addRules {a : Analysis S} {rules : List RuleSpec} {k : String} :
    k ∈ (a.addRules rules).rules.map Prod.fst ↔
      k ∈ a.rules.map Prod.fst ∨ ∃ r ∈ rules, r.key = k :=
  Map.mem_keys_setAll

theorem Analysis.keeps_addRules (a : Analysis S) (rules : List RuleSpec) :
    a.Keeps (a.addRules rules) :=
  fun _ hk => mem_keys_addRules.2 (.inl hk)

variable {lib : Libs L S} {nsName policyName : String} {a b : Analysis S}
  {peer : NetworkPolicyPeer L}

theorem ok_eq_pure {α : Type} {x y : α} (h : (pure x : Except String α) = .ok y) : x = y := by
  cases h
  rfl

/-- Reading a peer touches no rule. -/
theorem analysePeer_rules (h : analysePeer lib nsName a peer = .ok (b, sel, host)) :
    b.rules = a.rules := by
  unfold analysePeer at h
  split at h
  · obtain ⟨_, -, h⟩ := bind_eq_ok.1 h
    cases ok_eq_pure h
    rfl
  · obtain ⟨_, -, h⟩ := bind_eq_ok.1 h
    cases ok_eq_pure h
    rfl
  · cases ok_eq_pure h
    rfl
  · cases ok_eq_pure h
    rfl

/-- The peer that is an IP block. -/
theorem analysePeer_ipBlock {ipb : IPBlock} (hpod : peer.PodSelector = none)
    (hns : peer.NamespaceSelector = none) (hb : peer.IPBlock = some ipb) :
    analysePeer lib nsName a peer =
      .ok (⟨a.rules, a.nsSelectors, a.podSelectors,
          Map.set a.ipBlocks (newIPBlockSpec lib ipb nsName).key (newIPBlockSpec lib ipb nsName)⟩,
        none, some (.ipBlock (newIPBlockSpec lib ipb nsName))) := by
  rw [analysePeer, hpod, hns, hb]
  rfl

theorem ingressPeer_ok {ports : List NetworkPolicyPort}
    (h : ingressPeer lib nsName ports target a peer = .ok b) :
    ∃ a' sel host, analysePeer lib nsName a peer = .ok (a', sel, host) ∧
      b = a'.addRules (ingressRules ports target sel host) := by
  obtain ⟨⟨a', sel, host⟩, h1, h2⟩ := bind_eq_ok.1 h
  exact ⟨a', sel, host, h1, (ok_eq_pure h2).symm⟩

theorem egressPeer_ok {ports : List NetworkPolicyPort}
    (h : egressPeer lib nsName ports target a peer = .ok b) :
    ∃ a' sel host, analysePeer lib nsName a peer = .ok (a', sel, host) ∧
      b = a'.addRules (egressRules ports target host) := by
  obtain ⟨⟨a', sel, host⟩, h1, h2⟩ := bind_eq_ok.1 h
  exact ⟨a', sel, host, h1, (ok_eq_pure h2).symm⟩

theorem keeps_ingressPeer {ports : List NetworkPolicyPort}
    (h : ingressPeer lib nsName ports target a peer = .ok b) : a.Keeps b := by
  obtain ⟨a', _, _, h1, rfl⟩ := ingressPeer_ok h
  rw [Analysis.Keeps, ← analysePeer_rules h1]
  exact a'.keeps_addRules _

theorem keeps_egressPeer {ports : List NetworkPolicyPort}
    (h : egressPeer lib nsName ports target a peer = .ok b) : a.Keeps b := by
  obtain ⟨a', _, _, h1, rfl⟩ := egressPeer_ok h
  rw [Analysis.Keeps, ← analysePeer_rules h1]
  exact a'.keeps_addRules _

/-- An ingress rule either has no peers and adds its rules at once, or runs the loop over its
peers. -/
theorem analyseIngressRule_ok {ingressRule : NetworkPolicyIngressRule L}
    (h : analyseIngressRule lib nsName policyName target a ingressRule = .ok b) :
    (ingressRule.From = [] ∧ ∃ rules, b = a.addRules rules) ∨
      (ingressRule.From ≠ [] ∧
        ingressRule.From.foldlM (ingressPeer lib nsName ingressRule.Ports target) a = .ok b) := by
  rw [analyseIngressRule] at h
  obtain ⟨_, -, h⟩ := bind_eq_ok.1 h
  by_cases hf : ingressRule.From = []
  · simp only [hf, List.isEmpty_nil, if_true] at h
    split at h
    · exact .inl ⟨hf, _, (ok_eq_pure h).symm⟩
    · exact .inl ⟨hf, _, (ok_eq_pure h).symm⟩
  · simp only [List.isEmpty_iff, hf, if_false] at h
    exact .inr ⟨hf, h⟩

/-- The same for an egress rule. -/
theorem analyseEgressRule_ok {egressRule : NetworkPolicyEgressRule L}
    (h : analyseEgressRule lib nsName policyName target a egressRule = .ok b) :
    (egressRule.To = [] ∧ ∃ rules, b = a.addRules rules) ∨
      (egressRule.To ≠ [] ∧
        egressRule.To.foldlM (egressPeer lib nsName egressRule.Ports target) a = .ok b) := by
  rw [analyseEgressRule] at h
  obtain ⟨_, -, h⟩ := bind_eq_ok.1 h
  by_cases hf : egressRule.To = []
  · simp only [hf, List.isEmpty_nil, if_true] at h
    split at h
    · exact .inl ⟨hf, _, (ok_eq_pure h).symm⟩
    · exact .inl ⟨hf, _, (ok_eq_pure h).symm⟩
  · simp only [List.isEmpty_iff, hf, if_false] at h
    exact .inr ⟨hf, h⟩

theorem keeps_analyseIngressRule {ingressRule : NetworkPolicyIngressRule L}
    (h : analyseIngressRule lib nsName policyName target a ingressRule = .ok b) : a.Keeps b := by
  rcases analyseIngressRule_ok h with ⟨-, rules, rfl⟩ | ⟨-, h⟩
  · exact a.keeps_addRules rules
  · exact foldlM_ok_rel Analysis.Keeps Analysis.keeps_refl Analysis.keeps_trans
      (fun _ _ _ _ => keeps_ingressPeer) h

theorem keeps_analyseEgressRule {egressRule : NetworkPolicyEgressRule L}
    (h : analyseEgressRule lib nsName policyName target a egressRule = .ok b) : a.Keeps b := by
  rcases analyseEgressRule_ok h with ⟨-, rules, rfl⟩ | ⟨-, h⟩
  · exact a.keeps_addRules rules
  · exact foldlM_ok_rel Analysis.Keeps Analysis.keeps_refl Analysis.keeps_trans
      (fun _ _ _ _ => keeps_egressPeer) h

variable {policy : NetworkPolicy L}

/-- A successful analysis converted the target selector, then ran both loops. -/
theorem analysePolicy_ok (h : analysePolicy lib nsName policy = .ok a) :
    ∃ target a₁, newSelectorSpec lib policy.Spec.PodSelector
        (policy.Spec.PolicyTypes.map NetworkPolicyType.toPolicyType) nsName .hashIP = .ok target ∧
      policy.Spec.Ingress.foldlM (analyseIngressRule lib nsName policy.Name target)
        ⟨[], [], addIfNotExist target [], []⟩ = .ok a₁ ∧
      policy.Spec.Egress.foldlM (analyseEgressRule lib nsName policy.Name target) a₁ = .ok a := by
  obtain ⟨target, h1, h⟩ := bind_eq_ok.1 h
  obtain ⟨a₁, h2, h3⟩ := bind_eq_ok.1 h
  exact ⟨target, a₁, h1, h2, h3⟩

/-! ## Every peer's rules are present -/

/-- **Ingress.** In a successful analysis, every peer of every ingress rule has been read, and
each rule `ingressRules` makes of what was read is among the rules returned. -/
theorem analysePolicy_ingress (h : analysePolicy lib nsName policy = .ok a)
    (ht : newSelectorSpec lib policy.Spec.PodSelector
      (policy.Spec.PolicyTypes.map NetworkPolicyType.toPolicyType) nsName .hashIP = .ok target)
    {ingressRule : NetworkPolicyIngressRule L} (hr : ingressRule ∈ policy.Spec.Ingress)
    (hp : peer ∈ ingressRule.From) :
    ∃ a₀ a₁ sel host, analysePeer lib nsName a₀ peer = .ok (a₁, sel, host) ∧
      ∀ r ∈ ingressRules ingressRule.Ports target sel host, r.key ∈ a.rules.map Prod.fst := by
  obtain ⟨target', a₁, ht', h1, h2⟩ := analysePolicy_ok h
  obtain rfl : target = target' := Except.ok.inj (ht.symm.trans ht')
  -- the rule's turn of the outer loop, and the peer's turn of the inner one
  obtain ⟨u, u', -, hu, hu'⟩ := foldlM_ok_mem Analysis.Keeps Analysis.keeps_refl
    Analysis.keeps_trans (fun _ _ _ _ => keeps_analyseIngressRule) hr h1
  have hne : ingressRule.From ≠ [] := List.ne_nil_of_mem hp
  obtain ⟨v, v', -, hv, hv'⟩ := foldlM_ok_mem Analysis.Keeps Analysis.keeps_refl
    Analysis.keeps_trans (fun _ _ _ _ => keeps_ingressPeer) hp
    ((analyseIngressRule_ok hu).resolve_left (fun h => hne h.1)).2
  obtain ⟨w, sel, host, hw, rfl⟩ := ingressPeer_ok hv
  -- what is there after the peer's turn stays to the end
  have hend : (w.addRules (ingressRules ingressRule.Ports target sel host)).Keeps a :=
    Analysis.keeps_trans _ _ _ hv' (Analysis.keeps_trans _ _ _ hu'
      (foldlM_ok_rel Analysis.Keeps Analysis.keeps_refl Analysis.keeps_trans
        (fun _ _ _ _ => keeps_analyseEgressRule) h2))
  exact ⟨v, w, sel, host, hw, fun r hr => hend (Analysis.mem_keys_addRules.2 (.inr ⟨r, hr, rfl⟩))⟩

/-- **Egress.** In a successful analysis, every peer of every egress rule has been read, and
each rule `egressRules` makes of what was read is among the rules returned. -/
theorem analysePolicy_egress (h : analysePolicy lib nsName policy = .ok a)
    (ht : newSelectorSpec lib policy.Spec.PodSelector
      (policy.Spec.PolicyTypes.map NetworkPolicyType.toPolicyType) nsName .hashIP = .ok target)
    {egressRule : NetworkPolicyEgressRule L} (hr : egressRule ∈ policy.Spec.Egress)
    (hp : peer ∈ egressRule.To) :
    ∃ a₀ a₁ sel host, analysePeer lib nsName a₀ peer = .ok (a₁, sel, host) ∧
      ∀ r ∈ egressRules egressRule.Ports target host, r.key ∈ a.rules.map Prod.fst := by
  obtain ⟨target', a₁, ht', -, h2⟩ := analysePolicy_ok h
  obtain rfl : target = target' := Except.ok.inj (ht.symm.trans ht')
  obtain ⟨u, u', -, hu, hu'⟩ := foldlM_ok_mem Analysis.Keeps Analysis.keeps_refl
    Analysis.keeps_trans (fun _ _ _ _ => keeps_analyseEgressRule) hr h2
  have hne : egressRule.To ≠ [] := List.ne_nil_of_mem hp
  obtain ⟨v, v', -, hv, hv'⟩ := foldlM_ok_mem Analysis.Keeps Analysis.keeps_refl
    Analysis.keeps_trans (fun _ _ _ _ => keeps_egressPeer) hp
    ((analyseEgressRule_ok hu).resolve_left (fun h => hne h.1)).2
  obtain ⟨w, sel, host, hw, rfl⟩ := egressPeer_ok hv
  have hend : (w.addRules (egressRules egressRule.Ports target host)).Keeps a :=
    Analysis.keeps_trans _ _ _ hv' hu'
  exact ⟨v, w, sel, host, hw, fun r hr => hend (Analysis.mem_keys_addRules.2 (.inr ⟨r, hr, rfl⟩))⟩

/-- **An IP block as an ingress source, with ports.** Every rule the policy means for a peer
with no host, from anywhere to the target, is among the rules returned. -/
theorem analysePolicy_ingress_ipBlock (h : analysePolicy lib nsName policy = .ok a)
    (ht : newSelectorSpec lib policy.Spec.PodSelector
      (policy.Spec.PolicyTypes.map NetworkPolicyType.toPolicyType) nsName .hashIP = .ok target)
    {ingressRule : NetworkPolicyIngressRule L} (hr : ingressRule ∈ policy.Spec.Ingress)
    (hp : peer ∈ ingressRule.From) {ipb : IPBlock} (hpod : peer.PodSelector = none)
    (hns : peer.NamespaceSelector = none) (hb : peer.IPBlock = some ipb)
    (hports : ingressRule.Ports ≠ []) :
    ∀ r ∈ peerRules .ingress ingressRule.Ports target none, r.key ∈ a.rules.map Prod.fst := by
  obtain ⟨a₀, _, sel, host, hw, hmem⟩ := analysePolicy_ingress h ht hr hp
  rw [analysePeer_ipBlock hpod hns hb] at hw
  cases hw
  rw [← ingressRules_ipBlock hports]
  exact hmem

/-- **An IP block as an egress destination.** Every rule the policy means for the block, from
the target to the block, is among the rules returned. -/
theorem analysePolicy_egress_ipBlock (h : analysePolicy lib nsName policy = .ok a)
    (ht : newSelectorSpec lib policy.Spec.PodSelector
      (policy.Spec.PolicyTypes.map NetworkPolicyType.toPolicyType) nsName .hashIP = .ok target)
    {egressRule : NetworkPolicyEgressRule L} (hr : egressRule ∈ policy.Spec.Egress)
    (hp : peer ∈ egressRule.To) {ipb : IPBlock} (hpod : peer.PodSelector = none)
    (hns : peer.NamespaceSelector = none) (hb : peer.IPBlock = some ipb) :
    ∀ r ∈ peerRules .egress egressRule.Ports target (some (.ipBlock (newIPBlockSpec lib ipb nsName))),
      r.key ∈ a.rules.map Prod.fst := by
  obtain ⟨a₀, _, sel, host, hw, hmem⟩ := analysePolicy_egress h ht hr hp
  rw [analysePeer_ipBlock hpod hns hb] at hw
  cases hw
  exact hmem

/-- A policy that lets the pods `podSelector` selects take TCP traffic on port 80 from the
block `10.0.0.0/8`, and from nowhere else. -/
def ipBlockPortPolicy (podSelector : L) : NetworkPolicy L where
  UID := "allow-port-80-uid"
  Namespace := "default"
  Name := "allow-port-80"
  Spec := {
    PodSelector := podSelector
    Ingress := [⟨[⟨some "TCP", some (.int 80)⟩], [⟨none, none, some ⟨"10.0.0.0/8", []⟩⟩]⟩]
    Egress := []
    PolicyTypes := [.Ingress] }

/-- The analysis of `ipBlockPortPolicy`, whatever the label-selector library and the hash: the
block is recorded, but the one rule has no `-s 10.0.0.0/8` and its comment says "anywhere". -/
theorem ipBlockPortPolicy_rules (lib : Libs L S) (podSelector : L) :
    (analysePolicy lib "default" (ipBlockPortPolicy podSelector)).map
        (fun a => (a.rules.map (·.2.args), a.ipBlocks.map (·.2.ipBlock))) =
      (lib.labelSelectorAsSelector podSelector).map (fun s =>
        ([["-p", "TCP", "-m", "set", "--match-set",
            IpsetNamePrefix ++ shortName lib.sha1 ("default:" ++ lib.selectorString s), "dst",
            "--dport", "80", "-m", "comment", "--comment",
            "anywhere -> pods: namespace: default, selector: " ++ lib.selectorString s ++
              " (ingress)"]],
          [⟨"10.0.0.0/8", []⟩])) := by
  cases hs : lib.labelSelectorAsSelector podSelector with
  | error e => simp [analysePolicy, newSelectorSpec, ipBlockPortPolicy, hs, bind, Except.bind, Except.map]
  | ok s =>
    simp [analysePolicy, newSelectorSpec, hs, bind, Except.bind, Except.map, pure, Except.pure,
      ipBlockPortPolicy, analyseIngressRule, checkPorts, checkForNamedPorts, ingressPeer,
      analysePeer, newIPBlockSpec, ingressRules, withNormalisedProtoAndPort, Analysis.addRules,
      Map.setAll, Map.set, addIfNotExist, newRuleSpec, hostRuleSpec, RuleHost.getRuleSpec,
      SelectorSpec.getRuleSpec, proto, port, policyTypeStr, NetworkPolicyType.toPolicyType]
    refine ⟨rfl, ?_⟩
    -- the comment, as `newRuleSpec` puts it together
    have h1 : "anywhere -> " ++ "pods: namespace: default, selector: " =
        "anywhere -> pods: namespace: default, selector: " := by decide
    have h2 : " (" ++ ("ingress" ++ ")") = " (ingress)" := by decide
    simp only [← String.append_assoc, h1]
    simp only [String.append_assoc, h2]

end Analysis

end WeaveNet.Npc
