import Mathlib
import WeaveNet.Lib.Sha1
import WeaveNet.Net.Ipset

/-!
# Rule specs of the network-policy controller

The pieces of `npc` from which a network policy's iptables rules are made: the hosts a rule may
match, pods or namespaces by label selector (`SelectorSpec`) or addresses by CIDR
(`IPBlockSpec`), and the rule spec itself (`newRuleSpec`). An ipset that a host needs is named
by `shortName`, a base-85 rendering of a SHA-1 sum, which always fits the 31 characters ipset
allows (`length_ipsetName_le`).

Code from outside the repository is a parameter (`Libs`): the Kubernetes label-selector library
and the SHA-1 sum. In Go a rule host is an interface whose value may be a `nil` pointer of a
host type; `newRuleSpec` reads that, like a `nil` interface, as "anywhere". Both are `none` here.
-/

namespace WeaveNet.Npc

/-- What `npc` takes from outside the repository: `metav1.LabelSelectorAsSelector` over a type
`L` of `metav1.LabelSelector`s, the empty selector `metav1.LabelSelector{}`, the `String` and
`Matches` methods of the `labels.Selector`s `S`, the SHA-1 sum of `shortName`, read as a number
as `big.Int.SetBytes` reads it, and the `n`-th value of `uuid.NewUUID`. -/
structure Libs (L S : Type) where
  labelSelectorAsSelector : L → Except String S
  emptyLabelSelector : L
  selectorString : S → String
  selectorMatches : S → List (String × String) → Bool
  sha1 : String → Nat
  newUUID : Nat → String

/-- `type policyType byte`. -/
inductive PolicyType where
  | ingress
  | egress
  deriving DecidableEq, Repr

/-- `policyTypeStr`. -/
def policyTypeStr (policyType : PolicyType) : String :=
  if policyType = .egress then "egress" else "ingress"

/-- `IpsetNamePrefix`. -/
def IpsetNamePrefix : String := "weave-"

/-! ## Short names -/

/-- `ShortNameSymbols`: 85 printable one-byte characters, with no comma and no space. -/
def ShortNameSymbols : List Char :=
  ("abcdefghijklmnopqrstuvwxyzABCDEFGHIJKLMNOPQRSTUVWXYZ0123456789()\x7b\x7d[]+=_$%^!*|/?.;:@#~").toList

/-- The loop of `shortName`: the base-85 digits of `i`, least significant first, as symbols.
Each turn divides `i` by 85, so a budget of `i` turns is always enough (`shortNameLoop_eq`). -/
def shortNameLoop : Nat → Nat → List Char
  | 0, _ => []
  | fuel + 1, i =>
    if i = 0 then [] else ShortNameSymbols.getD (i % 85) 'a' :: shortNameLoop fuel (i / 85)

/-- `shortName`: "sha1 hash an arbitrary string and represent it using the full range of
printable ascii characters". -/
def shortName (sha1 : String → Nat) (arbitrary : String) : String :=
  String.ofList (shortNameLoop (sha1 arbitrary) (sha1 arbitrary))

theorem shortNameLoop_eq : ∀ {fuel i : Nat}, i ≤ fuel →
    shortNameLoop fuel i = (Nat.digits 85 i).map (fun d => ShortNameSymbols.getD d 'a')
  | 0, i, h => by
    obtain rfl : i = 0 := by omega
    rfl
  | fuel + 1, i, h => by
    rw [shortNameLoop]
    by_cases hi : i = 0
    · simp [hi]
    · have hdiv : i / 85 ≤ fuel := by omega
      rw [if_neg hi, Nat.digits_def' (by decide) (Nat.pos_of_ne_zero hi), List.map_cons,
        shortNameLoop_eq hdiv]

theorem length_shortName (sha1 : String → Nat) (s : String) :
    (shortName sha1 s).length = (Nat.digits 85 (sha1 s)).length := by
  rw [shortName, String.length_ofList, shortNameLoop_eq le_rfl, List.length_map]

/-- The comment on `ShortNameSymbols`: with 85 symbols a name of `IpsetNamePrefix` and a
160-bit sum takes at most 31 characters, the most an ipset name may have. -/
theorem length_ipsetName_le (sha1 : String → Nat) (s : String) (h : sha1 s < 2 ^ 160) :
    (IpsetNamePrefix ++ shortName sha1 s).length ≤ 31 := by
  have hlt : sha1 s < 85 ^ 25 := lt_of_lt_of_le h (by decide)
  have hd : (Nat.digits 85 (sha1 s)).length ≤ 25 := (Nat.digits_length_le_iff (by decide) _).2 hlt
  rw [String.length_append, length_shortName]
  have : IpsetNamePrefix.length = 6 := rfl
  omega

/-- `sha1.Sum([]byte(s))`, as `shortName` reads it. -/
def sha1Sum (s : String) : Nat := Lib.Sha1.sum s.toUTF8.toList

/-- The libraries for label selectors that have `matchLabels` only, a `metav1.LabelSelector`
being its map of labels: it always converts, reads as its `key=value` pairs in the order of
their keys, and matches the label maps that hold all of its pairs. The hash is SHA-1, and the
`n`-th UUID is a name that no Kubernetes object has. -/
def Libs.matchLabels : Libs (List (String × String)) (List (String × String)) where
  labelSelectorAsSelector sel := .ok sel
  emptyLabelSelector := []
  selectorString sel :=
    ",".intercalate ((sel.mergeSort (fun a b => decide (a.1 ≤ b.1))).map fun (k, v) => k ++ "=" ++ v)
  selectorMatches sel labels := sel.all fun (k, v) => labels.lookup k == some v
  sha1 := sha1Sum
  newUUID n := "npc-uuid-" ++ toString n

/-! ## Rule hosts -/

section Hosts

variable {L S : Type}

/-- `type selectorSpec struct`: a label selector, the ipset that holds what it matches, and the
policy types it is a target for (empty when it only selects peers). -/
structure SelectorSpec (S : Type) where
  key : String
  selector : S
  policyTypes : List PolicyType
  ipsetType : IpsetType
  ipsetName : String
  nsName : String

/-- `newSelectorSpec`: fails when the label selector does not convert. The ipset's name hashes
the namespace with the selector, as one selector may be used in several namespaces. -/
def newSelectorSpec (lib : Libs L S) (json : L) (policyType : List PolicyType) (nsName : String)
    (ipsetType : IpsetType) : Except String (SelectorSpec S) := do
  let selector ← lib.labelSelectorAsSelector json
  let key := lib.selectorString selector
  pure { key, selector, policyTypes := policyType, ipsetType,
         ipsetName := IpsetNamePrefix ++ shortName lib.sha1 (nsName ++ ":" ++ key), nsName }

/-- `selectorSpec.getRuleSpec`: match the selector's ipset as source or destination. -/
def SelectorSpec.getRuleSpec (spec : SelectorSpec S) (src : Bool) : List String × String :=
  let dir := if src then "src" else "dst"
  (["-m", "set", "--match-set", spec.ipsetName, dir],
    if spec.nsName ≠ "" then "pods: namespace: " ++ spec.nsName ++ ", selector: " ++ spec.key
    else "namespaces: selector: " ++ spec.key)

/-- `networkingv1.IPBlock`. -/
structure IPBlock where
  CIDR : String
  Except : List String
  deriving DecidableEq, Repr

/-- `type ipBlockSpec struct`: a CIDR and, when it has exceptions, the ipset that holds them. -/
structure IPBlockSpec where
  key : String
  ipsetName : String
  ipBlock : IPBlock
  nsName : String
  deriving DecidableEq, Repr

/-- `newIPBlockSpec`. The exceptions are sorted in place, in the policy itself, so the spec's
block holds them sorted; their joined text is the key. -/
def newIPBlockSpec (lib : Libs L S) (ipb : IPBlock) (nsName : String) : IPBlockSpec :=
  if ipb.Except.length > 0 then
    let except := ipb.Except.mergeSort (fun a b => decide (a ≤ b))
    let key := " ".intercalate except
    { key, ipBlock := { ipb with Except := except }, nsName,
      ipsetName := IpsetNamePrefix ++ shortName lib.sha1 (nsName ++ ":" ++ "ipblock-except:" ++ key) }
  else { key := "", ipsetName := "", ipBlock := ipb, nsName }

/-- `ipBlockSpec.getRuleSpec`: match the CIDR as source or destination, less the ipset of its
exceptions. -/
def IPBlockSpec.getRuleSpec (spec : IPBlockSpec) (src : Bool) : List String × String :=
  let (dir, dirOpt) := if src then ("src", "-s") else ("dst", "-d")
  if spec.key = "" then ([dirOpt, spec.ipBlock.CIDR], "cidr: " ++ spec.ipBlock.CIDR)
  else
    ([dirOpt, spec.ipBlock.CIDR, "-m", "set", "!", "--match-set", spec.ipsetName, dir],
      "cidr: " ++ spec.ipBlock.CIDR ++ " except [" ++ spec.key ++ "]")

/-- `type ruleHost interface`, with its two implementations. -/
inductive RuleHost (S : Type) where
  | selector (spec : SelectorSpec S)
  | ipBlock (spec : IPBlockSpec)

/-- `ruleHost.getRuleSpec`. -/
def RuleHost.getRuleSpec : RuleHost S → Bool → List String × String
  | .selector spec, src => spec.getRuleSpec src
  | .ipBlock spec, src => spec.getRuleSpec src

/-- What `newRuleSpec` takes from a host: its match and comment, or no match and "anywhere" for
a `nil` host. -/
def hostRuleSpec : Option (RuleHost S) → Bool → List String × String
  | some host, src => host.getRuleSpec src
  | none, _ => ([], "anywhere")

end Hosts

/-! ## Rule specs -/

/-- `type ruleSpec struct`: the rule's arguments, keyed by their text. -/
structure RuleSpec where
  key : String
  args : List String
  policyType : PolicyType
  deriving DecidableEq, Repr

/-- `IngressChain`, `EgressCustomChain` and `EgressMarkChain`. -/
def IngressChain : String := "WEAVE-NPC-INGRESS"
def EgressCustomChain : String := "WEAVE-NPC-EGRESS-CUSTOM"
def EgressMarkChain : String := "WEAVE-NPC-EGRESS-ACCEPT"

/-- `ruleSpec.iptChain`. -/
def RuleSpec.iptChain (spec : RuleSpec) : String :=
  if spec.policyType = .egress then EgressCustomChain else IngressChain

/-- `ruleSpec.iptRuleSpecs`: an ingress rule accepts; an egress rule marks, then returns. -/
def RuleSpec.iptRuleSpecs (spec : RuleSpec) : List (List String) :=
  if spec.policyType = .ingress then [spec.args ++ ["-j", "ACCEPT"]]
  else [spec.args ++ ["-j", EgressMarkChain], spec.args ++ ["-j", "RETURN"]]

section Rules

variable {S : Type}

/-- `newRuleSpec`: the protocol, the source's match, the destination's match, the port, and a
comment naming source, destination and policy type. A `nil` host matches anything. -/
def newRuleSpec (policyType : PolicyType) (proto : Option String)
    (srcHost dstHost : Option (RuleHost S)) (dstPort : Option String) : RuleSpec :=
  let (srcRule, srcComment) := hostRuleSpec srcHost true
  let (dstRule, dstComment) := hostRuleSpec dstHost false
  let args := (proto.map (fun p => ["-p", p])).getD [] ++ srcRule ++ dstRule ++
    (dstPort.map (fun p => ["--dport", p])).getD [] ++
    ["-m", "comment", "--comment",
      srcComment ++ " -> " ++ dstComment ++ " (" ++ policyTypeStr policyType ++ ")"]
  { key := " ".intercalate args, args, policyType }

end Rules

end WeaveNet.Npc
