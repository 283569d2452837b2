import WeaveNet.Lib.Map

/-!
# The ipset package

`net/ipset` keeps, for every entry of every set, the users that need it (a namespace or a pod),
and runs the `ipset` tool only when the first user of an entry comes or its last user goes. The
model holds both halves: the users map, and the kernel's sets that the tool changes.

The tool is a parameter (`Tool`): for a command line and the kernel's sets, the sets after it or
the text it prints when it fails. Whether a command succeeds is left open; `Tool.Lawful` says
only what a command that succeeds does: `add` puts its entry into an existing set, `del` takes it
out, `flush` and `destroy` empty or remove a set, or every set. `ipsetCommand` is the tool as
`ipset(8)` behaves on the commands the package gives it: it fails to create a set that exists, to
add an entry that is there, and to delete, flush or destroy what is not there; it does not check
that a set it destroys is still in use by a rule or a `list:set`, nor that a set added to a
`list:set` exists. It is lawful (`ipsetCommand_lawful`), and it is the tool that `npc` drives.

Every operation is a step of `EStateM String Ipset`: as in Go, what it changed before a failing
command stays changed, and a failing command changes no set.

`AddEntry` runs `add` exactly when the pair had no user (`addEntry_of_nil`, `addEntry_of_ne_nil`)
and `DelEntry` runs `del` exactly when the caller was the pair's only user (`delEntry_of_only`,
`delEntry_of_not_only`). With a lawful tool, a call whose command succeeds keeps the users map in
step with the kernel (`InStep`, `Call.inStep`), and so does every run of such calls
(`OkRun.inStep`). A failing command breaks it: the users map was changed before the command ran
and is not restored (`addEntry_error_keeps_user`).
-/

namespace WeaveNet

open Lib

/-- `ipset.Type`: the kinds of set `npc` creates. -/
inductive IpsetType where
  | listSet
  | hashIP
  | hashNet
  deriving DecidableEq, Repr

/-- The type's name on the command line. -/
def IpsetType.toString : IpsetType → String
  | .listSet => "list:set"
  | .hashIP => "hash:ip"
  | .hashNet => "hash:net"

/-- The kernel's sets with their entries, and `type ipset struct`: whether the tool takes
comments, the size of a `list:set`, and the users of each `(set, entry)` pair. -/
structure Ipset where
  kernel : List (String × List String)
  enableComments : Bool
  maxListSize : Nat
  users : List ((String × String) × List String)
  deriving DecidableEq, Repr

namespace Ipset

/-- The `ipset` tool run on a command line: the kernel's sets after it, or what it prints when it
fails. -/
abbrev Tool := List String → List (String × List String) → Except String (List (String × List String))

/-- What a command of the tool does to the kernel's sets when it succeeds. -/
structure Tool.Lawful (tool : Tool) : Prop where
  add : ∀ {n e : String} {rest : List String} {k k'}, tool ("add" :: n :: e :: rest) k = .ok k' →
    ∃ es, k.lookup n = some es ∧ k' = Map.set k n (if e ∈ es then es else es ++ [e])
  del : ∀ {n e : String} {k k'}, tool ["del", n, e] k = .ok k' →
    ∃ es, k.lookup n = some es ∧ k' = Map.set k n (es.erase e)
  flush : ∀ {n : String} {k k'}, tool ["flush", n] k = .ok k' → k' = Map.set k n []
  destroy : ∀ {n : String} {k k'}, tool ["destroy", n] k = .ok k' → k' = k.filter (·.1 ≠ n)
  flushAll : ∀ {k k'}, tool ["flush"] k = .ok k' → k' = k.map fun set => (set.1, [])
  destroyAll : ∀ {k k'}, tool ["destroy"] k = .ok k' → k' = []

/-- The `ipset` tool on the commands the package gives it. -/
def ipsetCommand : Tool
  | "create" :: name :: _, kernel =>
    if (kernel.lookup name).isSome then .error "Set cannot be created: set with the same name already exists"
    else .ok (kernel ++ [(name, [])])
  | "add" :: name :: entry :: _, kernel =>
    match kernel.lookup name with
    | none => .error "The set with the given name does not exist"
    | some entries =>
      if entry ∈ entries then .error "Element cannot be added to the set: it's already added"
      else .ok (Map.set kernel name (entries ++ [entry]))
  | ["del", name, entry], kernel =>
    match kernel.lookup name with
    | none => .error "The set with the given name does not exist"
    | some entries =>
      if entry ∈ entries then .ok (Map.set kernel name (entries.erase entry))
      else .error "Element cannot be deleted from the set: it's not added"
  | ["destroy", name], kernel =>
    match kernel.lookup name with
    | none => .error "The set with the given name does not exist"
    | some _ => .ok (kernel.filter (·.1 ≠ name))
  | ["flush", name], kernel =>
    match kernel.lookup name with
    | none => .error "The set with the given name does not exist"
    | some _ => .ok (Map.set kernel name [])
  | ["flush"], kernel => .ok (kernel.map fun set => (set.1, []))
  | ["destroy"], _ => .ok []
  | _, kernel => .ok kernel

theorem ipsetCommand_lawful : ipsetCommand.Lawful where
  add {n e rest k k'} h := by
    cases hk : k.lookup n with
    | none => simp [ipsetCommand, hk] at h
    | some es =>
      by_cases he : e ∈ es
      · simp [ipsetCommand, hk, he] at h
      · simp only [ipsetCommand, hk, he, if_false, Except.ok.injEq] at h
        exact ⟨es, rfl, by rw [if_neg he, h]⟩
  del {n e k k'} h := by
    cases hk : k.lookup n with
    | none => simp [ipsetCommand, hk] at h
    | some es =>
      by_cases he : e ∈ es
      · simp only [ipsetCommand, hk, he, if_true, Except.ok.injEq] at h
        exact ⟨es, rfl, h.symm⟩
      · simp [ipsetCommand, hk, he] at h
  flush {n k k'} h := by
    cases hk : k.lookup n with
    | none => simp [ipsetCommand, hk] at h
    | some es => simpa [ipsetCommand, hk, eq_comm] using h
  destroy {n k k'} h := by
    cases hk : k.lookup n with
    | none => simp [ipsetCommand, hk] at h
    | some es => simpa [ipsetCommand, hk, eq_comm] using h
  flushAll h := by simpa [ipsetCommand, eq_comm] using h
  destroyAll h := by simpa [ipsetCommand, eq_comm] using h

/-- What the tool prints when it fails, and Go's wrapping of it (`errors.Wrapf`). -/
def execError (args : List String) (output : String) : String :=
  "ipset [" ++ " ".intercalate args ++ "] failed: " ++ output ++ ": exit status 1"

section Package

variable (tool : Tool)

/-- `doExec`: run the tool on the kernel's sets; the package's own state is as it was. -/
def doExec (args : List String) : EStateM String Ipset Unit := fun s =>
  match tool args s.kernel with
  | .ok kernel => .ok () { s with kernel }
  | .error output => .error (execError args output) s

/-- `ipset.Create`. -/
def create (ipsetName : String) (ipsetType : IpsetType) : EStateM String Ipset Unit := do
  let s ← get
  let args := ["create", ipsetName, ipsetType.toString] ++
    (if ipsetType = .listSet ∧ s.maxListSize > 0 then ["size", toString s.maxListSize] else []) ++
    (if s.enableComments then ["comment"] else [])
  doExec tool args

/-- `ipset.addUser`: record `user` for the entry; whether the entry had no user, so that it has
to be put in the set. -/
def addUser (user ipsetName entry : String) : EStateM String Ipset Bool := fun s =>
  let k := (ipsetName, entry)
  let users := (s.users.lookup k).getD []
  .ok users.isEmpty
    { s with users := Map.set s.users k (if user ∈ users then users else users ++ [user]) }

/-- `ipset.delUser`: drop `user` from the entry; whether it was the entry's last user, so that
the entry has to leave the set. A user that the entry does not have changes nothing. -/
def delUser (user ipsetName entry : String) : EStateM String Ipset Bool := fun s =>
  let k := (ipsetName, entry)
  let users := (s.users.lookup k).getD []
  let oneLeft := users.length = 1
  let users' := users.erase user
  .ok (oneLeft && users'.isEmpty)
    { s with users := if users'.isEmpty then s.users.filter (·.1 ≠ k) else Map.set s.users k users' }

/-- `ipset.AddEntry`. -/
def addEntry (user ipsetName entry comment : String) : EStateM String Ipset Unit := do
  if !(← addUser user ipsetName entry) then return -- already in the set
  let s ← get
  doExec tool (["add", ipsetName, entry] ++ (if s.enableComments then ["comment", comment] else []))

/-- `ipset.DelEntry`. -/
def delEntry (user ipsetName entry : String) : EStateM String Ipset Unit := do
  if !(← delUser user ipsetName entry) then return -- still needed
  doExec tool ["del", ipsetName, entry]

/-- `ipset.Exist`: whether `user` is a user of the entry. -/
def exist (s : Ipset) (user ipsetName entry : String) : Bool :=
  user ∈ (s.users.lookup (ipsetName, entry)).getD []

/-- `ipset.removeSetFromUsers`. -/
def removeSetFromUsers (ipsetName : String) : EStateM String Ipset Unit :=
  modify fun s => { s with users := s.users.filter (·.1.1 ≠ ipsetName) }

/-- `ipset.Flush`. -/
def flush (ipsetName : String) : EStateM String Ipset Unit := do
  removeSetFromUsers ipsetName
  doExec tool ["flush", ipsetName]

/-- `ipset.FlushAll`. -/
def flushAll : EStateM String Ipset Unit := do
  modify fun s => { s with users := [] }
  doExec tool ["flush"]

/-- `ipset.Destroy`. -/
def destroy (ipsetName : String) : EStateM String Ipset Unit := do
  removeSetFromUsers ipsetName
  doExec tool ["destroy", ipsetName]

/-- `ipset.DestroyAll`. -/
def destroyAll : EStateM String Ipset Unit := do
  modify fun s => { s with users := [] }
  doExec tool ["destroy"]

end Package

/-! ## The users map and the kernel -/

/-- The users of the pair `(ipsetName, entry)`. -/
def usersOf (s : Ipset) (ipsetName entry : String) : List String :=
  (s.users.lookup (ipsetName, entry)).getD []

/-- The pair `(ipsetName, entry)` is in the kernel: the set exists and holds the entry. -/
def InKernel (s : Ipset) (ipsetName entry : String) : Prop :=
  entry ∈ (s.kernel.lookup ipsetName).getD []

/-- The users map is in step with the kernel, whose sets hold each entry once: a pair is in the
kernel exactly when it has a user. -/
structure InStep (s : Ipset) : Prop where
  agree : ∀ n e, InKernel s n e ↔ usersOf s n e ≠ []
  nodup : ∀ n, ((s.kernel.lookup n).getD []).Nodup

/-- A list holds one value, `a`, exactly when it has one element and loses it when `a` is
erased: what `delUser` tests, with a count before and a count after the erase. -/
theorem eq_singleton_iff {l : List String} {a : String} :
    (l.length = 1 ∧ l.erase a = []) ↔ l = [a] := by
  constructor
  · rintro ⟨hl, he⟩
    obtain ⟨x, rfl⟩ := List.length_eq_one_iff.1 hl
    by_cases hx : x = a
    · rw [hx]
    · simp [hx] at he
  · rintro rfl
    simp

/-! ## What a call does -/

section Calls
variable {tool : Tool} {s s' : Ipset} {user n e c : String}

/-- `AddEntry` on a pair that has users records `user` and runs no command. -/
theorem addEntry_of_ne_nil (hu : usersOf s n e ≠ []) :
    addEntry tool user n e c s =
      .ok () { s with
        users := Map.set s.users (n, e)
          (if user ∈ usersOf s n e then usersOf s n e else usersOf s n e ++ [user]) } := by
  have : (usersOf s n e).isEmpty = false := List.isEmpty_eq_false_iff.2 hu
  simp only [usersOf] at this
  simp [addEntry, addUser, this, usersOf, bind, EStateM.bind, pure, EStateM.pure]
  rfl

/-- `AddEntry` on a pair with no user records `user` and runs `add`. -/
theorem addEntry_of_nil (hu : usersOf s n e = []) :
    addEntry tool user n e c s =
      doExec tool (["add", n, e] ++ if s.enableComments then ["comment", c] else [])
      { s with users := Map.set s.users (n, e) [user] } := by
  simp only [usersOf] at hu
  simp [addEntry, addUser, hu, bind, EStateM.bind, get, getThe, MonadStateOf.get, EStateM.get]

/-- `DelEntry` by the only user of a pair drops the pair's users and runs `del`. -/
theorem delEntry_of_only (hu : usersOf s n e = [user]) :
    delEntry tool user n e s =
      doExec tool ["del", n, e] { s with users := s.users.filter (·.1 ≠ (n, e)) } := by
  simp only [usersOf] at hu
  simp [delEntry, delUser, hu, bind, EStateM.bind]

/-- `DelEntry` by anyone else drops `user` from the pair's users and runs no command. -/
theorem delEntry_of_not_only (hu : usersOf s n e ≠ [user]) :
    delEntry tool user n e s =
      .ok () { s with
        users :=
          if (usersOf s n e).erase user = [] then s.users.filter (·.1 ≠ (n, e))
          else Map.set s.users (n, e) ((usersOf s n e).erase user) } := by
  by_cases he : (usersOf s n e).erase user = []
  · -- the pair loses its last user, but it had another one before: no `del`
    have hlen : ¬(usersOf s n e).length = 1 := fun hl => hu (eq_singleton_iff.1 ⟨hl, he⟩)
    simp only [usersOf] at he hlen ⊢
    simp [delEntry, delUser, he, hlen, bind, EStateM.bind, pure, EStateM.pure]
  · simp only [usersOf] at he ⊢
    simp [delEntry, delUser, he, bind, EStateM.bind, pure, EStateM.pure]

/-- A command that succeeds leaves the package's own state as it was, and the kernel as the tool
left it. -/
theorem doExec_ok {args : List String} {u : Unit} (h : doExec tool args s = .ok u s') :
    ∃ kernel, tool args s.kernel = .ok kernel ∧ s' = { s with kernel } := by
  unfold doExec at h
  split at h
  · next kernel hrun =>
    simp only [EStateM.Result.ok.injEq] at h
    exact ⟨kernel, hrun, h.2.symm⟩
  · cases h

/-- A command that fails changes nothing. -/
theorem doExec_error {args : List String} {output : String} (h : tool args s.kernel = .error output) :
    doExec tool args s = .error (execError args output) s := by
  simp [doExec, h]

/-- `Flush` empties the set's users and runs `flush` on it. -/
theorem flush_eq (s : Ipset) (n : String) :
    flush tool n s = doExec tool ["flush", n] { s with users := s.users.filter (·.1.1 ≠ n) } := rfl

/-- `Destroy` empties the set's users and runs `destroy` on it. -/
theorem destroy_eq (s : Ipset) (n : String) :
    destroy tool n s = doExec tool ["destroy", n] { s with users := s.users.filter (·.1.1 ≠ n) } := rfl

theorem flushAll_eq (s : Ipset) : flushAll tool s = doExec tool ["flush"] { s with users := [] } := rfl

theorem destroyAll_eq (s : Ipset) : destroyAll tool s = doExec tool ["destroy"] { s with users := [] } :=
  rfl

end Calls

/-! ## Calls whose command succeeds keep the users map in step with the kernel -/

/-- A list that loses everything when `a` is erased held at most `a`. -/
theorem erase_eq_nil {l : List String} {a : String} (h : l.erase a = []) : l = [] ∨ l = [a] := by
  cases l with
  | nil => exact Or.inl rfl
  | cons x t =>
    by_cases hx : x = a
    · subst hx
      simp only [List.erase_cons_head] at h
      exact Or.inr (h ▸ rfl)
    · simp [hx] at h

section Step
variable {tool : Tool} {s s' : Ipset} {user n e c : String}

/-- Replacing the users of one pair by a list that is empty exactly when they were keeps the
users map in step with the kernel, which no command changed. -/
theorem InStep.setUsers (h : InStep s) {v : List String} (hv : v ≠ [] ↔ usersOf s n e ≠ []) :
    InStep { s with users := Map.set s.users (n, e) v } := by
  refine ⟨fun n' e' => ?_, h.nodup⟩
  have hag := h.agree n' e'
  simp only [InKernel, usersOf] at hag hv ⊢
  rw [Map.lookup_set]
  by_cases hne : (n', e') = (n, e)
  · obtain ⟨rfl, rfl⟩ := Prod.mk.inj hne
    rw [if_pos rfl, Option.getD_some, hag, hv]
  · simp [hne, hag]

theorem InStep.addEntry (ht : tool.Lawful) (h : InStep s) (hok : addEntry tool user n e c s = .ok () s') :
    InStep s' := by
  by_cases hu : usersOf s n e = []
  · -- no user before: `add` ran, and put the entry into its set, where it was not
    rw [addEntry_of_nil hu] at hok
    obtain ⟨kernel, hrun, rfl⟩ := doExec_ok hok
    obtain ⟨es, hk, rfl⟩ := ht.add hrun
    have he : e ∉ es := fun he => (h.agree n e).1 (by simpa [InKernel, hk] using he) hu
    rw [if_neg he]
    have hes : es.Nodup := by simpa [hk] using h.nodup n
    constructor
    · intro n' e'
      have hag := h.agree n' e'
      simp only [InKernel, usersOf] at hag ⊢
      rw [Map.lookup_set, Map.lookup_set]
      by_cases hn : n' = n
      · subst hn
        by_cases he' : e' = e
        · subst he'
          simp
        · simp only [hk, Option.getD_some] at hag
          simp [he', hag]
      · simp [hn, hag]
    · intro n'
      rw [Map.lookup_set]
      by_cases hn : n' = n
      · rw [if_pos hn, Option.getD_some]
        exact hes.append (List.nodup_singleton e) (List.disjoint_singleton.2 he)
      · simpa [hn] using h.nodup n'
  · -- users before: no command, and the pair keeps a user
    rw [addEntry_of_ne_nil hu] at hok
    simp only [EStateM.Result.ok.injEq, true_and] at hok
    subst hok
    refine h.setUsers (iff_of_true ?_ hu)
    split_ifs
    · exact hu
    · simp

theorem InStep.delEntry (ht : tool.Lawful) (h : InStep s) (hok : delEntry tool user n e s = .ok () s') :
    InStep s' := by
  by_cases hu : usersOf s n e = [user]
  · -- the only user: `del` ran, and took the entry out of its set
    rw [delEntry_of_only hu] at hok
    obtain ⟨kernel, hrun, rfl⟩ := doExec_ok hok
    obtain ⟨es, hk, rfl⟩ := ht.del hrun
    have hes : es.Nodup := by simpa [hk] using h.nodup n
    constructor
    · intro n' e'
      have hag := h.agree n' e'
      simp only [InKernel, usersOf] at hag ⊢
      rw [Map.lookup_set, Map.lookup_filter (fun k' => decide (k' ≠ (n, e)))]
      by_cases hn : n' = n
      · subst hn
        by_cases he' : e' = e
        · subst he'
          simp [hes.not_mem_erase]
        · simp only [hk, Option.getD_some] at hag
          simp [he', hag, List.mem_erase_of_ne he']
      · simp [hn, hag]
    · intro n'
      rw [Map.lookup_set]
      by_cases hn : n' = n
      · simp [hn, hes.erase e]
      · simpa [hn] using h.nodup n'
  · -- anyone else: no command, and the pair keeps a user unless it had none
    rw [delEntry_of_not_only hu] at hok
    simp only [EStateM.Result.ok.injEq, true_and] at hok
    subst hok
    by_cases he : (usersOf s n e).erase user = []
    · -- the pair is left with no user, and had none before: `user` was not one of them
      have hnil := (erase_eq_nil he).resolve_right hu
      rw [if_pos he]
      refine ⟨fun n' e' => ?_, h.nodup⟩
      have hag := h.agree n' e'
      simp only [InKernel, usersOf] at hag hnil ⊢
      rw [Map.lookup_filter (fun k' => decide (k' ≠ (n, e)))]
      by_cases hne : (n', e') = (n, e)
      · obtain ⟨rfl, rfl⟩ := Prod.mk.inj hne
        simp [hag, hnil]
      · simp [hne, hag]
    · -- the pair keeps a user, so it had one
      rw [if_neg he]
      exact h.setUsers (iff_of_true he fun hnil => he (by simp [hnil]))

/-- Dropping every user of the set `n` keeps the users map in step with a kernel whose set `n` is
empty or gone and whose other sets are as they were: what `Flush` and `Destroy` do. -/
theorem InStep.dropSet (h : InStep s) {kernel' : List (String × List String)}
    (hn : (kernel'.lookup n).getD [] = [])
    (hother : ∀ n', n' ≠ n → kernel'.lookup n' = s.kernel.lookup n') :
    InStep { s with users := s.users.filter (·.1.1 ≠ n), kernel := kernel' } := by
  constructor
  · intro n' e'
    have hag := h.agree n' e'
    simp only [InKernel, usersOf] at hag ⊢
    rw [Map.lookup_filter (fun k' : String × String => decide (k'.1 ≠ n))]
    by_cases hn' : n' = n
    · subst hn'
      simp [hn]
    · simpa [hn', hother n' hn'] using hag
  · intro n'
    by_cases hn' : n' = n
    · subst hn'
      rw [hn]
      exact List.nodup_nil
    · dsimp only
      rw [hother n' hn']
      exact h.nodup n'

theorem InStep.flush (ht : tool.Lawful) (h : InStep s) (hok : flush tool n s = .ok () s') : InStep s' := by
  rw [flush_eq] at hok
  obtain ⟨kernel, hrun, rfl⟩ := doExec_ok hok
  obtain rfl := ht.flush hrun
  -- the set is left empty
  refine h.dropSet ?_ fun n' hn' => ?_
  · rw [Map.lookup_set, if_pos rfl]
    rfl
  · rw [Map.lookup_set, if_neg hn']

theorem InStep.destroy (ht : tool.Lawful) (h : InStep s) (hok : destroy tool n s = .ok () s') :
    InStep s' := by
  rw [destroy_eq] at hok
  obtain ⟨kernel, hrun, rfl⟩ := doExec_ok hok
  obtain rfl := ht.destroy hrun
  -- the set is gone
  refine h.dropSet ?_ fun n' hn' => ?_
  · rw [Map.lookup_filter (fun k' => decide (k' ≠ n))]
    simp
  · rw [Map.lookup_filter (fun k' => decide (k' ≠ n))]
    simp [hn']

theorem InStep.flushAll (ht : tool.Lawful) (hok : flushAll tool s = .ok () s') : InStep s' := by
  rw [flushAll_eq] at hok
  obtain ⟨kernel, hrun, rfl⟩ := doExec_ok hok
  obtain rfl := ht.flushAll hrun
  -- every set is empty
  have hk : ∀ n', ((s.kernel.map fun set => (set.1, ([] : List String))).lookup n').getD [] = [] := by
    intro n'
    rw [Map.lookup_map_snd (fun _ => ([] : List String))]
    cases s.kernel.lookup n' <;> rfl
  refine ⟨fun n' e' => ?_, fun n' => ?_⟩
  · simp only [InKernel, usersOf, hk]
    simp
  · rw [hk]
    exact List.nodup_nil

theorem InStep.destroyAll (ht : tool.Lawful) (hok : destroyAll tool s = .ok () s') : InStep s' := by
  rw [destroyAll_eq] at hok
  obtain ⟨kernel, hrun, rfl⟩ := doExec_ok hok
  obtain rfl := ht.destroyAll hrun
  refine ⟨fun n' e' => ?_, fun n' => List.nodup_nil⟩
  simp [InKernel, usersOf]

end Step

/-- The calls of `ipset.Interface` that change entries. -/
inductive Call where
  | addEntry (user ipsetName entry comment : String)
  | delEntry (user ipsetName entry : String)
  | flush (ipsetName : String)
  | destroy (ipsetName : String)
  | flushAll
  | destroyAll
  deriving DecidableEq, Repr

/-- The package's function for each call. -/
def Call.run (tool : Tool) : Call → EStateM String Ipset Unit
  | .addEntry user ipsetName entry comment => Ipset.addEntry tool user ipsetName entry comment
  | .delEntry user ipsetName entry => Ipset.delEntry tool user ipsetName entry
  | .flush ipsetName => Ipset.flush tool ipsetName
  | .destroy ipsetName => Ipset.destroy tool ipsetName
  | .flushAll => Ipset.flushAll tool
  | .destroyAll => Ipset.destroyAll tool

section Run
variable {tool : Tool}

/-- A call whose command succeeds keeps the users map in step with the kernel. -/
theorem Call.inStep (ht : tool.Lawful) {s s' : Ipset} (c : Call) (h : InStep s)
    (hok : c.run tool s = .ok () s') : InStep s' := by
  cases c with
  | addEntry user n e c => exact h.addEntry ht hok
  | delEntry user n e => exact h.delEntry ht hok
  | flush n => exact h.flush ht hok
  | destroy n => exact h.destroy ht hok
  | flushAll => exact InStep.flushAll ht hok
  | destroyAll => exact InStep.destroyAll ht hok

/-- A run of calls, from `s` to `s'`, in which every command succeeds. -/
inductive OkRun (tool : Tool) : Ipset → List Call → Ipset → Prop
  | nil (s : Ipset) : OkRun tool s [] s
  | cons {s s₁ s' : Ipset} {c : Call} {cs : List Call} :
      c.run tool s = .ok () s₁ → OkRun tool s₁ cs s' → OkRun tool s (c :: cs) s'

/-- Along a run whose commands all succeed, the users map stays in step with the kernel. Induction
on the run, one call at a time. -/
theorem OkRun.inStep (ht : tool.Lawful) {s s' : Ipset} {cs : List Call} (hr : OkRun tool s cs s')
    (h : InStep s) : InStep s' := by
  induction hr with
  | nil => exact h
  | cons hok _ ih => exact ih (Call.inStep ht _ h hok)

end Run

/-- An `AddEntry` whose `add` fails, on a pair that has no user and is not in the kernel, still
records its user: the users map changes though the call fails, and the pair has a user but is not
in the kernel. -/
theorem addEntry_error_keeps_user (tool : Tool) (s : Ipset) (user n e c : String)
    (hu : usersOf s n e = []) (hnot : ¬InKernel s n e)
    (hfail : ∃ output, tool (["add", n, e] ++ if s.enableComments then ["comment", c] else []) s.kernel =
      .error output) :
    ∃ msg s', addEntry tool user n e c s = .error msg s' ∧ usersOf s' n e = [user] ∧ ¬InStep s' := by
  obtain ⟨output, hrun⟩ := hfail
  rw [addEntry_of_nil hu]
  refine ⟨execError (["add", n, e] ++ if s.enableComments then ["comment", c] else []) output,
    { s with users := Map.set s.users (n, e) [user] }, doExec_error hrun, ?_, fun hs => ?_⟩
  · simp [usersOf, Map.lookup_set]
  · -- the pair has a user, so the kernel, which the failed command left alone, would hold it
    exact hnot ((hs.agree n e).2 (by simp [usersOf, Map.lookup_set]))

theorem addEntry_error_keeps_user_empty :
    ∃ msg s', addEntry ipsetCommand "pod-a" "weave-set" "10.32.0.1" "" ⟨[], true, 0, []⟩ = .error msg s' ∧
      usersOf s' "weave-set" "10.32.0.1" = ["pod-a"] ∧ ¬InStep s' :=
  addEntry_error_keeps_user ipsetCommand _ _ _ _ _ rfl (by simp [InKernel]) ⟨_, rfl⟩

end Ipset

end WeaveNet
