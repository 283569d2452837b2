import Mathlib
import WeaveNet.Ring.Ops
import WeaveNet.Lib.Loop

/-!
# Update notifications of the ring

A ring made by `New(start, end, self, f)` calls `f(prev, curr, local)` whenever an operation may
have changed who owns what (`src/ipam/ring/ring.go`). An operation registers, before it changes
anything, a deferred closure, `trackUpdatesOfPeer(peer)`, which captures what `peer` owns then
and, when the operation returns, calls `f` with that, what `peer` owns now, and whether `peer`
is the ring's. `Restore`, `ClaimForPeers`, `GrantRangeToHost` and `Merge`, even a `Merge` that
fails, register one for the ring's peer; `Transfer(from, to)` registers one for the ring's peer
and then one for `from`, and deferred closures run last registered first; `ReportFree` registers
none, and changes no owner (`ownedRangesOfPeer_reportFree`). Each call is modelled as an
`Update`, with the peer whose closure made it.

On a run that restores only rings of the ring's own peer and never transfers that peer's own
entries (`Op.Tracked`), the calls for the ring's peer link up, each starting from what the one
before reported: from what the peer owned when the run started to what it owns at its end, and
from nothing on a new ring (`run_links`, `run_new_links`); every other call concerns another
peer, with what it owned before and after its operation (`Op.updates_of_not_local`).

`Transfer(self, heir)`, which `Allocator.Shutdown` calls, breaks the chain: both of its closures
are the ring's peer's, both captured what the peer owned before, and both report the change, so
the second starts from what the peer owned before the transfer and not from the nothing the first
reported (`transfer_self_notifies_twice`).
-/

namespace WeaveNet.Ring

open Lib

variable {P : Type} [DecidableEq P] [Inhabited P]

/-- A call `onUpdate(prev, curr, local)`, with the peer whose closure made it. -/
structure Update (P : Type) where
  peer : P
  prev : List Range
  curr : List Range
  isLocal : Bool
  deriving DecidableEq, Repr

/-- `trackUpdatesOfPeer(peer)`: the closure registered on the ring `r` and run on what the
operation left of it, `r'`. -/
def trackUpdatesOfPeer (r r' : Ring P) (peer : P) : Update P :=
  ⟨peer, r.ownedRangesOfPeer peer, r'.ownedRangesOfPeer peer, decide (peer = r'.Peer)⟩

/-- `trackUpdates`: the closure for the ring's own peer. -/
def trackUpdates (r r' : Ring P) : Update P := r.trackUpdatesOfPeer r' r.Peer

/-- The operations of `ring.go` that a peer applies to its ring and that may change owners. -/
inductive Op (P : Type) where
  | restore (other : Ring P)
  | claimForPeers (peers : List P)
  | grantRangeToHost (start endAddr : Address) (peer : P)
  | merge (gossip : Ring P)
  | reportFree (freespace : List (Address × Count))
  | transfer (fromPeer toPeer : P)

namespace Op

/-- The ring after an operation. `Restore` copies the other ring, keeping the callback; a `Merge`
that fails leaves the ring as it was. -/
def apply (r : Ring P) : Op P → Ring P
  | .restore other => other
  | .claimForPeers peers => r.claimForPeers peers
  | .grantRangeToHost start endAddr peer => r.grantRangeToHost start endAddr peer
  | .merge gossip =>
    match r.merge gossip with
    | .ok (r', _) => r'
    | .error _ => r
  | .reportFree freespace => (r.reportFree freespace).1
  | .transfer fromPeer toPeer => (r.transfer fromPeer toPeer).1

/-- The calls of `onUpdate` that an operation makes, in the order its deferred closures run. -/
def updates (r : Ring P) (op : Op P) : List (Update P) :=
  match op with
  | .reportFree _ => []
  -- `defer r.trackUpdates()()` and then `defer r.trackUpdatesOfPeer(from)()`
  | .transfer fromPeer _ =>
    [r.trackUpdatesOfPeer (op.apply r) fromPeer, r.trackUpdates (op.apply r)]
  | _ => [r.trackUpdates (op.apply r)]

/-- The operations after which the ring is still `self`'s and its calls for `self` link up:
restoring a ring of `self`'s, and transferring another peer's entries. -/
def Tracked (self : P) : Op P → Prop
  | .restore other => other.Peer = self
  | .transfer fromPeer _ => fromPeer ≠ self
  | _ => True

end Op

/-- A run of operations on a ring: the ring at its end and the calls of `onUpdate`, in order. -/
def run (r : Ring P) : List (Op P) → Ring P × List (Update P)
  | [] => (r, [])
  | op :: ops => ((run (op.apply r) ops).1, op.updates r ++ (run (op.apply r) ops).2)

/-! ## `ReportFree` changes no owner -/

namespace Entry

/-- What `OwnedRangesOfPeer` reads of an entry: its token and its peer. -/
def owned (e : Entry P) : Address × P := (e.Token, e.Peer)

end Entry

omit [DecidableEq P] in
theorem token_entry_map (g : Entry P → Entry P) (hg : ∀ e, (g e).Token = e.Token)
    (es : List (Entry P)) (i : Int) :
    (Entries.entry (es.map g) i).Token = (Entries.entry es i).Token := by
  rw [Entries.entry, Entries.entry, List.length_map, List.getD_eq_getElem?_getD,
    List.getD_eq_getElem?_getD, List.getElem?_map]
  cases es[(i % (es.length : Int)).toNat]? <;> simp [hg]

/-- `OwnedRangesOfPeer` reads only the tokens and the peers of the entries. -/
theorem rangesOfPeer_map (g : Entry P → Entry P) (hg : ∀ e, (g e).owned = e.owned)
    (es : List (Entry P)) (p : P) : Ring.rangesOfPeer (es.map g) p = Ring.rangesOfPeer es p := by
  have hT : ∀ e, (g e).Token = e.Token := fun e => congrArg Prod.fst (hg e)
  have hP : ∀ e, (g e).Peer = e.Peer := fun e => congrArg Prod.snd (hg e)
  simp only [Ring.rangesOfPeer, List.zipIdx_map, List.filter_map, List.map_map]
  congr 1
  · funext x
    simp [hT, token_entry_map g hT]
  · congr 1
    funext x
    simp [hP]

/-- Two lists of entries with the same tokens and peers, in order, give every peer the same
ranges. -/
theorem rangesOfPeer_congr {es es' : List (Entry P)}
    (h : es.map Entry.owned = es'.map Entry.owned) (p : P) :
    Ring.rangesOfPeer es p = Ring.rangesOfPeer es' p := by
  let strip : Entry P → Entry P := fun e => ⟨e.Token, e.Peer, 0, 0⟩
  have hstrip : ∀ e, (strip e).owned = e.owned := fun _ => rfl
  have hmap : es.map strip = es'.map strip := by
    have := congrArg (List.map fun k : Address × P => (⟨k.1, k.2, 0, 0⟩ : Entry P)) h
    simpa [List.map_map, Function.comp_def, Entry.owned] using this
  rw [← rangesOfPeer_map strip hstrip es, hmap, rangesOfPeer_map strip hstrip]

omit [DecidableEq P] [Inhabited P] in
theorem map_owned_modify (f : Entry P → Entry P) (hf : ∀ e, (f e).owned = e.owned) :
    ∀ (es : List (Entry P)) (i : Nat), (es.modify i f).map Entry.owned = es.map Entry.owned
  | [], _ => by simp
  | e :: es, 0 => by
    rw [List.modify_zero_cons, List.map_cons, List.map_cons, hf]
  | e :: es, i + 1 => by
    rw [List.modify_succ_cons, List.map_cons, List.map_cons, map_owned_modify f hf es i]

omit [DecidableEq P] in
/-- The loop of `ReportFree` writes free counts and versions only. -/
theorem map_owned_reportFreeLoop (r : Ring P) :
    ∀ (es : List (Entry P)) (freespace : List (Address × Count)) (updated : Bool),
      (r.reportFreeLoop es freespace updated).1.map Entry.owned = es.map Entry.owned
  | es, [], _ => rfl
  | es, (start, free) :: rest, updated => by
    rw [Ring.reportFreeLoop]
    split_ifs
    · exact map_owned_reportFreeLoop r es rest updated
    · rw [map_owned_reportFreeLoop r _ rest true]
      apply map_owned_modify
      intro e
      rfl

theorem ownedRangesOfPeer_reportFree (r : Ring P) (freespace : List (Address × Count)) (p : P) :
    (r.reportFree freespace).1.ownedRangesOfPeer p = r.ownedRangesOfPeer p := by
  simp only [Ring.reportFree, Ring.ownedRangesOfPeer]
  rw [rangesOfPeer_congr (map_owned_reportFreeLoop r _ _ false)]
  rfl

/-! ## The ring stays its peer's -/

theorem merge_peer {r gossip r' : Ring P} {updated : Bool}
    (h : r.merge gossip = .ok (r', updated)) : r'.Peer = r.Peer := by
  unfold Ring.merge at h
  simp only [bind, Except.bind, pure, Except.pure, throw, throwThe, MonadExceptOf.throw] at h
  -- past the check of the gossip: the checks of its seeds and of its range either fail or lead
  -- on to the merge of the entries and the check of the result
  split at h
  · cases h
  split_ifs at h
  all_goals
    split at h
    · cases h
    · split at h
      · cases h
      · -- the ring returned is ours, with the merged entries and perhaps the gossip's seeds
        cases h
        rfl

omit [DecidableEq P] in
theorem grantRangeToHost_peer (r : Ring P) (start endAddr : Address) (peer : P) :
    (r.grantRangeToHost start endAddr peer).Peer = r.Peer := by
  unfold Ring.grantRangeToHost
  dsimp only
  split_ifs <;> rfl

/-- After `Transfer(from, to)` to another peer, `from` owns nothing. -/
theorem ownedRangesOfPeer_transfer_from (r : Ring P) {fromPeer toPeer : P}
    (hne : toPeer ≠ fromPeer) : (r.transfer fromPeer toPeer).1.ownedRangesOfPeer fromPeer = [] := by
  have hnil : Ring.rangesOfPeer (r.transfer fromPeer toPeer).1.Entries fromPeer = [] := by
    simp only [Ring.transfer, Ring.rangesOfPeer, List.map_eq_nil_iff, List.filter_eq_nil_iff]
    intro x hx
    -- every entry of `from` went to `to`
    obtain ⟨e, -, he⟩ := List.mem_map.1 (List.fst_mem_of_mem_zipIdx hx)
    rw [← he]
    split_ifs with hfrom
    · simpa using hne
    · simpa using hfrom
  simp [Ring.ownedRangesOfPeer, hnil, Ring.splitRangesOverZero]

namespace Op

/-- A tracked operation leaves the ring its peer's. -/
theorem apply_peer {r : Ring P} {op : Op P} (h : op.Tracked r.Peer) :
    (op.apply r).Peer = r.Peer := by
  cases op with
  | restore other => exact h
  | claimForPeers peers => rfl
  | grantRangeToHost start endAddr peer => exact grantRangeToHost_peer r start endAddr peer
  | merge gossip =>
    rcases hm : r.merge gossip with err | ⟨r', updated⟩
    · simp only [apply, hm]
    · simp only [apply, hm]
      exact merge_peer hm
  | reportFree freespace => rfl
  | transfer fromPeer toPeer => rfl

/-- Every call an operation makes is a closure's, for some peer. -/
theorem mem_updates {r : Ring P} {op : Op P} {u : Update P} (hu : u ∈ op.updates r) :
    ∃ p, u = r.trackUpdatesOfPeer (op.apply r) p := by
  cases op <;> simp only [updates, List.mem_cons, List.not_mem_nil, or_false] at hu
  all_goals first
    | exact ⟨_, hu⟩
    | (rcases hu with rfl | rfl <;> exact ⟨_, rfl⟩)

/-- The calls a tracked operation makes for the ring's peer lead from what the peer owned before
to what it owns after: the one call of its closure, or none for `ReportFree`, which changes no
owner. -/
theorem links_local {r : Ring P} {op : Op P} (h : op.Tracked r.Peer) :
    Links Update.prev Update.curr (r.ownedRangesOfPeer r.Peer)
      ((op.updates r).filter (·.isLocal)) ((op.apply r).ownedRangesOfPeer r.Peer) := by
  have hpeer := apply_peer h
  -- the closure for the ring's peer makes a local call
  have hself : (r.trackUpdates (op.apply r)).isLocal = true := by
    simp [Ring.trackUpdates, Ring.trackUpdatesOfPeer, hpeer]
  cases op with
  | reportFree freespace => simp [updates, apply, ownedRangesOfPeer_reportFree]
  | transfer fromPeer toPeer =>
    -- `from`'s closure is another peer's
    have hfrom : (r.trackUpdatesOfPeer ((transfer fromPeer toPeer).apply r) fromPeer).isLocal =
        false := by
      simp only [Tracked] at h
      simpa [Ring.trackUpdatesOfPeer, hpeer] using h
    simp only [updates, List.filter_cons, hfrom, hself, List.filter_nil, if_true]
    simp [Ring.trackUpdates, Ring.trackUpdatesOfPeer]
  | restore _ | claimForPeers _ | grantRangeToHost _ _ _ | merge _ =>
    simp only [updates, List.filter_cons, hself, List.filter_nil, if_true]
    simp [Ring.trackUpdates, Ring.trackUpdatesOfPeer]

/-- Every other call a tracked operation makes concerns another peer, with what that peer owned
before and after the operation. -/
theorem updates_of_not_local {r : Ring P} {op : Op P} (h : op.Tracked r.Peer) :
    ∀ u ∈ op.updates r, u.isLocal = false →
      u.peer ≠ r.Peer ∧ u.prev = r.ownedRangesOfPeer u.peer ∧
        u.curr = (op.apply r).ownedRangesOfPeer u.peer := by
  intro u hu hloc
  obtain ⟨p, rfl⟩ := mem_updates hu
  simp only [Ring.trackUpdatesOfPeer, decide_eq_false_iff_not, apply_peer h] at hloc
  exact ⟨hloc, rfl, rfl⟩

/-- The rest of a tracked run is tracked for the ring its first operation leaves. -/
theorem tracked_apply {r : Ring P} {op : Op P} {ops : List (Op P)}
    (hops : ∀ o ∈ op :: ops, o.Tracked r.Peer) : ∀ o ∈ ops, o.Tracked (op.apply r).Peer := by
  rw [apply_peer (hops op List.mem_cons_self)]
  exact fun o ho => hops o (List.mem_cons_of_mem _ ho)

end Op

/-- **The chain of local calls.** Over a run of tracked operations the ring stays its peer's, and
the calls for its peer link up, from what the peer owned at the start to what it owns at the end.
Induction on the run, by `Op.links_local` and `links_append`. -/
theorem run_links : ∀ (r : Ring P) (ops : List (Op P)), (∀ op ∈ ops, op.Tracked r.Peer) →
    (run r ops).1.Peer = r.Peer ∧
      Links Update.prev Update.curr (r.ownedRangesOfPeer r.Peer)
        ((run r ops).2.filter (·.isLocal)) ((run r ops).1.ownedRangesOfPeer r.Peer)
  | r, [], _ => ⟨rfl, by simp [run]⟩
  | r, op :: ops, hops => by
    have hop := hops op (List.mem_cons_self ..)
    have hpeer := Op.apply_peer hop
    obtain ⟨hp, hl⟩ := run_links (op.apply r) ops (Op.tracked_apply hops)
    rw [hpeer] at hp hl
    refine ⟨hp, ?_⟩
    simp only [run, List.filter_append]
    exact links_append.2 ⟨_, Op.links_local hop, hl⟩

/-- Over a run of tracked operations every call that is not local concerns another peer. -/
theorem run_not_local : ∀ (r : Ring P) (ops : List (Op P)), (∀ op ∈ ops, op.Tracked r.Peer) →
    ∀ u ∈ (run r ops).2, u.isLocal = false → u.peer ≠ r.Peer
  | r, [], _ => by simp [run]
  | r, op :: ops, hops => by
    have hop := hops op (List.mem_cons_self ..)
    have hpeer := Op.apply_peer hop
    intro u hu hloc
    rcases List.mem_append.1 hu with hu | hu
    · exact (Op.updates_of_not_local hop u hu hloc).1
    · have := run_not_local (op.apply r) ops (Op.tracked_apply hops) u hu hloc
      rwa [hpeer] at this

/-- On a new ring the local calls of a tracked run start from nothing, each starts where the one
before ended, and the last ends at what the ring's peer owns. -/
theorem run_new_links (start endAddr : Address) (self : P) (ops : List (Op P))
    (hops : ∀ op ∈ ops, op.Tracked self) :
    let locals := (run (Ring.new start endAddr self) ops).2.filter (·.isLocal)
    (∀ u ∈ locals.head?, u.prev = []) ∧ locals.IsChain (fun u v => v.prev = u.curr) ∧
      ∀ u ∈ locals.getLast?,
        u.curr = (run (Ring.new start endAddr self) ops).1.ownedRangesOfPeer self := by
  intro locals
  have hl := (run_links (Ring.new start endAddr self) ops hops).2
  have hpeer : (Ring.new start endAddr self).Peer = self := rfl
  have hnew : (Ring.new start endAddr self).ownedRangesOfPeer self = [] := rfl
  rw [hpeer, hnew] at hl
  exact ⟨hl.head, hl.isChain, hl.getLast⟩

/-! ## `Transfer(self, heir)` -/

theorem transfer_self_notifies_twice (r : Ring P) (heir : P) (hheir : heir ≠ r.Peer)
    (howned : r.ownedRangesOfPeer r.Peer ≠ []) :
    let r' := (Op.transfer r.Peer heir).apply r
    (Op.transfer r.Peer heir).updates r =
        [⟨r.Peer, r.ownedRangesOfPeer r.Peer, [], true⟩,
          ⟨r.Peer, r.ownedRangesOfPeer r.Peer, [], true⟩] ∧
      ¬Links Update.prev Update.curr (r.ownedRangesOfPeer r.Peer)
        (((Op.transfer r.Peer heir).updates r).filter (·.isLocal))
        (r'.ownedRangesOfPeer r.Peer) := by
  intro r'
  -- both closures are the ring's peer's, and after the transfer it owns nothing
  have hnone : r'.ownedRangesOfPeer r.Peer = [] := ownedRangesOfPeer_transfer_from r hheir
  have hcall : r.trackUpdatesOfPeer r' r.Peer = ⟨r.Peer, r.ownedRangesOfPeer r.Peer, [], true⟩ := by
    have hpeer : r'.Peer = r.Peer := rfl
    simp only [Ring.trackUpdatesOfPeer, hnone, hpeer, decide_true]
  have hupdates : (Op.transfer r.Peer heir).updates r =
      [⟨r.Peer, r.ownedRangesOfPeer r.Peer, [], true⟩,
        ⟨r.Peer, r.ownedRangesOfPeer r.Peer, [], true⟩] := by
    simp only [Op.updates, Ring.trackUpdates]
    rw [hcall]
  refine ⟨hupdates, ?_⟩
  -- the second call starts from what the peer owned before, not from the first call's nothing
  rw [hupdates]
  simp [howned]

theorem transfer_self_notifies_twice_after_claim :
    let r : Ring Nat := (Op.claimForPeers [1]).apply (Ring.new 0 8 1)
    (2 ≠ r.Peer ∧ r.ownedRangesOfPeer r.Peer ≠ []) ∧
      let r' := (Op.transfer r.Peer 2).apply r
      (Op.transfer r.Peer 2).updates r =
          [⟨r.Peer, r.ownedRangesOfPeer r.Peer, [], true⟩,
            ⟨r.Peer, r.ownedRangesOfPeer r.Peer, [], true⟩] ∧
        ¬Links Update.prev Update.curr (r.ownedRangesOfPeer r.Peer)
          (((Op.transfer r.Peer 2).updates r).filter (·.isLocal))
          (r'.ownedRangesOfPeer r.Peer) := by
  intro r
  have h : 2 ≠ r.Peer ∧ r.ownedRangesOfPeer r.Peer ≠ [] := by decide
  exact ⟨h, transfer_self_notifies_twice r 2 h.1 h.2⟩

end WeaveNet.Ring
