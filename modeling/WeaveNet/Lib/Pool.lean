import Mathlib

/-!
# Pools of resources

A pool holds finitely many resources, each either handed out or free. Its operations hand out a
free resource, take one back, add resources it does not hold yet, and give away free ones. This
is the abstract meaning of an allocator's local state: the concrete store refines a pool when
each of its operations acts on the two sets as the pool's does.

What a pool keeps is how many resources it holds in all (`size`): on a pool where no resource is
both handed out and free (`Separate`), handing out and taking back keep the size; adding grows it
by the new resources and giving away shrinks it by the given ones.
-/

namespace WeaveNet.Lib

/-- A pool: the resources handed out and the free ones. -/
structure Pool (α : Type*) where
  handedOut : Finset α
  free : Finset α

namespace Pool

variable {α : Type*} (p : Pool α)

/-- No resource is both handed out and free. -/
def Separate : Prop := Disjoint p.handedOut p.free

/-- The number of resources the pool holds. -/
def size : Nat := p.handedOut.card + p.free.card

/-- The empty pool. -/
def empty : Pool α := ⟨∅, ∅⟩

variable [DecidableEq α]

/-- Hand out the free resource `a`. -/
def handOut (a : α) : Pool α := ⟨insert a p.handedOut, p.free.erase a⟩

/-- Take back the handed-out resource `a`. -/
def giveBack (a : α) : Pool α := ⟨p.handedOut.erase a, insert a p.free⟩

/-- Add as free the resources of `R` the pool does not hold yet. -/
def grow (R : Finset α) : Pool α := ⟨p.handedOut, p.free ∪ (R \ (p.handedOut ∪ p.free))⟩

/-- Give away the resources of `D`, which are free. -/
def remove (D : Finset α) : Pool α := ⟨p.handedOut, p.free \ D⟩

variable {p} {a : α}

theorem size_handOut (hs : p.Separate) (ha : a ∈ p.free) : (p.handOut a).size = p.size := by
  have hout : a ∉ p.handedOut := Finset.disjoint_right.1 hs ha
  have hpos := Finset.card_pos.2 ⟨a, ha⟩
  simp only [size, handOut, Finset.card_insert_of_notMem hout, Finset.card_erase_of_mem ha]
  omega

theorem size_giveBack (hs : p.Separate) (ha : a ∈ p.handedOut) :
    (p.giveBack a).size = p.size := by
  have hfree : a ∉ p.free := Finset.disjoint_left.1 hs ha
  have hpos := Finset.card_pos.2 ⟨a, ha⟩
  simp only [size, giveBack, Finset.card_insert_of_notMem hfree, Finset.card_erase_of_mem ha]
  omega

variable {R D : Finset α}

/-- Adding grows the pool by exactly the resources it did not hold. -/
theorem size_grow : (p.grow R).size = p.size + (R \ (p.handedOut ∪ p.free)).card := by
  have hdisj : Disjoint p.free (R \ (p.handedOut ∪ p.free)) :=
    Finset.disjoint_of_subset_left Finset.subset_union_right Finset.disjoint_sdiff
  simp only [size, grow, Finset.card_union_of_disjoint hdisj]
  omega

/-- Giving away free resources shrinks the pool by exactly their number. -/
theorem size_remove (hD : D ⊆ p.free) : (p.remove D).size + D.card = p.size := by
  simp only [size, remove, Finset.card_sdiff_of_subset hD]
  have := Finset.card_le_card hD
  omega

end Pool

end WeaveNet.Lib
