/-
  Fredlib.SafeList.Iterator

  `SafeList::Iterator` of include/safe_list.hpp: a pointer to the current node
  and a pointer to the list.  Lists are known here by names of any type.

  The constructor reads `mHead` without the lock; `++` and `--` follow the links
  under the lock of the parent, and forget the parent when they leave the list.
-/

import Fredlib.SafeList.Basic

namespace Fredlib
namespace SafeList

variable {ι α : Type*}

/-- `SafeList::Iterator`. -/
structure Iterator (ι α : Type*) where
  mCurrent : Option α
  mParent : Option ι
  deriving DecidableEq

namespace Iterator

/-- The constructor. -/
def create (lists : ι → SafeList α) (parent : Option ι) : Iterator ι α :=
  let mCurrent := parent.bind fun p => (lists p).mHead
  { mCurrent := mCurrent, mParent := if mCurrent = none then none else parent }

/-- Prefix `++`.  `none` if a null parent or a null node is dereferenced. -/
def increment (heap : Heap α) (it : Iterator ι α) : Option (Iterator ι α) :=
  match it.mParent, it.mCurrent with
  | some parent, some current =>
      let mCurrent := (heap current).next
      some { mCurrent := mCurrent, mParent := if mCurrent = none then none else some parent }
  | _, _ => none

/-- Prefix `--`.  `none` as for `++`. -/
def decrement (heap : Heap α) (it : Iterator ι α) : Option (Iterator ι α) :=
  match it.mParent, it.mCurrent with
  | some parent, some current =>
      let mCurrent := (heap current).prev
      some { mCurrent := mCurrent, mParent := if mCurrent = none then none else some parent }
  | _, _ => none

/-- `operator*`, the node it refers to.  `none` if a null node is dereferenced. -/
def deref (it : Iterator ι α) : Option α := it.mCurrent

/-- `is_valid` -/
def isValid (it : Iterator ι α) : Bool := !(it.mParent.isNone)

/-- `operator==` -/
def equal [DecidableEq ι] [DecidableEq α] (lhs rhs : Iterator ι α) : Bool :=
  lhs.mCurrent == rhs.mCurrent && lhs.mParent == rhs.mParent

end Iterator

/-- `begin` -/
def beginIter (lists : ι → SafeList α) (this : ι) : Iterator ι α :=
  Iterator.create lists (some this)

/-- `end` -/
def endIter (lists : ι → SafeList α) : Iterator ι α := Iterator.create lists none

namespace Iterator

/-- An iterator that `begin`, `end` and `++` can produce: it has a parent exactly
    if it has a node. -/
def WellFormed (it : Iterator ι α) : Prop := it.mParent = none ↔ it.mCurrent = none

theorem create_wellFormed (lists : ι → SafeList α) (parent : Option ι) :
    (create lists parent).WellFormed := by
  cases parent with
  | none => simp [create, WellFormed]
  | some p => cases h : (lists p).mHead <;> simp [create, WellFormed, h]

variable {heap : Heap α} {it it' : Iterator ι α}

theorem increment_some (h : it.increment heap = some it') :
    ∃ current, it.mCurrent = some current ∧ it'.mCurrent = (heap current).next ∧
      it'.WellFormed := by
  unfold increment at h
  split at h
  · rename_i parent current hp hc
    cases h
    refine ⟨current, hc, rfl, ?_⟩
    cases hnext : (heap current).next <;> simp [WellFormed]
  · cases h

/-- A well-formed iterator other than `end` can be incremented. -/
theorem increment_defined (heap : Heap α) (h : it.WellFormed) {current : α}
    (hc : it.mCurrent = some current) :
    ∃ it', it.increment heap = some it' := by
  obtain ⟨mCurrent, mParent⟩ := it
  cases hc
  cases mParent with
  | none => simp [WellFormed] at h
  | some parent => exact ⟨_, rfl⟩

end Iterator
end SafeList
end Fredlib
