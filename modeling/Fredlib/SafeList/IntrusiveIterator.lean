/-
  Fredlib.SafeList.IntrusiveIterator

  `IntrusiveSafeList::Iterator` of include/safe_list.hpp: an iterator of the base
  class, and a pointer to the list for `getParent`.

  `++` and `--` are those of the base, so an iterator of the objects walks where one
  of the hooks does.  The pointer to the list is set by the constructors alone; the
  assignment copies the base iterator and leaves it as it was.
-/

import Fredlib.SafeList.Objects
import Fredlib.SafeList.Walk

namespace Fredlib

open Lib SafeList

namespace IntrusiveSafeList

variable {ι T : Type*}

/-- `IntrusiveSafeList::Iterator`. -/
structure Iterator (ι : Type*) where
  baseIter : SafeList.Iterator ι Addr
  mParent : Option ι
  deriving DecidableEq

namespace Iterator

/-- The constructor. -/
def create (lists : ι → IntrusiveSafeList T) (parent : Option ι) : Iterator ι where
  mParent := parent
  baseIter := .create (fun i => (lists i).list.data.list) parent

/-- The copy constructor. -/
def copy (iter : Iterator ι) : Iterator ι :=
  { mParent := iter.mParent, baseIter := iter.baseIter }

/-- `operator=` -/
def assign (it rhs : Iterator ι) : Iterator ι := { it with baseIter := rhs.baseIter }

/-- Prefix `++`. -/
def increment (heap : Heap Addr) (it : Iterator ι) : Option (Iterator ι) :=
  (it.baseIter.increment heap).map fun baseIter => { it with baseIter := baseIter }

/-- Prefix `--`. -/
def decrement (heap : Heap Addr) (it : Iterator ι) : Option (Iterator ι) :=
  (it.baseIter.decrement heap).map fun baseIter => { it with baseIter := baseIter }

/-- Postfix `++`: what it returns, and the iterator afterwards. -/
def postIncrement (heap : Heap Addr) (it : Iterator ι) : Option (Iterator ι × Iterator ι) :=
  let temp := it.copy
  (it.increment heap).map fun it => (temp, it)

/-- Postfix `--`. -/
def postDecrement (heap : Heap Addr) (it : Iterator ι) : Option (Iterator ι × Iterator ι) :=
  let temp := it.copy
  (it.decrement heap).map fun it => (temp, it)

/-- `operator->`.  `none` if a null node or a null list is dereferenced. -/
def arrow (lists : ι → IntrusiveSafeList T) (it : Iterator ι) : Option Addr :=
  it.mParent.bind fun parent => it.baseIter.deref.map (lists parent).getParent

/-- `operator*`, the object it refers to. -/
def deref (lists : ι → IntrusiveSafeList T) (it : Iterator ι) : Option Addr :=
  it.mParent.bind fun parent => it.baseIter.deref.map (lists parent).getParent

/-- `is_valid` -/
def isValid (it : Iterator ι) : Bool := it.baseIter.isValid

/-- `operator==` -/
def equal [DecidableEq ι] (lhs rhs : Iterator ι) : Bool := lhs.baseIter.equal rhs.baseIter

end Iterator

/-- `begin` -/
def beginIter (lists : ι → IntrusiveSafeList T) (this : ι) : Iterator ι :=
  .create lists (some this)

/-- `end` -/
def endIter (lists : ι → IntrusiveSafeList T) : Iterator ι := .create lists none

/-- The operations of `IntrusiveSafeList::Iterator` on the lists of one type. -/
def cursor [DecidableEq ι] (ptrToHook : Addr) (f : Family ι Addr) : Cursor (Iterator ι) Addr where
  increment := Iterator.increment f.heap
  decrement := Iterator.decrement f.heap
  deref := Iterator.deref (f.intrusive ptrToHook)
  isValid := Iterator.isValid
  equal := Iterator.equal

-- ============================================================================
-- Traversals
-- ============================================================================

variable {ptrToHook : Addr} {f : Family ι Addr} {t : ι → List Addr} {this : ι} {k : Nat}

/-- The iterator of the list `this` at the position `k` of its objects. -/
def Iterator.position (ptrToHook : Addr) (this : ι) (s : List Addr) (k : Nat) : Iterator ι where
  baseIter := .position this (s.map (getHook ptrToHook)) k
  mParent := some this

theorem beginIter_eq (h : HoldsAll ptrToHook f t) :
    beginIter (f.intrusive ptrToHook) this = Iterator.position ptrToHook this (t this) 0 :=
  congrArg (fun baseIter => (⟨baseIter, some this⟩ : Iterator ι))
    (h.beginIter_eq this)

variable [DecidableEq ι]

section

variable {baseIter : SafeList.Iterator ι Addr} {parent : Option ι}

theorem increment_mk : (cursor ptrToHook f).increment ⟨baseIter, parent⟩ =
    ((SafeList.cursor ι f.heap).increment baseIter).map fun baseIter => ⟨baseIter, parent⟩ := rfl

theorem decrement_mk : (cursor ptrToHook f).decrement ⟨baseIter, parent⟩ =
    ((SafeList.cursor ι f.heap).decrement baseIter).map fun baseIter => ⟨baseIter, parent⟩ := rfl

theorem deref_mk : (cursor ptrToHook f).deref ⟨baseIter, some this⟩ =
    ((SafeList.cursor ι f.heap).deref baseIter).map (f.intrusive ptrToHook this).getParent := rfl

end

theorem length_hooks {s : List Addr} : (s.map (getHook ptrToHook)).length = s.length :=
  List.length_map _

theorem HoldsAll.base_track (h : HoldsAll ptrToHook f t) :
    Cursor.Track (SafeList.cursor ι f.heap)
      (SafeList.Iterator.position this ((t this).map (getHook ptrToHook)))
      (SafeList.endIter f.lists) (SafeList.Iterator.create f.lists none)
      ((t this).map (getHook ptrToHook)) :=
  Family.Represents.track h this

/-- The iterators of a list follow its objects. -/
theorem HoldsAll.track (h : HoldsAll ptrToHook f t) (this : ι) :
    Cursor.Track (cursor ptrToHook f) (Iterator.position ptrToHook this (t this))
      (endIter (f.intrusive ptrToHook)) (Iterator.create (f.intrusive ptrToHook) none)
      (t this) where
  increment k hk := by
    rw [Iterator.position, increment_mk, h.base_track.increment k (by rwa [length_hooks])]
    rfl
  decrement k hk := by
    rw [Iterator.position, decrement_mk, h.base_track.decrement k (by rwa [length_hooks])]
    rfl
  out hne := by
    obtain ⟨baseIter, hout, hnull, hvalid⟩ := h.base_track.out (mt List.map_eq_nil_iff.mp hne)
    refine ⟨⟨baseIter, some this⟩, ?_, hnull, hvalid⟩
    rw [Iterator.position, decrement_mk, hout]
    rfl
  deref k hk := by
    rw [Iterator.position, deref_mk, h.base_track.deref k (by rwa [length_hooks]),
      List.getElem_map, Option.map_some, getParent_intrusive]
  isValid k hk := by
    have hvalid := h.base_track.isValid k (by rwa [length_hooks])
    rwa [length_hooks] at hvalid
  equal_last k hk := by
    have hlast := h.base_track.equal_last k (by rwa [length_hooks])
    rwa [length_hooks] at hlast

/-- Nor can an iterator of the objects be moved at the end. -/
theorem moves_end (ptrToHook : Addr) (f : Family ι Addr) (s : List Addr) (this : ι) :
    (cursor ptrToHook f).increment (Iterator.position ptrToHook this s s.length) = none ∧
      (cursor ptrToHook f).decrement (Iterator.position ptrToHook this s s.length) = none := by
  obtain ⟨hnext, hprev⟩ :=
    Family.Represents.moves_end f this (s.map (getHook ptrToHook))
  rw [List.length_map] at hnext hprev
  rw [Iterator.position, increment_mk, decrement_mk]
  exact ⟨Option.map_eq_none_iff.mpr hnext, Option.map_eq_none_iff.mpr hprev⟩

omit [DecidableEq ι] in
/-- An object that no list holds may be pushed. -/
theorem HoldsAll.allowed_pushBack {a : Addr} (h : HoldsAll ptrToHook f t) (hnew : ∀ i, a ∉ t i) :
    Allowed ptrToHook f (this, .op (.pushBack (some a))) := by
  constructor
  · rintro b hb i hlinked
    cases hb
    have hmem := (Family.Represents.linked_iff h).mp hlinked
    exact hnew i ((List.mem_map_of_injective (getHook_injective ptrToHook)).mp hmem)
  · intro b hb
    cases hb

/-- **Iterators visit exactly the elements.**  After every run of allowed calls on
    lists of hooks, and on lists of objects, an iterator goes from `begin()` through
    the sequence that the calls have made of the list to `end()`, and back from
    any place in it and out of the list. -/
theorem iterators_visit_elements {α : Type*} [DecidableEq α] (ptrToHook : Addr) :
    (∀ log (f : Family ι α), (family ι α).Traced Family.Allowed returns log f →
      ∃ t, (sequences ι α).Traced (fun _ _ => True) seqReturns log t ∧ ∀ this,
        (t this).Nodup ∧
        (SafeList.cursor ι f.heap).Visits (SafeList.beginIter f.lists this)
          (SafeList.endIter f.lists) (SafeList.Iterator.create f.lists none) (t this)) ∧
    ∀ log (f : Family ι Addr),
      (objects ι ptrToHook).Traced (Allowed ptrToHook) (objectReturns ptrToHook) log f →
      ∃ t, (sequences ι Addr).Traced (fun _ _ => True) seqReturns log t ∧ ∀ this,
        (t this).Nodup ∧
        (cursor ptrToHook f).Visits (beginIter (f.intrusive ptrToHook) this)
          (endIter (f.intrusive ptrToHook)) (Iterator.create (f.intrusive ptrToHook) none)
          (t this) := by
  constructor
  · intro log f h
    obtain ⟨t, htrace, hrep⟩ := family_refines.traced h
    refine ⟨t, htrace, fun this => ⟨(hrep.list this).nodup, ?_⟩⟩
    rw [hrep.beginIter_eq this]
    exact (hrep.track this).visits
  · intro log f h
    obtain ⟨t, htrace, hholds⟩ := objects_refine.traced h
    refine ⟨t, htrace, fun this => ⟨?_, ?_⟩⟩
    · exact (List.nodup_map_iff (getHook_injective ptrToHook)).mp (hholds.list this).nodup
    · rw [beginIter_eq hholds]
      exact (hholds.track this).visits

/-- Two objects are pushed. -/
theorem iterators_visit_elements_two :
    ∃ log f, (objects Unit 8).Traced (Allowed 8) (objectReturns 8) log f ∧
      (cursor 8 f).Visits (beginIter (f.intrusive 8) ()) (endIter (f.intrusive 8))
        (Iterator.create (f.intrusive 8) none) [16, 40] := by
  have hinit : (objects Unit 8).init ⟨fun _ => SafeList.create, fun _ => ListHook.unlinked⟩ :=
    ⟨fun _ => rfl, fun _ => rfl⟩
  have hempty : HoldsAll 8 ⟨fun _ : Unit => SafeList.create, fun _ => ListHook.unlinked⟩
      fun _ => [] := by
    obtain ⟨t, ht, hholds⟩ := objects_refine.init _ hinit
    obtain rfl : t = fun _ => [] := funext ht
    exact hholds
  have hok : Allowed 8 _ ((), .op (.pushBack (some 16))) :=
    hempty.allowed_pushBack fun _ => List.not_mem_nil
  obtain ⟨t, ht, hone, -⟩ := objects_refine.step _ _ _ _ hempty hok rfl
  cases ht
  have hok' : Allowed 8 _ ((), .op (.pushBack (some 40))) :=
    hone.allowed_pushBack fun i => by cases i; decide
  have hrun : (objects Unit 8).Traced (Allowed 8) (objectReturns 8) _ _ :=
    ((System.Traced.init hinit).step hok rfl).step hok' rfl
  obtain ⟨t, -, hall⟩ := (iterators_visit_elements (α := Addr) 8).2 _ _ hrun
  have hvisits := (hall ()).2
  -- the loop over the list tells which sequence it is
  have ht : [16, 40] = t () :=
    Option.some.inj (Eq.trans rfl (hvisits.loop ((t ()).length + 3) (by omega)))
  exact ⟨_, _, hrun, ht ▸ hvisits⟩
-- ============================================================================
-- There and back
-- ============================================================================

/-- `--(++p)` and `++(--q)`, at every position of a list of objects. -/
theorem HoldsAll.there_and_back (h : HoldsAll ptrToHook f t) {p : Iterator ι}
    (hp : Cursor.times (Iterator.increment f.heap) k (beginIter (f.intrusive ptrToHook) this) =
      some p) :
    (p.equal (endIter (f.intrusive ptrToHook)) = false →
      ((p.increment f.heap).bind (Iterator.decrement f.heap) = some p ↔
        p.baseIter.mCurrent ≠ (f.lists this).mTail)) ∧
    (p.equal (beginIter (f.intrusive ptrToHook) this) = false →
      ((p.decrement f.heap).bind (Iterator.increment f.heap) = some p ↔
        p.equal (endIter (f.intrusive ptrToHook)) = false)) := by
  have hends := moves_end ptrToHook f (t this) this
  rw [beginIter_eq h] at hp ⊢
  obtain ⟨hforth, hback⟩ := (h.track this).bidirectional_iff hends hp
  constructor
  · intro hend
    obtain ⟨hlt, hiff⟩ := hforth hend
    have hpos := ((h.track this).eq_pos hends.1 hp).2
    have htail := (h.list this).getElem?_eq_tail_iff (k := k) (by rwa [length_hooks])
    rw [length_hooks] at htail
    rw [hpos] at hiff ⊢
    exact hiff.trans (not_congr htail.symm)
  · intro hbegin
    refine hback ?_
    rintro rfl
    rw [Iterator.equal, SafeList.Iterator.equal_iff.mpr rfl] at hbegin
    cases hbegin

/-- **Where the iterators are bidirectional.**  On every list that allowed calls lead
    to, `--(++p)` is `p` exactly if `p` is not at the last element, and `++(--q)` is `q`
    exactly if `q` is not `end()`; `--end()` locks the mutex of no list. -/
theorem iterators_bidirectional_iff {α : Type*} [DecidableEq α] (ptrToHook : Addr) :
    (∀ f : Family ι α, (family ι α).ReachableBy Family.Allowed f → ∀ this k p,
      Cursor.times (SafeList.Iterator.increment f.heap) k (SafeList.beginIter f.lists this) =
        some p →
      (p.equal (SafeList.endIter f.lists) = false →
        ((p.increment f.heap).bind (SafeList.Iterator.decrement f.heap) = some p ↔
          p.mCurrent ≠ (f.lists this).mTail)) ∧
      (p.equal (SafeList.beginIter f.lists this) = false →
        ((p.decrement f.heap).bind (SafeList.Iterator.increment f.heap) = some p ↔
          p.equal (SafeList.endIter f.lists) = false)) ∧
      (SafeList.endIter f.lists).decrement f.heap = none) ∧
    ∀ f : Family ι Addr, (objects ι ptrToHook).ReachableBy (Allowed ptrToHook) f → ∀ this k p,
      Cursor.times (Iterator.increment f.heap) k (beginIter (f.intrusive ptrToHook) this) =
        some p →
      (p.equal (endIter (f.intrusive ptrToHook)) = false →
        ((p.increment f.heap).bind (Iterator.decrement f.heap) = some p ↔
          p.baseIter.mCurrent ≠ (f.lists this).mTail)) ∧
      (p.equal (beginIter (f.intrusive ptrToHook) this) = false →
        ((p.decrement f.heap).bind (Iterator.increment f.heap) = some p ↔
          p.equal (endIter (f.intrusive ptrToHook)) = false)) ∧
      (endIter (f.intrusive ptrToHook)).decrement f.heap = none := by
  constructor
  · intro f h this k p hp
    obtain ⟨log, htraced⟩ := h.traced returns
    obtain ⟨t, -, hrep⟩ := family_refines.traced htraced
    obtain ⟨hforth, hback⟩ := hrep.there_and_back hp
    exact ⟨hforth, hback, rfl⟩
  · intro f h this k p hp
    obtain ⟨log, htraced⟩ := h.traced (objectReturns ptrToHook)
    obtain ⟨t, -, hholds⟩ := objects_refine.traced htraced
    obtain ⟨hforth, hback⟩ := hholds.there_and_back hp
    exact ⟨hforth, hback, rfl⟩

/-- A list of one node: `++` leads to `end()`, and there is no way back. -/
theorem no_way_back_from_end : ∃ f : Family Bool Nat,
    (family Bool Nat).ReachableBy Family.Allowed f ∧ (f.lists true).empty = false ∧
    (SafeList.beginIter f.lists true).equal (SafeList.endIter f.lists) = false ∧
    (SafeList.beginIter f.lists true).increment f.heap = some (SafeList.endIter f.lists) ∧
    (SafeList.endIter f.lists).decrement f.heap = none := by
  have hinit : (family Bool Nat).ReachableBy Family.Allowed emptyFamily :=
    .init ⟨fun _ => rfl, fun _ => rfl⟩
  refine ⟨_, hinit.step (true, .op (.pushBack (some 7))) ⟨?_, ?_⟩ rfl, by rfl, by rfl, by rfl, rfl⟩
  · rintro a - j ⟨x, hx, -⟩
    cases hx
  · intro a ha
    cases ha

end IntrusiveSafeList
end Fredlib
