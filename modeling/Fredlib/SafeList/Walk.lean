/-
  Fredlib.SafeList.Walk

  Iterators of a `SafeList` that nobody changes meanwhile.

  On a list that represents a sequence, `++` and `--` follow its nodes
  (`Family.Represents.track`), so that what is known of traversals in general holds
  of its iterators.  At the end the way back is lost: `++` forgets the parent there,
  and `--` needs it for its lock.
-/

import Fredlib.Lib.Cursor
import Fredlib.SafeList.Iterator
import Fredlib.SafeList.Runs

namespace Fredlib

open Lib SafeList

variable {ι α : Type*}

namespace SafeList

/-- The operations of `SafeList::Iterator` on the nodes of `heap`. -/
def cursor (ι : Type*) [DecidableEq ι] [DecidableEq α] (heap : Heap α) :
    Cursor (Iterator ι α) α where
  increment := Iterator.increment heap
  decrement := Iterator.decrement heap
  deref := Iterator.deref
  isValid := Iterator.isValid
  equal := Iterator.equal

namespace Iterator

/-- The iterator of the list `this` at the position `k` of its nodes. -/
def position (this : ι) (s : List α) (k : Nat) : Iterator ι α :=
  { mCurrent := s[k]?, mParent := if s[k]? = none then none else some this }

variable {heap : Heap α} {this : ι} {s : List α} {k : Nat}

theorem position_of_lt (hk : k < s.length) :
    position this s k = { mCurrent := some s[k], mParent := some this } := by
  simp [position, hk]

theorem position_length : position this s s.length = { mCurrent := none, mParent := none } := by
  simp [position]

theorem equal_iff [DecidableEq ι] [DecidableEq α] {lhs rhs : Iterator ι α} :
    lhs.equal rhs = true ↔ lhs = rhs := by
  obtain ⟨current, parent⟩ := lhs
  obtain ⟨current', parent'⟩ := rhs
  simp [equal]

end Iterator

end SafeList

namespace ListMem.Represents

variable {m : ListMem α} {s : List α} {k : Nat}

/-- The links of the node at the position `k`. -/
theorem links_getElem (h : m.Represents s) (hk : k < s.length) :
    (m.heap s[k]).prev = (s.take k).getLast? ∧ (m.heap s[k]).next = s[k + 1]? := by
  have hsplit : s = s.take k ++ s[k] :: s.drop (k + 1) := by
    rw [← List.drop_eq_getElem_cons hk, List.take_append_drop]
  have hlinks := (hsplit ▸ h : m.Represents (s.take k ++ s[k] :: s.drop (k + 1))).links_at
  rwa [List.head?_drop] at hlinks

/-- `++` from a node leads to the next position. -/
theorem increment_position (h : m.Represents s) (this : ι) (hk : k < s.length) :
    (Iterator.position this s k).increment m.heap = some (Iterator.position this s (k + 1)) := by
  rw [Iterator.position_of_lt hk]
  simp only [Iterator.increment, (h.links_getElem hk).2, Iterator.position]

/-- `--` leads to the position before. -/
theorem decrement_position (h : m.Represents s) (this : ι) (hk : k + 1 < s.length) :
    (Iterator.position this s (k + 1)).decrement m.heap = some (Iterator.position this s k) := by
  have hprev : (m.heap s[k + 1]).prev = some s[k] := by
    rw [(h.links_getElem hk).1, List.getLast?_take, if_neg (by omega), Nat.add_sub_cancel,
      List.getElem?_eq_getElem (by omega), Option.some_or]
  rw [Iterator.position_of_lt hk, Iterator.position_of_lt (Nat.lt_of_succ_lt hk)]
  simp only [Iterator.decrement, hprev, reduceCtorEq, if_false]

/-- And from the first node out of the list. -/
theorem decrement_first (h : m.Represents s) (this : ι) (hpos : 0 < s.length) :
    (Iterator.position this s 0).decrement m.heap = some { mCurrent := none, mParent := none } := by
  have hprev : (m.heap s[0]).prev = none := (h.links_getElem hpos).1
  rw [Iterator.position_of_lt hpos]
  simp only [Iterator.decrement, hprev, if_true]

/-- `mTail` is the node at the last position. -/
theorem getElem?_eq_tail_iff (h : m.Represents s) (hk : k < s.length) :
    s[k]? = m.list.mTail ↔ k + 1 = s.length := by
  have htail : s.getLast? = s[s.length - 1]? := List.getLast?_eq_getElem?
  rw [h.tail, htail, List.getElem?_eq_getElem hk, List.getElem?_eq_getElem (by omega),
    Option.some.injEq, h.nodup.getElem_inj_iff]
  omega

end ListMem.Represents

namespace Family.Represents

variable {f : Family ι α} {t : ι → List α}

/-- `begin()` stands at the first position. -/
theorem beginIter_eq (h : f.Represents t) (this : ι) :
    beginIter f.lists this = Iterator.position this (t this) 0 := by
  have hhead : (f.lists this).mHead = (t this)[0]? :=
    (h.list this).head.trans List.head?_eq_getElem?
  simp only [beginIter, Iterator.create, Iterator.position, Option.bind_some, hhead]

variable [DecidableEq ι] [DecidableEq α]

/-- The iterators of a list follow its nodes. -/
theorem track (h : f.Represents t) (this : ι) :
    Cursor.Track (cursor ι f.heap) (Iterator.position this (t this)) (endIter f.lists)
      (Iterator.create f.lists none) (t this) where
  increment _ hk := (h.list this).increment_position this hk
  decrement _ hk := (h.list this).decrement_position this hk
  out hne := ⟨_, (h.list this).decrement_first this (List.length_pos_iff.mpr hne), rfl, rfl⟩
  deref _ hk := List.getElem?_eq_getElem hk
  isValid k hk := by
    by_cases hlt : k < (t this).length
    · rw [Iterator.position_of_lt hlt, decide_eq_true hlt]
      rfl
    · have hend : k = (t this).length := by omega
      rw [hend, Iterator.position_length, decide_eq_false (Nat.lt_irrefl _)]
      rfl
  equal_last k hk := by
    by_cases hlt : k < (t this).length
    · rw [Iterator.position_of_lt hlt, decide_eq_false (by omega)]
      rfl
    · have hend : k = (t this).length := by omega
      rw [hend, Iterator.position_length, decide_eq_true rfl]
      rfl

/-- At the end an iterator has no list that it could lock. -/
theorem moves_end (f : Family ι α) (this : ι) (s : List α) :
    (cursor ι f.heap).increment (Iterator.position this s s.length) = none ∧
      (cursor ι f.heap).decrement (Iterator.position this s s.length) = none := by
  rw [Iterator.position_length]
  exact ⟨rfl, rfl⟩

/-- `--(++p)` and `++(--q)`, at every position of a list. -/
theorem there_and_back (h : f.Represents t) {this : ι} {k : Nat} {p : Iterator ι α}
    (hp : Cursor.times (Iterator.increment f.heap) k (beginIter f.lists this) = some p) :
    (p.equal (endIter f.lists) = false →
      ((p.increment f.heap).bind (Iterator.decrement f.heap) = some p ↔
        p.mCurrent ≠ (f.lists this).mTail)) ∧
    (p.equal (beginIter f.lists this) = false →
      ((p.decrement f.heap).bind (Iterator.increment f.heap) = some p ↔
        p.equal (endIter f.lists) = false)) := by
  have hends := moves_end f this (t this)
  rw [h.beginIter_eq this] at hp ⊢
  obtain ⟨hforth, hback⟩ := (h.track this).bidirectional_iff hends hp
  constructor
  · intro hend
    obtain ⟨hlt, hiff⟩ := hforth hend
    have hpos := ((h.track this).eq_pos hends.1 hp).2
    rw [hpos] at hiff ⊢
    exact hiff.trans (not_congr ((h.list this).getElem?_eq_tail_iff hlt).symm)
  · intro hbegin
    refine hback ?_
    rintro rfl
    rw [Iterator.equal_iff.mpr rfl] at hbegin
    cases hbegin

end Family.Represents
end Fredlib
