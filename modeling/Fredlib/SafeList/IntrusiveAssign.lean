/-
  Fredlib.SafeList.IntrusiveAssign

  The assignment of `IntrusiveSafeList::Iterator`.

  It copies the base iterator but not the pointer to the list, unlike the copy
  constructor.  The objects do not depend on which list the pointer is to, since all
  lists of a type have the same `mOffset`; but a null pointer is dereferenced
  (`assign_interchangeable_iff`).
-/

import Fredlib.SafeList.IntrusiveIterator

namespace Fredlib

open Lib SafeList

namespace IntrusiveSafeList

variable {ι T : Type*} {ptrToHook : Addr} {f : Family ι Addr}

/-- What a program does with an iterator. -/
inductive IterOp
  | increment
  | decrement
  | postIncrement
  | postDecrement
  | deref
  | arrow
  | isValid
  deriving DecidableEq

/-- What it gets: an iterator, of which it can ask the object and whether it is valid;
    an object; a flag. -/
inductive Result
  | iter (object : Option Addr) (valid : Bool)
  | object (a : Addr)
  | flag (b : Bool)
  deriving DecidableEq

namespace Iterator

/-- What there is to be seen of an iterator. -/
def seen (lists : ι → IntrusiveSafeList T) (it : Iterator ι) : Result :=
  .iter (it.deref lists) it.isValid

/-- One operation.  `none` if it is undefined. -/
def perform (ptrToHook : Addr) (f : Family ι Addr) (it : Iterator ι) :
    IterOp → Option (Result × Iterator ι)
  | .increment => (it.increment f.heap).map fun it => (it.seen (f.intrusive ptrToHook), it)
  | .decrement => (it.decrement f.heap).map fun it => (it.seen (f.intrusive ptrToHook), it)
  | .postIncrement =>
      (it.postIncrement f.heap).map fun r => (r.1.seen (f.intrusive ptrToHook), r.2)
  | .postDecrement =>
      (it.postDecrement f.heap).map fun r => (r.1.seen (f.intrusive ptrToHook), r.2)
  | .deref => (it.deref (f.intrusive ptrToHook)).map fun a => (.object a, it)
  | .arrow => (it.arrow (f.intrusive ptrToHook)).map fun a => (.object a, it)
  | .isValid => some (.flag it.isValid, it)

/-- The results of a sequence of operations, up to the first undefined one; `f k` is
    what the lists are at the operation `k`. -/
def results (ptrToHook : Addr) (f : Nat → Family ι Addr) (it : Iterator ι) :
    List IterOp → List (Option Result)
  | [] => []
  | op :: ops =>
      match it.perform ptrToHook (f 0) op with
      | none => [none]
      | some (r, it) => some r :: results ptrToHook (fun k => f (k + 1)) it ops

/-- Iterators that no operation tells apart. -/
def Alike (a b : Iterator ι) : Prop :=
  a.baseIter = b.baseIter ∧
    ((a.mParent = none ↔ b.mParent = none) ∨ b.baseIter.mCurrent = none)

variable {a b it : Iterator ι} {lists : ι → IntrusiveSafeList T}

theorem deref_eq_none_iff :
    it.deref lists = none ↔ it.mParent = none ∨ it.baseIter.mCurrent = none := by
  cases hparent : it.mParent with
  | none => simp [deref, hparent]
  | some parent => simp [deref, hparent, SafeList.Iterator.deref]

/-- It does not matter which list the object is asked of: the hooks of a type are all at
    the same place of their objects. -/
theorem deref_of_some {hook : Addr} (hcurrent : it.baseIter.mCurrent = some hook)
    (hparent : it.mParent ≠ none) :
    it.deref (f.intrusive ptrToHook) = some (hook - (0 + ptrToHook)) := by
  obtain ⟨parent, hsome⟩ := Option.ne_none_iff_exists'.mp hparent
  simp only [deref, hsome, Option.bind_some, SafeList.Iterator.deref, hcurrent, Option.map_some]
  rfl

theorem Alike.deref_eq (h : Alike a b) :
    a.deref (f.intrusive ptrToHook) = b.deref (f.intrusive ptrToHook) := by
  obtain ⟨hbase, hparent⟩ := h
  cases hcurrent : b.baseIter.mCurrent with
  | none =>
      rw [deref_eq_none_iff.mpr (.inr hcurrent), deref_eq_none_iff.mpr (.inr (hbase ▸ hcurrent))]
  | some hook =>
      have hiff := hparent.resolve_right (by rw [hcurrent]; exact Option.some_ne_none hook)
      by_cases hnone : b.mParent = none
      · rw [deref_eq_none_iff.mpr (.inl hnone), deref_eq_none_iff.mpr (.inl (hiff.mpr hnone))]
      · rw [deref_of_some hcurrent hnone,
          deref_of_some (hbase ▸ hcurrent) (fun ha => hnone (hiff.mp ha))]

theorem Alike.seen_eq (h : Alike a b) :
    a.seen (f.intrusive ptrToHook) = b.seen (f.intrusive ptrToHook) := by
  rw [seen, seen, h.deref_eq, isValid, isValid, h.1]

/-- `++` and `--` from a null node are undefined. -/
theorem moves_null {base : SafeList.Iterator ι Addr} (heap : Heap Addr)
    (hnull : base.mCurrent = none) :
    base.increment heap = none ∧ base.decrement heap = none := by
  obtain ⟨current, parent⟩ := base
  cases hnull
  cases parent <;> exact ⟨rfl, rfl⟩

/-- A move of the base leaves them alike, if there is none from a null node. -/
theorem Alike.move {move : SafeList.Iterator ι Addr → Option (SafeList.Iterator ι Addr)}
    (h : Alike a b) (hnull : b.baseIter.mCurrent = none → move b.baseIter = none) :
    Option.Rel Alike ((move a.baseIter).map fun baseIter => { a with baseIter := baseIter })
      ((move b.baseIter).map fun baseIter => { b with baseIter := baseIter }) := by
  rw [h.1]
  cases hmove : move b.baseIter with
  | none => exact .none
  | some baseIter =>
      refine .some ⟨rfl, .inl (h.2.resolve_right fun hcurrent => ?_)⟩
      rw [hnull hcurrent] at hmove
      cases hmove

theorem Alike.increment (h : Alike a b) (heap : Heap Addr) :
    Option.Rel Alike (a.increment heap) (b.increment heap) :=
  h.move fun hnull => (moves_null heap hnull).1

theorem Alike.decrement (h : Alike a b) (heap : Heap Addr) :
    Option.Rel Alike (a.decrement heap) (b.decrement heap) :=
  h.move fun hnull => (moves_null heap hnull).2

/-- The same result, and iterators that are alike afterwards. -/
def Agrees (x y : Result × Iterator ι) : Prop := x.1 = y.1 ∧ Alike x.2 y.2

theorem agrees_map {ra rb : Option (Iterator ι)} {fa fb : Iterator ι → Result × Iterator ι}
    (h : Option.Rel Alike ra rb) (hf : ∀ {a b}, Alike a b → Agrees (fa a) (fb b)) :
    Option.Rel Agrees (ra.map fa) (rb.map fb) := by
  cases h with
  | none => exact .none
  | some h => exact .some (hf h)

theorem agrees_object (h : Alike a b) (object : Option Addr) :
    Option.Rel Agrees (object.map fun x => (.object x, a)) (object.map fun x => (.object x, b)) := by
  cases object with
  | none => exact .none
  | some x => exact .some ⟨rfl, h⟩

/-- An operation does the same to iterators that are alike, and leaves them alike. -/
theorem Alike.perform (h : Alike a b) (ptrToHook : Addr) (f : Family ι Addr) (op : IterOp) :
    Option.Rel Agrees (a.perform ptrToHook f op) (b.perform ptrToHook f op) := by
  cases op with
  | increment => exact agrees_map (h.increment f.heap) fun h' => ⟨h'.seen_eq, h'⟩
  | decrement => exact agrees_map (h.decrement f.heap) fun h' => ⟨h'.seen_eq, h'⟩
  | postIncrement =>
      -- the iterator returned is the one before the move
      simp only [Iterator.perform, postIncrement, Option.map_map]
      exact agrees_map (h.increment f.heap) fun h' => ⟨h.seen_eq, h'⟩
  | postDecrement =>
      simp only [Iterator.perform, postDecrement, Option.map_map]
      exact agrees_map (h.decrement f.heap) fun h' => ⟨h.seen_eq, h'⟩
  | deref =>
      rw [Iterator.perform, Iterator.perform, h.deref_eq]
      exact agrees_object h _
  | arrow =>
      have harrow : a.arrow (f.intrusive ptrToHook) = b.arrow (f.intrusive ptrToHook) := h.deref_eq
      rw [Iterator.perform, Iterator.perform, harrow]
      exact agrees_object h _
  | isValid => exact .some ⟨congrArg (fun base => Result.flag base.isValid) h.1, h⟩

/-- And so does a whole sequence of operations. -/
theorem Alike.results_eq (h : Alike a b) (f : Nat → Family ι Addr) (ops : List IterOp) :
    results ptrToHook f a ops = results ptrToHook f b ops := by
  induction ops generalizing a b f with
  | nil => rfl
  | cons op ops ih =>
      have hagree := h.perform ptrToHook (f 0) op
      rw [results, results]
      generalize a.perform ptrToHook (f 0) op = x at hagree ⊢
      generalize b.perform ptrToHook (f 0) op = y at hagree ⊢
      cases hagree with
      | none => rfl
      | some hxy =>
          obtain ⟨hresult, halike⟩ := hxy
          simp only [hresult, ih halike]

theorem results_deref (f : Nat → Family ι Addr) (it : Iterator ι) :
    results ptrToHook f it [.deref] = [(it.deref ((f 0).intrusive ptrToHook)).map .object] := by
  cases hderef : it.deref ((f 0).intrusive ptrToHook) <;>
    simp only [results, Iterator.perform, hderef, Option.map_none, Option.map_some]

/-- **Where an assigned iterator is interchangeable with its source.**  After `a = b`
    every sequence of operations on `a` gives the results it gives on a copy of `b`,
    exactly if `a` and `b` both have a list of their own, or neither has, or `b` is at no
    node. -/
theorem assign_interchangeable_iff (ptrToHook : Addr) (f : Nat → Family ι Addr)
    (a b : Iterator ι) :
    (∀ ops, results ptrToHook f (a.assign b) ops = results ptrToHook f b.copy ops) ↔
      ((a.mParent = none ↔ b.mParent = none) ∨ b.baseIter.mCurrent = none) := by
  constructor
  · -- a dereference tells them apart
    intro hall
    have hderef := hall [.deref]
    rw [results_deref, results_deref, List.cons.injEq] at hderef
    have hnone := congrArg (· = none) hderef.1
    simp only [Option.map_eq_none_iff, deref_eq_none_iff, assign, copy, eq_iff_iff] at hnone
    rw [or_iff_not_imp_right]
    intro hcurrent
    rwa [or_iff_left hcurrent, or_iff_left hcurrent] at hnone
  · intro h
    have halike : Alike (a.assign b) b.copy := ⟨rfl, h⟩
    exact fun ops => halike.results_eq f ops

/-- A default-constructed iterator to which `begin()` of a list with one element is
    assigned. -/
theorem assign_keeps_null_parent : ∃ (f : Family Bool Addr) (b : Iterator Bool),
    (objects Bool 16).ReachableBy (Allowed 16) f ∧
    b = beginIter (f.intrusive 16) true ∧
    results 16 (fun _ => f) b.copy [.isValid, .deref] =
      [some (.flag true), some (.object 64)] ∧
    results 16 (fun _ => f) ((create (f.intrusive 16) none).assign b) [.isValid, .deref] =
      [some (.flag true), none] := by
  have hinit : (objects Bool 16).ReachableBy (Allowed 16)
      ⟨fun _ => SafeList.create, fun _ => ListHook.unlinked⟩ :=
    .init ⟨fun _ => rfl, fun _ => rfl⟩
  refine ⟨_, _, hinit.step (true, .op (.pushBack (some 64))) ⟨?_, ?_⟩ rfl, rfl, by rfl, by rfl⟩
  · rintro a - j ⟨x, hx, -⟩
    cases hx
  · intro a ha
    cases ha

end Iterator
end IntrusiveSafeList
end Fredlib
