/-
  Fredlib.SafeList.ListHook

  `listHook` of include/safe_list.hpp: the node of an intrusive list.  Nodes
  live at addresses of an arbitrary type; `none` is the null pointer.

  Each method is the source's sequence of member reads and writes.  The lemmas
  say, node by node, what the heap holds afterwards.
-/

import Mathlib.Logic.Function.Basic

namespace Fredlib

variable {α : Type*} [DecidableEq α]

/-- `listHook`. -/
@[ext] structure ListHook (α : Type*) where
  prev : Option α
  next : Option α
  deriving DecidableEq

/-- The hook as its default member initializers leave it. -/
def ListHook.unlinked : ListHook α := { prev := none, next := none }

/-- The memory that holds the hooks. -/
abbrev Heap (α : Type*) := α → ListHook α

namespace Heap

/-- `p->prev = x` -/
def setPrev (h : Heap α) (p : α) (x : Option α) : Heap α :=
  Function.update h p { h p with prev := x }

/-- `p->next = x` -/
def setNext (h : Heap α) (p : α) (x : Option α) : Heap α :=
  Function.update h p { h p with next := x }

/-- `if (p) p->prev = x` -/
def setPrevIf (h : Heap α) (p x : Option α) : Heap α :=
  match p with
  | some p => h.setPrev p x
  | none => h

/-- `if (p) p->next = x` -/
def setNextIf (h : Heap α) (p x : Option α) : Heap α :=
  match p with
  | some p => h.setNext p x
  | none => h

/-- `unlink` -/
def unlink (h : Heap α) (this : α) : Heap α :=
  let h := h.setNextIf (h this).prev (h this).next
  let h := h.setPrevIf (h this).next (h this).prev
  let h := h.setPrev this none
  h.setNext this none

/-- `link_after` -/
def linkAfter (h : Heap α) (this prevNode : α) : Heap α :=
  let h := h.setPrev this (some prevNode)
  let h := h.setNext this (h prevNode).next
  let h := h.setNextIf (h this).prev (some this)
  h.setPrevIf (h this).next (some this)

/-- `link_before` -/
def linkBefore (h : Heap α) (this nextNode : α) : Heap α :=
  let h := h.setPrev this (h nextNode).prev
  let h := h.setNext this (some nextNode)
  let h := h.setNextIf (h this).prev (some this)
  h.setPrevIf (h this).next (some this)

/-! ## Single writes -/

@[simp] theorem setPrev_prev (h : Heap α) (p a : α) (x : Option α) :
    (h.setPrev p x a).prev = if a = p then x else (h a).prev := by
  by_cases hap : a = p
  · subst hap; simp [setPrev]
  · simp [setPrev, hap]

@[simp] theorem setPrev_next (h : Heap α) (p a : α) (x : Option α) :
    (h.setPrev p x a).next = (h a).next := by
  by_cases hap : a = p
  · subst hap; simp [setPrev]
  · simp [setPrev, hap]

@[simp] theorem setNext_next (h : Heap α) (p a : α) (x : Option α) :
    (h.setNext p x a).next = if a = p then x else (h a).next := by
  by_cases hap : a = p
  · subst hap; simp [setNext]
  · simp [setNext, hap]

@[simp] theorem setNext_prev (h : Heap α) (p a : α) (x : Option α) :
    (h.setNext p x a).prev = (h a).prev := by
  by_cases hap : a = p
  · subst hap; simp [setNext]
  · simp [setNext, hap]

@[simp] theorem setPrevIf_prev (h : Heap α) (p x : Option α) (a : α) :
    (h.setPrevIf p x a).prev = if p = some a then x else (h a).prev := by
  cases p with
  | none => simp [setPrevIf]
  | some p => simp [setPrevIf, eq_comm]

@[simp] theorem setPrevIf_next (h : Heap α) (p x : Option α) (a : α) :
    (h.setPrevIf p x a).next = (h a).next := by
  cases p <;> simp [setPrevIf]

@[simp] theorem setNextIf_next (h : Heap α) (p x : Option α) (a : α) :
    (h.setNextIf p x a).next = if p = some a then x else (h a).next := by
  cases p with
  | none => simp [setNextIf]
  | some p => simp [setNextIf, eq_comm]

@[simp] theorem setNextIf_prev (h : Heap α) (p x : Option α) (a : α) :
    (h.setNextIf p x a).prev = (h a).prev := by
  cases p <;> simp [setNextIf]

/-! ## What the methods leave behind -/

section Unlink

variable {h : Heap α} {n : α}

theorem unlink_self (h : Heap α) (n : α) : h.unlink n n = ListHook.unlinked := by
  apply ListHook.ext <;> simp [unlink, ListHook.unlinked]

/-- A node that is not its own neighbour is taken out from between its two
    neighbours. -/
theorem unlink_prev {a : α} (hself : (h n).prev ≠ some n) (ha : a ≠ n) :
    (h.unlink n a).prev = if (h n).next = some a then (h n).prev else (h a).prev := by
  simp [unlink, ha, hself]

theorem unlink_next {a : α} (ha : a ≠ n) :
    (h.unlink n a).next = if (h n).prev = some a then (h n).next else (h a).next := by
  simp [unlink, ha]

end Unlink

section Link

variable {h : Heap α} {n e : α}

/-- `link_after` a node without a successor. -/
theorem linkAfter_last {a : α} (hne : n ≠ e) (hlast : (h e).next = none) :
    h.linkAfter n e a =
      if a = n then ⟨some e, none⟩
      else if a = e then { h e with next := some n } else h a := by
  have hen : e ≠ n := fun h => hne h.symm
  by_cases han : a = n
  · subst han
    apply ListHook.ext <;> simp [linkAfter, hen, hlast]
  · by_cases hae : a = e
    · subst hae
      apply ListHook.ext <;> simp [linkAfter, han, hlast]
    · have hea : ¬ e = a := fun h => hae h.symm
      apply ListHook.ext <;> simp [linkAfter, han, hae, hea, hen, hlast]

theorem linkBefore_self (hne : n ≠ e) (hself : (h e).prev ≠ some n) :
    h.linkBefore n e n = ⟨(h e).prev, some e⟩ := by
  have hen : e ≠ n := fun h => hne h.symm
  apply ListHook.ext <;> simp [linkBefore, hen, hself]

theorem linkBefore_prev {a : α} (hself : (h e).prev ≠ some n) (ha : a ≠ n) :
    (h.linkBefore n e a).prev = if a = e then some n else (h a).prev := by
  simp [linkBefore, ha, hself, eq_comm]

theorem linkBefore_next {a : α} (ha : a ≠ n) :
    (h.linkBefore n e a).next = if (h e).prev = some a then some n else (h a).next := by
  simp [linkBefore, ha]

end Link

end Heap
end Fredlib
