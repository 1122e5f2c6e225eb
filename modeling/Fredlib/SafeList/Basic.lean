/-
  Fredlib.SafeList.Basic

  `SafeList` of include/safe_list.hpp: a list of hooks behind one mutex.

  Every operation is given as the critical section of the source, a function on
  the list and the heap its hooks live in.  `none` stands for undefined
  behaviour: a null pointer is dereferenced.  `push_front` is not a section of
  its own: it reads `mHead` without the lock and then calls `insert`.

  `monitor` puts the sections behind the mutex, with the waits of the two pops
  for a non-empty list.
-/

import Fredlib.Lib.Monitor
import Fredlib.SafeList.ListHook

namespace Fredlib

open Lib Lib.Monitor

variable {α : Type*} [DecidableEq α]

/-- `SafeList`. -/
structure SafeList (α : Type*) where
  mHead : Option α
  mTail : Option α
  mSize : UInt32
  deriving DecidableEq

/-- A list and the heap of its hooks. -/
structure ListMem (α : Type*) where
  list : SafeList α
  heap : Heap α

/-- What an operation returns: a flag or a node. -/
inductive Ret (α : Type*)
  | bool (b : Bool)
  | node (p : Option α)
  deriving DecidableEq

namespace SafeList

/-- The constructor. -/
def create : SafeList α := { mHead := none, mTail := none, mSize := 0 }

/-- `_empty` -/
def empty (l : SafeList α) : Bool := l.mHead == none && l.mTail == none

end SafeList

namespace ListMem

/-- `insert` -/
def insert (existingNode newNode : Option α) (m : ListMem α) : Bool × ListMem α :=
  match newNode with
  | none => (false, m)
  | some new =>
      match existingNode, m.list.empty with
      | some _, true => (false, m)
      | none, false => (false, m)
      | none, true =>
          (true, { m with list :=
            { mHead := some new, mTail := some new, mSize := m.list.mSize + 1 } })
      | some existing, false =>
          (true,
            { heap := m.heap.linkBefore new existing
              list :=
                { m.list with
                  mHead := if m.list.mHead = some existing then some new else m.list.mHead
                  mSize := m.list.mSize + 1 } })

/-- `erase` -/
def erase (node : Option α) (m : ListMem α) : Bool × ListMem α :=
  match node with
  | none => (false, m)
  | some node =>
      (true,
        { heap := m.heap.unlink node
          list :=
            { mTail := if m.list.mTail = some node then (m.heap node).prev else m.list.mTail
              mHead := if m.list.mHead = some node then (m.heap node).next else m.list.mHead
              mSize := m.list.mSize - 1 } })

/-- `push_back` -/
def pushBack (newNode : Option α) (m : ListMem α) : Option (Bool × ListMem α) :=
  match newNode with
  | none => some (false, m)
  | some new =>
      if m.list.empty then
        some (true, { m with list :=
          { mHead := some new, mTail := some new, mSize := m.list.mSize + 1 } })
      else
        match m.list.mTail with
        | none => none -- `prevNode->next` with a null `prevNode`
        | some tail =>
            some (true,
              { heap := m.heap.linkAfter new tail
                list := { m.list with mTail := some new, mSize := m.list.mSize + 1 } })

/-- `push_front`, with the `mHead` it has read before it takes the lock. -/
def pushFront (readHead newNode : Option α) (m : ListMem α) : Bool × ListMem α :=
  m.insert readHead newNode

/-- `pop_front`, after its wait. -/
def popFront (m : ListMem α) : Option (Option α × ListMem α) :=
  if m.list.empty then
    some (none, m)
  else
    match m.list.mHead with
    | none => none -- `mHead->next` with a null `mHead`
    | some front =>
        some (some front,
          { heap := m.heap.unlink front
            list :=
              { mHead := (m.heap front).next
                mTail := if m.list.mTail = some front then none else m.list.mTail
                mSize := m.list.mSize - 1 } })

/-- `pop_back`, after its wait. -/
def popBack (m : ListMem α) : Option (Option α × ListMem α) :=
  if m.list.empty then
    some (none, m)
  else
    match m.list.mTail with
    | none => none -- `mTail->prev` with a null `mTail`
    | some back =>
        some (some back,
          { heap := m.heap.unlink back
            list :=
              { mTail := (m.heap back).prev
                mHead := if m.list.mHead = some back then none else m.list.mHead
                mSize := m.list.mSize - 1 } })

end ListMem

namespace SafeList

/-- The operations that are one critical section; the pops with their timeout in
    milliseconds, 0 for none. -/
inductive Op (α : Type*)
  | insert (existingNode newNode : Option α)
  | erase (node : Option α)
  | pushBack (newNode : Option α)
  | popFront (timeout : Int)
  | popBack (timeout : Int)
  deriving DecidableEq

/-- The condition variable. -/
inductive Cond
  | mListCV
  deriving DecidableEq

/-- The waits of the two pops for a non-empty list. -/
inductive Wait
  | front (timeout : Int)
  | back (timeout : Int)
  deriving DecidableEq

/-- A section that does not wait: `notify_all` on success only. -/
def updated (r : Bool × ListMem α) : Section (ListMem α) Wait Cond (Ret α) :=
  ⟨r.2, if r.1 then [.mListCV] else [], .ret (.bool r.1)⟩

/-- The class as a monitor. -/
def monitor : Monitor (ListMem α) (Op α) Wait Cond (Ret α) where
  enter
    | .insert existingNode newNode, m => some (updated (m.insert existingNode newNode))
    | .erase node, m => some (updated (m.erase node))
    | .pushBack newNode, m => (m.pushBack newNode).map updated
    | .popFront timeout, m => some ⟨m, [], .wait (.front timeout)⟩
    | .popBack timeout, m => some ⟨m, [], .wait (.back timeout)⟩
  cond _ := .mListCV
  pred _ m := !m.list.empty
  after
    | .front _, m => m.popFront.map fun r => (r.2, [], .node r.1)
    | .back _, m => m.popBack.map fun r => (r.2, [], .node r.1)
  timed
    | .front timeout | .back timeout => decide (timeout ≠ 0)

end SafeList
end Fredlib
