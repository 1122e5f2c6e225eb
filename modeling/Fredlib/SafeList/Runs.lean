/-
  Fredlib.SafeList.Runs

  Several lists over one heap of hooks, and whole runs of calls on them.

  `sequences` is what the lists are for: a family of sequences, each call with
  its obvious effect and result.  `family` is the code: hooks migrate between
  lists that share one heap.  `family_refines_sequences` relates the two in
  lock step: every run of the code shows the calls and return values of a run
  of the sequences, and ends in a state that represents them.
-/

import Fredlib.SafeList.Spec

namespace Fredlib

open Lib Lib.DList

variable {ι α : Type*} [DecidableEq ι] [DecidableEq α]

namespace SafeList

/-- A call on a list: one critical section, or `push_front`. -/
inductive Call (α : Type*)
  | op (o : Op α)
  | pushFront (newNode : Option α)
  deriving DecidableEq

/-- The node a call brings in. -/
def Call.newNode : Call α → Option α
  | .op (.insert _ newNode) | .op (.pushBack newNode) | .pushFront newNode => newNode
  | _ => none

/-- The node of the list a call refers to. -/
def Call.linkedNode : Call α → Option α
  | .op (.insert node _) | .op (.erase node) => node
  | _ => none

end SafeList

open SafeList

/-- One call, run to completion.  `none` while an untimed pop waits. -/
def ListMem.run (m : ListMem α) : Call α → Option (Ret α × ListMem α)
  | .op (.insert existingNode newNode) =>
      let r := m.insert existingNode newNode
      some (.bool r.1, r.2)
  | .op (.erase node) =>
      let r := m.erase node
      some (.bool r.1, r.2)
  | .op (.pushBack newNode) => (m.pushBack newNode).map fun r => (.bool r.1, r.2)
  | .op (.popFront timeout) =>
      if timeout = 0 ∧ m.list.empty then none
      else m.popFront.map fun r => (.node r.1, r.2)
  | .op (.popBack timeout) =>
      if timeout = 0 ∧ m.list.empty then none
      else m.popBack.map fun r => (.node r.1, r.2)
  | .pushFront newNode =>
      let r := m.pushFront m.list.mHead newNode
      some (.bool r.1, r.2)

-- ============================================================================
-- The abstract sequences
-- ============================================================================

/-- `n` put in before the first `e`. -/
def insertBefore (e n : α) : List α → List α
  | [] => []
  | a :: s => if a = e then n :: a :: s else a :: insertBefore e n s

/-- A call on a sequence. -/
def runSeq (s : List α) : Call α → Option (Ret α × List α)
  | .op (.insert existingNode newNode) =>
      match newNode, existingNode, s with
      | some n, none, [] => some (.bool true, [n])
      | some n, some e, a :: s => some (.bool true, insertBefore e n (a :: s))
      | _, _, s => some (.bool false, s)
  | .op (.erase node) =>
      match node with
      | some n => some (.bool true, s.erase n)
      | none => some (.bool false, s)
  | .op (.pushBack newNode) =>
      match newNode with
      | some n => some (.bool true, s ++ [n])
      | none => some (.bool false, s)
  | .op (.popFront timeout) =>
      if timeout = 0 ∧ s.isEmpty then none else some (.node s.head?, s.tail)
  | .op (.popBack timeout) =>
      if timeout = 0 ∧ s.isEmpty then none else some (.node s.getLast?, s.dropLast)
  | .pushFront newNode =>
      match newNode with
      | some n => some (.bool true, n :: s)
      | none => some (.bool false, s)

/-- A family of sequences, all empty at the start. -/
def sequences (ι α : Type*) [DecidableEq ι] [DecidableEq α] :
    System (ι → List α) (ι × Call α) where
  init t := ∀ i, t i = []
  step t c := (runSeq (t c.1) c.2).map fun r => Function.update t c.1 r.2

/-- The value a call on the sequences returns. -/
def seqReturns (t : ι → List α) (c : ι × Call α) : List ((ι × Call α) × Ret α) :=
  ((runSeq (t c.1) c.2).map fun r => (c, r.1)).toList

theorem insertBefore_append {e n : α} {x y : List α} (hx : e ∉ x) :
    insertBefore e n (x ++ e :: y) = x ++ n :: e :: y := by
  induction x with
  | nil => simp [insertBefore]
  | cons a x ih =>
      rw [List.mem_cons, not_or] at hx
      rw [List.cons_append, insertBefore, if_neg (fun h => hx.1 h.symm), ih hx.2]
      rfl

-- ============================================================================
-- The lists over a shared heap
-- ============================================================================

/-- A family of lists over one heap. -/
structure Family (ι α : Type*) where
  lists : ι → SafeList α
  heap : Heap α

namespace Family

/-- The list `i` with the heap. -/
def mem (f : Family ι α) (i : ι) : ListMem α := ⟨f.lists i, f.heap⟩

/-- The list `i` is linked to `a`: following `next` from its head gets there. -/
def Linked (f : Family ι α) (i : ι) (a : α) : Prop :=
  Reaches (fun a => (f.heap a).next) (f.lists i).mHead a

/-- What the callers promise: a new node is null or linked in no list, and a
    node said to be in the list is null or is linked in it. -/
def Allowed (f : Family ι α) (c : ι × Call α) : Prop :=
  (∀ a, c.2.newNode = some a → ∀ j, ¬ f.Linked j a) ∧
    ∀ a, c.2.linkedNode = some a → f.Linked c.1 a

end Family

/-- The lists as a system: all lists empty and all hooks unlinked at the start. -/
def family (ι α : Type*) [DecidableEq ι] [DecidableEq α] :
    System (Family ι α) (ι × Call α) where
  init f := (∀ i, f.lists i = SafeList.create) ∧ ∀ a, f.heap a = ListHook.unlinked
  step f c := ((f.mem c.1).run c.2).map fun r =>
    { lists := Function.update f.lists c.1 r.2.list, heap := r.2.heap }

/-- The value a call on the lists returns. -/
def returns (f : Family ι α) (c : ι × Call α) : List ((ι × Call α) × Ret α) :=
  (((f.mem c.1).run c.2).map fun r => (c, r.1)).toList

-- ============================================================================
-- One call on one list
-- ============================================================================

variable {m m' : ListMem α} {s s' : List α} {call : Call α}

/-- How a call moves nodes: only its new node comes in, other nodes keep their
    links, and whatever is outside afterwards is unlinked. -/
structure Moves (call : Call α) (m m' : ListMem α) (s s' : List α) : Prop where
  inside : ∀ a ∈ s', a ∈ s ∨ call.newNode = some a
  frame : ∀ a, a ∉ s → call.newNode ≠ some a → m'.heap a = m.heap a
  out : ∀ a, a ∉ s' → a ∈ s ∨ call.newNode = some a → m'.heap a = ListHook.unlinked

/-- The call fits the sequence: its new node is unlinked and outside, the node
    it refers to is inside. -/
structure Fits (call : Call α) (m : ListMem α) (s : List α) : Prop where
  new : ∀ a, call.newNode = some a → a ∉ s ∧ m.heap a = ListHook.unlinked
  linked : ∀ a, call.linkedNode = some a → a ∈ s

/-- A call answers as on the sequence and leaves a list that represents it. -/
def Answers (call : Call α) (m : ListMem α) (s : List α) : Prop :=
  (runSeq s call = none ∧ m.run call = none) ∨
    ∃ v s' m', runSeq s call = some (v, s') ∧ m.run call = some (v, m') ∧
      m'.Represents s' ∧ Moves call m m' s s'

omit [DecidableEq α] in
/-- A call that changes nothing moves nothing. -/
theorem Moves.still (hfit : Fits call m s) : Moves call m m s s :=
  ⟨fun _ ha => .inl ha, fun _ _ _ => rfl, fun a ha hor =>
    hor.elim (fun h => absurd h ha) fun h => (hfit.new a h).2⟩

omit [DecidableEq α] in
/-- A call that takes one node out. -/
theorem Moves.remove {n : α} {x y : List α} (hnew : call.newNode = none)
    (hself : m'.heap n = ListHook.unlinked)
    (hframe : ∀ a, a ∉ x ++ n :: y → m'.heap a = m.heap a) :
    Moves call m m' (x ++ n :: y) (x ++ y) := by
  refine ⟨?_, fun a ha _ => hframe a ha, ?_⟩
  · intro a ha
    left
    rw [List.mem_append] at ha ⊢
    exact ha.imp_right (List.mem_cons_of_mem _)
  · intro a ha hor
    rcases hor with hor | hor
    · have han : a = n := by
        by_contra hne
        simp_all
      rw [han, hself]
    · rw [hnew] at hor
      cases hor

omit [DecidableEq α] in
/-- A call that puts its new node in. -/
theorem Moves.add {n : α} (hnew : call.newNode = some n)
    (hmem : ∀ a, a ∈ s' ↔ a ∈ s ∨ a = n)
    (hframe : ∀ a, a ∉ s → a ≠ n → m'.heap a = m.heap a) : Moves call m m' s s' := by
  refine ⟨?_, ?_, ?_⟩
  · intro a ha
    rcases (hmem a).mp ha with h | rfl
    · exact .inl h
    · exact .inr hnew
  · intro a ha hne
    exact hframe a ha fun han => hne (by rw [han, hnew])
  · intro a ha hor
    rw [hnew] at hor
    exact absurd ((hmem a).mpr (hor.imp_right fun h => (Option.some.inj h).symm)) ha

theorem answers_insert {existingNode newNode : Option α} (h : m.Represents s)
    (hfit : Fits (.op (.insert existingNode newNode)) m s) :
    Answers (.op (.insert existingNode newNode)) m s := by
  have hempty := h.empty_eq
  right
  cases newNode with
  | none =>
      exact ⟨.bool false, s, m, rfl, rfl, h, .still hfit⟩
  | some n =>
      obtain ⟨hn, hnull⟩ := hfit.new n rfl
      cases existingNode with
      | none =>
          cases s with
          | nil =>
              obtain ⟨m', hrun, hrep, hheap⟩ := ListMem.insert_empty_spec h hnull
              refine ⟨.bool true, [n], m', rfl, by rw [ListMem.run, hrun], hrep, ?_⟩
              exact .add rfl (by simp) fun a _ _ => by rw [hheap]
          -- a null position on a list that is not empty: `insert` refuses
          | cons a s =>
              have hm : m.list.empty = false := hempty
              refine ⟨.bool false, a :: s, m, rfl, ?_, h, .still hfit⟩
              simp only [ListMem.run, ListMem.insert, hm]
      | some e =>
          have he := hfit.linked e rfl
          obtain ⟨x, y, rfl, hx⟩ := List.eq_append_cons_of_mem he
          obtain ⟨m', hrun, hrep, hframe⟩ := ListMem.insert_spec h hn
          refine ⟨.bool true, x ++ n :: e :: y, m', ?_, by rw [ListMem.run, hrun], hrep, ?_⟩
          · rw [← insertBefore_append hx]
            cases x <;> rfl
          · exact .add rfl (by simp; tauto) hframe

theorem answers_erase {node : Option α} (h : m.Represents s)
    (hfit : Fits (.op (.erase node)) m s) : Answers (.op (.erase node)) m s := by
  right
  cases node with
  | none => exact ⟨.bool false, s, m, rfl, rfl, h, .still hfit⟩
  | some n =>
      obtain ⟨x, y, -, rfl, herase⟩ := List.exists_erase_eq (hfit.linked n rfl)
      obtain ⟨m', hrun, hrep, hself, hframe⟩ := ListMem.erase_spec h
      refine ⟨.bool true, x ++ y, m', ?_, by rw [ListMem.run, hrun], hrep, ?_⟩
      · rw [← herase]
        rfl
      · exact .remove rfl hself hframe

theorem answers_pushBack {newNode : Option α} (h : m.Represents s)
    (hfit : Fits (.op (.pushBack newNode)) m s) : Answers (.op (.pushBack newNode)) m s := by
  right
  cases newNode with
  | none => exact ⟨.bool false, s, m, rfl, rfl, h, .still hfit⟩
  | some n =>
      obtain ⟨hn, hnull⟩ := hfit.new n rfl
      obtain ⟨m', hrun, hrep, hframe⟩ := ListMem.pushBack_spec h hn hnull
      refine ⟨.bool true, s ++ [n], m', rfl, by rw [ListMem.run, hrun]; rfl, hrep, ?_⟩
      exact .add rfl (by simp) hframe

theorem answers_pushFront {newNode : Option α} (h : m.Represents s)
    (hfit : Fits (.pushFront newNode) m s) : Answers (.pushFront newNode) m s := by
  right
  cases newNode with
  | none => exact ⟨.bool false, s, m, rfl, rfl, h, .still hfit⟩
  | some n =>
      obtain ⟨hn, hnull⟩ := hfit.new n rfl
      cases s with
      | nil =>
          obtain ⟨m', hrun, hrep, hheap⟩ := ListMem.insert_empty_spec h hnull
          have hhead : m.list.mHead = none := h.head
          refine ⟨.bool true, [n], m', rfl, ?_, hrep, ?_⟩
          · simp only [ListMem.run, ListMem.pushFront, hhead, hrun]
          · exact .add rfl (by simp) fun a _ _ => by rw [hheap]
      | cons e s =>
          have h' : m.Represents ([] ++ e :: s) := h
          obtain ⟨m', hrun, hrep, hframe⟩ := ListMem.insert_spec h' hn
          have hhead : m.list.mHead = some e := h.head
          refine ⟨.bool true, n :: e :: s, m', rfl, ?_, hrep, ?_⟩
          · simp only [ListMem.run, ListMem.pushFront, hhead, hrun]
          · exact .add rfl (by simp; tauto) hframe

theorem answers_popFront {timeout : Int} (h : m.Represents s)
    (hfit : Fits (.op (.popFront timeout)) m s) : Answers (.op (.popFront timeout)) m s := by
  have hempty := h.empty_eq
  cases s with
  | nil =>
      by_cases ht : timeout = 0
      · -- an untimed pop waits
        exact .inl ⟨by simp [runSeq, ht], by simp [ListMem.run, ht, hempty]⟩
      · right
        refine ⟨.node none, [], m, by simp [runSeq, ht], ?_, h, .still hfit⟩
        simp [ListMem.run, ht, ListMem.popFront_empty h]
  | cons n s =>
      right
      obtain ⟨m', hrun, hrep, hself, hframe⟩ := ListMem.popFront_spec h
      have hm : m.list.empty = false := hempty
      refine ⟨.node (some n), s, m', by simp [runSeq], ?_, hrep, ?_⟩
      · simp [ListMem.run, hm, hrun]
      · exact .remove (x := []) rfl hself hframe

theorem answers_popBack {timeout : Int} (h : m.Represents s)
    (hfit : Fits (.op (.popBack timeout)) m s) : Answers (.op (.popBack timeout)) m s := by
  have hempty := h.empty_eq
  rcases List.eq_nil_or_concat s with rfl | ⟨s, n, rfl⟩
  · by_cases ht : timeout = 0
    · exact .inl ⟨by simp [runSeq, ht], by simp [ListMem.run, ht, hempty]⟩
    · right
      refine ⟨.node none, [], m, by simp [runSeq, ht], ?_, h, .still hfit⟩
      simp [ListMem.run, ht, ListMem.popBack_empty h]
  · right
    rw [List.concat_eq_append] at h hempty ⊢
    obtain ⟨m', hrun, hrep, hself, hframe⟩ := ListMem.popBack_spec h
    have hm : m.list.empty = false := by
      rw [hempty]
      simp
    refine ⟨.node (some n), s, m', by simp [runSeq], ?_, hrep, ?_⟩
    · simp [ListMem.run, hm, hrun]
    · have hmoves : Moves (.op (.popBack timeout)) m m' (s ++ n :: []) (s ++ []) :=
        .remove rfl hself hframe
      rwa [List.append_nil] at hmoves

/-- Every call that fits answers as on the sequence. -/
theorem answers (h : m.Represents s) (hfit : Fits call m s) : Answers call m s := by
  cases call with
  | pushFront newNode => exact answers_pushFront h hfit
  | op o =>
      cases o with
      | insert existingNode newNode => exact answers_insert h hfit
      | erase node => exact answers_erase h hfit
      | pushBack newNode => exact answers_pushBack h hfit
      | popFront timeout => exact answers_popFront h hfit
      | popBack timeout => exact answers_popBack h hfit

-- ============================================================================
-- Runs of a family
-- ============================================================================

/-- The family represents the sequences `t`: each list its own, no hook in two
    of them, and every hook in none of them unlinked. -/
structure Family.Represents (f : Family ι α) (t : ι → List α) : Prop where
  list : ∀ i, (f.mem i).Represents (t i)
  disjoint : ∀ i j a, a ∈ t i → a ∈ t j → i = j
  unlinked : ∀ a, (∀ i, a ∉ t i) → f.heap a = ListHook.unlinked

variable {f f' : Family ι α} {t : ι → List α}

omit [DecidableEq ι] [DecidableEq α] in
theorem Family.Represents.linked_iff (h : f.Represents t) {i : ι} {a : α} :
    f.Linked i a ↔ a ∈ t i :=
  (h.list i).reaches_iff

omit [DecidableEq ι] [DecidableEq α] in
theorem Family.Represents.fits (h : f.Represents t) {c : ι × Call α} (hok : f.Allowed c) :
    Fits c.2 (f.mem c.1) (t c.1) := by
  constructor
  · intro a ha
    have hout : ∀ i, a ∉ t i := fun i hmem => hok.1 a ha i (h.linked_iff.mpr hmem)
    exact ⟨hout c.1, h.unlinked a hout⟩
  · intro a ha
    exact h.linked_iff.mp (hok.2 a ha)

/-- A call on one list, seen on the whole family. -/
theorem Family.Represents.update (h : f.Represents t) {c : ι × Call α} (hok : f.Allowed c)
    {s' : List α} (hrep : m'.Represents s') (hmoves : Moves c.2 (f.mem c.1) m' (t c.1) s') :
    Family.Represents ⟨Function.update f.lists c.1 m'.list, m'.heap⟩
      (Function.update t c.1 s') := by
  obtain ⟨i, call⟩ := c
  have hout : ∀ a, call.newNode = some a → ∀ j, a ∉ t j :=
    fun a ha j hmem => hok.1 a ha j (h.linked_iff.mpr hmem)
  have hother : ∀ j a, j ≠ i → a ∈ t j → a ∉ t i ∧ call.newNode ≠ some a := by
    intro j a hji ha
    exact ⟨fun hi => hji (h.disjoint j i a ha hi), fun hnew => hout a hnew j ha⟩
  refine ⟨?_, ?_, ?_⟩
  · intro j
    by_cases hji : j = i
    · subst hji
      simpa [Family.mem] using hrep
    · simp only [Family.mem, Function.update_of_ne hji]
      refine (h.list j).frame rfl fun a ha => ?_
      exact hmoves.frame a (hother j a hji ha).1 (hother j a hji ha).2
  · -- a node of the changed list was in it before or is new
    have hcross : ∀ j a, j ≠ i → a ∈ s' → a ∉ t j := by
      intro j a hji ha hj
      rcases hmoves.inside a ha with hin | hnew
      · exact (hother j a hji hj).1 hin
      · exact (hother j a hji hj).2 hnew
    intro j k a hj hk
    by_cases hji : j = i <;> by_cases hki : k = i
    · rw [hji, hki]
    · subst hji
      rw [Function.update_self] at hj
      rw [Function.update_of_ne hki] at hk
      exact absurd hk (hcross k a hki hj)
    · subst hki
      rw [Function.update_self] at hk
      rw [Function.update_of_ne hji] at hj
      exact absurd hj (hcross j a hji hk)
    · rw [Function.update_of_ne hji] at hj
      rw [Function.update_of_ne hki] at hk
      exact h.disjoint j k a hj hk
  · intro a ha
    have hs' : a ∉ s' := by simpa using ha i
    by_cases htouched : a ∈ t i ∨ call.newNode = some a
    · exact hmoves.out a hs' htouched
    · rw [not_or] at htouched
      show m'.heap a = _
      rw [hmoves.frame a htouched.1 htouched.2]
      refine h.unlinked a fun j => ?_
      by_cases hji : j = i
      · exact hji ▸ htouched.1
      · have := ha j
        rwa [Function.update_of_ne hji] at this

/-- The step of the simulation: a call of the family is the same call of the
    sequences, and is enabled whenever that is. -/
theorem Family.Represents.simulates (h : f.Represents t) {c : ι × Call α} (hok : f.Allowed c) :
    ((sequences ι α).step t c = none ∧ (family ι α).step f c = none) ∨
    ∃ f' t', (family ι α).step f c = some f' ∧ (sequences ι α).step t c = some t' ∧
      f'.Represents t' ∧ seqReturns t c = returns f c := by
  rcases answers (h.list c.1) (h.fits hok) with ⟨hseq, hrun⟩ |
    ⟨v, s', m', hseq, hrun, hrep, hmoves⟩
  · exact .inl ⟨by simp [sequences, hseq], by simp [family, hrun]⟩
  · refine .inr ⟨_, _, by simp only [family, hrun]; rfl, by simp only [sequences, hseq]; rfl,
      h.update hok hrep hmoves, ?_⟩
    simp [seqReturns, returns, hseq, hrun]

/-- The lists refine the sequences. -/
theorem family_refines :
    System.Refines (family ι α) (sequences ι α) Family.Allowed returns seqReturns
      Family.Represents := by
  constructor
  · rintro f ⟨hlists, hheap⟩
    refine ⟨fun _ => [], fun _ => rfl, ?_, fun _ _ _ h => absurd h List.not_mem_nil,
      fun a _ => hheap a⟩
    intro i
    simp only [Family.mem, hlists]
    exact .create f.heap
  · intro f t c f' h hok hstep
    rcases h.simulates hok with ⟨-, hnone⟩ | ⟨f₁, t', hf, ht, hrep, hret⟩
    · rw [hnone] at hstep
      cases hstep
    · rw [hf] at hstep
      cases hstep
      exact ⟨t', ht, hrep, hret⟩

omit [DecidableEq α] in
/-- The ends are null exactly when the sequence is empty. -/
theorem ListMem.Represents.null_iff (h : m.Represents s) :
    (m.list.mHead = none ↔ s = []) ∧ (m.list.mTail = none ↔ s = []) := by
  rw [h.head, h.tail]
  simp

/-- **Runs of the lists are runs of the sequences.**  After every run of allowed
    calls the family represents sequences that a run of the abstract calls, with
    the same return values, leads to; no hook is in two of them, hooks in none
    are unlinked, and every allowed call the sequences can answer next is
    answered by the code. -/
theorem family_refines_sequences {log : List ((ι × Call α) × Ret α)}
    (h : (family ι α).Traced Family.Allowed returns log f) :
    ∃ t, (sequences ι α).Traced (fun _ _ => True) seqReturns log t ∧
      (∀ i, (f.mem i).Represents (t i) ∧
        ((f.lists i).mHead = none ↔ t i = []) ∧ ((f.lists i).mTail = none ↔ t i = []) ∧
        ((t i).length < UInt32.size → (f.lists i).mSize.toNat = (t i).length)) ∧
      (∀ i j a, a ∈ t i → a ∈ t j → i = j) ∧
      (∀ a, (∀ i, a ∉ t i) → f.heap a = ListHook.unlinked) ∧
      ∀ c, f.Allowed c → ((sequences ι α).step t c).isSome → ((family ι α).step f c).isSome := by
  obtain ⟨t, htrace, hrep⟩ := family_refines.traced h
  refine ⟨t, htrace, fun i => ?_, hrep.disjoint, hrep.unlinked, ?_⟩
  · obtain ⟨hhead, htail⟩ := (hrep.list i).null_iff
    exact ⟨hrep.list i, hhead, htail, (hrep.list i).size_toNat⟩
  · intro c hok hsome
    rcases hrep.simulates hok with ⟨hnone, -⟩ | ⟨f', t', hf, -⟩
    · rw [hnone] at hsome
      cases hsome
    · rw [hf]
      rfl

/-- The family while nothing is pushed. -/
def emptyFamily : Family Bool Nat := ⟨fun _ => SafeList.create, fun _ => ListHook.unlinked⟩

/-- A hook that migrates: pushed to one list, popped, pushed to another. -/
theorem family_refines_sequences_migrate :
    ∃ (f : Family Bool Nat) (t : Bool → List Nat),
      (sequences Bool Nat).Traced (fun _ _ => True) seqReturns
        [((true, .op (.pushBack (some 7))), .bool true),
          ((true, .op (.popFront 0)), .node (some 7)),
          ((false, .pushFront (some 7)), .bool true)] t ∧
      (f.mem false).Represents (t false) := by
  have hnone : ∀ (f : Family Bool Nat) (a : Nat), (∀ j, (f.lists j).mHead = none) →
      ∀ j, ¬ f.Linked j a := by
    rintro f a hf j ⟨x, hx, -⟩
    rw [hf j] at hx
    cases hx
  have h0 : (family Bool Nat).Traced Family.Allowed returns [] emptyFamily :=
    .init ⟨fun _ => rfl, fun _ => rfl⟩
  have h1 := h0.step (e := (true, .op (.pushBack (some 7))))
    ⟨fun a _ => hnone _ a (by decide), fun a ha => (by cases ha)⟩ rfl
  have h2 := h1.step (e := (true, .op (.popFront 0)))
    ⟨fun a ha => (by cases ha), fun a ha => (by cases ha)⟩ rfl
  have h3 := h2.step (e := (false, .pushFront (some 7)))
    ⟨fun a _ => hnone _ a (by decide), fun a ha => (by cases ha)⟩ rfl
  obtain ⟨t, ht, hrep, -⟩ := family_refines_sequences h3
  exact ⟨_, t, ht, (hrep false).1⟩

end Fredlib
