/-
  Fredlib.SafeList.Intrusive

  `IntrusiveSafeList` of include/safe_list.hpp: a `SafeList` of the hooks inside
  bigger objects.

  Objects live at 64-bit addresses.  A hook is at a fixed distance from its
  object, the value of the pointer to member `ptrToHook`, so that `getParent`
  gets back from the hook to the object that was pushed.
-/

import Fredlib.SafeList.Spec

namespace Fredlib

open Lib Lib.Monitor SafeList

-- ============================================================================
-- The critical sections of the list
-- ============================================================================

namespace SafeList

variable {α : Type*} [DecidableEq α] {m : ListMem α}

theorem enterSection_pushBack {newNode : Option α} :
    (monitor (α := α)).enterSection (.pushBack newNode) m =
      (m.pushBack newNode).map updated := by
  unfold enterSection
  simp only [monitor]
  cases h : m.pushBack newNode with
  | none => rfl
  | some r => rfl

theorem wakeSection_front {timeout : Int} :
    (monitor (α := α)).wakeSection (.front timeout) m =
      if m.list.empty then some ⟨m, [], .wait (.front timeout)⟩
      else m.popFront.map fun r => ⟨r.2, [], .ret (.node r.1)⟩ := by
  cases h : m.list.empty with
  | true => simp [wakeSection, settle, monitor, h]
  | false =>
      simp only [wakeSection, settle, finish, monitor, h]
      cases m.popFront <;> rfl

theorem finish_front {timeout : Int} :
    (monitor (α := α)).finish (.front timeout) m =
      m.popFront.map fun r => ⟨r.2, [], .ret (.node r.1)⟩ := by
  simp only [finish, monitor, Option.map_map]
  rfl

end SafeList

-- ============================================================================
-- The class
-- ============================================================================

/-- An address in memory. -/
abbrev Addr := BitVec 64

/-- `IntrusiveSafeList`: its base class behind the mutex, and its member. -/
structure IntrusiveSafeList (T : Type*) where
  list : Config T (ListMem Addr) SafeList.Wait
  mOffset : Addr

namespace IntrusiveSafeList

variable {T : Type*} [DecidableEq T]

/-- The constructor: `mOffset` is the address the hook has in an object at null. -/
def create (ptrToHook : Addr) (heap : Heap Addr) : IntrusiveSafeList T where
  list := ⟨⟨SafeList.create, heap⟩, fun _ => .out⟩
  mOffset := 0 + ptrToHook

/-- `getHook` -/
def getHook (ptrToHook obj : Addr) : Addr := obj + ptrToHook

/-- `getParent` -/
def getParent (l : IntrusiveSafeList T) (hook : Addr) : Addr := hook - l.mOffset

/-- `hook ? getParent(hook) : nullptr` -/
def parentOf (l : IntrusiveSafeList T) : Ret Addr → Option Addr
  | .node hook => hook.map l.getParent
  | .bool _ => none

/-- The hook of a new object, as its default member initializers leave it. -/
def constructHook (ptrToHook obj : Addr) (l : IntrusiveSafeList T) : IntrusiveSafeList T :=
  { l with list :=
    { l.list with data :=
      { l.list.data with
        heap := Function.update l.list.data.heap (getHook ptrToHook obj) ListHook.unlinked } } }

/-- A step of `push_back` by the thread `t`. -/
def pushBack (ptrToHook : Addr) (t : T) (obj : Addr) (l : IntrusiveSafeList T) :
    Option (IntrusiveSafeList T) :=
  (SafeList.monitor.advance t (.pushBack (some (getHook ptrToHook obj))) l.list).map fun r =>
    { l with list := r.1 }

/-- A step of `pop_front` by the thread `t`; no result while the call waits. -/
def popFront (t : T) (timeout : Int) (l : IntrusiveSafeList T) :
    Option (IntrusiveSafeList T × Option (Option Addr)) :=
  (SafeList.monitor.advance t (.popFront timeout) l.list).map fun r =>
    ({ l with list := r.1 }, r.2.map l.parentOf)

/-- The wait of a timed pop gives up. -/
def giveUp (t : T) (l : IntrusiveSafeList T) :
    Option (IntrusiveSafeList T × Option (Option Addr)) :=
  (SafeList.monitor.timeout t l.list).map fun r => ({ l with list := r.1 }, r.2.map l.parentOf)

/-- `empty` -/
def empty (l : IntrusiveSafeList T) : Bool := l.list.data.list.empty

/-- A sleeping thread wakes up although nobody notified it. -/
def spurious (t : T) (l : IntrusiveSafeList T) : Option (IntrusiveSafeList T) :=
  (Monitor.spurious t l.list).map fun c => { l with list := c }

-- ============================================================================
-- Objects instead of hooks
-- ============================================================================

variable {ptrToHook a b : Addr} {l l' : IntrusiveSafeList T} {s : List Addr} {t : T}

theorem getHook_injective (ptrToHook : Addr) : Function.Injective (getHook ptrToHook) :=
  fun a b h => by simpa [getHook] using h

omit [DecidableEq T] in
/-- The object of the hook of an object is that object. -/
theorem getParent_getHook (h : l.mOffset = 0 + ptrToHook) :
    l.getParent (getHook ptrToHook a) = a := by
  have hzero : (0 : Addr) + ptrToHook = ptrToHook := BitVec.zero_add _
  rw [getParent, getHook, h, hzero, BitVec.add_sub_cancel]

/-- The list holds the objects `s` in this order. -/
structure Holds (ptrToHook : Addr) (l : IntrusiveSafeList T) (s : List Addr) : Prop where
  offset : l.mOffset = 0 + ptrToHook
  list : l.list.data.Represents (s.map (getHook ptrToHook))

omit [DecidableEq T] in
theorem Holds.create (ptrToHook : Addr) (heap : Heap Addr) :
    Holds ptrToHook (create ptrToHook heap : IntrusiveSafeList T) [] :=
  ⟨rfl, .create heap⟩

theorem mem_map_getHook : getHook ptrToHook a ∈ s.map (getHook ptrToHook) ↔ a ∈ s :=
  List.mem_map_of_injective (getHook_injective ptrToHook)

omit [DecidableEq T] in
theorem Holds.nodup (h : Holds ptrToHook l s) : s.Nodup :=
  (List.nodup_map_iff (getHook_injective ptrToHook)).mp h.list.nodup

omit [DecidableEq T] in
theorem Holds.empty_eq (h : Holds ptrToHook l s) : l.empty = s.isEmpty := by
  rw [IntrusiveSafeList.empty, h.list.empty_eq, List.isEmpty_map]

omit [DecidableEq T] in
/-- A new object is made outside the list. -/
theorem Holds.constructHook (h : Holds ptrToHook l s) (ha : a ∉ s) :
    Holds ptrToHook (l.constructHook ptrToHook a) s := by
  refine ⟨h.offset, h.list.frame rfl fun x hx => ?_⟩
  have hne : x ≠ getHook ptrToHook a := by
    rintro rfl
    exact ha (mem_map_getHook.mp hx)
  simp [IntrusiveSafeList.constructHook, hne]

/-- The hook of `a` is in its initial state. -/
def Unlinked (ptrToHook : Addr) (l : IntrusiveSafeList T) (a : Addr) : Prop :=
  l.list.data.heap (getHook ptrToHook a) = ListHook.unlinked

-- ============================================================================
-- Steps
-- ============================================================================

/-- What a step of a pop may do to a list that holds `s`: it waits on and
    changes nothing, gives up on an empty list, or takes out the first object. -/
def Pops (ptrToHook : Addr) (l l' : IntrusiveSafeList T) (s : List Addr) :
    Option (Option Addr) → Prop
  | none => l'.list.data = l.list.data
  | some none => s = [] ∧ l'.list.data = l.list.data
  | some (some a) => ∃ s', s = a :: s' ∧ Holds ptrToHook l' s' ∧
      ∀ b, b ∉ s → (Unlinked ptrToHook l b → Unlinked ptrToHook l' b)

variable {r : Option (Option Addr)} {timeout : Int}

/-- `push_back` of a new object appends it. -/
theorem pushBack_step (h : Holds ptrToHook l s) (ha : a ∉ s) (hnull : Unlinked ptrToHook l a)
    (hout : l.list.thr t = .out) (hs : pushBack ptrToHook t a l = some l') :
    Holds ptrToHook l' (s ++ [a]) ∧
      (∀ b, b ∉ s → b ≠ a → Unlinked ptrToHook l b → Unlinked ptrToHook l' b) ∧
      (∀ t', t' ≠ t → (l'.list.thr t').waiting = (l.list.thr t').waiting) ∧
      l'.list.thr t = .out := by
  simp only [pushBack, Option.map_eq_some_iff] at hs
  obtain ⟨⟨c, r⟩, hadv, rfl⟩ := hs
  obtain ⟨hframe, hself⟩ := SafeList.monitor.advance_frame hadv
  rcases SafeList.monitor.advance_some hadv with ⟨-, hcall⟩ | ⟨w, hw, -⟩
  · obtain ⟨-, e, hsec, happ⟩ := SafeList.monitor.call_some hcall
    have hc : c = (SafeList.monitor.apply t e l.list).1 := by rw [happ]
    have hnot : getHook ptrToHook a ∉ s.map (getHook ptrToHook) := fun hmem =>
      ha (mem_map_getHook.mp hmem)
    obtain ⟨m', hrun, hrep, hheap⟩ := ListMem.pushBack_spec h.list hnot hnull
    rw [enterSection_pushBack, hrun] at hsec
    cases hsec
    refine ⟨⟨h.offset, ?_⟩, ?_, hframe, ?_⟩
    · rw [List.map_append, hc]
      exact hrep
    · intro b hb hba hbnull
      show c.data.heap _ = _
      rw [hc]
      show m'.heap _ = _
      rw [hheap _ (fun hmem => hb (mem_map_getHook.mp hmem))
        (fun heq => hba (getHook_injective ptrToHook heq))]
      exact hbnull
    · rw [hc, apply_thr_self]
      rfl
  · rw [hout] at hw
    cases hw

/-- Popping a list that holds `s`. -/
theorem pops_of_popFront {e : Section (ListMem Addr) Wait Cond (Ret Addr)} (h : Holds ptrToHook l s)
    (hsec : (l.list.data.popFront.map fun r => (⟨r.2, [], .ret (.node r.1)⟩ :
      Section (ListMem Addr) Wait Cond (Ret Addr))) = some e) :
    Pops ptrToHook l { l with list := (SafeList.monitor.apply t e l.list).1 } s
      ((SafeList.monitor.apply t e l.list).2.map l.parentOf) := by
  cases s with
  | nil =>
      have hrun := ListMem.popFront_empty h.list
      rw [hrun] at hsec
      cases hsec
      exact ⟨rfl, rfl⟩
  | cons a s =>
      obtain ⟨m', hrun, hrep, hself, hframe⟩ :=
        ListMem.popFront_spec (n := getHook ptrToHook a) h.list
      rw [hrun] at hsec
      cases hsec
      have hparent := getParent_getHook (a := a) h.offset
      simp only [Monitor.apply, Exit.result, Option.map_some, parentOf, hparent]
      refine ⟨s, rfl, ⟨h.offset, hrep⟩, fun b hb hbnull => ?_⟩
      show m'.heap _ = _
      rw [hframe _ (fun hmem => hb (mem_map_getHook.mp hmem))]
      exact hbnull

/-- A step of `pop_front`. -/
theorem popFront_step (h : Holds ptrToHook l s)
    (hat : ∀ w, (l.list.thr t).waiting = some w → w = .front timeout)
    (hs : popFront t timeout l = some (l', r)) :
    Pops ptrToHook l l' s r ∧
      (∀ t', t' ≠ t → (l'.list.thr t').waiting = (l.list.thr t').waiting) ∧
      (l'.list.thr t = .out ↔ r.isSome = true) ∧
      ∀ w, (l'.list.thr t).waiting = some w → w = .front timeout := by
  simp only [popFront, Option.map_eq_some_iff, Prod.mk.injEq] at hs
  obtain ⟨⟨c, r₀⟩, hadv, rfl, rfl⟩ := hs
  obtain ⟨hframe, hself⟩ := SafeList.monitor.advance_frame hadv
  -- the first look or a re-check: the same section runs
  have hsection : ∃ e, (SafeList.monitor (α := Addr)).wakeSection (.front timeout) l.list.data =
      some e ∧ SafeList.monitor.apply t e l.list = (c, r₀) := by
    rcases SafeList.monitor.advance_some hadv with ⟨-, hcall⟩ | ⟨w, hw, hcheck⟩
    · obtain ⟨-, e, hsec, happ⟩ := SafeList.monitor.call_some hcall
      exact ⟨e, hsec, happ⟩
    · obtain ⟨w, hw, e, hsec, happ⟩ := SafeList.monitor.recheck_some hcheck
      have hfront := hat w (by rw [hw]; rfl)
      subst hfront
      exact ⟨e, hsec, happ⟩
  obtain ⟨e, hsec, happ⟩ := hsection
  have hc : c = (SafeList.monitor.apply t e l.list).1 := by rw [happ]
  have hr : r₀ = (SafeList.monitor.apply t e l.list).2 := by rw [happ]
  refine ⟨?_, hframe, by simpa using hself, ?_⟩
  · rw [hc, hr]
    rw [wakeSection_front] at hsec
    split at hsec
    · cases hsec
      rfl
    · exact pops_of_popFront h hsec
  · intro w hw
    rw [hc, apply_thr_self] at hw
    cases hexit : e.exit with
    | ret v => rw [hexit] at hw; cases hw
    | wait w' =>
        rw [hexit] at hw
        cases hw
        exact SafeList.monitor.wakeSection_wait hsec hexit

/-- A pop that gives up still takes the first object, if there is one by then. -/
theorem giveUp_step (h : Holds ptrToHook l s)
    (hat : ∀ w, (l.list.thr t).waiting = some w → w = .front timeout)
    (hs : giveUp t l = some (l', r)) :
    Pops ptrToHook l l' s r ∧
      (∀ t', t' ≠ t → (l'.list.thr t').waiting = (l.list.thr t').waiting) ∧
      l'.list.thr t = .out ∧ r.isSome = true := by
  simp only [giveUp, Option.map_eq_some_iff, Prod.mk.injEq] at hs
  obtain ⟨⟨c, r₀⟩, hto, rfl, rfl⟩ := hs
  obtain ⟨w, hw, -, e, hsec, happ⟩ := SafeList.monitor.timeout_some hto
  have hfront := hat w hw
  subst hfront
  obtain ⟨hframe, hself⟩ := SafeList.monitor.apply_frame happ
  have hc : c = (SafeList.monitor.apply t e l.list).1 := by rw [happ]
  have hr : r₀ = (SafeList.monitor.apply t e l.list).2 := by rw [happ]
  rw [finish_front] at hsec
  have hret : r₀.isSome = true := by
    simp only [Option.map_eq_some_iff] at hsec
    obtain ⟨p, -, rfl⟩ := hsec
    rw [hr]
    rfl
  refine ⟨?_, hframe, hself.mpr hret, by simpa using hret⟩
  rw [hc, hr]
  exact pops_of_popFront h hsec

end IntrusiveSafeList
end Fredlib
