/-
  Fredlib.SafeList.Objects

  Runs of `IntrusiveSafeList`s, on objects instead of hooks.

  The class passes every call on to its base, with the hooks of the objects for
  the objects.  Distinct objects have distinct hooks, so the sequences of hooks
  that `Runs` speaks of are sequences of objects (`runSeq_map`), and the lists
  refine them as well (`objects_refine`).
-/

import Fredlib.SafeList.Intrusive
import Fredlib.SafeList.Runs

namespace Fredlib

open Lib SafeList

namespace SafeList

variable {α β : Type*} {g : α → β}

-- ============================================================================
-- Nodes under another name
-- ============================================================================

/-- The operation on the nodes that `g` names. -/
def Op.map (g : α → β) : Op α → Op β
  | .insert existingNode newNode => .insert (existingNode.map g) (newNode.map g)
  | .erase node => .erase (node.map g)
  | .pushBack newNode => .pushBack (newNode.map g)
  | .popFront timeout => .popFront timeout
  | .popBack timeout => .popBack timeout

def Call.map (g : α → β) : Call α → Call β
  | .op o => .op (o.map g)
  | .pushFront newNode => .pushFront (newNode.map g)

end SafeList

/-- The returned node under its name. -/
def Ret.map {α β : Type*} (g : α → β) : Ret α → Ret β
  | .bool b => .bool b
  | .node p => .node (p.map g)

variable {ι α β : Type*} [DecidableEq ι] [DecidableEq α] [DecidableEq β] {g : α → β}

theorem insertBefore_map (hg : Function.Injective g) (e n : α) (s : List α) :
    insertBefore (g e) (g n) (s.map g) = (insertBefore e n s).map g := by
  induction s with
  | nil => rfl
  | cons a s ih =>
      rw [List.map_cons, insertBefore, insertBefore]
      by_cases ha : a = e
      · rw [if_pos ha, if_pos (congrArg g ha)]
        rfl
      · rw [if_neg ha, if_neg (fun h => ha (hg h)), ih]
        rfl

/-- A call does the same whatever the nodes are called. -/
theorem runSeq_map (hg : Function.Injective g) (s : List α) (call : Call α) :
    runSeq (s.map g) (call.map g) =
      (runSeq s call).map fun r => (r.1.map g, r.2.map g) := by
  cases call with
  | op o =>
      cases o with
      | insert existingNode newNode =>
          cases newNode with
          | none => cases existingNode <;> cases s <;> rfl
          -- on an empty list the position is not looked at
          | some n =>
              cases existingNode with
              | none => cases s <;> rfl
              | some e =>
                  cases s with
                  | nil => rfl
                  | cons a s =>
                      have hins := insertBefore_map hg e n (a :: s)
                      simp only [List.map_cons] at hins
                      simp only [Call.map, Op.map, runSeq, Option.map_some, List.map_cons, hins,
                        Ret.map]
      | erase node =>
          cases node with
          | none => rfl
          | some n =>
              simp only [Call.map, Op.map, runSeq, Option.map_some, List.map_erase hg, Ret.map]
      | pushBack newNode =>
          cases newNode with
          | none => rfl
          | some n =>
              simp only [Call.map, Op.map, runSeq, Option.map_some, List.map_append, List.map_cons,
                List.map_nil, Ret.map]
      | popFront timeout =>
          simp only [Call.map, Op.map, runSeq, List.isEmpty_map, List.head?_map, ← List.map_tail]
          split <;> rfl
      | popBack timeout =>
          simp only [Call.map, Op.map, runSeq, List.isEmpty_map, List.getLast?_map,
            ← List.map_dropLast]
          split <;> rfl
  | pushFront newNode => cases newNode <;> rfl

-- ============================================================================
-- The lists of one type
-- ============================================================================

/-- The list `i` of a family, as an `IntrusiveSafeList` that nobody is inside of. -/
def Family.intrusive (ptrToHook : Addr) (f : Family ι Addr) (i : ι) : IntrusiveSafeList Unit :=
  let l : IntrusiveSafeList Unit := .create ptrToHook f.heap
  { l with list := { l.list with data := f.mem i } }

namespace IntrusiveSafeList

/-- The lists of one type as a system: the calls are on objects. -/
def objects (ι : Type*) [DecidableEq ι] (ptrToHook : Addr) :
    System (Family ι Addr) (ι × Call Addr) where
  init := (family ι Addr).init
  step f c := (family ι Addr).step f (c.1, c.2.map (getHook ptrToHook))

/-- What the callers promise, as for hooks. -/
def Allowed (ptrToHook : Addr) (f : Family ι Addr) (c : ι × Call Addr) : Prop :=
  f.Allowed (c.1, c.2.map (getHook ptrToHook))

/-- The value a call returns: the pops return objects. -/
def objectReturns (ptrToHook : Addr) (f : Family ι Addr) (c : ι × Call Addr) :
    List ((ι × Call Addr) × Ret Addr) :=
  (returns f (c.1, c.2.map (getHook ptrToHook))).map fun r =>
    (c, r.2.map (f.intrusive ptrToHook c.1).getParent)

/-- The family holds the objects `t`. -/
def HoldsAll (ptrToHook : Addr) (f : Family ι Addr) (t : ι → List Addr) : Prop :=
  f.Represents fun i => (t i).map (getHook ptrToHook)

variable {ptrToHook : Addr}

omit [DecidableEq ι] in
theorem getParent_intrusive (f : Family ι Addr) (i : ι) (a : Addr) :
    (f.intrusive ptrToHook i).getParent (getHook ptrToHook a) = a :=
  getParent_getHook rfl

omit [DecidableEq ι] in
/-- Objects come back as they were. -/
theorem map_getParent (f : Family ι Addr) (i : ι) (r : Ret Addr) :
    (r.map (getHook ptrToHook)).map (f.intrusive ptrToHook i).getParent = r := by
  cases r with
  | bool b => rfl
  | node p => cases p <;> simp [Ret.map, getParent_intrusive]

/-- The lists refine sequences of objects. -/
theorem objects_refine :
    System.Refines (objects ι ptrToHook) (sequences ι Addr) (Allowed ptrToHook)
      (objectReturns ptrToHook) seqReturns (HoldsAll ptrToHook) := by
  constructor
  · intro f hinit
    obtain ⟨t, ht, hrep⟩ := family_refines.init f hinit
    refine ⟨t, ht, ?_⟩
    have hnil : (fun i => (t i).map (getHook ptrToHook)) = t := funext fun i => by rw [ht i]; rfl
    rw [HoldsAll, hnil]
    exact hrep
  · rintro f t ⟨i, call⟩ f' h hok hstep
    obtain ⟨t₁, ht₁, hrep, hret⟩ := family_refines.step _ _ _ _ h hok hstep
    have hmap := runSeq_map (getHook_injective ptrToHook) (t i) call
    cases hrun : runSeq (t i) call with
    | none =>
        rw [hrun] at hmap
        simp only [sequences, hmap] at ht₁
        cases ht₁
    | some r =>
        rw [hrun] at hmap
        simp only [sequences, hmap, Option.map_some, Option.some.injEq] at ht₁
        refine ⟨Function.update t i r.2, by simp only [sequences, hrun, Option.map_some], ?_, ?_⟩
        · have hupdate : (fun j => (Function.update t i r.2 j).map (getHook ptrToHook)) = t₁ := by
            rw [← ht₁]
            funext j
            by_cases hji : j = i
            · subst hji
              rw [Function.update_self, Function.update_self]
            · rw [Function.update_of_ne hji, Function.update_of_ne hji]
          rw [HoldsAll, hupdate]
          exact hrep
        · simp only [objectReturns, ← hret, seqReturns, hmap, hrun, Option.map_some,
            Option.toList_some, List.map_cons, List.map_nil, map_getParent]

end IntrusiveSafeList
end Fredlib
