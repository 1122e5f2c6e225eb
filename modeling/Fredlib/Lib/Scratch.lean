/-
  Fredlib.Lib.Scratch

  Functions that work in scratch memory of their own thread.

  A routine takes one step after another on scratch memory that stays from one call to the
  next.  Any number of threads call it, and their steps interleave in any order.  Where a
  call alone computes the right result from whatever it finds in the memory, every call of
  every run does (`Routine.delivers`): no thread sees the memory of another one.
-/

import Fredlib.Lib.System
import Mathlib.Logic.Function.Basic

namespace Fredlib
namespace Lib

/-- A function in steps: what each step does to the memory, and the result that is there
    after the last one. -/
structure Routine (σ In Out : Type*) where
  steps : In → List (σ → σ)
  out : σ → Out

namespace Routine

variable {σ In Out T : Type*} (r : Routine σ In Out)

/-- A thread: its memory, and the call it is in with the number of steps that are done. -/
structure Thread (σ In : Type*) where
  memory : σ
  pc : Option (In × Nat)

/-- What can happen: a thread calls the routine, takes a step of it, returns. -/
inductive Ev (T In : Type*)
  | call (t : T) (input : In)
  | step (t : T)
  | ret (t : T)

/-- What a run shows: a call has returned. -/
structure Delivered (T In Out : Type*) where
  thread : T
  input : In
  out : Out

/-- The memory after some steps. -/
def after (steps : List (σ → σ)) (s : σ) : σ := steps.foldl (fun s f => f s) s

/-- A call alone computes `f`, from whatever is in the memory. -/
def Computes (f : In → Out) : Prop := ∀ input s, r.out (after (r.steps input) s) = f input

variable [DecidableEq T]

/-- One event. -/
def step (s : T → Thread σ In) : Ev T In → Option (T → Thread σ In)
  | .call t input =>
      match (s t).pc with
      | none => some (Function.update s t ⟨(s t).memory, some (input, 0)⟩)
      | some _ => none
  | .step t =>
      match (s t).pc with
      | some (input, k) =>
          (r.steps input)[k]?.map fun f => Function.update s t ⟨f (s t).memory, some (input, k + 1)⟩
      | none => none
  | .ret t =>
      match (s t).pc with
      | some (input, k) =>
          if k = (r.steps input).length then some (Function.update s t ⟨(s t).memory, none⟩)
          else none
      | none => none

/-- What an event shows. -/
def obs (s : T → Thread σ In) : Ev T In → List (Delivered T In Out)
  | .ret t =>
      match (s t).pc with
      | some (input, _) => [⟨t, input, r.out (s t).memory⟩]
      | none => []
  | _ => []

/-- Threads that have not called the routine yet, with anything in their memory. -/
def system (T : Type*) [DecidableEq T] : System (T → Thread σ In) (Ev T In) where
  init s := ∀ t, (s t).pc = none
  step := r.step

/-- A thread in a call has done its first steps, on what was in its memory before. -/
def Working (s : T → Thread σ In) : Prop :=
  ∀ t input k, (s t).pc = some (input, k) → k ≤ (r.steps input).length ∧
    ∃ s₀, (s t).memory = after ((r.steps input).take k) s₀

variable {r}

theorem Working.update {s : T → Thread σ In} (h : r.Working s) (t : T) {th : Thread σ In}
    (ht : ∀ input k, th.pc = some (input, k) → k ≤ (r.steps input).length ∧
      ∃ s₀, th.memory = after ((r.steps input).take k) s₀) :
    r.Working (Function.update s t th) := by
  intro u input k hu
  by_cases hut : u = t
  · subst hut
    rw [Function.update_self] at hu ⊢
    exact ht input k hu
  · rw [Function.update_of_ne hut] at hu ⊢
    exact h u input k hu

/-- One event, of whatever thread. -/
theorem Working.step {s s' : T → Thread σ In} {e : Ev T In} (h : r.Working s)
    (hs : r.step s e = some s') : r.Working s' := by
  cases e with
  | call t input =>
      simp only [Routine.step] at hs
      split at hs
      · cases hs
        refine h.update t fun input' k hpc => ?_
        cases hpc
        exact ⟨Nat.zero_le _, (s t).memory, rfl⟩
      · cases hs
  | step t =>
      simp only [Routine.step] at hs
      split at hs
      · rename_i input k hpc
        obtain ⟨f, hf, rfl⟩ := Option.map_eq_some_iff.mp hs
        -- one more instruction has run on the memory that the call began with
        obtain ⟨-, s₀, hmem⟩ := h t input k hpc
        obtain ⟨hk, hget⟩ := List.getElem?_eq_some_iff.mp hf
        refine h.update t fun input' k' hpc' => ?_
        cases hpc'
        refine ⟨hk, s₀, ?_⟩
        show f (s t).memory = _
        rw [hmem, after, after, List.take_add_one, hf, List.foldl_append]
        rfl
      · cases hs
  | ret t =>
      simp only [Routine.step] at hs
      split at hs
      · split at hs
        · cases hs
          exact h.update t fun _ _ hpc => by cases hpc
        · cases hs
      · cases hs

/-- **Every call** of every run delivers what the routine computes, for its own input. -/
theorem delivers {f : In → Out} (h : r.Computes f) {log : List (Delivered T In Out)}
    {s : T → Thread σ In} (ht : (r.system T).Traced (fun _ _ => True) r.obs log s) :
    ∀ o ∈ log, o.out = f o.input := by
  have hboth : r.Working s ∧ ∀ o ∈ log, o.out = f o.input := by
    refine System.Traced.invariant
      (P := fun log s => r.Working s ∧ ∀ o ∈ log, o.out = f o.input) ht ?_ ?_
    · intro s hinit
      refine ⟨fun t input k hpc => ?_, by simp⟩
      rw [hinit t] at hpc
      cases hpc
    · rintro log s e s' - ⟨hworking, hlog⟩ - hs
      have hs' : r.step s e = some s' := hs
      refine ⟨hworking.step hs', fun o ho => ?_⟩
      rcases List.mem_append.mp ho with ho | ho
      · exact hlog o ho
      · cases e with
        | call t input => cases ho
        | step t => cases ho
        | ret t =>
            simp only [Routine.step] at hs'
            simp only [obs] at ho
            split at hs'
            · rename_i input k hpc
              rw [hpc] at ho
              cases List.mem_singleton.mp ho
              split at hs'
              · rename_i hk
                obtain ⟨-, s₀, hmem⟩ := hworking t input k hpc
                rw [hk, List.take_length] at hmem
                -- the whole routine has run, and it computes `f` from any memory
                show r.out (s t).memory = f input
                rw [hmem]
                exact h input s₀
              · cases hs'
            · cases hs'
  exact hboth.2

end Routine

end Lib
end Fredlib
