/-
  Fredlib.Lib.System

  Guarded, executable transition systems.

  A model is a step function: `step s e` is `some s'` when event `e` is enabled
  in state `s`, and `none` otherwise.  What the environment promises about the
  events (`ok`) is kept apart from the step function, so that one system serves
  several sets of callers: `ReachableBy ok` are the states reached by runs whose
  every step meets `ok`, `Run ok` follows a run from a given state, and
  `Traced ok obs` collects what the run shows of itself on the way.

  `Refines` is the lock-step forward simulation between two systems over the
  same events: related states answer an event with the same observation.
-/

import Mathlib.Logic.Basic
import Mathlib.Data.List.Basic

namespace Fredlib
namespace Lib

/-- A transition system: initial states and a guarded step function. -/
structure System (S Ev : Type*) where
  init : S → Prop
  step : S → Ev → Option S

namespace System

variable {S S' Ev O : Type*} (sys : System S Ev)

/-- States reached from an initial state by enabled events that meet `ok`. -/
inductive ReachableBy (ok : S → Ev → Prop) : S → Prop
  | init {s : S} : sys.init s → ReachableBy ok s
  | step {s s' : S} : ReachableBy ok s → (e : Ev) → ok s e → sys.step s e = some s' →
      ReachableBy ok s'

/-- States reached by any enabled events. -/
abbrev Reachable : S → Prop := sys.ReachableBy fun _ _ => True

/-- `Run ok s evs s'`: from `s` the events `evs`, each meeting `ok`, lead to `s'`. -/
inductive Run (ok : S → Ev → Prop) : S → List Ev → S → Prop
  | nil {s : S} : Run ok s [] s
  | cons {s s₁ s₂ : S} {e : Ev} {evs : List Ev} :
      ok s e → sys.step s e = some s₁ → Run ok s₁ evs s₂ → Run ok s (e :: evs) s₂

/-- Reachability that collects, in order, what `obs` shows of every step. -/
inductive Traced (ok : S → Ev → Prop) (obs : S → Ev → List O) : List O → S → Prop
  | init {s : S} : sys.init s → Traced ok obs [] s
  | step {log : List O} {s s' : S} {e : Ev} :
      Traced ok obs log s → ok s e → sys.step s e = some s' →
      Traced ok obs (log ++ obs s e) s'

/-- The system that keeps, next to its state, what `obs` has shown of the steps
    so far. -/
def recorded (obs : S → Ev → List O) : System (List O × S) Ev where
  init p := p.1 = [] ∧ sys.init p.2
  step p e := (sys.step p.2 e).map fun s' => (p.1 ++ obs p.2 e, s')

variable {sys} {ok : S → Ev → Prop} {obs : S → Ev → List O}

/-! ## Invariants -/

/-- A predicate that holds initially and that every step meeting `ok` preserves
    holds in every state reached.  The step case may assume reachability. -/
theorem ReachableBy.invariant {P : S → Prop} {s : S} (h : sys.ReachableBy ok s)
    (hinit : ∀ s, sys.init s → P s)
    (hstep : ∀ s e s', sys.ReachableBy ok s → P s → ok s e → sys.step s e = some s' → P s') :
    P s := by
  induction h with
  | init h0 => exact hinit _ h0
  | step hr _ hok hs ih => exact hstep _ _ _ hr ih hok hs

/-- A weaker promise reaches at least as many states. -/
theorem ReachableBy.mono {ok' : S → Ev → Prop} {s : S} (h : sys.ReachableBy ok s)
    (himp : ∀ s e, ok s e → ok' s e) : sys.ReachableBy ok' s := by
  induction h with
  | init h0 => exact .init h0
  | step _ _ hok hs ih => exact .step ih _ (himp _ _ hok) hs

/-- A run from a reachable state ends in a reachable state. -/
theorem Run.reachable {s s' : S} {evs : List Ev} (h : sys.Run ok s evs s')
    (hs : sys.ReachableBy ok s) : sys.ReachableBy ok s' := by
  induction h with
  | nil => exact hs
  | cons hok hstep _ ih => exact ih (.step hs _ hok hstep)

/-- What holds at the start of a run, and is preserved by its steps, holds at its end. -/
theorem Run.invariant {P : S → Prop} {s s' : S} {evs : List Ev} (h : sys.Run ok s evs s')
    (h0 : P s) (hstep : ∀ s e s', P s → ok s e → sys.step s e = some s' → P s') : P s' := by
  induction h with
  | nil => exact h0
  | cons hok hs _ ih => exact ih (hstep _ _ _ h0 hok hs)

/-- A run that meets a promise meets a weaker one. -/
theorem Run.mono {ok' : S → Ev → Prop} {s s' : S} {evs : List Ev} (h : sys.Run ok s evs s')
    (himp : ∀ s e, ok s e → ok' s e) : sys.Run ok' s evs s' := by
  induction h with
  | nil => exact .nil
  | cons hok hstep _ ih => exact .cons (himp _ _ hok) hstep ih

/-- A traced state is reachable. -/
theorem Traced.reachable {log : List O} {s : S} (h : sys.Traced ok obs log s) :
    sys.ReachableBy ok s := by
  induction h with
  | init h0 => exact .init h0
  | step _ hok hs ih => exact .step ih _ hok hs

/-- And a reachable state is traced. -/
theorem ReachableBy.traced {s : S} (h : sys.ReachableBy ok s) (obs : S → Ev → List O) :
    ∃ log, sys.Traced ok obs log s := by
  induction h with
  | init h0 => exact ⟨[], .init h0⟩
  | step _ _ hok hs ih =>
      obtain ⟨log, hlog⟩ := ih
      exact ⟨_, hlog.step hok hs⟩

/-- The invariant rule over a state together with its trace. -/
theorem Traced.invariant {P : List O → S → Prop} {log : List O} {s : S}
    (h : sys.Traced ok obs log s) (hinit : ∀ s, sys.init s → P [] s)
    (hstep : ∀ log s e s', sys.ReachableBy ok s → P log s → ok s e →
      sys.step s e = some s' → P (log ++ obs s e) s') : P log s := by
  induction h with
  | init h0 => exact hinit _ h0
  | step ht hok hs ih => exact hstep _ _ _ _ ht.reachable ih hok hs

/-- A step of the recording system is a step of the system it records. -/
theorem recorded_some {p p' : List O × S} {e : Ev}
    (h : (sys.recorded obs).step p e = some p') :
    ∃ s', sys.step p.2 e = some s' ∧ p' = (p.1 ++ obs p.2 e, s') := by
  simp only [recorded, Option.map_eq_some_iff] at h
  obtain ⟨s', hs', rfl⟩ := h
  exact ⟨s', hs', rfl⟩

theorem recorded_of_step {p : List O × S} {e : Ev} {s' : S} (h : sys.step p.2 e = some s') :
    (sys.recorded obs).step p e = some (p.1 ++ obs p.2 e, s') := by
  simp only [recorded, h, Option.map_some]

/-- The invariant rule over a state together with what has been recorded. -/
theorem ReachableBy.recorded_invariant {okp : List O × S → Ev → Prop} {P : List O → S → Prop}
    {p : List O × S} (h : (sys.recorded obs).ReachableBy okp p) (hinit : ∀ s, sys.init s → P [] s)
    (hstep : ∀ log s e s', P log s → okp (log, s) e → sys.step s e = some s' →
      P (log ++ obs s e) s') : P p.1 p.2 := by
  refine h.invariant (P := fun p => P p.1 p.2) ?_ ?_
  · rintro ⟨log, s⟩ ⟨hlog, hs⟩
    have hnil : log = [] := hlog
    subst hnil
    exact hinit s hs
  · rintro ⟨log, s⟩ e p' - hP hok hs
    obtain ⟨s', hs', rfl⟩ := recorded_some hs
    exact hstep log s e s' hP hok hs'

/-- And over a run of the recording system. -/
theorem Run.recorded_invariant {okp : List O × S → Ev → Prop} {P : List O → S → Prop}
    {p p' : List O × S} {evs : List Ev} (h : (sys.recorded obs).Run okp p evs p') (h0 : P p.1 p.2)
    (hstep : ∀ log s e s', P log s → okp (log, s) e → sys.step s e = some s' →
      P (log ++ obs s e) s') : P p'.1 p'.2 := by
  refine h.invariant (P := fun p => P p.1 p.2) h0 ?_
  rintro ⟨log, s⟩ e q hP hok hs
  obtain ⟨s', hs', rfl⟩ := recorded_some hs
  exact hstep log s e s' hP hok hs'

/-- What the recording system has recorded is a trace. -/
theorem ReachableBy.traced_of_recorded {p : List O × S}
    (h : (sys.recorded obs).ReachableBy (fun p e => ok p.2 e) p) : sys.Traced ok obs p.1 p.2 :=
  h.recorded_invariant (fun _ hs => .init hs) fun _ _ _ _ htraced hok hs => htraced.step hok hs

/-- Either every step of a run meets `Q`, or there is a first one that does not. -/
theorem Run.meets_or_breaks {Q : S → Ev → Prop} {s s' : S} {evs : List Ev}
    (h : sys.Run ok s evs s') :
    sys.Run (fun s e => ok s e ∧ Q s e) s evs s' ∨
      ∃ evs₁ s₁ e s₂ evs₂, sys.Run (fun s e => ok s e ∧ Q s e) s evs₁ s₁ ∧ ok s₁ e ∧ ¬ Q s₁ e ∧
        sys.step s₁ e = some s₂ ∧ sys.Run ok s₂ evs₂ s' := by
  induction h with
  | nil => exact .inl .nil
  | @cons s s₂ _ e evs hok hstep hrest ih =>
      by_cases hQ : Q s e
      · rcases ih with hrun | ⟨evs₁, s₁, e', s₃, evs₂, hrun, hbreak⟩
        · exact .inl (.cons ⟨hok, hQ⟩ hstep hrun)
        · exact .inr ⟨e :: evs₁, s₁, e', s₃, evs₂, .cons ⟨hok, hQ⟩ hstep hrun, hbreak⟩
      · exact .inr ⟨[], s, e, s₂, evs, .nil, hok, hQ, hstep, hrest⟩

/-- Two conditions on steps that agree in every state reached while the second
    has held so far are met by the same runs. -/
theorem Run.and_iff {P Q : S → Ev → Prop} {s s' : S} {evs : List Ev}
    (h : sys.Run ok s evs s') (hs : sys.ReachableBy (fun s e => ok s e ∧ Q s e) s)
    (hPQ : ∀ s e s', sys.ReachableBy (fun s e => ok s e ∧ Q s e) s → ok s e →
      sys.step s e = some s' → (P s e ↔ Q s e)) :
    sys.Run (fun s e => ok s e ∧ P s e) s evs s' ↔
      sys.Run (fun s e => ok s e ∧ Q s e) s evs s' := by
  induction h with
  | nil => exact ⟨fun _ => .nil, fun _ => .nil⟩
  | cons hok hstep _ ih =>
      have hiff := hPQ _ _ _ hs hok hstep
      constructor
      · intro hrun
        cases hrun with
        | cons hP hstep' hrest =>
            have hQ := hiff.mp hP.2
            have hsame := Option.some.inj (hstep.symm.trans hstep')
            subst hsame
            exact .cons ⟨hok, hQ⟩ hstep ((ih (.step hs _ ⟨hok, hQ⟩ hstep)).mp hrest)
      · intro hrun
        cases hrun with
        | cons hQ hstep' hrest =>
            have hsame := Option.some.inj (hstep.symm.trans hstep')
            subst hsame
            exact .cons ⟨hok, hiff.mpr hQ.2⟩ hstep ((ih (.step hs _ hQ hstep)).mpr hrest)

/-- Two conditions on steps that agree wherever `I` holds, and of which the first
    keeps `I`, are met by the same runs. -/
theorem run_iff_of_invariant {I : S → Prop} {P Q : S → Ev → Prop} {s s' : S} {evs : List Ev}
    (h0 : I s) (hPQ : ∀ s e s', I s → sys.step s e = some s' → (P s e ↔ Q s e))
    (hI : ∀ s e s', I s → P s e → sys.step s e = some s' → I s') :
    sys.Run P s evs s' ↔ sys.Run Q s evs s' := by
  constructor
  · intro hrun
    induction hrun with
    | nil => exact .nil
    | cons hP hs _ ih => exact .cons ((hPQ _ _ _ h0 hs).mp hP) hs (ih (hI _ _ _ h0 hP hs))
  · intro hrun
    induction hrun with
    | nil => exact .nil
    | cons hQ hs _ ih =>
        have hP := (hPQ _ _ _ h0 hs).mpr hQ
        exact .cons hP hs (ih (hI _ _ _ h0 hP hs))

/-- All that a run records is good exactly if all its steps meet `Q`, where what a
    single step records is good exactly if it meets `Q`. -/
theorem Run.recorded_good_iff {okp Q : List O × S → Ev → Prop} {Good : O → Prop}
    {I : List O × S → Prop} {p p' : List O × S} {evs : List Ev}
    (h : (sys.recorded obs).Run okp p evs p') (h0 : I p)
    (hI : ∀ p e p', I p → (sys.recorded obs).step p e = some p' → I p')
    (hQ : ∀ p e s', I p → sys.step p.2 e = some s' → ((∀ o ∈ obs p.2 e, Good o) ↔ Q p e)) :
    (∀ o ∈ p'.1, Good o) ↔ (∀ o ∈ p.1, Good o) ∧ (sys.recorded obs).Run Q p evs p' := by
  induction h with
  | nil => exact ⟨fun hgood => ⟨hgood, .nil⟩, And.left⟩
  | @cons p p₁ p₂ e evs _ hstep _ ih =>
      obtain ⟨s₁, hs₁, rfl⟩ := recorded_some hstep
      have hiff := hQ _ _ _ h0 hs₁
      rw [ih (hI _ _ _ h0 hstep), List.forall_mem_append, hiff]
      constructor
      · rintro ⟨⟨hgood, hq⟩, hrun⟩
        exact ⟨hgood, .cons hq hstep hrun⟩
      · rintro ⟨hgood, hrun⟩
        cases hrun with
        | cons hq hstep' hrest =>
            have hsame := Option.some.inj (hstep.symm.trans hstep')
            subst hsame
            exact ⟨⟨hgood, hq⟩, hrest⟩

/-! ## Simulations -/

/-- Lock-step forward simulation: related states answer every event that meets
    `ok` with related states and the same observation. -/
structure Refines (A : System S Ev) (B : System S' Ev) (ok : S → Ev → Prop)
    (obsA : S → Ev → List O) (obsB : S' → Ev → List O) (R : S → S' → Prop) : Prop where
  init : ∀ s, A.init s → ∃ t, B.init t ∧ R s t
  step : ∀ s t e s', R s t → ok s e → A.step s e = some s' →
    ∃ t', B.step t e = some t' ∧ R s' t' ∧ obsB t e = obsA s e

/-- A refinement carries whole runs over, with their traces. -/
theorem Refines.traced {A : System S Ev} {B : System S' Ev} {obsA : S → Ev → List O}
    {obsB : S' → Ev → List O} {R : S → S' → Prop} (href : Refines A B ok obsA obsB R)
    {log : List O} {s : S} (h : A.Traced ok obsA log s) :
    ∃ t, B.Traced (fun _ _ => True) obsB log t ∧ R s t := by
  induction h with
  | init h0 =>
      obtain ⟨t, ht, hR⟩ := href.init _ h0
      exact ⟨t, .init ht, hR⟩
  | step _ hok hs ih =>
      obtain ⟨t, ht, hR⟩ := ih
      obtain ⟨t', hs', hR', hobs⟩ := href.step _ _ _ _ hR hok hs
      exact ⟨t', hobs ▸ .step ht trivial hs', hR'⟩

/-- Projection onto a component, along the runs that meet `ok`: every step of the
    whole is a step of the component, one that it `sees` as, or leaves the
    component alone. -/
structure Projects {Ev' : Type*} (A : System S Ev) (B : System S' Ev') (ok : S → Ev → Prop)
    (sees : S → Ev → Ev' → Prop) (f : S → S') : Prop where
  init : ∀ s, A.init s → B.init (f s)
  step : ∀ s e s', A.ReachableBy ok s → ok s e → A.step s e = some s' →
    f s' = f s ∨ ∃ e', sees s e e' ∧ B.step (f s) e' = some (f s')

section Projects

variable {Ev' : Type*} {A : System S Ev} {B : System S' Ev'} {sees : S → Ev → Ev' → Prop}
  {f : S → S'} {ok₁ : S → Ev → Prop} {ok' : S' → Ev' → Prop} {s s' : S}

/-- A component of a reachable state is a reachable state of the component. -/
theorem Projects.reachable (hp : Projects A B ok sees f) (himp : ∀ s e, ok₁ s e → ok s e)
    (hok : ∀ s e e', ok₁ s e → sees s e e' → ok' (f s) e') (h : A.ReachableBy ok₁ s) :
    B.ReachableBy ok' (f s) := by
  induction h with
  | init h0 => exact .init (hp.init _ h0)
  | step hr e hok₁ hs ih =>
      rcases hp.step _ _ _ (hr.mono himp) (himp _ _ hok₁) hs with heq | ⟨e', hsees, hs'⟩
      · exact heq ▸ ih
      · exact .step ih _ (hok _ _ _ hok₁ hsees) hs'

/-- A run of the whole is a run of the component. -/
theorem Projects.run {evs : List Ev} (hp : Projects A B ok sees f)
    (himp : ∀ s e, ok₁ s e → ok s e) (hok : ∀ s e e', ok₁ s e → sees s e e' → ok' (f s) e')
    (hr : A.ReachableBy ok s) (h : A.Run ok₁ s evs s') : ∃ evs', B.Run ok' (f s) evs' (f s') := by
  induction h with
  | nil => exact ⟨[], .nil⟩
  | cons hok₁ hs _ ih =>
      obtain ⟨evs', hrun⟩ := ih (hr.step _ (himp _ _ hok₁) hs)
      rcases hp.step _ _ _ hr (himp _ _ hok₁) hs with heq | ⟨e', hsees, hs'⟩
      · exact ⟨evs', heq ▸ hrun⟩
      · exact ⟨e' :: evs', .cons (hok _ _ _ hok₁ hsees) hs' hrun⟩

end Projects

end System

end Lib
end Fredlib
