/-
  Fredlib.Lib.Fair

  Runs without end, and what must happen in them.

  Nothing makes a system take a step.  A run is weakly fair to a party, given by the
  events that are up to it, if the party does not stand still for ever while it could
  move.  What such a run must reach is shown with a rank that no step raises and that
  every step of a fair party lowers (`WeaklyFair.eventually`).
-/

import Fredlib.Lib.System

namespace Fredlib
namespace Lib

/-- A run without end: the state at each moment, and what happens then, if anything. -/
structure Execution {S Ev : Type*} (sys : System S Ev) where
  state : Nat → S
  event : Nat → Option Ev
  init : sys.init (state 0)
  step : ∀ {k e}, event k = some e → sys.step (state k) e = some (state (k + 1))
  still : ∀ {k}, event k = none → state (k + 1) = state k

namespace Execution

variable {S Ev O : Type*} {sys : System S Ev} (x : Execution sys) {ok : S → Ev → Prop}
  {obs : S → Ev → List O} {mine : Ev → Prop} {Goal : Nat → Prop} {k k' : Nat}

/-- All events meet `ok`. -/
def Meets (ok : S → Ev → Prop) : Prop := ∀ k e, x.event k = some e → ok (x.state k) e

/-- What the run has shown before the moment `k`. -/
def log (obs : S → Ev → List O) : Nat → List O
  | 0 => []
  | k + 1 => log obs k ++ ((x.event k).map (obs (x.state k))).getD []

/-- The events of `mine` are up to one party: again and again one of them happens, or
    none can. -/
def WeaklyFair (mine : Ev → Prop) : Prop :=
  ∀ k, ∃ k', k ≤ k' ∧ ((∃ e, mine e ∧ x.event k' = some e) ∨
    ∀ e, mine e → sys.step (x.state k') e = none)

variable {x}

-- ============================================================================
-- Moments
-- ============================================================================

theorem log_step {e : Ev} (h : x.event k = some e) :
    x.log obs (k + 1) = x.log obs k ++ obs (x.state k) e := by
  rw [log, h]
  rfl

theorem log_still (h : x.event k = none) : x.log obs (k + 1) = x.log obs k := by
  rw [log, h]
  exact List.append_nil _

/-- Every moment is the end of a finite run. -/
theorem traced (hok : x.Meets ok) (obs : S → Ev → List O) (k : Nat) :
    sys.Traced ok obs (x.log obs k) (x.state k) := by
  induction k with
  | zero => exact .init x.init
  | succ k ih =>
      cases he : x.event k with
      | none =>
          rw [log_still he, x.still he]
          exact ih
      | some e =>
          rw [log_step he]
          exact ih.step (hok k e he) (x.step he)

theorem reachable (hok : x.Meets ok) (k : Nat) : sys.ReachableBy ok (x.state k) :=
  (x.traced hok (fun _ _ => ([] : List Unit)) k).reachable

/-- What has been shown stays. -/
theorem log_prefix (obs : S → Ev → List O) (h : k ≤ k') : x.log obs k <+: x.log obs k' := by
  induction h with
  | refl => exact List.prefix_rfl
  | step _ ih => exact ih.trans (List.prefix_append _ _)

-- ============================================================================
-- Fairness
-- ============================================================================

/-- A party that can move as long as `P` holds, which only its own events end, does move. -/
theorem WeaklyFair.exists_own_event (hfair : x.WeaklyFair mine) {P : Nat → Prop} (hP : P k)
    (hstays : ∀ j, k ≤ j → P j → (∀ e, x.event j = some e → ¬ mine e) → P (j + 1))
    (henabled : ∀ j, k ≤ j → P j → ∃ e, mine e ∧ sys.step (x.state j) e ≠ none) :
    ∃ j e, k ≤ j ∧ P j ∧ mine e ∧ x.event j = some e := by
  by_contra hnever
  have hall : ∀ j, k ≤ j → P j := by
    intro j hj
    induction hj with
    | refl => exact hP
    | @step j hj ih => exact hstays j hj ih fun e he hmine => hnever ⟨j, e, hj, ih, hmine, he⟩
  obtain ⟨j, hj, ⟨e, hmine, he⟩ | hnone⟩ := hfair k
  · exact hnever ⟨j, e, hj, hall j hj, hmine, he⟩
  · obtain ⟨e, hmine, hsome⟩ := henabled j hj (hall j hj)
    exact hsome (hnone e hmine)

/-- **The rank rule.**  Several parties are treated fairly, and in each state one of them is
    looked to.  As long as the goal is not reached that party can move and lowers the rank by
    it; any other event lowers the rank, or leaves both rank and party as they are. -/
theorem eventually_of_helpful {Party : Type*} {up : Party → Ev → Prop} (help : S → Party)
    (rank : S → Nat) (hfair : ∀ p, x.WeaklyFair (up p))
    (henabled : ∀ j, k ≤ j → ¬ Goal j →
      ∃ e, up (help (x.state j)) e ∧ sys.step (x.state j) e ≠ none)
    (hstep : ∀ j e, k ≤ j → ¬ Goal j → ¬ Goal (j + 1) → x.event j = some e →
      rank (x.state (j + 1)) < rank (x.state j) ∨
        (rank (x.state (j + 1)) = rank (x.state j) ∧ help (x.state (j + 1)) = help (x.state j) ∧
          ¬ up (help (x.state j)) e)) :
    ∃ k', k ≤ k' ∧ Goal k' := by
  by_contra hnever
  have hno : ∀ j, k ≤ j → ¬ Goal j := fun j hj hgoal => hnever ⟨j, hj, hgoal⟩
  have hdescent : ∀ r j, k ≤ j → rank (x.state j) = r → False := by
    intro r
    induction r using Nat.strongRecOn with
    | ind r ih =>
        intro j hj hr
        -- the rank does not go below `r` any more, so the party stays the same until it moves
        have hfloor : ∀ i, k ≤ i → ¬ rank (x.state i) < r := fun i hi hlt => ih _ hlt i hi rfl
        obtain ⟨i, e, hji, ⟨hri, hhelp⟩, hup, he⟩ := (hfair (help (x.state j))).exists_own_event
          (P := fun i => rank (x.state i) = r ∧ help (x.state i) = help (x.state j)) ⟨hr, rfl⟩
          (fun i hi hP hnot => by
            cases he : x.event i with
            | none =>
                rw [x.still he]
                exact hP
            | some e =>
                rcases hstep i e (by omega) (hno _ (by omega)) (hno _ (by omega)) he with
                  hlt | ⟨hrank, hsame, -⟩
                · exact absurd (hP.1 ▸ hlt) (hfloor (i + 1) (by omega))
                · exact ⟨hrank.trans hP.1, hsame.trans hP.2⟩)
          (fun i hi hP => by
            have hcan := henabled i (by omega) (hno _ (by omega))
            rwa [hP.2] at hcan)
        rcases hstep i e (by omega) (hno _ (by omega)) (hno _ (by omega)) he with hlt | ⟨-, -, hnot⟩
        · exact hfloor (i + 1) (by omega) (hri ▸ hlt)
        · exact hnot (hhelp ▸ hup)
  exact hdescent _ k (Nat.le_refl k) rfl

/-- The rank rule for one party: the other events leave the rank as it is. -/
theorem WeaklyFair.eventually (hfair : x.WeaklyFair mine) (rank : S → Nat)
    (henabled : ∀ j, k ≤ j → ¬ Goal j → ∃ e, mine e ∧ sys.step (x.state j) e ≠ none)
    (hmine : ∀ j e, k ≤ j → ¬ Goal j → ¬ Goal (j + 1) → mine e → x.event j = some e →
      rank (x.state (j + 1)) < rank (x.state j))
    (hother : ∀ j e, k ≤ j → ¬ Goal j → ¬ Goal (j + 1) → ¬ mine e → x.event j = some e →
      rank (x.state (j + 1)) = rank (x.state j)) :
    ∃ k', k ≤ k' ∧ Goal k' := by
  have hall : ∀ _ : Unit, x.WeaklyFair mine := fun _ => hfair
  refine eventually_of_helpful (fun _ => ()) rank hall henabled fun j e hj hgoal hgoal' he => ?_
  by_cases hm : mine e
  · exact .inl (hmine j e hj hgoal hgoal' hm he)
  · exact .inr ⟨hother j e hj hgoal hgoal' hm he, rfl, hm⟩

/-- What each of finitely many parties comes to, and stays at, all of them come to. -/
theorem eventually_all {D : Nat → Nat → Prop} {n : Nat}
    (h : ∀ i, i < n → ∃ k', k ≤ k' ∧ ∀ j, k' ≤ j → D i j) :
    ∃ k', k ≤ k' ∧ ∀ j, k' ≤ j → ∀ i, i < n → D i j := by
  induction n with
  | zero => exact ⟨k, Nat.le_refl k, fun j _ i hi => absurd hi (Nat.not_lt_zero i)⟩
  | succ n ih =>
      obtain ⟨k₁, hk₁, hall⟩ := ih fun i hi => h i (by omega)
      obtain ⟨k₂, hk₂, hlast⟩ := h n (Nat.lt_succ_self n)
      refine ⟨max k₁ k₂, by omega, fun j hj i hi => ?_⟩
      by_cases hin : i = n
      · exact hin ▸ hlast j (by omega)
      · exact hall j (by omega) i (by omega)

end Execution

-- ============================================================================
-- Schedulers
-- ============================================================================

namespace System

variable {S Ev : Type*} (sys : System S Ev) (pick : Nat → S → Option Ev)

/-- What a scheduler makes happen: the event it picks, if that can happen. -/
def picked (k : Nat) (s : S) : Option Ev := (pick k s).filter fun e => (sys.step s e).isSome

/-- The states under a scheduler. -/
def play (s : S) : Nat → S
  | 0 => s
  | k + 1 => ((sys.picked pick k (play s k)).bind (sys.step (play s k))).getD (play s k)

variable {sys}

/-- The run under a scheduler. -/
def schedule {s : S} (h : sys.init s) : Execution sys where
  state := sys.play pick s
  event k := sys.picked pick k (sys.play pick s k)
  init := h
  step := by
    intro k e he
    have hsome := (Option.filter_eq_some_iff.mp he).2
    obtain ⟨s', hs'⟩ := Option.isSome_iff_exists.mp hsome
    rw [play, he, Option.bind_some, hs', Option.getD_some]
  still := by
    intro k he
    rw [play, he]
    rfl

/-- What happens has been picked. -/
theorem schedule_picks {s : S} (h : sys.init s) {k : Nat} {e : Ev}
    (he : (sys.schedule pick h).event k = some e) :
    pick k ((sys.schedule pick h).state k) = some e := by
  have hpicked : sys.picked pick k (sys.play pick s k) = some e := he
  exact (Option.filter_eq_some_iff.mp hpicked).1

/-- A scheduler that picks an event again and again is fair to it. -/
theorem schedule_fair {s : S} (h : sys.init s) {e : Ev}
    (hpick : ∀ k, ∃ j, k ≤ j ∧ ∀ s, pick j s = some e) :
    (sys.schedule pick h).WeaklyFair (· = e) := by
  intro k
  obtain ⟨j, hj, hpicked⟩ := hpick k
  refine ⟨j, hj, ?_⟩
  have hevent : (sys.schedule pick h).event j =
      (some e).filter fun e => (sys.step ((sys.schedule pick h).state j) e).isSome := by
    rw [← hpicked]
    rfl
  cases hs : sys.step ((sys.schedule pick h).state j) e with
  | none => exact .inr fun e' he' => he' ▸ hs
  | some s' =>
      refine .inl ⟨e, rfl, ?_⟩
      rw [hevent, Option.filter_some, hs]
      rfl

end System

end Lib
end Fredlib
