/-
  Fredlib.Threading.Crew

  A `ThreadControl` together with the threads that share it: the workers of a
  pool and one controlling thread.

  A worker is in a call of `pauseIfRequred`, elsewhere in its routine, or past
  its call of `done`.  The controller creates workers and announces them to the
  counters in either order, so while it adds workers each counter is ahead of
  their number by some amount, possibly negative.  Both kinds of pool run as a
  crew; what is said here of every crew holds of both.
-/

import Fredlib.Threading.ThreadControl
import Mathlib.Data.Finset.Range

namespace Fredlib

open Lib Lib.Monitor ThreadControl

/-- Where a worker stands. -/
inductive Crew.Phase
  | absent
  | checking
  | free
  | finished
  deriving DecidableEq

/-- What the controller is at.  While it adds workers: how far the counters of
    `FanInPoint` and `PausePoint` are ahead of the workers created. -/
inductive Crew.Ctl
  | idle
  | adding (aheadFan aheadPause : Int)
  | pausing
  | resuming
  | stopping
  | waiting
  | joining
  deriving DecidableEq

/-- The control object, the workers, and the controller. -/
structure Crew where
  tc : ThreadControl (Tid Unit)
  created : Nat
  phase : Nat → Crew.Phase
  ctl : Crew.Ctl

namespace Crew

/-- The steps of a crew. -/
inductive Ev
  | check (i : Nat)
  | again (i : Nat)
  | done (i : Nat)
  | sync (t : Tid Unit)
  | begin (k : Ctl)
  | create (ph : Phase)
  | arm (b : Base) (expected : Int)
  | announce (b : Base) (num : Int)
  | pause
  | resume
  | requestStop
  | wait (k : Ctl)
  | rest
  | spurious (b : Base) (t : Tid Unit)

/-- The controller. -/
abbrev controller : Tid Unit := .client ()

/-- The worker `i` is at `ph` now. -/
def goto (s : Crew) (i : Nat) (ph : Phase) : Crew :=
  { s with phase := Function.update s.phase i ph }

/-- How far the counter of `FanInPoint` is ahead. -/
def Ctl.aheadFan : Ctl → Int
  | .adding f _ => f
  | _ => 0

/-- How far the counter of `PausePoint` is ahead. -/
def Ctl.aheadPause : Ctl → Int
  | .adding _ p => p
  | _ => 0

/-- The lead of the counters once `num` more are announced to the base `b`. -/
def lead (f p num : Int) : Base → Ctl
  | .syncPoint => .adding f p
  | .fanIn => .adding (f + num) p
  | .pausePoint => .adding f (p + num)

/-- The lead of the counters once the base `b` expects `expected`, before there
    are any workers. -/
def rearm (f p expected : Int) : Base → Ctl
  | .syncPoint => .adding f p
  | .fanIn => .adding expected p
  | .pausePoint => .adding f expected

/-- One step. -/
def step (s : Crew) : Ev → Option Crew
  | .check i =>
      match s.phase i with
      | .checking =>
          (s.tc.advance (.worker i) (.pause .pauseIfRequred)).map fun r =>
            { s with tc := r.1 }.goto i (if r.2.isSome then .free else .checking)
      | _ => none
  | .again i =>
      match s.phase i with
      | .free => some (s.goto i .checking)
      | _ => none
  | .done i =>
      match s.phase i with
      | .free =>
          (s.tc.advance (.worker i) (.fanIn .done)).map fun r =>
            { s with tc := r.1 }.goto i .finished
      | _ => none
  | .sync t => (s.tc.advance t (.sync .sync)).map fun r => { s with tc := r.1 }
  | .begin k =>
      match s.ctl, k with
      | .idle, .adding 0 0 | .idle, .pausing | .idle, .resuming | .idle, .stopping
      | .idle, .waiting | .idle, .joining => some { s with ctl := k }
      | _, _ => none
  | .create ph =>
      match s.ctl, ph with
      | .adding f p, .checking | .adding f p, .free =>
          some
            ({ s with created := s.created + 1, ctl := .adding (f - 1) (p - 1) }.goto s.created ph)
      | _, _ => none
  | .arm b expected =>
      match s.ctl, s.created with
      | .adding f p, 0 =>
          (s.tc.advance controller (initializeExpected expected b)).map fun r =>
            { s with tc := r.1, ctl := rearm f p expected b }
      | _, _ => none
  | .announce b num =>
      match s.ctl with
      | .adding f p =>
          (s.tc.advance controller (addThread num b)).map fun r =>
            { s with tc := r.1, ctl := lead f p num b }
      | _ => none
  | .pause =>
      match s.ctl with
      | .pausing =>
          (s.tc.advance controller (.pause .pause)).map fun r =>
            { s with tc := r.1, ctl := if r.2.isSome then .idle else .pausing }
      | _ => none
  | .resume =>
      match s.ctl with
      | .resuming =>
          (s.tc.advance controller (.pause .resume)).map fun r =>
            { s with tc := r.1, ctl := if r.2.isSome then .idle else .resuming }
      | _ => none
  | .requestStop =>
      match s.ctl with
      | .stopping => some { s with tc := s.tc.requestStop, ctl := .waiting }
      | _ => none
  | .wait k =>
      match s.ctl, k with
      | .waiting, .joining | .waiting, .idle =>
          (s.tc.advance controller (.fanIn .wait)).map fun r =>
            { s with tc := r.1, ctl := if r.2.isSome then k else .waiting }
      | _, _ => none
  | .rest =>
      match s.ctl with
      | .adding 0 0 | .stopping | .joining => some { s with ctl := .idle }
      | _ => none
  | .spurious b t => (s.tc.spurious b t).map fun tc => { s with tc := tc }

/-- A crew nobody has joined yet: the controller is about to add the first
    workers to a control object that expects none. -/
def system : System Crew Ev where
  init s := s.tc = .create 0 ∧ s.created = 0 ∧ (∀ i, s.phase i = .absent) ∧ s.ctl = .adding 0 0
  step := step

/-- The number of workers past `done`. -/
def finished (s : Crew) : Nat :=
  ((Finset.range s.created).filter fun i => s.phase i = .finished).card

/-- The invariant of a crew: the two monitors in which threads sleep are in
    order, sleepers are where their phase says, and the counters are the number
    of workers, less the finished ones, up to what the controller still owes. -/
structure Inv (s : Crew) : Prop where
  handshake : PausePoint.Handshake Tid.IsWorker s.tc.pausePoint
  awaited : FanInPoint.Awaited Tid.IsWorker s.tc.fanIn
  absent : ∀ i, s.phase i = .absent ↔ s.created ≤ i
  checking : ∀ i w, (s.tc.pausePoint.thr (.worker i)).waiting = some w → s.phase i = .checking
  pausing : ∀ w, (s.tc.pausePoint.thr controller).waiting = some w →
    (w = .allPaused ∧ s.ctl = .pausing) ∨ (w = .nonePaused ∧ s.ctl = .resuming)
  waiting : ∀ w, (s.tc.fanIn.thr controller).waiting = some w → s.ctl = .waiting
  fanCount : s.tc.fanIn.data.mExpectedThreads = s.created - s.finished + s.ctl.aheadFan
  pauseCount : s.tc.pausePoint.data.mExpectedThreads = s.created + s.ctl.aheadPause

variable {s s' : Crew} {i : Nat} {ph : Phase}

theorem one_controller (t t' : Tid Unit) (h : ¬ t.IsWorker) (h' : ¬ t'.IsWorker) : t = t' := by
  cases t with
  | worker i => exact absurd trivial h
  | client c =>
      cases t' with
      | worker i => exact absurd trivial h'
      | client c' => rfl

theorem inv_of_init (h : system.init s) : Inv s := by
  obtain ⟨htc, hcreated, hphase, hctl⟩ := h
  obtain ⟨tc, created, phase, ctl⟩ := s
  simp only at htc hcreated hphase hctl
  subst htc hcreated hctl
  refine ⟨.init rfl fun _ => rfl, .init fun _ => rfl, fun i => by simp [hphase], ?_, ?_, ?_,
    rfl, rfl⟩
  · intro i w hw
    cases hw
  · intro w hw
    cases hw
  · intro w hw
    cases hw

/-! ## Counting the finished workers -/

@[simp] theorem goto_self : (s.goto i ph).phase i = ph := by simp [goto]

theorem goto_of_ne {j : Nat} (h : j ≠ i) : (s.goto i ph).phase j = s.phase j := by
  simp [goto, h]

theorem finished_goto (h : s.phase i ≠ .finished) (hph : ph ≠ .finished) :
    (s.goto i ph).finished = s.finished := by
  unfold finished
  congr 1
  apply Finset.filter_congr
  intro j _
  by_cases hj : j = i
  · subst hj
    simp [h, hph]
  · rw [goto_of_ne hj]

theorem finished_goto_finished (hi : i < s.created) (h : s.phase i ≠ .finished) :
    (s.goto i .finished).finished = s.finished + 1 := by
  have hinsert :
      ((Finset.range s.created).filter fun j => (s.goto i .finished).phase j = .finished) =
      insert i ((Finset.range s.created).filter fun j => s.phase j = .finished) := by
    ext j
    by_cases hj : j = i
    · subst hj
      simp [hi]
    · simp [goto_of_ne hj, hj]
  have hnot : i ∉ (Finset.range s.created).filter fun j => s.phase j = .finished := by
    simp [h]
  show (Finset.filter _ (Finset.range s.created)).card = _
  rw [hinsert, Finset.card_insert_of_notMem hnot]
  rfl

theorem finished_le : s.finished ≤ s.created := by
  have h := Finset.card_filter_le (Finset.range s.created) fun i => s.phase i = .finished
  rwa [Finset.card_range] at h

/-- Everybody is finished when as many are as there are workers. -/
theorem all_finished (h : s.finished = s.created) (hi : i < s.created) : s.phase i = .finished := by
  have hcard : (Finset.range s.created).card ≤
      ((Finset.range s.created).filter fun i => s.phase i = .finished).card := by
    rw [Finset.card_range]
    exact h.ge
  have heq := Finset.eq_of_subset_of_card_le (Finset.filter_subset _ _) hcard
  have hmem := Finset.mem_range.mpr hi
  rw [← heq] at hmem
  exact (Finset.mem_filter.mp hmem).2

-- ============================================================================
-- What a step does
-- ============================================================================

section Steps

-- the equations of `step`, generated once for the lemmas of this section
attribute [local simp] step

theorem step_check (h : step s (.check i) = some s') :
    s.phase i = .checking ∧ ∃ c r,
      PausePoint.monitor.advance (.worker i) .pauseIfRequred s.tc.pausePoint = some (c, r) ∧
      s' = { s with tc := { s.tc with pausePoint := c } }.goto i
        (if r.isSome then .free else .checking) := by
  simp only [step] at h
  split at h
  · rename_i hphase
    simp only [Option.map_eq_some_iff] at h
    obtain ⟨⟨tc, r⟩, hadv, rfl⟩ := h
    obtain ⟨c, hc, rfl⟩ := advance_pause hadv
    exact ⟨hphase, c, r, hc, rfl⟩
  · cases h

theorem step_again (h : step s (.again i) = some s') :
    s.phase i = .free ∧ s' = s.goto i .checking := by
  simp only [step] at h
  split at h
  · rename_i hphase
    exact ⟨hphase, (Option.some.inj h).symm⟩
  · cases h

theorem step_done (h : step s (.done i) = some s') :
    s.phase i = .free ∧ ∃ c r,
      FanInPoint.monitor.advance (.worker i) .done s.tc.fanIn = some (c, r) ∧
      s' = { s with tc := { s.tc with fanIn := c } }.goto i .finished := by
  simp only [step] at h
  split at h
  · rename_i hphase
    simp only [Option.map_eq_some_iff] at h
    obtain ⟨⟨tc, r⟩, hadv, rfl⟩ := h
    obtain ⟨c, hc, rfl⟩ := advance_fanIn hadv
    exact ⟨hphase, c, r, hc, rfl⟩
  · cases h

theorem step_sync {t : Tid Unit} (h : step s (.sync t) = some s') :
    ∃ c, s' = { s with tc := { s.tc with syncPoint := c } } := by
  simp only [step, Option.map_eq_some_iff] at h
  obtain ⟨⟨tc, r⟩, hadv, rfl⟩ := h
  obtain ⟨c, -, rfl⟩ := advance_sync hadv
  exact ⟨c, rfl⟩

theorem step_begin {k : Ctl} (h : step s (.begin k) = some s') :
    s.ctl = .idle ∧ k.aheadFan = 0 ∧ k.aheadPause = 0 ∧ s' = { s with ctl := k } := by
  simp only [step] at h
  split at h
  all_goals first
    | cases h; done
    | rename_i hctl; exact ⟨hctl, rfl, rfl, (Option.some.inj h).symm⟩

theorem step_create (h : step s (.create ph) = some s') :
    ph ≠ .absent ∧ ph ≠ .finished ∧ ∃ f p, s.ctl = .adding f p ∧
      s' = { s with created := s.created + 1, ctl := .adding (f - 1) (p - 1) }.goto
        s.created ph := by
  simp only [step] at h
  split at h
  · rename_i f p hctl
    exact ⟨by simp, by simp, f, p, hctl, (Option.some.inj h).symm⟩
  · rename_i f p hctl
    exact ⟨by simp, by simp, f, p, hctl, (Option.some.inj h).symm⟩
  · cases h

theorem step_announce {b : Base} {num : Int} (h : step s (.announce b num) = some s') :
    ∃ f p r tc, s.ctl = .adding f p ∧ s.tc.advance controller (addThread num b) = some (tc, r) ∧
      s' = { s with tc := tc, ctl := lead f p num b } := by
  simp only [step] at h
  split at h
  · rename_i f p hctl
    simp only [Option.map_eq_some_iff] at h
    obtain ⟨⟨tc, r⟩, hadv, rfl⟩ := h
    exact ⟨f, p, r, tc, hctl, hadv, rfl⟩
  · cases h

theorem step_arm {b : Base} {expected : Int} (h : step s (.arm b expected) = some s') :
    s.created = 0 ∧ ∃ f p r tc, s.ctl = .adding f p ∧
      s.tc.advance controller (initializeExpected expected b) = some (tc, r) ∧
      s' = { s with tc := tc, ctl := rearm f p expected b } := by
  simp only [step] at h
  split at h
  · rename_i f p hctl hzero
    simp only [Option.map_eq_some_iff] at h
    obtain ⟨⟨tc, r⟩, hadv, rfl⟩ := h
    exact ⟨hzero, f, p, r, tc, hctl, hadv, rfl⟩
  · cases h

theorem step_announce_eq {b : Base} {num f p : Int} {tc : ThreadControl (Tid Unit)}
    {r : Option Unit} {k : Ctl} (hctl : s.ctl = .adding f p)
    (hadv : s.tc.advance controller (addThread num b) = some (tc, r)) (hk : k = lead f p num b) :
    step s (.announce b num) = some { s with tc := tc, ctl := k } := by
  simp only [step, hctl, hadv, Option.map_some, hk]

theorem step_arm_eq {b : Base} {expected f p : Int} {tc : ThreadControl (Tid Unit)}
    {r : Option Unit} (hctl : s.ctl = .adding f p) (hzero : s.created = 0)
    (hadv : s.tc.advance controller (initializeExpected expected b) = some (tc, r)) :
    step s (.arm b expected) = some { s with tc := tc, ctl := rearm f p expected b } := by
  simp only [step, hctl, hzero, hadv, Option.map_some]

theorem step_pause_eq {tc : ThreadControl (Tid Unit)} {r : Option Unit} {k : Ctl}
    (hctl : s.ctl = .pausing) (hadv : s.tc.advance controller (.pause .pause) = some (tc, r))
    (hk : k = if r.isSome then .idle else .pausing) :
    step s .pause = some { s with tc := tc, ctl := k } := by
  simp only [step, hctl, hadv, Option.map_some, hk]

theorem step_resume_eq {tc : ThreadControl (Tid Unit)} {r : Option Unit} {k : Ctl}
    (hctl : s.ctl = .resuming) (hadv : s.tc.advance controller (.pause .resume) = some (tc, r))
    (hk : k = if r.isSome then .idle else .resuming) :
    step s .resume = some { s with tc := tc, ctl := k } := by
  simp only [step, hctl, hadv, Option.map_some, hk]

theorem step_wait_eq {tc : ThreadControl (Tid Unit)} {r : Option Unit} {k k' : Ctl}
    (hctl : s.ctl = .waiting) (hadv : s.tc.advance controller (.fanIn .wait) = some (tc, r))
    (hto : k = .joining ∨ k = .idle) (hk : k' = if r.isSome then k else .waiting) :
    step s (.wait k) = some { s with tc := tc, ctl := k' } := by
  rcases hto with rfl | rfl <;> simp only [step, hctl, hadv, Option.map_some, hk]

theorem step_requestStop_eq (hctl : s.ctl = .stopping) :
    step s .requestStop = some { s with tc := s.tc.requestStop, ctl := .waiting } := by
  simp only [step, hctl]

theorem step_rest_eq {k : Ctl} (hctl : s.ctl = k)
    (hk : k = .adding 0 0 ∨ k = .stopping ∨ k = .joining) :
    step s .rest = some { s with ctl := .idle } := by
  rcases hk with rfl | rfl | rfl <;> simp only [step, hctl]

theorem step_begin_eq {k : Ctl} (hctl : s.ctl = .idle)
    (hk : k = .adding 0 0 ∨ k = .pausing ∨ k = .resuming ∨ k = .stopping ∨ k = .waiting ∨
      k = .joining) :
    step s (.begin k) = some { s with ctl := k } := by
  rcases hk with rfl | rfl | rfl | rfl | rfl | rfl <;> simp only [step, hctl]

theorem step_pause (h : step s .pause = some s') :
    s.ctl = .pausing ∧ ∃ c r,
      PausePoint.monitor.advance controller .pause s.tc.pausePoint = some (c, r) ∧
      s' = { s with
        tc := { s.tc with pausePoint := c }, ctl := if r.isSome then .idle else .pausing } := by
  simp only [step] at h
  split at h
  · rename_i hctl
    simp only [Option.map_eq_some_iff] at h
    obtain ⟨⟨tc, r⟩, hadv, rfl⟩ := h
    obtain ⟨c, hc, rfl⟩ := advance_pause hadv
    exact ⟨hctl, c, r, hc, rfl⟩
  · cases h

theorem step_resume (h : step s .resume = some s') :
    s.ctl = .resuming ∧ ∃ c r,
      PausePoint.monitor.advance controller .resume s.tc.pausePoint = some (c, r) ∧
      s' = { s with
        tc := { s.tc with pausePoint := c }, ctl := if r.isSome then .idle else .resuming } := by
  simp only [step] at h
  split at h
  · rename_i hctl
    simp only [Option.map_eq_some_iff] at h
    obtain ⟨⟨tc, r⟩, hadv, rfl⟩ := h
    obtain ⟨c, hc, rfl⟩ := advance_pause hadv
    exact ⟨hctl, c, r, hc, rfl⟩
  · cases h

theorem step_requestStop (h : step s .requestStop = some s') :
    s.ctl = .stopping ∧ s' = { s with tc := s.tc.requestStop, ctl := .waiting } := by
  simp only [step] at h
  split at h
  · rename_i hctl
    exact ⟨hctl, (Option.some.inj h).symm⟩
  · cases h

theorem step_wait {k : Ctl} (h : step s (.wait k) = some s') :
    s.ctl = .waiting ∧ (k = .joining ∨ k = .idle) ∧ ∃ c r,
      FanInPoint.monitor.advance controller .wait s.tc.fanIn = some (c, r) ∧
      s' = { s with tc := { s.tc with fanIn := c }, ctl := if r.isSome then k else .waiting } := by
  simp only [step] at h
  split at h
  · rename_i hctl
    simp only [Option.map_eq_some_iff] at h
    obtain ⟨⟨tc, r⟩, hadv, rfl⟩ := h
    obtain ⟨c, hc, rfl⟩ := advance_fanIn hadv
    exact ⟨hctl, .inl rfl, c, r, hc, rfl⟩
  · rename_i hctl
    simp only [Option.map_eq_some_iff] at h
    obtain ⟨⟨tc, r⟩, hadv, rfl⟩ := h
    obtain ⟨c, hc, rfl⟩ := advance_fanIn hadv
    exact ⟨hctl, .inr rfl, c, r, hc, rfl⟩
  · cases h

theorem step_spurious {b : Base} {t : Tid Unit} (h : step s (.spurious b t) = some s') :
    ∃ tc, s.tc.spurious b t = some tc ∧ s' = { s with tc := tc } := by
  simp only [step, Option.map_eq_some_iff] at h
  obtain ⟨tc, hsp, rfl⟩ := h
  exact ⟨tc, hsp, rfl⟩

theorem step_rest (h : step s .rest = some s') :
    s.ctl.aheadFan = 0 ∧ s.ctl.aheadPause = 0 ∧ s' = { s with ctl := .idle } := by
  simp only [step] at h
  split at h
  all_goals first
    | cases h; done
    | rename_i hctl; rw [hctl]; exact ⟨rfl, rfl, (Option.some.inj h).symm⟩

end Steps

-- ============================================================================
-- The invariant, step by step
-- ============================================================================

namespace Inv

/-- A step inside `PausePoint` by the thread `t`, whatever it does to the
    controller and the phases. -/
theorem pauseStep {t : Tid Unit} {op : PausePoint.Op} {r : Option Unit}
    {c : Config (Tid Unit) PausePoint PausePoint.Wait} (h : Inv s)
    (hadv : PausePoint.monitor.advance t op s.tc.pausePoint = some (c, r))
    (hroles : PausePoint.Roles Tid.IsWorker s.tc.pausePoint (.call t op))
    (hs' : s'.tc = { s.tc with pausePoint := c }) (hcreated : s'.created = s.created)
    (habsent : ∀ i, s'.phase i = .absent ↔ s.phase i = .absent)
    (hchecking : ∀ i, (c.thr (.worker i)).waiting ≠ none → s'.phase i = .checking)
    (hpausing : ∀ w, (c.thr controller).waiting = some w →
      (w = .allPaused ∧ s'.ctl = .pausing) ∨ (w = .nonePaused ∧ s'.ctl = .resuming))
    (hwaiting : s.ctl = .waiting → s'.ctl = .waiting)
    (hfan : s'.finished = s.finished ∧ s'.ctl.aheadFan = s.ctl.aheadFan)
    (hpause : c.data.mExpectedThreads = s.created + s'.ctl.aheadPause) : Inv s' := by
  refine ⟨?_, ?_, ?_, ?_, ?_, ?_, ?_, ?_⟩
  · rw [hs']
    exact h.handshake.advance one_controller hroles hadv
  · rw [hs']
    exact h.awaited
  · exact fun i => by rw [habsent, h.absent, hcreated]
  · intro i w hw
    rw [hs'] at hw
    exact hchecking i (by rw [hw]; simp)
  · rw [hs']
    exact hpausing
  · intro w hw
    rw [hs'] at hw
    exact hwaiting (h.waiting w hw)
  · rw [hs', hcreated, hfan.1, hfan.2]
    exact h.fanCount
  · rw [hs', hcreated]
    exact hpause

/-- The same for `FanInPoint`. -/
theorem fanStep {t : Tid Unit} {op : FanInPoint.Op} {r : Option Unit}
    {c : Config (Tid Unit) FanInPoint FanInPoint.Wait} (h : Inv s)
    (hadv : FanInPoint.monitor.advance t op s.tc.fanIn = some (c, r))
    (hroles : FanInPoint.Roles Tid.IsWorker (.call t op))
    (hs' : s'.tc = { s.tc with fanIn := c }) (hcreated : s'.created = s.created)
    (habsent : ∀ i, s'.phase i = .absent ↔ s.phase i = .absent)
    (hchecking : ∀ i, s.phase i = .checking → s'.phase i = .checking)
    (hpausing : ∀ w, (s.tc.pausePoint.thr controller).waiting = some w → s'.ctl = s.ctl)
    (hwaiting : (c.thr controller).waiting ≠ none → s'.ctl = .waiting)
    (hpause : s'.ctl.aheadPause = s.ctl.aheadPause)
    (hfan : c.data.mExpectedThreads = s.created - s'.finished + s'.ctl.aheadFan) : Inv s' := by
  refine ⟨?_, ?_, ?_, ?_, ?_, ?_, ?_, ?_⟩
  · rw [hs']
    exact h.handshake
  · rw [hs']
    exact h.awaited.advance one_controller hroles hadv
  · exact fun i => by rw [habsent, h.absent, hcreated]
  · intro i w hw
    rw [hs'] at hw
    exact hchecking i (h.checking i w hw)
  · intro w hw
    rw [hs'] at hw
    rw [hpausing w hw]
    exact h.pausing w hw
  · intro w hw
    rw [hs'] at hw
    exact hwaiting (by rw [hw]; simp)
  · rw [hs', hcreated]
    exact hfan
  · rw [hs', hcreated, hpause]
    exact h.pauseCount

/-- A step that touches neither of the two monitors. -/
theorem quietStep (h : Inv s) (hpp : s'.tc.pausePoint = s.tc.pausePoint)
    (hfi : s'.tc.fanIn = s.tc.fanIn) (habsent : ∀ i, s'.phase i = .absent ↔ s'.created ≤ i)
    (hchecking : ∀ i, s.phase i = .checking → s'.phase i = .checking)
    (hpausing : s.ctl = .pausing ∨ s.ctl = .resuming ∨ s.ctl = .waiting → s'.ctl = s.ctl)
    (hfan : (s'.created : Int) - s'.finished + s'.ctl.aheadFan =
      s.created - s.finished + s.ctl.aheadFan)
    (hpause : (s'.created : Int) + s'.ctl.aheadPause = s.created + s.ctl.aheadPause) : Inv s' := by
  refine ⟨?_, ?_, habsent, ?_, ?_, ?_, ?_, ?_⟩
  · rw [hpp]
    exact h.handshake
  · rw [hfi]
    exact h.awaited
  · intro i w hw
    rw [hpp] at hw
    exact hchecking i (h.checking i w hw)
  · intro w hw
    rw [hpp] at hw
    have hold := h.pausing w hw
    rw [hpausing (by tauto)]
    exact hold
  · intro w hw
    rw [hfi] at hw
    have hold := h.waiting w hw
    rw [hpausing (by tauto)]
    exact hold
  · rw [hfi, hfan]
    exact h.fanCount
  · rw [hpp, hpause]
    exact h.pauseCount

/-- Only a controller in `pause` or `resume` is inside `PausePoint`. -/
theorem pauseOut (h : Inv s) (hp : s.ctl ≠ .pausing) (hr : s.ctl ≠ .resuming) :
    s.tc.pausePoint.thr controller = .out := by
  rw [← Status.waiting_eq_none]
  cases hw : (s.tc.pausePoint.thr controller).waiting with
  | none => rfl
  | some w =>
      rcases h.pausing w hw with ⟨-, hctl⟩ | ⟨-, hctl⟩
      · exact absurd hctl hp
      · exact absurd hctl hr

/-- Only a waiting controller is inside `FanInPoint`. -/
theorem fanOut (h : Inv s) (hw : s.ctl ≠ .waiting) : s.tc.fanIn.thr controller = .out := by
  rw [← Status.waiting_eq_none]
  cases hwait : (s.tc.fanIn.thr controller).waiting with
  | none => rfl
  | some w => exact absurd (h.waiting w hwait) hw

/-- Workers never wait in `FanInPoint`. -/
theorem workerOut (h : Inv s) (i : Nat) : s.tc.fanIn.thr (.worker i) = .out := by
  rw [← Status.waiting_eq_none]
  cases hw : (s.tc.fanIn.thr (.worker i)).waiting with
  | none => rfl
  | some w => exact absurd trivial (h.awaited.parent _ w hw)

theorem check (h : Inv s) (hs : Crew.step s (.check i) = some s') : Inv s' := by
  obtain ⟨hphase, c, r, hadv, rfl⟩ := step_check hs
  obtain ⟨hframe, hself⟩ := PausePoint.monitor.advance_frame hadv
  have hnew : (if r.isSome = true then Phase.free else .checking) ≠ .finished := by
    split <;> simp
  -- the worker stays present, counted only while it is inside, and nobody else moves
  refine h.pauseStep hadv trivial rfl rfl ?_ ?_ ?_ id ⟨finished_goto ?_ hnew, rfl⟩ ?_
  · intro j
    by_cases hj : j = i
    · subst hj
      rw [goto_self]
      simp only [hphase, reduceCtorEq, iff_false]
      split <;> simp
    · rw [goto_of_ne hj]
  · intro j hw
    by_cases hj : j = i
    · subst hj
      rw [goto_self, if_neg]
      rw [← hself, ← Status.waiting_eq_none]
      exact hw
    · rw [goto_of_ne hj]
      rw [hframe _ (by simpa using hj)] at hw
      obtain ⟨w, hw'⟩ := Option.ne_none_iff_exists'.mp hw
      exact h.checking j w hw'
  · intro w hw
    rw [hframe _ (by simp)] at hw
    exact h.pausing w hw
  · simp [hphase]
  · rw [PausePoint.advance_expected hadv rfl]
    exact h.pauseCount

theorem again (h : Inv s) (hs : Crew.step s (.again i) = some s') : Inv s' := by
  obtain ⟨hphase, rfl⟩ := step_again hs
  have hfinished : (s.goto i .checking).finished = s.finished :=
    finished_goto (by simp [hphase]) (by simp)
  refine h.quietStep rfl rfl ?_ ?_ (fun _ => rfl) (by rw [hfinished]; rfl) rfl
  · intro j
    by_cases hj : j = i
    · subst hj
      have hlt := (h.absent j).not.mp (by simp [hphase])
      simpa [goto] using hlt
    · rw [goto_of_ne hj]
      exact h.absent j
  · intro j hch
    by_cases hj : j = i
    · rw [hj, goto_self]
    · rwa [goto_of_ne hj]

theorem done (h : Inv s) (hs : Crew.step s (.done i) = some s') : Inv s' := by
  obtain ⟨hphase, c, r, hadv, rfl⟩ := step_done hs
  obtain ⟨hframe, -⟩ := FanInPoint.monitor.advance_frame hadv
  have hlt : i < s.created := by
    have := (h.absent i).not.mp (by simp [hphase])
    omega
  have hcount := (FanInPoint.advance_expected hadv).1 (h.workerOut i)
  refine h.fanStep hadv trivial rfl rfl ?_ ?_ (fun _ _ => rfl) ?_ rfl ?_
  · intro j
    by_cases hj : j = i
    · subst hj
      simp [goto, hphase]
    · rw [goto_of_ne hj]
  · intro j hch
    by_cases hj : j = i
    · subst hj
      rw [hphase] at hch
      cases hch
    · rwa [goto_of_ne hj]
  · intro hw
    rw [hframe _ (by simp)] at hw
    obtain ⟨w, hw'⟩ := Option.ne_none_iff_exists'.mp hw
    exact h.waiting w hw'
  · -- the counter and the unfinished workers both go down by one
    have hfan := h.fanCount
    have hone := finished_goto_finished hlt (by simp [hphase])
    show _ = (s.created : Int) - (s.goto i .finished).finished + s.ctl.aheadFan
    rw [hcount, hone]
    simp only [FanInPoint.Op.expected]
    omega

theorem sync {t : Tid Unit} (h : Inv s) (hs : Crew.step s (.sync t) = some s') : Inv s' := by
  obtain ⟨c, rfl⟩ := step_sync hs
  exact h.quietStep rfl rfl h.absent (fun _ hch => hch) (fun _ => rfl) rfl rfl

theorem begin {k : Ctl} (h : Inv s) (hs : Crew.step s (.begin k) = some s') : Inv s' := by
  obtain ⟨hctl, hf, hp, rfl⟩ := step_begin hs
  refine h.quietStep rfl rfl h.absent (fun _ hch => hch) (fun hor => ?_) ?_ ?_
  · simp [hctl] at hor
  · show (s.created : Int) - s.finished + k.aheadFan = _
    rw [hf, hctl]
    rfl
  · show (s.created : Int) + k.aheadPause = _
    rw [hp, hctl]
    rfl

theorem create (h : Inv s) (hs : Crew.step s (.create ph) = some s') : Inv s' := by
  obtain ⟨hne, hnf, f, p, hctl, rfl⟩ := step_create hs
  have habs : s.phase s.created = .absent := (h.absent _).mpr (Nat.le_refl _)
  have hfinished : Finset.card ((Finset.range (s.created + 1)).filter fun j =>
      (s.goto s.created ph).phase j = .finished) = s.finished := by
    rw [Finset.range_add_one, Finset.filter_insert, if_neg (by rwa [goto_self])]
    exact finished_goto (by simp [habs]) hnf
  -- a worker more, and the lead of the counters one less
  refine h.quietStep rfl rfl ?_ ?_ (fun hor => ?_) ?_ ?_
  · intro j
    show (s.goto s.created ph).phase j = .absent ↔ s.created + 1 ≤ j
    by_cases hj : j = s.created
    · subst hj
      rw [goto_self]
      simp [hne]
    · rw [goto_of_ne hj, h.absent]
      omega
  · intro j hch
    show (s.goto s.created ph).phase j = .checking
    have hj : j ≠ s.created := by
      rintro rfl
      rw [habs] at hch
      cases hch
    rwa [goto_of_ne hj]
  · simp [hctl] at hor
  · show ((s.created + 1 : Nat) : Int) -
      (Finset.card ((Finset.range (s.created + 1)).filter fun j =>
        (s.goto s.created ph).phase j = .finished) : Nat) + (f - 1) = _
    rw [hfinished, hctl]
    show _ = (s.created : Int) - s.finished + f
    omega
  · show ((s.created + 1 : Nat) : Int) + (p - 1) = _
    rw [hctl]
    show _ = (s.created : Int) + p
    omega

/-- While the controller adds workers it is outside both monitors. -/
theorem adding_out (h : Inv s) {f p : Int} (hctl : s.ctl = .adding f p) :
    s.tc.pausePoint.thr controller = .out ∧ s.tc.fanIn.thr controller = .out :=
  ⟨h.pauseOut (by simp [hctl]) (by simp [hctl]), h.fanOut (by simp [hctl])⟩

theorem announce {b : Base} {num : Int} (h : Inv s)
    (hs : Crew.step s (.announce b num) = some s') : Inv s' := by
  obtain ⟨f, p, r, tc, hctl, hadv, rfl⟩ := step_announce hs
  obtain ⟨hpout, hfout⟩ := h.adding_out hctl
  have hfan := h.fanCount
  have hpause := h.pauseCount
  rw [hctl] at hfan hpause
  -- the lead of the counter at this base grows by what it is told
  cases b with
  | syncPoint =>
      obtain ⟨c, -, rfl⟩ := advance_sync hadv
      refine h.quietStep rfl rfl h.absent (fun _ hch => hch) (fun hor => ?_) ?_ ?_
      · simp [hctl] at hor
      · rw [hctl]
        rfl
      · rw [hctl]
        rfl
  | fanIn =>
      obtain ⟨c, hc, rfl⟩ := advance_fanIn hadv
      have hout := FanInPoint.advance_out hc hfout (by simp)
      refine h.fanStep hc id rfl rfl (fun _ => Iff.rfl) (fun _ hch => hch) ?_ ?_ ?_ ?_
      · intro w hw
        rw [hpout] at hw
        cases hw
      · simp [hout, Status.waiting]
      · rw [hctl]
        rfl
      · rw [(FanInPoint.advance_expected hc).1 hfout, hfan]
        show (s.created : Int) - s.finished + f + num = s.created - s.finished + (f + num)
        omega
  | pausePoint =>
      obtain ⟨c, hc, rfl⟩ := advance_pause hadv
      obtain ⟨hframe, -⟩ := PausePoint.monitor.advance_frame hc
      refine h.pauseStep hc id rfl rfl (fun _ => Iff.rfl) ?_ ?_ ?_ ⟨rfl, by rw [hctl]; rfl⟩ ?_
      · intro j hw
        rw [hframe _ (by simp)] at hw
        obtain ⟨w, hw'⟩ := Option.ne_none_iff_exists'.mp hw
        exact h.checking j w hw'
      · intro w hw
        have hnone := PausePoint.advance_wait hc (by simp [hpout, Status.waiting]) hw
        cases hnone
      · simp [hctl]
      · rw [((PausePoint.advance_effect hc).1 hpout).1, hpause]
        show (s.created : Int) + p + num = s.created + (p + num)
        omega

theorem arm {b : Base} {expected : Int} (h : Inv s)
    (hs : Crew.step s (.arm b expected) = some s') : Inv s' := by
  obtain ⟨hzero, f, p, r, tc, hctl, hadv, rfl⟩ := step_arm hs
  obtain ⟨hpout, hfout⟩ := h.adding_out hctl
  have hfinished : s.finished = 0 := by
    have := s.finished_le
    omega
  have hfan := h.fanCount
  have hpause := h.pauseCount
  rw [hctl] at hfan hpause
  -- there are no workers yet, so nobody is inside
  have hnobody : ∀ j w, (s.tc.pausePoint.thr (.worker j)).waiting ≠ some w := by
    intro j w hw
    have habs := (h.absent j).mpr (by omega)
    rw [h.checking j w hw] at habs
    cases habs
  cases b with
  | syncPoint =>
      obtain ⟨c, -, rfl⟩ := advance_sync hadv
      refine h.quietStep rfl rfl h.absent (fun _ hch => hch) (fun hor => ?_) ?_ ?_
      · simp [hctl] at hor
      · rw [hctl]
        rfl
      · rw [hctl]
        rfl
  | fanIn =>
      obtain ⟨c, hc, rfl⟩ := advance_fanIn hadv
      have hout := FanInPoint.advance_out hc hfout (by simp)
      refine h.fanStep hc id rfl rfl (fun _ => Iff.rfl) (fun _ hch => hch) ?_ ?_ ?_ ?_
      · intro w hw
        rw [hpout] at hw
        cases hw
      · simp [hout, Status.waiting]
      · rw [hctl]
        rfl
      · rw [(FanInPoint.advance_expected hc).1 hfout]
        show expected = (s.created : Int) - s.finished + expected
        omega
  | pausePoint =>
      obtain ⟨c, hc, rfl⟩ := advance_pause hadv
      obtain ⟨hframe, -⟩ := PausePoint.monitor.advance_frame hc
      have hempty : ∀ t, s.tc.pausePoint.thr t = .out := by
        intro t
        cases t with
        | client c => exact hpout
        | worker j =>
            rw [← Status.waiting_eq_none, Option.eq_none_iff_forall_ne_some]
            exact hnobody j
      refine h.pauseStep hc ⟨id, hempty⟩ rfl rfl (fun _ => Iff.rfl) ?_ ?_ ?_
        ⟨rfl, by rw [hctl]; rfl⟩ ?_
      · intro j hw
        rw [hframe _ (by simp), hempty] at hw
        exact absurd rfl hw
      · intro w hw
        have hnone := PausePoint.advance_wait hc (by simp [hpout, Status.waiting]) hw
        cases hnone
      · simp [hctl]
      · rw [((PausePoint.advance_effect hc).1 hpout).1]
        show expected = (s.created : Int) + expected
        omega

/-- The controller takes a step of `pause` or `resume`. -/
theorem controlStep {op : PausePoint.Op} {w : PausePoint.Wait} {k : Ctl} {r : Option Unit}
    {c : Config (Tid Unit) PausePoint PausePoint.Wait} (h : Inv s)
    (hadv : PausePoint.monitor.advance controller op s.tc.pausePoint = some (c, r))
    (hroles : PausePoint.Roles Tid.IsWorker s.tc.pausePoint (.call controller op))
    (hop : op.wait = some w) (hctl : s.ctl = k)
    (hkind : (w = .allPaused ∧ k = .pausing) ∨ (w = .nonePaused ∧ k = .resuming)) :
    Inv { s with tc := { s.tc with pausePoint := c }, ctl := if r.isSome then .idle else k } := by
  obtain ⟨hframe, hself⟩ := PausePoint.monitor.advance_frame hadv
  have hlead : k.aheadFan = 0 ∧ k.aheadPause = 0 := by
    rcases hkind with ⟨-, rfl⟩ | ⟨-, rfl⟩ <;> exact ⟨rfl, rfl⟩
  have hnew : ∀ b : Bool, (if b then Ctl.idle else k).aheadFan = 0 ∧
      (if b then Ctl.idle else k).aheadPause = 0 := by
    intro b
    cases b
    · exact hlead
    · exact ⟨rfl, rfl⟩
  -- the controller can only be in the wait of its own call
  have hat : ∀ w', (s.tc.pausePoint.thr controller).waiting = some w' → op.wait = some w' := by
    intro w' hw'
    rw [hop]
    rcases h.pausing w' hw' with ⟨rfl, hk⟩ | ⟨rfl, hk⟩ <;>
      rcases hkind with ⟨rfl, hk'⟩ | ⟨rfl, hk'⟩ <;> simp_all
  refine h.pauseStep hadv hroles rfl rfl (fun _ => Iff.rfl) ?_ ?_ ?_
    ⟨rfl, by rw [hctl, hlead.1]; exact (hnew _).1⟩ ?_
  · intro j hw
    rw [hframe _ (by simp)] at hw
    obtain ⟨w', hw'⟩ := Option.ne_none_iff_exists'.mp hw
    exact h.checking j w' hw'
  · intro w' hw'
    have hsame : op.wait = some w' := PausePoint.advance_wait hadv hat hw'
    rw [hop] at hsame
    cases hsame
    -- still inside, so the call has not returned
    have hnone : ¬ r.isSome = true := by
      rw [← hself, ← Status.waiting_eq_none, hw']
      simp
    rw [if_neg hnone]
    exact hkind
  · rw [hctl]
    rcases hkind with ⟨-, rfl⟩ | ⟨-, rfl⟩ <;> simp
  · rw [PausePoint.advance_expected hadv (by rw [hop]; rfl), h.pauseCount, hctl, hlead.2,
      (hnew _).2]

theorem pause (h : Inv s) (hs : Crew.step s .pause = some s') : Inv s' := by
  obtain ⟨hctl, c, r, hadv, rfl⟩ := step_pause hs
  exact h.controlStep hadv id rfl hctl (.inl ⟨rfl, rfl⟩)

theorem resume (h : Inv s) (hs : Crew.step s .resume = some s') : Inv s' := by
  obtain ⟨hctl, c, r, hadv, rfl⟩ := step_resume hs
  exact h.controlStep hadv id rfl hctl (.inr ⟨rfl, rfl⟩)

theorem requestStop (h : Inv s) (hs : Crew.step s .requestStop = some s') : Inv s' := by
  obtain ⟨hctl, rfl⟩ := step_requestStop hs
  refine h.quietStep rfl rfl h.absent (fun _ hch => hch) (fun hor => ?_) ?_ ?_
  · simp [hctl] at hor
  · rw [hctl]
    rfl
  · rw [hctl]
    rfl

theorem wait {k : Ctl} (h : Inv s) (hs : Crew.step s (.wait k) = some s') : Inv s' := by
  obtain ⟨hctl, hk, c, r, hadv, rfl⟩ := step_wait hs
  obtain ⟨hframe, hself⟩ := FanInPoint.monitor.advance_frame hadv
  have hlead : ∀ b : Bool, (if b then k else Ctl.waiting).aheadFan = 0 ∧
      (if b then k else Ctl.waiting).aheadPause = 0 := by
    intro b
    rcases hk with rfl | rfl <;> cases b <;> exact ⟨rfl, rfl⟩
  -- a wait only reads the counter
  have hcount : c.data.mExpectedThreads = s.tc.fanIn.data.mExpectedThreads := by
    by_cases hout : s.tc.fanIn.thr controller = .out
    · exact (FanInPoint.advance_expected hadv).1 hout
    · exact (FanInPoint.advance_expected hadv).2 hout
  refine h.fanStep hadv id rfl rfl (fun _ => Iff.rfl) (fun _ hch => hch) ?_ ?_ ?_ ?_
  · intro w hw
    rcases h.pausing w hw with ⟨-, hk'⟩ | ⟨-, hk'⟩ <;> simp [hctl] at hk'
  · intro hw
    have hnone : ¬ r.isSome = true := by
      rw [← hself, ← Status.waiting_eq_none]
      exact hw
    exact if_neg hnone
  · rw [hctl]
    exact (hlead _).2
  · rw [hcount, h.fanCount, hctl, (hlead _).1]
    rfl

theorem rest (h : Inv s) (hs : Crew.step s .rest = some s') : Inv s' := by
  -- a call ends by `rest` only where it does not wait
  have hquiet : s.ctl ≠ .pausing ∧ s.ctl ≠ .resuming ∧ s.ctl ≠ .waiting := by
    refine ⟨?_, ?_, ?_⟩ <;>
    · intro hctl
      simp [Crew.step, hctl] at hs
  obtain ⟨hf, hp, rfl⟩ := step_rest hs
  refine h.quietStep rfl rfl h.absent (fun _ hch => hch) (fun hor => ?_) ?_ ?_
  · tauto
  · rw [hf]
    rfl
  · rw [hp]
    rfl

theorem spurious {b : Base} {t : Tid Unit} (h : Inv s)
    (hs : Crew.step s (.spurious b t) = some s') : Inv s' := by
  obtain ⟨tc, hsp, rfl⟩ := step_spurious hs
  -- a wake-up changes no counter, and the re-check is still to come
  cases b with
  | syncPoint =>
      simp only [ThreadControl.spurious, Option.map_eq_some_iff] at hsp
      obtain ⟨c, -, rfl⟩ := hsp
      exact h.quietStep rfl rfl h.absent (fun _ hch => hch) (fun _ => rfl) rfl rfl
  | fanIn =>
      simp only [ThreadControl.spurious, Option.map_eq_some_iff] at hsp
      obtain ⟨c, hc, rfl⟩ := hsp
      obtain ⟨hdata, hwaiting⟩ := spurious_frame hc
      have hev : FanInPoint.monitor.stepRet s.tc.fanIn (.spurious t) = some (c, none) := by
        simp [stepRet, hc]
      refine ⟨h.handshake, h.awaited.step (e := .spurious t) one_controller trivial hev, h.absent,
        h.checking, h.pausing, ?_, ?_, h.pauseCount⟩
      · exact fun w hw => h.waiting w (by rwa [← hwaiting])
      · show c.data.mExpectedThreads = _
        rw [hdata]
        exact h.fanCount
  | pausePoint =>
      simp only [ThreadControl.spurious, Option.map_eq_some_iff] at hsp
      obtain ⟨c, hc, rfl⟩ := hsp
      obtain ⟨hdata, hwaiting⟩ := spurious_frame hc
      refine ⟨h.handshake.spurious hc, h.awaited, h.absent, ?_, ?_, h.waiting, h.fanCount, ?_⟩
      · exact fun i w hw => h.checking i w (by rwa [← hwaiting])
      · exact fun w hw => h.pausing w (by rwa [← hwaiting])
      · show c.data.mExpectedThreads = _
        rw [hdata]
        exact h.pauseCount

/-- Every step of a crew keeps the invariant. -/
theorem step {e : Ev} (h : Inv s) (hs : Crew.step s e = some s') : Inv s' := by
  cases e with
  | check i => exact h.check hs
  | again i => exact h.again hs
  | done i => exact h.done hs
  | sync t => exact h.sync hs
  | begin k => exact h.begin hs
  | create ph => exact h.create hs
  | arm b expected => exact h.arm hs
  | announce b num => exact h.announce hs
  | pause => exact h.pause hs
  | resume => exact h.resume hs
  | requestStop => exact h.requestStop hs
  | wait k => exact h.wait hs
  | rest => exact h.rest hs
  | spurious b t => exact h.spurious hs

end Inv

theorem inv_of_reachable {ok : Crew → Ev → Prop} (h : system.ReachableBy ok s) : Inv s :=
  h.invariant (fun _ => inv_of_init) fun _ _ _ _ hinv _ hs => hinv.step hs

end Crew
end Fredlib
