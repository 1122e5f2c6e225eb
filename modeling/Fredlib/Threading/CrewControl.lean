/-
  Fredlib.Threading.CrewControl

  What the controller of a crew can rely on.

  When `pause` returns every worker is in the paused section, and none leaves
  it before `resume` is called; when `FanInPoint::wait` returns every worker has
  called `done`.  Neither call is sure to return: `StopDeadlock` and
  `PauseDeadlock` are the states in which it never will, and the conditions
  under which a run stays out of them are `StopsResumed` and `PausesLive`.
-/

import Fredlib.Threading.Crew

namespace Fredlib

open Lib Lib.Monitor ThreadControl

namespace Crew

variable {s s' : Crew} {i : Nat} {ph : Phase}

/-- The pause flag. -/
abbrev mPause (s : Crew) : Bool := s.tc.pausePoint.data.mPause

/-- No step but those of `pause` and `resume` changes the pause flag. -/
theorem flag_step {e : Ev} (hs : Crew.step s e = some s') (hp : e ≠ .pause)
    (hr : e ≠ .resume) : s'.mPause = s.mPause := by
  cases e with
  -- the steps inside `PausePoint`
  | check i =>
      obtain ⟨-, c, r, hadv, rfl⟩ := step_check hs
      exact PausePoint.advance_mPause hadv (by simp) (by simp)
  | arm b expected =>
      obtain ⟨-, f, p, r, tc, -, hadv, rfl⟩ := step_arm hs
      exact advance_mPause hadv (by cases b <;> simp [initializeExpected])
        (by cases b <;> simp [initializeExpected])
  | announce b num =>
      obtain ⟨f, p, r, tc, -, hadv, rfl⟩ := step_announce hs
      exact advance_mPause hadv (by cases b <;> simp [addThread]) (by cases b <;> simp [addThread])
  | spurious b t =>
      obtain ⟨tc, hsp, rfl⟩ := step_spurious hs
      exact spurious_mPause hsp
  | pause => exact absurd rfl hp
  | resume => exact absurd rfl hr
  -- the others do not touch it
  | again i =>
      obtain ⟨-, rfl⟩ := step_again hs
      rfl
  | done i =>
      obtain ⟨-, c, r, -, rfl⟩ := step_done hs
      rfl
  | sync t =>
      obtain ⟨c, rfl⟩ := step_sync hs
      rfl
  | begin k =>
      obtain ⟨-, -, -, rfl⟩ := step_begin hs
      rfl
  | create ph =>
      obtain ⟨-, -, f, p, -, rfl⟩ := step_create hs
      rfl
  | requestStop =>
      obtain ⟨-, rfl⟩ := step_requestStop hs
      rfl
  | wait k =>
      obtain ⟨-, -, c, r, -, rfl⟩ := step_wait hs
      rfl
  | rest =>
      obtain ⟨-, -, rfl⟩ := step_rest hs
      rfl

-- ============================================================================
-- Between the return of pause and the next resume
-- ============================================================================

/-- A pause is in force: the flag is set, every worker is in `pauseIfRequred`,
    and the controller is not resuming. -/
structure Quiet (s : Crew) : Prop where
  flag : s.mPause = true
  checking : ∀ i, i < s.created → s.phase i = .checking
  notResuming : s.ctl ≠ .resuming

/-- The workers, as threads. -/
def workers (n : Nat) : Finset (Tid Unit) := (Finset.range n).image Tid.worker

theorem card_workers (n : Nat) : (workers n).card = n := by
  rw [workers, Finset.card_image_of_injective _ fun _ _ h => Tid.worker.inj h, Finset.card_range]

/-- Only created workers are counted in the paused section. -/
theorem Inv.mem_workers (h : Inv s) {t : Tid Unit}
    (ht : (s.tc.pausePoint.thr t).waiting = some .resumed) : t ∈ workers s.created := by
  cases t with
  | client c => exact absurd ((h.handshake.roles _ _ ht).mp rfl) id
  | worker j =>
      have hphase := h.checking j _ ht
      have hlt := (h.absent j).not.mp (by simp [hphase])
      simpa [workers] using hlt

/-- When `pause` returns, the pause is in force. -/
theorem Inv.quiet_of_pause (h : Inv s) (hs : Crew.step s .pause = some s') (hret : s'.ctl = .idle) :
    Quiet s' := by
  have h' := h.pause hs
  obtain ⟨hctl, c, r, hadv, rfl⟩ := step_pause hs
  have hsome : r = some () := by
    cases r with
    | none => simp at hret
    | some u => rfl
  subst hsome
  have hat : ∀ w, (s.tc.pausePoint.thr controller).waiting = some w → w = .allPaused := by
    intro w hw
    rcases h.pausing w hw with ⟨hw', -⟩ | ⟨-, hk⟩
    · exact hw'
    · rw [hctl] at hk
      cases hk
  obtain ⟨hflag, hmet⟩ := h.handshake.pause_returns hat hadv
  -- as many are paused as there are workers
  have hcount : HasCount .resumed ((workers s.created).card : Int) c := by
    have hpaused := h'.handshake.paused
    have hexp := h'.pauseCount
    simp only at hpaused hexp
    rw [hmet, hexp] at hpaused
    rw [card_workers]
    simpa [Ctl.aheadPause] using hpaused
  refine ⟨hflag, fun j hj => ?_, by simp⟩
  refine h'.checking j .resumed (hcount.all_of_card (fun t ht => h'.mem_workers ht) ?_)
  simpa [workers] using hj

/-- The pause stays in force until `resume` is called, if new workers start by
    checking in. -/
theorem Quiet.step {e : Ev} (hq : Quiet s) (h : Inv s) (hs : Crew.step s e = some s')
    (hres : e ≠ .begin .resuming) (hnew : e ≠ .create .free) : Quiet s' := by
  -- no worker is free, so none can call `pauseIfRequred` anew or `done`
  have hfree : ∀ i, s.phase i ≠ .free := by
    intro i hphase
    have hlt := (h.absent i).not.mp (by simp [hphase])
    rw [hq.checking i (by omega)] at hphase
    cases hphase
  cases e with
  | check i =>
      have hflag := flag_step hs (by simp) (by simp)
      obtain ⟨hphase, c, r, hadv, rfl⟩ := step_check hs
      -- with the flag set the check goes to sleep
      have hnone :=
        h.handshake.check_paused (show Tid.IsWorker (.worker i) from trivial) hq.flag hadv
      subst hnone
      refine ⟨hflag.trans hq.flag, fun j hj => ?_, hq.notResuming⟩
      by_cases hji : j = i
      · rw [hji, goto_self]
        rfl
      · rw [goto_of_ne hji]
        exact hq.checking j hj
  | again i => exact absurd (step_again hs).1 (hfree i)
  | done i => exact absurd (step_done hs).1 (hfree i)
  | create ph =>
      obtain ⟨habs, hfin, f, p, -, rfl⟩ := step_create hs
      have hph : ph = .checking := by
        cases ph <;> simp_all
      subst hph
      refine ⟨hq.flag, fun j hj => ?_, by simp [goto]⟩
      show (s.goto s.created .checking).phase j = _
      by_cases hji : j = s.created
      · rw [hji, goto_self]
      · rw [goto_of_ne hji]
        have hlt : j < s.created + 1 := hj
        exact hq.checking j (by omega)
  | pause =>
      obtain ⟨hctl, c, r, hadv, rfl⟩ := step_pause hs
      refine ⟨?_, hq.checking, by cases r <;> simp⟩
      exact PausePoint.advance_flag hadv (by simp) hq.flag
  | resume => exact absurd (step_resume hs).1 hq.notResuming
  | begin k =>
      obtain ⟨-, -, -, rfl⟩ := step_begin hs
      exact ⟨hq.flag, hq.checking, fun hk => hres (by rw [show k = .resuming from hk])⟩
  | wait k =>
      obtain ⟨-, hk, c, r, -, rfl⟩ := step_wait hs
      refine ⟨hq.flag, hq.checking, ?_⟩
      rcases hk with rfl | rfl <;> cases r <;> simp
  | arm b expected =>
      have hflag := flag_step hs (by simp) (by simp)
      obtain ⟨-, f, p, r, tc, -, -, rfl⟩ := step_arm hs
      exact ⟨hflag.trans hq.flag, hq.checking, by cases b <;> simp [rearm]⟩
  | announce b num =>
      have hflag := flag_step hs (by simp) (by simp)
      obtain ⟨f, p, r, tc, -, -, rfl⟩ := step_announce hs
      exact ⟨hflag.trans hq.flag, hq.checking, by cases b <;> simp [lead]⟩
  | sync t =>
      obtain ⟨c, rfl⟩ := step_sync hs
      exact ⟨hq.flag, hq.checking, hq.notResuming⟩
  | requestStop =>
      obtain ⟨-, rfl⟩ := step_requestStop hs
      exact ⟨hq.flag, hq.checking, by simp⟩
  | rest =>
      obtain ⟨-, -, rfl⟩ := step_rest hs
      exact ⟨hq.flag, hq.checking, by simp⟩
  | spurious b t =>
      have hflag := flag_step hs (by simp) (by simp)
      obtain ⟨tc, -, rfl⟩ := step_spurious hs
      exact ⟨hflag.trans hq.flag, hq.checking, hq.notResuming⟩

/-- `resume` is not called, and new workers start by checking in. -/
def KeepsPause (_ : Crew) (e : Ev) : Prop := e ≠ .begin .resuming ∧ e ≠ .create .free

/-- Along a run in which `resume` is not called the pause stays in force. -/
theorem Quiet.run {evs : List Ev} (hq : Quiet s) (h : Inv s)
    (hrun : system.Run KeepsPause s evs s') : Quiet s' := by
  refine (hrun.invariant (P := fun s => Inv s ∧ Quiet s) ⟨h, hq⟩ ?_).2
  rintro s e s' ⟨hinv, hquiet⟩ ⟨hres, hnew⟩ hs
  exact ⟨hinv.step hs, hquiet.step hinv hs hres hnew⟩

-- ============================================================================
-- Once FanInPoint::wait has returned
-- ============================================================================

/-- When `wait` returns, every worker has called `done`. -/
theorem Inv.finished_of_wait {k : Ctl} (h : Inv s) (hs : Crew.step s (.wait k) = some s')
    (hret : s'.ctl ≠ .waiting) : ∀ i, i < s'.created → s'.phase i = .finished := by
  have h' := h.wait hs
  obtain ⟨hctl, hk, c, r, hadv, rfl⟩ := step_wait hs
  have hsome : r = some () := by
    cases r with
    | none => simp at hret
    | some u => rfl
  subst hsome
  -- a counter of zero: as many are finished as were created
  have hzero := FanInPoint.wait_returns hadv
  have hfan := h'.fanCount
  have hlead : k.aheadFan = 0 := by
    rcases hk with rfl | rfl <;> rfl
  simp only [Option.isSome_some, if_true] at hfan
  rw [hzero, hlead] at hfan
  intro i hi
  refine all_finished ?_ hi
  show s.finished = s.created
  change 0 = (s.created : Int) - s.finished + 0 at hfan
  omega

-- ============================================================================
-- Deadlocks
-- ============================================================================

/-- The controller sleeps in `FanInPoint::wait` while every worker that has not
    called `done` sleeps in `pauseIfRequred`, with the pause flag set. -/
def StopDeadlock (s : Crew) : Prop :=
  s.tc.fanIn.thr controller = .asleep .fannedIn ∧
    ∀ i, i < s.created → s.phase i ≠ .finished →
      s.tc.pausePoint.thr (.worker i) = .asleep .resumed ∧ s.mPause = true

/-- The controller sleeps in `pause`, un-notified, while every worker has called
    `done` or sleeps in `pauseIfRequred`. -/
def PauseDeadlock (s : Crew) : Prop :=
  s.tc.pausePoint.thr controller = .asleep .allPaused ∧
    ∀ i, i < s.created → s.phase i = .finished ∨ s.tc.pausePoint.thr (.worker i) = .asleep .resumed

/-- The controller only waits for the workers to finish while no pause is
    requested. -/
def StopsResumed (s : Crew) : Ev → Prop
  | .begin .stopping | .begin .waiting => s.mPause = false
  | _ => True

/-- No worker calls `done` before or while the controller is in `pause`. -/
def PausesLive (s : Crew) : Ev → Prop
  | .begin .pausing => ∀ i, i < s.created → s.phase i ≠ .finished
  | .done _ => s.ctl ≠ .pausing
  | _ => True

theorem Inv.not_stopDeadlock (h : Inv s) (hflag : s.ctl = .waiting → s.mPause = false) :
    ¬ StopDeadlock s := by
  rintro ⟨hasleep, hall⟩
  have hctl := h.waiting .fannedIn (by rw [hasleep]; rfl)
  -- without the flag nobody sleeps in `pauseIfRequred`, so all are finished
  have hfin : ∀ i, i < s.created → s.phase i = .finished := by
    intro i hi
    by_contra hne
    have hset := (hall i hi hne).2
    rw [hflag hctl] at hset
    cases hset
  have hcard : s.finished = s.created := by
    unfold finished
    rw [Finset.filter_true_of_mem fun i hi => hfin i (Finset.mem_range.mp hi), Finset.card_range]
  -- the counter is zero, so nobody sleeps on it
  have hzero : s.tc.fanIn.data.mExpectedThreads = 0 := by
    rw [h.fanCount, hcard, hctl]
    simp [Ctl.aheadFan]
  have hpred := h.awaited.alert controller .fannedIn hasleep
  simp [hzero] at hpred

theorem Inv.not_pauseDeadlock (h : Inv s)
    (hlive : s.ctl = .pausing → ∀ i, i < s.created → s.phase i ≠ .finished) :
    ¬ PauseDeadlock s := by
  rintro ⟨hasleep, hall⟩
  have hctl : s.ctl = .pausing := by
    rcases h.pausing .allPaused (by rw [hasleep]; rfl) with ⟨-, hctl⟩ | ⟨hne, -⟩
    · exact hctl
    · cases hne
  -- all workers are alive, so all of them are paused, and the predicate holds
  have hin : ∀ t, t ∈ workers s.created → (s.tc.pausePoint.thr t).waiting = some .resumed := by
    intro t ht
    obtain ⟨i, hi, rfl⟩ := Finset.mem_image.mp ht
    have hi' := Finset.mem_range.mp hi
    rw [(hall i hi').resolve_left (hlive hctl i hi')]
    rfl
  obtain ⟨S, hS, hcard⟩ := h.handshake.paused
  have hworkers : S = workers s.created := by
    ext t
    rw [hS]
    exact ⟨fun ht => h.mem_workers ht, hin t⟩
  have hmet : s.tc.pausePoint.data.mPausedThreads = s.tc.pausePoint.data.mExpectedThreads := by
    rw [← hcard, hworkers, card_workers, h.pauseCount, hctl]
    simp [Ctl.aheadPause]
  have hpred := h.handshake.alert controller .allPaused hasleep
  simp [hmet] at hpred

/-- How the controller gets from one call to the next: into a call by `begin`,
    and from `stop` into its wait. -/
theorem ctl_step {e : Ev} (hs : Crew.step s e = some s') :
    s'.ctl = s.ctl ∨ e = .begin s'.ctl ∨ s'.ctl = .idle ∨ s'.ctl = .joining ∨
      (∃ f p, s'.ctl = .adding f p) ∨ (s.ctl = .stopping ∧ s'.ctl = .waiting) := by
  -- the workers' own steps leave the controller where it is
  cases e with
  | check i =>
      obtain ⟨-, c, r, -, rfl⟩ := step_check hs
      exact .inl rfl
  | again i =>
      obtain ⟨-, rfl⟩ := step_again hs
      exact .inl rfl
  | done i =>
      obtain ⟨-, c, r, -, rfl⟩ := step_done hs
      exact .inl rfl
  | sync t =>
      obtain ⟨c, rfl⟩ := step_sync hs
      exact .inl rfl
  | spurious b t =>
      obtain ⟨tc, -, rfl⟩ := step_spurious hs
      exact .inl rfl
  | begin k =>
      obtain ⟨-, -, -, rfl⟩ := step_begin hs
      exact .inr (.inl rfl)
  | create ph =>
      obtain ⟨-, -, f, p, -, rfl⟩ := step_create hs
      exact .inr (.inr (.inr (.inr (.inl ⟨_, _, rfl⟩))))
  | arm b expected =>
      obtain ⟨-, f, p, r, tc, -, -, rfl⟩ := step_arm hs
      refine .inr (.inr (.inr (.inr (.inl ?_))))
      cases b <;> exact ⟨_, _, rfl⟩
  | announce b num =>
      obtain ⟨f, p, r, tc, -, -, rfl⟩ := step_announce hs
      refine .inr (.inr (.inr (.inr (.inl ?_))))
      cases b <;> exact ⟨_, _, rfl⟩
  | pause =>
      obtain ⟨hctl, c, r, -, rfl⟩ := step_pause hs
      cases r
      · exact .inl hctl.symm
      · exact .inr (.inr (.inl rfl))
  | resume =>
      obtain ⟨hctl, c, r, -, rfl⟩ := step_resume hs
      cases r
      · exact .inl hctl.symm
      · exact .inr (.inr (.inl rfl))
  | requestStop =>
      obtain ⟨hctl, rfl⟩ := step_requestStop hs
      exact .inr (.inr (.inr (.inr (.inr ⟨hctl, rfl⟩))))
  | wait k =>
      obtain ⟨hctl, hk, c, r, -, rfl⟩ := step_wait hs
      cases r
      · exact .inl hctl.symm
      · rcases hk with rfl | rfl
        · exact .inr (.inr (.inr (.inl rfl)))
        · exact .inr (.inr (.inl rfl))
  | rest =>
      obtain ⟨-, -, rfl⟩ := step_rest hs
      exact .inr (.inr (.inl rfl))

/-- Workers finish by calling `done`, and are created while the controller adds
    workers. -/
theorem phase_step {e : Ev} (hs : Crew.step s e = some s') :
    (∀ i, s'.phase i = .finished → s.phase i = .finished ∨ e = .done i) ∧
      (s'.created = s.created ∨ ∃ f p, s'.ctl = .adding f p) := by
  have hgoto : ∀ (i : Nat) (tc : ThreadControl (Tid Unit)) (ph : Phase), ph ≠ .finished →
      ∀ j, ({ s with tc := tc }.goto i ph).phase j = .finished → s.phase j = .finished := by
    intro i tc ph hph j hj
    by_cases hji : j = i
    · subst hji
      rw [goto_self] at hj
      exact absurd hj hph
    · rwa [goto_of_ne hji] at hj
  -- only `done` leads to `.finished`, and only `create` adds a worker
  cases e with
  | check i =>
      obtain ⟨-, c, r, -, rfl⟩ := step_check hs
      exact ⟨fun j hj => .inl (hgoto i _ _ (by split <;> simp) j hj), .inl rfl⟩
  | again i =>
      obtain ⟨-, rfl⟩ := step_again hs
      exact ⟨fun j hj => .inl (hgoto i s.tc _ (by simp) j hj), .inl rfl⟩
  | done i =>
      obtain ⟨-, c, r, -, rfl⟩ := step_done hs
      refine ⟨fun j hj => ?_, .inl rfl⟩
      by_cases hji : j = i
      · exact .inr (by rw [hji])
      · rw [goto_of_ne hji] at hj
        exact .inl hj
  | create ph =>
      obtain ⟨-, hfin, f, p, -, rfl⟩ := step_create hs
      exact ⟨fun j hj => .inl (hgoto s.created s.tc ph hfin j hj), .inr ⟨_, _, rfl⟩⟩
  | sync t =>
      obtain ⟨c, rfl⟩ := step_sync hs
      exact ⟨fun j hj => .inl hj, .inl rfl⟩
  | begin k =>
      obtain ⟨-, -, -, rfl⟩ := step_begin hs
      exact ⟨fun j hj => .inl hj, .inl rfl⟩
  | arm b expected =>
      obtain ⟨-, f, p, r, tc, -, -, rfl⟩ := step_arm hs
      exact ⟨fun j hj => .inl hj, .inl rfl⟩
  | announce b num =>
      obtain ⟨f, p, r, tc, -, -, rfl⟩ := step_announce hs
      exact ⟨fun j hj => .inl hj, .inl rfl⟩
  | pause =>
      obtain ⟨-, c, r, -, rfl⟩ := step_pause hs
      exact ⟨fun j hj => .inl hj, .inl rfl⟩
  | resume =>
      obtain ⟨-, c, r, -, rfl⟩ := step_resume hs
      exact ⟨fun j hj => .inl hj, .inl rfl⟩
  | requestStop =>
      obtain ⟨-, rfl⟩ := step_requestStop hs
      exact ⟨fun j hj => .inl hj, .inl rfl⟩
  | wait k =>
      obtain ⟨-, -, c, r, -, rfl⟩ := step_wait hs
      exact ⟨fun j hj => .inl hj, .inl rfl⟩
  | rest =>
      obtain ⟨-, -, rfl⟩ := step_rest hs
      exact ⟨fun j hj => .inl hj, .inl rfl⟩
  | spurious b t =>
      obtain ⟨tc, -, rfl⟩ := step_spurious hs
      exact ⟨fun j hj => .inl hj, .inl rfl⟩

/-- To stop the crew, and to wait for it, leaves the request to pause as it is. -/
theorem flag_of_stopping {e : Ev} (hs : Crew.step s e = some s')
    (hctl : s'.ctl = .stopping ∨ s'.ctl = .waiting) : s'.mPause = s.mPause := by
  refine flag_step hs ?_ ?_
  · rintro rfl
    obtain ⟨-, c, r, -, rfl⟩ := step_pause hs
    cases r <;> simp at hctl
  · rintro rfl
    obtain ⟨-, c, r, -, rfl⟩ := step_resume hs
    cases r <;> simp at hctl

/-- While the controller stops the crew no pause is requested. -/
theorem resumed_of_reachable (h : system.ReachableBy StopsResumed s) :
    s.ctl = .stopping ∨ s.ctl = .waiting → s.mPause = false := by
  refine h.invariant (P := fun s => s.ctl = .stopping ∨ s.ctl = .waiting → s.mPause = false) ?_ ?_
  · rintro s ⟨-, -, -, hctl⟩ hor
    simp [hctl] at hor
  · intro s e s' _ hinv hok hs hor
    rw [flag_of_stopping hs hor]
    rcases ctl_step hs with hctl | rfl | hctl | hctl | ⟨f, p, hctl⟩ | ⟨hctl, -⟩
    · rw [hctl] at hor
      exact hinv hor
    · -- the call begins here, with no pause on
      rcases hor with hk | hk <;> rw [hk] at hok <;> exact hok
    · simp [hctl] at hor
    · simp [hctl] at hor
    · simp [hctl] at hor
    · exact hinv (.inl hctl)

/-- While the controller is in `pause` every worker is still alive. -/
theorem live_of_reachable (h : system.ReachableBy PausesLive s) :
    s.ctl = .pausing → ∀ i, i < s.created → s.phase i ≠ .finished := by
  refine h.invariant
    (P := fun s => s.ctl = .pausing → ∀ i, i < s.created → s.phase i ≠ .finished) ?_ ?_
  · rintro s ⟨-, -, -, hctl⟩ hk
    simp [hctl] at hk
  · intro s e s' hreach hinv hok hs hk i hi hfin
    obtain ⟨hphase, hcreated⟩ := phase_step hs
    have hsame : s'.created = s.created := by
      rcases hcreated with hsame | ⟨f, p, hctl⟩
      · exact hsame
      · rw [hctl] at hk
        cases hk
    rw [hsame] at hi
    rcases ctl_step hs with hctl | rfl | hctl | hctl | ⟨f, p, hctl⟩ | ⟨-, hctl⟩
    · rw [hctl] at hk
      rcases hphase i hfin with hold | rfl
      · exact hinv hk i hi hold
      · exact hok hk
    · -- `pause` begins here, with all workers alive
      rw [hk] at hok
      rcases hphase i hfin with hold | hev
      · exact hok i hi hold
      · cases hev
    · simp [hctl] at hk
    · simp [hctl] at hk
    · simp [hctl] at hk
    · simp [hctl] at hk

/-- A crew whose controller resumes it before it stops it does not deadlock in
    `stop`. -/
theorem not_stopDeadlock_of_reachable (h : system.ReachableBy StopsResumed s) :
    ¬ StopDeadlock s :=
  (inv_of_reachable h).not_stopDeadlock fun hctl => resumed_of_reachable h (.inr hctl)

/-- A crew whose workers outlive every `pause` does not deadlock in `pause`. -/
theorem not_pauseDeadlock_of_reachable (h : system.ReachableBy PausesLive s) :
    ¬ PauseDeadlock s :=
  (inv_of_reachable h).not_pauseDeadlock (live_of_reachable h)

end Crew
end Fredlib
