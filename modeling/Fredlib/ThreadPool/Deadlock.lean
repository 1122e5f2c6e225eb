/-
  Fredlib.ThreadPool.Deadlock

  When the controller of a pool can wait for ever.

  `stop` and `pause` look at different counters.  `stop` waits for workers that
  may sleep in `pauseIfRequred`, and does not wake them; `pause` waits for as
  many workers as were ever created, though some may have called `done`.  Both
  deadlocks are reached (`stop_deadlocks`, `pause_deadlocks`), and only by runs
  that call `stop` while a pause is requested, or in which a worker is done
  before a `pause` returns (`stop_deadlock_free`, `pause_deadlock_free`).
-/

import Fredlib.ThreadPool.GenericControl
import Fredlib.ThreadPool.WorkerControl

namespace Fredlib

open Lib Lib.Monitor ThreadControl

-- ============================================================================
-- GenericThreadPool
-- ============================================================================

namespace GenericThreadPool

/-- The controller sleeps in the wait of `stop`, un-notified, while every worker
    that has not called `done` sleeps in `pauseIfRequred`. -/
def StopDeadlock (s : GenericThreadPool Unit) : Prop :=
  s._tc.fanIn.thr (.client ()) = .asleep .fannedIn ∧
    ∀ i, i < s.created → s.workers i ≠ .exited →
      s._tc.pausePoint.thr (.worker i) = .asleep .resumed ∧ s._tc.pausePoint.data.mPause = true

/-- The controller sleeps in `pause`, un-notified, while every worker has called
    `done` or sleeps in `pauseIfRequred`. -/
def PauseDeadlock (s : GenericThreadPool Unit) : Prop :=
  s._tc.pausePoint.thr (.client ()) = .asleep .allPaused ∧
    ∀ i, i < s.created →
      s.workers i = .exited ∨ s._tc.pausePoint.thr (.worker i) = .asleep .resumed

/-- `stop` is only called while no pause is requested. -/
def StopsResumed (s : GenericThreadPool Unit) : Ev Unit → Prop
  | .call _ .stop => s._tc.pausePoint.data.mPause = false
  | _ => True

/-- No worker has called `done` when `pause` is called, or calls it before
    `pause` returns. -/
def PausesLive (s : GenericThreadPool Unit) : Ev Unit → Prop
  | .call _ .pause => ∀ i, i < s.created → s.workers i ≠ .exited
  | .worker i => s.workers i = .done → s.clients () ≠ .pausing
  | _ => True

variable {s : GenericThreadPool Unit} {n : Nat} {i : Nat}

theorem phase_eq_finished {pc : WorkerPc} : pc.phase = .finished ↔ pc = .exited := by
  cases pc <;> simp [WorkerPc.phase]

theorem StopDeadlock.crew (h : StopDeadlock s) : s.crew.StopDeadlock := by
  refine ⟨h.1, fun i hi hphase => h.2 i hi fun hpc => hphase ?_⟩
  rw [crew_phase hi, hpc]
  rfl

theorem PauseDeadlock.crew (h : PauseDeadlock s) : s.crew.PauseDeadlock := by
  refine ⟨h.1, fun i hi => (h.2 i hi).imp (fun hpc => ?_) id⟩
  rw [crew_phase hi, hpc]
  rfl

theorem not_stopDeadlock (h : (system Unit n).ReachableBy StopsResumed s) : ¬ StopDeadlock s := by
  have hcrew : Crew.system.ReachableBy Crew.StopsResumed s.crew := by
    refine (projects n).reachable (fun _ _ _ => trivial) ?_ h
    -- a step that the crew sees as a call of `stop` is one
    intro s e e' hok hsees
    cases e' with
    | begin k =>
        cases k with
        | stopping =>
            cases hsees
            exact hok
        | waiting => cases hsees
        | _ => trivial
    | _ => trivial
  exact fun hdead => Crew.not_stopDeadlock_of_reachable hcrew hdead.crew

theorem not_pauseDeadlock (h : (system Unit n).ReachableBy PausesLive s) : ¬ PauseDeadlock s := by
  have hcrew : Crew.system.ReachableBy Crew.PausesLive s.crew := by
    refine (projects n).reachable (fun _ _ _ => trivial) ?_ h
    intro s e e' hok hsees
    cases e' with
    | begin k =>
        cases k with
        | pausing =>
            cases hsees
            intro i hi hphase
            rw [crew_phase hi, phase_eq_finished] at hphase
            exact hok i hi hphase
        | _ => trivial
    -- a worker is done while the crew pauses: the controller is in `pause` then
    | done i =>
        obtain ⟨rfl, hpc⟩ := hsees
        intro hctl
        refine hok hpc ?_
        have hctl' : (s.clients ()).ctl = .pausing := hctl
        cases hc : s.clients () with
        | pausing => rfl
        | constructing left pc | adding left pc =>
            rw [hc] at hctl'
            rcases pc with - | - | - | - <;> cases hctl'
        | _ =>
            rw [hc] at hctl'
            cases hctl'
    | _ => trivial
  exact fun hdead => Crew.not_pauseDeadlock_of_reachable hcrew hdead.crew

end GenericThreadPool

-- ============================================================================
-- WorkerThreads
-- ============================================================================

namespace WorkerThreads

/-- The controller sleeps in the wait of `stop`, un-notified, while every worker
    that has not called `done` sleeps in `pauseIfRequred`. -/
def StopDeadlock (p : List (Obs Unit) × WorkerThreads Unit) : Prop :=
  p.2.clients () = .stopWait ∧ p.2._tc.fanIn.thr (.client ()) = .asleep .fannedIn ∧
    ∀ i, i < p.2.created → .done i ∉ p.1 →
      p.2._tc.pausePoint.thr (.worker i) = .asleep .resumed ∧
        p.2._tc.pausePoint.data.mPause = true

/-- The controller sleeps in `pause`, un-notified, while every worker has called
    `done` or sleeps in `pauseIfRequred`. -/
def PauseDeadlock (p : List (Obs Unit) × WorkerThreads Unit) : Prop :=
  p.2._tc.pausePoint.thr (.client ()) = .asleep .allPaused ∧
    ∀ i, i < p.2.created →
      .done i ∈ p.1 ∨ p.2._tc.pausePoint.thr (.worker i) = .asleep .resumed

/-- `stop` is only called while no pause is requested. -/
def StopsResumed (p : List (Obs Unit) × WorkerThreads Unit) : Ev Unit → Prop
  | .call _ .stop => p.2._tc.pausePoint.data.mPause = false
  | _ => True

/-- No worker has called `done` when `pause` is called, or calls it before
    `pause` returns. -/
def PausesLive (p : List (Obs Unit) × WorkerThreads Unit) : Ev Unit → Prop
  | .call _ .pause => ∀ i, i < p.2.created → .done i ∉ p.1
  | .worker i => p.2.workers i = .calling .done → p.2.clients () ≠ .pausing
  | _ => True

variable {p : List (Obs Unit) × WorkerThreads Unit} {n : Nat} {i : Nat}

theorem phase_eq_finished (hi : i < p.2.created) :
    (crew p).phase i = .finished ↔ .done i ∈ p.1 := by
  show p.2.phase p.1 i = _ ↔ _
  rw [phase, if_pos hi]
  split
  · rename_i hdone
    simp [hdone]
  · rename_i hdone
    simp only [hdone, iff_false]
    cases p.2.workers i with
    | calling act => cases act <;> simp [WorkerPc.phase]
    | _ => simp [WorkerPc.phase]

theorem StopDeadlock.crew (h : StopDeadlock p) : (crew p).StopDeadlock :=
  ⟨h.2.1, fun i hi hphase => h.2.2 i hi fun hdone => hphase ((phase_eq_finished hi).mpr hdone)⟩

theorem PauseDeadlock.crew (h : PauseDeadlock p) : (crew p).PauseDeadlock :=
  ⟨h.1, fun i hi => (h.2 i hi).imp (phase_eq_finished hi).mpr id⟩

/-- The controller is in a call of `stop`. -/
def ClientPc.InStop (pc : ClientPc) : Prop :=
  pc = .stopSize ∨ pc = .stopSet ∨ pc = .stopWait

theorem ClientPc.InStop.ctl {pc : ClientPc} (h : pc.InStop) :
    pc.ctl = .stopping ∨ pc.ctl = .waiting := by
  rcases h with rfl | rfl | rfl
  · exact .inl rfl
  · exact .inl rfl
  · exact .inr rfl

/-- The controller gets into `stop` by calling it. -/
theorem inStop_step {s s' : WorkerThreads Unit} {e : Ev Unit} (hs : step s e = some s')
    (hin : (s'.clients ()).InStop) : (s.clients ()).InStop ∨ e = .call () .stop := by
  cases e with
  | call c op =>
      obtain ⟨-, -, hmove⟩ := callMove_of_step hs
      cases hmove with
      | stop => exact .inr rfl
      | _ => simp [ClientPc.InStop] at hin
  | client c =>
      cases clientMove_of_step hs with
      | stopSize hpc => exact .inl (.inl hpc)
      | stopSet hpc => exact .inl (.inr (.inl hpc))
      | stopWait hpc _ => exact .inl (.inr (.inr hpc))
      -- no other call ends at a place inside `stop`
      | arm | announce =>
          rename_i b _ _ _ _
          cases b <;> simp [ClientPc.InStop, afterArming, afterAnnouncing, Base.next] at hin
      | pause | sync | resume | waitSize | wait =>
          rw [setClient_self] at hin
          split at hin <;> simp [ClientPc.InStop] at hin
      | _ => simp [ClientPc.InStop] at hin
  | act i act =>
      obtain ⟨-, -, rfl⟩ := actStep_some hs
      exact .inl hin
  | worker i =>
      obtain ⟨-, act, tc, r, -, -, rfl⟩ := workerStep_some hs
      exact .inl hin
  | ret i =>
      obtain ⟨-, -, rfl⟩ := retStep_some hs
      exact .inl hin
  | spurious b t =>
      have hsp : (s._tc.spurious b t).map (fun tc => { s with _tc := tc }) = some s' := hs
      obtain ⟨tc, -, rfl⟩ := Option.map_eq_some_iff.mp hsp
      exact .inl hin

/-- While the controller is in `stop` no pause is requested. -/
theorem resumed_of_reachable
    (h : (recorded Unit n).ReachableBy (fun p e => Orderly p e ∧ StopsResumed p e) p) :
    (p.2.clients ()).InStop → p.2._tc.pausePoint.data.mPause = false := by
  refine h.invariant (P := fun p => (p.2.clients ()).InStop →
    p.2._tc.pausePoint.data.mPause = false) ?_ ?_
  · rintro ⟨log, s⟩ ⟨-, c, rfl⟩ hin
    simp [initial, ClientPc.InStop] at hin
  · intro p e p' hreach hinv hok hs hin
    -- the flag was down before the step, by induction or by the promise
    have hbefore : p.2._tc.pausePoint.data.mPause = false := by
      obtain ⟨s', hs', rfl⟩ := System.recorded_some hs
      rcases inStop_step hs' hin with hold | rfl
      · exact hinv hold
      · exact hok.2
    have horderly := hreach.mono fun _ _ hok => hok.1
    -- and no step of a stopping crew raises it
    rcases (projects n).step _ _ _ horderly hok.1 hs with heq | ⟨e', -, hs'⟩
    · exact (congrArg Crew.mPause heq).trans hbefore
    · exact (Crew.flag_of_stopping hs' hin.ctl).trans hbefore

theorem not_stopDeadlock
    (h : (recorded Unit n).ReachableBy (fun p e => Orderly p e ∧ StopsResumed p e) p) :
    ¬ StopDeadlock p := by
  intro hdead
  have hcrew : Crew.system.Reachable (WorkerThreads.crew p) :=
    (projects n).reachable (fun _ _ hok => hok.1) (fun _ _ _ _ _ => trivial) h
  exact (Crew.inv_of_reachable hcrew).not_stopDeadlock
    (fun _ => resumed_of_reachable h (.inr (.inr hdead.1))) hdead.crew

theorem not_pauseDeadlock
    (h : (recorded Unit n).ReachableBy (fun p e => Orderly p e ∧ PausesLive p e) p) :
    ¬ PauseDeadlock p := by
  have hcrew : Crew.system.ReachableBy Crew.PausesLive (WorkerThreads.crew p) := by
    refine (projects n).reachable (fun _ _ hok => hok.1) ?_ h
    rintro p e e' ⟨-, hok⟩ hsees
    cases e' with
    | begin k =>
        cases k with
        | pausing =>
            cases hsees
            exact fun i hi hphase => hok i hi ((phase_eq_finished hi).mp hphase)
        | _ => trivial
    | done i =>
        obtain ⟨rfl, hpc⟩ := hsees
        intro hctl
        refine hok hpc ?_
        have hctl' : (p.2.clients ()).ctl = .pausing := hctl
        cases hc : p.2.clients () with
        | pausing => rfl
        | arming m b | announcing m b =>
            rw [hc] at hctl'
            cases b <;> cases hctl'
        | _ =>
            rw [hc] at hctl'
            cases hctl'
    | _ => trivial
  exact fun hdead => Crew.not_pauseDeadlock_of_reachable hcrew hdead.crew

end WorkerThreads

-- ============================================================================
-- stop
-- ============================================================================

/-- What holds of the one worker of a pool holds of them all. -/
theorem only_worker {P : Nat → Prop} (h : P 0) (i : Nat) (hi : i < 1) : P i :=
  Nat.lt_one_iff.mp hi ▸ h

/-- **`stop` does not deadlock if no pause is requested when it is called**, on
    either kind of pool, whatever else the controller calls. -/
theorem stop_deadlock_free (n : Nat) :
    (∀ s, (GenericThreadPool.system Unit n).ReachableBy GenericThreadPool.StopsResumed s →
      ¬ s.StopDeadlock) ∧
    ∀ p, (WorkerThreads.recorded Unit n).ReachableBy
      (fun p e => WorkerThreads.Orderly p e ∧ WorkerThreads.StopsResumed p e) p →
      ¬ WorkerThreads.StopDeadlock p :=
  ⟨fun _ h => GenericThreadPool.not_stopDeadlock h,
    fun _ h => WorkerThreads.not_stopDeadlock h⟩

/-- The controller of a pool of one worker is in the wait of `stop`; the worker has
    yet to start. -/
theorem stop_deadlock_free_waiting :
    ∃ s p, s._tc.fanIn.thr (.client ()) = .asleep .fannedIn ∧ ¬ GenericThreadPool.StopDeadlock s ∧
      p.2._tc.fanIn.thr (.client ()) = .asleep .fannedIn ∧ ¬ WorkerThreads.StopDeadlock p := by
  have hgeneric : ∃ s, (GenericThreadPool.system Unit 1).Run GenericThreadPool.StopsResumed
      (.initial () 1 fun _ => ListHook.unlinked)
      [.client (), .client (), .client (), .client (), .client (),
        .call () .stop, .client (), .client (), .client ()] s ∧
      s._tc.fanIn.thr (.client ()) = .asleep .fannedIn :=
    ⟨_, .cons trivial rfl <| .cons trivial rfl <| .cons trivial rfl <| .cons trivial rfl <|
      .cons trivial rfl <| .cons rfl rfl <| .cons trivial rfl <| .cons trivial rfl <|
      .cons trivial rfl .nil, rfl⟩
  have hworker : ∃ p, (WorkerThreads.recorded Unit 1).Run
      (fun p e => WorkerThreads.Orderly p e ∧ WorkerThreads.StopsResumed p e)
      ([], .initial () 1)
      [.client (), .client (), .client (), .client (), .client (),
        .call () .stop, .client (), .client (), .client ()] p ∧
      p.2._tc.fanIn.thr (.client ()) = .asleep .fannedIn :=
    ⟨_, .cons ⟨trivial, trivial⟩ rfl <| .cons ⟨trivial, trivial⟩ rfl <|
      .cons ⟨trivial, trivial⟩ rfl <| .cons ⟨trivial, trivial⟩ rfl <|
      .cons ⟨trivial, trivial⟩ rfl <| .cons ⟨trivial, rfl⟩ rfl <|
      .cons ⟨trivial, trivial⟩ rfl <| .cons ⟨trivial, trivial⟩ rfl <|
      .cons ⟨trivial, trivial⟩ rfl .nil, rfl⟩
  obtain ⟨s, hs, hsleep⟩ := hgeneric
  obtain ⟨p, hp, hsleep'⟩ := hworker
  exact ⟨s, p, hsleep, (stop_deadlock_free 1).1 s (hs.reachable (.init ⟨(), _, rfl⟩)), hsleep',
    (stop_deadlock_free 1).2 p (hp.reachable (.init ⟨rfl, (), rfl⟩))⟩

/-- With one worker: `pause()` returns when the worker is paused, and then `stop()`
    waits for the worker, which waits for `resume()`. -/
theorem stop_deadlocks :
    (∃ s, (GenericThreadPool.system Unit 1).Reachable s ∧ s.StopDeadlock) ∧
    ∃ p, (WorkerThreads.recorded Unit 1).ReachableBy WorkerThreads.Orderly p ∧
      WorkerThreads.StopDeadlock p := by
  have hgeneric : ∃ s, (GenericThreadPool.system Unit 1).Run (fun _ _ => True)
      (.initial () 1 fun _ => ListHook.unlinked)
      [.client (), .client (), .client (), .client (), .client (),
        .call () .pause, .client (), .worker 0, .client (),
        .call () .stop, .client (), .client (), .client ()] s ∧ s.StopDeadlock := by
    refine ⟨_, .cons trivial rfl <| .cons trivial rfl <| .cons trivial rfl <|
      .cons trivial rfl <| .cons trivial rfl <| .cons trivial rfl <| .cons trivial rfl <|
      .cons trivial rfl <| .cons trivial rfl <| .cons trivial rfl <| .cons trivial rfl <|
      .cons trivial rfl <| .cons trivial rfl .nil, rfl, ?_⟩
    exact only_worker fun _ => ⟨rfl, rfl⟩
  have hworker : ∃ p, (WorkerThreads.recorded Unit 1).Run WorkerThreads.Orderly
      ([], .initial () 1)
      [.client (), .client (), .client (), .client (), .client (),
        .act 0 .pauseIfRequred, .call () .pause, .client (), .worker 0, .client (),
        .call () .stop, .client (), .client (), .client ()] p ∧ WorkerThreads.StopDeadlock p := by
    refine ⟨_, .cons trivial rfl <| .cons trivial rfl <| .cons trivial rfl <|
      .cons trivial rfl <| .cons trivial rfl <| .cons (fun h => by cases h) rfl <|
      .cons trivial rfl <| .cons trivial rfl <| .cons trivial rfl <| .cons trivial rfl <|
      .cons trivial rfl <| .cons trivial rfl <| .cons trivial rfl <| .cons trivial rfl .nil,
      rfl, rfl, ?_⟩
    exact only_worker fun _ => ⟨rfl, rfl⟩
  obtain ⟨s, hs, hdead⟩ := hgeneric
  obtain ⟨p, hp, hdead'⟩ := hworker
  exact ⟨⟨s, hs.reachable (.init ⟨(), _, rfl⟩), hdead⟩,
    ⟨p, hp.reachable (.init ⟨rfl, (), rfl⟩), hdead'⟩⟩

-- ============================================================================
-- pause
-- ============================================================================

/-- **`pause` does not deadlock if no worker is done before it returns**, on either
    kind of pool, whatever else the controller calls. -/
theorem pause_deadlock_free (n : Nat) :
    (∀ s, (GenericThreadPool.system Unit n).ReachableBy GenericThreadPool.PausesLive s →
      ¬ s.PauseDeadlock) ∧
    ∀ p, (WorkerThreads.recorded Unit n).ReachableBy
      (fun p e => WorkerThreads.Orderly p e ∧ WorkerThreads.PausesLive p e) p →
      ¬ WorkerThreads.PauseDeadlock p :=
  ⟨fun _ h => GenericThreadPool.not_pauseDeadlock h,
    fun _ h => WorkerThreads.not_pauseDeadlock h⟩

/-- The controller of a pool of one worker is in `pause`; the worker has yet to
    start. -/
theorem pause_deadlock_free_waiting :
    ∃ s p, s._tc.pausePoint.thr (.client ()) = .asleep .allPaused ∧
      ¬ GenericThreadPool.PauseDeadlock s ∧
      p.2._tc.pausePoint.thr (.client ()) = .asleep .allPaused ∧
      ¬ WorkerThreads.PauseDeadlock p := by
  have hgeneric : ∃ s, (GenericThreadPool.system Unit 1).Run GenericThreadPool.PausesLive
      (.initial () 1 fun _ => ListHook.unlinked)
      [.client (), .client (), .client (), .client (), .client (), .call () .pause, .client ()] s ∧
      s._tc.pausePoint.thr (.client ()) = .asleep .allPaused := by
    refine ⟨_, .cons trivial rfl <| .cons trivial rfl <| .cons trivial rfl <|
      .cons trivial rfl <| .cons trivial rfl <| .cons ?_ rfl <| .cons trivial rfl .nil, rfl⟩
    exact only_worker fun h => by cases h
  have hworker : ∃ p, (WorkerThreads.recorded Unit 1).Run
      (fun p e => WorkerThreads.Orderly p e ∧ WorkerThreads.PausesLive p e)
      ([], .initial () 1)
      [.client (), .client (), .client (), .client (), .client (), .call () .pause, .client ()] p ∧
      p.2._tc.pausePoint.thr (.client ()) = .asleep .allPaused :=
    ⟨_, .cons ⟨trivial, trivial⟩ rfl <| .cons ⟨trivial, trivial⟩ rfl <|
      .cons ⟨trivial, trivial⟩ rfl <| .cons ⟨trivial, trivial⟩ rfl <|
      .cons ⟨trivial, trivial⟩ rfl <| .cons ⟨trivial, fun _ _ h => by cases h⟩ rfl <|
      .cons ⟨trivial, trivial⟩ rfl .nil, rfl⟩
  obtain ⟨s, hs, hsleep⟩ := hgeneric
  obtain ⟨p, hp, hsleep'⟩ := hworker
  exact ⟨s, p, hsleep, (pause_deadlock_free 1).1 s (hs.reachable (.init ⟨(), _, rfl⟩)), hsleep',
    (pause_deadlock_free 1).2 p (hp.reachable (.init ⟨rfl, (), rfl⟩))⟩

/-- With one worker that is done, `pause()` waits for a worker to pause that never
    will: on a `GenericThreadPool` after `stop()`, on a `WorkerThreads` once the
    routine has called `done()`. -/
theorem pause_deadlocks :
    (∃ s, (GenericThreadPool.system Unit 1).Reachable s ∧ s.PauseDeadlock) ∧
    ∃ p, (WorkerThreads.recorded Unit 1).ReachableBy WorkerThreads.Orderly p ∧
      WorkerThreads.PauseDeadlock p := by
  have hgeneric : ∃ s, (GenericThreadPool.system Unit 1).Run (fun _ _ => True)
      (.initial () 1 fun _ => ListHook.unlinked)
      [.client (), .client (), .client (), .client (), .client (),
        .call () .stop, .client (), .client (), .client (), .worker 0, .worker 0, .worker 0,
        .client (), .client (), .client (), .client (), .call () .pause, .client ()] s ∧
      s.PauseDeadlock := by
    refine ⟨_, .cons trivial rfl <| .cons trivial rfl <| .cons trivial rfl <|
      .cons trivial rfl <| .cons trivial rfl <| .cons trivial rfl <| .cons trivial rfl <|
      .cons trivial rfl <| .cons trivial rfl <| .cons trivial rfl <| .cons trivial rfl <|
      .cons trivial rfl <| .cons trivial rfl <| .cons trivial rfl <| .cons trivial rfl <|
      .cons trivial rfl <| .cons trivial rfl <| .cons trivial rfl .nil, rfl, ?_⟩
    exact only_worker (.inl rfl)
  have hworker : ∃ p, (WorkerThreads.recorded Unit 1).Run WorkerThreads.Orderly
      ([], .initial () 1)
      [.client (), .client (), .client (), .client (), .client (),
        .act 0 .done, .worker 0, .call () .pause, .client ()] p ∧
      WorkerThreads.PauseDeadlock p := by
    refine ⟨_, .cons trivial rfl <| .cons trivial rfl <| .cons trivial rfl <|
      .cons trivial rfl <| .cons trivial rfl <| .cons (fun h => by cases h) rfl <|
      .cons trivial rfl <| .cons trivial rfl <| .cons trivial rfl .nil, rfl, ?_⟩
    exact only_worker (.inl (.head _))
  obtain ⟨s, hs, hdead⟩ := hgeneric
  obtain ⟨p, hp, hdead'⟩ := hworker
  exact ⟨⟨s, hs.reachable (.init ⟨(), _, rfl⟩), hdead⟩,
    ⟨p, hp.reachable (.init ⟨rfl, (), rfl⟩), hdead'⟩⟩

end Fredlib
