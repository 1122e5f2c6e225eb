/-
  Fredlib.ThreadPool.Whereabouts

  Where the workers of a `GenericThreadPool` get to.

  A worker moves from spot to spot (`SpotMove`), by its own steps or when the time of its
  `pop_front(100)` is over, and nobody else moves it.  While neither flag of the pool changes,
  a measure of the spots that every move brings down comes to zero and stays there
  (`Measure.eventually_zero`).
-/

import Fredlib.ThreadPool.Progress

namespace Fredlib

open Lib Lib.Monitor ThreadControl IntrusiveSafeList

namespace ThreadControl

variable {T : Type*} [DecidableEq T] {tc tc' : ThreadControl T} {t t' : T} {r : Option Unit}

/-- The thread `t` does not sleep at the base of an operation. -/
def AwakeAt (tc : ThreadControl T) (t : T) : Op → Prop
  | .sync _ => ∀ w, tc.syncPoint.thr t ≠ .asleep w
  | .fanIn _ => ∀ w, tc.fanIn.thr t ≠ .asleep w
  | .pause _ => ∀ w, tc.pausePoint.thr t ≠ .asleep w

/-- Whoever does not sleep can take a step. -/
theorem advance_of_awake {op : Op} (h : tc.AwakeAt t op) : tc.advance t op ≠ none := by
  cases op with
  | sync op =>
      have hadv := SyncPoint.monitor.advance_of_awake
        (by intro op d; cases op <;> simp [SyncPoint.monitor])
        (by intro w d; simp [SyncPoint.monitor]) h op
      simpa [advance] using hadv
  | fanIn op =>
      have hadv := FanInPoint.monitor.advance_of_awake
        (by intro op d; cases op <;> simp [FanInPoint.monitor])
        (by intro w d; simp [FanInPoint.monitor]) h op
      simpa [advance] using hadv
  | pause op =>
      have hadv := PausePoint.monitor.advance_of_awake
        (by intro op d; cases op <;> simp [PausePoint.monitor])
        (by intro w d; cases w <;> simp [PausePoint.monitor]) h op
      simpa [advance] using hadv

/-- A step of one thread does not move another one in `PausePoint`. -/
theorem advance_others {op : Op} (h : tc.advance t op = some (tc', r)) (hne : t' ≠ t) :
    (tc'.pausePoint.thr t').waiting = (tc.pausePoint.thr t').waiting := by
  cases op with
  | sync op =>
      obtain ⟨c, -, rfl⟩ := advance_sync h
      rfl
  | fanIn op =>
      obtain ⟨c, -, rfl⟩ := advance_fanIn h
      rfl
  | pause op =>
      obtain ⟨c, hc, rfl⟩ := advance_pause h
      exact (PausePoint.monitor.advance_frame hc).1 _ hne

/-- Nor does a spurious wake-up. -/
theorem spurious_others {b : Base} (h : tc.spurious b t = some tc') :
    (tc'.pausePoint.thr t').waiting = (tc.pausePoint.thr t').waiting := by
  cases b with
  | pausePoint =>
      simp only [spurious, Option.map_eq_some_iff] at h
      obtain ⟨c, hc, rfl⟩ := h
      exact (spurious_frame hc).2 _
  | _ =>
      simp only [spurious, Option.map_eq_some_iff] at h
      obtain ⟨c, -, rfl⟩ := h
      rfl

end ThreadControl

namespace GenericThreadPool

variable {ι : Type*} [DecidableEq ι] {s s' : GenericThreadPool ι} {i : Nat} {e : Ev ι}
  {flag stopper : Bool}

-- ============================================================================
-- From spot to spot
-- ============================================================================

/-- Where a worker is in `_worker_thread`, and whether it waits in `pop_front` and in
    `pauseIfRequred`. -/
structure Spot where
  pc : WorkerPc
  inQueue : Bool
  inPause : Bool

/-- The spot of the worker `i`. -/
def spot (s : GenericThreadPool ι) (i : Nat) : Spot where
  pc := s.workers i
  inQueue := (s._q.list.thr (.worker i)).waiting.isSome
  inPause := (s._tc.pausePoint.thr (.worker i)).waiting.isSome

/-- Who brings a worker forward: it does so itself, or the clock does. -/
inductive Mover
  | own
  | clock

/-- What is up to them. -/
def Mover.Event (i : Nat) : Mover → Ev ι → Prop
  | .own, e => e = .worker i
  | .clock, e => e = .timeout i

/-- Who gets a worker away from a spot for sure: a wait for an element ends with its time. -/
def Spot.mover (a : Spot) : Mover :=
  match a.pc, a.inQueue with
  | .pop, true => .clock
  | _, _ => .own

/-- How a worker moves while the flags are `flag` and `stopper`. -/
inductive SpotMove (flag stopper : Bool) : Mover → Spot → Spot → Prop
  | sleep {q b : Bool} : flag = true →
      SpotMove flag stopper .own ⟨.pause, q, b⟩ ⟨.pause, q, true⟩
  | pass {q b : Bool} : flag = false →
      SpotMove flag stopper .own ⟨.pause, q, b⟩ ⟨.check, q, false⟩
  | check {q : Bool} : SpotMove flag stopper .own ⟨.check, q, false⟩
      ⟨if stopper = true then .done else .pop, q, false⟩
  | wait {q : Bool} : SpotMove flag stopper .own ⟨.pop, q, false⟩ ⟨.pop, true, false⟩
  | empty {m : Mover} {q : Bool} : SpotMove flag stopper m ⟨.pop, q, false⟩ ⟨.pause, false, false⟩
  | popped {m : Mover} {q : Bool} {qe : Addr} :
      SpotMove flag stopper m ⟨.pop, q, false⟩ ⟨.run qe, false, false⟩
  | run {q : Bool} {qe : Addr} :
      SpotMove flag stopper .own ⟨.run qe, q, false⟩ ⟨.inside qe, q, false⟩
  | inside {q : Bool} {qe : Addr} :
      SpotMove flag stopper .own ⟨.inside qe, q, false⟩ ⟨.delete qe, q, false⟩
  | delete {q : Bool} {qe : Addr} :
      SpotMove flag stopper .own ⟨.delete qe, q, false⟩ ⟨.pause, q, false⟩
  | done {q : Bool} : SpotMove flag stopper .own ⟨.done, q, false⟩ ⟨.exited, q, false⟩

/-- Whose step an event is. -/
def Ev.By (t : Tid ι) : Ev ι → Prop
  | .client c => t = .client c
  | .worker i | .timeout i => t = .worker i
  | _ => False

/-- The others leave a thread where it is in `PausePoint`. -/
theorem pause_of_other {t : Tid ι} (he : ¬ e.By t) (hs : GenericThreadPool.step s e = some s') :
    (s'._tc.pausePoint.thr t).waiting = (s._tc.pausePoint.thr t).waiting := by
  have hadded : ∀ {c left pc s₁ r}, t ≠ .client c → AddMove s c left pc s₁ r →
      (s₁._tc.pausePoint.thr t).waiting = (s._tc.pausePoint.thr t).waiting := by
    intro c left pc s₁ r hne hadd
    cases hadd with
    | announce hadv => exact advance_others hadv hne
    | _ => rfl
  cases e with
  | call c op =>
      obtain ⟨-, -, -, htc⟩ := callStep_frame hs
      rw [htc]
  | client c =>
      cases clientMove_of_step hs with
      | construct _ hadd | built _ hadd | add _ hadd | added _ hadd =>
          have hsame := hadded he hadd
          exact hsame
      | pause _ hadv | resume _ hadv | stopWait _ hadv => exact advance_others hadv he
      | _ => rfl
  | worker j =>
      obtain ⟨-, hmove⟩ := workerMove_of_step hs
      cases hmove with
      | pause _ hadv | done _ hadv => exact advance_others hadv he
      | _ => rfl
  | timeout j =>
      obtain ⟨-, -, q, r, -, rfl⟩ := timeoutStep_some hs
      rfl
  | spuriousTc b t' =>
      simp only [GenericThreadPool.step, Option.map_eq_some_iff] at hs
      obtain ⟨tc, hsp, rfl⟩ := hs
      exact spurious_others hsp
  | spuriousQ t' =>
      simp only [GenericThreadPool.step, Option.map_eq_some_iff] at hs
      obtain ⟨q, -, rfl⟩ := hs
      rfl

/-- The others leave a worker where it is in the queue. -/
theorem queue_of_other {log : List Obs} {l : List (Addr × Nat)} (h : QueueInv log s l)
    (he : ¬ e.By (.worker i)) (hs : GenericThreadPool.step s e = some s') :
    (s'._q.list.thr (.worker i)).waiting = (s._q.list.thr (.worker i)).waiting := by
  cases e with
  | call c op =>
      obtain ⟨-, -, hmove⟩ := callMove_of_step hs
      cases hmove <;> rfl
  | client c =>
      cases clientMove_of_step hs with
      -- a `push_back` wakes a waiter at most, which goes on waiting until its re-check
      | push hpc hpush =>
          simp only [pushBack, Option.map_eq_some_iff] at hpush
          obtain ⟨⟨x, r⟩, hadv, rfl⟩ := hpush
          exact (SafeList.monitor.advance_frame hadv).1 _ (by simp)
      | construct _ hadd | built _ hadd | add _ hadd | added _ hadd => cases hadd <;> rfl
      | _ => rfl
  | worker j =>
      obtain ⟨-, hmove⟩ := workerMove_of_step hs
      cases hmove with
      | pop hpc hpop =>
          simp only [popFront, Option.map_eq_some_iff, Prod.mk.injEq] at hpop
          obtain ⟨⟨x, r⟩, hadv, rfl, -⟩ := hpop
          exact (SafeList.monitor.advance_frame hadv).1 _ he
      | _ => rfl
  | timeout j =>
      obtain ⟨-, -, q, r, hgive, rfl⟩ := timeoutStep_some hs
      exact (giveUp_step h.holds (h.workerAt j) hgive).2.1 _ he
  | spuriousTc b t =>
      simp only [GenericThreadPool.step, Option.map_eq_some_iff] at hs
      obtain ⟨tc, -, rfl⟩ := hs
      rfl
  | spuriousQ t =>
      simp only [GenericThreadPool.step, Option.map_eq_some_iff, IntrusiveSafeList.spurious] at hs
      obtain ⟨q, ⟨x, hsp, rfl⟩, rfl⟩ := hs
      exact (spurious_frame hsp).2 _

omit [DecidableEq ι] in
theorem Ev.IsOf.of_by (h : e.By (.worker i)) : e.IsOf i := by
  cases e with
  | worker j | timeout j =>
      cases h
      rfl
  | _ => cases h

/-- The others leave a worker at its spot. -/
theorem spot_of_other {log : List Obs} {l : List (Addr × Nat)} (h : QueueInv log s l)
    (he : ¬ e.IsOf i) (hs : GenericThreadPool.step s e = some s') : s'.spot i = s.spot i := by
  have hnot : ¬ e.By (.worker i) := mt Ev.IsOf.of_by he
  simp only [spot, h.others he hs, queue_of_other h hnot hs, pause_of_other hnot hs]

omit [DecidableEq ι] in
/-- A worker that is not in `pauseIfRequred` does not wait there. -/
theorem PauseAt.not_inPause (h : PauseAt s) (hpc : s.workers i ≠ .pause) :
    (s._tc.pausePoint.thr (.worker i)).waiting.isSome = false := by
  rw [Option.isSome_eq_false_iff, Option.isNone_iff_eq_none, Option.eq_none_iff_forall_ne_some]
  exact fun w hw => hpc (h.worker i w hw).2.2

omit [DecidableEq ι] in
/-- A worker goes on where it takes no part in the queue and in `PausePoint`. -/
theorem SpotMove.of_elsewhere {m : Mover} {pc pc' : WorkerPc} (hg : PauseAt s)
    (hpc : s.workers i = pc)
    (hne : pc ≠ .pause) (hpc' : s'.workers i = pc') (hqueue : s'._q = s._q)
    (hpause : s'._tc.pausePoint = s._tc.pausePoint)
    (hmove : ∀ q, SpotMove flag stopper m ⟨pc, q, false⟩ ⟨pc', q, false⟩) :
    SpotMove flag stopper m (s.spot i) (s'.spot i) := by
  have hout := hg.not_inPause (i := i) (by rwa [hpc])
  have hmove := hmove (s._q.list.thr (.worker i)).waiting.isSome
  simp only [spot, hpc', hqueue, hpause, hpc, hout]
  exact hmove

omit [DecidableEq ι] in
/-- The end of a step of `pop_front`. -/
theorem SpotMove.of_pop_step {m : Mover} {q : IntrusiveSafeList (Tid ι)} {r : Option (Option Addr)}
    (hg : PauseAt s) (hpc : s.workers i = .pop)
    (hret : q.list.thr (.worker i) = .out ↔ r.isSome = true) (hown : r = none → m = .own) :
    SpotMove flag stopper m (s.spot i) (({ s with _q := q }.setWorker i (afterPop r)).spot i) := by
  have hout := hg.not_inPause (i := i) (by simp [hpc])
  have hspot : ({ s with _q := q }.setWorker i (afterPop r)).spot i =
      ⟨afterPop r, (q.list.thr (.worker i)).waiting.isSome, false⟩ := by
    simp only [spot, setWorker_self]
    simp only [setWorker, hout]
  have hold : s.spot i = ⟨.pop, (s._q.list.thr (.worker i)).waiting.isSome, false⟩ := by
    simp only [spot, hpc, hout]
  rw [hspot, hold]
  cases r with
  -- it has not returned, so it waits in the queue; only its own step does that
  | none =>
      have hin : (q.list.thr (.worker i)).waiting.isSome = true := by
        rw [Option.isSome_iff_ne_none]
        intro hwaiting
        cases hret.mp (Status.waiting_eq_none.mp hwaiting)
      rw [hin, hown rfl]
      exact .wait
  | some r =>
      rw [Status.waiting_eq_none.mpr (hret.mpr rfl)]
      cases r with
      | none => exact .empty
      | some qe => exact .popped

/-- A step of `pauseIfRequred`. -/
theorem SpotMove.checks {tc : ThreadControl (Tid ι)} {r : Option Unit} (hg : PauseAt s)
    (hawake : flag = false → s._tc.pausePoint.thr (.worker i) ≠ .asleep .resumed)
    (hpc : s.workers i = .pause) (hflag : s._tc.pausePoint.data.mPause = flag)
    (hadv : s._tc.advance (.worker i) (.pause .pauseIfRequred) = some (tc, r)) :
    SpotMove flag stopper .own (s.spot i)
      (({ s with _tc := tc }.setWorker i (if r.isSome then .check else .pause)).spot i) := by
  obtain ⟨x, hx, rfl⟩ := advance_pause hadv
  have hat : ∀ w, (s._tc.pausePoint.thr (.worker i)).waiting = some w → w = .resumed :=
    fun w hw => (hg.worker i w hw).1
  have hret := (PausePoint.monitor.advance_frame hx).2
  simp only [spot, setWorker_self, hpc]
  cases flag with
  -- a pause is on: it sleeps
  | true =>
      have hr := PausePoint.check_paused hat hflag hx
      subst hr
      have hin : (x.thr (.worker i)).waiting.isSome = true := by
        rw [Option.isSome_iff_ne_none]
        intro hwaiting
        cases hret.mp (Status.waiting_eq_none.mp hwaiting)
      simp only [setWorker, hin]
      exact .sleep rfl
  -- none is: it passes, for nobody sleeps without a pause
  | false =>
      obtain ⟨x', hx'⟩ := PausePoint.check_returns hat (hawake rfl) hflag
      rw [hx] at hx'
      cases hx'
      simp only [setWorker, Status.waiting_eq_none.mpr (hret.mpr rfl)]
      exact .pass rfl

/-- What is up to a worker and its clock moves it. -/
theorem spotMove_of_step {m : Mover} {n : Nat} {ok : GenericThreadPool ι → Ev ι → Prop}
    {log : List Obs} {l : List (Addr × Nat)} (hreach : (system ι n).ReachableBy ok s)
    (h : QueueInv log s l) (hflag : s._tc.pausePoint.data.mPause = flag)
    (hstop : s._tc._stopper = stopper) (he : m.Event i e)
    (hs : GenericThreadPool.step s e = some s') :
    SpotMove flag stopper m (s.spot i) (s'.spot i) := by
  have hg := (growth_of_reachable hreach).pause
  cases m with
  | own =>
      cases he
      obtain ⟨-, hmove⟩ := workerMove_of_step hs
      cases hmove with
      | pause hpc hadv =>
          refine SpotMove.checks hg (fun hdown hasleep => ?_) hpc hflag hadv
          have hup := asleep_of_reachable hreach _ hasleep
          rw [hflag, hdown] at hup
          cases hup
      | check hpc =>
          refine SpotMove.of_elsewhere hg hpc (by simp) setWorker_self rfl rfl fun q => ?_
          rw [stopRequired, hstop]
          exact .check
      | pop hpc hpop =>
          exact .of_pop_step hg hpc (popFront_step h.holds (h.workerAt i) hpop).2.2.1 fun _ => rfl
      | run hpc => exact .of_elsewhere hg hpc (by simp) setWorker_self rfl rfl fun _ => .run
      | inside hpc => exact .of_elsewhere hg hpc (by simp) setWorker_self rfl rfl fun _ => .inside
      | delete hpc => exact .of_elsewhere hg hpc (by simp) setWorker_self rfl rfl fun _ => .delete
      | done hpc hadv =>
          obtain ⟨x, -, rfl⟩ := advance_fanIn hadv
          exact .of_elsewhere hg hpc (by simp) setWorker_self rfl rfl fun _ => .done
  | clock =>
      cases he
      obtain ⟨-, hpc, q, r, hgive, rfl⟩ := timeoutStep_some hs
      obtain ⟨-, -, hout, hr⟩ := giveUp_step h.holds (h.workerAt i) hgive
      refine .of_pop_step hg hpc ⟨fun _ => hr, fun _ => hout⟩ ?_
      rintro rfl
      cases hr

-- ============================================================================
-- Measures
-- ============================================================================

/-- While the flags are `flag` and `stopper`, a move of a worker brings the measure down, or
    leaves it and whom the worker waits for; and unless it is zero the worker can be moved. -/
structure Measure (flag stopper : Bool) (r : Spot → Nat) : Prop where
  move : ∀ {m a b}, SpotMove flag stopper m a b →
    r b < r a ∨ r b = r a ∧ (r a = 0 ∨ b.mover = a.mover ∧ m ≠ a.mover)
  awake : ∀ {a}, r a ≠ 0 → a.pc ≠ .exited ∧ (a.pc = .pause → flag = true → a.inPause = false)

omit [DecidableEq ι] in
theorem Mover.isOf {m : Mover} (h : m.Event i e) : e.IsOf i := by
  cases m <;> cases h <;> rfl

omit [DecidableEq ι] in
theorem Mover.exists_of_isOf (h : e.IsOf i) : ∃ m : Mover, m.Event i e := by
  cases e with
  | worker j => exact ⟨.own, congrArg Ev.worker h⟩
  | timeout j => exact ⟨.clock, congrArg Ev.timeout h⟩
  | _ => cases h

omit [DecidableEq ι] in
theorem Mover.event_inj {m m' : Mover} (h : m.Event i e) (h' : m'.Event i e) : m = m' := by
  cases m <;> cases m' <;> first | rfl | (cases h; cases h')

variable {n : Nat} {x : Execution (system ι n)} {k : Nat} {r : Spot → Nat}

/-- Whoever has to move a worker can. -/
theorem Measure.enabled (h : Measure flag stopper r) (hi : i < (x.state k).created)
    (hflag : (x.state k)._tc.pausePoint.data.mPause = flag) (hr : r ((x.state k).spot i) ≠ 0) :
    ∃ e, ((x.state k).spot i).mover.Event i e ∧ GenericThreadPool.step (x.state k) e ≠ none := by
  obtain ⟨l, hinv⟩ := queueInv_at x k
  obtain ⟨hexited, hpause⟩ := h.awake hr
  -- a worker that waits for an element needs its clock, any other its own step
  by_cases hwaits : (x.state k).workers i = .pop ∧ (x.state k)._q.list.thr (.worker i) ≠ .out
  · have hin : ((x.state k)._q.list.thr (.worker i)).waiting.isSome = true := by
      rw [Option.isSome_iff_ne_none]
      exact Status.waiting_eq_none.not.mpr hwaits.2
    have hclock : ((x.state k).spot i).mover = .clock := by
      simp only [Spot.mover, spot, hwaits.1, hin]
    rw [hclock]
    exact ⟨.timeout i, rfl, hinv.timeout_enabled hi hwaits.1 hwaits.2⟩
  · have hout : (x.state k).workers i = .pop → (x.state k)._q.list.thr (.worker i) = .out := by
      intro hpc
      by_contra hin
      exact hwaits ⟨hpc, hin⟩
    have hown : ((x.state k).spot i).mover = .own := by
      cases hpc : (x.state k).workers i with
      | pop => simp only [Spot.mover, spot, hpc, Status.waiting_eq_none.mpr (hout hpc)]; rfl
      | _ => simp only [Spot.mover, spot, hpc]
    rw [hown]
    have hg := growth_of_reachable (reachable_at x k)
    refine ⟨.worker i, rfl, hinv.worker_enabled hi (fun hpc => ?_) hout
      (fun _ => advance_of_awake fun w => by simp [hg.fan.worker_out]) hexited⟩
    cases flag with
    | true =>
        have hnone := hpause hpc rfl
        have hout : (x.state k)._tc.pausePoint.thr (.worker i) = .out := by
          simpa [spot] using hnone
        exact advance_of_awake fun w => by simp [hout]
    | false =>
        obtain ⟨tc, hpass⟩ := passes_pause (reachable_at x k) hflag i
        simp [hpass]

/-- What a moment does to the measure. -/
theorem Measure.lt_or_stays {j : Nat} (h : Measure flag stopper r)
    (hflag : (x.state j)._tc.pausePoint.data.mPause = flag)
    (hstop : (x.state j)._tc._stopper = stopper) (he : x.event j = some e) :
    r ((x.state (j + 1)).spot i) < r ((x.state j).spot i) ∨
      r ((x.state (j + 1)).spot i) = r ((x.state j).spot i) ∧
        (r ((x.state j).spot i) = 0 ∨
          ((x.state (j + 1)).spot i).mover = ((x.state j).spot i).mover ∧
            ¬ ((x.state j).spot i).mover.Event i e) := by
  obtain ⟨l, hinv⟩ := queueInv_at x j
  -- a move of `i`, or a step of somebody else, who leaves its spot
  by_cases hof : e.IsOf i
  · obtain ⟨m, hm⟩ := Mover.exists_of_isOf hof
    have hmove := spotMove_of_step (reachable_at x j) hinv hflag hstop hm (x.step he)
    rcases h.move hmove with hlt | ⟨heq, hzero | ⟨hmover, hne⟩⟩
    · exact .inl hlt
    · exact .inr ⟨heq, .inl hzero⟩
    · exact .inr ⟨heq, .inr ⟨hmover, fun hm' => hne (Mover.event_inj hm hm')⟩⟩
  · have hsame := spot_of_other hinv hof (x.step he)
    right
    rw [hsame]
    exact ⟨rfl, .inr ⟨rfl, fun hm => hof (Mover.isOf hm)⟩⟩

/-- **A worker gets where every move brings it**, and stays there. -/
theorem Measure.eventually_zero (h : Measure flag stopper r)
    (hfair : ∀ m : Mover, x.WeaklyFair (m.Event i)) (hi : i < (x.state k).created)
    (hset : ∀ j, k ≤ j →
      (x.state j)._tc.pausePoint.data.mPause = flag ∧ (x.state j)._tc._stopper = stopper) :
    ∃ k', k ≤ k' ∧ ∀ j, k' ≤ j → r ((x.state j).spot i) = 0 := by
  -- it gets to zero by fairness, and no move leads up again
  have hcomes : ∃ k', k ≤ k' ∧ r ((x.state k').spot i) = 0 := by
    refine Execution.eventually_of_helpful (fun s => (s.spot i).mover) (fun s => r (s.spot i))
      hfair ?_ ?_
    · intro j hj hr
      exact h.enabled (Nat.lt_of_lt_of_le hi (created_mono x hj)) (hset j hj).1 hr
    · intro j e hj hr _ he
      rcases h.lt_or_stays (hset j hj).1 (hset j hj).2 he with hlt | ⟨heq, hzero | hmover⟩
      · exact .inl hlt
      · exact absurd hzero hr
      · exact .inr ⟨heq, hmover⟩
  obtain ⟨k', hk', hzero⟩ := hcomes
  refine ⟨k', hk', fun j hj => ?_⟩
  induction hj with
  | refl => exact hzero
  | @step j hj ih =>
      have hkj : k ≤ j := Nat.le_trans hk' hj
      cases he : x.event j with
      | none => rw [x.still he, ih]
      | some e =>
          rcases h.lt_or_stays (i := i) (hset j hkj).1 (hset j hkj).2 he with hlt | ⟨heq, -⟩
          · omega
          · rw [heq, ih]

end GenericThreadPool
end Fredlib
