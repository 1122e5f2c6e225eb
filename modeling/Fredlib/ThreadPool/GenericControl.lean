/-
  Fredlib.ThreadPool.GenericControl

  A `GenericThreadPool` driven by one controller is a crew.

  The pool projects onto the crew of its workers and its one client: every step
  of the pool is a step of the crew or leaves the crew alone.  What holds of
  every crew therefore holds of the pool: after `pause` no queued function runs
  until `resume` is called, and after `stop` none runs at all
  (`pause_and_stop_effective`).
-/

import Fredlib.Threading.CrewControl
import Fredlib.ThreadPool.GenericQueue

namespace Fredlib

open Lib Lib.Monitor ThreadControl

namespace GenericThreadPool

-- ============================================================================
-- The crew of a pool
-- ============================================================================

/-- Where a worker stands. -/
def WorkerPc.phase : WorkerPc → Crew.Phase
  | .pause => .checking
  | .exited => .finished
  | _ => .free

/-- How far the counters lag behind the workers created, in the loop over
    `_add_thread`. -/
def AddPc.ctl : AddPc → Crew.Ctl
  | .head => .adding 0 0
  | .announce .syncPoint => .adding (-1) (-1)
  | .announce .fanIn => .adding (-1) (-1)
  | .announce .pausePoint => .adding 0 (-1)

/-- What the controller is at. -/
def ClientPc.ctl : ClientPc → Crew.Ctl
  | .idle | .pushing _ => .idle
  | .constructing _ pc | .adding _ pc => pc.ctl
  | .pausing => .pausing
  | .resuming => .resuming
  | .stopNum | .stopSet => .stopping
  | .stopWait => .waiting
  | .join _ | .stopClear => .joining

/-- The crew of the pool. -/
def crew (s : GenericThreadPool Unit) : Crew where
  tc := s._tc
  created := s.created
  phase i := if i < s.created then (s.workers i).phase else .absent
  ctl := (s.clients ()).ctl

/-- What the crew can see a step of the pool as. -/
def Sees (s : GenericThreadPool Unit) (e : Ev Unit) : Crew.Ev → Prop
  | .begin .pausing => e = .call () .pause
  | .begin .resuming => e = .call () .resume
  | .begin .stopping => e = .call () .stop
  | .begin .waiting => False
  | .done i => e = .worker i ∧ s.workers i = .done
  | .create ph => ph = .checking
  | _ => True

variable {s s' : GenericThreadPool Unit} {e : Ev Unit} {i : Nat}

theorem crew_phase (hi : i < s.created) : s.crew.phase i = (s.workers i).phase := if_pos hi

theorem crew_setWorker {pc : WorkerPc} (hi : i < s.created) :
    (s.setWorker i pc).crew = s.crew.goto i pc.phase := by
  unfold crew Crew.goto setWorker
  congr 1
  funext j
  by_cases hji : j = i
  · subst hji
    simp [hi]
  · simp [hji]

theorem crew_setClient {pc : ClientPc} :
    (s.setClient () pc).crew = { s.crew with ctl := pc.ctl } := by
  unfold crew
  rw [setClient_self]
  rfl

/-- A worker that moves within its phase. -/
theorem crew_setWorker_same {pc : WorkerPc} (hi : i < s.created)
    (hpc : pc.phase = (s.workers i).phase) : (s.setWorker i pc).crew = s.crew := by
  rw [crew_setWorker hi, hpc, ← crew_phase hi]
  simp [Crew.goto]

/-- A worker that has got back to the top of its loop. -/
theorem crew_again {pc : WorkerPc} (hi : i < s.created) (hold : (s.workers i).phase = .free)
    (hnew : pc.phase = .checking) :
    Crew.step s.crew (.again i) = some (s.setWorker i pc).crew := by
  rw [crew_setWorker hi, hnew]
  simp only [Crew.step, crew_phase hi, hold]

/-- The steps of a worker, as the crew sees them. -/
theorem crew_worker (h : s.workerStep i = some s') :
    s'.crew = s.crew ∨ ∃ e', s.Sees (.worker i) e' ∧ Crew.step s.crew e' = some s'.crew := by
  obtain ⟨hi, hmove⟩ := workerMove_of_step h
  cases hmove with
  | @pause tc r hpc hadv =>
      refine .inr ⟨.check i, trivial, ?_⟩
      have hphase : s.crew.phase i = .checking := by rw [crew_phase hi, hpc]; rfl
      have hadv' : s.crew.tc.advance (.worker i) (.pause .pauseIfRequred) = some (tc, r) := hadv
      simp only [Crew.step, hphase, hadv', Option.map_some]
      rw [crew_setWorker (s := { s with _tc := tc }) hi]
      cases r <;> rfl
  -- the crew makes nothing of the stop flag: the worker stays free
  | check hpc =>
      refine .inl (crew_setWorker_same hi ?_)
      rw [hpc]
      split <;> rfl
  | @pop q r hpc hpop =>
      cases r with
      -- it sleeps, times out, or has got an element
      | none => exact .inl (crew_setWorker_same (s := { s with _q := q }) hi (by rw [hpc]; rfl))
      | some qe =>
          cases qe with
          | none => exact .inr ⟨.again i, trivial,
              crew_again (s := { s with _q := q }) hi (by rw [hpc]; rfl) rfl⟩
          | some qe =>
              exact .inl (crew_setWorker_same (s := { s with _q := q }) hi (by rw [hpc]; rfl))
  | run hpc => exact .inl (crew_setWorker_same hi (by rw [hpc]; rfl))
  | inside hpc => exact .inl (crew_setWorker_same hi (by rw [hpc]; rfl))
  | @delete qe e hpc he =>
      exact .inr ⟨.again i, trivial,
        crew_again (s := { s with elements := Function.update s.elements qe none }) hi
          (by rw [hpc]; rfl) rfl⟩
  | @done tc r hpc hadv =>
      refine .inr ⟨.done i, ⟨rfl, hpc⟩, ?_⟩
      have hphase : s.crew.phase i = .free := by rw [crew_phase hi, hpc]; rfl
      have hadv' : s.crew.tc.advance (.worker i) (.fanIn .done) = some (tc, r) := hadv
      simp only [Crew.step, hphase, hadv', Option.map_some]
      rw [crew_setWorker (s := { s with _tc := tc }) hi]
      rfl

theorem crew_timeout (h : s.timeoutStep i = some s') :
    s'.crew = s.crew ∨ ∃ e', s.Sees (.timeout i) e' ∧ Crew.step s.crew e' = some s'.crew := by
  obtain ⟨hi, hpc, q, r, -, rfl⟩ := timeoutStep_some h
  rcases r with - | - | qe
  · exact .inl (crew_setWorker_same (s := { s with _q := q }) hi (by rw [hpc]; rfl))
  · exact .inr ⟨.again i, trivial,
      crew_again (s := { s with _q := q }) hi (by rw [hpc]; rfl) rfl⟩
  · exact .inl (crew_setWorker_same (s := { s with _q := q }) hi (by rw [hpc]; rfl))

/-- A turn of the loop over `_add_thread`, as the crew sees it. -/
theorem crew_add {left : Nat} {pc pc' : AddPc} {left' : Nat} {s₁ : GenericThreadPool Unit}
    (hpc : (s.clients ()).ctl = pc.ctl) (h : AddMove s () left pc s₁ (some (left', pc'))) :
    ∃ e', (∀ e, s.Sees e e') ∧
      Crew.step s.crew e' = some { s₁.crew with ctl := pc'.ctl } := by
  have hctl : s.crew.ctl = pc.ctl := hpc
  cases h with
  | emplace =>
      -- `_vecThreads` and the workers grow before any base is told
      refine ⟨.create .checking, fun _ => rfl, ?_⟩
      have hctl' : s.crew.ctl = .adding 0 0 := hctl
      simp only [Crew.step, hctl', Option.some.injEq]
      unfold crew Crew.goto emplace setWorker
      congr 1
      funext j
      rcases Nat.lt_trichotomy j s.created with hlt | heq | hgt
      · have hne : j ≠ s.created := by omega
        simp [hne, hlt, Nat.lt_succ_of_lt hlt]
      · subst heq
        simp [WorkerPc.phase]
      · have hne : j ≠ s.created := by omega
        have hnot : ¬ j < s.created := by omega
        have hnot' : ¬ j < s.created + 1 := by omega
        simp [hne, hnot, hnot']
  | @announce _ b tc r hadv =>
      refine ⟨.announce b 1, fun _ => trivial, ?_⟩
      cases b <;> exact Crew.step_announce_eq hctl hadv rfl

/-- The end of the loop over `_add_thread`. -/
theorem crew_added {left : Nat} {pc : AddPc} {s₁ : GenericThreadPool Unit}
    (hpc : (s.clients ()).ctl = pc.ctl) (h : AddMove s () left pc s₁ none) :
    s₁ = s ∧ Crew.step s.crew .rest = some { s.crew with ctl := .idle } := by
  cases h with
  | finish => exact ⟨rfl, Crew.step_rest_eq hpc (.inl rfl)⟩

/-- A step of the controller between two places the crew cannot tell apart. -/
theorem crew_unmoved {pc pc' : ClientPc} (hpc : s.clients () = pc) (hctl : pc'.ctl = pc.ctl) :
    (s.setClient () pc').crew = s.crew := by
  rw [crew_setClient, hctl, ← hpc]
  rfl

/-- A step of the controller that the crew sees as `e'`. -/
theorem crew_moved {pc : ClientPc} {tc : ThreadControl (Tid Unit)} {e' : Crew.Ev}
    (hs : Crew.step s.crew e' = some { s.crew with tc := tc, ctl := pc.ctl }) :
    Crew.step s.crew e' = some ({ s with _tc := tc }.setClient () pc).crew := by
  rw [crew_setClient]
  exact hs

/-- A step inside `pause`. -/
theorem crew_pause {tc : ThreadControl (Tid Unit)} {r : Option Unit} (hpc : s.clients () = .pausing)
    (hadv : s._tc.advance (.client ()) (.pause .pause) = some (tc, r)) :
    Crew.step s.crew .pause =
      some ({ s with _tc := tc }.setClient () (if r.isSome then .idle else .pausing)).crew :=
  crew_moved (Crew.step_pause_eq (congrArg ClientPc.ctl hpc) hadv (by cases r <;> rfl))

/-- A step inside the wait of `stop`. -/
theorem crew_stopWait {tc : ThreadControl (Tid Unit)} {r : Option Unit}
    (hpc : s.clients () = .stopWait)
    (hadv : s._tc.advance (.client ()) (.fanIn .wait) = some (tc, r)) :
    Crew.step s.crew (.wait .joining) =
      some ({ s with _tc := tc }.setClient () (if r.isSome then .join 0 else .stopWait)).crew :=
  crew_moved (Crew.step_wait_eq (congrArg ClientPc.ctl hpc) hadv (.inl rfl) (by cases r <;> rfl))

/-- The steps of the controller, as the crew sees them. -/
theorem crew_client (h : s.clientStep () = some s') :
    s'.crew = s.crew ∨ ∃ e', s.Sees (.client ()) e' ∧ Crew.step s.crew e' = some s'.crew := by
  -- what the crew knows of a controller whose place is known
  have hctl : ∀ {pc}, s.clients () = pc → s.crew.ctl = pc.ctl := congrArg ClientPc.ctl
  cases clientMove_of_step h with
  | construct hpc hadd =>
      obtain ⟨e', hsees, hs⟩ := crew_add (by rw [hpc]; rfl) hadd
      exact .inr ⟨e', hsees _, by rw [crew_setClient]; exact hs⟩
  | built hpc hadd =>
      obtain ⟨rfl, hs⟩ := crew_added (by rw [hpc]; rfl) hadd
      exact .inr ⟨.rest, trivial, crew_moved hs⟩
  | add hpc hadd =>
      obtain ⟨e', hsees, hs⟩ := crew_add (by rw [hpc]; rfl) hadd
      exact .inr ⟨e', hsees _, by rw [crew_setClient]; exact hs⟩
  | added hpc hadd =>
      obtain ⟨rfl, hs⟩ := crew_added (by rw [hpc]; rfl) hadd
      exact .inr ⟨.rest, trivial, crew_moved hs⟩
  | push hpc hpush =>
      refine .inl ?_
      rw [crew_setClient]
      simp [crew, hpc, ClientPc.ctl]
  | pause hpc hadv => exact .inr ⟨.pause, trivial, crew_pause hpc hadv⟩
  | @resume tc r hpc hadv =>
      exact .inr ⟨.resume, trivial,
        crew_moved (Crew.step_resume_eq (hctl hpc) hadv (by cases r <;> rfl))⟩
  | stopNum hpc hmu =>
      -- `stop` of a pool without threads does nothing
      split
      · exact .inl (crew_unmoved hpc rfl)
      · exact .inr ⟨.rest, trivial,
          crew_moved (Crew.step_rest_eq (hctl hpc) (.inr (.inl rfl)))⟩
  | stopSet hpc =>
      exact .inr ⟨.requestStop, trivial, crew_moved (Crew.step_requestStop_eq (hctl hpc))⟩
  -- the wait over, `stop` goes on to join the threads
  | stopWait hpc hadv => exact .inr ⟨.wait .joining, trivial, crew_stopWait hpc hadv⟩
  | join hpc hj hexited => exact .inl (crew_unmoved hpc rfl)
  | joined hpc hj => exact .inl (crew_unmoved hpc rfl)
  | stopClear hpc hmu =>
      exact .inr ⟨.rest, trivial, crew_moved (Crew.step_rest_eq (hctl hpc) (.inr (.inr rfl)))⟩

/-- The calls of the controller, as the crew sees them. -/
theorem crew_call {op : Call} (h : s.callStep () op = some s') :
    s'.crew = s.crew ∨ ∃ e', s.Sees (.call () op) e' ∧ Crew.step s.crew e' = some s'.crew := by
  obtain ⟨-, hidle, hmove⟩ := callMove_of_step h
  have hctl : s.crew.ctl = .idle := by simp [crew, hidle, ClientPc.ctl]
  cases hmove with
  | pushFunction hfree =>
      refine .inl ?_
      rw [crew_setClient]
      simp [crew, hidle, ClientPc.ctl]
  | addThread hmu =>
      exact .inr ⟨.begin (.adding 0 0), trivial, crew_moved (Crew.step_begin_eq hctl (.inl rfl))⟩
  | pause =>
      exact .inr ⟨.begin .pausing, rfl, crew_moved (Crew.step_begin_eq hctl (by simp))⟩
  | resume =>
      exact .inr ⟨.begin .resuming, rfl, crew_moved (Crew.step_begin_eq hctl (by simp))⟩
  | stop =>
      exact .inr ⟨.begin .stopping, rfl, crew_moved (Crew.step_begin_eq hctl (by simp))⟩

/-- **The pool projects onto its crew.** -/
theorem projects (n : Nat) :
    System.Projects (system Unit n) Crew.system (fun _ _ => True) Sees crew where
  init := by
    rintro s ⟨c, heap, rfl⟩
    refine ⟨rfl, rfl, fun _ => rfl, ?_⟩
    simp [crew, initial, ClientPc.ctl, AddPc.ctl]
  step := by
    intro s e s' _ _ hs
    cases e with
    | call c op => exact crew_call hs
    | client c => exact crew_client hs
    | worker i => exact crew_worker hs
    | timeout i => exact crew_timeout hs
    | spuriousTc b t =>
        have hs' : (s._tc.spurious b t).map (fun tc => { s with _tc := tc }) = some s' := hs
        rw [Option.map_eq_some_iff] at hs'
        obtain ⟨tc, hsp, rfl⟩ := hs'
        refine .inr ⟨.spurious b t, trivial, ?_⟩
        have hsp' : s.crew.tc.spurious b t = some tc := hsp
        change Crew.step s.crew (.spurious b t) = _
        simp only [Crew.step, hsp', Option.map_some]
        rfl
    | spuriousQ t =>
        have hs' : (s._q.spurious t).map (fun q => { s with _q := q }) = some s' := hs
        rw [Option.map_eq_some_iff] at hs'
        obtain ⟨q, -, rfl⟩ := hs'
        exact .inl rfl

theorem inv_of_reachable {n : Nat} {ok : GenericThreadPool Unit → Ev Unit → Prop}
    (h : (system Unit n).ReachableBy ok s) : Crew.Inv s.crew :=
  have hcrew : Crew.system.Reachable s.crew :=
    (projects n).reachable (fun _ _ _ => trivial) (fun _ _ _ _ _ => trivial) h
  Crew.inv_of_reachable hcrew

-- ============================================================================
-- Once pause has returned
-- ============================================================================

theorem quiet_of_pause (h : Crew.Inv s.crew) (hpc : s.clients () = .pausing)
    (hs : s.clientStep () = some s') (hret : s'.clients () = .idle) : Crew.Quiet s'.crew := by
  cases clientMove_of_step hs with
  | pause hpc' hadv =>
      refine h.quiet_of_pause (crew_pause hpc hadv) ?_
      show ClientPc.ctl _ = _
      rw [hret]
      rfl
  | _ => simp_all

/-- Nobody runs a function in a quiet pool. -/
theorem not_inside_of_quiet (h : Crew.Quiet s.crew) : ¬ s.Inside i := by
  rintro ⟨hi, qe, hpc⟩
  have hphase := h.checking i hi
  rw [crew_phase hi, hpc] at hphase
  cases hphase

theorem quiet_run {n : Nat} {evs : List (Ev Unit)} (h : (system Unit n).Reachable s)
    (hq : Crew.Quiet s.crew)
    (hrun : (system Unit n).Run (fun _ e => e ≠ .call () .resume) s evs s') :
    Crew.Quiet s'.crew := by
  have hok : ∀ (s : GenericThreadPool Unit) e e', e ≠ .call () .resume → Sees s e e' →
      Crew.KeepsPause s.crew e' := by
    -- a pause is taken back by a call of `resume` only, and no worker is added free
    intro s e e' hres hsees
    constructor
    · rintro rfl
      exact hres hsees
    · rintro rfl
      cases hsees
  obtain ⟨evs', hrun'⟩ := (projects n).run (fun _ _ _ => trivial) hok h hrun
  exact hq.run (inv_of_reachable h) hrun'

-- ============================================================================
-- Once stop has returned
-- ============================================================================

/-- The log shows every worker that has exited done once, and the others not. -/
def DoneOnce (log : List Obs) (s : GenericThreadPool Unit) : Prop :=
  ∀ i, log.count (.done i) = if i < s.created ∧ s.workers i = .exited then 1 else 0

/-- All workers have exited and no new one will take a function. -/
structure Over (s : GenericThreadPool Unit) : Prop where
  stopped : s._tc._stopper = true
  exited : ∀ i, i < s.created → s.workers i = .exited

/-- The controller is past the constructor. -/
def Built (s : GenericThreadPool Unit) : Prop := ∀ left pc, s.clients () ≠ .constructing left pc

/-- What a call of `stop` relies on at each of its steps.  Once the pool is built,
    the vector is empty only after a `stop`. -/
structure StopInv (n : Nat) (s : GenericThreadPool Unit) : Prop where
  building : ∀ left pc, s.clients () = .constructing left pc → s._vecThreads.length + left = n
  waiting : s.clients () = .stopWait → s._tc._stopper = true
  joining : (∃ j, s.clients () = .join j) ∨ s.clients () = .stopClear → Over s
  cleared : Built s → s._vecThreads = [] → Over s

/-- A worker that is not in the part of its loop that takes functions. -/
def WorkerPc.Leaving (pc : WorkerPc) : Prop :=
  pc = .pause ∨ pc = .check ∨ pc = .done ∨ pc = .exited

/-- The pool has been stopped: whoever is left, or comes later, exits. -/
structure Stopped (s : GenericThreadPool Unit) : Prop where
  flag : s._tc._stopper = true
  leaving : ∀ i, i < s.created → (s.workers i).Leaving

theorem count_shows {qe : Addr} {o : Addr → Nat → Obs} (h : ∀ k, o qe k ≠ .done i) :
    (s.shows qe o).count (.done i) = 0 := by
  rw [List.count_eq_zero]
  intro hmem
  simp only [shows, Option.mem_toList, Option.map_eq_some_iff] at hmem
  obtain ⟨k, -, hk⟩ := hmem
  exact h k hk

theorem count_showsPop {j : Nat}
    {r : Option (IntrusiveSafeList (Tid Unit) × Option (Option Addr))} :
    (s.showsPop j r).count (.done i) = 0 := by
  -- a pop shows `popped` or nothing
  rcases r with - | ⟨q, - | - | qe⟩
  · rfl
  · rfl
  · rfl
  · exact count_shows fun k => by simp

namespace DoneOnce

variable {log obs : List Obs}

/-- A worker that does not exit. -/
theorem worker {pc : WorkerPc} (h : DoneOnce log s) (hold : s.workers i ≠ .exited)
    (hnew : pc ≠ .exited) (hobs : ∀ j, obs.count (.done j) = 0)
    (hworkers : s'.workers = Function.update s.workers i pc) (hcreated : s'.created = s.created) :
    DoneOnce (log ++ obs) s' := by
  intro j
  rw [List.count_append, hobs, Nat.add_zero, h j, hworkers, hcreated]
  by_cases hji : j = i
  · subst hji
    simp [hold, hnew]
  · simp [hji]

/-- A worker that exits. -/
theorem exit (h : DoneOnce log s) (hi : i < s.created) (hold : s.workers i ≠ .exited)
    (hworkers : s'.workers = Function.update s.workers i .exited)
    (hcreated : s'.created = s.created) : DoneOnce (log ++ [.done i]) s' := by
  intro j
  rw [List.count_append, h j, hworkers, hcreated]
  by_cases hji : j = i
  · subst hji
    simp [hold, hi]
  · have hne : ¬ i = j := fun heq => hji heq.symm
    simp [hji, hne]

/-- Nobody moves. -/
theorem grows (h : DoneOnce log s) (hgrows : Grows s s') (hobs : ∀ j, obs.count (.done j) = 0) :
    DoneOnce (log ++ obs) s' := by
  intro j
  rw [List.count_append, hobs, Nat.add_zero, h j]
  rcases hgrows with ⟨hcreated, hworkers⟩ | ⟨hcreated, hworkers⟩
  · rw [hcreated, hworkers]
  · rw [hcreated, hworkers]
    by_cases hj : j = s.created
    · subst hj
      simp
    · have hiff : j < s.created + 1 ↔ j < s.created := by omega
      simp [hj, hiff]

theorem step (h : DoneOnce log s) (hs : GenericThreadPool.step s e = some s') :
    DoneOnce (log ++ s.obs e) s' := by
  cases e with
  | call c op =>
      obtain ⟨hcreated, hworkers, -⟩ := callStep_frame hs
      exact h.grows (.inl ⟨hcreated, hworkers⟩) fun j => rfl
  | client c =>
      refine h.grows (clientStep_frame hs).1 fun j => ?_
      simp only [GenericThreadPool.obs]
      split
      · exact count_shows fun k => by simp
      · rfl
  | timeout i =>
      obtain ⟨hi, hpc, q, r, -, rfl⟩ := timeoutStep_some hs
      exact h.worker (by simp [hpc]) (by rcases r with - | - | qe <;> simp [afterPop])
        (fun j => count_showsPop) rfl rfl
  | worker i =>
      obtain ⟨hi, hmove⟩ := workerMove_of_step hs
      cases hmove with
      -- the one step that shows it
      | done hpc hadv =>
          simp only [GenericThreadPool.obs, hpc]
          exact h.exit hi (by simp [hpc]) rfl rfl
      | @pause tc r hpc hadv =>
          simp only [GenericThreadPool.obs, hpc]
          exact h.worker (by simp [hpc]) (by cases r <;> simp) (fun j => rfl) rfl rfl
      | check hpc =>
          simp only [GenericThreadPool.obs, hpc]
          exact h.worker (by simp [hpc]) (by split <;> simp) (fun j => rfl) rfl rfl
      | @pop q r hpc hpop =>
          simp only [GenericThreadPool.obs, hpc]
          exact h.worker (by simp [hpc]) (by rcases r with - | - | qe <;> simp [afterPop])
            (fun j => count_showsPop) rfl rfl
      | run hpc =>
          simp only [GenericThreadPool.obs, hpc]
          exact h.worker (by simp [hpc]) (by simp) (fun j => count_shows fun k => by simp) rfl rfl
      | inside hpc =>
          simp only [GenericThreadPool.obs, hpc]
          exact h.worker (by simp [hpc]) (by simp) (fun j => count_shows fun k => by simp) rfl rfl
      | delete hpc =>
          simp only [GenericThreadPool.obs, hpc]
          exact h.worker (by simp [hpc]) (by simp) (fun j => count_shows fun k => by simp) rfl rfl
  | spuriousTc b t =>
      simp only [GenericThreadPool.step, Option.map_eq_some_iff] at hs
      obtain ⟨tc, -, rfl⟩ := hs
      exact h.grows (.inl ⟨rfl, rfl⟩) fun j => rfl
  | spuriousQ t =>
      simp only [GenericThreadPool.step, Option.map_eq_some_iff] at hs
      obtain ⟨q, -, rfl⟩ := hs
      exact h.grows (.inl ⟨rfl, rfl⟩) fun j => rfl

end DoneOnce

theorem doneOnce_of_traced {n : Nat} {log : List Obs} {ok : GenericThreadPool Unit → Ev Unit → Prop}
    (h : (system Unit n).Traced ok obs log s) : DoneOnce log s := by
  refine h.invariant (P := DoneOnce) ?_ ?_
  · rintro s ⟨c, heap, rfl⟩ i
    rfl
  · intro log s e s' _ hdone _ hs
    exact hdone.step hs

namespace Over

/-- No step of a worker is left. -/
theorem no_worker (h : Over s) : s.workerStep i ≠ some s' := by
  intro hs
  obtain ⟨hi, hmove⟩ := workerMove_of_step hs
  have hexited := h.exited i hi
  cases hmove <;> simp_all

theorem same (h : Over s) (hcreated : s'.created = s.created) (hworkers : s'.workers = s.workers)
    (hflag : s._tc._stopper = true → s'._tc._stopper = true) : Over s' := by
  refine ⟨hflag h.stopped, fun i hi => ?_⟩
  rw [hworkers]
  rw [hcreated] at hi
  exact h.exited i hi

theorem toStopped (h : Over s) : Stopped s :=
  ⟨h.stopped, fun i hi => .inr (.inr (.inr (h.exited i hi)))⟩

end Over

namespace Stopped

theorem grows (h : Stopped s) (hgrows : Grows s s')
    (hflag : s._tc._stopper = true → s'._tc._stopper = true) : Stopped s' := by
  refine ⟨hflag h.flag, fun i hi => ?_⟩
  rcases hgrows with ⟨hcreated, hworkers⟩ | ⟨hcreated, hworkers⟩
  · rw [hworkers]
    exact h.leaving i (by omega)
  · rw [hworkers]
    by_cases hic : i = s.created
    · subst hic
      rw [Function.update_self]
      exact .inl rfl
    · rw [Function.update_of_ne hic]
      exact h.leaving i (by omega)

/-- A worker moves on, in the part of its loop that takes no functions. -/
theorem worker {pc : WorkerPc} (h : Stopped s) (hpc : pc.Leaving)
    (hworkers : s'.workers = Function.update s.workers i pc) (hcreated : s'.created = s.created)
    (hflag : s'._tc._stopper = s._tc._stopper) : Stopped s' := by
  refine ⟨hflag.trans h.flag, fun j hj => ?_⟩
  rw [hworkers]
  by_cases hji : j = i
  · subst hji
    rwa [Function.update_self]
  · rw [Function.update_of_ne hji]
    exact h.leaving j (by omega)

theorem step (h : Stopped s) (hs : GenericThreadPool.step s e = some s') : Stopped s' := by
  rcases step_frame hs with ⟨hgrows, hflag⟩ | ⟨i, hi, hstep | hpc, -⟩
  · exact h.grows hgrows hflag
  · obtain ⟨-, hmove⟩ := workerMove_of_step hstep
    have hleaving := h.leaving i hi
    cases hmove with
    | @pause tc r hpc hadv =>
        refine h.worker ?_ rfl rfl (advance_stopper hadv)
        cases r with
        | none => exact .inl rfl
        | some u => exact .inr (.inl rfl)
    -- the flag is set, so the worker leaves its loop here
    | check hpc =>
        refine h.worker ?_ rfl rfl rfl
        simp [stopRequired, h.flag, WorkerPc.Leaving]
    | done hpc hadv =>
        exact h.worker (.inr (.inr (.inr rfl))) rfl rfl (advance_stopper hadv)
    -- nobody is at the steps that take a function
    | pop hpc => simp [WorkerPc.Leaving, hpc] at hleaving
    | run hpc => simp [WorkerPc.Leaving, hpc] at hleaving
    | inside hpc => simp [WorkerPc.Leaving, hpc] at hleaving
    | delete hpc => simp [WorkerPc.Leaving, hpc] at hleaving
  · have hleaving := h.leaving i hi
    simp [WorkerPc.Leaving, hpc] at hleaving

theorem run {n : Nat} {ok : GenericThreadPool Unit → Ev Unit → Prop} {evs : List (Ev Unit)}
    (h : Stopped s) (hrun : (system Unit n).Run ok s evs s') : Stopped s' :=
  hrun.invariant (P := Stopped) h fun _ _ _ hstopped _ hs => hstopped.step hs

theorem not_inside (h : Stopped s) : ¬ s.Inside i := by
  rintro ⟨hi, qe, hpc⟩
  have hleaving := h.leaving i hi
  simp [WorkerPc.Leaving, hpc] at hleaving

end Stopped

namespace StopInv

variable {n : Nat}

/-- A step that leaves the controller and the vector alone. -/
theorem frame (h : StopInv n s) (hclients : s'.clients = s.clients)
    (hvec : s'._vecThreads = s._vecThreads)
    (hflag : s._tc._stopper = true → s'._tc._stopper = true) (hover : Over s → Over s') :
    StopInv n s' := by
  refine ⟨?_, ?_, ?_, ?_⟩
  · rw [hclients, hvec]
    exact h.building
  · rw [hclients]
    exact fun hpc => hflag (h.waiting hpc)
  · rw [hclients]
    exact fun hpc => hover (h.joining hpc)
  · rw [Built, hclients, hvec]
    exact fun hb hv => hover (h.cleared hb hv)

/-- The controller moves on to `pc`. -/
theorem of_controller_at {pc : ClientPc} (h : StopInv n s) (hbuilt : Built s)
    (hpc : s'.clients () = pc)
    (hbuilding : ∀ left p, pc ≠ .constructing left p)
    (hwaiting : pc = .stopWait → s'._tc._stopper = true)
    (hjoining : (∃ j, pc = .join j) ∨ pc = .stopClear → Over s')
    (hvec : s'._vecThreads = s._vecThreads)
    (hover : Over s → Over s') : StopInv n s' := by
  refine ⟨?_, ?_, ?_, ?_⟩
  · intro left p hpc'
    exact absurd (hpc.symm.trans hpc') (hbuilding left p)
  · rw [hpc]
    exact hwaiting
  · rw [hpc]
    exact hjoining
  · rw [hvec]
    exact fun _ hv => hover (h.cleared hbuilt hv)

/-- A turn of the loop over `_add_thread` keeps what an empty vector says. -/
theorem add_cleared {left left' : Nat} {pc pc' : AddPc} (h : StopInv n s)
    (hadd : AddMove s () left pc s' (some (left', pc'))) :
    s'._vecThreads.length + left' = s._vecThreads.length + left ∧
      (Built s → s'._vecThreads = [] → Over s') := by
  cases hadd with
  | emplace =>
      refine ⟨?_, fun _ hvec => by simp [emplace, setWorker] at hvec⟩
      simp only [emplace, setWorker, List.length_append, List.length_singleton]
      omega
  | announce hadv =>
      exact ⟨rfl, fun hb hv => (h.cleared hb hv).same rfl rfl (advance_stopper hadv).trans⟩

/-- When the wait of `stop` returns, every worker has exited. -/
theorem over_of_wait {tc : ThreadControl (Tid Unit)} {r : Option Unit} (h : StopInv n s)
    (hcrew : Crew.Inv s.crew) (hpc : s.clients () = .stopWait)
    (hadv : s._tc.advance (.client ()) (.fanIn .wait) = some (tc, r)) (hr : r.isSome = true) :
    Over ({ s with _tc := tc }.setClient () (if r.isSome then .join 0 else .stopWait)) := by
  refine ⟨(advance_stopper hadv).trans (h.waiting hpc), fun i hi => ?_⟩
  -- what the crew says of the return of a wait
  have hstep := crew_stopWait hpc hadv
  have hret : ({ s with _tc := tc }.setClient ()
      (if r.isSome then .join 0 else .stopWait)).crew.ctl ≠ .waiting := by
    simp [crew, hr, ClientPc.ctl]
  have hphase := hcrew.finished_of_wait hstep hret i hi
  rw [crew_phase hi] at hphase
  cases hw : s.workers i <;> simp_all [WorkerPc.phase, setClient]

theorem client (h : StopInv n s) (hcrew : Crew.Inv s.crew) (hn : 1 ≤ n)
    (hs : s.clientStep () = some s') : StopInv n s' := by
  cases clientMove_of_step hs with
  | construct hpc hadd =>
      -- each thread appended to the vector is one less left to construct
      obtain ⟨hlen, -⟩ := h.add_cleared hadd
      have hold := h.building _ _ hpc
      refine ⟨?_, by simp, by simp, fun hb _ => absurd setClient_self (hb _ _)⟩
      intro left' pc' hpc'
      rw [setClient_self] at hpc'
      cases hpc'
      exact hlen.trans hold
  | built hpc hadd =>
      have hold := h.building _ _ hpc
      cases hadd with
      | finish =>
          -- a vector of `n ≥ 1` threads is not empty
          refine ⟨by simp, by simp, by simp, fun _ hv => ?_⟩
          have hnil : s._vecThreads = [] := hv
          rw [hnil] at hold
          simp only [List.length_nil] at hold
          omega
  | add hpc hadd =>
      obtain ⟨-, hcleared⟩ := h.add_cleared hadd
      exact ⟨by simp, by simp, by simp,
        fun _ hv => (hcleared (by simp [Built, hpc]) hv).same rfl rfl id⟩
  | added hpc hadd =>
      cases hadd with
      | finish =>
          exact h.of_controller_at (by simp [Built, hpc]) setClient_self (by simp) (by simp)
            (by simp) rfl fun hover => hover.same rfl rfl id
  | push hpc hpush =>
      exact h.of_controller_at (by simp [Built, hpc]) setClient_self (by simp) (by simp) (by simp)
        rfl fun hover => hover.same rfl rfl id
  | @pause tc r hpc hadv =>
      exact h.of_controller_at (by simp [Built, hpc]) setClient_self (by cases r <;> simp)
        (by cases r <;> simp) (by cases r <;> simp) rfl
        fun hover => hover.same rfl rfl (advance_stopper hadv).trans
  | @resume tc r hpc hadv =>
      exact h.of_controller_at (by simp [Built, hpc]) setClient_self (by cases r <;> simp)
        (by cases r <;> simp) (by cases r <;> simp) rfl
        fun hover => hover.same rfl rfl (advance_stopper hadv).trans
  | stopNum hpc hmu =>
      exact h.of_controller_at (by simp [Built, hpc]) setClient_self (by split <;> simp)
        (by split <;> simp) (by split <;> simp) rfl fun hover => hover.same rfl rfl id
  | stopSet hpc =>
      exact h.of_controller_at (by simp [Built, hpc]) setClient_self (by simp) (fun _ => rfl)
        (by simp) rfl fun hover => hover.same rfl rfl fun _ => rfl
  | @stopWait tc r hpc hadv =>
      -- the only way to the joins is the return of the wait
      have hflag := (advance_stopper hadv).trans (h.waiting hpc)
      refine h.of_controller_at (by simp [Built, hpc]) setClient_self (by cases r <;> simp)
        (fun _ => hflag) (fun hor => ?_) rfl fun hover => hover.same rfl rfl fun _ => hflag
      refine h.over_of_wait hcrew hpc hadv ?_
      cases r with
      | none => simp at hor
      | some u => rfl
  | @join j i hpc hj hexited =>
      exact h.of_controller_at (by simp [Built, hpc]) setClient_self (by simp) (by simp)
        (fun _ => (h.joining (.inl ⟨j, hpc⟩)).same rfl rfl id) rfl
        fun hover => hover.same rfl rfl id
  | @joined j hpc hj =>
      exact h.of_controller_at (by simp [Built, hpc]) setClient_self (by simp) (by simp)
        (fun _ => (h.joining (.inl ⟨j, hpc⟩)).same rfl rfl id) rfl
        fun hover => hover.same rfl rfl id
  | stopClear hpc hmu =>
      exact ⟨by simp, by simp, by simp, fun _ _ => (h.joining (.inr hpc)).same rfl rfl id⟩

theorem step (h : StopInv n s) (hcrew : Crew.Inv s.crew) (hn : 1 ≤ n)
    (hs : GenericThreadPool.step s e = some s') : StopInv n s' := by
  cases e with
  | call c op =>
      obtain ⟨hcreated, hworkers, hvec, htc⟩ := callStep_frame hs
      have hover : Over s → Over s' := fun hover =>
        hover.same hcreated hworkers fun hflag => by rw [htc, hflag]
      obtain ⟨-, hidle, hmove⟩ := callMove_of_step hs
      have hbuilt : Built s := by simp [Built, hidle]
      cases hmove <;>
        exact h.of_controller_at hbuilt setClient_self (by simp) (by simp) (by simp) hvec hover
  | client c => exact h.client hcrew hn hs
  | worker i =>
      obtain ⟨-, -, hvec, hflag, hclients⟩ := workerStep_frame hs
      exact h.frame hclients hvec hflag.trans fun hover => absurd hs hover.no_worker
  | timeout i =>
      obtain ⟨hi, hpc, q, r, -, rfl⟩ := timeoutStep_some hs
      -- a worker that sleeps in the queue has not exited
      refine h.frame rfl rfl id fun hover => ?_
      have hexited := hover.exited i hi
      simp [hpc] at hexited
  | spuriousTc b t =>
      simp only [GenericThreadPool.step, Option.map_eq_some_iff] at hs
      obtain ⟨tc, hsp, rfl⟩ := hs
      have hflag : s._tc._stopper = true → tc._stopper = true := (spurious_stopper hsp).trans
      exact h.frame rfl rfl hflag fun hover => hover.same rfl rfl hflag
  | spuriousQ t =>
      simp only [GenericThreadPool.step, Option.map_eq_some_iff] at hs
      obtain ⟨q, -, rfl⟩ := hs
      exact h.frame rfl rfl id fun hover => hover.same rfl rfl id

end StopInv

theorem stopInv_of_reachable {n : Nat} {ok : GenericThreadPool Unit → Ev Unit → Prop} (hn : 1 ≤ n)
    (h : (system Unit n).ReachableBy ok s) : StopInv n s := by
  refine h.invariant ?_ ?_
  · rintro s ⟨c, heap, rfl⟩
    refine ⟨?_, ?_, ?_, ?_⟩
    · intro left pc hpc
      simp only [initial, Function.update_self, ClientPc.constructing.injEq] at hpc
      simp [initial, hpc.1]
    · simp [initial]
    · simp [initial]
    · exact fun hbuilt _ => absurd (by simp [initial]) (hbuilt n .head)
  · intro s e s' hreach hinv _ hs
    exact hinv.step (inv_of_reachable hreach) hn hs

/-- When `stop` returns all is over. -/
theorem StopInv.over_of_return {n : Nat} (h : StopInv n s)
    (hs : s.clientStep () = some s')
    (hpc : s.clients () = .stopNum ∨ s.clients () = .stopClear) (hret : s'.clients () = .idle) :
    Over s' := by
  cases clientMove_of_step hs with
  | stopNum hpc' hmu =>
      -- `stop` of an empty vector: somebody has stopped the pool before
      have hvec : s._vecThreads = [] := by
        rw [setClient_self] at hret
        split at hret
        · cases hret
        · rename_i hlen
          exact List.length_eq_zero_iff.mp (by omega)
      exact (h.cleared (by simp [Built, hpc']) hvec).same rfl rfl id
  | stopClear hpc' hmu => exact (h.joining (.inr hpc')).same rfl rfl id
  | _ => simp_all

/-- **`pause` and `stop` are effective.**  One controller drives a pool of at
    least one worker.  From the return of its `pause` to its next `resume` no
    worker is inside a queued function.  When its `stop` returns every worker
    ever started has called `done` once and exited, and no worker is inside a
    queued function at any time after. -/
theorem pause_and_stop_effective {n : Nat} (hn : 1 ≤ n) {log : List Obs}
    (h : (system Unit n).Traced (fun _ _ => True) obs log s)
    (hs : (system Unit n).step s (.client ()) = some s') (hret : s'.clients () = .idle) :
    (s.clients () = .pausing → ∀ evs s₂,
      (system Unit n).Run (fun _ e => e ≠ .call () .resume) s' evs s₂ → ∀ i, ¬ s₂.Inside i) ∧
    (s.clients () = .stopNum ∨ s.clients () = .stopClear →
      (∀ i, i < s'.created → s'.workers i = .exited ∧ log.count (.done i) = 1) ∧
      ∀ evs s₂, (system Unit n).Run (fun _ _ => True) s' evs s₂ → ∀ i, ¬ s₂.Inside i) := by
  have hcrew := inv_of_reachable h.reachable
  have hreach := h.reachable.step _ trivial hs
  constructor
  · intro hpc evs s₂ hrun i
    have hquiet := quiet_of_pause hcrew hpc hs hret
    exact not_inside_of_quiet (quiet_run hreach hquiet hrun)
  · intro hpc
    have hover := (stopInv_of_reachable hn h.reachable).over_of_return hs hpc hret
    refine ⟨fun i hi => ⟨hover.exited i hi, ?_⟩, fun evs s₂ hrun i => ?_⟩
    · -- the last step of `stop` shows nothing, so the log is that of the return
      have hnone : s.obs (.client ()) = [] := by
        rcases hpc with hpc | hpc <;> simp [obs, hpc]
      have hlog := h.step (e := .client ()) trivial hs
      rw [hnone, List.append_nil] at hlog
      rw [doneOnce_of_traced hlog i, if_pos ⟨hi, hover.exited i hi⟩]
    · exact (hover.toStopped.run hrun).not_inside

/-- One worker is paused, after which nothing runs. -/
theorem pause_and_stop_effective_paused :
    ∃ s s' : GenericThreadPool Unit, (system Unit 1).Reachable s ∧ s.clients () = .pausing ∧
      (system Unit 1).step s (.client ()) = some s' ∧ ∀ evs s₂,
      (system Unit 1).Run (fun _ e => e ≠ .call () .resume) s' evs s₂ → ∀ i, ¬ s₂.Inside i := by
  have hinit : (system Unit 1).init (initial () 1 fun _ => ListHook.unlinked) := ⟨(), _, rfl⟩
  have hrun : ∃ s s', (system Unit 1).Traced (fun _ _ => True) obs [] s ∧
      s.clients () = .pausing ∧ (system Unit 1).step s (.client ()) = some s' ∧
      s'.clients () = .idle :=
    ⟨_, _, ((((((((System.Traced.init hinit).step (e := .client ()) trivial rfl).step
      (e := .client ()) trivial rfl).step
      (e := .client ()) trivial rfl).step
      (e := .client ()) trivial rfl).step
      (e := .client ()) trivial rfl).step
      (e := .call () .pause) trivial rfl).step
      (e := .client ()) trivial rfl).step
      (e := .worker 0) trivial rfl, rfl, rfl, rfl⟩
  obtain ⟨s, s', hs, hpc, hstep, hret⟩ := hrun
  exact ⟨s, s', hs.reachable, hpc, hstep,
    (pause_and_stop_effective (Nat.le_refl 1) hs hstep hret).1 hpc⟩

end GenericThreadPool
end Fredlib
