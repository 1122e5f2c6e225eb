/-
  Fredlib.ThreadPool.NumThreads

  What `get_numthreads` of a `GenericThreadPool` says under one controller.

  `stop` sets a flag that nothing clears.  As long as `add_thread` is not asked
  for workers after that, `get_numthreads` is the number of workers that are in
  their loop whenever no `stop` is in progress, and a pool that reports threads
  has one that gets back to the queue by itself (`numthreads_eq`).
-/

import Fredlib.ThreadPool.Controller
import Fredlib.ThreadPool.GenericQueue

namespace Fredlib

open Lib Lib.Monitor ThreadControl

namespace GenericThreadPool

variable {ι : Type*} [DecidableEq ι]

/-- `get_numthreads`, once it has the mutex. -/
def getNumthreads (s : GenericThreadPool ι) : Nat := s._vecThreads.length

/-- The workers that have been created and have not left their loop. -/
def looping (s : GenericThreadPool ι) : Finset Nat :=
  (Finset.range s.created).filter fun i => s.workers i ≠ .done ∧ s.workers i ≠ .exited

/-- `add_thread` is asked for workers only while the stop flag is down. -/
def Unstopped (s : GenericThreadPool ι) (e : Ev ι) : Prop :=
  ∀ c k, e = .call c (.addThread k) → 0 < k → s._tc._stopper = false

/-- With the flag up, `stop` is on, or the vector is empty and stays so. -/
def Emptied (p : ι) (s : GenericThreadPool ι) : Prop :=
  s._tc._stopper = true → (s.clients p).Stops ∨
    (s._vecThreads = [] ∧
      ∀ c left pc, (s.clients c).loop = some (left, pc) → left = 0 ∧ pc = .head)

variable {s s' : GenericThreadPool ι} {i : Nat} {c p : ι} {e : Ev ι}

namespace Emptied

/-- A client that is neither stopping nor in the loop takes a step. -/
theorem of_other_call {pc pc' : ClientPc} (h : Emptied p s) (hpc : s.clients c = pc)
    (hstops : ¬ pc.Stops)
    (hloop : ∀ left q, pc'.loop = some (left, q) → s._tc._stopper = true → left = 0 ∧ q = .head)
    (hclients : s'.clients = Function.update s.clients c pc')
    (hvec : s'._vecThreads = s._vecThreads) (hflag : s'._tc._stopper = s._tc._stopper) :
    Emptied p s' := by
  intro hf
  rw [hflag] at hf
  rcases h hf with hp | ⟨hnil, hloops⟩
  · left
    have hcp : p ≠ c := by
      rintro rfl
      rw [hpc] at hp
      exact hstops hp
    rwa [hclients, Function.update_of_ne hcp]
  · right
    refine ⟨by rw [hvec, hnil], fun d left q hd => ?_⟩
    rw [hclients] at hd
    by_cases hdc : d = c
    · rw [hdc, Function.update_self] at hd
      exact hloop left q hd hf
    · rw [Function.update_of_ne hdc] at hd
      exact hloops d left q hd

omit [DecidableEq ι] in
theorem of_stops (h : (s.clients p).Stops) : Emptied p s := fun _ => .inl h

omit [DecidableEq ι] in
theorem same (h : Emptied p s) (hclients : s'.clients = s.clients)
    (hvec : s'._vecThreads = s._vecThreads) (hflag : s'._tc._stopper = s._tc._stopper) :
    Emptied p s' := by
  rw [Emptied, hclients, hvec, hflag]
  exact h

/-- A turn of the loop over `_add_thread`: with the flag up only its end is left. -/
theorem add {left : Nat} {pc : AddPc} {q q' : ClientPc} {s₁ : GenericThreadPool ι}
    {r : Option (Nat × AddPc)} (h : Emptied p s) (hp : ¬ (s.clients p).Stops)
    (hpc : s.clients c = q) (hq : q.loop = some (left, pc)) (hadd : AddMove s c left pc s₁ r)
    (hq' : q'.loop = r) : Emptied p (s₁.setClient c q') := by
  intro hf
  have hold : s._tc._stopper = true := (addMove_frame hadd).2.symm.trans hf
  rcases h hold with hstops | ⟨hnil, hloops⟩
  · exact absurd hstops hp
  · obtain ⟨rfl, rfl⟩ := hloops c left pc (by rw [hpc, hq])
    -- at `.head` with nothing left the loop can only end
    cases hadd with
    | finish =>
        have hstops : ¬ q.Stops := by
          cases q <;> first | exact id | cases hq
        exact h.of_other_call hpc hstops (by simp [hq']) rfl rfl rfl hf

theorem client (h : Emptied p s) (hg : Growth s) (hc : Course p s)
    (hs : s.clientStep c = some s') : Emptied p s' := by
  -- whoever does anything but `push_function` is the controller
  have hcontroller : ∀ {pc}, s.clients c = pc → ¬ pc.Pushes → c = p := by
    rintro pc rfl hpush
    by_contra hcp
    exact hpush (hc.others c hcp)
  have hbuilding : ∀ {left pc}, s.clients c = .constructing left pc →
      ¬ (s.clients p).Stops := by
    intro left pc hpc
    by_cases hpc' : p = c
    · rw [hpc', hpc]
      exact id
    · rw [(hg.adders.building c left pc hpc).2 p hpc']
      exact id
  have hadding : ∀ {left pc}, s.clients c = .adding left pc → ¬ (s.clients p).Stops := by
    intro left pc hpc
    rw [← hcontroller hpc id, hpc]
    exact id
  cases clientMove_of_step hs with
  | construct hpc hadd => exact h.add (hbuilding hpc) hpc rfl hadd rfl
  | @built _ _ s₁ hpc hadd =>
      have hidle : Emptied p (s₁.setClient c .idle) := h.add (hbuilding hpc) hpc rfl hadd rfl
      exact hidle.same rfl rfl rfl
  | add hpc hadd => exact h.add (hadding hpc) hpc rfl hadd rfl
  | @added _ _ s₁ hpc hadd =>
      have hidle : Emptied p (s₁.setClient c .idle) := h.add (hadding hpc) hpc rfl hadd rfl
      exact hidle.same rfl rfl rfl
  | push hpc => exact h.of_other_call hpc id (by simp [ClientPc.loop]) rfl rfl rfl
  | @pause tc r hpc hadv =>
      exact h.of_other_call hpc id (by cases r <;> simp [ClientPc.loop]) rfl rfl
        (advance_stopper hadv)
  | @resume tc r hpc hadv =>
      exact h.of_other_call hpc id (by cases r <;> simp [ClientPc.loop]) rfl rfl
        (advance_stopper hadv)
  | stopNum hpc hmu =>
      exact h.of_other_call hpc id (by split <;> simp [ClientPc.loop]) rfl rfl rfl
  | stopSet hpc =>
      obtain rfl := hcontroller hpc id
      exact of_stops (by simp [ClientPc.Stops])
  | @stopWait tc r hpc hadv =>
      obtain rfl := hcontroller hpc id
      exact of_stops (by cases r <;> simp [ClientPc.Stops])
  | join hpc =>
      obtain rfl := hcontroller hpc id
      exact of_stops (by simp [ClientPc.Stops])
  | joined hpc =>
      obtain rfl := hcontroller hpc id
      exact of_stops (by simp [ClientPc.Stops])
  | stopClear hpc =>
      have hcp := hcontroller hpc id
      subst hcp
      intro _
      refine .inr ⟨rfl, fun d left pc hd => ?_⟩
      -- with the controller here nobody is in the loop
      have halone := hc.alone hg.adders (by simp [hpc])
      rw [alone_update halone rfl d ?_] at hd
      · cases hd
      · rintro rfl
        rw [setClient_self] at hd
        cases hd

theorem step (h : Emptied p s) (hg : Growth s) (hc : Course p s) (hok : Unstopped s e)
    (hs : GenericThreadPool.step s e = some s') : Emptied p s' := by
  cases e with
  | call c op =>
      obtain ⟨-, hidle, hmove⟩ := callMove_of_step hs
      cases hmove with
      | @addThread k hmu =>
          refine h.of_other_call hidle id (fun left q hq hf => ?_) rfl rfl rfl
          cases hq
          -- here `Unstopped` is needed: the flag is up, so no worker was asked for
          refine ⟨?_, rfl⟩
          by_contra hk
          rw [hok c k rfl (by omega)] at hf
          cases hf
      | _ => exact h.of_other_call hidle id (by simp [ClientPc.loop]) rfl rfl rfl
  | client c => exact h.client hg hc hs
  | worker i =>
      obtain ⟨-, -, hvec, hflag, hclients⟩ := workerStep_frame hs
      exact h.same hclients hvec hflag
  | timeout i =>
      obtain ⟨-, -, q, r, -, rfl⟩ := timeoutStep_some hs
      exact h.same rfl rfl rfl
  | spuriousTc b t =>
      simp only [GenericThreadPool.step, Option.map_eq_some_iff] at hs
      obtain ⟨tc, hsp, rfl⟩ := hs
      exact h.same rfl rfl (spurious_stopper hsp)
  | spuriousQ t =>
      simp only [GenericThreadPool.step, Option.map_eq_some_iff] at hs
      obtain ⟨q, -, rfl⟩ := hs
      exact h.same rfl rfl rfl

end Emptied

theorem emptied_of_reachable {n : Nat}
    (h : (system ι n).ReachableBy (fun s e => Controlled p e ∧ Unstopped s e) s) :
    Emptied p s := by
  refine h.invariant ?_ fun s e s' hreach hemptied hok hs => hemptied.step
    (growth_of_reachable hreach) (course_of_reachable (fun _ _ hok => hok.1) hreach) hok.2 hs
  rintro s ⟨c, heap, rfl⟩ hf
  cases hf

-- ============================================================================
-- Back to the queue
-- ============================================================================

/-- By its own steps the worker `i` gets to its `pop_front`. -/
def GetsToPop (n : Nat) (s : GenericThreadPool ι) (i : Nat) : Prop :=
  ∃ evs s', (∀ e ∈ evs, e = .worker i) ∧ (system ι n).Run (fun _ _ => True) s evs s' ∧
    s'.workers i = .pop

/-- Nothing keeps the worker `i` from its `pop_front`. -/
structure Unhindered (s : GenericThreadPool ι) (i : Nat) : Prop where
  created : i < s.created
  stopper : s._tc._stopper = false
  pause : s._tc.pausePoint.data.mPause = false
  awake : s._tc.pausePoint.thr (.worker i) ≠ .asleep .resumed
  resumed : ∀ w, (s._tc.pausePoint.thr (.worker i)).waiting = some w → w = .resumed

theorem GetsToPop.step {n : Nat} (h : GetsToPop n s' i) (hs : s.workerStep i = some s') :
    GetsToPop n s i := by
  obtain ⟨evs, s₂, hevs, hrun, hpop⟩ := h
  refine ⟨.worker i :: evs, s₂, fun e he => ?_, .cons trivial hs hrun, hpop⟩
  rcases List.mem_cons.mp he with rfl | he
  · rfl
  · exact hevs e he

namespace Unhindered

variable {n : Nat}

omit [DecidableEq ι] in
theorem of_setWorker {pc : WorkerPc} (h : Unhindered s i) : Unhindered (s.setWorker i pc) i :=
  ⟨h.created, h.stopper, h.pause, h.awake, h.resumed⟩

theorem gets_pop (hpc : s.workers i = .pop) : GetsToPop n s i :=
  ⟨[], s, by simp, .nil, hpc⟩

theorem gets_check (h : Unhindered s i) (hpc : s.workers i = .check) : GetsToPop n s i := by
  have hs : s.workerStep i = some (s.setWorker i .pop) := by
    simp [workerStep, h.created, hpc, stopRequired, h.stopper]
  exact (gets_pop setWorker_self).step hs

theorem gets_pause (h : Unhindered s i) (hpc : s.workers i = .pause) : GetsToPop n s i := by
  -- with no pause on, `pauseIfRequred` returns in this one step
  obtain ⟨x, hx⟩ := PausePoint.check_returns h.resumed h.awake h.pause
  have hs : s.workerStep i =
      some ({ s with _tc := { s._tc with pausePoint := x } }.setWorker i .check) := by
    simp [workerStep, h.created, hpc, advance_of_pause hx]
  have hflag : x.data.mPause = false :=
    (PausePoint.advance_mPause hx (by simp) (by simp)).trans h.pause
  have hout : x.thr (.worker i) = .out := (PausePoint.monitor.advance_frame hx).2.mpr rfl
  have hnext : Unhindered
      ({ s with _tc := { s._tc with pausePoint := x } }.setWorker i .check) i := by
    refine ⟨h.created, h.stopper, hflag, fun hasleep => ?_, fun w hw => ?_⟩
    · cases hout.symm.trans hasleep
    · rw [show ThreadControl.pausePoint _ = x from rfl, hout] at hw
      cases hw
  exact (hnext.gets_check setWorker_self).step hs

theorem gets_delete {qe : Addr} (h : Unhindered s i) (hpc : s.workers i = .delete qe)
    (hqe : s.elements qe ≠ none) : GetsToPop n s i := by
  obtain ⟨e, he⟩ := Option.ne_none_iff_exists'.mp hqe
  have hs : s.workerStep i =
      some ({ s with elements := Function.update s.elements qe none }.setWorker i .pause) := by
    simp [workerStep, h.created, hpc, he]
  refine GetsToPop.step (gets_pause ?_ setWorker_self) hs
  exact ⟨h.created, h.stopper, h.pause, h.awake, h.resumed⟩

theorem gets_inside {qe : Addr} (h : Unhindered s i) (hpc : s.workers i = .inside qe)
    (hqe : s.elements qe ≠ none) : GetsToPop n s i := by
  have hs : s.workerStep i = some (s.setWorker i (.delete qe)) := by
    simp [workerStep, h.created, hpc]
  exact (h.of_setWorker.gets_delete setWorker_self hqe).step hs

theorem gets_run {qe : Addr} (h : Unhindered s i) (hpc : s.workers i = .run qe)
    (hqe : s.elements qe ≠ none) : GetsToPop n s i := by
  obtain ⟨e, he⟩ := Option.ne_none_iff_exists'.mp hqe
  have hs : s.workerStep i = some (s.setWorker i (.inside qe)) := by
    simp [workerStep, h.created, hpc, he]
  exact (h.of_setWorker.gets_inside setWorker_self hqe).step hs

/-- A worker in its loop that holds no dead element gets to its `pop_front`. -/
theorem gets_to_pop (h : Unhindered s i) (hloop : (s.workers i).Looping)
    (hheld : ∀ qe, s.workers i = .run qe ∨ s.workers i = .inside qe ∨ s.workers i = .delete qe →
      s.elements qe ≠ none) : GetsToPop n s i := by
  cases hpc : s.workers i with
  | pause => exact h.gets_pause hpc
  | check => exact h.gets_check hpc
  | pop => exact gets_pop hpc
  | run qe => exact h.gets_run hpc (hheld qe (.inl hpc))
  | inside qe => exact h.gets_inside hpc (hheld qe (.inr (.inl hpc)))
  | delete qe => exact h.gets_delete hpc (hheld qe (.inr (.inr hpc)))
  | done => exact absurd hpc hloop.1
  | exited => exact absurd hpc hloop.2

end Unhindered

/-- Whoever sleeps in `pauseIfRequred` does so while a pause is on. -/
theorem asleep_of_reachable {n : Nat} {ok : GenericThreadPool ι → Ev ι → Prop}
    (h : (system ι n).ReachableBy ok s) :
    ∀ t, s._tc.pausePoint.thr t = .asleep .resumed → s._tc.pausePoint.data.mPause = true := by
  refine h.invariant (P := fun s => ∀ t, s._tc.pausePoint.thr t = .asleep .resumed →
    s._tc.pausePoint.data.mPause = true) ?_ fun s e s' _ hasleep _ hs => ?_
  · rintro s ⟨c, heap, rfl⟩ t ht
    cases ht
  · -- every change of `PausePoint` keeps it: `resume` wakes all as it clears the flag
    have hmove := pauseMove_of_step hs
    generalize s'._tc.pausePoint = x at hmove ⊢
    cases hmove with
    | same => exact hasleep
    | check _ hx => exact PausePoint.asleep_advance hasleep hx
    | pause _ hx => exact PausePoint.asleep_advance hasleep hx
    | resume _ hx => exact PausePoint.asleep_advance hasleep hx
    | count _ hx => exact PausePoint.asleep_advance hasleep hx
    | spurious hx =>
        intro t ht
        rw [(spurious_frame hx).1]
        exact hasleep t (asleep_of_spurious hx ht)

-- ============================================================================
-- The result
-- ============================================================================

/-- **A pool that reports threads can run functions**, if `add_thread` is asked for
    workers only while the stop flag is down: when no `stop` is in progress,
    `get_numthreads` is the number of workers created that have not left their
    loop; and if it is not zero and no pause is on, one of them gets to its
    `pop_front` by its own steps. -/
theorem numthreads_eq {n : Nat}
    (h : (system ι n).ReachableBy (fun s e => Controlled p e ∧ Unstopped s e) s)
    (hstop : ¬ (s.clients p).InStop) :
    s.getNumthreads = s.looping.card ∧
    (0 < s.getNumthreads → s._tc.pausePoint.data.mPause = false →
      ∃ i ∈ s.looping, GetsToPop n s i) := by
  have hg := growth_of_reachable h
  have hc : Course p s := course_of_reachable (fun _ _ hok => hok.1) h
  cases hf : s._tc._stopper with
  | true =>
      -- stopped: the vector is empty and all workers have exited
      rcases emptied_of_reachable h hf with hstops | ⟨hnil, -⟩
      · exact absurd (.inr hstops) hstop
      · have hempty : s.looping = ∅ := by
          have hexited := running_eq_empty.mp (hc.cleared hf hnil)
          rw [looping, Finset.filter_eq_empty_iff]
          exact fun i hi hne => hne.2 (hexited i (Finset.mem_range.mp hi))
        rw [getNumthreads, hnil, hempty]
        exact ⟨rfl, fun hpos => absurd hpos (Nat.not_lt_zero 0)⟩
  | false =>
      -- not stopped: every worker is in its loop, and worker 0 goes to the queue
      obtain ⟨hlen, hloop⟩ := hc.looping hf
      have hall : s.looping = Finset.range s.created := by
        rw [looping, Finset.filter_true_of_mem]
        exact fun i hi => hloop i (Finset.mem_range.mp hi)
      rw [getNumthreads, hall, Finset.card_range, hlen]
      refine ⟨rfl, fun hpos hpause => ⟨0, Finset.mem_range.mpr hpos, ?_⟩⟩
      obtain ⟨log, hlog⟩ := (h.mono fun _ _ _ => trivial).traced obs
      have hheld := (pool_queue_exactly_once hlog).2.2.2
      refine Unhindered.gets_to_pop ⟨hpos, hf, hpause, fun hasleep => ?_, fun w hw => ?_⟩
        (hloop 0 hpos) (hheld 0)
      · rw [asleep_of_reachable h _ hasleep] at hpause
        cases hpause
      · exact (hg.pause.worker 0 w hw).1

/-- A pool of one worker after `add_thread(1)`. -/
theorem numthreads_eq_two :
    ∃ s : GenericThreadPool Unit, s.getNumthreads = 2 ∧ s.getNumthreads = s.looping.card ∧
      ∃ i ∈ s.looping, GetsToPop 1 s i := by
  have hrun : ∃ s, (system Unit 1).Run (fun s e => Controlled () e ∧ Unstopped s e)
      (initial () 1 fun _ => ListHook.unlinked)
      [.client (), .client (), .client (), .client (), .client (), .call () (.addThread 1),
        .client (), .client (), .client (), .client (), .client ()] s ∧
      s.clients () = .idle ∧ s.getNumthreads = 2 ∧ s._tc.pausePoint.data.mPause = false := by
    have hother : ∀ (s : GenericThreadPool Unit) c,
        Controlled () (.client c) ∧ Unstopped s (.client c) :=
      fun s c => ⟨trivial, fun _ _ he => by cases he⟩
    exact ⟨_, .cons (hother _ _) rfl <| .cons (hother _ _) rfl <| .cons (hother _ _) rfl <|
      .cons (hother _ _) rfl <| .cons (hother _ _) rfl <|
      .cons ⟨rfl, fun _ _ _ _ => rfl⟩ rfl <| .cons (hother _ _) rfl <|
      .cons (hother _ _) rfl <| .cons (hother _ _) rfl <| .cons (hother _ _) rfl <|
      .cons (hother _ _) rfl .nil, rfl, rfl, rfl⟩
  obtain ⟨s, hs, hidle, htwo, hpause⟩ := hrun
  obtain ⟨heq, htake⟩ := numthreads_eq (hs.reachable (.init ⟨_, _, rfl⟩))
    (by rw [hidle]; simp [ClientPc.InStop, ClientPc.Stops])
  exact ⟨s, htwo, heq, htake (by omega) hpause⟩

/-- A pool of one worker is stopped and gets a new one, which leaves its loop at
    once: the pool reports a thread and has none that takes functions. -/
theorem added_after_stop :
    ∃ s, (system Unit 1).ReachableBy (fun _ e => Controlled () e) s ∧
      ¬ (s.clients ()).InStop ∧ s.getNumthreads = 1 ∧ s.looping = ∅ ∧
      s._tc.pausePoint.data.mPause = false := by
  have hrun : ∃ s, (system Unit 1).Run (fun _ e => Controlled () e)
      (initial () 1 fun _ => ListHook.unlinked)
      [.client (), .client (), .client (), .client (), .client (),
        .call () .stop, .client (), .client (), .worker 0, .worker 0, .worker 0,
        .client (), .client (), .client (), .client (), .call () (.addThread 1),
        .client (), .client (), .client (), .client (), .client (), .worker 1, .worker 1] s ∧
      s.clients () = .idle ∧ s.getNumthreads = 1 ∧ s.created = 2 ∧ s.workers 0 = .exited ∧
      s.workers 1 = .done ∧ s._tc.pausePoint.data.mPause = false :=
    ⟨_, .cons trivial rfl <| .cons trivial rfl <| .cons trivial rfl <| .cons trivial rfl <|
      .cons trivial rfl <| .cons rfl rfl <| .cons trivial rfl <| .cons trivial rfl <|
      .cons trivial rfl <| .cons trivial rfl <| .cons trivial rfl <| .cons trivial rfl <|
      .cons trivial rfl <| .cons trivial rfl <| .cons trivial rfl <| .cons rfl rfl <|
      .cons trivial rfl <| .cons trivial rfl <| .cons trivial rfl <| .cons trivial rfl <|
      .cons trivial rfl <| .cons trivial rfl <| .cons trivial rfl .nil,
      rfl, rfl, rfl, rfl, rfl, rfl⟩
  obtain ⟨s, hs, hidle, hone, htwo, hexited, hdone, hpause⟩ := hrun
  refine ⟨s, hs.reachable (.init ⟨_, _, rfl⟩), ?_, hone, ?_, hpause⟩
  · rw [hidle]
    simp [ClientPc.InStop, ClientPc.Stops]
  · rw [looping, Finset.filter_eq_empty_iff, htwo]
    intro i hi hne
    have hlt := Finset.mem_range.mp hi
    obtain rfl | rfl : i = 0 ∨ i = 1 := by omega
    · exact hne.2 hexited
    · exact hne.1 hdone

end GenericThreadPool
end Fredlib
