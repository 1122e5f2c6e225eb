/-
  Fredlib.ThreadPool.Growth

  The counters of a `GenericThreadPool` while it grows.

  `FanInPoint` counts the workers that run, `PausePoint` the workers created and
  those of them that are paused, but for the lag of the client in the loop over
  `_add_thread`.  `Growth` is what holds of that loop and of the counters in
  every state reached, whatever clients there are and whatever they call.
-/

import Fredlib.ThreadPool.Adders
import Mathlib.Data.Finset.Range
import Mathlib.Order.Interval.Finset.Nat

namespace Fredlib

open Lib Lib.Monitor ThreadControl

namespace GenericThreadPool

variable {ι : Type*} [DecidableEq ι]

-- ============================================================================
-- Who runs
-- ============================================================================

/-- The workers that have been created and have not exited. -/
def running (s : GenericThreadPool ι) : Finset Nat :=
  (Finset.range s.created).filter fun i => s.workers i ≠ .exited

variable {s s' : GenericThreadPool ι} {i : Nat} {c : ι}

omit [DecidableEq ι] in
@[simp] theorem mem_running : i ∈ s.running ↔ i < s.created ∧ s.workers i ≠ .exited := by
  simp [running]

omit [DecidableEq ι] in
theorem running_eq_empty :
    s.running = ∅ ↔ ∀ i, i < s.created → s.workers i = .exited := by
  simp [running, Finset.filter_eq_empty_iff]

omit [DecidableEq ι] in
theorem running_congr (hcreated : s'.created = s.created) (hworkers : s'.workers = s.workers) :
    s'.running = s.running := by
  rw [running, running, hcreated, hworkers]

omit [DecidableEq ι] in
/-- A worker that does not exit runs on. -/
theorem running_setWorker {pc : WorkerPc} (hold : s.workers i ≠ .exited) (hnew : pc ≠ .exited) :
    (s.setWorker i pc).running = s.running := by
  ext j
  rw [mem_running, mem_running]
  by_cases hji : j = i
  · subst hji
    rw [setWorker_self]
    exact and_congr_right fun _ => iff_of_true hnew hold
  · rw [setWorker_of_ne hji]
    rfl

theorem afterPop_ne_exited {r : Option (Option Addr)} : afterPop r ≠ .exited := by
  rcases r with - | - | qe <;> simp [afterPop]

omit [DecidableEq ι] in
theorem running_exit : (s.setWorker i .exited).running = s.running.erase i := by
  ext j
  rw [Finset.mem_erase, mem_running, mem_running]
  by_cases hji : j = i
  · subst hji
    simp
  · rw [setWorker_of_ne hji]
    exact ⟨fun h => ⟨hji, h⟩, fun h => h.2⟩

omit [DecidableEq ι] in
/-- A new worker runs. -/
theorem running_emplace : s.emplace.running = insert s.created s.running := by
  ext j
  rw [Finset.mem_insert, mem_running, mem_running]
  by_cases hj : j = s.created
  · subst hj
    simp [emplace, setWorker]
  · have hlt : j < s.created + 1 ↔ j < s.created := by omega
    simp [emplace, setWorker, hj, hlt]

omit [DecidableEq ι] in
theorem card_running_emplace : (s.emplace.running.card : Int) = s.running.card + 1 := by
  rw [running_emplace, Finset.card_insert_of_notMem (by simp)]
  push_cast
  rfl

omit [DecidableEq ι] in
theorem card_running_exit (hi : i < s.created) (hpc : s.workers i ≠ .exited) :
    ((s.setWorker i .exited).running.card : Int) = s.running.card - 1 := by
  have hmem : i ∈ s.running := mem_running.mpr ⟨hi, hpc⟩
  have hpos := Finset.card_pos.mpr ⟨i, hmem⟩
  rw [running_exit, Finset.card_erase_of_mem hmem]
  omega

-- ============================================================================
-- The counter of FanInPoint
-- ============================================================================

/-- `FanInPoint` counts the workers that run, but for the lag of the loop; only
    clients in `stop` wait there. -/
structure FanAt (s : GenericThreadPool ι) : Prop where
  waiter : ∀ t w, (s._tc.fanIn.thr t).waiting = some w →
    ∃ c, t = .client c ∧ s.clients c = .stopWait
  counter : Lags AddPc.fanLag s (s.running.card - s._tc.fanIn.data.mExpectedThreads)

namespace FanAt

omit [DecidableEq ι] in
theorem frame (h : FanAt s) (hfan : s'._tc.fanIn = s._tc.fanIn)
    (hrunning : s'.running = s.running)
    (hwait : ∀ c, s.clients c = .stopWait → s'.clients c = .stopWait)
    (hloop : ∀ c, (s'.clients c).loop = (s.clients c).loop) : FanAt s' := by
  refine ⟨fun t w hw => ?_, ?_⟩
  · rw [hfan] at hw
    obtain ⟨c, rfl, hc⟩ := h.waiter t w hw
    exact ⟨c, rfl, hwait c hc⟩
  · rw [hfan, hrunning]
    exact lags_congr h.counter hloop

omit [DecidableEq ι] in
/-- A worker is never inside. -/
theorem worker_out (h : FanAt s) : s._tc.fanIn.thr (.worker i) = .out := by
  rw [← Status.waiting_eq_none, Option.eq_none_iff_forall_ne_some]
  intro w hw
  obtain ⟨c, hc, -⟩ := h.waiter _ w hw
  cases hc

omit [DecidableEq ι] in
/-- Nor is a client in any other call. -/
theorem client_out (h : FanAt s) (hpc : s.clients c ≠ .stopWait) :
    s._tc.fanIn.thr (.client c) = .out := by
  rw [← Status.waiting_eq_none, Option.eq_none_iff_forall_ne_some]
  intro w hw
  obtain ⟨d, hd, hwait⟩ := h.waiter _ w hw
  cases hd
  exact hpc hwait

/-- A client takes a step in another call. -/
theorem of_other_call {pc pc' : ClientPc} (h : FanAt s) (hpc : s.clients c = pc)
    (hne : pc ≠ .stopWait)
    (hclients : s'.clients = Function.update s.clients c pc') (hloop : pc'.loop = pc.loop)
    (hfan : s'._tc.fanIn = s._tc.fanIn) (hrunning : s'.running = s.running) : FanAt s' := by
  have hset : s'.clients = (s.setClient c pc').clients := hclients
  refine h.frame hfan hrunning ?_ ?_
  · intro d hd
    rw [hset]
    exact setClient_keeps (by rw [hpc]; exact hne) hd
  · intro d
    rw [hset]
    exact loop_setClient (by rw [hpc, hloop]) d

/-- A step of the wait in `stop`. -/
theorem stopWait {tc : ThreadControl (Tid ι)} {r : Option Unit} (h : FanAt s)
    (hpc : s.clients c = .stopWait)
    (hadv : s._tc.advance (.client c) (.fanIn .wait) = some (tc, r)) :
    FanAt ({ s with _tc := tc }.setClient c (if r.isSome then .join 0 else .stopWait)) := by
  obtain ⟨x, hx, rfl⟩ := advance_fanIn hadv
  obtain ⟨hother, -⟩ := FanInPoint.monitor.advance_frame hx
  have hcounter := FanInPoint.wait_expected hx
  refine ⟨fun t w hw => ?_, ?_⟩
  · have hw' : (x.thr t).waiting = some w := hw
    by_cases htc : t = .client c
    · subst htc
      -- whoever still waits has not returned, so the call goes on
      have hnone := FanInPoint.monitor.none_of_waiting hx hw'
      exact ⟨c, rfl, by rw [setClient_self, hnone]; rfl⟩
    · rw [hother t htc] at hw'
      obtain ⟨d, rfl, hd⟩ := h.waiter t w hw'
      have hdc : d ≠ c := fun hdc => htc (by rw [hdc])
      exact ⟨d, rfl, by rw [setClient_of_ne hdc]; exact hd⟩
  · have hlags : Lags AddPc.fanLag (s.setClient c (if r.isSome then .join 0 else .stopWait)) _ :=
      lags_congr h.counter (loop_setClient (by rw [hpc]; cases r <;> rfl))
    rw [← hcounter] at hlags
    exact hlags

/-- A worker calls `done` and exits. -/
theorem done {tc : ThreadControl (Tid ι)} {r : Option Unit} (h : FanAt s) (hi : i < s.created)
    (hpc : s.workers i = .done)
    (hadv : s._tc.advance (.worker i) (.fanIn .done) = some (tc, r)) :
    FanAt ({ s with _tc := tc }.setWorker i .exited) := by
  obtain ⟨x, hx, rfl⟩ := advance_fanIn hadv
  obtain ⟨hother, -⟩ := FanInPoint.monitor.advance_frame hx
  have hout := FanInPoint.advance_out hx h.worker_out (by simp)
  have hcounter := (FanInPoint.advance_expected hx).1 h.worker_out
  have hcard := card_running_exit hi (by rw [hpc]; simp)
  refine ⟨fun t w hw => ?_, ?_⟩
  · have hw' : (x.thr t).waiting = some w := hw
    by_cases hti : t = .worker i
    · subst hti
      rw [hout] at hw'
      cases hw'
    · rw [hother t hti] at hw'
      exact h.waiter t w hw'
  · -- both sides go down by one: the runners and the counter
    have hlags : Lags AddPc.fanLag s
        ((s.setWorker i .exited).running.card - x.data.mExpectedThreads) := by
      rw [hcard, hcounter, FanInPoint.Op.expected, sub_sub_sub_cancel_right]
      exact h.counter
    exact hlags

/-- A turn of the loop over `_add_thread` that adds `a` workers and tells
    `FanInPoint` of `b`. -/
theorem of_addThread_turn {pc pc' : ClientPc} (h : FanAt s) (halone : s.Alone c)
    (hpc : s.clients c = pc)
    (hne : pc ≠ .stopWait) (hclients : s'.clients = Function.update s.clients c pc')
    (hfan : ∀ t, (s'._tc.fanIn.thr t).waiting = (s._tc.fanIn.thr t).waiting) (a b : Int)
    (hrunning : (s'.running.card : Int) = s.running.card + a)
    (hexpected :
      s'._tc.fanIn.data.mExpectedThreads = s._tc.fanIn.data.mExpectedThreads + b)
    (hlag : pc'.lag AddPc.fanLag = pc.lag AddPc.fanLag + a - b) : FanAt s' := by
  refine ⟨fun t w hw => ?_, lags_turn h.counter halone hpc hclients (by omega)⟩
  rw [hfan] at hw
  obtain ⟨d, rfl, hd⟩ := h.waiter t w hw
  refine ⟨d, rfl, ?_⟩
  rw [show s'.clients = (s.setClient c pc').clients from hclients]
  exact setClient_keeps (by rw [hpc]; exact hne) hd

theorem add {left : Nat} {pc : AddPc} {p p' : ClientPc} {s₁ : GenericThreadPool ι}
    {r : Option (Nat × AddPc)} (h : FanAt s) (halone : s.Alone c) (hp : s.clients c = p)
    (hpc : p.loop = some (left, pc)) (hadd : AddMove s c left pc s₁ r) (hp' : p'.loop = r) :
    FanAt (s₁.setClient c p') := by
  have hne : p ≠ .stopWait := by
    rintro rfl
    cases hpc
  have hlag := ClientPc.lag_of_loop (f := AddPc.fanLag) hpc
  -- a worker more raises the lag by one, telling `FanInPoint` of it takes that back
  cases hadd with
  | finish =>
      refine h.of_addThread_turn halone hp hne rfl (fun _ => rfl) 0 0 (add_zero _).symm
        (add_zero _).symm ?_
      rw [hlag, ClientPc.lag_of_out hp']
      rfl
  | emplace =>
      refine h.of_addThread_turn halone hp hne rfl (fun _ => rfl) 1 0 card_running_emplace
        (add_zero _).symm ?_
      rw [hlag, ClientPc.lag_of_loop hp']
      rfl
  | @announce _ b tc r hadv =>
      have hlag' := ClientPc.lag_of_loop (f := AddPc.fanLag) hp'
      cases b with
      | syncPoint =>
          obtain ⟨x, -, rfl⟩ := advance_sync hadv
          refine h.of_addThread_turn halone hp hne rfl (fun _ => rfl) 0 0 (add_zero _).symm
            (add_zero _).symm ?_
          rw [hlag, hlag']
          rfl
      | fanIn =>
          obtain ⟨x, hx, rfl⟩ := advance_fanIn hadv
          have hout : s._tc.fanIn.thr (.client c) = .out := h.client_out (by rw [hp]; exact hne)
          refine h.of_addThread_turn halone hp hne rfl (fun t => ?_) 0 1 (add_zero _).symm
            ((FanInPoint.advance_expected hx).1 hout) ?_
          · show (x.thr t).waiting = _
            by_cases ht : t = .client c
            · rw [ht, hout, FanInPoint.advance_out hx hout (by simp)]
            · exact (FanInPoint.monitor.advance_frame hx).1 t ht
          · rw [hlag, hlag']
            rfl
      | pausePoint =>
          obtain ⟨x, -, rfl⟩ := advance_pause hadv
          refine h.of_addThread_turn halone hp hne rfl (fun _ => rfl) 0 0 (add_zero _).symm
            (add_zero _).symm ?_
          rw [hlag, hlag']
          rfl

theorem client (h : FanAt s) (hadders : Adders s) (hs : s.clientStep c = some s') : FanAt s' := by
  cases clientMove_of_step hs with
  | construct hpc hadd =>
      exact h.add (hadders.alone c (by simp [hpc, ClientPc.loop])) hpc rfl hadd rfl
  | @built _ _ s₁ hpc hadd =>
      have hidle : FanAt (s₁.setClient c .idle) :=
        h.add (hadders.alone c (by simp [hpc, ClientPc.loop])) hpc rfl hadd rfl
      exact hidle.frame rfl rfl (fun _ hd => hd) fun _ => rfl
  | add hpc hadd => exact h.add (hadders.alone c (by simp [hpc, ClientPc.loop])) hpc rfl hadd rfl
  | @added _ _ s₁ hpc hadd =>
      have hidle : FanAt (s₁.setClient c .idle) :=
        h.add (hadders.alone c (by simp [hpc, ClientPc.loop])) hpc rfl hadd rfl
      exact hidle.frame rfl rfl (fun _ hd => hd) fun _ => rfl
  | push hpc => exact h.of_other_call hpc (by simp) rfl rfl rfl rfl
  | @pause tc r hpc hadv =>
      obtain ⟨x, -, rfl⟩ := advance_pause hadv
      exact h.of_other_call hpc (by simp) rfl (by cases r <;> rfl) rfl rfl
  | @resume tc r hpc hadv =>
      obtain ⟨x, -, rfl⟩ := advance_pause hadv
      exact h.of_other_call hpc (by simp) rfl (by cases r <;> rfl) rfl rfl
  | stopNum hpc => exact h.of_other_call hpc (by simp) rfl (by split <;> rfl) rfl rfl
  | stopSet hpc => exact h.of_other_call hpc (by simp) rfl rfl rfl rfl
  | stopWait hpc hadv => exact h.stopWait hpc hadv
  | join hpc => exact h.of_other_call hpc (by simp) rfl rfl rfl rfl
  | joined hpc => exact h.of_other_call hpc (by simp) rfl rfl rfl rfl
  | stopClear hpc => exact h.of_other_call hpc (by simp) rfl rfl rfl rfl

omit [DecidableEq ι] in
/-- A worker takes a step and runs on. -/
theorem of_worker_running {pc : WorkerPc} (h : FanAt s) (hold : s.workers i ≠ .exited)
    (hnew : pc ≠ .exited) (hfan : s'._tc.fanIn = s._tc.fanIn) (hcreated : s'.created = s.created)
    (hworkers : s'.workers = Function.update s.workers i pc) (hclients : s'.clients = s.clients) :
    FanAt s' := by
  have hrunning : s'.running = (s.setWorker i pc).running := running_congr hcreated hworkers
  refine h.frame hfan (hrunning.trans (running_setWorker hold hnew)) ?_ ?_
  · rw [hclients]
    exact fun _ hd => hd
  · rw [hclients]
    exact fun _ => rfl

theorem worker (h : FanAt s) (hs : s.workerStep i = some s') : FanAt s' := by
  obtain ⟨hi, hmove⟩ := workerMove_of_step hs
  cases hmove with
  | @pause tc r hpc hadv =>
      obtain ⟨x, -, rfl⟩ := advance_pause hadv
      exact h.of_worker_running (by simp [hpc]) (by cases r <;> simp) rfl rfl rfl rfl
  | check hpc => exact h.of_worker_running (by simp [hpc]) (by split <;> simp) rfl rfl rfl rfl
  | @pop q r hpc => exact h.of_worker_running (by simp [hpc]) afterPop_ne_exited rfl rfl rfl rfl
  | run hpc => exact h.of_worker_running (by simp [hpc]) (by simp) rfl rfl rfl rfl
  | inside hpc => exact h.of_worker_running (by simp [hpc]) (by simp) rfl rfl rfl rfl
  | delete hpc => exact h.of_worker_running (by simp [hpc]) (by simp) rfl rfl rfl rfl
  | done hpc hadv => exact h.done hi hpc hadv

theorem spurious {b : Base} {t : Tid ι} {tc : ThreadControl (Tid ι)} (h : FanAt s)
    (hsp : s._tc.spurious b t = some tc) : FanAt { s with _tc := tc } := by
  have hfan : tc.fanIn.data = s._tc.fanIn.data ∧
      ∀ t', (tc.fanIn.thr t').waiting = (s._tc.fanIn.thr t').waiting := by
    cases b with
    | fanIn =>
        simp only [ThreadControl.spurious, Option.map_eq_some_iff] at hsp
        obtain ⟨x, hx, rfl⟩ := hsp
        exact spurious_frame hx
    | _ =>
        simp only [ThreadControl.spurious, Option.map_eq_some_iff] at hsp
        obtain ⟨x, -, rfl⟩ := hsp
        exact ⟨rfl, fun _ => rfl⟩
  refine ⟨fun t' w hw => h.waiter t' w ((hfan.2 t').symm.trans hw), ?_⟩
  show Lags AddPc.fanLag s (s.running.card - tc.fanIn.data.mExpectedThreads)
  rw [hfan.1]
  exact h.counter

theorem step {e : Ev ι} (h : FanAt s) (hadders : Adders s)
    (hs : GenericThreadPool.step s e = some s') : FanAt s' := by
  cases e with
  | call c op =>
      obtain ⟨hbuilt, hidle, hmove⟩ := callMove_of_step hs
      cases hmove with
      | addThread hmutex =>
          exact h.of_addThread_turn (fun d _ => hadders.nobody hbuilt hmutex d) hidle (by simp) rfl
            (fun _ => rfl) 0 0 (add_zero _).symm (add_zero _).symm rfl
      | _ => exact h.of_other_call hidle (by simp) rfl rfl rfl rfl
  | client c => exact h.client hadders hs
  | worker i => exact h.worker hs
  | timeout i =>
      obtain ⟨-, hpc, q, r, -, rfl⟩ := timeoutStep_some hs
      exact h.of_worker_running (by simp [hpc]) afterPop_ne_exited rfl rfl rfl rfl
  | spuriousTc b t =>
      simp only [GenericThreadPool.step, Option.map_eq_some_iff] at hs
      obtain ⟨tc, hsp, rfl⟩ := hs
      exact h.spurious hsp
  | spuriousQ t =>
      simp only [GenericThreadPool.step, Option.map_eq_some_iff] at hs
      obtain ⟨q, -, rfl⟩ := hs
      exact h.frame rfl rfl (fun _ hd => hd) fun _ => rfl

end FanAt

-- ============================================================================
-- The counters of PausePoint
-- ============================================================================

/-- `PausePoint` counts the workers created, but for the lag of the loop, and of
    these the ones that are paused; whoever waits there is in the call that
    waits. -/
structure PauseAt (s : GenericThreadPool ι) : Prop where
  worker : ∀ i w, (s._tc.pausePoint.thr (.worker i)).waiting = some w →
    w = .resumed ∧ i < s.created ∧ s.workers i = .pause
  client : ∀ c w, (s._tc.pausePoint.thr (.client c)).waiting = some w →
    (w = .allPaused ∧ s.clients c = .pausing) ∨ (w = .nonePaused ∧ s.clients c = .resuming)
  paused : HasCount .resumed s._tc.pausePoint.data.mPausedThreads s._tc.pausePoint
  counter : Lags AddPc.pauseLag s (s.created - s._tc.pausePoint.data.mExpectedThreads)

namespace PauseAt

omit [DecidableEq ι] in
theorem frame (h : PauseAt s) (hpause : s'._tc.pausePoint = s._tc.pausePoint)
    (hcreated : s'.created = s.created)
    (hworker : ∀ i, s.workers i = .pause → s'.workers i = .pause)
    (hclient : ∀ c pc, pc = .pausing ∨ pc = .resuming → s.clients c = pc → s'.clients c = pc)
    (hloop : ∀ c, (s'.clients c).loop = (s.clients c).loop) : PauseAt s' := by
  refine ⟨fun i w hw => ?_, fun c w hw => ?_, ?_, ?_⟩
  · rw [hpause] at hw
    obtain ⟨hres, hi, hpc⟩ := h.worker i w hw
    exact ⟨hres, by omega, hworker i hpc⟩
  · rw [hpause] at hw
    rcases h.client c w hw with ⟨hall, hpc⟩ | ⟨hnone, hpc⟩
    · exact .inl ⟨hall, hclient c _ (.inl rfl) hpc⟩
    · exact .inr ⟨hnone, hclient c _ (.inr rfl) hpc⟩
  · rw [hpause]
    exact h.paused
  · rw [hpause, hcreated]
    exact lags_congr h.counter hloop

omit [DecidableEq ι] in
/-- A client in another call is not inside. -/
theorem client_out (h : PauseAt s) (hp : s.clients c ≠ .pausing) (hr : s.clients c ≠ .resuming) :
    s._tc.pausePoint.thr (.client c) = .out := by
  rw [← Status.waiting_eq_none, Option.eq_none_iff_forall_ne_some]
  intro w hw
  rcases h.client c w hw with ⟨-, hpc⟩ | ⟨-, hpc⟩
  · exact hp hpc
  · exact hr hpc

/-- A client takes a step in another call. -/
theorem of_other_call {pc pc' : ClientPc} (h : PauseAt s) (hpc : s.clients c = pc)
    (hp : pc ≠ .pausing) (hr : pc ≠ .resuming)
    (hclients : s'.clients = Function.update s.clients c pc')
    (hloop : pc'.loop = pc.loop) (hpause : s'._tc.pausePoint = s._tc.pausePoint)
    (hcreated : s'.created = s.created) (hworkers : s'.workers = s.workers) : PauseAt s' := by
  have hset : s'.clients = (s.setClient c pc').clients := hclients
  refine h.frame hpause hcreated (by rw [hworkers]; exact fun _ hi => hi) ?_ ?_
  · intro d pc₀ hpc₀ hd
    rw [hset]
    refine setClient_keeps ?_ hd
    rw [hpc]
    rcases hpc₀ with rfl | rfl
    · exact hp
    · exact hr
  · intro d
    rw [hset]
    exact loop_setClient (by rw [hpc, hloop]) d

/-- A client takes a step inside `pause` or `resume`. -/
theorem of_pause_or_resume {op : PausePoint.Op} {pc : ClientPc} {tc : ThreadControl (Tid ι)}
    {r : Option Unit} (h : PauseAt s) (hpc : s.clients c = pc)
    (hop : op = .pause ∧ pc = .pausing ∨ op = .resume ∧ pc = .resuming)
    (hadv : s._tc.advance (.client c) (.pause op) = some (tc, r)) :
    PauseAt ({ s with _tc := tc }.setClient c (if r.isSome then .idle else pc)) := by
  obtain ⟨x, hx, rfl⟩ := advance_pause hadv
  obtain ⟨hother, -⟩ := PausePoint.monitor.advance_frame hx
  -- `c` can only sit in the wait of the call it is in
  have hat : ∀ w, (s._tc.pausePoint.thr (.client c)).waiting = some w → op.wait = some w := by
    intro w hw
    rcases h.client c w hw with ⟨rfl, hp⟩ | ⟨rfl, hp⟩ <;>
    rcases hop with ⟨rfl, rfl⟩ | ⟨rfl, rfl⟩ <;>
    first | rfl | (rw [hpc] at hp; cases hp)
  have hexpected : x.data.mExpectedThreads = s._tc.pausePoint.data.mExpectedThreads :=
    PausePoint.advance_expected hx (by rcases hop with ⟨rfl, -⟩ | ⟨rfl, -⟩ <;> rfl)
  refine ⟨fun i w hw => ?_, fun d w hw => ?_, ?_, ?_⟩
  · have hw' : (x.thr (.worker i)).waiting = some w := hw
    rw [hother _ (by simp)] at hw'
    exact h.worker i w hw'
  · have hw' : (x.thr (.client d)).waiting = some w := hw
    by_cases hdc : d = c
    · subst hdc
      -- still waiting, so the call has not returned and `c` stays in it
      have hnone := PausePoint.monitor.none_of_waiting hx hw'
      have hwait := PausePoint.advance_wait hx hat hw'
      rw [setClient_self, hnone]
      rcases hop with ⟨rfl, rfl⟩ | ⟨rfl, rfl⟩ <;> cases hwait
      · exact .inl ⟨rfl, rfl⟩
      · exact .inr ⟨rfl, rfl⟩
    · rw [hother _ (by simpa using hdc)] at hw'
      rw [setClient_of_ne hdc]
      exact h.client d w hw'
  · exact PausePoint.paused_advance h.paused
      (by rcases hop with ⟨rfl, -⟩ | ⟨rfl, -⟩ <;> simp) hx
  · have hlags : Lags AddPc.pauseLag (s.setClient c (if r.isSome then .idle else pc)) _ :=
      lags_congr h.counter (loop_setClient (by
        rw [hpc]
        rcases hop with ⟨-, rfl⟩ | ⟨-, rfl⟩ <;> cases r <;> rfl))
    rw [← hexpected] at hlags
    exact hlags

/-- A worker takes a step inside `pauseIfRequred`. -/
theorem check {tc : ThreadControl (Tid ι)} {r : Option Unit} (h : PauseAt s) (hi : i < s.created)
    (hpc : s.workers i = .pause)
    (hadv : s._tc.advance (.worker i) (.pause .pauseIfRequred) = some (tc, r)) :
    PauseAt ({ s with _tc := tc }.setWorker i (if r.isSome then .check else .pause)) := by
  obtain ⟨x, hx, rfl⟩ := advance_pause hadv
  obtain ⟨hother, -⟩ := PausePoint.monitor.advance_frame hx
  have hat : ∀ w, (s._tc.pausePoint.thr (.worker i)).waiting = some w →
      PausePoint.Op.pauseIfRequred.wait = some w := by
    intro w hw
    rw [(h.worker i w hw).1]
    rfl
  have hexpected := PausePoint.advance_expected hx rfl
  refine ⟨fun j w hw => ?_, fun c w hw => ?_, ?_, ?_⟩
  · have hw' : (x.thr (.worker j)).waiting = some w := hw
    by_cases hji : j = i
    · subst hji
      have hnone := PausePoint.monitor.none_of_waiting hx hw'
      have hwait := PausePoint.advance_wait hx hat hw'
      cases hwait
      rw [setWorker_self, hnone]
      exact ⟨rfl, hi, rfl⟩
    · rw [hother _ (by simpa using hji)] at hw'
      rw [setWorker_of_ne hji]
      exact h.worker j w hw'
  · have hw' : (x.thr (.client c)).waiting = some w := hw
    rw [hother _ (by simp)] at hw'
    exact h.client c w hw'
  · exact PausePoint.paused_advance h.paused (by simp) hx
  · show Lags AddPc.pauseLag s (s.created - x.data.mExpectedThreads)
    rw [hexpected]
    exact h.counter

/-- A turn of the loop over `_add_thread` that adds `a` workers and tells
    `PausePoint` of `b`. -/
theorem of_addThread_turn {pc pc' : ClientPc} (h : PauseAt s) (halone : s.Alone c)
    (hpc : s.clients c = pc) (hp : pc ≠ .pausing) (hr : pc ≠ .resuming)
    (hclients : s'.clients = Function.update s.clients c pc')
    (hpause : ∀ t, (s'._tc.pausePoint.thr t).waiting = (s._tc.pausePoint.thr t).waiting)
    (hpaused : HasCount .resumed s'._tc.pausePoint.data.mPausedThreads s'._tc.pausePoint)
    (hworker : ∀ i, i < s.created → s'.workers i = s.workers i) (a : Nat) (b : Int)
    (hcreated : s'.created = s.created + a)
    (hexpected :
      s'._tc.pausePoint.data.mExpectedThreads = s._tc.pausePoint.data.mExpectedThreads + b)
    (hlag : pc'.lag AddPc.pauseLag = pc.lag AddPc.pauseLag + a - b) : PauseAt s' := by
  refine ⟨fun i w hw => ?_, fun d w hw => ?_, hpaused,
    lags_turn h.counter halone hpc hclients (by omega)⟩
  · rw [hpause] at hw
    obtain ⟨hres, hi, hpc⟩ := h.worker i w hw
    exact ⟨hres, by omega, (hworker i hi).trans hpc⟩
  · rw [hpause] at hw
    rw [show s'.clients = (s.setClient c pc').clients from hclients]
    rcases h.client d w hw with ⟨hall, hd⟩ | ⟨hnone, hd⟩
    · exact .inl ⟨hall, setClient_keeps (by rw [hpc]; exact hp) hd⟩
    · exact .inr ⟨hnone, setClient_keeps (by rw [hpc]; exact hr) hd⟩

theorem add {left : Nat} {pc : AddPc} {p p' : ClientPc} {s₁ : GenericThreadPool ι}
    {r : Option (Nat × AddPc)} (h : PauseAt s) (halone : s.Alone c) (hp : s.clients c = p)
    (hpc : p.loop = some (left, pc)) (hadd : AddMove s c left pc s₁ r) (hp' : p'.loop = r) :
    PauseAt (s₁.setClient c p') := by
  have hne : p ≠ .pausing ∧ p ≠ .resuming := by
    constructor <;>
    · rintro rfl
      cases hpc
  have hlag := ClientPc.lag_of_loop (f := AddPc.pauseLag) hpc
  -- as for `FanInPoint`, but it is the call of `PausePoint` that takes the lag back
  cases hadd with
  | finish =>
      refine h.of_addThread_turn halone hp hne.1 hne.2 rfl (fun _ => rfl) h.paused (fun _ _ => rfl)
        0 0 (add_zero _).symm (add_zero _).symm ?_
      rw [hlag, ClientPc.lag_of_out hp']
      rfl
  | emplace =>
      refine h.of_addThread_turn halone hp hne.1 hne.2 rfl (fun _ => rfl) h.paused (fun i hi => ?_)
        1 0 rfl (add_zero _).symm ?_
      · exact setWorker_of_ne (by omega)
      · rw [hlag, ClientPc.lag_of_loop hp']
        rfl
  | @announce _ b tc r hadv =>
      have hlag' := ClientPc.lag_of_loop (f := AddPc.pauseLag) hp'
      cases b with
      | pausePoint =>
          obtain ⟨x, hx, rfl⟩ := advance_pause hadv
          have hout := h.client_out (c := c) (by rw [hp]; exact hne.1) (by rw [hp]; exact hne.2)
          refine h.of_addThread_turn halone hp hne.1 hne.2 rfl (fun t => ?_)
            (PausePoint.paused_advance h.paused (by simp) hx) (fun _ _ => rfl) 0 1
            (add_zero _).symm ((PausePoint.advance_effect hx).1 hout).1 ?_
          · show (x.thr t).waiting = _
            by_cases ht : t = .client c
            · rw [ht, hout]
              by_contra hw
              obtain ⟨w, hw⟩ := Option.ne_none_iff_exists'.mp hw
              have hwait := PausePoint.advance_wait hx (by simp [hout, Status.waiting]) hw
              cases hwait
            · exact (PausePoint.monitor.advance_frame hx).1 t ht
          · rw [hlag, hlag']
            rfl
      | syncPoint =>
          obtain ⟨x, -, rfl⟩ := advance_sync hadv
          refine h.of_addThread_turn halone hp hne.1 hne.2 rfl (fun _ => rfl) h.paused
            (fun _ _ => rfl) 0 0 (add_zero _).symm (add_zero _).symm ?_
          rw [hlag, hlag']
          rfl
      | fanIn =>
          obtain ⟨x, -, rfl⟩ := advance_fanIn hadv
          refine h.of_addThread_turn halone hp hne.1 hne.2 rfl (fun _ => rfl) h.paused
            (fun _ _ => rfl) 0 0 (add_zero _).symm (add_zero _).symm ?_
          rw [hlag, hlag']
          rfl

omit [DecidableEq ι] in
/-- The constructor and `add_thread` leave what they have built. -/
theorem same (h : PauseAt s) (htc : s'._tc = s._tc) (hcreated : s'.created = s.created)
    (hworkers : s'.workers = s.workers) (hclients : s'.clients = s.clients) : PauseAt s' := by
  refine h.frame (by rw [htc]) hcreated ?_ ?_ ?_
  · rw [hworkers]
    exact fun _ hi => hi
  · rw [hclients]
    exact fun _ _ _ hd => hd
  · rw [hclients]
    exact fun _ => rfl

theorem clientStep (h : PauseAt s) (hadders : Adders s) (hs : s.clientStep c = some s') :
    PauseAt s' := by
  cases clientMove_of_step hs with
  | construct hpc hadd =>
      exact h.add (hadders.alone c (by simp [hpc, ClientPc.loop])) hpc rfl hadd rfl
  | @built _ _ s₁ hpc hadd =>
      have hidle : PauseAt (s₁.setClient c .idle) :=
        h.add (hadders.alone c (by simp [hpc, ClientPc.loop])) hpc rfl hadd rfl
      exact hidle.same rfl rfl rfl rfl
  | add hpc hadd => exact h.add (hadders.alone c (by simp [hpc, ClientPc.loop])) hpc rfl hadd rfl
  | @added _ _ s₁ hpc hadd =>
      have hidle : PauseAt (s₁.setClient c .idle) :=
        h.add (hadders.alone c (by simp [hpc, ClientPc.loop])) hpc rfl hadd rfl
      exact hidle.same rfl rfl rfl rfl
  | pause hpc hadv => exact h.of_pause_or_resume hpc (.inl ⟨rfl, rfl⟩) hadv
  | resume hpc hadv => exact h.of_pause_or_resume hpc (.inr ⟨rfl, rfl⟩) hadv
  | push hpc => exact h.of_other_call hpc (by simp) (by simp) rfl rfl rfl rfl rfl
  | stopNum hpc => exact h.of_other_call hpc (by simp) (by simp) rfl (by split <;> rfl) rfl rfl rfl
  | stopSet hpc => exact h.of_other_call hpc (by simp) (by simp) rfl rfl rfl rfl rfl
  | @stopWait tc r hpc hadv =>
      obtain ⟨x, -, rfl⟩ := advance_fanIn hadv
      exact h.of_other_call hpc (by simp) (by simp) rfl (by cases r <;> rfl) rfl rfl rfl
  | join hpc => exact h.of_other_call hpc (by simp) (by simp) rfl rfl rfl rfl rfl
  | joined hpc => exact h.of_other_call hpc (by simp) (by simp) rfl rfl rfl rfl rfl
  | stopClear hpc => exact h.of_other_call hpc (by simp) (by simp) rfl rfl rfl rfl rfl

omit [DecidableEq ι] in
/-- A worker takes a step outside of `pauseIfRequred`. -/
theorem of_worker_outside {pc : WorkerPc} (h : PauseAt s) (hold : s.workers i ≠ .pause)
    (hpause : s'._tc.pausePoint = s._tc.pausePoint) (hcreated : s'.created = s.created)
    (hworkers : s'.workers = Function.update s.workers i pc) (hclients : s'.clients = s.clients) :
    PauseAt s' := by
  refine h.frame hpause hcreated (fun j hj => ?_) ?_ ?_
  · have hji : j ≠ i := by
      rintro rfl
      exact hold hj
    rw [hworkers, Function.update_of_ne hji, hj]
  · rw [hclients]
    exact fun _ _ _ hd => hd
  · rw [hclients]
    exact fun _ => rfl

theorem workerStep (h : PauseAt s) (hs : s.workerStep i = some s') : PauseAt s' := by
  obtain ⟨hi, hmove⟩ := workerMove_of_step hs
  cases hmove with
  | pause hpc hadv => exact h.check hi hpc hadv
  | done hpc hadv =>
      obtain ⟨x, -, rfl⟩ := advance_fanIn hadv
      exact h.of_worker_outside (by simp [hpc]) rfl rfl rfl rfl
  | check hpc => exact h.of_worker_outside (by simp [hpc]) rfl rfl rfl rfl
  | pop hpc => exact h.of_worker_outside (by simp [hpc]) rfl rfl rfl rfl
  | run hpc => exact h.of_worker_outside (by simp [hpc]) rfl rfl rfl rfl
  | inside hpc => exact h.of_worker_outside (by simp [hpc]) rfl rfl rfl rfl
  | delete hpc => exact h.of_worker_outside (by simp [hpc]) rfl rfl rfl rfl

theorem spurious {b : Base} {t : Tid ι} {tc : ThreadControl (Tid ι)} (h : PauseAt s)
    (hsp : s._tc.spurious b t = some tc) : PauseAt { s with _tc := tc } := by
  cases b with
  | pausePoint =>
      simp only [ThreadControl.spurious, Option.map_eq_some_iff] at hsp
      obtain ⟨x, hx, rfl⟩ := hsp
      obtain ⟨hdata, hwaiting⟩ := spurious_frame hx
      refine ⟨fun i w hw => h.worker i w ((hwaiting _).symm.trans hw),
        fun c w hw => h.client c w ((hwaiting _).symm.trans hw), ?_, ?_⟩
      · show HasCount .resumed x.data.mPausedThreads x
        rw [hdata]
        exact h.paused.spurious hx
      · show Lags AddPc.pauseLag s (s.created - x.data.mExpectedThreads)
        rw [hdata]
        exact h.counter
  | _ =>
      simp only [ThreadControl.spurious, Option.map_eq_some_iff] at hsp
      obtain ⟨x, -, rfl⟩ := hsp
      exact h.frame rfl rfl (fun _ hi => hi) (fun _ _ _ hd => hd) fun _ => rfl

theorem step {e : Ev ι} (h : PauseAt s) (hadders : Adders s)
    (hs : GenericThreadPool.step s e = some s') : PauseAt s' := by
  cases e with
  | call c op =>
      obtain ⟨hbuilt, hidle, hmove⟩ := callMove_of_step hs
      cases hmove with
      | addThread hmutex =>
          exact h.of_addThread_turn (fun d _ => hadders.nobody hbuilt hmutex d) hidle (by simp)
            (by simp) rfl
            (fun _ => rfl) h.paused (fun _ _ => rfl) 0 0 (add_zero _).symm (add_zero _).symm rfl
      | _ => exact h.of_other_call hidle (by simp) (by simp) rfl rfl rfl rfl rfl
  | client c => exact h.clientStep hadders hs
  | worker i => exact h.workerStep hs
  | timeout i =>
      obtain ⟨-, hpc, q, r, -, rfl⟩ := timeoutStep_some hs
      exact h.of_worker_outside (by simp [hpc]) rfl rfl rfl rfl
  | spuriousTc b t =>
      simp only [GenericThreadPool.step, Option.map_eq_some_iff] at hs
      obtain ⟨tc, hsp, rfl⟩ := hs
      exact h.spurious hsp
  | spuriousQ t =>
      simp only [GenericThreadPool.step, Option.map_eq_some_iff] at hs
      obtain ⟨q, -, rfl⟩ := hs
      exact h.same rfl rfl rfl rfl

end PauseAt

/-- What holds of the loop over `_add_thread` and of the counters. -/
structure Growth (s : GenericThreadPool ι) : Prop where
  adders : Adders s
  fan : FanAt s
  pause : PauseAt s

theorem Growth.step {e : Ev ι} (h : Growth s) (hs : GenericThreadPool.step s e = some s') :
    Growth s' :=
  ⟨h.adders.step hs, h.fan.step h.adders hs, h.pause.step h.adders hs⟩

theorem growth_initial {n : Nat} {heap : Heap Addr} : Growth (initial c n heap) := by
  have halone : (initial c n heap).Alone c := by
    intro d hd
    simp [initial, Function.update_of_ne hd, ClientPc.loop]
  have hlags : ∀ f : AddPc → Int, f .head = 0 → Lags f (initial c n heap) 0 := by
    intro f hf
    have h := lags_of_alone (f := f) halone
    simpa [initial, ClientPc.lag, ClientPc.loop, hf] using h
  have hidle : ∀ d, d ≠ c → (initial c n heap).clients d = .idle := by
    intro d hd
    simp [initial, Function.update_of_ne hd]
  -- only the constructing client is in the loop, and nobody is in a wait
  refine ⟨⟨fun d hd => ?_, fun d left p hd => ?_, fun d left p hd => ?_⟩, ⟨?_, hlags _ rfl⟩,
    ⟨?_, ?_, ⟨∅, by simp [initial, ThreadControl.create, Status.waiting], rfl⟩, hlags _ rfl⟩⟩
  · by_cases hdc : d = c
    · rw [hdc]
      exact halone
    · exact absurd (halone d hdc) hd
  · by_cases hdc : d = c
    · subst hdc
      simp [initial] at hd
    · rw [hidle d hdc] at hd
      cases hd
  · by_cases hdc : d = c
    · rw [hdc]
      exact ⟨rfl, hidle⟩
    · rw [hidle d hdc] at hd
      cases hd
  · intro t w hw
    cases hw
  · intro i w hw
    cases hw
  · intro d w hw
    cases hw

theorem growth_of_reachable {n : Nat} {ok : GenericThreadPool ι → Ev ι → Prop}
    (h : (system ι n).ReachableBy ok s) : Growth s := by
  refine h.invariant ?_ fun _ _ _ _ hgrowth _ hs => hgrowth.step hs
  rintro s ⟨c, heap, rfl⟩
  exact growth_initial

-- ============================================================================
-- What a step does to PausePoint
-- ============================================================================

/-- How `PausePoint` can change. -/
inductive PauseMove (s : GenericThreadPool ι) : Config (Tid ι) PausePoint PausePoint.Wait → Prop
  | same : PauseMove s s._tc.pausePoint
  | check {i : Nat} {x : Config (Tid ι) PausePoint PausePoint.Wait} {r : Option Unit} :
      s.workers i = .pause →
      PausePoint.monitor.advance (.worker i) .pauseIfRequred s._tc.pausePoint = some (x, r) →
      PauseMove s x
  | pause {c : ι} {x : Config (Tid ι) PausePoint PausePoint.Wait} {r : Option Unit} :
      s.clients c = .pausing →
      PausePoint.monitor.advance (.client c) .pause s._tc.pausePoint = some (x, r) →
      PauseMove s x
  | resume {c : ι} {x : Config (Tid ι) PausePoint PausePoint.Wait} {r : Option Unit} :
      s.clients c = .resuming →
      PausePoint.monitor.advance (.client c) .resume s._tc.pausePoint = some (x, r) →
      PauseMove s x
  | count {c : ι} {x : Config (Tid ι) PausePoint PausePoint.Wait} {r : Option Unit} :
      (s.clients c).loop ≠ none →
      PausePoint.monitor.advance (.client c) (.addThread 1) s._tc.pausePoint = some (x, r) →
      PauseMove s x
  | spurious {t : Tid ι} {x : Config (Tid ι) PausePoint PausePoint.Wait} :
      Monitor.spurious t s._tc.pausePoint = some x → PauseMove s x

variable {e : Ev ι}

theorem pauseMove_of_add {left : Nat} {pc : AddPc} {r : Option (Nat × AddPc)}
    (hloop : (s.clients c).loop ≠ none) (h : AddMove s c left pc s' r) :
    PauseMove s s'._tc.pausePoint := by
  cases h with
  | finish => exact .same
  | emplace => exact .same
  | @announce _ b tc r hadv =>
      cases b with
      | syncPoint =>
          obtain ⟨x, -, rfl⟩ := advance_sync hadv
          exact .same
      | fanIn =>
          obtain ⟨x, -, rfl⟩ := advance_fanIn hadv
          exact .same
      | pausePoint =>
          obtain ⟨x, hx, rfl⟩ := advance_pause hadv
          exact .count hloop hx

theorem pauseMove_of_step (hs : GenericThreadPool.step s e = some s') :
    PauseMove s s'._tc.pausePoint := by
  cases e with
  | call c op =>
      obtain ⟨-, -, -, htc⟩ := callStep_frame hs
      rw [htc]
      exact .same
  -- only `pause`, `resume` and the loop over `_add_thread` reach `PausePoint`
  | client c =>
      cases clientMove_of_step hs with
      | construct hpc hadd =>
          have hmove := pauseMove_of_add (c := c) (by simp [hpc, ClientPc.loop]) hadd
          exact hmove
      | built hpc hadd =>
          have hmove := pauseMove_of_add (c := c) (by simp [hpc, ClientPc.loop]) hadd
          exact hmove
      | add hpc hadd =>
          have hmove := pauseMove_of_add (c := c) (by simp [hpc, ClientPc.loop]) hadd
          exact hmove
      | added hpc hadd =>
          have hmove := pauseMove_of_add (c := c) (by simp [hpc, ClientPc.loop]) hadd
          exact hmove
      | pause hpc hadv =>
          obtain ⟨x, hx, rfl⟩ := advance_pause hadv
          exact .pause hpc hx
      | resume hpc hadv =>
          obtain ⟨x, hx, rfl⟩ := advance_pause hadv
          exact .resume hpc hx
      | stopWait hpc hadv =>
          obtain ⟨x, -, rfl⟩ := advance_fanIn hadv
          exact .same
      | _ => exact .same
  -- only `pauseIfRequred` does
  | worker i =>
      obtain ⟨-, hmove⟩ := workerMove_of_step hs
      cases hmove with
      | pause hpc hadv =>
          obtain ⟨x, hx, rfl⟩ := advance_pause hadv
          exact .check hpc hx
      | done hpc hadv =>
          obtain ⟨x, -, rfl⟩ := advance_fanIn hadv
          exact .same
      | _ => exact .same
  | timeout i =>
      obtain ⟨-, -, q, r, -, rfl⟩ := timeoutStep_some hs
      exact .same
  | spuriousTc b t =>
      simp only [GenericThreadPool.step, Option.map_eq_some_iff] at hs
      obtain ⟨tc, hsp, rfl⟩ := hs
      cases b with
      | pausePoint =>
          simp only [ThreadControl.spurious, Option.map_eq_some_iff] at hsp
          obtain ⟨x, hx, rfl⟩ := hsp
          exact .spurious hx
      | _ =>
          simp only [ThreadControl.spurious, Option.map_eq_some_iff] at hsp
          obtain ⟨x, -, rfl⟩ := hsp
          exact .same
  | spuriousQ t =>
      simp only [GenericThreadPool.step, Option.map_eq_some_iff] at hs
      obtain ⟨q, -, rfl⟩ := hs
      exact .same

/-- The pause flag goes up in `pause` and down in `resume`. -/
theorem PauseMove.flag {x : Config (Tid ι) PausePoint PausePoint.Wait} (h : PauseMove s x)
    (hres : ∀ c, s.clients c ≠ .resuming) (hflag : s._tc.pausePoint.data.mPause = true) :
    x.data.mPause = true := by
  cases h with
  | same => exact hflag
  | check _ hx => exact PausePoint.advance_flag hx (by simp) hflag
  | pause _ hx => exact PausePoint.advance_flag hx (by simp) hflag
  | resume hc _ => exact absurd hc (hres _)
  | count _ hx => exact PausePoint.advance_flag hx (by simp) hflag
  | spurious hx => rw [(spurious_frame hx).1, hflag]

end GenericThreadPool
end Fredlib
