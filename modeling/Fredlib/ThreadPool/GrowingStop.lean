/-
  Fredlib.ThreadPool.GrowingStop

  `stop` of a `GenericThreadPool` that grows meanwhile.

  A new worker that sees the stop flag may call `done` before `_add_thread` has
  told `FanInPoint` of it.  The counter is then -1 when every worker has called
  `done`, and the `add_thread` that brings it to 0 notifies nobody.  `Heeded`
  says that this does not happen to a sleeping `stop` at the last worker of a
  call; exactly then no `stop` hangs (`stop_hung_iff`).
-/

import Fredlib.ThreadPool.Growth

namespace Fredlib

open Lib Lib.Monitor ThreadControl

namespace GenericThreadPool

variable {ι : Type*} [DecidableEq ι]

/-- The client `c` sleeps in the wait of `stop`, and nobody has notified it. -/
def Asleep (s : GenericThreadPool ι) (c : ι) : Prop :=
  s._tc.fanIn.thr (.client c) = .asleep .fannedIn

/-- A `stop` sleeps although every worker has called `done` and no `add_thread`
    is under way. -/
def Hung (s : GenericThreadPool ι) : Prop :=
  (∃ c, s.Asleep c) ∧ (∀ i, i < s.created → s.workers i = .exited) ∧
    ∀ c left pc, s.clients c ≠ .adding left pc

/-- A call of `add_thread` does not tell `FanInPoint` of its last worker while
    the counter is -1 and a `stop` sleeps. -/
def Heeded (s : GenericThreadPool ι) (e : Ev ι) : Prop :=
  ∀ c, e = .client c → s.clients c = .adding 0 (.announce .fanIn) →
    s._tc.fanIn.data.mExpectedThreads = -1 → ∀ d, ¬ s.Asleep d

/-- If everybody has called `done` while a `stop` sleeps, a client in the loop
    over `_add_thread` has a worker left to create, or to tell `FanInPoint` of. -/
def Heard (s : GenericThreadPool ι) : Prop :=
  ∀ c, s.Asleep c → s.running = ∅ →
    ∃ d left pc, (s.clients d).loop = some (left, pc) ∧ (0 < left ∨ pc.fanLag = 1)

variable {s s' : GenericThreadPool ι} {i : Nat} {c : ι} {e : Ev ι}

omit [DecidableEq ι] in
theorem FanAt.stopping (h : FanAt s) (hc : s.Asleep c) : s.clients c = .stopWait := by
  have hc' : s._tc.fanIn.thr (.client c) = .asleep .fannedIn := hc
  obtain ⟨d, hd, hwait⟩ := h.waiter (.client c) .fannedIn (by rw [hc']; rfl)
  cases hd
  exact hwait

theorem AddPc.fanLag_eq (pc : AddPc) : pc.fanLag = 0 ∨ pc.fanLag = 1 := by
  cases pc with
  | head => exact .inl rfl
  | announce b => cases b <;> simp [fanLag]

omit [DecidableEq ι] in
/-- Nobody runs but the counter is not zero: the client in the loop has yet to
    tell `FanInPoint` of a worker. -/
theorem FanAt.lagging (h : FanAt s) (hadders : Adders s) (c : ι) (hempty : s.running = ∅)
    (hne : s._tc.fanIn.data.mExpectedThreads ≠ 0) :
    ∃ d left pc, (s.clients d).loop = some (left, pc) ∧ pc.fanLag = 1 := by
  have hcard : (s.running.card : Int) = 0 := by rw [hempty]; rfl
  -- if nobody is in the loop there is no lag, and the counter is zero
  by_cases hnone : ∀ d, (s.clients d).loop = none
  · have hlag := h.counter c fun d _ => hnone d
    rw [ClientPc.lag_of_out (hnone c)] at hlag
    omega
  · obtain ⟨d, hd⟩ := not_forall.mp hnone
    obtain ⟨⟨left, pc⟩, hloop⟩ := Option.ne_none_iff_exists'.mp hd
    have hlag := h.counter d (hadders.alone d hd)
    rw [ClientPc.lag_of_loop hloop] at hlag
    refine ⟨d, left, pc, hloop, ?_⟩
    rcases pc.fanLag_eq with hzero | hone <;> omega

/-- A client in the loop over `_add_thread` stays where it is when another moves. -/
theorem setClient_loop {pc : ClientPc} (hout : (s.clients c).loop = none) {d : ι} {x : Nat × AddPc}
    (hd : (s.clients d).loop = some x) : ((s.setClient c pc).clients d).loop = some x := by
  have hdc : d ≠ c := by
    rintro rfl
    rw [hout] at hd
    cases hd
  rw [setClient_of_ne hdc, hd]

namespace Heard

omit [DecidableEq ι] in
/-- A step that puts nobody to sleep and keeps the loop. -/
theorem quiet (h : Heard s) (hasleep : ∀ c, s'.Asleep c → s.Asleep c)
    (hrunning : s'.running = s.running)
    (hloop : ∀ d x, (s.clients d).loop = some x → (s'.clients d).loop = some x) : Heard s' := by
  intro c hc hempty
  rw [hrunning] at hempty
  obtain ⟨d, left, pc, hd, hor⟩ := h c (hasleep c hc) hempty
  exact ⟨d, left, pc, hloop d _ hd, hor⟩

/-- A client takes a step in another call than `stop`. -/
theorem of_other_call {pc pc' : ClientPc} (h : Heard s) (hpc : s.clients c = pc)
    (hout : pc.loop = none)
    (hclients : s'.clients = Function.update s.clients c pc')
    (hfan : s'._tc.fanIn = s._tc.fanIn) (hrunning : s'.running = s.running) : Heard s' := by
  refine h.quiet (fun d hd => ?_) hrunning fun d x hd => ?_
  · rwa [Asleep, hfan] at hd
  · rw [show s'.clients = (s.setClient c pc').clients from hclients]
    exact setClient_loop (by rw [hpc]; exact hout) hd

omit [DecidableEq ι] in
/-- A worker takes a step and runs on. -/
theorem of_worker_running {pc : WorkerPc} (h : Heard s) (hold : s.workers i ≠ .exited)
    (hnew : pc ≠ .exited) (hfan : s'._tc.fanIn = s._tc.fanIn) (hcreated : s'.created = s.created)
    (hworkers : s'.workers = Function.update s.workers i pc) (hclients : s'.clients = s.clients) :
    Heard s' := by
  have hrunning : s'.running = (s.setWorker i pc).running := running_congr hcreated hworkers
  refine h.quiet (fun d hd => ?_) (hrunning.trans (running_setWorker hold hnew)) fun d x hd => ?_
  · rwa [Asleep, hfan] at hd
  · rwa [hclients]

/-- A step of the wait in `stop`: a counter other than zero has a worker to come. -/
theorem stopWait {tc : ThreadControl (Tid ι)} {r : Option Unit} (h : Heard s)
    (hpc : s.clients c = .stopWait)
    (hadv : s._tc.advance (.client c) (.fanIn .wait) = some (tc, r))
    (hs' : s' = { s with _tc := tc }.setClient c (if r.isSome then .join 0 else .stopWait))
    (hfan : FanAt s') (hadders : Adders s') : Heard s' := by
  obtain ⟨x, hx, rfl⟩ := advance_fanIn hadv
  have hxfan : s'._tc.fanIn = x := by rw [hs']; rfl
  intro d hd hempty
  rw [Asleep, hxfan] at hd
  by_cases hdc : d = c
  · subst hdc
    -- `c` itself has just gone to sleep, on a counter that is not zero
    have hpred := FanInPoint.monitor.pred_of_asleep hx hd
    rw [FanInPoint.pred_eq, decide_eq_false_iff_not, ← hxfan] at hpred
    obtain ⟨y, left, pc, hy, hlag⟩ := hfan.lagging hadders d hempty hpred
    exact ⟨y, left, pc, hy, .inr hlag⟩
  · have hold := FanInPoint.monitor.asleep_of_advance hx (by simpa using hdc) hd
    have hrunning : s'.running = s.running := by rw [hs']; rfl
    obtain ⟨y, left, pc, hy, hor⟩ := h d hold (hrunning.symm.trans hempty)
    refine ⟨y, left, pc, ?_, hor⟩
    rw [hs']
    exact setClient_loop (s := s) (by rw [hpc]; rfl) hy

/-- A turn of the loop over `_add_thread`. -/
theorem add {left : Nat} {pc : AddPc} {p p' : ClientPc} {s₁ : GenericThreadPool ι}
    {r : Option (Nat × AddPc)} (h : Heard s) (hg : Growth s) (hp : s.clients c = p)
    (hpc : p.loop = some (left, pc)) (hadd : AddMove s c left pc s₁ r) (hp' : p'.loop = r)
    (hok : left = 0 → pc = .announce .fanIn → s._tc.fanIn.data.mExpectedThreads = -1 →
      ∀ d, ¬ s.Asleep d) : Heard (s₁.setClient c p') := by
  have halone : s.Alone c := hg.adders.alone c (by rw [hp, hpc]; simp)
  -- what a sleeper with nobody running says of this loop
  have hown : ∀ d, s.Asleep d → s.running = ∅ → 0 < left ∨ pc.fanLag = 1 := by
    intro d hd hempty
    obtain ⟨y, left', pc', hy, hor⟩ := h d hd hempty
    have hyc : y = c := by
      by_contra hne
      rw [halone y hne] at hy
      cases hy
    subst hyc
    rw [hp, hpc] at hy
    cases hy
    exact hor
  intro d hd hempty
  cases hadd with
  | finish =>
      rcases hown d hd hempty with hlt | hlag
      · omega
      · cases hlag
  -- a new worker runs, so the premise fails
  | emplace =>
      have hnew : s.created ∈ s.emplace.running := by
        rw [running_emplace]
        exact Finset.mem_insert_self _ _
      rw [show s.emplace.running = ∅ from hempty] at hnew
      exact absurd hnew (Finset.notMem_empty _)
  | @announce _ b tc r hadv =>
      refine ⟨c, left, .after b, by rw [setClient_self, hp'], ?_⟩
      cases b with
      | syncPoint => exact .inr rfl
      | pausePoint =>
          obtain ⟨x, -, rfl⟩ := advance_pause hadv
          -- `FanInPoint` has been told of this worker, so another is left to create
          rcases hown d hd hempty with hlt | hlag
          · exact .inl hlt
          · cases hlag
      | fanIn =>
          obtain ⟨x, hx, rfl⟩ := advance_fanIn hadv
          left
          -- the last worker of the call: the counter goes from -1 to 0 in silence
          by_contra hleft
          have hne : d ≠ c := by
            rintro rfl
            have hout := hg.fan.client_out (c := d) (by rw [hp]; rintro rfl; cases hpc)
            have hawake : x.thr (.client d) = .asleep .fannedIn := hd
            rw [FanInPoint.advance_out hx hout (by simp)] at hawake
            cases hawake
          have hold := FanInPoint.monitor.asleep_of_advance hx (by simpa using hne) hd
          have hlag := hg.fan.counter c halone
          rw [hp, ClientPc.lag_of_loop hpc] at hlag
          have hcard : (s.running.card : Int) = 0 := by
            rw [show s.running = ∅ from hempty]
            rfl
          refine hok (by omega) rfl ?_ d hold
          simp only [AddPc.fanLag] at hlag
          omega

omit [DecidableEq ι] in
/-- What the constructor and `add_thread` do at their end. -/
theorem same (h : Heard s) (htc : s'._tc = s._tc) (hcreated : s'.created = s.created)
    (hworkers : s'.workers = s.workers) (hclients : s'.clients = s.clients) : Heard s' := by
  refine h.quiet (fun d hd => ?_) (running_congr hcreated hworkers) fun d x hd => ?_
  · rwa [Asleep, htc] at hd
  · rwa [hclients]

theorem client (h : Heard s) (hg : Growth s) (hok : Heeded s (.client c))
    (hs : s.clientStep c = some s') : Heard s' := by
  -- nobody is in `stop` while the pool is being constructed
  have hbuilding : ∀ left pc d, s.clients c = .constructing left pc → ¬ s.Asleep d := by
    intro left pc d hpc hd
    have hwait := hg.fan.stopping hd
    have hne : d ≠ c := by
      rintro rfl
      rw [hpc] at hwait
      cases hwait
    rw [(hg.adders.building c left pc hpc).2 d hne] at hwait
    cases hwait
  -- only `add_thread` needs the hypothesis, at the one place `Heeded` speaks of
  have hadding : ∀ {left pc}, s.clients c = .adding left pc → left = 0 →
      pc = .announce .fanIn → s._tc.fanIn.data.mExpectedThreads = -1 → ∀ d, ¬ s.Asleep d := by
    rintro left pc hpc rfl rfl
    exact hok c rfl hpc
  cases clientMove_of_step hs with
  | construct hpc hadd => exact h.add hg hpc rfl hadd rfl fun _ _ _ d => hbuilding _ _ d hpc
  | @built _ _ s₁ hpc hadd =>
      have hidle : Heard (s₁.setClient c .idle) :=
        h.add hg hpc rfl hadd rfl fun _ _ _ d => hbuilding _ _ d hpc
      exact hidle.same rfl rfl rfl rfl
  | add hpc hadd => exact h.add hg hpc rfl hadd rfl (hadding hpc)
  | @added _ _ s₁ hpc hadd =>
      have hidle : Heard (s₁.setClient c .idle) := h.add hg hpc rfl hadd rfl (hadding hpc)
      exact hidle.same rfl rfl rfl rfl
  | push hpc => exact h.of_other_call hpc rfl rfl rfl rfl
  | pause hpc hadv =>
      obtain ⟨x, -, rfl⟩ := advance_pause hadv
      exact h.of_other_call hpc rfl rfl rfl rfl
  | resume hpc hadv =>
      obtain ⟨x, -, rfl⟩ := advance_pause hadv
      exact h.of_other_call hpc rfl rfl rfl rfl
  | stopNum hpc => exact h.of_other_call hpc rfl rfl rfl rfl
  | stopSet hpc => exact h.of_other_call hpc rfl rfl rfl rfl
  | stopWait hpc hadv =>
      have hg' := hg.step (e := .client c) hs
      exact h.stopWait hpc hadv rfl hg'.fan hg'.adders
  | join hpc => exact h.of_other_call hpc rfl rfl rfl rfl
  | joined hpc => exact h.of_other_call hpc rfl rfl rfl rfl
  | stopClear hpc => exact h.of_other_call hpc rfl rfl rfl rfl

theorem worker (h : Heard s) (hg : Growth s) (hs : s.workerStep i = some s') : Heard s' := by
  obtain ⟨hi, hmove⟩ := workerMove_of_step hs
  cases hmove with
  | @pause tc r hpc hadv =>
      obtain ⟨x, -, rfl⟩ := advance_pause hadv
      exact h.of_worker_running (by simp [hpc]) (by cases r <;> simp) rfl rfl rfl rfl
  | check hpc => exact h.of_worker_running (by simp [hpc]) (by split <;> simp) rfl rfl rfl rfl
  | pop hpc => exact h.of_worker_running (by simp [hpc]) afterPop_ne_exited rfl rfl rfl rfl
  | run hpc => exact h.of_worker_running (by simp [hpc]) (by simp) rfl rfl rfl rfl
  | inside hpc => exact h.of_worker_running (by simp [hpc]) (by simp) rfl rfl rfl rfl
  | delete hpc => exact h.of_worker_running (by simp [hpc]) (by simp) rfl rfl rfl rfl
  | done hpc hadv =>
      obtain ⟨x, hx, rfl⟩ := advance_fanIn hadv
      exact fun d hd => absurd hd (FanInPoint.done_wakes hx hg.fan.worker_out _ _)

theorem step (h : Heard s) (hg : Growth s) (hok : Heeded s e)
    (hs : GenericThreadPool.step s e = some s') : Heard s' := by
  cases e with
  | call c op =>
      obtain ⟨-, hidle, hmove⟩ := callMove_of_step hs
      cases hmove <;> exact h.of_other_call hidle rfl rfl rfl rfl
  | client c => exact h.client hg hok hs
  | worker i => exact h.worker hg hs
  | timeout i =>
      obtain ⟨-, hpc, q, r, -, rfl⟩ := timeoutStep_some hs
      exact h.of_worker_running (by simp [hpc]) afterPop_ne_exited rfl rfl rfl rfl
  | spuriousTc b t =>
      simp only [GenericThreadPool.step, Option.map_eq_some_iff] at hs
      obtain ⟨tc, hsp, rfl⟩ := hs
      refine h.quiet (fun d hd => ?_) rfl fun _ _ hd => hd
      -- only `FanInPoint` can wake a `stop`, and a wake-up leaves no new sleeper
      cases b with
      | fanIn =>
          simp only [ThreadControl.spurious, Option.map_eq_some_iff] at hsp
          obtain ⟨x, hx, rfl⟩ := hsp
          exact asleep_of_spurious hx hd
      | _ =>
          simp only [ThreadControl.spurious, Option.map_eq_some_iff] at hsp
          obtain ⟨x, -, rfl⟩ := hsp
          exact hd
  | spuriousQ t =>
      simp only [GenericThreadPool.step, Option.map_eq_some_iff] at hs
      obtain ⟨q, -, rfl⟩ := hs
      exact h.same rfl rfl rfl rfl

omit [DecidableEq ι] in
/-- With a worker to come, no `stop` hangs. -/
theorem not_hung (h : Heard s) (hg : Growth s) : ¬ s.Hung := by
  rintro ⟨⟨c, hc⟩, hexited, hadding⟩
  obtain ⟨d, left, pc, hd, -⟩ := h c hc (running_eq_empty.mpr hexited)
  cases hpc : s.clients d with
  | adding left' pc' => exact hadding d left' pc' hpc
  | constructing left' pc' =>
      have hwait := hg.fan.stopping hc
      have hne : c ≠ d := by
        rintro rfl
        rw [hpc] at hwait
        cases hwait
      rw [(hg.adders.building d left' pc' hpc).2 c hne] at hwait
      cases hwait
  | _ =>
      rw [hpc] at hd
      cases hd

end Heard

theorem heard_of_reachable {n : Nat} (h : (system ι n).ReachableBy Heeded s) : Heard s := by
  refine h.invariant ?_ fun s e s' hreach hheard hok hs =>
    hheard.step (growth_of_reachable hreach) hok hs
  rintro s ⟨c, heap, rfl⟩ d hd
  cases hd

-- ============================================================================
-- An unheeded step
-- ============================================================================

theorem addStep_announce {left : Nat} {b : Base} {tc : ThreadControl (Tid ι)} {r : Option Unit}
    (h : s._tc.advance (.client c) (addThread 1 b) = some (tc, r)) :
    s.addStep c left (.announce b) = some ({ s with _tc := tc }, some (left, .after b)) := by
  simp only [addStep, h, Option.map_some]

theorem clientStep_add {left left' : Nat} {pc pc' : AddPc} (hpc : s.clients c = .adding left pc)
    (h : s.addStep c left pc = some (s', some (left', pc'))) :
    s.clientStep c = some (s'.setClient c (.adding left' pc')) := by
  simp only [clientStep, hpc, h, Option.map_some]

theorem clientStep_added (hpc : s.clients c = .adding 0 .head) :
    s.clientStep c = some ({ s with _muThreadPool := none }.setClient c .idle) := by
  simp only [clientStep, hpc, addStep, Option.map_some]

/-- After an unheeded step the client need only go on to the end of its call. -/
theorem hung_of_unheeded (hg : Growth s) (hs : s.clientStep c = some s')
    (hok : ¬ Heeded s (.client c)) :
    ∃ s₁ s₂, s'.clientStep c = some s₁ ∧ s₁.clientStep c = some s₂ ∧ s₂.Hung := by
  obtain ⟨c', hc', hpc, hcounter, hasleep⟩ : ∃ c', Ev.client c = .client c' ∧
      s.clients c' = .adding 0 (.announce .fanIn) ∧
      s._tc.fanIn.data.mExpectedThreads = -1 ∧ ∃ d, s.Asleep d := by
    simpa [Heeded] using hok
  cases hc'
  obtain ⟨d, hd⟩ := hasleep
  have halone := hg.adders.alone c (by rw [hpc]; simp [ClientPc.loop])
  -- a counter of -1 and a lag of 1: nobody runs
  have hempty : s.running = ∅ := by
    have hlag := hg.fan.counter c halone
    rw [hpc, ClientPc.lag_of_loop rfl, AddPc.fanLag, hcounter] at hlag
    exact Finset.card_eq_zero.mp (by omega)
  have hdc : d ≠ c := by
    rintro rfl
    have hwait := hg.fan.stopping hd
    rw [hpc] at hwait
    cases hwait
  have hfanOut := hg.fan.client_out (c := c) (by rw [hpc]; simp)
  have hpauseOut := hg.pause.client_out (c := c) (by rw [hpc]; simp) (by rw [hpc]; simp)
  -- the unheeded step wakes nobody
  obtain ⟨x, hx⟩ : ∃ x, FanInPoint.monitor.advance (.client c) (.addThread 1) s._tc.fanIn =
      some (x, some ()) :=
    ⟨_, FanInPoint.monitor.advance_of_out hfanOut (FanInPoint.enterSection_addThread 1 _)⟩
  cases hs.symm.trans (clientStep_add hpc (addStep_announce (b := .fanIn) (advance_of_fanIn hx)))
  -- the next tells `PausePoint`, the last one ends the call
  obtain ⟨y, hy⟩ : ∃ y, PausePoint.monitor.advance (.client c) (.addThread 1) s._tc.pausePoint =
      some (y, some ()) :=
    ⟨_, PausePoint.monitor.advance_of_out hpauseOut (PausePoint.enterSection_addThread _ 1)⟩
  refine ⟨_, _, clientStep_add setClient_self
    (addStep_announce (b := .pausePoint) (advance_of_pause hy)), clientStep_added setClient_self,
    ⟨d, ?_⟩, running_eq_empty.mp hempty, fun z left pc hz => ?_⟩
  · exact (FanInPoint.addThread_silent hx hfanOut (by simpa using hdc)).trans hd
  · -- nobody else is in the loop, since the caller has the mutex
    by_cases hzc : z = c
    · rw [hzc, setClient_self] at hz
      cases hz
    · have hold : s.clients z = .adding left pc := by simpa [setClient, hzc] using hz
      have hout := halone z hzc
      rw [hold] at hout
      cases hout

/-- **No `stop` hangs in a run whose steps are all heeded**, whatever clients
    there are and whatever they call; and a client that takes an unheeded step
    has a `stop` hang by the end of its call of `add_thread`. -/
theorem stop_hung_iff (n : Nat) :
    (∀ s, (system ι n).ReachableBy Heeded s → ¬ s.Hung) ∧
    ∀ s c s', (system ι n).Reachable s → (system ι n).step s (.client c) = some s' →
      ¬ Heeded s (.client c) → ∃ s₁ s₂, (system ι n).step s' (.client c) = some s₁ ∧
        (system ι n).step s₁ (.client c) = some s₂ ∧ s₂.Hung := by
  constructor
  · intro s h
    exact (heard_of_reachable h).not_hung (growth_of_reachable h)
  · intro s c s' h hs hok
    exact hung_of_unheeded (growth_of_reachable h) hs hok

/-- One client stops a pool of one worker and sleeps while another adds a second
    worker, which is done before `FanInPoint` is told of it. -/
theorem late_add_hangs_stop : ∃ s, (system Bool 1).Reachable s ∧ s.Hung := by
  have hrun : ∃ s, (system Bool 1).Run (fun _ _ => True)
      (initial false 1 fun _ => ListHook.unlinked)
      [.client false, .client false, .client false, .client false, .client false,
        .call false .stop, .client false, .client false, .client false,
        .call true (.addThread 1), .client true,
        .worker 0, .worker 0, .worker 0, .worker 1, .worker 1, .worker 1, .client false,
        .client true, .client true, .client true, .client true] s ∧
      s.Asleep false ∧ s.created = 2 ∧ s.workers 0 = .exited ∧ s.workers 1 = .exited ∧
      s.clients false = .stopWait ∧ s.clients true = .idle :=
    ⟨_, .cons trivial rfl <| .cons trivial rfl <| .cons trivial rfl <|
      .cons trivial rfl <| .cons trivial rfl <| .cons trivial rfl <| .cons trivial rfl <|
      .cons trivial rfl <| .cons trivial rfl <| .cons trivial rfl <| .cons trivial rfl <|
      .cons trivial rfl <| .cons trivial rfl <| .cons trivial rfl <| .cons trivial rfl <|
      .cons trivial rfl <| .cons trivial rfl <| .cons trivial rfl <| .cons trivial rfl <|
      .cons trivial rfl <| .cons trivial rfl <| .cons trivial rfl .nil,
      rfl, rfl, rfl, rfl, rfl, rfl⟩
  obtain ⟨s, hs, hasleep, htwo, hzero, hone, hstop, hidle⟩ := hrun
  refine ⟨s, hs.reachable (.init ⟨_, _, rfl⟩), ⟨false, hasleep⟩, fun i hi => ?_,
    fun c left pc hpc => ?_⟩
  · obtain rfl | rfl : i = 0 ∨ i = 1 := by omega
    · exact hzero
    · exact hone
  · cases c
    · rw [hstop] at hpc
      cases hpc
    · rw [hidle] at hpc
      cases hpc

end GenericThreadPool
end Fredlib
