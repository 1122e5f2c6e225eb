/-
  Fredlib.ThreadPool.GrowingPause

  `pause` of a `GenericThreadPool` that grows meanwhile.

  `pause` returns when as many workers are paused as `PausePoint` expects.  A
  worker that pauses before `_add_thread` has told `PausePoint` of it stands in
  for one that has not paused, which may be inside a function.  As long as
  nobody is on duty while `PausePoint` lags behind, a `pause` that has returned
  is effective until the next `resume` (`pause_effective_while_growing`).
-/

import Fredlib.ThreadPool.Growth

namespace Fredlib

open Lib Lib.Monitor ThreadControl

namespace GenericThreadPool

variable {ι : Type*} [DecidableEq ι]

/-- Nobody but `p` calls `pause` and `resume`. -/
def Solo (p : ι) : Ev ι → Prop
  | .call c .pause => c = p
  | .call c .resume => c = p
  | _ => True

/-- Past `pauseIfRequred`, on the way to a function or in it; whoever finds the
    stop flag set takes no function any more. -/
def WorkerPc.Duty (stopper : Bool) : WorkerPc → Prop
  | .check => stopper = false
  | .pop | .run _ | .inside _ => True
  | _ => False

/-- The worker `i` is on the way to a function or in it. -/
def OnDuty (s : GenericThreadPool ι) (i : Nat) : Prop :=
  i < s.created ∧ (s.workers i).Duty s._tc._stopper

/-- While `add_thread` has created a worker that `PausePoint` does not count,
    nobody is on duty. -/
def Counted (s : GenericThreadPool ι) : Prop :=
  ∀ c left b, s.clients c = .adding left (.announce b) → ∀ i, ¬ s.OnDuty i

variable {s s' : GenericThreadPool ι} {i : Nat} {c p : ι} {e : Ev ι}

-- ============================================================================
-- One client pauses
-- ============================================================================

/-- A client gets into `pause` and `resume` by calling them. -/
theorem enters {d : ι} {op : Call} {pc : ClientPc}
    (hop : op = .pause ∧ pc = .pausing ∨ op = .resume ∧ pc = .resuming)
    (hs : GenericThreadPool.step s e = some s') (hd : s'.clients d = pc) :
    s.clients d = pc ∨ e = .call d op := by
  cases e with
  | call c op' =>
      obtain ⟨-, -, hmove⟩ := callMove_of_step hs
      -- a client is put there by its own call; afterwards it stays or returns
      by_cases hdc : d = c
      · subst hdc
        right
        cases hmove <;> rw [setClient_self] at hd <;>
        rcases hop with ⟨rfl, rfl⟩ | ⟨rfl, rfl⟩ <;> first | rfl | cases hd
      · left
        cases hmove <;> rw [setClient_of_ne hdc] at hd <;> exact hd
  | client c =>
      left
      by_cases hdc : d = c
      · subst hdc
        cases clientMove_of_step hs with
        -- it leaves `pause` for `idle` only, and `resume` likewise
        | @pause tc r hpc _ =>
            rw [setClient_self] at hd
            rcases hop with ⟨-, rfl⟩ | ⟨-, rfl⟩
            · exact hpc
            · cases r <;> cases hd
        | @resume tc r hpc _ =>
            rw [setClient_self] at hd
            rcases hop with ⟨-, rfl⟩ | ⟨-, rfl⟩
            · cases r <;> cases hd
            · exact hpc
        | @stopWait tc r _ _ =>
            rw [setClient_self] at hd
            rcases hop with ⟨-, rfl⟩ | ⟨-, rfl⟩ <;> cases r <;> cases hd
        | stopNum =>
            rw [setClient_self] at hd
            rcases hop with ⟨-, rfl⟩ | ⟨-, rfl⟩ <;> split at hd <;> cases hd
        | _ =>
            rw [setClient_self] at hd
            rcases hop with ⟨-, rfl⟩ | ⟨-, rfl⟩ <;> cases hd
      · rw [clientStep_others hs hdc] at hd
        exact hd
  | worker i =>
      obtain ⟨-, -, -, -, hclients⟩ := workerStep_frame hs
      exact .inl (hclients ▸ hd)
  | timeout i =>
      obtain ⟨-, -, q, r, -, rfl⟩ := timeoutStep_some hs
      exact .inl hd
  | spuriousTc b t =>
      simp only [GenericThreadPool.step, Option.map_eq_some_iff] at hs
      obtain ⟨tc, -, rfl⟩ := hs
      exact .inl hd
  | spuriousQ t =>
      simp only [GenericThreadPool.step, Option.map_eq_some_iff] at hs
      obtain ⟨q, -, rfl⟩ := hs
      exact .inl hd

/-- Only `p` is ever in `pause` or `resume`, and it waits in `pause` with the flag
    set. -/
structure Pauser (p : ι) (s : GenericThreadPool ι) : Prop where
  other : ∀ c, s.clients c = .pausing ∨ s.clients c = .resuming → c = p
  flag : (s._tc.pausePoint.thr (.client p)).waiting = some .allPaused →
    s._tc.pausePoint.data.mPause = true

namespace Pauser

theorem step (h : Pauser p s) (hg : Growth s) (hsolo : Solo p e)
    (hs : GenericThreadPool.step s e = some s') : Pauser p s' := by
  constructor
  · rintro c (hc | hc)
    · rcases enters (.inl ⟨rfl, rfl⟩) hs hc with hold | rfl
      · exact h.other c (.inl hold)
      · exact hsolo
    · rcases enters (.inr ⟨rfl, rfl⟩) hs hc with hold | rfl
      · exact h.other c (.inr hold)
      · exact hsolo
  · have hmove := pauseMove_of_step hs
    generalize s'._tc.pausePoint = x at hmove ⊢
    intro hw
    -- `hw`: after the step `p` waits in `pause`
    cases hmove with
    | same => exact h.flag hw
    | check _ hx =>
        rw [(PausePoint.monitor.advance_frame hx).1 _ (by simp)] at hw
        exact PausePoint.advance_flag hx (by simp) (h.flag hw)
    | @pause c _ _ hc hx =>
        have hcp := h.other c (.inl hc)
        subst hcp
        -- its first section sets the flag; a re-check finds it set
        by_cases hout : s._tc.pausePoint.thr (.client c) = .out
        · rw [((PausePoint.advance_effect hx).1 hout).2]
          rfl
        · obtain ⟨w, hw⟩ := Option.ne_none_iff_exists'.mp (mt Status.waiting_eq_none.mp hout)
          rcases hg.pause.client c w hw with ⟨rfl, -⟩ | ⟨-, hres⟩
          · exact PausePoint.advance_flag hx (by simp) (h.flag hw)
          · rw [hc] at hres
            cases hres
    | @resume c _ _ hc hx =>
        have hcp := h.other c (.inr hc)
        subst hcp
        -- a step inside `resume` does not end in the wait of `pause`
        have hat : ∀ w, (s._tc.pausePoint.thr (.client c)).waiting = some w →
            PausePoint.Op.resume.wait = some w := by
          intro w hw
          rcases hg.pause.client c w hw with ⟨-, hpc⟩ | ⟨rfl, -⟩
          · rw [hc] at hpc
            cases hpc
          · rfl
        cases PausePoint.advance_wait hx hat hw
    | @count c _ _ hc hx =>
        -- nor does a step of `add_thread` by `p`; those of others leave the flag
        by_cases hcp : p = c
        · subst hcp
          have hout := hg.pause.client_out (c := p) (by rintro hp; rw [hp] at hc; exact hc rfl)
            (by rintro hp; rw [hp] at hc; exact hc rfl)
          cases PausePoint.advance_wait hx (by simp [hout, Status.waiting]) hw
        · rw [(PausePoint.monitor.advance_frame hx).1 _ (by simpa using hcp)] at hw
          exact PausePoint.advance_flag hx (by simp) (h.flag hw)
    | spurious hx =>
        rw [(spurious_frame hx).2] at hw
        rw [(spurious_frame hx).1]
        exact h.flag hw

end Pauser

theorem pauser_of_reachable {n : Nat} (h : (system ι n).ReachableBy (fun _ e => Solo p e) s) :
    Pauser p s := by
  refine h.invariant ?_ fun s e s' hreach hpauser hsolo hs =>
    hpauser.step (growth_of_reachable hreach) hsolo hs
  rintro s ⟨c, heap, rfl⟩
  refine ⟨fun d hd => ?_, fun hw => by cases hw⟩
  by_cases hdc : d = c
  · subst hdc
    simp [initial] at hd
  · simp [initial, hdc] at hd

-- ============================================================================
-- Once pause has returned
-- ============================================================================

/-- A pause is on, nobody takes it back, and nobody is on duty. -/
structure Quiet (s : GenericThreadPool ι) : Prop where
  flag : s._tc.pausePoint.data.mPause = true
  resuming : ∀ c, s.clients c ≠ .resuming
  offDuty : ∀ i, ¬ s.OnDuty i

omit [DecidableEq ι] in
theorem onDuty_of_inside (h : s.Inside i) : s.OnDuty i := by
  obtain ⟨hi, qe, hpc⟩ := h
  refine ⟨hi, ?_⟩
  rw [hpc]
  trivial

/-- When every worker that `PausePoint` expects is paused, and it expects all of
    them, nobody is on duty. -/
theorem PauseAt.all_paused (h : PauseAt s)
    (hcount : s._tc.pausePoint.data.mPausedThreads = s.created) (hi : i < s.created) :
    s.workers i = .pause := by
  let A : Finset (Tid ι) := (Finset.range s.created).image Tid.worker
  have hcard : A.card = s.created := by
    rw [Finset.card_image_of_injective _ fun a b hab => by cases hab; rfl, Finset.card_range]
  have hpaused := h.paused
  rw [hcount, ← hcard] at hpaused
  -- only created workers wait there, and as many wait as there are
  have hmem : ∀ t, (s._tc.pausePoint.thr t).waiting = some .resumed → t ∈ A := by
    intro t ht
    cases t with
    | client c => rcases h.client c _ ht with ⟨hw, -⟩ | ⟨hw, -⟩ <;> cases hw
    | worker j => exact Finset.mem_image_of_mem _ (Finset.mem_range.mpr (h.worker j _ ht).2.1)
  have hwait := hpaused.all_of_card hmem
    (Finset.mem_image_of_mem Tid.worker (Finset.mem_range.mpr hi))
  exact (h.worker i _ hwait).2.2

omit [DecidableEq ι] in
/-- While a client is in another call and no `add_thread` is between the creation
    of a worker and its end, the counters do not lag. -/
theorem Adders.no_lag {pc : ClientPc} (h : Adders s) (hpc : s.clients c = pc)
    (hidle : pc ≠ .idle) (hout : pc.loop = none)
    (hlate : ¬ ∃ d left b, s.clients d = .adding left (.announce b)) :
    ∃ d, s.Alone d ∧ (s.clients d).lag AddPc.pauseLag = 0 := by
  -- whoever is in the loop is at its head, where the counter has caught up
  by_cases hin : ∃ d, (s.clients d).loop ≠ none
  · obtain ⟨d, hd⟩ := hin
    refine ⟨d, h.alone d hd, ?_⟩
    cases hdpc : s.clients d with
    | adding left p =>
        cases p with
        | head => rfl
        | announce b => exact absurd ⟨d, left, b, hdpc⟩ hlate
    | constructing left p =>
        have hcd : c ≠ d := by
          rintro rfl
          rw [hpc] at hd
          exact hd hout
        exact absurd (hpc.symm.trans ((h.building d left p hdpc).2 c hcd)) hidle
    | _ =>
        rw [hdpc] at hd
        exact absurd rfl hd
  · have hnone : ∀ d, (s.clients d).loop = none := by simpa using hin
    exact ⟨c, fun d _ => hnone d, ClientPc.lag_of_out (hnone c)⟩

/-- What `pause` returns to. -/
theorem quiet_of_return (hg : Growth s) (hp : Pauser p s) (hcounted : Counted s)
    (hpc : s.clients p = .pausing) (hs : s.clientStep p = some s') (hret : s'.clients p = .idle) :
    Quiet s' := by
  obtain ⟨tc, r, hadv, rfl⟩ : ∃ tc r, s._tc.advance (.client p) (.pause .pause) = some (tc, r) ∧
      s' = { s with _tc := tc }.setClient p (if r.isSome then .idle else .pausing) := by
    cases clientMove_of_step hs with
    | @pause tc r _ hadv => exact ⟨tc, r, hadv, rfl⟩
    | _ => simp_all
  have hr : r = some () := by
    rw [setClient_self] at hret
    cases r with
    | none => cases hret
    | some u => rfl
  subst hr
  obtain ⟨x, hx, rfl⟩ := advance_pause hadv
  have hat : ∀ w, (s._tc.pausePoint.thr (.client p)).waiting = some w → w = .allPaused := by
    intro w hw
    rcases hg.pause.client p w hw with ⟨hall, -⟩ | ⟨-, hres⟩
    · exact hall
    · rw [hpc] at hres
      cases hres
  -- its predicate held: as many have paused as `PausePoint` expects
  obtain ⟨hmet, hdata⟩ := PausePoint.pause_met hat hp.flag hx
  refine ⟨?_, fun c hc => ?_, fun i hi => ?_⟩
  · show x.data.mPause = true
    rw [hdata]
  · by_cases hcp : c = p
    · rw [hcp, setClient_self] at hc
      cases hc
    · rw [setClient_of_ne hcp] at hc
      exact hcp (hp.other c (.inr hc))
  · have hduty : s.OnDuty i := hi
    by_cases hlate : ∃ c left b, s.clients c = .adding left (.announce b)
    · -- inside the window the hypothesis says it
      obtain ⟨c, left, b, hc⟩ := hlate
      exact hcounted c left b hc i hduty
    · -- `PausePoint` expects all that have been created
      obtain ⟨c, halone, hlag⟩ := hg.adders.no_lag hpc (by simp) rfl hlate
      have hcounter := hg.pause.counter c halone
      rw [hlag] at hcounter
      have hpause := hg.pause.all_paused (by rw [hmet]; omega) hduty.1
      have hnot := hduty.2
      rw [hpause] at hnot
      exact hnot

namespace Quiet

omit [DecidableEq ι] in
/-- A worker goes on to a place that is not on the way to a function. -/
theorem not_onDuty_of_worker {pc : WorkerPc} {j : Nat} (h : Quiet s) (hj : s'.OnDuty j)
    (hpc : ¬ pc.Duty s._tc._stopper) (hworkers : s'.workers = Function.update s.workers i pc)
    (hcreated : s'.created = s.created) (hflag : s'._tc._stopper = s._tc._stopper) : False := by
  obtain ⟨hj, hduty⟩ := hj
  rw [hworkers, hflag] at hduty
  by_cases hji : j = i
  · rw [hji, Function.update_self] at hduty
    exact hpc hduty
  · rw [Function.update_of_ne hji] at hduty
    exact h.offDuty j ⟨by omega, hduty⟩

/-- A worker's step puts nobody on duty. -/
theorem worker {j : Nat} (h : Quiet s) (hg : Growth s) (hs : s.workerStep i = some s')
    (hj : s'.OnDuty j) : False := by
  obtain ⟨hi, hmove⟩ := workerMove_of_step hs
  have hoff : ∀ {pc}, s.workers i = pc → ¬ pc.Duty s._tc._stopper := by
    rintro pc rfl hduty
    exact h.offDuty i ⟨hi, hduty⟩
  cases hmove with
  | @pause tc r hpc hadv =>
      obtain ⟨x, hx, rfl⟩ := advance_pause hadv
      have hat := fun w hw => (hg.pause.worker i w hw).1
      -- the flag holds it in `pauseIfRequred`
      have hnone := PausePoint.check_paused hat h.flag hx
      subst hnone
      exact h.not_onDuty_of_worker hj (hoff hpc) rfl rfl rfl
  | check hpc =>
      refine h.not_onDuty_of_worker hj ?_ rfl rfl rfl
      -- off duty at this place means that the stop flag is set
      cases hflag : s._tc._stopper with
      | false => exact absurd hflag (hoff hpc)
      | true => simp [stopRequired, hflag, WorkerPc.Duty]
  | pop hpc => exact absurd trivial (hoff hpc)
  | run hpc => exact absurd trivial (hoff hpc)
  | inside hpc => exact absurd trivial (hoff hpc)
  | delete hpc => exact h.not_onDuty_of_worker hj id rfl rfl rfl
  | done hpc hadv => exact h.not_onDuty_of_worker hj id rfl rfl (advance_stopper hadv)

omit [DecidableEq ι] in
/-- A client creates workers that have yet to check, and sets the stop flag. -/
theorem grows {j : Nat} (h : Quiet s) (hj : s'.OnDuty j) (hgrows : Grows s s')
    (hflag : s._tc._stopper = true → s'._tc._stopper = true) : False := by
  -- setting the stop flag can only take a worker off duty
  have hduty : ∀ {pc : WorkerPc}, pc.Duty s'._tc._stopper → pc.Duty s._tc._stopper := by
    intro pc hpc
    cases pc with
    | check =>
        cases hold : s._tc._stopper with
        | false => rfl
        | true =>
            rw [hflag hold] at hpc
            cases hpc
    | _ => exact hpc
  obtain ⟨hj, hpc⟩ := hj
  rcases hgrows with ⟨hcreated, hworkers⟩ | ⟨hcreated, hworkers⟩
  · rw [hworkers] at hpc
    exact h.offDuty j ⟨by omega, hduty hpc⟩
  · rw [hworkers] at hpc
    by_cases hjc : j = s.created
    · rw [hjc, Function.update_self] at hpc
      exact hpc
    · rw [Function.update_of_ne hjc] at hpc
      exact h.offDuty j ⟨by omega, hduty hpc⟩

theorem step (h : Quiet s) (hg : Growth s) (hsolo : Solo p e) (hres : e ≠ .call p .resume)
    (hs : GenericThreadPool.step s e = some s') : Quiet s' := by
  refine ⟨(pauseMove_of_step hs).flag h.resuming h.flag, fun c hc => ?_, fun j hj => ?_⟩
  · -- nobody else calls `resume`, and `p` does not
    rcases enters (.inr ⟨rfl, rfl⟩) hs hc with hold | rfl
    · exact h.resuming c hold
    · exact hres (by rw [show c = p from hsolo])
  · rcases step_frame hs with ⟨hgrows, hflag⟩ | ⟨i, hi, hstep | hpc, -⟩
    · exact h.grows hj hgrows hflag
    · exact h.worker hg hstep hj
    · exact absurd ⟨hi, by rw [hpc]; trivial⟩ (h.offDuty i)

end Quiet

/-- **`pause` is effective while the pool grows**, if nobody is on duty whenever it
    returns while `PausePoint` has yet to count a worker: whatever the other
    clients call, no worker is inside a queued function from the return of
    `pause` until `resume` is called. -/
theorem pause_effective_while_growing {n : Nat}
    (h : (system ι n).ReachableBy (fun _ e => Solo p e) s) (hpc : s.clients p = .pausing)
    (hcounted : Counted s) (hs : (system ι n).step s (.client p) = some s')
    (hret : s'.clients p = .idle) {evs : List (Ev ι)} {s₂ : GenericThreadPool ι}
    (hrun : (system ι n).Run (fun _ e => Solo p e ∧ e ≠ .call p .resume) s' evs s₂) (i : Nat) :
    ¬ s₂.Inside i := by
  have hg := growth_of_reachable h
  have hquiet := quiet_of_return hg (pauser_of_reachable h) hcounted hpc hs hret
  have hboth : Quiet s₂ ∧ Growth s₂ :=
    hrun.invariant (P := fun s => Quiet s ∧ Growth s) ⟨hquiet, hg.step (e := .client p) hs⟩
      fun _ _ _ hq hok hs => ⟨hq.1.step hq.2 hok.1 hok.2 hs, hq.2.step hs⟩
  exact fun hin => hboth.1.offDuty i (onDuty_of_inside hin)

/-- The one worker is paused while another client is about to add a second one. -/
theorem pause_effective_while_growing_adding :
    ∃ s s', (system Bool 1).Reachable s ∧ s.clients true = .adding 1 .head ∧
      s.clients false = .pausing ∧ (system Bool 1).step s (.client false) = some s' ∧
      ∀ evs s₂, (system Bool 1).Run (fun _ e => Solo false e ∧ e ≠ .call false .resume) s' evs s₂ →
        ∀ i, ¬ s₂.Inside i := by
  have hrun : ∃ s s', (system Bool 1).Run (fun _ e => Solo false e)
      (initial false 1 fun _ => ListHook.unlinked)
      [.client false, .client false, .client false, .client false, .client false,
        .call false .pause, .client false, .call true (.addThread 1), .worker 0] s ∧
      s.clients true = .adding 1 .head ∧ s.clients false = .pausing ∧
      (system Bool 1).step s (.client false) = some s' ∧ s'.clients false = .idle :=
    ⟨_, _, .cons trivial rfl <| .cons trivial rfl <| .cons trivial rfl <|
      .cons trivial rfl <| .cons trivial rfl <| .cons rfl rfl <| .cons trivial rfl <|
      .cons trivial rfl <| .cons trivial rfl .nil, rfl, rfl, rfl, rfl⟩
  obtain ⟨s, s', hs, hadding, hpc, hstep, hret⟩ := hrun
  have hreach := hs.reachable (.init ⟨_, _, rfl⟩)
  refine ⟨s, s', hreach.mono fun _ _ _ => trivial, hadding, hpc, hstep, fun evs s₂ hrun =>
    pause_effective_while_growing hreach hpc (fun c left b hc => ?_) hstep hret hrun⟩
  cases c
  · rw [hpc] at hc
    cases hc
  · rw [hadding] at hc
    cases hc

/-- The one worker is inside a function when `pause` is called; a second worker is
    created and pauses before `PausePoint` expects it, and `pause` returns. -/
theorem new_worker_ends_pause :
    ∃ s s', (system Bool 1).ReachableBy (fun _ e => Solo false e) s ∧
      s.clients false = .pausing ∧ (system Bool 1).step s (.client false) = some s' ∧
      s'.clients false = .idle ∧ s'.Inside 0 := by
  have hrun : ∃ s s', (system Bool 1).Run (fun _ e => Solo false e)
      (initial false 1 fun _ => ListHook.unlinked)
      [.client false, .client false, .client false, .client false, .client false,
        .call true (.pushFunction 16), .client true, .worker 0, .worker 0, .worker 0, .worker 0,
        .call false .pause, .client false, .call true (.addThread 1), .client true,
        .worker 1] s ∧
      s.clients false = .pausing ∧ (system Bool 1).step s (.client false) = some s' ∧
      s'.clients false = .idle ∧ s'.created = 2 ∧ s'.workers 0 = .inside 16 :=
    ⟨_, _, .cons trivial rfl <| .cons trivial rfl <| .cons trivial rfl <|
      .cons trivial rfl <| .cons trivial rfl <| .cons trivial rfl <| .cons trivial rfl <|
      .cons trivial rfl <| .cons trivial rfl <| .cons trivial rfl <| .cons trivial rfl <|
      .cons rfl rfl <| .cons trivial rfl <| .cons trivial rfl <| .cons trivial rfl <|
      .cons trivial rfl .nil, rfl, rfl, rfl, rfl, rfl⟩
  obtain ⟨s, s', hs, hpc, hstep, hret, htwo, hinside⟩ := hrun
  exact ⟨s, s', hs.reachable (.init ⟨_, _, rfl⟩), hpc, hstep, hret, by omega, 16, hinside⟩

end GenericThreadPool
end Fredlib
