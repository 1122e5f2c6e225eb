/-
  Fredlib.ThreadPool.Returns

  The calls of a `GenericThreadPool` return.

  A run without end with one controller, who keeps out of the two deadlocks (`Orderly`); it is
  fair to the workers and to their clocks.  Then a call of any client returns, if the run is
  fair to the client: also `pause`, which waits for every worker to pause, `resume`, which
  waits for every worker to leave, and `stop`, which waits for every worker to exit
  (`calls_return`).
-/

import Mathlib.Data.Nat.Pairing
import Mathlib.Tactic.IntervalCases
import Fredlib.ThreadPool.Orderly

namespace Fredlib

open Lib Lib.Monitor ThreadControl IntrusiveSafeList

-- ============================================================================
-- Waits that end
-- ============================================================================

namespace PausePoint

variable {T : Type*} [DecidableEq T] {c c' : Config T PausePoint Wait} {t : T} {r : Option Unit}

/-- `pause` does not wait when all expected threads are paused. -/
theorem pause_of_met (hat : ∀ w, (c.thr t).waiting = some w → w = .allPaused)
    (hmet : c.data.mPausedThreads = c.data.mExpectedThreads)
    (hs : monitor.advance t .pause c = some (c', r)) : r = some () := by
  rcases monitor.advance_some hs with ⟨-, hcall⟩ | ⟨w', -, hcheck⟩
  · obtain ⟨-, e, hsec, happ⟩ := monitor.call_some hcall
    rw [enterSection_pause, if_pos hmet] at hsec
    cases hsec
    cases happ
    rfl
  · obtain ⟨w, hw, e, hsec, happ⟩ := monitor.recheck_some hcheck
    have hall := hat w (by rw [hw]; rfl)
    subst hall
    rw [wakeSection_allPaused, if_pos hmet] at hsec
    cases hsec
    cases happ
    rfl

/-- `resume` does not wait when no thread is. -/
theorem resume_of_none (hat : ∀ w, (c.thr t).waiting = some w → w = .nonePaused)
    (hnone : c.data.mPausedThreads = 0)
    (hs : monitor.advance t .resume c = some (c', r)) : r = some () := by
  rcases monitor.advance_some hs with ⟨-, hcall⟩ | ⟨w', -, hcheck⟩
  · obtain ⟨-, e, hsec, happ⟩ := monitor.call_some hcall
    rw [enterSection_resume, if_pos hnone] at hsec
    cases hsec
    cases happ
    rfl
  · obtain ⟨w, hw, e, hsec, happ⟩ := monitor.recheck_some hcheck
    have hnon := hat w (by rw [hw]; rfl)
    subst hnon
    rw [wakeSection_nonePaused, if_pos hnone] at hsec
    cases hsec
    cases happ
    rfl

end PausePoint

namespace FanInPoint

variable {T : Type*} [DecidableEq T] {c c' : Config T FanInPoint Wait} {t : T} {r : Option Unit}

/-- `wait` does not wait when the counter is zero. -/
theorem wait_of_zero (hzero : c.data.mExpectedThreads = 0)
    (hs : monitor.advance t .wait c = some (c', r)) : r = some () := by
  rcases monitor.advance_some hs with ⟨-, hcall⟩ | ⟨w, -, hcheck⟩
  · obtain ⟨-, e, hsec, happ⟩ := monitor.call_some hcall
    rw [enterSection_wait, wakeSection_eq, if_pos hzero] at hsec
    cases hsec
    cases happ
    rfl
  · obtain ⟨w, -, e, hsec, happ⟩ := monitor.recheck_some hcheck
    rw [wakeSection_eq, if_pos hzero] at hsec
    cases hsec
    cases happ
    rfl

end FanInPoint

namespace GenericThreadPool

variable {ι : Type*} [DecidableEq ι] {s s' : GenericThreadPool ι} {i n : Nat} {c p : ι} {e : Ev ι}

-- ============================================================================
-- What the workers come to
-- ============================================================================

/-- How far a worker is from its wait in `pauseIfRequred`. -/
def toPause (a : Spot) : Nat :=
  match a.pc, a.inQueue, a.inPause with
  | .check, _, _ => 7
  | .pop, false, _ => 6
  | .pop, true, _ => 5
  | .run _, _, _ => 4
  | .inside _, _, _ => 3
  | .delete _, _, _ => 2
  | .pause, _, false => 1
  | _, _, _ => 0

/-- How far a worker is from being out of this wait. -/
def toLeave (a : Spot) : Nat :=
  match a.pc, a.inPause with
  | .pause, true => 1
  | _, _ => 0

/-- How far a worker is from its exit. -/
def toExit (a : Spot) : Nat :=
  match a.pc, a.inQueue with
  | .pop, false => 8
  | .pop, true => 7
  | .run _, _ => 6
  | .inside _, _ => 5
  | .delete _, _ => 4
  | .pause, _ => 3
  | .check, _ => 2
  | .done, _ => 1
  | .exited, _ => 0

theorem measure_toPause : Measure true false toPause where
  move := by
    intro m a b h
    cases h with
    | @sleep q b => cases q <;> cases b <;> simp [toPause]
    -- a pause is on, so nobody passes
    | pass hflag => cases hflag
    | @check q => cases q <;> simp [toPause]
    | @wait q => cases q <;> simp [toPause, Spot.mover]
    | @empty m q => cases q <;> simp [toPause]
    | @popped m q qe => cases q <;> simp [toPause]
    | _ => simp [toPause]
  awake := by
    rintro ⟨pc, q, b⟩ h
    refine ⟨?_, ?_⟩
    · rintro rfl
      exact h rfl
    · rintro rfl -
      cases b with
      | false => rfl
      | true => exact absurd rfl h

theorem measure_toLeave {stopper : Bool} : Measure false stopper toLeave where
  move := by
    intro m a b h
    cases h with
    -- none is on, so nobody goes to sleep
    | sleep hflag => cases hflag
    | @pass q b => cases b <;> simp [toLeave]
    | @check q => cases stopper <;> simp [toLeave]
    | _ => simp [toLeave]
  awake := by
    rintro ⟨pc, q, b⟩ h
    refine ⟨?_, ?_⟩
    · rintro rfl
      exact h rfl
    · rintro - hup
      cases hup

theorem measure_toExit : Measure false true toExit where
  move := by
    intro m a b h
    cases h with
    | sleep hflag => cases hflag
    | @wait q => cases q <;> simp [toExit, Spot.mover]
    | @empty m q => cases q <;> simp [toExit]
    | @popped m q qe => cases q <;> simp [toExit]
    | _ => simp [toExit]
  awake := by
    rintro ⟨pc, q, b⟩ h
    refine ⟨?_, ?_⟩
    · rintro rfl
      exact h rfl
    · rintro - hup
      cases hup

-- ============================================================================
-- Along a call
-- ============================================================================

/-- How far a turn of the loop over `_add_thread` is from its end. -/
def AddPc.rank : AddPc → Nat
  | .announce .syncPoint => 4
  | .announce .fanIn => 3
  | .announce .pausePoint => 2
  | .head => 1

/-- How far a client is from the end of its call, with `l` threads to join. -/
def ClientPc.rank (l : Nat) : ClientPc → Nat
  | .idle => 0
  | .constructing left pc | .adding left pc => 4 * left + pc.rank
  | .pushing _ | .pausing | .resuming | .stopClear => 1
  | .join j => (l - j) + 2
  | .stopWait => l + 3
  | .stopSet => l + 4
  | .stopNum => l + 5

/-- The calls that wait for others. -/
def ClientPc.Waits : ClientPc → Prop
  | .pausing | .resuming | .stopWait => True
  | _ => False

/-- How far the client `c` is from the end of its call. -/
def rank (s : GenericThreadPool ι) (c : ι) : Nat := (s.clients c).rank s._vecThreads.length

/-- What stays while a client is in the middle of a call. -/
structure Stays (c : ι) (s s' : GenericThreadPool ι) : Prop where
  client : s'.clients c = s.clients c
  vec : s'._vecThreads = s._vecThreads
  created : s'.created = s.created
  stopper : s'._tc._stopper = s._tc._stopper

omit [DecidableEq ι] in
theorem Stays.trans {s₂ : GenericThreadPool ι} (h : Stays c s s') (h' : Stays c s' s₂) :
    Stays c s s₂ :=
  ⟨h'.client.trans h.client, h'.vec.trans h.vec, h'.created.trans h.created,
    h'.stopper.trans h.stopper⟩

omit [DecidableEq ι] in
theorem Stays.rank_eq (h : Stays c s s') : s'.rank c = s.rank c := by
  rw [rank, rank, h.client, h.vec]

theorem addMove_rank {left left' : Nat} {pc pc' : AddPc}
    (h : AddMove s c left pc s' (some (left', pc'))) :
    4 * left' + pc'.rank < 4 * left + pc.rank := by
  cases h with
  | emplace => simp only [AddPc.rank]; omega
  | @announce _ b =>
      cases b <;> simp only [AddPc.after, Base.next, AddPc.rank] <;> omega

/-- A step of a client brings it nearer to the end of its call, unless it waits. -/
theorem rank_of_own (hs : s.clientStep c = some s') :
    s'.rank c < s.rank c ∨ (s.clients c).Waits ∧ Stays c s s' := by
  unfold rank
  cases clientMove_of_step hs with
  | construct hpc hadd =>
      left
      rw [setClient_self, hpc]
      exact addMove_rank hadd
  | add hpc hadd =>
      left
      rw [setClient_self, hpc]
      exact addMove_rank hadd
  | @built left pc s₁ hpc hadd =>
      left
      rw [setClient_self, hpc]
      cases hadd
      simp [ClientPc.rank, AddPc.rank]
  | @added left pc s₁ hpc hadd =>
      left
      rw [setClient_self, hpc]
      cases hadd
      simp [ClientPc.rank, AddPc.rank]
  | push hpc => exact .inl (by rw [setClient_self, hpc]; exact Nat.one_pos)
  -- the three calls that wait either return or stay where they are
  | @pause tc r hpc hadv =>
      cases r with
      | none =>
          exact .inr ⟨by rw [hpc]; trivial, setClient_self.trans hpc.symm, rfl, rfl,
            advance_stopper hadv⟩
      | some u => exact .inl (by rw [setClient_self, hpc]; exact Nat.one_pos)
  | @resume tc r hpc hadv =>
      cases r with
      | none =>
          exact .inr ⟨by rw [hpc]; trivial, setClient_self.trans hpc.symm, rfl, rfl,
            advance_stopper hadv⟩
      | some u => exact .inl (by rw [setClient_self, hpc]; exact Nat.one_pos)
  | @stopWait tc r hpc hadv =>
      cases r with
      | none =>
          exact .inr ⟨by rw [hpc]; trivial, setClient_self.trans hpc.symm, rfl, rfl,
            advance_stopper hadv⟩
      | some u => exact .inl (by rw [setClient_self, hpc]; exact Nat.lt_succ_self _)
  | stopNum hpc =>
      left
      rw [setClient_self, hpc]
      split
      · exact Nat.lt_succ_self _
      · exact Nat.succ_pos _
  | stopSet hpc => exact .inl (by rw [setClient_self, hpc]; exact Nat.lt_succ_self _)
  | @join j i hpc hj =>
      left
      have hlt := (List.getElem?_eq_some_iff.mp hj).1
      rw [setClient_self, hpc]
      simp only [ClientPc.rank, setClient]
      omega
  | joined hpc =>
      left
      rw [setClient_self, hpc]
      simp only [ClientPc.rank]
      omega
  | stopClear hpc => exact .inl (by rw [setClient_self, hpc]; exact Nat.one_pos)

/-- The others leave a client in the middle of its call, -/
theorem client_of_other (hbusy : s.clients c ≠ .idle) (he : e ≠ .client c)
    (hs : GenericThreadPool.step s e = some s') : s'.clients c = s.clients c := by
  cases e with
  | call d op =>
      obtain ⟨-, hidle, hmove⟩ := callMove_of_step hs
      have hcd : c ≠ d := by
        rintro rfl
        exact hbusy hidle
      cases hmove <;> exact setClient_of_ne hcd
  | client d =>
      refine clientStep_others hs ?_
      rintro rfl
      exact he rfl
  | _ => rw [(pool_side (by simp) hs).1]

/-- and the controller with what it has to do with. -/
theorem stays_of_other (hcourse : Course p s) (hadders : Adders s) (hbusy : s.clients p ≠ .idle)
    (he : e ≠ .client p) (hs : GenericThreadPool.step s e = some s') : Stays p s s' := by
  have hclient := client_of_other hbusy he hs
  cases e with
  | call c op =>
      obtain ⟨hcreated, -, hvec, htc⟩ := callStep_frame hs
      exact ⟨hclient, hvec, hcreated, by rw [htc]⟩
  | client c =>
      have hpc : p ≠ c := by
        rintro rfl
        exact he rfl
      -- another client can only be pushing
      have hpush := hcourse.others c (Ne.symm hpc)
      cases hc : s.clients c with
      | pushing qe =>
          cases clientMove_of_step hs with
          | push => exact ⟨hclient, rfl, rfl, rfl⟩
          | _ => simp_all
      | constructing left pc => exact absurd ((hadders.building c left pc hc).2 p hpc) hbusy
      | idle => simp [GenericThreadPool.step, clientStep, hc] at hs
      | _ =>
          rw [hc] at hpush
          exact absurd hpush id
  | _ =>
      obtain ⟨-, -, hvec, hcreated, hflag⟩ := pool_side (by simp) hs
      exact ⟨hclient, hvec, hcreated, hflag⟩

-- ============================================================================
-- What a call waits for
-- ============================================================================

/-- What the call waits for that the client `c` is in, if it waits, has come. -/
def Met (s : GenericThreadPool ι) (c : ι) : Prop :=
  match s.clients c with
  | .pausing => s._tc.pausePoint.data.mPausedThreads = s._tc.pausePoint.data.mExpectedThreads
  | .resuming => s._tc.pausePoint.data.mPausedThreads = 0
  | .stopWait => s.running = ∅
  | _ => True

/-- Where the controller waits for the workers to exit, `FanInPoint` counts them all. -/
theorem fan_zero (h : (system ι n).ReachableBy (Orderly p) s) (hpc : s.clients p = .stopWait)
    (hempty : s.running = ∅) : s._tc.fanIn.data.mExpectedThreads = 0 := by
  have hg := growth_of_reachable h
  have halone := (course_of_orderly h).alone hg.adders (by simp [hpc])
  have hlag := hg.fan.counter p halone
  rw [hpc, ClientPc.lag_of_out rfl, hempty, Finset.card_empty] at hlag
  omega

/-- A client in a call can go on once what it waits for has come, -/
theorem enabled_of_met {log : List Obs} {l : List (Addr × Nat)}
    (h : (system ι n).ReachableBy (Orderly p) s) (hinv : QueueInv log s l)
    (hbusy : s.clients p ≠ .idle) (hmet : s.Met p) : s.clientStep p ≠ none := by
  have hg := growth_of_reachable h
  -- asleep on a predicate that has come true it would be forgotten
  refine client_enabled h hinv hbusy (fun hpc w hasleep => ?_) (fun hpc w hasleep => ?_)
  · have hfalse := pause_alert h _ _ hasleep
    have hwait : (s._tc.pausePoint.thr (.client p)).waiting = some w := by rw [hasleep]; rfl
    rcases hg.pause.client p w hwait with ⟨rfl, hpc'⟩ | ⟨rfl, hpc'⟩
    · simp only [Met, hpc'] at hmet
      simp [hmet] at hfalse
    · simp only [Met, hpc'] at hmet
      simp [hmet] at hfalse
  · simp only [Met, hpc] at hmet
    cases w
    obtain ⟨d, left, pc, hloop, -⟩ := heard_of_orderly h p hasleep hmet
    have halone := (course_of_orderly h).alone hg.adders hbusy
    by_cases hd : d = p
    · rw [hd, hpc] at hloop
      cases hloop
    · rw [halone d hd] at hloop
      cases hloop

/-- and does not wait any more. -/
theorem rank_of_met (h : (system ι n).ReachableBy (Orderly p) s) (hmet : s.Met p)
    (hs : s.clientStep p = some s') : s'.rank p < s.rank p := by
  have hg := growth_of_reachable h
  rcases rank_of_own hs with hlt | ⟨hwaits, hstays⟩
  · exact hlt
  · -- a call that stays would be waiting for what has come
    exfalso
    have hclient := hstays.client
    cases clientMove_of_step hs with
    | @pause tc r hpc hadv =>
        obtain ⟨x, hx, rfl⟩ := advance_pause hadv
        simp only [Met, hpc] at hmet
        have hr := PausePoint.pause_of_met (fun w hw => ?_) hmet hx
        · subst hr
          rw [setClient_self, hpc] at hclient
          cases hclient
        · rcases hg.pause.client p w hw with ⟨rfl, -⟩ | ⟨-, hpc'⟩
          · rfl
          · rw [hpc] at hpc'
            cases hpc'
    | @resume tc r hpc hadv =>
        obtain ⟨x, hx, rfl⟩ := advance_pause hadv
        simp only [Met, hpc] at hmet
        have hr := PausePoint.resume_of_none (fun w hw => ?_) hmet hx
        · subst hr
          rw [setClient_self, hpc] at hclient
          cases hclient
        · rcases hg.pause.client p w hw with ⟨-, hpc'⟩ | ⟨rfl, -⟩
          · rw [hpc] at hpc'
            cases hpc'
          · rfl
    | @stopWait tc r hpc hadv =>
        obtain ⟨x, hx, rfl⟩ := advance_fanIn hadv
        simp only [Met, hpc] at hmet
        have hr := FanInPoint.wait_of_zero (fan_zero h hpc hmet) hx
        subst hr
        rw [setClient_self, hpc] at hclient
        cases hclient
    | construct hpc | built hpc | add hpc | added hpc | push hpc | stopNum hpc | stopSet hpc
      | join hpc | joined hpc | stopClear hpc =>
        rw [hpc] at hwaits
        exact hwaits

/-- The workers that are paused. -/
theorem PauseAt.paused_card (h : PauseAt s) {A : Finset Nat}
    (hA : ∀ i, i ∈ A ↔ (s._tc.pausePoint.thr (.worker i)).waiting.isSome = true) :
    s._tc.pausePoint.data.mPausedThreads = A.card := by
  have hcard : (A.image (Tid.worker : Nat → Tid ι)).card = A.card :=
    Finset.card_image_of_injective _ fun a b hab => by cases hab; rfl
  rw [← hcard]
  refine h.paused.eq_card fun t => ?_
  rw [Finset.mem_image]
  cases t with
  | worker i =>
      have hiff : (∃ a ∈ A, (Tid.worker a : Tid ι) = .worker i) ↔ i ∈ A := by simp
      rw [hiff, hA]
      constructor
      · intro hsome
        obtain ⟨w, hw⟩ := Option.isSome_iff_exists.mp hsome
        rw [hw, (h.worker i w hw).1]
      · intro hw
        rw [hw]
        rfl
  | client c =>
      constructor
      · rintro ⟨a, -, ha⟩
        cases ha
      · intro hw
        rcases h.client c _ hw with ⟨hne, -⟩ | ⟨hne, -⟩ <;> cases hne

/-- All workers are paused. -/
theorem met_of_paused (h : (system ι n).ReachableBy (Orderly p) s) (hpc : s.clients p = .pausing)
    (hall : ∀ i, i < s.created → toPause (s.spot i) = 0) : s.Met p := by
  have hg := growth_of_reachable h
  have hcourse := course_of_orderly h
  have hlooping := (hcourse.looping (pausing_unstopped h hpc)).2
  have hpaused : s._tc.pausePoint.data.mPausedThreads = (Finset.range s.created).card := by
    refine hg.pause.paused_card fun i => ?_
    rw [Finset.mem_range]
    constructor
    · intro hi
      have hzero := hall i hi
      have hloop := hlooping i hi
      cases hw : s.workers i with
      | pause =>
          by_contra hout
          simp [toPause, spot, hw, Bool.eq_false_iff.mpr hout] at hzero
      | pop =>
          cases hq : (s._q.list.thr (.worker i)).waiting.isSome <;>
            simp [toPause, spot, hw, hq] at hzero
      | done => exact absurd hw hloop.1
      | exited => exact absurd hw hloop.2
      | _ => simp [toPause, spot, hw] at hzero
    · intro hsome
      obtain ⟨w, hw⟩ := Option.isSome_iff_exists.mp hsome
      exact (hg.pause.worker i w hw).2.1
  -- the controller is not adding: `PausePoint` expects all workers created
  have hcounter := hg.pause.counter p (hcourse.alone hg.adders (by simp [hpc]))
  rw [hpc, ClientPc.lag_of_out rfl] at hcounter
  rw [Finset.card_range] at hpaused
  simp only [Met, hpc]
  omega

/-- No worker is. -/
theorem met_of_left (h : (system ι n).ReachableBy (Orderly p) s) (hpc : s.clients p = .resuming)
    (hall : ∀ i, i < s.created → toLeave (s.spot i) = 0) : s.Met p := by
  have hg := growth_of_reachable h
  have hpaused : s._tc.pausePoint.data.mPausedThreads = (∅ : Finset Nat).card := by
    refine hg.pause.paused_card fun i => iff_of_false (Finset.notMem_empty i) fun hsome => ?_
    obtain ⟨w, hw⟩ := Option.isSome_iff_exists.mp hsome
    obtain ⟨-, hi, hpause⟩ := hg.pause.worker i w hw
    have hzero := hall i hi
    simp [toLeave, spot, hpause, hsome] at hzero
  simp only [Met, hpc]
  exact hpaused

omit [DecidableEq ι] in
/-- All workers have exited. -/
theorem met_of_exited (hpc : s.clients p = .stopWait)
    (hall : ∀ i, i < s.created → toExit (s.spot i) = 0) : s.Met p := by
  simp only [Met, hpc]
  rw [running_eq_empty]
  intro i hi
  have hzero := hall i hi
  cases hw : s.workers i with
  | exited => rfl
  | pop =>
      cases hq : (s._q.list.thr (.worker i)).waiting.isSome <;>
        simp [toExit, spot, hw, hq] at hzero
  | _ => simp [toExit, spot, hw] at hzero

-- ============================================================================
-- A call that would not return
-- ============================================================================

/-- Inside `PausePoint` the controller stays inside, and its own step takes it there. -/
theorem inside_of_step (hpc : s.clients p = .pausing ∨ s.clients p = .resuming)
    (hsame : s'.clients p = s.clients p)
    (hin : e = .client p ∨ s._tc.pausePoint.thr (.client p) ≠ .out)
    (hs : GenericThreadPool.step s e = some s') : s'._tc.pausePoint.thr (.client p) ≠ .out := by
  have hinside : ∀ {x : Config (Tid ι) PausePoint PausePoint.Wait} {op} {r : Option Unit},
      PausePoint.monitor.advance (.client p) op s._tc.pausePoint = some (x, r) → r = none →
        x.thr (.client p) ≠ .out := by
    rintro x op r hx rfl hout
    cases (PausePoint.monitor.advance_frame hx).2.mp hout
  -- its own step leaves it waiting; a step of another does not take it out
  by_cases he : e = .client p
  · subst he
    cases clientMove_of_step hs with
    | @pause tc r hpc hadv =>
        obtain ⟨x, hx, rfl⟩ := advance_pause hadv
        cases r with
        | none => exact hinside hx rfl
        | some u =>
            rw [setClient_self, hpc] at hsame
            cases hsame
    | @resume tc r hpc hadv =>
        obtain ⟨x, hx, rfl⟩ := advance_pause hadv
        cases r with
        | none => exact hinside hx rfl
        | some u =>
            rw [setClient_self, hpc] at hsame
            cases hsame
    | construct hat | built hat | add hat | added hat | push hat | stopNum hat | stopSet hat
      | stopWait hat | join hat | joined hat | stopClear hat =>
        rw [hat] at hpc
        rcases hpc with hpc | hpc <;> cases hpc
  · have hnot : ¬ e.By (.client p) := by
      cases e with
      | client c =>
          intro hby
          cases hby
          exact he rfl
      | worker j | timeout j => exact fun hby => by cases hby
      | _ => exact id
    exact mt (Status.out_iff (pause_of_other hnot hs)).mp (hin.resolve_left he)

section Runs

variable {x : Execution (system ι n)} {k : Nat}

/-- What a moment does to the controller's call. -/
theorem rank_of_event {j : Nat} (hok : x.Meets (Orderly p))
    (hbusy : (x.state j).clients p ≠ .idle) :
    (x.state (j + 1)).rank p < (x.state j).rank p ∨ Stays p (x.state j) (x.state (j + 1)) := by
  have hreach := Execution.reachable hok j
  cases he : x.event j with
  | none =>
      right
      rw [x.still he]
      exact ⟨rfl, rfl, rfl, rfl⟩
  | some e =>
      have hs : GenericThreadPool.step (x.state j) e = some (x.state (j + 1)) := x.step he
      by_cases hown : e = .client p
      · subst hown
        exact (rank_of_own hs).imp id And.right
      · exact .inr (stays_of_other (course_of_orderly hreach) (growth_of_reachable hreach).adders
          hbusy hown hs)

/-- A controller whose call does not return gets stuck in it. -/
theorem stuck_of_busy (hok : x.Meets (Orderly p))
    (hbusy : ∀ j, k ≤ j → (x.state j).clients p ≠ .idle) :
    ∃ k', k ≤ k' ∧ ∀ j, k' ≤ j → Stays p (x.state k') (x.state j) := by
  -- the moment when it is nearest to the end
  obtain ⟨k', hk', hmin⟩ :=
    (measure fun j => (x.state j).rank p).wf.has_min {j | k ≤ j} ⟨k, Set.mem_ofPred.mpr le_rfl⟩
  refine ⟨k', hk', fun j hj => ?_⟩
  induction hj with
  | refl => exact ⟨rfl, rfl, rfl, rfl⟩
  | @step j hj ih =>
      have hkj : k ≤ j := Nat.le_trans hk' hj
      rcases rank_of_event hok (hbusy j hkj) with hlt | hstays
      · rw [ih.rank_eq] at hlt
        exact absurd hlt (hmin (j + 1) (Nat.le_succ_of_le hkj))
      · exact ih.trans hstays

/-- Then what it waits for does not come. -/
theorem not_met_of_stuck (hok : x.Meets (Orderly p)) (hclient : x.WeaklyFair (· = .client p))
    (hbusy : (x.state k).clients p ≠ .idle)
    (hstuck : ∀ j, k ≤ j → Stays p (x.state k) (x.state j)) {k' : Nat} (hk : k ≤ k') :
    ¬ ∀ j, k' ≤ j → (x.state j).Met p := by
  intro hmet
  have hbusy' : ∀ j, k' ≤ j → (x.state j).clients p ≠ .idle := by
    intro j hj
    rw [(hstuck j (by omega)).client]
    exact hbusy
  obtain ⟨j, e, hj, -, rfl, he⟩ := hclient.exists_own_event (k := k') (P := fun _ => True) trivial
    (fun _ _ _ _ => trivial) fun j hj _ => by
      obtain ⟨l, hinv⟩ := queueInv_at x j
      exact ⟨_, rfl, enabled_of_met (Execution.reachable hok j) hinv (hbusy' j hj) (hmet j hj)⟩
  have hlt := rank_of_met (Execution.reachable hok j) (hmet j hj) (x.step he)
  rw [(hstuck j (by omega)).rank_eq, (hstuck (j + 1) (by omega)).rank_eq] at hlt
  exact Nat.lt_irrefl _ hlt

/-- Stuck in `pause` or `resume` the controller has announced it. -/
theorem inside_of_stuck (hok : x.Meets (Orderly p)) (hclient : x.WeaklyFair (· = .client p))
    (hpc : (x.state k).clients p = .pausing ∨ (x.state k).clients p = .resuming)
    (hstuck : ∀ j, k ≤ j → Stays p (x.state k) (x.state j)) :
    ∃ k', k ≤ k' ∧ ∀ j, k' ≤ j → (x.state j)._tc.pausePoint.thr (.client p) ≠ .out := by
  have hpc' : ∀ j, k ≤ j →
      (x.state j).clients p = .pausing ∨ (x.state j).clients p = .resuming := by
    intro j hj
    rwa [(hstuck j hj).client]
  have hsame : ∀ j, k ≤ j → (x.state (j + 1)).clients p = (x.state j).clients p := fun j hj =>
    (hstuck (j + 1) (by omega)).client.trans (hstuck j hj).client.symm
  -- by fairness it takes its first step, which announces the call
  have hin : ∃ k', k ≤ k' ∧ (x.state k')._tc.pausePoint.thr (.client p) ≠ .out := by
    by_contra hnever
    have hout : ∀ j, k ≤ j → (x.state j)._tc.pausePoint.thr (.client p) = .out := by
      intro j hj
      by_contra hin
      exact hnever ⟨j, hj, hin⟩
    obtain ⟨j, e, hj, -, rfl, he⟩ := hclient.exists_own_event (k := k) (P := fun _ => True) trivial
      (fun _ _ _ _ => trivial) fun j hj _ => by
        obtain ⟨l, hinv⟩ := queueInv_at x j
        refine ⟨_, rfl, client_enabled (Execution.reachable hok j) hinv ?_ (fun _ w => ?_) ?_⟩
        · rcases hpc' j hj with hat | hat <;> simp [hat]
        · simp [hout j hj]
        · rcases hpc' j hj with hat | hat <;> simp [hat]
    exact inside_of_step (hpc' j hj) (hsame j hj) (.inl rfl) (x.step he) (hout (j + 1) (by omega))
  obtain ⟨k', hk', hin⟩ := hin
  refine ⟨k', hk', fun j hj => ?_⟩
  induction hj with
  | refl => exact hin
  | @step j hj ih =>
      have hkj : k ≤ j := Nat.le_trans hk' hj
      cases he : x.event j with
      | none => rwa [x.still he]
      | some e => exact inside_of_step (hpc' j hkj) (hsame j hkj) (.inr ih) (x.step he)

/-- What the workers come to, while the flags do not change and none is created. -/
theorem Measure.all_come {flag stopper : Bool} {r : Spot → Nat} (h : Measure flag stopper r)
    (hfair : ∀ i (m : Mover), x.WeaklyFair (m.Event i))
    (hset : ∀ j, k ≤ j →
      (x.state j)._tc.pausePoint.data.mPause = flag ∧ (x.state j)._tc._stopper = stopper)
    (hcreated : ∀ j, k ≤ j → (x.state j).created = (x.state k).created) :
    ∃ k', k ≤ k' ∧ ∀ j, k' ≤ j → ∀ i, i < (x.state j).created → r ((x.state j).spot i) = 0 := by
  obtain ⟨k', hk', hall⟩ := Execution.eventually_all fun i hi => h.eventually_zero (hfair i) hi hset
  refine ⟨k', hk', fun j hj i hi => hall j hj i ?_⟩
  rwa [hcreated j (by omega)] at hi

/-- What a stuck controller waits for comes. -/
theorem met_of_stuck (hok : x.Meets (Orderly p))
    (hfair : ∀ i (m : Mover), x.WeaklyFair (m.Event i)) (hclient : x.WeaklyFair (· = .client p))
    (hstuck : ∀ j, k ≤ j → Stays p (x.state k) (x.state j)) :
    ∃ k', k ≤ k' ∧ ∀ j, k' ≤ j → (x.state j).Met p := by
  have hreach : ∀ j, (system ι n).ReachableBy (Orderly p) (x.state j) := Execution.reachable hok
  have hcreated : ∀ k', k ≤ k' → ∀ j, k' ≤ j → (x.state j).created = (x.state k').created :=
    fun k' hk j hj =>
      (hstuck j (Nat.le_trans hk hj)).created.trans (hstuck k' hk).created.symm
  have hat : ∀ pc, (x.state k).clients p = pc → ∀ j, k ≤ j → (x.state j).clients p = pc :=
    fun pc hpc j hj => (hstuck j hj).client.trans hpc
  cases hpc : (x.state k).clients p with
  | pausing =>
      -- from when the pause is announced the flags are fixed, and all workers come to a halt
      obtain ⟨k₁, hk₁, hin⟩ := inside_of_stuck hok hclient (.inl hpc) hstuck
      have hset : ∀ j, k₁ ≤ j → (x.state j)._tc.pausePoint.data.mPause = true ∧
          (x.state j)._tc._stopper = false := by
        intro j hj
        have hpc' := hat _ hpc j (by omega)
        refine ⟨?_, pausing_unstopped (hreach j) hpc'⟩
        obtain ⟨w, hw⟩ := Option.ne_none_iff_exists'.mp (mt Status.waiting_eq_none.mp (hin j hj))
        rcases (growth_of_reachable (hreach j)).pause.client p w hw with ⟨rfl, -⟩ | ⟨-, hres⟩
        · exact (pauser_of_orderly (hreach j)).flag hw
        · rw [hpc'] at hres
          cases hres
      obtain ⟨k₂, hk₂, hall⟩ := measure_toPause.all_come hfair hset (hcreated k₁ hk₁)
      exact ⟨k₂, by omega, fun j hj =>
        met_of_paused (hreach j) (hat _ hpc j (by omega)) (hall j hj)⟩
  | resuming =>
      -- likewise with the pause flag down
      obtain ⟨k₁, hk₁, hin⟩ := inside_of_stuck hok hclient (.inr hpc) hstuck
      have hset : ∀ j, k₁ ≤ j → (x.state j)._tc.pausePoint.data.mPause = false ∧
          (x.state j)._tc._stopper = (x.state k)._tc._stopper := by
        intro j hj
        have hpc' := hat _ hpc j (by omega)
        refine ⟨?_, (hstuck j (by omega)).stopper⟩
        obtain ⟨w, hw⟩ := Option.ne_none_iff_exists'.mp (mt Status.waiting_eq_none.mp (hin j hj))
        rcases (growth_of_reachable (hreach j)).pause.client p w hw with ⟨-, hpau⟩ | ⟨rfl, -⟩
        · rw [hpc'] at hpau
          cases hpau
        · exact resuming_unpaused (hreach j) hw
      obtain ⟨k₂, hk₂, hall⟩ := measure_toLeave.all_come hfair hset (hcreated k₁ hk₁)
      exact ⟨k₂, by omega, fun j hj =>
        met_of_left (hreach j) (hat _ hpc j (by omega)) (hall j hj)⟩
  | stopWait =>
      have hset : ∀ j, k ≤ j → (x.state j)._tc.pausePoint.data.mPause = false ∧
          (x.state j)._tc._stopper = true := by
        intro j hj
        have hpc' := hat _ hpc j hj
        refine ⟨stopping_unpaused (hreach j) (.inr (by rw [hpc']; trivial)), ?_⟩
        exact (course_of_orderly (hreach j)).waiting hpc'
      obtain ⟨k₁, hk₁, hall⟩ := measure_toExit.all_come hfair hset (hcreated k le_rfl)
      exact ⟨k₁, hk₁, fun j hj => met_of_exited (hat _ hpc j (by omega)) (hall j hj)⟩
  | _ => exact ⟨k, le_rfl, fun j hj => by simp only [Met, hat _ hpc j hj]⟩

/-- The calls of the controller return. -/
theorem controller_returns (hok : x.Meets (Orderly p))
    (hfair : ∀ i (m : Mover), x.WeaklyFair (m.Event i)) (hclient : x.WeaklyFair (· = .client p)) :
    ∃ k', k ≤ k' ∧ (x.state k').clients p = .idle := by
  -- otherwise it gets stuck where its rank is least, and what it waits for comes
  by_contra hnever
  have hbusy : ∀ j, k ≤ j → (x.state j).clients p ≠ .idle := fun j hj hidle =>
    hnever ⟨j, hj, hidle⟩
  obtain ⟨k₁, hk₁, hstuck⟩ := stuck_of_busy hok hbusy
  obtain ⟨k₂, hk₂, hmet⟩ := met_of_stuck hok hfair hclient hstuck
  exact not_met_of_stuck hok hclient (hbusy k₁ hk₁) hstuck hk₂ hmet

theorem ClientPc.Pushes.rank_eq {pc : ClientPc} (h : pc.Pushes) (l l' : Nat) :
    pc.rank l = pc.rank l' := by
  cases pc <;> first | rfl | exact absurd h id

/-- Those of the others wait for nobody. -/
theorem other_returns (hok : x.Meets (Orderly p)) (hne : c ≠ p)
    (hclient : x.WeaklyFair (· = .client c)) : ∃ k', k ≤ k' ∧ (x.state k').clients c = .idle := by
  -- its only call is `push_function`
  have hpush : ∀ j, ((x.state j).clients c).Pushes := fun j =>
    (course_of_orderly (Execution.reachable hok j)).others c hne
  have hnot : ∀ j pc, ¬ pc.Pushes → (x.state j).clients c ≠ pc := by
    rintro j pc hpc rfl
    exact hpc (hpush j)
  refine hclient.eventually (fun s => (s.clients c).rank 0) ?_ ?_ ?_
  · intro j _ hbusy
    obtain ⟨l, hinv⟩ := queueInv_at x j
    refine ⟨_, rfl, client_enabled (Execution.reachable hok j) hinv hbusy ?_ ?_⟩
    · rintro (hpc | hpc)
      · exact absurd hpc (hnot j _ id)
      · exact absurd hpc (hnot j _ id)
    · exact fun hpc => absurd hpc (hnot j _ id)
  · rintro j e - - - rfl he
    rcases rank_of_own (x.step he) with hlt | ⟨hwaits, -⟩
    · rw [rank, rank] at hlt
      rwa [(hpush _).rank_eq 0, (hpush j).rank_eq 0 (x.state j)._vecThreads.length]
    · have hpushes := hpush j
      cases hpc : (x.state j).clients c <;> rw [hpc] at hwaits hpushes <;>
      first | exact absurd hwaits id | exact absurd hpushes id
  · intro j e _ hbusy _ hmine he
    rw [client_of_other hbusy hmine (x.step he)]

/-- **Every call returns**, that of `push_function` as well as `pause`, `resume`, `add_thread`
    and `stop` of the controller, and the constructor. -/
theorem calls_return (hok : x.Meets (Orderly p)) (hworker : ∀ i, x.WeaklyFair (· = .worker i))
    (hclock : ∀ i, x.WeaklyFair (· = .timeout i)) (hclient : x.WeaklyFair (· = .client c))
    (k : Nat) : ∃ k', k ≤ k' ∧ (x.state k').clients c = .idle := by
  have hfair : ∀ i (m : Mover), x.WeaklyFair (m.Event i) := by
    intro i m
    cases m with
    | own => exact hworker i
    | clock => exact hclock i
  by_cases hcp : c = p
  · subst hcp
    exact controller_returns hok hfair hclient
  · exact other_returns hok hcp hclient

end Runs

-- ============================================================================
-- A pool that is stopped
-- ============================================================================

/-- Every event of the client, the workers and their clocks has its turn again and again. -/
def rota (k : Nat) : Ev Unit :=
  match (Nat.unpair k).2 with
  | 0 => .client ()
  | m + 1 => if m % 2 = 0 then .worker (m / 2) else .timeout (m / 2)

theorem rota_client (k : Nat) : ∃ j, k ≤ j ∧ rota j = .client () :=
  ⟨Nat.pair k 0, Nat.left_le_pair k 0, by simp [rota]⟩

theorem rota_worker (k i : Nat) : ∃ j, k ≤ j ∧ rota j = .worker i :=
  ⟨Nat.pair k (2 * i + 1), Nat.left_le_pair _ _, by simp [rota]⟩

theorem rota_timeout (k i : Nat) : ∃ j, k ≤ j ∧ rota j = .timeout i := by
  refine ⟨Nat.pair k (2 * i + 1 + 1), Nat.left_le_pair _ _, ?_⟩
  have hodd : (2 * i + 1) % 2 ≠ 0 := by omega
  have hhalf : (2 * i + 1) / 2 = i := by omega
  simp only [rota, Nat.unpair_pair, if_neg hodd, hhalf]

/-- A pool of one worker is constructed and stopped. -/
def stopping (k : Nat) (_ : GenericThreadPool Unit) : Option (Ev Unit) :=
  some (([.client (), .client (), .client (), .client (), .client (),
    Ev.call () .stop][k]?).getD (rota k))

theorem stopping_init : (system Unit 1).init (initial () 1 fun _ => ListHook.unlinked) :=
  ⟨(), _, rfl⟩

/-- The run of this pool. -/
def stoppingRun : Execution (system Unit 1) := System.schedule stopping stopping_init

theorem stopping_fair {e : Ev Unit} (h : ∀ k, ∃ j, k ≤ j ∧ rota j = e) :
    stoppingRun.WeaklyFair (· = e) := by
  refine System.schedule_fair stopping _ fun k => ?_
  obtain ⟨j, hj, he⟩ := h (max k 6)
  refine ⟨j, by omega, fun s => ?_⟩
  have hlate : 6 ≤ j := by omega
  rw [stopping, List.getElem?_eq_none (by simpa using hlate), Option.getD_none, he]

theorem stopping_orderly : stoppingRun.Meets (Orderly ()) := by
  intro k e he
  have hpick : stopping k (stoppingRun.state k) = some e := System.schedule_picks stopping _ he
  by_cases hk : k < 6
  · interval_cases k <;> cases hpick <;> trivial
  · rw [stopping, List.getElem?_eq_none (by simpa using hk), Option.getD_none] at hpick
    cases hpick
    unfold rota
    split
    · trivial
    · split <;> trivial

/-- The call of `stop` returns. -/
theorem calls_return_stop : (stoppingRun.state 6).clients () = .stopNum ∧
    ∃ k', 6 ≤ k' ∧ (stoppingRun.state k').clients () = .idle :=
  ⟨rfl, calls_return stopping_orderly (fun i => stopping_fair (rota_worker · i))
    (fun i => stopping_fair (rota_timeout · i)) (stopping_fair rota_client) 6⟩

end GenericThreadPool
end Fredlib
