/-
  Fredlib.ThreadPool.Controller

  A `GenericThreadPool` with one controller.

  One client makes all the calls but those of `push_function`, which anybody may
  make.  `Course` is what the stop flag, the vector of threads and the workers
  then have to do with each other: until `stop` sets the flag nobody leaves the
  loop of `_worker_thread`, and when its wait returns everybody has.
-/

import Fredlib.ThreadPool.Growth

namespace Fredlib

open Lib Lib.Monitor ThreadControl

namespace GenericThreadPool

variable {ι : Type*} [DecidableEq ι]

/-- Nobody but `p` makes other calls than of `push_function`. -/
def Controlled (p : ι) : Ev ι → Prop
  | .call _ (.pushFunction _) => True
  | .call c _ => c = p
  | _ => True

/-- In the loop of `_worker_thread`. -/
def WorkerPc.Looping (pc : WorkerPc) : Prop := pc ≠ .done ∧ pc ≠ .exited

/-- Where a client is that is not the controller. -/
def ClientPc.Pushes : ClientPc → Prop
  | .idle | .pushing _ | .constructing _ _ => True
  | _ => False

/-- Where the controller is from the request to stop to the end of `stop`, and
    right before. -/
def ClientPc.Stops : ClientPc → Prop
  | .stopSet | .stopWait | .join _ | .stopClear => True
  | _ => False

/-- In a call of `stop`. -/
def ClientPc.InStop (pc : ClientPc) : Prop := pc = .stopNum ∨ pc.Stops

/-- The course of `stop` under the controller `p`. -/
structure Course (p : ι) (s : GenericThreadPool ι) : Prop where
  others : ∀ c, c ≠ p → (s.clients c).Pushes
  looping : s._tc._stopper = false →
    s._vecThreads.length = s.created ∧ ∀ i, i < s.created → (s.workers i).Looping
  setting : s.clients p = .stopSet → s._vecThreads ≠ []
  waiting : s.clients p = .stopWait → s._tc._stopper = true
  joining : (∃ j, s.clients p = .join j) ∨ s.clients p = .stopClear →
    s._tc._stopper = true ∧ s.running = ∅
  cleared : s._tc._stopper = true → s._vecThreads = [] → s.running = ∅

variable {s s' : GenericThreadPool ι} {i : Nat} {c p : ι} {e : Ev ι}

namespace Course

omit [DecidableEq ι] in
/-- A worker takes a step. -/
theorem worker {pc : WorkerPc} (h : Course p s) (hi : i < s.created)
    (hold : s.workers i ≠ .exited) (hpc : s._tc._stopper = false → pc.Looping)
    (hworkers : s'.workers = Function.update s.workers i pc) (hcreated : s'.created = s.created)
    (hclients : s'.clients = s.clients) (hvec : s'._vecThreads = s._vecThreads)
    (hflag : s'._tc._stopper = s._tc._stopper) : Course p s' := by
  -- a worker that takes a step runs, so `stop` cannot have got to its joins
  have hempty : s.running ≠ ∅ := fun hempty => hold (running_eq_empty.mp hempty i hi)
  refine ⟨?_, ?_, ?_, ?_, ?_, ?_⟩
  · rw [hclients]
    exact h.others
  · rw [hflag, hvec, hcreated, hworkers]
    intro hf
    obtain ⟨hlen, hloop⟩ := h.looping hf
    refine ⟨hlen, fun j hj => ?_⟩
    by_cases hji : j = i
    · subst hji
      rw [Function.update_self]
      exact hpc hf
    · rw [Function.update_of_ne hji]
      exact hloop j hj
  · rw [hclients, hvec]
    exact h.setting
  · rw [hclients, hflag]
    exact h.waiting
  · rw [hclients]
    exact fun hj => absurd (h.joining hj).2 hempty
  · rw [hflag, hvec]
    exact fun hf hv => absurd (h.cleared hf hv) hempty

/-- The controller goes on to `pc`. -/
theorem of_controller_at {pc : ClientPc} (h : Course p s)
    (hclients : s'.clients = Function.update s.clients p pc)
    (hset : pc = .stopSet → s'._vecThreads ≠ [])
    (hwait : pc = .stopWait → s'._tc._stopper = true)
    (hjoin : (∃ j, pc = .join j) ∨ pc = .stopClear → s'._tc._stopper = true ∧ s'.running = ∅)
    (hlooping : s'._tc._stopper = false →
      s'._vecThreads.length = s'.created ∧ ∀ i, i < s'.created → (s'.workers i).Looping)
    (hcleared : s'._tc._stopper = true → s'._vecThreads = [] → s'.running = ∅) :
    Course p s' := by
  have hself : s'.clients p = pc := by rw [hclients, Function.update_self]
  refine ⟨fun d hd => ?_, hlooping, ?_, ?_, ?_, hcleared⟩
  · rw [hclients, Function.update_of_ne hd]
    exact h.others d hd
  · rw [hself]
    exact hset
  · rw [hself]
    exact hwait
  · rw [hself]
    exact hjoin

/-- A client takes a step that has nothing to do with `stop`. -/
theorem of_client_outside_stop {pc : ClientPc} (h : Course p s)
    (hclients : s'.clients = Function.update s.clients c pc) (hothers : c ≠ p → pc.Pushes)
    (hstops : ¬ pc.Stops) (hworkers : s'.workers = s.workers) (hcreated : s'.created = s.created)
    (hvec : s'._vecThreads = s._vecThreads) (hflag : s'._tc._stopper = s._tc._stopper) :
    Course p s' := by
  have hrunning := running_congr hcreated hworkers
  have hlooping : s'._tc._stopper = false →
      s'._vecThreads.length = s'.created ∧ ∀ i, i < s'.created → (s'.workers i).Looping := by
    rw [hflag, hvec, hcreated, hworkers]
    exact h.looping
  have hcleared : s'._tc._stopper = true → s'._vecThreads = [] → s'.running = ∅ := by
    rw [hflag, hvec, hrunning]
    exact h.cleared
  -- the controller leaves what is said of `stop` behind; anybody else touches none of it
  by_cases hcp : c = p
  · subst hcp
    refine h.of_controller_at hclients ?_ ?_ ?_ hlooping hcleared
    · rintro rfl
      exact absurd trivial hstops
    · rintro rfl
      exact absurd trivial hstops
    · rintro (⟨j, rfl⟩ | rfl) <;> exact absurd trivial hstops
  · have hp : s'.clients p = s.clients p := by
      rw [hclients, Function.update_of_ne (Ne.symm hcp)]
    refine ⟨fun d hd => ?_, hlooping, ?_, ?_, ?_, hcleared⟩
    · rw [hclients]
      by_cases hdc : d = c
      · rw [hdc, Function.update_self]
        exact hothers hcp
      · rw [Function.update_of_ne hdc]
        exact h.others d hd
    · rw [hp, hvec]
      exact h.setting
    · rw [hp, hflag]
      exact h.waiting
    · rw [hp, hflag, hrunning]
      exact h.joining

/-- A client creates a worker. -/
theorem emplace {pc : ClientPc} (h : Course p s) (hothers : c ≠ p → pc.Pushes)
    (hp : c ≠ p → s.clients p = .idle) (hstops : ¬ pc.Stops) :
    Course p (s.emplace.setClient c pc) := by
  -- no call of `stop` is in progress while a worker is created
  have hstops : ¬ ((s.emplace.setClient c pc).clients p).Stops := by
    by_cases hcp : c = p
    · rw [hcp, setClient_self]
      exact hstops
    · rw [setClient_of_ne (Ne.symm hcp)]
      show ¬ (s.clients p).Stops
      rw [hp hcp]
      exact id
  refine ⟨fun d hd => ?_, fun hf => ?_, fun hpc => ?_, fun hpc => ?_, fun hpc => ?_,
    fun _ hv => ?_⟩
  · by_cases hdc : d = c
    · subst hdc
      rw [setClient_self]
      exact hothers hd
    · rw [setClient_of_ne hdc]
      exact h.others d hd
  · obtain ⟨hlen, hloop⟩ := h.looping hf
    refine ⟨?_, fun i hi => ?_⟩
    · show (s._vecThreads ++ [s.created]).length = s.created + 1
      rw [List.length_append, hlen]
      rfl
    · have hlt : i < s.created + 1 := hi
      show (Function.update s.workers s.created .pause i).Looping
      by_cases hic : i = s.created
      · rw [hic, Function.update_self]
        exact ⟨by simp, by simp⟩
      · rw [Function.update_of_ne hic]
        exact hloop i (by omega)
  · rw [hpc] at hstops
    exact absurd trivial hstops
  · rw [hpc] at hstops
    exact absurd trivial hstops
  · rcases hpc with ⟨j, hpc⟩ | hpc <;>
    · rw [hpc] at hstops
      exact absurd trivial hstops
  · simp [GenericThreadPool.emplace, setWorker, setClient] at hv

/-- A turn of the loop over `_add_thread`. -/
theorem add {left : Nat} {pc : AddPc} {p' : ClientPc} {s₁ : GenericThreadPool ι}
    {r : Option (Nat × AddPc)} (h : Course p s) (hadd : AddMove s c left pc s₁ r)
    (hothers : c ≠ p → p'.Pushes) (hp : c ≠ p → s.clients p = .idle) (hstops : ¬ p'.Stops) :
    Course p (s₁.setClient c p') := by
  cases hadd with
  | finish => exact h.of_client_outside_stop rfl hothers hstops rfl rfl rfl rfl
  | emplace => exact h.emplace hothers hp hstops
  | announce hadv =>
      exact h.of_client_outside_stop rfl hothers hstops rfl rfl rfl (advance_stopper hadv)

omit [DecidableEq ι] in
/-- What a step leaves that concerns none of this. -/
theorem same (h : Course p s) (hclients : s'.clients = s.clients)
    (hworkers : s'.workers = s.workers) (hcreated : s'.created = s.created)
    (hvec : s'._vecThreads = s._vecThreads) (hflag : s'._tc._stopper = s._tc._stopper) :
    Course p s' := by
  have hrunning := running_congr hcreated hworkers
  refine ⟨?_, ?_, ?_, ?_, ?_, ?_⟩
  · rw [hclients]
    exact h.others
  · rw [hflag, hvec, hcreated, hworkers]
    exact h.looping
  · rw [hclients, hvec]
    exact h.setting
  · rw [hclients, hflag]
    exact h.waiting
  · rw [hclients, hflag, hrunning]
    exact h.joining
  · rw [hflag, hvec, hrunning]
    exact h.cleared

omit [DecidableEq ι] in
/-- While the controller is in a call, nobody else is in the loop over
    `_add_thread`. -/
theorem alone (h : Course p s) (hadders : Adders s) (hbusy : s.clients p ≠ .idle) :
    s.Alone p := by
  intro d hd
  have hpush := h.others d hd
  cases hdpc : s.clients d with
  | constructing left pc =>
      exact absurd ((hadders.building d left pc hdpc).2 p (Ne.symm hd)) hbusy
  | adding left pc =>
      rw [hdpc] at hpush
      exact absurd hpush id
  | _ => rfl

/-- When the wait of `stop` returns, every worker has exited. -/
theorem over_of_wait {tc : ThreadControl (Tid ι)} (h : Course p s) (hg : Growth s)
    (hpc : s.clients p = .stopWait)
    (hadv : s._tc.advance (.client p) (.fanIn .wait) = some (tc, some ())) :
    s.running = ∅ := by
  obtain ⟨x, hx, -⟩ := advance_fanIn hadv
  -- the counter is the number of running workers, as nobody is in the loop
  have hzero : s._tc.fanIn.data.mExpectedThreads = 0 := by
    rw [← FanInPoint.wait_expected hx]
    exact FanInPoint.wait_returns hx
  have halone := h.alone hg.adders (by simp [hpc])
  have hlag := hg.fan.counter p halone
  rw [hpc, ClientPc.lag_of_out rfl, hzero] at hlag
  exact Finset.card_eq_zero.mp (by omega)

theorem client (h : Course p s) (hg : Growth s) (hs : s.clientStep c = some s') :
    Course p s' := by
  -- a client in any other call than `push_function` is the controller
  have hcontroller : ∀ {pc}, s.clients c = pc → ¬ pc.Pushes → c = p := by
    rintro pc rfl hpush
    by_contra hcp
    exact hpush (h.others c hcp)
  cases clientMove_of_step hs with
  | construct hpc hadd =>
      exact h.add hadd (fun _ => trivial)
        (fun hcp => (hg.adders.building c _ _ hpc).2 p (Ne.symm hcp)) id
  | @built _ _ s₁ hpc hadd =>
      have hidle : Course p (s₁.setClient c .idle) := h.add hadd (fun _ => trivial)
        (fun hcp => (hg.adders.building c _ _ hpc).2 p (Ne.symm hcp)) id
      exact hidle.same rfl rfl rfl rfl rfl
  | add hpc hadd =>
      have hcp := hcontroller hpc id
      exact h.add hadd (fun hne => absurd hcp hne) (fun hne => absurd hcp hne) id
  | @added _ _ s₁ hpc hadd =>
      have hcp := hcontroller hpc id
      have hidle : Course p (s₁.setClient c .idle) :=
        h.add hadd (fun hne => absurd hcp hne) (fun hne => absurd hcp hne) id
      exact hidle.same rfl rfl rfl rfl rfl
  | push hpc => exact h.of_client_outside_stop rfl (fun _ => trivial) id rfl rfl rfl rfl
  | @pause tc r hpc hadv =>
      have hcp := hcontroller hpc id
      exact h.of_client_outside_stop rfl (fun hne => absurd hcp hne) (by cases r <;> exact id) rfl
        rfl rfl (advance_stopper hadv)
  | @resume tc r hpc hadv =>
      have hcp := hcontroller hpc id
      exact h.of_client_outside_stop rfl (fun hne => absurd hcp hne) (by cases r <;> exact id) rfl
        rfl rfl (advance_stopper hadv)
  | stopNum hpc hmu =>
      have hcp := hcontroller hpc id
      subst hcp
      refine h.of_controller_at rfl (fun hset => ?_) (fun hwait => ?_) (fun hjoin => ?_) h.looping
        h.cleared
      · -- `stop` goes on only from a pool that has threads
        split at hset
        · rename_i hlen
          exact List.length_pos_iff.mp hlen
        · cases hset
      · split at hwait <;> cases hwait
      · split at hjoin <;> simp at hjoin
  | stopSet hpc =>
      have hcp := hcontroller hpc id
      subst hcp
      exact h.of_controller_at rfl (by simp) (fun _ => rfl) (by simp)
        (by simp [requestStop, setClient]) fun _ hv => absurd hv (h.setting hpc)
  | @stopWait tc r hpc hadv =>
      have hcp := hcontroller hpc id
      subst hcp
      -- the wait returns when the last worker has left its loop
      have hflag := (advance_stopper hadv).trans (h.waiting hpc)
      refine h.of_controller_at rfl (by cases r <;> simp) (fun _ => hflag)
        (fun hjoin => ⟨hflag, ?_⟩) (fun hf => ?_) (fun _ hv => h.cleared (h.waiting hpc) hv)
      · cases r with
        | none => simp at hjoin
        | some u => exact h.over_of_wait hg hpc hadv
      · cases hflag.symm.trans hf
  | @join j i hpc hj hexited =>
      have hcp := hcontroller hpc id
      subst hcp
      exact h.of_controller_at rfl (by simp) (by simp) (fun _ => h.joining (.inl ⟨j, hpc⟩))
        h.looping h.cleared
  | @joined j hpc hj =>
      have hcp := hcontroller hpc id
      subst hcp
      exact h.of_controller_at rfl (by simp) (by simp) (fun _ => h.joining (.inl ⟨j, hpc⟩))
        h.looping h.cleared
  | stopClear hpc hmu =>
      have hcp := hcontroller hpc id
      subst hcp
      obtain ⟨hflag, hempty⟩ := h.joining (.inr hpc)
      refine h.of_controller_at rfl (by simp) (by simp) (by simp) (fun hf => ?_) fun _ _ => hempty
      cases hflag.symm.trans hf

theorem workerStep (h : Course p s) (hs : s.workerStep i = some s') : Course p s' := by
  obtain ⟨hi, hmove⟩ := workerMove_of_step hs
  cases hmove with
  | @pause tc r hpc hadv =>
      exact h.worker hi (by simp [hpc]) (fun _ => by cases r <;> exact ⟨by simp, by simp⟩) rfl rfl
        rfl rfl (advance_stopper hadv)
  | check hpc =>
      refine h.worker hi (by simp [hpc]) (fun hf => ?_) rfl rfl rfl rfl rfl
      rw [stopRequired, hf]
      exact ⟨by simp, by simp⟩
  | @pop q r hpc =>
      refine h.worker hi (by simp [hpc]) (fun _ => ?_) rfl rfl rfl rfl rfl
      rcases r with - | - | qe <;> exact ⟨by simp [afterPop], by simp [afterPop]⟩
  | run hpc => exact h.worker hi (by simp [hpc]) (fun _ => ⟨by simp, by simp⟩) rfl rfl rfl rfl rfl
  | inside hpc =>
      exact h.worker hi (by simp [hpc]) (fun _ => ⟨by simp, by simp⟩) rfl rfl rfl rfl rfl
  | delete hpc =>
      exact h.worker hi (by simp [hpc]) (fun _ => ⟨by simp, by simp⟩) rfl rfl rfl rfl rfl
  | done hpc hadv =>
      -- a worker gets to `done` only when it has seen the flag
      refine h.worker hi (by simp [hpc]) (fun hf => ?_) rfl rfl rfl rfl (advance_stopper hadv)
      exact absurd hpc ((h.looping hf).2 i hi).1

theorem step (h : Course p s) (hg : Growth s) (hok : Controlled p e)
    (hs : GenericThreadPool.step s e = some s') : Course p s' := by
  cases e with
  | call c op =>
      obtain ⟨-, -, hmove⟩ := callMove_of_step hs
      cases hmove with
      | pushFunction => exact h.of_client_outside_stop rfl (fun _ => trivial) id rfl rfl rfl rfl
      | _ => exact h.of_client_outside_stop rfl (fun hne => absurd hok hne) id rfl rfl rfl rfl
  | client c => exact h.client hg hs
  | worker i => exact h.workerStep hs
  | timeout i =>
      obtain ⟨hi, hpc, q, r, -, rfl⟩ := timeoutStep_some hs
      refine h.worker hi (by simp [hpc]) (fun _ => ?_) rfl rfl rfl rfl rfl
      rcases r with - | - | qe <;> exact ⟨by simp [afterPop], by simp [afterPop]⟩
  | spuriousTc b t =>
      simp only [GenericThreadPool.step, Option.map_eq_some_iff] at hs
      obtain ⟨tc, hsp, rfl⟩ := hs
      exact h.same rfl rfl rfl rfl (spurious_stopper hsp)
  | spuriousQ t =>
      simp only [GenericThreadPool.step, Option.map_eq_some_iff] at hs
      obtain ⟨q, -, rfl⟩ := hs
      exact h.same rfl rfl rfl rfl rfl

end Course

theorem course_of_reachable {n : Nat} {ok : GenericThreadPool ι → Ev ι → Prop}
    (hok : ∀ s e, ok s e → Controlled p e) (h : (system ι n).ReachableBy ok s) : Course p s := by
  refine h.invariant ?_ fun s e s' hreach hcourse hstep hs =>
    hcourse.step (growth_of_reachable hreach) (hok s e hstep) hs
  rintro s ⟨c, heap, rfl⟩
  have hpc : ∀ d, (initial c n heap).clients d = .idle ∨
      (initial c n heap).clients d = .constructing n .head := by
    intro d
    by_cases hdc : d = c
    · right
      simp [initial, hdc]
    · left
      simp [initial, hdc]
  refine ⟨fun d _ => ?_, fun _ => ⟨rfl, fun i hi => absurd hi (Nat.not_lt_zero i)⟩, fun hp => ?_,
    fun hp => ?_, fun hp => ?_, fun hf => by cases hf⟩
  · rcases hpc d with hd | hd <;> rw [hd] <;> trivial
  · rcases hpc p with hd | hd <;> rw [hd] at hp <;> cases hp
  · rcases hpc p with hd | hd <;> rw [hd] at hp <;> cases hp
  · rcases hpc p with hd | hd <;> rw [hd] at hp <;> simp at hp

end GenericThreadPool
end Fredlib
