/-
  Fredlib.ThreadPool.WorkerControl

  A `WorkerThreads` driven by one controller is a crew, if its routines call
  nothing but `sync` once they have called `done`.

  The crew does not see inside a routine: a worker is checking while it is in
  `pauseIfRequred`, finished once it has called `done`, and free otherwise.
-/

import Fredlib.Threading.CrewControl
import Fredlib.ThreadPool.WorkerThreads

namespace Fredlib

open Lib Lib.Monitor ThreadControl

namespace WorkerThreads

/-- Where a worker stands that has not called `done`. -/
def WorkerPc.phase : WorkerPc → Crew.Phase
  | .calling .pauseIfRequred => .checking
  | _ => .free

/-- What the controller is at: the counters are ahead of the workers by those
    still to be created. -/
def ClientPc.ctl : ClientPc → Crew.Ctl
  | .arming n .pausePoint | .announcing n .pausePoint => .adding n 0
  | .arming _ _ | .announcing _ _ => .adding 0 0
  | .creating left | .adding left => .adding left left
  | .idle | .syncing | .waitSize => .idle
  | .pausing => .pausing
  | .resuming => .resuming
  | .stopSize | .stopSet => .stopping
  | .waiting | .stopWait => .waiting
  | .join _ | .joinClear => .joining

/-- Where the worker `i` stands. -/
def phase (log : List (Obs Unit)) (s : WorkerThreads Unit) (i : Nat) : Crew.Phase :=
  if i < s.created then
    if .done i ∈ log then .finished else (s.workers i).phase
  else .absent

/-- The crew of the pool. -/
def crew (p : List (Obs Unit) × WorkerThreads Unit) : Crew where
  tc := p.2._tc
  created := p.2.created
  phase := p.2.phase p.1
  ctl := (p.2.clients ()).ctl

/-- What the crew can see a step of the pool as. -/
def Sees (p : List (Obs Unit) × WorkerThreads Unit) (e : Ev Unit) : Crew.Ev → Prop
  | .begin .pausing => e = .call () .pause
  | .begin .stopping => e = .call () .stop
  | .begin .waiting => e = .client () ∧ p.2.clients () = .waitSize
  | .done i => e = .worker i ∧ p.2.workers i = .calling .done
  | _ => True

variable {s s' : WorkerThreads Unit} {log : List (Obs Unit)} {e : Ev Unit} {i : Nat}

theorem phase_of_not_done (hi : i < s.created) (hdone : .done i ∉ log) :
    s.phase log i = (s.workers i).phase := by
  rw [phase, if_pos hi, if_neg hdone]

/-- Only what the log shows of `done` matters. -/
theorem phase_congr {log' : List (Obs Unit)} (h : ∀ j, .done j ∈ log' ↔ .done j ∈ log) :
    s.phase log' = s.phase log := by
  funext j
  simp [phase, h]

theorem crew_setWorker {pc : WorkerPc} (hi : i < s.created) (hdone : .done i ∉ log) :
    crew (log, s.setWorker i pc) = (crew (log, s)).goto i pc.phase := by
  -- without a call of `done` the phase of `i` follows its place, and no other changes
  have hphase : (s.setWorker i pc).phase log = Function.update (s.phase log) i pc.phase := by
    funext j
    by_cases hji : j = i
    · subst hji
      rw [Function.update_self]
      exact (phase_of_not_done (s := s.setWorker j pc) hi hdone).trans
        (congrArg WorkerPc.phase setWorker_self)
    · rw [Function.update_of_ne hji]
      unfold phase
      rw [setWorker_of_ne hji]
      rfl
  unfold crew Crew.goto
  rw [← hphase]
  rfl

theorem crew_setClient {pc : ClientPc} :
    crew (log, s.setClient () pc) = { crew (log, s) with ctl := pc.ctl } := by
  unfold crew
  rw [setClient_self]
  rfl

/-- A worker whose move the crew does not see. -/
theorem crew_setWorker_same {pc : WorkerPc} (hpc : pc.phase = (s.workers i).phase) :
    crew (log, s.setWorker i pc) = crew (log, s) := by
  have hphase : (s.setWorker i pc).phase log = s.phase log := by
    funext j
    unfold phase
    by_cases hji : j = i
    · subst hji
      rw [setWorker_self, hpc]
      rfl
    · rw [setWorker_of_ne hji]
      rfl
  unfold crew
  rw [hphase]
  rfl

theorem not_done_of_showsSync {t : Tid Unit} : .done i ∉ s.showsSync t := by
  unfold showsSync
  split <;> simp

/-- What a call of `sync` adds to the log makes no difference to the crew. -/
theorem crew_showsSync {t : Tid Unit} :
    crew (log ++ s.showsSync t, s') = crew (log, s') := by
  have hphase : s'.phase (log ++ s.showsSync t) = s'.phase log := by
    refine phase_congr fun j => ?_
    rw [List.mem_append]
    exact or_iff_left not_done_of_showsSync
  unfold crew
  rw [hphase]

/-- A step of `sync` is one of the crew, whoever takes it. -/
theorem crew_sync {t : Tid Unit} {tc : ThreadControl (Tid Unit)} {r : Option Unit}
    (hadv : s._tc.advance t (.sync .sync) = some (tc, r)) :
    Crew.step (crew (log, s)) (.sync t) = some (crew (log, { s with _tc := tc })) := by
  have hadv' : (crew (log, s)).tc.advance t (.sync .sync) = some (tc, r) := hadv
  simp only [Crew.step, hadv', Option.map_some]
  rfl

/-- The routine of a worker calls an operation. -/
theorem crew_act {act : Act} (hok : Orderly (log, s) (.act i act))
    (h : s.actStep i act = some s') :
    crew (log, s') = crew (log, s) ∨
      ∃ e', Sees (log, s) (.act i act) e' ∧
        Crew.step (crew (log, s)) e' = some (crew (log, s')) := by
  obtain ⟨hi, hpc, rfl⟩ := actStep_some h
  cases act with
  | pauseIfRequred =>
      -- the promise of the routine: `done` is not on the log, so `i` is still free
      have hdone : .done i ∉ log := fun hmem => by cases hok hmem
      refine .inr ⟨.again i, trivial, ?_⟩
      have hphase : (crew (log, s)).phase i = .free := by
        show s.phase log i = _
        rw [phase_of_not_done hi hdone, hpc]
        rfl
      rw [crew_setWorker hi hdone]
      simp only [Crew.step, hphase]
      rfl
  | sync => exact .inl (crew_setWorker_same (by rw [hpc]; rfl))
  | done => exact .inl (crew_setWorker_same (by rw [hpc]; rfl))

/-- A step of a worker inside an operation. -/
theorem crew_worker (hcalling : ∀ act, s.workers i = .calling act → act ≠ .sync → .done i ∉ log)
    (h : s.workerStep i = some s') :
    ∃ e', Sees (log, s) (.worker i) e' ∧
      Crew.step (crew (log, s)) e' = some (crew (log ++ s.obs (.worker i), s')) := by
  obtain ⟨hi, act, tc, r, hpc, hadv, rfl⟩ := workerStep_some h
  cases act with
  | sync =>
      refine ⟨.sync (.worker i), trivial, ?_⟩
      simp only [obs, hpc]
      rw [crew_showsSync, crew_setWorker_same (s := { s with _tc := tc })]
      · exact crew_sync hadv
      · rw [hpc]
        cases r <;> rfl
  -- back from `pauseIfRequred` the crew has `i` free again, else it is checking still
  | pauseIfRequred =>
      have hdone := hcalling _ hpc (by simp)
      refine ⟨.check i, trivial, ?_⟩
      have hphase : (crew (log, s)).phase i = .checking := by
        show s.phase log i = _
        rw [phase_of_not_done hi hdone, hpc]
        rfl
      have hadv' : (crew (log, s)).tc.advance (.worker i) (.pause .pauseIfRequred) =
          some (tc, r) := hadv
      simp only [obs, hpc, List.append_nil]
      rw [crew_setWorker (s := { s with _tc := tc }) hi hdone]
      simp only [Crew.step, hphase, hadv', Option.map_some]
      cases r <;> rfl
  | done =>
      have hdone := hcalling _ hpc (by simp)
      refine ⟨.done i, ⟨rfl, hpc⟩, ?_⟩
      have hphase : (crew (log, s)).phase i = .free := by
        show s.phase log i = _
        rw [phase_of_not_done hi hdone, hpc]
        rfl
      have hadv' : (crew (log, s)).tc.advance (.worker i) (.fanIn .done) = some (tc, r) := hadv
      simp only [obs, hpc, Crew.step, hphase, hadv', Option.map_some, Option.some.injEq]
      unfold crew Crew.goto
      -- the log now shows that `i` is done, which makes it finished
      congr 1
      funext j
      by_cases hji : j = i
      · subst hji
        simp [phase, setWorker, hi]
      · simp [phase, setWorker, hji]

/-- The routine of a worker returns. -/
theorem crew_ret (h : s.retStep i = some s') : crew (log, s') = crew (log, s) := by
  obtain ⟨-, hpc, rfl⟩ := retStep_some h
  exact crew_setWorker_same (by rw [hpc]; rfl)

/-- A new worker. -/
theorem crew_emplace {left : Nat} {pc : ClientPc}
    (hctl : (s.clients ()).ctl = .adding ↑(left + 1) ↑(left + 1)) (hnew : .done s.created ∉ log)
    (hpc : pc.ctl = .adding left left) :
    Crew.step (crew (log, s)) (.create .free) =
      some (crew (log, s.emplace.setClient () pc)) := by
  have hctl' : (crew (log, s)).ctl = .adding ↑(left + 1) ↑(left + 1) := hctl
  have hless : ((left + 1 : Nat) : Int) - 1 = left := by omega
  rw [crew_setClient, hpc]
  simp only [Crew.step, hctl', Option.some.injEq, hless]
  unfold crew Crew.goto
  congr 1
  funext j
  by_cases hj : j = s.created
  · subst hj
    simp [phase, emplace, setWorker, hnew, WorkerPc.phase]
  · have hiff : j < s.created + 1 ↔ j < s.created := by omega
    simp [phase, emplace, setWorker, hj, hiff]

/-! ## What an orderly run keeps -/

/-- Nobody is in `pauseIfRequred` or `done` once `done` has been called; only
    workers call it; and none is created before the counters are set. -/
structure DoneInv (log : List (Obs Unit)) (s : WorkerThreads Unit) : Prop where
  calling : ∀ i act, s.workers i = .calling act → act ≠ .sync → .done i ∉ log
  worker : ∀ i, .done i ∈ log → i < s.created
  arming : ∀ n b, s.clients () = .arming n b → s.created = 0

namespace DoneInv

/-- Steps that move no worker and show nothing of `done`. -/
theorem frame {obs : List (Obs Unit)} (h : DoneInv log s) (hobs : ∀ j, .done j ∉ obs)
    (hworkers : s'.workers = s.workers) (hcreated : s'.created = s.created)
    (harming : ∀ n b, s'.clients () = .arming n b → s.created = 0) : DoneInv (log ++ obs) s' := by
  refine ⟨fun j act hpc hact hmem => ?_, fun j hmem => ?_, fun n b hpc => ?_⟩
  · rw [hworkers] at hpc
    exact (List.mem_append.mp hmem).elim (h.calling j act hpc hact) (hobs j)
  · rw [hcreated]
    exact (List.mem_append.mp hmem).elim (h.worker j) fun hj => absurd hj (hobs j)
  · rw [hcreated]
    exact harming n b hpc

/-- The worker `i` goes to `pc`, where it may be as far as the log says. -/
theorem setWorker {obs : List (Obs Unit)} {tc : ThreadControl (Tid Unit)} {pc : WorkerPc}
    (h : DoneInv log s) (hobs : ∀ j, .done j ∉ obs)
    (hpc : ∀ act, pc = .calling act → act ≠ .sync → .done i ∉ log) :
    DoneInv (log ++ obs) ({ s with _tc := tc }.setWorker i pc) := by
  refine ⟨fun j act hj hact hmem => ?_, fun j hmem => ?_, h.arming⟩
  · have hlog := (List.mem_append.mp hmem).resolve_right (hobs j)
    by_cases hji : j = i
    · subst hji
      rw [setWorker_self] at hj
      exact hpc act hj hact hlog
    · rw [setWorker_of_ne hji] at hj
      exact h.calling j act hj hact hlog
  · exact h.worker j ((List.mem_append.mp hmem).resolve_right (hobs j))

theorem emplace {pc : ClientPc} (h : DoneInv log s) (hpc : ∀ n b, pc ≠ .arming n b) :
    DoneInv log (s.emplace.setClient () pc) := by
  refine ⟨fun j act hj hact => ?_, fun j hmem => Nat.lt_succ_of_lt (h.worker j hmem), ?_⟩
  · by_cases hjc : j = s.created
    · subst hjc
      exact fun hmem => Nat.lt_irrefl _ (h.worker _ hmem)
    · refine h.calling j act ?_ hact
      rw [← hj]
      exact (Function.update_of_ne hjc _ _).symm
  · intro n b hj
    rw [setClient_self] at hj
    exact absurd hj (hpc n b)

/-- A worker calls `done`. -/
theorem done {tc : ThreadControl (Tid Unit)} (h : DoneInv log s) (hi : i < s.created) :
    DoneInv (log ++ [.done i]) ({ s with _tc := tc }.setWorker i .routine) := by
  refine ⟨fun j act hj hact hmem => ?_, fun j hmem => ?_, h.arming⟩
  · by_cases hji : j = i
    · subst hji
      rw [setWorker_self] at hj
      cases hj
    · rw [setWorker_of_ne hji] at hj
      refine h.calling j act hj hact ?_
      simpa [hji] using hmem
  · rcases List.mem_append.mp hmem with hmem | hmem
    · exact h.worker j hmem
    · have heq : j = i := by simpa using hmem
      subst heq
      exact hi

theorem client (h : DoneInv log s) (hs : s.clientStep () = some s') :
    DoneInv (log ++ s.obs (.client ())) s' := by
  cases clientMove_of_step hs with
  | @arm n b tc r hpc hadv =>
      simp only [obs, hpc]
      exact h.frame (by simp) rfl rfl fun m b' _ => h.arming n b hpc
  | create hpc =>
      simp only [obs, hpc, List.append_nil]
      exact h.emplace (by simp)
  | add hpc =>
      simp only [obs, hpc, List.append_nil]
      exact h.emplace (by simp)
  | built hpc | added hpc | stopSet hpc | join hpc | joined hpc | joinClear hpc =>
      simp only [obs, hpc]
      exact h.frame (by simp) rfl rfl (by simp)
  | @announce n b tc r hpc hadv =>
      simp only [obs, hpc]
      exact h.frame (by simp) rfl rfl (by cases b <;> simp [afterAnnouncing, Base.next])
  | @pause tc r hpc hadv | @resume tc r hpc hadv | @wait tc r hpc hadv | @stopWait tc r hpc hadv =>
      simp only [obs, hpc]
      exact h.frame (by simp) rfl rfl (by cases r <;> simp)
  | @sync tc r hpc hadv =>
      simp only [obs, hpc]
      exact h.frame (fun j => not_done_of_showsSync) rfl rfl (by cases r <;> simp)
  | waitSize hpc | stopSize hpc =>
      simp only [obs, hpc]
      exact h.frame (by simp) rfl rfl (by split <;> simp)

theorem step (h : DoneInv log s) (hok : Orderly (log, s) e)
    (hs : WorkerThreads.step s e = some s') : DoneInv (log ++ s.obs e) s' := by
  cases e with
  | call c op =>
      obtain ⟨-, -, hmove⟩ := callMove_of_step hs
      cases hmove <;> exact h.frame (by simp [obs]) rfl rfl (by simp)
  | client c => exact h.client hs
  | act i act =>
      obtain ⟨hi, hpc, rfl⟩ := actStep_some hs
      refine h.setWorker (by simp [obs]) fun act' hact' hne hmem => hne ?_
      cases hact'
      exact hok hmem
  | worker i =>
      obtain ⟨hi, act, tc, r, hpc, hadv, rfl⟩ := workerStep_some hs
      simp only [obs, hpc]
      cases act with
      | done => exact h.done hi
      | sync =>
          refine h.setWorker (fun j => not_done_of_showsSync) fun act' hact' hne => ?_
          cases r with
          -- still inside `sync`, which the promise allows after `done`
          | none =>
              cases hact'
              exact absurd rfl hne
          | some u => cases hact'
      | pauseIfRequred => exact h.setWorker (by simp) fun _ _ _ => h.calling i _ hpc (by simp)
  | ret i =>
      obtain ⟨hi, hpc, rfl⟩ := retStep_some hs
      exact h.setWorker (by simp [obs]) (by simp)
  | spurious b t =>
      simp only [WorkerThreads.step, Option.map_eq_some_iff] at hs
      obtain ⟨tc, -, rfl⟩ := hs
      exact h.frame (by simp [obs]) rfl rfl h.arming

end DoneInv

theorem doneInv_of_reachable {n : Nat} {p : List (Obs Unit) × WorkerThreads Unit}
    (h : (recorded Unit n).ReachableBy Orderly p) : DoneInv p.1 p.2 := by
  refine h.recorded_invariant ?_ fun log s e s' hinv hok hs => hinv.step hok hs
  rintro s ⟨c, rfl⟩
  exact ⟨by simp, by simp, fun _ _ _ => rfl⟩

/-! ## The projection -/

/-- Only the steps inside `sync` show something of the controller. -/
theorem obs_client_nil {pc : ClientPc} (hpc : s.clients () = pc) (hne : pc ≠ .syncing) :
    s.obs (.client ()) = [] := by
  cases pc <;> first | exact absurd rfl hne | simp only [obs, hpc]

/-- A silent step of the controller between two places the crew cannot tell
    apart. -/
theorem crew_unmoved {pc pc' : ClientPc} (hpc : s.clients () = pc) (hne : pc ≠ .syncing)
    (hctl : pc'.ctl = pc.ctl) :
    crew (log ++ s.obs (.client ()), s.setClient () pc') = crew (log, s) := by
  rw [obs_client_nil hpc hne, List.append_nil, crew_setClient, hctl, ← hpc]
  rfl

/-- A silent step of the controller that the crew sees as `e'`. -/
theorem crew_moved {pc pc' : ClientPc} {tc : ThreadControl (Tid Unit)} {e' : Crew.Ev}
    (hpc : s.clients () = pc) (hne : pc ≠ .syncing)
    (hs : Crew.step (crew (log, s)) e' =
      some { crew (log, s) with tc := tc, ctl := pc'.ctl }) :
    Crew.step (crew (log, s)) e' =
      some (crew (log ++ s.obs (.client ()), { s with _tc := tc }.setClient () pc')) := by
  rw [obs_client_nil hpc hne, List.append_nil, crew_setClient]
  exact hs

/-- A turn of the loops that create workers. -/
theorem crew_created {pc : ClientPc} {left : Nat} (h : DoneInv log s)
    (hpc : s.clients () = pc) (hne : pc ≠ .syncing)
    (hctl : pc.ctl = .adding ↑(left + 1) ↑(left + 1)) {pc' : ClientPc}
    (hctl' : pc'.ctl = .adding left left) :
    Crew.step (crew (log, s)) (.create .free) =
      some (crew (log ++ s.obs (.client ()), s.emplace.setClient () pc')) := by
  have hnew : .done s.created ∉ log := fun hmem => Nat.lt_irrefl _ (h.worker _ hmem)
  rw [obs_client_nil hpc hne, List.append_nil]
  exact crew_emplace (by rw [hpc, hctl]) hnew hctl'

/-- The steps of the controller. -/
theorem crew_client (h : DoneInv log s) (hs : s.clientStep () = some s') :
    crew (log ++ s.obs (.client ()), s') = crew (log, s) ∨
      ∃ e', Sees (log, s) (.client ()) e' ∧
        Crew.step (crew (log, s)) e' = some (crew (log ++ s.obs (.client ()), s')) := by
  -- what the crew knows of a controller whose place is known
  have hctl : ∀ {pc}, s.clients () = pc → (crew (log, s)).ctl = pc.ctl := congrArg ClientPc.ctl
  cases clientMove_of_step hs with
  | @arm n b tc r hpc hadv =>
      refine .inr ⟨.arm b n, trivial, crew_moved hpc (by simp) ?_⟩
      cases b <;> exact Crew.step_arm_eq (hctl hpc) (h.arming _ _ hpc) hadv
  | @announce n b tc r hpc hadv =>
      refine .inr ⟨.announce b n, trivial, crew_moved hpc (by simp) ?_⟩
      cases b <;>
        exact Crew.step_announce_eq (hctl hpc) hadv
          (by simp [afterAnnouncing, Base.next, ClientPc.ctl, Crew.lead])
  | create hpc => exact .inr ⟨.create .free, trivial, crew_created h hpc (by simp) rfl rfl⟩
  | add hpc => exact .inr ⟨.create .free, trivial, crew_created h hpc (by simp) rfl rfl⟩
  | built hpc | added hpc =>
      exact .inr ⟨.rest, trivial,
        crew_moved hpc (by simp) (Crew.step_rest_eq (hctl hpc) (.inl rfl))⟩
  | @pause tc r hpc hadv =>
      exact .inr ⟨.pause, trivial,
        crew_moved hpc (by simp) (Crew.step_pause_eq (hctl hpc) hadv (by cases r <;> rfl))⟩
  | @resume tc r hpc hadv =>
      exact .inr ⟨.resume, trivial,
        crew_moved hpc (by simp) (Crew.step_resume_eq (hctl hpc) hadv (by cases r <;> rfl))⟩
  | @sync tc r hpc hadv =>
      refine .inr ⟨.sync (.client ()), trivial, ?_⟩
      simp only [obs, hpc]
      rw [crew_showsSync, crew_setClient, crew_sync hadv]
      cases r <;> simp [crew, ClientPc.ctl, hpc]
  | waitSize hpc =>
      -- `wait` goes on to the counters only where there are workers to wait for
      split
      · exact .inr ⟨.begin .waiting, ⟨rfl, hpc⟩,
          crew_moved hpc (by simp) (Crew.step_begin_eq (hctl hpc) (by simp))⟩
      · exact .inl (crew_unmoved hpc (by simp) rfl)
  | @wait tc r hpc hadv =>
      exact .inr ⟨.wait .idle, trivial,
        crew_moved hpc (by simp)
          (Crew.step_wait_eq (hctl hpc) hadv (.inr rfl) (by cases r <;> rfl))⟩
  | stopSize hpc =>
      split
      · exact .inl (crew_unmoved hpc (by simp) rfl)
      · exact .inr ⟨.rest, trivial,
          crew_moved hpc (by simp) (Crew.step_rest_eq (hctl hpc) (.inr (.inl rfl)))⟩
  | stopSet hpc =>
      exact .inr ⟨.requestStop, trivial,
        crew_moved hpc (by simp) (Crew.step_requestStop_eq (hctl hpc))⟩
  | @stopWait tc r hpc hadv =>
      -- `stop` here ends with its wait: the workers are joined by a call of its own
      exact .inr ⟨.wait .idle, trivial,
        crew_moved hpc (by simp)
          (Crew.step_wait_eq (hctl hpc) hadv (.inr rfl) (by cases r <;> rfl))⟩
  | join hpc hj hexited | joined hpc hj => exact .inl (crew_unmoved hpc (by simp) rfl)
  | joinClear hpc hmu =>
      exact .inr ⟨.rest, trivial,
        crew_moved hpc (by simp) (Crew.step_rest_eq (hctl hpc) (.inr (.inr rfl)))⟩

/-- The calls of the controller. -/
theorem crew_call {op : Call} (h : s.callStep () op = some s') :
    crew (log, s') = crew (log, s) ∨ ∃ e', Sees (log, s) (.call () op) e' ∧
      Crew.step (crew (log, s)) e' = some (crew (log, s')) := by
  obtain ⟨-, hidle, hmove⟩ := callMove_of_step h
  have hctl : (crew (log, s)).ctl = .idle := congrArg ClientPc.ctl hidle
  have hbegin : ∀ {pc : ClientPc} {k : Crew.Ctl}, pc.ctl = k →
      Sees (log, s) (.call () op) (.begin k) →
      Crew.step (crew (log, s)) (.begin k) = some { crew (log, s) with ctl := k } →
      ∃ e', Sees (log, s) (.call () op) e' ∧
        Crew.step (crew (log, s)) e' = some (crew (log, s.setClient () pc)) := by
    intro pc k hpc hsees hs
    exact ⟨.begin k, hsees, by rw [crew_setClient, hpc]; exact hs⟩
  cases hmove with
  | addThread hmu =>
      refine .inr ⟨.begin (.adding 0 0), trivial, ?_⟩
      rw [crew_setClient]
      exact Crew.step_begin_eq hctl (.inl rfl)
  | join => exact .inr (hbegin rfl trivial (Crew.step_begin_eq hctl (by simp [ClientPc.ctl])))
  | pause => exact .inr (hbegin rfl rfl (Crew.step_begin_eq hctl (by simp [ClientPc.ctl])))
  | resume => exact .inr (hbegin rfl trivial (Crew.step_begin_eq hctl (by simp [ClientPc.ctl])))
  | stop => exact .inr (hbegin rfl rfl (Crew.step_begin_eq hctl (by simp [ClientPc.ctl])))
  -- the crew does not see these: `sync` shows when it steps, `wait` at its counter
  | sync | wait =>
      left
      rw [crew_setClient]
      simp [crew, hidle, ClientPc.ctl]

/-- **The pool projects onto its crew**, in every orderly run. -/
theorem projects (n : Nat) :
    System.Projects (recorded Unit n) Crew.system Orderly Sees crew where
  init := by
    rintro ⟨log, s⟩ ⟨-, c, rfl⟩
    refine ⟨rfl, rfl, fun _ => rfl, ?_⟩
    simp [crew, initial, ClientPc.ctl]
  step := by
    rintro ⟨log, s⟩ e p' hreach hok hs
    obtain ⟨s', hs', rfl⟩ := System.recorded_some hs
    have hinv := doneInv_of_reachable hreach
    cases e with
    | call c op =>
        simp only [obs, List.append_nil]
        exact crew_call hs'
    | client c => exact crew_client hinv hs'
    | act i act =>
        simp only [obs, List.append_nil]
        exact crew_act hok hs'
    | worker i => exact .inr (crew_worker (hinv.calling i) hs')
    | ret i =>
        simp only [obs, List.append_nil]
        exact .inl (crew_ret hs')
    | spurious b t =>
        have hsp : (s._tc.spurious b t).map (fun tc => { s with _tc := tc }) = some s' := hs'
        rw [Option.map_eq_some_iff] at hsp
        obtain ⟨tc, htc, rfl⟩ := hsp
        refine .inr ⟨.spurious b t, trivial, ?_⟩
        have htc' : (crew (log, s)).tc.spurious b t = some tc := htc
        change Crew.step (crew (log, s)) (.spurious b t) = _
        simp only [Crew.step, htc', Option.map_some, obs, List.append_nil]
        rfl

end WorkerThreads
end Fredlib
