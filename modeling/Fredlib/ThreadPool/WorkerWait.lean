/-
  Fredlib.ThreadPool.WorkerWait

  `wait` and `stop` of a `WorkerThreads` that grows meanwhile.

  Unlike `GenericThreadPool`, `WorkerThreads` tells `FanInPoint` of a whole
  batch of workers before it creates the first of them.  So a worker that calls
  `done` has always been announced, however late the others of its batch come:
  the counter is the number of workers announced that have not called `done`,
  and `wait` and `stop` return exactly when there is none
  (`wait_returns_when_done`).
-/

import Fredlib.ThreadPool.WorkerThreads
import Mathlib.Data.Finset.Card
import Mathlib.Data.Finset.Range

namespace Fredlib

open Lib Lib.Monitor ThreadControl

namespace WorkerThreads

variable {ι : Type*} [DecidableEq ι]

/-- What a run shows to `FanInPoint`: that workers will come, and who is done. -/
inductive FanObs
  | announced (k : Nat)
  | done (i : Nat)
  deriving DecidableEq

/-- The workers announced. -/
def FanObs.workers : FanObs → Nat
  | .announced k => k
  | .done _ => 0

/-- The worker that is done. -/
def FanObs.worker : FanObs → Option Nat
  | .announced _ => none
  | .done i => some i

/-- What a step shows to `FanInPoint`. -/
def fanObs (s : WorkerThreads ι) : Ev ι → List FanObs
  | .client c =>
      match s.clients c with
      | .arming nthreads .fanIn => [.announced nthreads]
      | .announcing nthreads .fanIn => [.announced nthreads]
      | _ => []
  | .worker i =>
      match s.workers i with
      | .calling .done => [.done i]
      | _ => []
  | _ => []

/-- The pools constructed with `n` threads, with what `FanInPoint` has been shown. -/
abbrev fanRecorded (ι : Type*) [DecidableEq ι] (n : Nat) :
    System (List FanObs × WorkerThreads ι) (Ev ι) :=
  (system ι n).recorded fanObs

/-- How many workers have been announced. -/
def announced : List FanObs → Nat
  | [] => 0
  | o :: log => o.workers + announced log

/-- Who has called `done`, and how often. -/
def doneBy (log : List FanObs) : List Nat := log.filterMap FanObs.worker

/-- The promise: a routine calls `done` at most once, and nobody joins the pool. -/
def CallsDoneOnce (p : List FanObs × WorkerThreads ι) : Ev ι → Prop
  | .act i .done => .done i ∉ p.1
  | .call _ .join => False
  | _ => True

/-- In the constructor. -/
def ClientPc.Builds : ClientPc → Prop
  | .arming _ _ | .creating _ => True
  | _ => False

/-- In `add_thread`. -/
def ClientPc.Adds : ClientPc → Prop
  | .announcing _ _ | .adding _ => True
  | _ => False

/-- In the constructor, before `FanInPoint` has been initialized. -/
def ClientPc.Arms : ClientPc → Prop
  | .arming _ .syncPoint | .arming _ .fanIn => True
  | _ => False

/-- In `FanInPoint::wait`. -/
def ClientPc.Waits (pc : ClientPc) : Prop := pc = .waiting ∨ pc = .stopWait

/-- In a call of `wait` or `stop`. -/
def ClientPc.InWait (pc : ClientPc) : Prop :=
  pc = .waitSize ∨ pc = .stopSize ∨ pc = .stopSet ∨ pc.Waits

/-- In a call of `join`. -/
def ClientPc.Joins : ClientPc → Prop
  | .join _ | .joinClear => True
  | _ => False

/-- How many workers a client has announced to `FanInPoint` and not yet created. -/
def ClientPc.left : ClientPc → Nat
  | .arming nthreads .pausePoint | .announcing nthreads .pausePoint => nthreads
  | .creating left | .adding left => left
  | _ => 0

variable {s s' : WorkerThreads ι} {i : Nat} {c : ι} {e : Ev ι} {log : List FanObs}

/-- When a client goes on to `pc`, the others stay where they are. -/
theorem clients_of_update {pc : ClientPc} (h : s'.clients = Function.update s.clients c pc) :
    s'.clients c = pc ∧ ∀ d, d ≠ c → s'.clients d = s.clients d := by
  rw [h]
  exact ⟨Function.update_self .., fun d hd => Function.update_of_ne hd ..⟩

theorem ClientPc.left_eq_zero {pc : ClientPc} (hb : ¬ pc.Builds) (ha : ¬ pc.Adds) :
    pc.left = 0 := by
  cases pc with
  | arming => exact absurd trivial hb
  | creating => exact absurd trivial hb
  | announcing => exact absurd trivial ha
  | adding => exact absurd trivial ha
  | _ => rfl

theorem ClientPc.Arms.builds {pc : ClientPc} (h : pc.Arms) : pc.Builds := by
  cases pc with
  | arming => trivial
  | _ => exact absurd h id

-- ============================================================================
-- Who brings workers
-- ============================================================================

/-- At most one client at a time brings workers: it is constructing the pool,
    which nobody else uses yet, or it holds `_muWorkerThreads`. -/
structure Bringers (s : WorkerThreads ι) : Prop where
  mutex : ∀ c, (s.clients c).Adds → s._muWorkerThreads = some c
  building : ∀ c, (s.clients c).Builds → s.built = false ∧ ∀ d, d ≠ c → s.clients d = .idle

namespace Bringers

omit [DecidableEq ι] in
theorem alone (h : Bringers s) (hc : (s.clients c).Builds ∨ (s.clients c).Adds) {d : ι}
    (hd : d ≠ c) : ¬ (s.clients d).Builds ∧ ¬ (s.clients d).Adds := by
  constructor
  · intro hbuilds
    rw [(h.building d hbuilds).2 c (Ne.symm hd)] at hc
    exact hc.elim id id
  · intro hadds
    rcases hc with hbuilds | hadds'
    · rw [(h.building c hbuilds).2 d hd] at hadds
      exact hadds
    · exact hd (Option.some.inj ((h.mutex d hadds).symm.trans (h.mutex c hadds')))

omit [DecidableEq ι] in
theorem frame (h : Bringers s) (hclients : s'.clients = s.clients)
    (hmutex : s'._muWorkerThreads = s._muWorkerThreads) (hbuilt : s'.built = s.built) :
    Bringers s' := by
  refine ⟨?_, ?_⟩
  · rw [hclients, hmutex]
    exact h.mutex
  · rw [hclients, hbuilt]
    exact h.building

omit [DecidableEq ι] in
/-- While a client is in a call, nobody else is constructing the pool. -/
theorem nobody (h : Bringers s) (hc : s.clients c ≠ .idle) (d : ι) (hd : d ≠ c) :
    ¬ (s.clients d).Builds :=
  fun hbuilds => hc ((h.building d hbuilds).2 c (Ne.symm hd))

/-- A client goes on to `pc`, with nobody else constructing the pool. -/
theorem of_client_at {pc : ClientPc} (h : Bringers s)
    (hnobody : ∀ d, d ≠ c → ¬ (s.clients d).Builds)
    (hclients : s'.clients = Function.update s.clients c pc)
    (hadds : pc.Adds → s'._muWorkerThreads = some c)
    (hmutex : ∀ d, d ≠ c → (s.clients d).Adds → s'._muWorkerThreads = some d)
    (hbuilds : pc.Builds → (s.clients c).Builds ∧ s'.built = s.built) : Bringers s' := by
  obtain ⟨hself, hother⟩ := clients_of_update hclients
  refine ⟨fun d hd => ?_, fun d hd => ?_⟩
  · by_cases hdc : d = c
    · rw [hdc, hself] at hd
      rw [hdc]
      exact hadds hd
    · rw [hother d hdc] at hd
      exact hmutex d hdc hd
  · by_cases hdc : d = c
    · subst hdc
      -- `c` was constructing the pool before this step, too
      rw [hself] at hd
      obtain ⟨hold, hbuilt⟩ := hbuilds hd
      obtain ⟨hfalse, hidle⟩ := h.building d hold
      exact ⟨hbuilt.trans hfalse, fun x hx => (hother x hx).trans (hidle x hx)⟩
    · rw [hother d hdc] at hd
      exact absurd hd (hnobody d hdc)

/-- A client that brings no workers takes a step. -/
theorem of_other_call {pc : ClientPc} (h : Bringers s)
    (hnobody : ∀ d, d ≠ c → ¬ (s.clients d).Builds)
    (hclients : s'.clients = Function.update s.clients c pc) (hadds : ¬ pc.Adds)
    (hbuilds : ¬ pc.Builds) (hmutex : s'._muWorkerThreads = s._muWorkerThreads) : Bringers s' :=
  h.of_client_at hnobody hclients (fun hpc => absurd hpc hadds)
    (fun d _ hd => hmutex.trans (h.mutex d hd)) fun hpc => absurd hpc hbuilds

theorem client (h : Bringers s) (hs : s.clientStep c = some s') : Bringers s' := by
  have hkeeps : ∀ d, d ≠ c → (s.clients d).Adds → s._muWorkerThreads = some d :=
    fun d _ hd => h.mutex d hd
  cases clientMove_of_step hs with
  | @arm nthreads b tc r hpc hadv =>
      have hbuilds : (s.clients c).Builds := by rw [hpc]; trivial
      refine h.of_client_at (h.nobody (by simp [hpc])) rfl ?_ hkeeps fun _ => ⟨hbuilds, rfl⟩
      cases b <;> exact fun hadds => absurd hadds id
  | @create left hpc =>
      have hbuilds : (s.clients c).Builds := by rw [hpc]; trivial
      exact h.of_client_at (h.nobody (by simp [hpc])) rfl (fun hadds => absurd hadds id) hkeeps
        fun _ => ⟨hbuilds, rfl⟩
  | built hpc =>
      exact h.of_client_at (h.nobody (by simp [hpc])) rfl (fun hadds => absurd hadds id) hkeeps
        fun hbuilds => absurd hbuilds id
  | @announce nthreads b tc r hpc hadv =>
      have hmutex := h.mutex c (by rw [hpc]; trivial)
      refine h.of_client_at (h.nobody (by simp [hpc])) rfl (fun _ => hmutex) hkeeps ?_
      cases b <;> exact fun hbuilds => absurd hbuilds id
  | add hpc =>
      have hmutex := h.mutex c (by rw [hpc]; trivial)
      exact h.of_client_at (h.nobody (by simp [hpc])) rfl (fun _ => hmutex) hkeeps
        fun hbuilds => absurd hbuilds id
  | added hpc =>
      have hadds : (s.clients c).Adds := by rw [hpc]; trivial
      exact h.of_client_at (h.nobody (by simp [hpc])) rfl (fun hadds => absurd hadds id)
        (fun d hdc hd => absurd hd (h.alone (.inr hadds) hdc).2) fun hbuilds => absurd hbuilds id
  -- all other calls leave the mutex alone
  | @pause tc r hpc | @sync tc r hpc | @resume tc r hpc | @wait tc r hpc | @stopWait tc r hpc =>
      exact h.of_other_call (h.nobody (by simp [hpc])) rfl (by cases r <;> exact id)
        (by cases r <;> exact id) rfl
  | waitSize hpc | stopSize hpc =>
      exact h.of_other_call (h.nobody (by simp [hpc])) rfl (by split <;> exact id)
        (by split <;> exact id) rfl
  | stopSet hpc | join hpc | joined hpc | joinClear hpc =>
      exact h.of_other_call (h.nobody (by simp [hpc])) rfl id id rfl

theorem step (h : Bringers s) (hs : WorkerThreads.step s e = some s') : Bringers s' := by
  cases e with
  | call c op =>
      obtain ⟨hbuilt, -, hmove⟩ := callMove_of_step hs
      have hnobody : ∀ d, d ≠ c → ¬ (s.clients d).Builds := by
        intro d _ hd
        have hfalse := (h.building d hd).1
        rw [hbuilt] at hfalse
        cases hfalse
      cases hmove with
      | addThread hmu =>
          refine h.of_client_at hnobody rfl (fun _ => rfl) (fun d _ hd => ?_) fun hb => absurd hb id
          have hsome := h.mutex d hd
          rw [hmu] at hsome
          cases hsome
      | _ => exact h.of_other_call hnobody rfl id id rfl
  | client c => exact h.client hs
  | act i act =>
      obtain ⟨-, -, rfl⟩ := actStep_some hs
      exact h.frame rfl rfl rfl
  | worker i =>
      obtain ⟨-, act, tc, r, -, -, rfl⟩ := workerStep_some hs
      exact h.frame rfl rfl rfl
  | ret i =>
      obtain ⟨-, -, rfl⟩ := retStep_some hs
      exact h.frame rfl rfl rfl
  | spurious b t =>
      simp only [WorkerThreads.step, Option.map_eq_some_iff] at hs
      obtain ⟨tc, -, rfl⟩ := hs
      exact h.frame rfl rfl rfl

end Bringers

-- ============================================================================
-- What a step is to FanInPoint
-- ============================================================================

/-- What `FanInPoint` sees of a step, with what the step shows to it. -/
inductive FanMove (s : WorkerThreads ι) : Ev ι → List FanObs → WorkerThreads ι → Prop
  /-- Nothing at all. -/
  | same {e : Ev ι} {s' : WorkerThreads ι} : s'._tc.fanIn = s._tc.fanIn →
      s'.created = s.created → s'.workers = s.workers → s'.clients = s.clients →
      FanMove s e [] s'
  /-- A client goes on elsewhere. -/
  | moves {e : Ev ι} {c : ι} {pc pc' : ClientPc} {s' : WorkerThreads ι} : s.clients c = pc →
      s'.clients = Function.update s.clients c pc' → pc'.left = pc.left → ¬ pc.Waits →
      (pc'.Arms → pc.Arms) → s'._tc.fanIn = s._tc.fanIn → s'.created = s.created →
      s'.workers = s.workers → FanMove s e [] s'
  /-- A client tells it of `k` workers. -/
  | tells {e : Ev ι} {c : ι} {pc pc' : ClientPc} {k : Nat} {op : FanInPoint.Op} {r : Option Unit}
      {s' : WorkerThreads ι} : s.clients c = pc → s'.clients = Function.update s.clients c pc' →
      pc.left = 0 → pc'.left = k → pc.Builds ∨ pc.Adds → ¬ pc'.Arms →
      (op = .initializeExpected k ∧ pc.Arms) ∨ op = .addThread k →
      FanInPoint.monitor.advance (.client c) op s._tc.fanIn = some (s'._tc.fanIn, r) →
      s'.created = s.created → s'.workers = s.workers → FanMove s e [.announced k] s'
  /-- A client creates a worker it has announced. -/
  | creates {e : Ev ι} {c : ι} {pc pc' : ClientPc} {s' : WorkerThreads ι} : s.clients c = pc →
      s'.clients = Function.update s.clients c pc' → pc.left = pc'.left + 1 →
      pc.Builds ∨ pc.Adds → ¬ pc'.Arms → s'._tc.fanIn = s._tc.fanIn → s'.created = s.created + 1 →
      s'.workers = Function.update s.workers s.created .routine → FanMove s e [] s'
  /-- A client waits. -/
  | waits {e : Ev ι} {c : ι} {pc pc' : ClientPc} {r : Option Unit} {s' : WorkerThreads ι} :
      s.clients c = pc → s'.clients = Function.update s.clients c pc' → pc.Waits →
      pc' = (if r.isSome then .idle else pc) →
      FanInPoint.monitor.advance (.client c) .wait s._tc.fanIn = some (s'._tc.fanIn, r) →
      s'.created = s.created → s'.workers = s.workers → FanMove s e [] s'
  /-- A worker runs on. -/
  | runs {e : Ev ι} {i : Nat} {pc : WorkerPc} {s' : WorkerThreads ι} :
      (pc = .calling .done → e = .act i .done) →
      s'.workers = Function.update s.workers i pc → s'._tc.fanIn = s._tc.fanIn →
      s'.created = s.created → s'.clients = s.clients → FanMove s e [] s'
  /-- A worker is done. -/
  | done {e : Ev ι} {i : Nat} {r : Option Unit} {s' : WorkerThreads ι} : i < s.created →
      s.workers i = .calling .done → s'.workers = Function.update s.workers i .routine →
      FanInPoint.monitor.advance (.worker i) .done s._tc.fanIn = some (s'._tc.fanIn, r) →
      s'.created = s.created → s'.clients = s.clients → FanMove s e [.done i] s'
  /-- A sleeper wakes up although nobody notified it. -/
  | spurious {e : Ev ι} {t : Tid ι} {s' : WorkerThreads ι} :
      Monitor.spurious t s._tc.fanIn = some s'._tc.fanIn → s'.created = s.created →
      s'.workers = s.workers → s'.clients = s.clients → FanMove s e [] s'

/-- A step of a client of which `FanInPoint` sees nothing. -/
theorem fanMove_unseen {pc pc' : ClientPc} (hpc : s.clients c = pc)
    (harming : ∀ k, pc ≠ .arming k .fanIn) (hannouncing : ∀ k, pc ≠ .announcing k .fanIn)
    (hwaits : ¬ pc.Waits) (hclients : s'.clients = Function.update s.clients c pc')
    (hleft : pc'.left = pc.left) (harms : pc'.Arms → pc.Arms)
    (hfan : s'._tc.fanIn = s._tc.fanIn) (hcreated : s'.created = s.created)
    (hworkers : s'.workers = s.workers) :
    FanMove s (.client c) (s.fanObs (.client c)) s' := by
  have hobs : s.fanObs (.client c) = [] := by simp only [fanObs, hpc]
  rw [hobs]
  exact .moves hpc hclients hleft hwaits harms hfan hcreated hworkers

/-- A step of `initialize`: the one at `FanInPoint` announces the workers. -/
theorem fanMove_of_arm {nthreads : Nat} {b : Base} {tc : ThreadControl (Tid ι)} {r : Option Unit}
    (hpc : s.clients c = .arming nthreads b)
    (hadv : s._tc.advance (.client c) (initializeExpected nthreads b) = some (tc, r)) :
    FanMove s (.client c) (s.fanObs (.client c))
      ({ s with _tc := tc }.setClient c (afterArming nthreads b)) := by
  cases b with
  | fanIn =>
      obtain ⟨x, hx, rfl⟩ := advance_fanIn hadv
      have hobs : s.fanObs (.client c) = [.announced nthreads] := by simp only [fanObs, hpc]
      rw [hobs]
      exact .tells hpc rfl rfl rfl (.inl trivial) id (.inl ⟨rfl, trivial⟩) hx rfl rfl
  | syncPoint =>
      obtain ⟨x, -, rfl⟩ := advance_sync hadv
      exact fanMove_unseen hpc (by simp) (by simp) (by simp [ClientPc.Waits]) rfl rfl
        (fun _ => trivial) rfl rfl rfl
  | pausePoint =>
      obtain ⟨x, -, rfl⟩ := advance_pause hadv
      exact fanMove_unseen hpc (by simp) (by simp) (by simp [ClientPc.Waits]) rfl rfl
        (fun h => absurd h id) rfl rfl rfl

/-- A step of `add_thread` through the bases: the one at `FanInPoint` announces the workers. -/
theorem fanMove_of_announce {nthreads : Nat} {b : Base} {tc : ThreadControl (Tid ι)}
    {r : Option Unit} (hpc : s.clients c = .announcing nthreads b)
    (hadv : s._tc.advance (.client c) (addThread nthreads b) = some (tc, r)) :
    FanMove s (.client c) (s.fanObs (.client c))
      ({ s with _tc := tc }.setClient c (afterAnnouncing nthreads b)) := by
  cases b with
  | fanIn =>
      obtain ⟨x, hx, rfl⟩ := advance_fanIn hadv
      have hobs : s.fanObs (.client c) = [.announced nthreads] := by simp only [fanObs, hpc]
      rw [hobs]
      exact .tells hpc rfl rfl rfl (.inr trivial) id (.inr rfl) hx rfl rfl
  | syncPoint =>
      obtain ⟨x, -, rfl⟩ := advance_sync hadv
      exact fanMove_unseen hpc (by simp) (by simp) (by simp [ClientPc.Waits]) rfl rfl
        (fun h => absurd h id) rfl rfl rfl
  | pausePoint =>
      obtain ⟨x, -, rfl⟩ := advance_pause hadv
      exact fanMove_unseen hpc (by simp) (by simp) (by simp [ClientPc.Waits]) rfl rfl
        (fun h => absurd h id) rfl rfl rfl

/-- A step of a call into `SyncPoint` or `PausePoint`, which returns or goes on waiting. -/
theorem fanMove_of_elsewhere {pc : ClientPc} {tc : ThreadControl (Tid ι)} {r : Option Unit}
    (hpc : s.clients c = pc) (hcall : pc = .pausing ∨ pc = .resuming ∨ pc = .syncing)
    (hfan : tc.fanIn = s._tc.fanIn) :
    FanMove s (.client c) (s.fanObs (.client c))
      ({ s with _tc := tc }.setClient c (if r.isSome then .idle else pc)) := by
  refine fanMove_unseen hpc ?_ ?_ ?_ rfl ?_ ?_ hfan rfl rfl
  · rcases hcall with rfl | rfl | rfl <;> simp
  · rcases hcall with rfl | rfl | rfl <;> simp
  · rcases hcall with rfl | rfl | rfl <;> simp [ClientPc.Waits]
  · rcases hcall with rfl | rfl | rfl <;> cases r <;> rfl
  · rcases hcall with rfl | rfl | rfl <;> cases r <;> exact fun h => absurd h id

/-- A step inside `FanInPoint::wait`, called by `wait` or by `stop`. -/
theorem fanMove_of_wait {pc : ClientPc} {tc : ThreadControl (Tid ι)} {r : Option Unit}
    (hpc : s.clients c = pc) (hwaits : pc.Waits)
    (hadv : s._tc.advance (.client c) (.fanIn .wait) = some (tc, r)) :
    FanMove s (.client c) (s.fanObs (.client c))
      ({ s with _tc := tc }.setClient c (if r.isSome then .idle else pc)) := by
  obtain ⟨x, hx, rfl⟩ := advance_fanIn hadv
  have hobs : s.fanObs (.client c) = [] := by
    rcases hwaits with rfl | rfl <;> simp only [fanObs, hpc]
  rw [hobs]
  exact .waits hpc rfl hwaits rfl hx rfl rfl

/-- A turn of the loops that create workers. -/
theorem fanMove_of_create {pc pc' : ClientPc} (hpc : s.clients c = pc)
    (hcreates : (∃ left, pc = .creating (left + 1) ∧ pc' = .creating left) ∨
      ∃ left, pc = .adding (left + 1) ∧ pc' = .adding left) :
    FanMove s (.client c) (s.fanObs (.client c)) (s.emplace.setClient c pc') := by
  have hobs : s.fanObs (.client c) = [] := by
    rcases hcreates with ⟨left, rfl, -⟩ | ⟨left, rfl, -⟩ <;> simp only [fanObs, hpc]
  rw [hobs]
  rcases hcreates with ⟨left, rfl, rfl⟩ | ⟨left, rfl, rfl⟩
  · exact .creates hpc rfl rfl (.inl trivial) id rfl rfl rfl
  · exact .creates hpc rfl rfl (.inr trivial) id rfl rfl rfl

theorem fanMove_of_client (hs : s.clientStep c = some s') :
    FanMove s (.client c) (s.fanObs (.client c)) s' := by
  cases clientMove_of_step hs with
  | arm hpc hadv => exact fanMove_of_arm hpc hadv
  | announce hpc hadv => exact fanMove_of_announce hpc hadv
  | create hpc => exact fanMove_of_create hpc (.inl ⟨_, rfl, rfl⟩)
  | add hpc => exact fanMove_of_create hpc (.inr ⟨_, rfl, rfl⟩)
  | pause hpc hadv =>
      obtain ⟨x, -, rfl⟩ := advance_pause hadv
      exact fanMove_of_elsewhere hpc (by simp) rfl
  | resume hpc hadv =>
      obtain ⟨x, -, rfl⟩ := advance_pause hadv
      exact fanMove_of_elsewhere hpc (by simp) rfl
  | sync hpc hadv =>
      obtain ⟨x, -, rfl⟩ := advance_sync hadv
      exact fanMove_of_elsewhere hpc (by simp) rfl
  | wait hpc hadv => exact fanMove_of_wait hpc (.inl rfl) hadv
  | stopWait hpc hadv => exact fanMove_of_wait hpc (.inr rfl) hadv
  -- `wait` and `stop` look at the number of threads before they wait for them
  | waitSize hpc | stopSize hpc =>
      exact fanMove_unseen hpc (by simp) (by simp) (by simp [ClientPc.Waits]) rfl
        (by split <;> rfl) (by split <;> exact fun h => absurd h id) rfl rfl rfl
  | _ hpc =>
      exact fanMove_unseen hpc (by simp) (by simp) (by simp [ClientPc.Waits]) rfl rfl
        (fun h => absurd h id) rfl rfl rfl

theorem fanMove_of_worker (hs : s.workerStep i = some s') :
    FanMove s (.worker i) (s.fanObs (.worker i)) s' := by
  obtain ⟨hi, act, tc, r, hpc, hadv, rfl⟩ := workerStep_some hs
  cases act with
  | done =>
      obtain ⟨x, hx, rfl⟩ := advance_fanIn hadv
      have hobs : s.fanObs (.worker i) = [.done i] := by simp only [fanObs, hpc]
      rw [hobs]
      exact .done hi hpc rfl hx rfl rfl
  | sync =>
      obtain ⟨x, -, rfl⟩ := advance_sync hadv
      have hobs : s.fanObs (.worker i) = [] := by simp only [fanObs, hpc]
      rw [hobs]
      exact .runs (by cases r <;> simp [Act.after]) rfl rfl rfl rfl
  | pauseIfRequred =>
      obtain ⟨x, -, rfl⟩ := advance_pause hadv
      have hobs : s.fanObs (.worker i) = [] := by simp only [fanObs, hpc]
      rw [hobs]
      exact .runs (by cases r <;> simp [Act.after]) rfl rfl rfl rfl

/-- Every step is one of these. -/
theorem fanMove_of_step (hs : step s e = some s') : FanMove s e (s.fanObs e) s' := by
  cases e with
  | call c op =>
      obtain ⟨-, hidle, hmove⟩ := callMove_of_step hs
      cases hmove <;> exact .moves hidle rfl rfl (by simp [ClientPc.Waits])
        (fun h => absurd h id) rfl rfl rfl
  | client c => exact fanMove_of_client hs
  | act i act =>
      obtain ⟨-, -, rfl⟩ := actStep_some hs
      exact .runs (by simp) rfl rfl rfl rfl
  | worker i => exact fanMove_of_worker hs
  | ret i =>
      obtain ⟨-, -, rfl⟩ := retStep_some hs
      exact .runs (by simp) rfl rfl rfl rfl
  | spurious b t =>
      simp only [step, Option.map_eq_some_iff] at hs
      obtain ⟨tc, hsp, rfl⟩ := hs
      cases b with
      | fanIn =>
          simp only [ThreadControl.spurious, Option.map_eq_some_iff] at hsp
          obtain ⟨x, hx, rfl⟩ := hsp
          exact .spurious hx rfl rfl rfl
      | _ =>
          simp only [ThreadControl.spurious, Option.map_eq_some_iff] at hsp
          obtain ⟨x, -, rfl⟩ := hsp
          exact .same rfl rfl rfl rfl

-- ============================================================================
-- The roll
-- ============================================================================

/-- The roll: `FanInPoint` counts the workers announced that have not called
    `done`; whoever has was created, and whoever was created was announced; only
    clients wait, and none of them sleeps on a counter that is zero. -/
structure Roll (log : List FanObs) (s : WorkerThreads ι) : Prop where
  counter : s._tc.fanIn.data.mExpectedThreads = announced log - (doneBy log).length
  room : ∀ c, s.created + (s.clients c).left ≤ announced log
  worker : ∀ i ∈ doneBy log, i < s.created
  nodup : (doneBy log).Nodup
  calling : ∀ i, s.workers i = .calling .done → i ∉ doneBy log
  waiter : ∀ t w, (s._tc.fanIn.thr t).waiting = some w →
    ∃ c, t = .client c ∧ (s.clients c).Waits
  alert : FanInPoint.monitor.Alert s._tc.fanIn
  arming : ∀ c, (s.clients c).Arms → log = []

@[simp] theorem announced_snoc (log : List FanObs) (o : FanObs) :
    announced (log ++ [o]) = announced log + o.workers := by
  induction log with
  | nil => simp [announced]
  | cons a log ih =>
      rw [List.cons_append, announced, ih, announced]
      omega

theorem doneBy_snoc_done (log : List FanObs) (i : Nat) :
    doneBy (log ++ [.done i]) = doneBy log ++ [i] := by
  simp [doneBy, FanObs.worker]

theorem doneBy_snoc_announced (log : List FanObs) (k : Nat) :
    doneBy (log ++ [.announced k]) = doneBy log := by
  simp [doneBy, FanObs.worker]

theorem mem_doneBy : i ∈ doneBy log ↔ .done i ∈ log := by
  rw [doneBy, List.mem_filterMap]
  constructor
  · rintro ⟨o, ho, hi⟩
    cases o with
    | announced k => cases hi
    | done j =>
        cases hi
        exact ho
  · exact fun hi => ⟨_, hi, rfl⟩

namespace Roll

omit [DecidableEq ι] in
/-- No more workers are done than were created. -/
theorem length_doneBy_le (h : Roll log s) : (doneBy log).length ≤ s.created := by
  have hsub : (doneBy log).toFinset ⊆ Finset.range s.created := by
    intro i hi
    exact Finset.mem_range.mpr (h.worker i (List.mem_toFinset.mp hi))
  have hcard := Finset.card_le_card hsub
  rwa [List.toFinset_card_of_nodup h.nodup, Finset.card_range] at hcard

omit [DecidableEq ι] in
/-- And no more were created than announced. -/
theorem created_le (h : Roll log s) (c : ι) : s.created ≤ announced log := by
  have hroom := h.room c
  omega

omit [DecidableEq ι] in
/-- When as many workers are done as were announced, every worker is. -/
theorem all_done (h : Roll log s) (c : ι) (hall : (doneBy log).length = announced log)
    (hi : i < s.created) : i ∈ doneBy log := by
  have hsub : (doneBy log).toFinset ⊆ Finset.range s.created := by
    intro j hj
    exact Finset.mem_range.mpr (h.worker j (List.mem_toFinset.mp hj))
  have heq : (doneBy log).toFinset = Finset.range s.created := by
    refine Finset.eq_of_subset_of_card_le hsub ?_
    rw [List.toFinset_card_of_nodup h.nodup, Finset.card_range, hall]
    exact h.created_le c
  rw [← List.mem_toFinset, heq]
  exact Finset.mem_range.mpr hi

omit [DecidableEq ι] in
/-- A thread that waits for nothing in `FanInPoint` is outside. -/
theorem out (h : Roll log s) {t : Tid ι} (ht : ∀ c, t = .client c → ¬ (s.clients c).Waits) :
    s._tc.fanIn.thr t = .out := by
  rw [← Status.waiting_eq_none, Option.eq_none_iff_forall_ne_some]
  intro w hw
  obtain ⟨c, hc, hwaits⟩ := h.waiter t w hw
  exact ht c hc hwaits

omit [DecidableEq ι] in
/-- A step that changes nothing here, but may wake somebody. -/
theorem frame (h : Roll log s) (hdata : s'._tc.fanIn.data = s._tc.fanIn.data)
    (hwaiting : ∀ t, (s'._tc.fanIn.thr t).waiting = (s._tc.fanIn.thr t).waiting)
    (halert : FanInPoint.monitor.Alert s'._tc.fanIn) (hcreated : s'.created = s.created)
    (hworkers : s'.workers = s.workers) (hclients : s'.clients = s.clients) : Roll log s' := by
  refine ⟨by rw [hdata]; exact h.counter, by rw [hcreated, hclients]; exact h.room,
    by rw [hcreated]; exact h.worker, h.nodup, by rw [hworkers]; exact h.calling,
    fun t w hw => ?_, halert, by rw [hclients]; exact h.arming⟩
  rw [hwaiting] at hw
  rw [hclients]
  exact h.waiter t w hw

/-- A client in another call goes on elsewhere. -/
theorem of_client_elsewhere {pc pc' : ClientPc} (h : Roll log s) (hpc : s.clients c = pc)
    (hclients : s'.clients = Function.update s.clients c pc') (hleft : pc'.left = pc.left)
    (hwaits : ¬ pc.Waits) (harms : pc'.Arms → pc.Arms) (hfan : s'._tc.fanIn = s._tc.fanIn)
    (hcreated : s'.created = s.created) (hworkers : s'.workers = s.workers) : Roll log s' := by
  obtain ⟨hself, hother⟩ := clients_of_update hclients
  refine ⟨by rw [hfan]; exact h.counter, fun d => ?_, by rw [hcreated]; exact h.worker, h.nodup,
    by rw [hworkers]; exact h.calling, fun t w hw => ?_, by rw [hfan]; exact h.alert,
    fun d hd => ?_⟩
  · have hroom := h.room d
    rw [hcreated]
    by_cases hdc : d = c
    · rw [hdc, hself, hleft, ← hpc, ← hdc]
      exact hroom
    · rw [hother d hdc]
      exact hroom
  · rw [hfan] at hw
    obtain ⟨d, rfl, hd⟩ := h.waiter t w hw
    have hdc : d ≠ c := by
      rintro rfl
      rw [hpc] at hd
      exact hwaits hd
    exact ⟨d, rfl, by rw [hother d hdc]; exact hd⟩
  · by_cases hdc : d = c
    · rw [hdc, hself] at hd
      exact h.arming c (by rw [hpc]; exact harms hd)
    · rw [hother d hdc] at hd
      exact h.arming d hd

/-- A client tells `FanInPoint` of `k` workers.  Nobody sleeps if that is the
    first it is told; and later it only gets farther from zero. -/
theorem of_announced {pc pc' : ClientPc} {k : Nat} {op : FanInPoint.Op} {r : Option Unit}
    (h : Roll log s) (hb : Bringers s) (hpc : s.clients c = pc)
    (hclients : s'.clients = Function.update s.clients c pc') (hleft : pc.left = 0)
    (hleft' : pc'.left = k) (hbrings : pc.Builds ∨ pc.Adds) (harms : ¬ pc'.Arms)
    (hop : (op = .initializeExpected k ∧ pc.Arms) ∨ op = .addThread k)
    (hadv : FanInPoint.monitor.advance (.client c) op s._tc.fanIn = some (s'._tc.fanIn, r))
    (hcreated : s'.created = s.created) (hworkers : s'.workers = s.workers) :
    Roll (log ++ [.announced k]) s' := by
  have hroom : s.created ≤ announced log := h.created_le c
  have hlen := h.length_doneBy_le
  have hcounter := h.counter
  have hwaits : ¬ pc.Waits := by
    rintro (rfl | rfl) <;> exact hbrings.elim id id
  have hout : s._tc.fanIn.thr (.client c) = .out := by
    refine h.out fun d hd => ?_
    cases hd
    rwa [hpc]
  have hout' : s'._tc.fanIn.thr (.client c) = .out :=
    FanInPoint.advance_out hadv hout (by rcases hop with ⟨rfl, -⟩ | rfl <;> simp)
  -- `initialize` assigns the counter, but then nothing has been announced before it
  have hexpected : s'._tc.fanIn.data.mExpectedThreads = s._tc.fanIn.data.mExpectedThreads + k := by
    rw [(FanInPoint.advance_expected hadv).1 hout]
    rcases hop with ⟨rfl, harming⟩ | rfl
    · have hnil := h.arming c (by rw [hpc]; exact harming)
      subst hnil
      rw [hcounter]
      simp [FanInPoint.Op.expected, announced, doneBy]
    · rfl
  obtain ⟨hself, hother⟩ := clients_of_update hclients
  refine ⟨?_, fun d => ?_, ?_, ?_, ?_, fun t w hw => ?_, fun t w hw => ?_, fun d hd => ?_⟩
  · rw [hexpected, hcounter, announced_snoc, doneBy_snoc_announced]
    simp only [FanObs.workers]
    omega
  · rw [hcreated, announced_snoc]
    by_cases hdc : d = c
    · rw [hdc, hself, hleft']
      simp only [FanObs.workers]
      omega
    · rw [hother d hdc]
      have := h.room d
      omega
  · rw [doneBy_snoc_announced, hcreated]
    exact h.worker
  · rw [doneBy_snoc_announced]
    exact h.nodup
  · rw [doneBy_snoc_announced, hworkers]
    exact h.calling
  · have htc : t ≠ .client c := by
      rintro rfl
      rw [hout'] at hw
      cases hw
    rw [(FanInPoint.monitor.advance_frame hadv).1 t htc] at hw
    obtain ⟨d, rfl, hd⟩ := h.waiter t w hw
    exact ⟨d, rfl, by rw [hother d fun hdc => htc (by rw [hdc])]; exact hd⟩
  · have htc : t ≠ .client c := by
      rintro rfl
      rw [hout'] at hw
      cases hw
    -- a sleeper: the counter was not zero, is not negative, and grows by `k`
    have hold := h.alert t w (FanInPoint.monitor.asleep_of_advance hadv htc hw)
    rw [FanInPoint.pred_eq, decide_eq_false_iff_not] at hold ⊢
    omega
  · by_cases hdc : d = c
    · rw [hdc, hself] at hd
      exact absurd hd harms
    · rw [hother d hdc] at hd
      -- nobody else is constructing the pool
      exact absurd hd.builds (hb.alone (by rw [hpc]; exact hbrings) hdc).1

/-- A client creates a worker. -/
theorem of_created {pc pc' : ClientPc} (h : Roll log s) (hb : Bringers s) (hpc : s.clients c = pc)
    (hclients : s'.clients = Function.update s.clients c pc') (hleft : pc.left = pc'.left + 1)
    (hbrings : pc.Builds ∨ pc.Adds) (harms : ¬ pc'.Arms) (hfan : s'._tc.fanIn = s._tc.fanIn)
    (hcreated : s'.created = s.created + 1)
    (hworkers : s'.workers = Function.update s.workers s.created .routine) : Roll log s' := by
  have hwaits : ¬ pc.Waits := by
    rintro (rfl | rfl) <;> exact hbrings.elim id id
  obtain ⟨hself, hother⟩ := clients_of_update hclients
  refine ⟨by rw [hfan]; exact h.counter, fun d => ?_, fun i hi => ?_, h.nodup, fun i hi => ?_,
    fun t w hw => ?_, by rw [hfan]; exact h.alert, fun d hd => ?_⟩
  · -- one more created, one less left to create; the others bring none
    have hroom := h.room c
    rw [hpc, hleft] at hroom
    rw [hcreated]
    by_cases hdc : d = c
    · rw [hdc, hself]
      omega
    · obtain ⟨hbuilds, hadds⟩ := hb.alone (by rw [hpc]; exact hbrings) hdc
      rw [hother d hdc, ClientPc.left_eq_zero hbuilds hadds]
      omega
  · have hlt := h.worker i hi
    omega
  · -- the new worker is at the start of its routine
    by_cases hic : i = s.created
    · rw [hworkers, hic, Function.update_self] at hi
      cases hi
    · rw [hworkers, Function.update_of_ne hic] at hi
      exact h.calling i hi
  · rw [hfan] at hw
    obtain ⟨d, rfl, hd⟩ := h.waiter t w hw
    have hdc : d ≠ c := by
      rintro rfl
      rw [hpc] at hd
      exact hwaits hd
    exact ⟨d, rfl, by rw [hother d hdc]; exact hd⟩
  · by_cases hdc : d = c
    · rw [hdc, hself] at hd
      exact absurd hd harms
    · rw [hother d hdc] at hd
      exact h.arming d hd

/-- A client takes a step of its wait. -/
theorem of_client_waiting {pc pc' : ClientPc} {r : Option Unit} (h : Roll log s)
    (hpc : s.clients c = pc)
    (hclients : s'.clients = Function.update s.clients c pc') (hwaits : pc.Waits)
    (hpc' : pc' = (if r.isSome then .idle else pc))
    (hadv : FanInPoint.monitor.advance (.client c) .wait s._tc.fanIn = some (s'._tc.fanIn, r))
    (hcreated : s'.created = s.created) (hworkers : s'.workers = s.workers) : Roll log s' := by
  have hexpected := FanInPoint.wait_expected hadv
  obtain ⟨hself, hother⟩ := clients_of_update hclients
  have hidle : pc'.left = 0 ∧ ¬ pc'.Arms := by
    rw [hpc']
    rcases hwaits with rfl | rfl <;> cases r <;> exact ⟨rfl, id⟩
  refine ⟨by rw [hexpected]; exact h.counter, fun d => ?_, by rw [hcreated]; exact h.worker,
    h.nodup, by rw [hworkers]; exact h.calling, fun t w hw => ?_, fun t w hw => ?_,
    fun d hd => ?_⟩
  · have hroom := h.room d
    rw [hcreated]
    by_cases hdc : d = c
    · rw [hdc, hself, hidle.1]
      omega
    · rw [hother d hdc]
      exact hroom
  · by_cases htc : t = .client c
    · subst htc
      -- `c` has not returned, so it stays in its call
      refine ⟨c, rfl, ?_⟩
      rw [hself, hpc', FanInPoint.monitor.none_of_waiting hadv hw]
      exact hwaits
    · rw [(FanInPoint.monitor.advance_frame hadv).1 t htc] at hw
      obtain ⟨d, rfl, hd⟩ := h.waiter t w hw
      exact ⟨d, rfl, by rw [hother d fun hdc => htc (by rw [hdc])]; exact hd⟩
  · by_cases htc : t = .client c
    · subst htc
      -- `c` goes to sleep on a counter that is not zero
      exact FanInPoint.monitor.pred_of_asleep hadv hw
    · have hold := h.alert t w (FanInPoint.monitor.asleep_of_advance hadv htc hw)
      rw [FanInPoint.pred_eq, hexpected]
      exact hold
  · by_cases hdc : d = c
    · rw [hdc, hself] at hd
      exact absurd hd hidle.2
    · rw [hother d hdc] at hd
      exact h.arming d hd

omit [DecidableEq ι] in
/-- A worker runs on. -/
theorem of_worker_running {pc : WorkerPc} (h : Roll log s)
    (hdone : pc = .calling .done → i ∉ doneBy log)
    (hworkers : s'.workers = Function.update s.workers i pc)
    (hfan : s'._tc.fanIn = s._tc.fanIn) (hcreated : s'.created = s.created)
    (hclients : s'.clients = s.clients) : Roll log s' := by
  refine ⟨by rw [hfan]; exact h.counter, by rw [hcreated, hclients]; exact h.room,
    by rw [hcreated]; exact h.worker, h.nodup, fun j hj => ?_,
    by rw [hfan, hclients]; exact h.waiter, by rw [hfan]; exact h.alert,
    by rw [hclients]; exact h.arming⟩
  by_cases hji : j = i
  · subst hji
    rw [hworkers, Function.update_self] at hj
    exact hdone hj
  · rw [hworkers, Function.update_of_ne hji] at hj
    exact h.calling j hj

/-- A worker is done: it wakes whoever sleeps. -/
theorem done {r : Option Unit} (h : Roll log s) (hi : i < s.created)
    (hpc : s.workers i = .calling .done)
    (hworkers : s'.workers = Function.update s.workers i .routine)
    (hadv : FanInPoint.monitor.advance (.worker i) .done s._tc.fanIn = some (s'._tc.fanIn, r))
    (hcreated : s'.created = s.created) (hclients : s'.clients = s.clients) :
    Roll (log ++ [.done i]) s' := by
  have hout : s._tc.fanIn.thr (.worker i) = .out := h.out fun d hd => by cases hd
  have hnot := h.calling i hpc
  refine ⟨?_, ?_, ?_, ?_, fun j hj => ?_, fun t w hw => ?_, fun t w hw => ?_, fun d hd => ?_⟩
  · rw [(FanInPoint.advance_expected hadv).1 hout, h.counter, announced_snoc, doneBy_snoc_done,
      List.length_append]
    simp only [FanInPoint.Op.expected, FanObs.workers, List.length_singleton]
    omega
  · rw [hcreated, hclients, announced_snoc]
    exact h.room
  · rw [doneBy_snoc_done, hcreated]
    intro j hj
    rcases List.mem_append.mp hj with hj | hj
    · exact h.worker j hj
    · rwa [List.mem_singleton.mp hj]
  · rw [doneBy_snoc_done]
    -- `i` is new among those done, since its routine calls `done` only once
    refine List.nodup_append.mpr ⟨h.nodup, List.nodup_singleton i, fun j hj k hk => ?_⟩
    rw [List.mem_singleton.mp hk]
    exact fun hji => hnot (hji ▸ hj)
  · have hji : j ≠ i := by
      rintro rfl
      rw [hworkers, Function.update_self] at hj
      cases hj
    rw [hworkers, Function.update_of_ne hji] at hj
    rw [doneBy_snoc_done, List.mem_append, List.mem_singleton]
    exact fun hmem => hmem.elim (h.calling j hj) hji
  · have hti : t ≠ .worker i := by
      rintro rfl
      rw [FanInPoint.advance_out hadv hout (by simp)] at hw
      cases hw
    rw [(FanInPoint.monitor.advance_frame hadv).1 t hti] at hw
    rw [hclients]
    exact h.waiter t w hw
  · -- whoever slept has been notified
    exact absurd hw (FanInPoint.done_wakes hadv hout t w)
  · rw [hclients] at hd
    have hroom := h.created_le d
    -- nobody is done before `FanInPoint` has been initialized
    rw [h.arming d hd, announced] at hroom
    omega

/-- Every step keeps the roll, as long as no routine calls `done` again. -/
theorem step_of_once (h : Roll log s) (hb : Bringers s)
    (hok : ∀ i, e = .act i .done → .done i ∉ log)
    (hs : WorkerThreads.step s e = some s') : Roll (log ++ s.fanObs e) s' := by
  have hmove := fanMove_of_step hs
  generalize s.fanObs e = obs at hmove ⊢
  cases hmove with
  | same hfan hcreated hworkers hclients =>
      rw [List.append_nil]
      exact h.frame (by rw [hfan]) (fun t => by rw [hfan]) (by rw [hfan]; exact h.alert) hcreated
        hworkers hclients
  | moves hpc hclients hleft hwaits harms hfan hcreated hworkers =>
      rw [List.append_nil]
      exact h.of_client_elsewhere hpc hclients hleft hwaits harms hfan hcreated hworkers
  | tells hpc hclients hleft hleft' hbrings harms hop hadv hcreated hworkers =>
      exact h.of_announced hb hpc hclients hleft hleft' hbrings harms hop hadv hcreated hworkers
  | creates hpc hclients hleft hbrings harms hfan hcreated hworkers =>
      rw [List.append_nil]
      exact h.of_created hb hpc hclients hleft hbrings harms hfan hcreated hworkers
  | waits hpc hclients hwaits hpc' hadv hcreated hworkers =>
      rw [List.append_nil]
      exact h.of_client_waiting hpc hclients hwaits hpc' hadv hcreated hworkers
  | runs hdone hworkers hfan hcreated hclients =>
      rw [List.append_nil]
      refine h.of_worker_running (fun hpc => ?_) hworkers hfan hcreated hclients
      rw [mem_doneBy]
      exact hok _ (hdone hpc)
  | done hi hpc hworkers hadv hcreated hclients =>
      exact h.done hi hpc hworkers hadv hcreated hclients
  | spurious hsp hcreated hworkers hclients =>
      rw [List.append_nil]
      obtain ⟨hdata, hwaiting⟩ := spurious_frame hsp
      exact h.frame hdata hwaiting (h.alert.spurious _ hsp) hcreated hworkers hclients

theorem step (h : Roll log s) (hb : Bringers s) (hok : CallsDoneOnce (log, s) e)
    (hs : WorkerThreads.step s e = some s') : Roll (log ++ s.fanObs e) s' := by
  refine h.step_of_once hb ?_ hs
  rintro i rfl
  exact hok

end Roll

theorem bringers_initial {n : Nat} {c : ι} : Bringers (initial c n) := by
  refine ⟨fun d hd => ?_, fun d hd => ⟨rfl, fun x hx => ?_⟩⟩
  · by_cases hdc : d = c
    · subst hdc
      simp [initial, ClientPc.Adds] at hd
    · simp [initial, hdc, ClientPc.Adds] at hd
  · by_cases hdc : d = c
    · simp [initial, ← hdc, hx]
    · simp [initial, hdc, ClientPc.Builds] at hd

theorem roll_initial {n : Nat} {c : ι} : Roll [] (initial c n) := by
  refine ⟨rfl, fun d => ?_, by simp [doneBy], List.nodup_nil, fun i hi => (by cases hi),
    fun t w hw => (by cases hw), fun t w hw => (by cases hw), fun _ _ => rfl⟩
  by_cases hdc : d = c
  · simp [initial, hdc, ClientPc.left, announced]
  · simp [initial, hdc, ClientPc.left, announced]

theorem roll_of_traced {n : Nat}
    (h : (fanRecorded ι n).ReachableBy CallsDoneOnce (log, s)) : Roll log s ∧ Bringers s := by
  refine h.recorded_invariant (P := fun log s => Roll log s ∧ Bringers s) ?_ ?_
  · rintro s ⟨c, rfl⟩
    exact ⟨roll_initial, bringers_initial⟩
  · rintro log s e s' ⟨hroll, hb⟩ hok hs
    exact ⟨hroll.step hb hok hs, hb.step hs⟩

-- ============================================================================
-- The vector
-- ============================================================================

/-- The vector holds workers that have been created, and nobody empties it. -/
structure Enlisted (s : WorkerThreads ι) : Prop where
  created : ∀ i ∈ s._vecThreads, i < s.created
  joinless : ∀ c, ¬ (s.clients c).Joins

namespace Enlisted

/-- A client goes on to `pc`, and may have enlisted a worker. -/
theorem of_client_at {pc : ClientPc} (h : Enlisted s)
    (hclients : s'.clients = Function.update s.clients c pc) (hjoins : ¬ pc.Joins)
    (hvec : (s'._vecThreads = s._vecThreads ∧ s'.created = s.created) ∨
      (s'._vecThreads = s._vecThreads ++ [s.created] ∧ s'.created = s.created + 1)) :
    Enlisted s' ∧ ∀ i ∈ s._vecThreads, i ∈ s'._vecThreads := by
  obtain ⟨hself, hother⟩ := clients_of_update hclients
  have hjoinless : ∀ d, ¬ (s'.clients d).Joins := by
    intro d
    by_cases hdc : d = c
    · rw [hdc, hself]
      exact hjoins
    · rw [hother d hdc]
      exact h.joinless d
  rcases hvec with ⟨hvec, hcreated⟩ | ⟨hvec, hcreated⟩
  · refine ⟨⟨?_, hjoinless⟩, fun i hi => by rwa [hvec]⟩
    rw [hvec, hcreated]
    exact h.created
  · refine ⟨⟨fun i hi => ?_, hjoinless⟩, fun i hi => by rw [hvec]; exact List.mem_append_left _ hi⟩
    rw [hvec] at hi
    rcases List.mem_append.mp hi with hi | hi
    · have hlt := h.created i hi
      omega
    · rw [List.mem_singleton.mp hi]
      omega

theorem client (h : Enlisted s) (hs : s.clientStep c = some s') :
    Enlisted s' ∧ ∀ i ∈ s._vecThreads, i ∈ s'._vecThreads := by
  have hjoin : ∀ {pc}, s.clients c = pc → ¬ pc.Joins := by
    rintro pc rfl
    exact h.joinless c
  cases clientMove_of_step hs with
  | @arm nthreads b => exact h.of_client_at rfl (by cases b <;> exact id) (.inl ⟨rfl, rfl⟩)
  | create => exact h.of_client_at rfl id (.inr ⟨rfl, rfl⟩)
  | built => exact h.of_client_at rfl id (.inl ⟨rfl, rfl⟩)
  | @announce nthreads b => exact h.of_client_at rfl (by cases b <;> exact id) (.inl ⟨rfl, rfl⟩)
  | add => exact h.of_client_at rfl id (.inr ⟨rfl, rfl⟩)
  | added => exact h.of_client_at rfl id (.inl ⟨rfl, rfl⟩)
  | @pause tc r => exact h.of_client_at rfl (by cases r <;> exact id) (.inl ⟨rfl, rfl⟩)
  | @sync tc r => exact h.of_client_at rfl (by cases r <;> exact id) (.inl ⟨rfl, rfl⟩)
  | @resume tc r => exact h.of_client_at rfl (by cases r <;> exact id) (.inl ⟨rfl, rfl⟩)
  | waitSize => exact h.of_client_at rfl (by split <;> exact id) (.inl ⟨rfl, rfl⟩)
  | @wait tc r => exact h.of_client_at rfl (by cases r <;> exact id) (.inl ⟨rfl, rfl⟩)
  | stopSize => exact h.of_client_at rfl (by split <;> exact id) (.inl ⟨rfl, rfl⟩)
  | stopSet => exact h.of_client_at rfl id (.inl ⟨rfl, rfl⟩)
  | @stopWait tc r => exact h.of_client_at rfl (by cases r <;> exact id) (.inl ⟨rfl, rfl⟩)
  | join hpc => exact absurd trivial (hjoin hpc)
  | joined hpc => exact absurd trivial (hjoin hpc)
  | joinClear hpc => exact absurd trivial (hjoin hpc)

theorem step (h : Enlisted s) (hok : CallsDoneOnce (log, s) e)
    (hs : WorkerThreads.step s e = some s') :
    Enlisted s' ∧ ∀ i ∈ s._vecThreads, i ∈ s'._vecThreads := by
  cases e with
  | call c op =>
      obtain ⟨-, -, hmove⟩ := callMove_of_step hs
      cases hmove with
      | join => exact absurd hok id
      | _ => exact h.of_client_at rfl id (.inl ⟨rfl, rfl⟩)
  | client c => exact h.client hs
  | act i act =>
      obtain ⟨-, -, rfl⟩ := actStep_some hs
      exact ⟨⟨h.created, h.joinless⟩, fun _ hi => hi⟩
  | worker i =>
      obtain ⟨-, act, tc, r, -, -, rfl⟩ := workerStep_some hs
      exact ⟨⟨h.created, h.joinless⟩, fun _ hi => hi⟩
  | ret i =>
      obtain ⟨-, -, rfl⟩ := retStep_some hs
      exact ⟨⟨h.created, h.joinless⟩, fun _ hi => hi⟩
  | spurious b t =>
      simp only [WorkerThreads.step, Option.map_eq_some_iff] at hs
      obtain ⟨tc, -, rfl⟩ := hs
      exact ⟨⟨h.created, h.joinless⟩, fun _ hi => hi⟩

/-- Over a run the vector keeps what it holds. -/
theorem run {n : Nat} {p p' : List FanObs × WorkerThreads ι} {evs : List (Ev ι)}
    (h : Enlisted p.2) (hrun : (fanRecorded ι n).Run CallsDoneOnce p evs p') :
    Enlisted p'.2 ∧ ∀ i ∈ p.2._vecThreads, i ∈ p'.2._vecThreads := by
  refine hrun.recorded_invariant
    (P := fun _ s => Enlisted s ∧ ∀ i ∈ p.2._vecThreads, i ∈ s._vecThreads) ⟨h, fun _ hi => hi⟩ ?_
  rintro log s e s' ⟨henlisted, hkeeps⟩ hok hs
  obtain ⟨henlisted', hmore⟩ := henlisted.step hok hs
  exact ⟨henlisted', fun i hi => hmore i (hkeeps i hi)⟩

end Enlisted

theorem enlisted_initial {n : Nat} {c : ι} : Enlisted (initial c n) := by
  refine ⟨fun i hi => (by cases hi), fun d => ?_⟩
  by_cases hdc : d = c
  · simp [initial, hdc, ClientPc.Joins]
  · simp [initial, hdc, ClientPc.Joins]

theorem enlisted_of_reachable {n : Nat} {p : List FanObs × WorkerThreads ι}
    (h : (fanRecorded ι n).ReachableBy CallsDoneOnce p) : Enlisted p.2 := by
  refine h.recorded_invariant (P := fun _ s => Enlisted s) ?_
    fun log s e s' henlisted hok hs => (henlisted.step hok hs).1
  rintro s ⟨c, rfl⟩
  exact enlisted_initial

-- ============================================================================
-- The result
-- ============================================================================

/-- A call of `wait` or `stop` of a pool that has a worker returns when every
    worker is done. -/
theorem Roll.all_done_of_return (h : Roll log s) (hvec : s._vecThreads ≠ [])
    (hin : (s.clients c).InWait) (hs : s.clientStep c = some s') (hidle : s'.clients c = .idle)
    (hi : i < s.created) : i ∈ doneBy log := by
  -- `FanInPoint::wait` has returned: its counter is zero
  have hwait : ∀ {tc r}, s._tc.advance (.client c) (.fanIn .wait) = some (tc, r) → r ≠ none →
      i ∈ doneBy log := by
    intro tc r hadv hr
    obtain ⟨x, hx, rfl⟩ := advance_fanIn hadv
    obtain ⟨⟨⟩, rfl⟩ := Option.ne_none_iff_exists'.mp hr
    have hzero : x.data.mExpectedThreads = 0 := FanInPoint.wait_returns hx
    have hsame := FanInPoint.wait_expected hx
    have hcounter := h.counter
    exact h.all_done c (by omega) hi
  cases clientMove_of_step hs with
  -- the vector is not empty, so neither call returns at its look at the size
  | waitSize hpc =>
      rw [setClient_self, if_pos (List.length_pos_iff.mpr hvec)] at hidle
      cases hidle
  | stopSize hpc =>
      rw [setClient_self, if_pos (List.length_pos_iff.mpr hvec)] at hidle
      cases hidle
  | stopSet hpc => simp at hidle
  | @wait tc r hpc hadv =>
      refine hwait hadv ?_
      rintro rfl
      simp at hidle
  | @stopWait tc r hpc hadv =>
      refine hwait hadv ?_
      rintro rfl
      simp at hidle
  | _ hpc =>
      rw [hpc] at hin
      rcases hin with h | h | h | h | h <;> cases h

/-- **`wait` and `stop` return exactly when the work is done**, in every run in
    which the routines call `done` at most once and nobody joins the pool.  The
    counter of `FanInPoint` is the number of workers announced so far less the
    calls of `done` so far, and never negative; nobody sleeps un-notified in its
    wait when every worker announced has called `done`; and when a call of `wait`
    or `stop` returns, every worker that was in the vector when it began has. -/
theorem wait_returns_when_done {n : Nat} {p : List FanObs × WorkerThreads ι}
    (h : (fanRecorded ι n).ReachableBy CallsDoneOnce p) :
    p.2._tc.fanIn.data.mExpectedThreads = announced p.1 - (doneBy p.1).length ∧
    0 ≤ p.2._tc.fanIn.data.mExpectedThreads ∧
    ((∀ i, i < announced p.1 → i ∈ doneBy p.1) →
      ∀ t, p.2._tc.fanIn.thr t ≠ .asleep .fannedIn) ∧
    ∀ c op p₁ evs p₂ p₃, op = .wait ∨ op = .stop →
      (fanRecorded ι n).step p (.call c op) = some p₁ →
      (fanRecorded ι n).Run CallsDoneOnce p₁ evs p₂ → (p₂.2.clients c).InWait →
      (fanRecorded ι n).step p₂ (.client c) = some p₃ → p₃.2.clients c = .idle →
      ∀ i ∈ p.2._vecThreads, i ∈ doneBy p₃.1 := by
  have hroll : Roll p.1 p.2 := (roll_of_traced h).1
  have hlen := hroll.length_doneBy_le
  have hcounter := hroll.counter
  have hcreated : p.2.created ≤ announced p.1 := by
    -- there is a client: the one that constructs the pool
    have hsome : Nonempty ι := by
      refine h.invariant (P := fun _ => Nonempty ι) ?_ fun _ _ _ _ hsome _ _ => hsome
      rintro ⟨log, s⟩ ⟨-, c, -⟩
      exact ⟨c⟩
    exact hsome.elim hroll.created_le
  refine ⟨hcounter, by omega, fun hall t hasleep => ?_, ?_⟩
  · -- all announced are done: as many calls of `done` as workers announced
    have hsub : List.range (announced p.1) ⊆ doneBy p.1 := fun i hi => hall i (List.mem_range.mp hi)
    have hle := (List.subperm_of_subset List.nodup_range hsub).length_le
    rw [List.length_range] at hle
    have hne := hroll.alert t .fannedIn hasleep
    rw [FanInPoint.pred_eq, decide_eq_false_iff_not] at hne
    omega
  · intro c op p₁ evs p₂ p₃ hop hcall hrun hin hs hidle i hi
    have hok : CallsDoneOnce p (.call c op) := by rcases hop with rfl | rfl <;> trivial
    -- the vector only grows, so what it held at the call it holds at the return
    have hrun' : (fanRecorded ι n).Run CallsDoneOnce p (.call c op :: evs) p₂ :=
      .cons hok hcall hrun
    obtain ⟨henlisted, hkeeps⟩ := (enlisted_of_reachable h).run hrun'
    have hroll₂ : Roll p₂.1 p₂.2 := (roll_of_traced (hrun'.reachable h)).1
    obtain ⟨s₃, hs₃, rfl⟩ := System.recorded_some hs
    have hmem := hkeeps i hi
    have hdone := hroll₂.all_done_of_return (List.ne_nil_of_mem hmem) hin hs₃ hidle
      (henlisted.created i hmem)
    rw [mem_doneBy] at hdone ⊢
    exact List.mem_append_left _ hdone

omit [DecidableEq ι] in
theorem calls_of_log {p : List FanObs × WorkerThreads ι} (log : List FanObs) (hlog : p.1 = log)
    (hi : .done i ∉ log) : CallsDoneOnce p (.act i .done) := by
  subst hlog
  exact hi

/-- One client waits for a pool of one worker while another adds a second one. -/
theorem wait_returns_when_done_two :
    ∃ p₃ : List FanObs × WorkerThreads Bool, p₃.2.clients false = .idle ∧
      p₃.2._vecThreads = [0, 1] ∧ 0 ∈ doneBy p₃.1 := by
  have hbuilt : ∃ p, (fanRecorded Bool 1).Run CallsDoneOnce ([], initial false 1)
      [.client false, .client false, .client false, .client false, .client false] p ∧
      p.1 = [.announced 1] ∧ p.2._vecThreads = [0] ∧
      ∃ p₁, (fanRecorded Bool 1).step p (.call false .wait) = some p₁ ∧
      ∃ p₂, (fanRecorded Bool 1).Run CallsDoneOnce p₁
        [.client false, .client false, .call true (.addThread 1), .client true, .client true,
          .client true, .act 0 .done, .worker 0, .client true, .client true, .act 1 .done,
          .worker 1] p₂ ∧ p₂.2.clients false = .waiting ∧
      ∃ p₃, (fanRecorded Bool 1).step p₂ (.client false) = some p₃ ∧
        p₃.2.clients false = .idle ∧ p₃.2._vecThreads = [0, 1] :=
    ⟨_, .cons trivial rfl <| .cons trivial rfl <| .cons trivial rfl <| .cons trivial rfl <|
      .cons trivial rfl .nil, rfl, rfl, _, rfl, _, .cons trivial rfl <| .cons trivial rfl <|
      .cons trivial rfl <| .cons trivial rfl <| .cons trivial rfl <| .cons trivial rfl <|
      .cons (calls_of_log [.announced 1, .announced 1] rfl (by simp)) rfl <| .cons trivial rfl <|
      .cons trivial rfl <| .cons trivial rfl <|
      .cons (calls_of_log [.announced 1, .announced 1, .done 0] rfl (by simp)) rfl <|
      .cons trivial rfl .nil, rfl, _, rfl, rfl, rfl⟩
  obtain ⟨p, hp, -, hvec, p₁, hcall, p₂, hrun, hwaiting, p₃, hs, hidle, hvec₃⟩ := hbuilt
  have hreach : (fanRecorded Bool 1).ReachableBy CallsDoneOnce p :=
    hp.reachable (.init ⟨rfl, _, rfl⟩)
  refine ⟨p₃, hidle, hvec₃, ?_⟩
  exact (wait_returns_when_done hreach).2.2.2 false .wait p₁ _ p₂ p₃ (.inl rfl) hcall hrun
    (.inr (.inr (.inr (.inl hwaiting)))) hs hidle 0 (by rw [hvec]; simp)

end WorkerThreads
end Fredlib
