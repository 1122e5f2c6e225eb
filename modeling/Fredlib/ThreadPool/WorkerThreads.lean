/-
  Fredlib.ThreadPool.WorkerThreads

  `WorkerThreads` of include/threading.hpp: threads that run a routine of the
  user's and share a `ThreadControl`.

  What a routine does is not known.  It may call the operations of `tc` in any
  order and any number of times, and it may return at any time; a promise about
  it is a condition on the steps of a run.  `stopRequired` only reads the stop
  flag, which is part of what the routine does by itself.

  Thread creation is taken to succeed (`AddThrows` lets it fail in `add_thread`), and
  the number of threads is given as the constructor and `add_thread` compute it from
  `nthreads` and `scale`.
-/

import Fredlib.Threading.ThreadControl

namespace Fredlib

open Lib Lib.Monitor ThreadControl

namespace WorkerThreads

/-- The operations of `tc` a routine calls. -/
inductive Act
  | pauseIfRequred
  | sync
  | done
  deriving DecidableEq

/-- The operation, as one of a base of `tc`. -/
def Act.op : Act → Op
  | .pauseIfRequred => .pause .pauseIfRequred
  | .sync => .sync .sync
  | .done => .fanIn .done

/-- Where a worker is: in the code of its routine, inside an operation of `tc`,
    or gone. -/
inductive WorkerPc
  | routine
  | calling (act : Act)
  | exited
  deriving DecidableEq

/-- Where a client is.  `left` counts the threads still to be created. -/
inductive ClientPc
  | idle
  | arming (nthreads : Nat) (b : Base)
  | creating (left : Nat)
  | announcing (nthreads : Nat) (b : Base)
  | adding (left : Nat)
  | pausing
  | syncing
  | resuming
  | waitSize
  | waiting
  | stopSize
  | stopSet
  | stopWait
  | join (j : Nat)
  | joinClear
  deriving DecidableEq

/-- What a client may call.  The destructor calls `stop` and then `join`. -/
inductive Call
  | addThread (nthreads : Nat)
  | join
  | pause
  | sync
  | resume
  | wait
  | stop
  deriving DecidableEq

/-- What can happen: `act` is a routine calling an operation of `tc`, `ret` its
    return. -/
inductive Ev (ι : Type*)
  | call (c : ι) (op : Call)
  | client (c : ι)
  | act (i : Nat) (act : Act)
  | worker (i : Nat)
  | ret (i : Nat)
  | spurious (b : Base) (t : Tid ι)

end WorkerThreads

open WorkerThreads

/-- `WorkerThreads`, with its threads. -/
structure WorkerThreads (ι : Type*) where
  _muWorkerThreads : Option ι
  _vecThreads : List Nat
  _tc : ThreadControl (Tid ι)
  created : Nat
  workers : Nat → WorkerPc
  clients : ι → ClientPc
  built : Bool

namespace WorkerThreads

variable {ι : Type*} [DecidableEq ι]

/-- The worker `i` is at `pc` now. -/
def setWorker (i : Nat) (pc : WorkerPc) (s : WorkerThreads ι) : WorkerThreads ι :=
  { s with workers := Function.update s.workers i pc }

/-- The client `c` is at `pc` now. -/
def setClient (c : ι) (pc : ClientPc) (s : WorkerThreads ι) : WorkerThreads ι :=
  { s with clients := Function.update s.clients c pc }

-- ============================================================================
-- The workers
-- ============================================================================

/-- The routine of the worker `i` calls `act`. -/
def actStep (i : Nat) (act : Act) (s : WorkerThreads ι) : Option (WorkerThreads ι) :=
  if i < s.created then
    match s.workers i with
    | .routine => some (s.setWorker i (.calling act))
    | _ => none
  else none

/-- Where a worker is after a step inside `act`; `done` never waits. -/
def Act.after (act : Act) (r : Option Unit) : WorkerPc :=
  match act with
  | .done => .routine
  | act => if r.isSome then .routine else .calling act

/-- A step of the worker `i` inside an operation of `tc`. -/
def workerStep (i : Nat) (s : WorkerThreads ι) : Option (WorkerThreads ι) :=
  if i < s.created then
    match s.workers i with
    | .calling act =>
        (s._tc.advance (.worker i) act.op).map fun r =>
          { s with _tc := r.1 }.setWorker i (act.after r.2)
    | _ => none
  else none

/-- The routine of the worker `i` returns. -/
def retStep (i : Nat) (s : WorkerThreads ι) : Option (WorkerThreads ι) :=
  if i < s.created then
    match s.workers i with
    | .routine => some (s.setWorker i .exited)
    | _ => none
  else none

-- ============================================================================
-- The clients
-- ============================================================================

/-- `_vecThreads.emplace_back`: a new worker at the start of its routine. -/
def emplace (s : WorkerThreads ι) : WorkerThreads ι :=
  { s with
    _vecThreads := s._vecThreads ++ [s.created]
    created := s.created + 1 }.setWorker s.created .routine

/-- Where the constructor goes on after `initialize` at the base `b`. -/
def afterArming (nthreads : Nat) (b : Base) : ClientPc :=
  match b.next with
  | some b' => .arming nthreads b'
  | none => .creating nthreads

/-- Where `add_thread` goes on after that of `_tc` at the base `b`. -/
def afterAnnouncing (nthreads : Nat) (b : Base) : ClientPc :=
  match b.next with
  | some b' => .announcing nthreads b'
  | none => .adding nthreads

/-- A step of the call the client `c` is in. -/
def clientStep (c : ι) (s : WorkerThreads ι) : Option (WorkerThreads ι) :=
  match s.clients c with
  | .idle => none
  | .arming nthreads b =>
      (s._tc.advance (.client c) (initializeExpected nthreads b)).map fun r =>
        { s with _tc := r.1 }.setClient c (afterArming nthreads b)
  | .creating 0 => some ({ s with built := true }.setClient c .idle)
  | .creating (left + 1) => some (s.emplace.setClient c (.creating left))
  | .announcing nthreads b =>
      (s._tc.advance (.client c) (addThread nthreads b)).map fun r =>
        { s with _tc := r.1 }.setClient c (afterAnnouncing nthreads b)
  | .adding 0 => some ({ s with _muWorkerThreads := none }.setClient c .idle)
  | .adding (left + 1) => some (s.emplace.setClient c (.adding left))
  | .pausing =>
      (s._tc.advance (.client c) (.pause .pause)).map fun r =>
        { s with _tc := r.1 }.setClient c (if r.2.isSome then .idle else .pausing)
  | .syncing =>
      (s._tc.advance (.client c) (.sync .sync)).map fun r =>
        { s with _tc := r.1 }.setClient c (if r.2.isSome then .idle else .syncing)
  | .resuming =>
      (s._tc.advance (.client c) (.pause .resume)).map fun r =>
        { s with _tc := r.1 }.setClient c (if r.2.isSome then .idle else .resuming)
  | .waitSize => some (s.setClient c (if s._vecThreads.length > 0 then .waiting else .idle))
  | .waiting =>
      (s._tc.advance (.client c) (.fanIn .wait)).map fun r =>
        { s with _tc := r.1 }.setClient c (if r.2.isSome then .idle else .waiting)
  | .stopSize => some (s.setClient c (if s._vecThreads.length > 0 then .stopSet else .idle))
  | .stopSet => some ({ s with _tc := s._tc.requestStop }.setClient c .stopWait)
  | .stopWait =>
      (s._tc.advance (.client c) (.fanIn .wait)).map fun r =>
        { s with _tc := r.1 }.setClient c (if r.2.isSome then .idle else .stopWait)
  | .join j =>
      match s._vecThreads[j]? with
      | none => some (s.setClient c .joinClear)
      | some i =>
          match s.workers i with
          | .exited => some (s.setClient c (.join (j + 1)))
          | _ => none
  | .joinClear =>
      match s._muWorkerThreads with
      | none => some ({ s with _vecThreads := [] }.setClient c .idle)
      | some _ => none

/-- The idle client `c` calls `op`. -/
def callStep (c : ι) (op : Call) (s : WorkerThreads ι) : Option (WorkerThreads ι) :=
  match s.built, s.clients c with
  | true, .idle =>
      match op with
      | .addThread nthreads =>
          match s._muWorkerThreads with
          | none =>
              some ({ s with _muWorkerThreads := some c }.setClient c
                (.announcing nthreads .syncPoint))
          | some _ => none
      | .join => some (s.setClient c (.join 0))
      | .pause => some (s.setClient c .pausing)
      | .sync => some (s.setClient c .syncing)
      | .resume => some (s.setClient c .resuming)
      | .wait => some (s.setClient c .waitSize)
      | .stop => some (s.setClient c .stopSize)
  | _, _ => none

/-- One step of the pool. -/
def step (s : WorkerThreads ι) : Ev ι → Option (WorkerThreads ι)
  | .call c op => s.callStep c op
  | .client c => s.clientStep c
  | .act i act => s.actStep i act
  | .worker i => s.workerStep i
  | .ret i => s.retStep i
  | .spurious b t => (s._tc.spurious b t).map fun tc => { s with _tc := tc }

/-- The client `c` is about to construct a pool of `n` threads. -/
def initial (c : ι) (n : Nat) : WorkerThreads ι where
  _muWorkerThreads := none
  _vecThreads := []
  _tc := .create 0
  created := 0
  workers _ := .routine
  clients := Function.update (fun _ => .idle) c (.arming n .syncPoint)
  built := false

/-- The pools constructed with `n` threads. -/
def system (ι : Type*) [DecidableEq ι] (n : Nat) : System (WorkerThreads ι) (Ev ι) where
  init s := ∃ c, s = initial c n
  step := step

-- ============================================================================
-- What a run shows
-- ============================================================================

/-- What a run shows of itself: who has called `sync`, and who is done. -/
inductive Obs (ι : Type*)
  | synced (t : Tid ι)
  | done (i : Nat)
  deriving DecidableEq

/-- The first step of `t` inside `sync`. -/
def showsSync (s : WorkerThreads ι) (t : Tid ι) : List (Obs ι) :=
  match s._tc.syncPoint.thr t with
  | .out => [.synced t]
  | _ => []

/-- What a step shows. -/
def obs (s : WorkerThreads ι) : Ev ι → List (Obs ι)
  | .client c =>
      match s.clients c with
      | .syncing => s.showsSync (.client c)
      | _ => []
  | .worker i =>
      match s.workers i with
      | .calling .sync => s.showsSync (.worker i)
      | .calling .done => [.done i]
      | _ => []
  | _ => []

/-- The pools constructed with `n` threads, with what their runs have shown. -/
abbrev recorded (ι : Type*) [DecidableEq ι] (n : Nat) :
    System (List (Obs ι) × WorkerThreads ι) (Ev ι) :=
  (system ι n).recorded obs

/-- The promise of a routine: `done` is the last it calls, but for `sync`. -/
def Orderly (p : List (Obs ι) × WorkerThreads ι) : Ev ι → Prop
  | .act i act => .done i ∈ p.1 → act = .sync
  | _ => True

-- ============================================================================
-- What a step does
-- ============================================================================

variable {s s' : WorkerThreads ι} {i j : Nat} {c : ι}

omit [DecidableEq ι] in
@[simp] theorem setWorker_self {pc : WorkerPc} : (s.setWorker i pc).workers i = pc := by
  simp [setWorker]

omit [DecidableEq ι] in
theorem setWorker_of_ne {pc : WorkerPc} (h : j ≠ i) :
    (s.setWorker i pc).workers j = s.workers j := by simp [setWorker, h]

@[simp] theorem setClient_self {pc : ClientPc} : (s.setClient c pc).clients c = pc := by
  simp [setClient]

omit [DecidableEq ι] in
theorem actStep_some {act : Act} (h : s.actStep i act = some s') :
    i < s.created ∧ s.workers i = .routine ∧ s' = s.setWorker i (.calling act) := by
  unfold actStep at h
  split at h
  · rename_i hi
    split at h
    · rename_i hpc
      exact ⟨hi, hpc, (Option.some.inj h).symm⟩
    · cases h
  · cases h

theorem workerStep_some (h : s.workerStep i = some s') :
    i < s.created ∧ ∃ act tc r, s.workers i = .calling act ∧
      s._tc.advance (.worker i) act.op = some (tc, r) ∧
      s' = { s with _tc := tc }.setWorker i (act.after r) := by
  unfold workerStep at h
  split at h
  · rename_i hi
    split at h
    · rename_i act hpc
      simp only [Option.map_eq_some_iff] at h
      obtain ⟨⟨tc, r⟩, hadv, rfl⟩ := h
      exact ⟨hi, act, tc, r, hpc, hadv, rfl⟩
    · cases h
  · cases h

omit [DecidableEq ι] in
theorem retStep_some (h : s.retStep i = some s') :
    i < s.created ∧ s.workers i = .routine ∧ s' = s.setWorker i .exited := by
  unfold retStep at h
  split at h
  · rename_i hi
    split at h
    · rename_i hpc
      exact ⟨hi, hpc, (Option.some.inj h).symm⟩
    · cases h
  · cases h

/-- The steps of a client inside a call, one by one. -/
inductive ClientMove (s : WorkerThreads ι) (c : ι) : WorkerThreads ι → Prop
  | arm {nthreads : Nat} {b : Base} {tc : ThreadControl (Tid ι)} {r : Option Unit} :
      s.clients c = .arming nthreads b →
      s._tc.advance (.client c) (initializeExpected nthreads b) = some (tc, r) →
      ClientMove s c ({ s with _tc := tc }.setClient c (afterArming nthreads b))
  | create {left : Nat} : s.clients c = .creating (left + 1) →
      ClientMove s c (s.emplace.setClient c (.creating left))
  | built : s.clients c = .creating 0 →
      ClientMove s c ({ s with built := true }.setClient c .idle)
  | announce {nthreads : Nat} {b : Base} {tc : ThreadControl (Tid ι)} {r : Option Unit} :
      s.clients c = .announcing nthreads b →
      s._tc.advance (.client c) (addThread nthreads b) = some (tc, r) →
      ClientMove s c ({ s with _tc := tc }.setClient c (afterAnnouncing nthreads b))
  | add {left : Nat} : s.clients c = .adding (left + 1) →
      ClientMove s c (s.emplace.setClient c (.adding left))
  | added : s.clients c = .adding 0 →
      ClientMove s c ({ s with _muWorkerThreads := none }.setClient c .idle)
  | pause {tc : ThreadControl (Tid ι)} {r : Option Unit} : s.clients c = .pausing →
      s._tc.advance (.client c) (.pause .pause) = some (tc, r) →
      ClientMove s c ({ s with _tc := tc }.setClient c (if r.isSome then .idle else .pausing))
  | sync {tc : ThreadControl (Tid ι)} {r : Option Unit} : s.clients c = .syncing →
      s._tc.advance (.client c) (.sync .sync) = some (tc, r) →
      ClientMove s c ({ s with _tc := tc }.setClient c (if r.isSome then .idle else .syncing))
  | resume {tc : ThreadControl (Tid ι)} {r : Option Unit} : s.clients c = .resuming →
      s._tc.advance (.client c) (.pause .resume) = some (tc, r) →
      ClientMove s c ({ s with _tc := tc }.setClient c (if r.isSome then .idle else .resuming))
  | waitSize : s.clients c = .waitSize →
      ClientMove s c (s.setClient c (if s._vecThreads.length > 0 then .waiting else .idle))
  | wait {tc : ThreadControl (Tid ι)} {r : Option Unit} : s.clients c = .waiting →
      s._tc.advance (.client c) (.fanIn .wait) = some (tc, r) →
      ClientMove s c ({ s with _tc := tc }.setClient c (if r.isSome then .idle else .waiting))
  | stopSize : s.clients c = .stopSize →
      ClientMove s c (s.setClient c (if s._vecThreads.length > 0 then .stopSet else .idle))
  | stopSet : s.clients c = .stopSet →
      ClientMove s c ({ s with _tc := s._tc.requestStop }.setClient c .stopWait)
  | stopWait {tc : ThreadControl (Tid ι)} {r : Option Unit} : s.clients c = .stopWait →
      s._tc.advance (.client c) (.fanIn .wait) = some (tc, r) →
      ClientMove s c ({ s with _tc := tc }.setClient c (if r.isSome then .idle else .stopWait))
  | join {j i : Nat} : s.clients c = .join j → s._vecThreads[j]? = some i → s.workers i = .exited →
      ClientMove s c (s.setClient c (.join (j + 1)))
  | joined {j : Nat} : s.clients c = .join j → s._vecThreads[j]? = none →
      ClientMove s c (s.setClient c .joinClear)
  | joinClear : s.clients c = .joinClear → s._muWorkerThreads = none →
      ClientMove s c ({ s with _vecThreads := [] }.setClient c .idle)

theorem clientMove_of_step (h : s.clientStep c = some s') : ClientMove s c s' := by
  unfold clientStep at h
  -- one case for each place of `clientStep`, in its order
  split at h <;> rename_i hpc
  · cases h
  · simp only [Option.map_eq_some_iff] at h
    obtain ⟨⟨tc, r⟩, hadv, rfl⟩ := h
    exact .arm hpc hadv
  · cases h
    exact .built hpc
  · cases h
    exact .create hpc
  · simp only [Option.map_eq_some_iff] at h
    obtain ⟨⟨tc, r⟩, hadv, rfl⟩ := h
    exact .announce hpc hadv
  · cases h
    exact .added hpc
  · cases h
    exact .add hpc
  · simp only [Option.map_eq_some_iff] at h
    obtain ⟨⟨tc, r⟩, hadv, rfl⟩ := h
    exact .pause hpc hadv
  · simp only [Option.map_eq_some_iff] at h
    obtain ⟨⟨tc, r⟩, hadv, rfl⟩ := h
    exact .sync hpc hadv
  · simp only [Option.map_eq_some_iff] at h
    obtain ⟨⟨tc, r⟩, hadv, rfl⟩ := h
    exact .resume hpc hadv
  · cases h
    exact .waitSize hpc
  · simp only [Option.map_eq_some_iff] at h
    obtain ⟨⟨tc, r⟩, hadv, rfl⟩ := h
    exact .wait hpc hadv
  · cases h
    exact .stopSize hpc
  · cases h
    exact .stopSet hpc
  · simp only [Option.map_eq_some_iff] at h
    obtain ⟨⟨tc, r⟩, hadv, rfl⟩ := h
    exact .stopWait hpc hadv
  · -- `join`: past the end of the vector, or at a thread that must have exited
    split at h
    · rename_i hj
      cases h
      exact .joined hpc hj
    · rename_i i hj
      split at h
      · rename_i hexited
        cases h
        exact .join hpc hj hexited
      · cases h
  · split at h
    · rename_i hmu
      cases h
      exact .joinClear hpc hmu
    · cases h

/-- The calls, one by one. -/
inductive CallMove (s : WorkerThreads ι) (c : ι) : Call → WorkerThreads ι → Prop
  | addThread {nthreads : Nat} : s._muWorkerThreads = none →
      CallMove s c (.addThread nthreads)
        ({ s with _muWorkerThreads := some c }.setClient c (.announcing nthreads .syncPoint))
  | join : CallMove s c .join (s.setClient c (.join 0))
  | pause : CallMove s c .pause (s.setClient c .pausing)
  | sync : CallMove s c .sync (s.setClient c .syncing)
  | resume : CallMove s c .resume (s.setClient c .resuming)
  | wait : CallMove s c .wait (s.setClient c .waitSize)
  | stop : CallMove s c .stop (s.setClient c .stopSize)

theorem callMove_of_step {op : Call} (h : s.callStep c op = some s') :
    s.built = true ∧ s.clients c = .idle ∧ CallMove s c op s' := by
  unfold callStep at h
  split at h
  · rename_i hbuilt hidle
    refine ⟨hbuilt, hidle, ?_⟩
    split at h
    · split at h
      · rename_i hmu
        cases h
        exact .addThread hmu
      · cases h
    · cases h
      exact .join
    · cases h
      exact .pause
    · cases h
      exact .sync
    · cases h
      exact .resume
    · cases h
      exact .wait
    · cases h
      exact .stop
  · cases h

end WorkerThreads
end Fredlib
