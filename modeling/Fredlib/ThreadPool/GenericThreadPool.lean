/-
  Fredlib.ThreadPool.GenericThreadPool

  `GenericThreadPool` of include/threading.hpp: a queue of functions and workers
  that take them off and run them.

  The pool is shared by any number of client threads, of any type `ι`, and the
  workers, numbered in the order of their creation.  A thread is a program
  counter; every critical section of the monitors, every access to the stop flag
  and every other step that another thread can notice is one step.  Tasks are
  numbered in the order of their allocation; a queued function runs from its
  step `run` to its next step, and always ends.

  `none` stands for a step that is not enabled or is undefined behaviour.
  Thread creation and allocation are taken to succeed, and the number of threads
  is given as the constructor computes it from `numthreads` and `scale`.
-/

import Fredlib.SafeList.Intrusive
import Fredlib.Threading.ThreadControl

namespace Fredlib

open Lib Lib.Monitor ThreadControl

/-- `QueueElement`: its task.  Its hook is in the heap of the queue. -/
structure QueueElement where
  task : Nat
  deriving DecidableEq

/-- `&QueueElement::hook`: the hook comes after the pointer `task`. -/
def QueueElement.hook : Addr := 8

namespace GenericThreadPool

/-- Where a worker is in `_worker_thread`. -/
inductive WorkerPc
  | pause
  | check
  | pop
  | run (qe : Addr)
  | inside (qe : Addr)
  | delete (qe : Addr)
  | done
  | exited
  deriving DecidableEq

/-- Where a thread is in the loop over `_add_thread`. -/
inductive AddPc
  | head
  | announce (b : Base)
  deriving DecidableEq

/-- Where a client is.  `left` counts the threads still to be added. -/
inductive ClientPc
  | idle
  | constructing (left : Nat) (pc : AddPc)
  | adding (left : Nat) (pc : AddPc)
  | pushing (qe : Addr)
  | pausing
  | resuming
  | stopNum
  | stopSet
  | stopWait
  | join (j : Nat)
  | stopClear
  deriving DecidableEq

/-- What a client may call.  `push_function` comes with the address the allocator
    returns for the new element. -/
inductive Call
  | pushFunction (qe : Addr)
  | addThread (nthreads : Nat)
  | pause
  | resume
  | stop
  deriving DecidableEq

/-- What can happen. -/
inductive Ev (ι : Type*)
  | call (c : ι) (op : Call)
  | client (c : ι)
  | worker (i : Nat)
  | timeout (i : Nat)
  | spuriousTc (b : Base) (t : Tid ι)
  | spuriousQ (t : Tid ι)

end GenericThreadPool

open GenericThreadPool

/-- `GenericThreadPool`, with the elements on the heap, the tasks allocated so
    far, and the threads. -/
structure GenericThreadPool (ι : Type*) where
  _muThreadPool : Option ι
  _vecThreads : List Nat
  _q : IntrusiveSafeList (Tid ι)
  _tc : ThreadControl (Tid ι)
  elements : Addr → Option QueueElement
  tasks : Nat
  created : Nat
  workers : Nat → WorkerPc
  clients : ι → ClientPc
  built : Bool

namespace GenericThreadPool

variable {ι : Type*} [DecidableEq ι]

/-- The worker `i` is at `pc` now. -/
def setWorker (i : Nat) (pc : WorkerPc) (s : GenericThreadPool ι) : GenericThreadPool ι :=
  { s with workers := Function.update s.workers i pc }

/-- The client `c` is at `pc` now. -/
def setClient (c : ι) (pc : ClientPc) (s : GenericThreadPool ι) : GenericThreadPool ι :=
  { s with clients := Function.update s.clients c pc }

-- ============================================================================
-- The workers
-- ============================================================================

/-- Where `_worker_thread` goes on after a step of `pop_front`. -/
def afterPop : Option (Option Addr) → WorkerPc
  | none => .pop
  | some none => .pause
  | some (some qe) => .run qe

/-- A step of `_worker_thread`. -/
def workerStep (i : Nat) (s : GenericThreadPool ι) : Option (GenericThreadPool ι) :=
  if i < s.created then
    match s.workers i with
    | .pause =>
        (s._tc.advance (.worker i) (.pause .pauseIfRequred)).map fun r =>
          { s with _tc := r.1 }.setWorker i (if r.2.isSome then .check else .pause)
    | .check => some (s.setWorker i (if s._tc.stopRequired then .done else .pop))
    | .pop =>
        (s._q.popFront (.worker i) 100).map fun r =>
          { s with _q := r.1 }.setWorker i (afterPop r.2)
    | .run qe => (s.elements qe).map fun _ => s.setWorker i (.inside qe)
    | .inside qe => some (s.setWorker i (.delete qe))
    | .delete qe =>
        (s.elements qe).map fun _ =>
          { s with elements := Function.update s.elements qe none }.setWorker i .pause
    | .done =>
        (s._tc.advance (.worker i) (.fanIn .done)).map fun r =>
          { s with _tc := r.1 }.setWorker i .exited
    | .exited => none
  else none

/-- The wait of `pop_front(100)` gives up. -/
def timeoutStep (i : Nat) (s : GenericThreadPool ι) : Option (GenericThreadPool ι) :=
  if i < s.created then
    match s.workers i with
    | .pop =>
        (s._q.giveUp (.worker i)).map fun r => { s with _q := r.1 }.setWorker i (afterPop r.2)
    | _ => none
  else none

-- ============================================================================
-- The clients
-- ============================================================================

/-- `_vecThreads.emplace_back`: a new worker at the start of `_worker_thread`. -/
def emplace (s : GenericThreadPool ι) : GenericThreadPool ι :=
  { s with
    _vecThreads := s._vecThreads ++ [s.created]
    created := s.created + 1 }.setWorker s.created .pause

/-- Where `_add_thread` goes on after the base `b`. -/
def AddPc.after (b : Base) : AddPc :=
  match b.next with
  | some b' => .announce b'
  | none => .head

/-- A step of the loop over `_add_thread`, with what is left to do; the loop ends
    when nothing is. -/
def addStep (c : ι) (left : Nat) (pc : AddPc) (s : GenericThreadPool ι) :
    Option (GenericThreadPool ι × Option (Nat × AddPc)) :=
  match pc with
  | .head =>
      match left with
      | 0 => some (s, none)
      | left + 1 => some (s.emplace, some (left, .announce .syncPoint))
  | .announce b =>
      (s._tc.advance (.client c) (addThread 1 b)).map fun r =>
        ({ s with _tc := r.1 }, some (left, .after b))

/-- A step of the call the client `c` is in. -/
def clientStep (c : ι) (s : GenericThreadPool ι) : Option (GenericThreadPool ι) :=
  match s.clients c with
  | .idle => none
  | .constructing left pc =>
      (s.addStep c left pc).map fun r =>
        match r.2 with
        | some (left, pc) => r.1.setClient c (.constructing left pc)
        | none => { r.1 with built := true }.setClient c .idle
  | .adding left pc =>
      (s.addStep c left pc).map fun r =>
        match r.2 with
        | some (left, pc) => r.1.setClient c (.adding left pc)
        | none => { r.1 with _muThreadPool := none }.setClient c .idle
  | .pushing qe =>
      (s._q.pushBack QueueElement.hook (.client c) qe).map fun q =>
        { s with _q := q }.setClient c .idle
  | .pausing =>
      (s._tc.advance (.client c) (.pause .pause)).map fun r =>
        { s with _tc := r.1 }.setClient c (if r.2.isSome then .idle else .pausing)
  | .resuming =>
      (s._tc.advance (.client c) (.pause .resume)).map fun r =>
        { s with _tc := r.1 }.setClient c (if r.2.isSome then .idle else .resuming)
  | .stopNum =>
      match s._muThreadPool with
      | none => some (s.setClient c (if s._vecThreads.length > 0 then .stopSet else .idle))
      | some _ => none
  | .stopSet => some ({ s with _tc := s._tc.requestStop }.setClient c .stopWait)
  | .stopWait =>
      (s._tc.advance (.client c) (.fanIn .wait)).map fun r =>
        { s with _tc := r.1 }.setClient c (if r.2.isSome then .join 0 else .stopWait)
  | .join j =>
      match s._vecThreads[j]? with
      | none => some (s.setClient c .stopClear)
      | some i =>
          match s.workers i with
          | .exited => some (s.setClient c (.join (j + 1)))
          | _ => none
  | .stopClear =>
      match s._muThreadPool with
      | none => some ({ s with _vecThreads := [] }.setClient c .idle)
      | some _ => none

/-- The idle client `c` calls `op`. -/
def callStep (c : ι) (op : Call) (s : GenericThreadPool ι) : Option (GenericThreadPool ι) :=
  match s.built, s.clients c with
  | true, .idle =>
      match op with
      | .pushFunction qe =>
          match s.elements qe with
          | none =>
              some ({ s with
                elements := Function.update s.elements qe (some { task := s.tasks })
                tasks := s.tasks + 1
                _q := s._q.constructHook QueueElement.hook qe }.setClient c (.pushing qe))
          | some _ => none
      | .addThread nthreads =>
          match s._muThreadPool with
          | none => some ({ s with _muThreadPool := some c }.setClient c (.adding nthreads .head))
          | some _ => none
      | .pause => some (s.setClient c .pausing)
      | .resume => some (s.setClient c .resuming)
      | .stop => some (s.setClient c .stopNum)
  | _, _ => none

/-- One step of the pool. -/
def step (s : GenericThreadPool ι) : Ev ι → Option (GenericThreadPool ι)
  | .call c op => s.callStep c op
  | .client c => s.clientStep c
  | .worker i => s.workerStep i
  | .timeout i => s.timeoutStep i
  | .spuriousTc b t => (s._tc.spurious b t).map fun tc => { s with _tc := tc }
  | .spuriousQ t => (s._q.spurious t).map fun q => { s with _q := q }

/-- The client `c` is about to construct a pool of `n` threads, on a heap whose
    hooks hold anything. -/
def initial (c : ι) (n : Nat) (heap : Heap Addr) : GenericThreadPool ι where
  _muThreadPool := none
  _vecThreads := []
  _q := .create QueueElement.hook heap
  _tc := .create 0
  elements _ := none
  tasks := 0
  created := 0
  workers _ := .pause
  clients := Function.update (fun _ => .idle) c (.constructing n .head)
  built := false

/-- The pools constructed with `n` threads. -/
def system (ι : Type*) [DecidableEq ι] (n : Nat) : System (GenericThreadPool ι) (Ev ι) where
  init s := ∃ c heap, s = initial c n heap
  step := step

/-- The worker `i` is inside a queued function. -/
def Inside (s : GenericThreadPool ι) (i : Nat) : Prop :=
  i < s.created ∧ ∃ qe, s.workers i = .inside qe

-- ============================================================================
-- What a step does
-- ============================================================================

variable {s s' : GenericThreadPool ι} {i j : Nat} {c d : ι} {e : Ev ι}

omit [DecidableEq ι] in
@[simp] theorem setWorker_self {pc : WorkerPc} : (s.setWorker i pc).workers i = pc := by
  simp [setWorker]

omit [DecidableEq ι] in
theorem setWorker_of_ne {pc : WorkerPc} (h : j ≠ i) :
    (s.setWorker i pc).workers j = s.workers j := by simp [setWorker, h]

@[simp] theorem setClient_self {pc : ClientPc} : (s.setClient c pc).clients c = pc := by
  simp [setClient]

theorem setClient_of_ne {pc : ClientPc} (h : d ≠ c) :
    (s.setClient c pc).clients d = s.clients d := by simp [setClient, h]

/-- The steps of a worker, one by one. -/
inductive WorkerMove (s : GenericThreadPool ι) (i : Nat) : GenericThreadPool ι → Prop
  | pause {tc : ThreadControl (Tid ι)} {r : Option Unit} : s.workers i = .pause →
      s._tc.advance (.worker i) (.pause .pauseIfRequred) = some (tc, r) →
      WorkerMove s i
        ({ s with _tc := tc }.setWorker i (if r.isSome then .check else .pause))
  | check : s.workers i = .check →
      WorkerMove s i (s.setWorker i (if s._tc.stopRequired then .done else .pop))
  | pop {q : IntrusiveSafeList (Tid ι)} {r : Option (Option Addr)} : s.workers i = .pop →
      s._q.popFront (.worker i) 100 = some (q, r) →
      WorkerMove s i ({ s with _q := q }.setWorker i (afterPop r))
  | run {qe : Addr} {e : QueueElement} : s.workers i = .run qe → s.elements qe = some e →
      WorkerMove s i (s.setWorker i (.inside qe))
  | inside {qe : Addr} : s.workers i = .inside qe → WorkerMove s i (s.setWorker i (.delete qe))
  | delete {qe : Addr} {e : QueueElement} : s.workers i = .delete qe → s.elements qe = some e →
      WorkerMove s i
        ({ s with elements := Function.update s.elements qe none }.setWorker i .pause)
  | done {tc : ThreadControl (Tid ι)} {r : Option Unit} : s.workers i = .done →
      s._tc.advance (.worker i) (.fanIn .done) = some (tc, r) →
      WorkerMove s i ({ s with _tc := tc }.setWorker i .exited)

theorem workerMove_of_step (h : s.workerStep i = some s') : i < s.created ∧ WorkerMove s i s' := by
  unfold workerStep at h
  split at h
  · rename_i hi
    refine ⟨hi, ?_⟩
    split at h
    · -- one case for each place in the loop of `_worker_thread`
      rename_i hpc
      simp only [Option.map_eq_some_iff] at h
      obtain ⟨⟨tc, r⟩, hadv, rfl⟩ := h
      exact .pause hpc hadv
    · rename_i hpc
      cases h
      exact .check hpc
    · rename_i hpc
      simp only [Option.map_eq_some_iff] at h
      obtain ⟨⟨q, r⟩, hpop, rfl⟩ := h
      exact .pop hpc hpop
    · rename_i qe hpc
      simp only [Option.map_eq_some_iff] at h
      obtain ⟨e, he, rfl⟩ := h
      exact .run hpc he
    · rename_i qe hpc
      cases h
      exact .inside hpc
    · rename_i qe hpc
      simp only [Option.map_eq_some_iff] at h
      obtain ⟨e, he, rfl⟩ := h
      exact .delete hpc he
    · rename_i hpc
      simp only [Option.map_eq_some_iff] at h
      obtain ⟨⟨tc, r⟩, hadv, rfl⟩ := h
      exact .done hpc hadv
    · cases h
  · cases h

theorem timeoutStep_some (h : s.timeoutStep i = some s') :
    i < s.created ∧ s.workers i = .pop ∧ ∃ q r, s._q.giveUp (.worker i) = some (q, r) ∧
      s' = { s with _q := q }.setWorker i (afterPop r) := by
  unfold timeoutStep at h
  split at h
  · rename_i hi
    split at h
    · rename_i hpc
      simp only [Option.map_eq_some_iff] at h
      obtain ⟨⟨q, r⟩, hpop, rfl⟩ := h
      exact ⟨hi, hpc, q, r, hpop, rfl⟩
    · cases h
  · cases h

/-- The steps of the loop over `_add_thread`, one by one. -/
inductive AddMove (s : GenericThreadPool ι) (c : ι) :
    Nat → AddPc → GenericThreadPool ι → Option (Nat × AddPc) → Prop
  | finish : AddMove s c 0 .head s none
  | emplace {left : Nat} :
      AddMove s c (left + 1) .head s.emplace (some (left, .announce .syncPoint))
  | announce {left : Nat} {b : Base} {tc : ThreadControl (Tid ι)} {r : Option Unit} :
      s._tc.advance (.client c) (addThread 1 b) = some (tc, r) →
      AddMove s c left (.announce b) { s with _tc := tc } (some (left, .after b))

theorem addMove_of_step {left : Nat} {pc : AddPc} {r : Option (Nat × AddPc)}
    (h : s.addStep c left pc = some (s', r)) : AddMove s c left pc s' r := by
  unfold addStep at h
  split at h
  · split at h
    · -- at the head of the loop: no thread is left, or one is created
      cases h
      exact .finish
    · cases h
      exact .emplace
  · simp only [Option.map_eq_some_iff, Prod.mk.injEq] at h
    obtain ⟨⟨tc, r⟩, hadv, rfl, rfl⟩ := h
    exact .announce hadv

/-- The steps of a client inside a call, one by one. -/
inductive ClientMove (s : GenericThreadPool ι) (c : ι) : GenericThreadPool ι → Prop
  | construct {left left' : Nat} {pc pc' : AddPc} {s₁ : GenericThreadPool ι} :
      s.clients c = .constructing left pc → AddMove s c left pc s₁ (some (left', pc')) →
      ClientMove s c (s₁.setClient c (.constructing left' pc'))
  | built {left : Nat} {pc : AddPc} {s₁ : GenericThreadPool ι} :
      s.clients c = .constructing left pc → AddMove s c left pc s₁ none →
      ClientMove s c ({ s₁ with built := true }.setClient c .idle)
  | add {left left' : Nat} {pc pc' : AddPc} {s₁ : GenericThreadPool ι} :
      s.clients c = .adding left pc → AddMove s c left pc s₁ (some (left', pc')) →
      ClientMove s c (s₁.setClient c (.adding left' pc'))
  | added {left : Nat} {pc : AddPc} {s₁ : GenericThreadPool ι} :
      s.clients c = .adding left pc → AddMove s c left pc s₁ none →
      ClientMove s c ({ s₁ with _muThreadPool := none }.setClient c .idle)
  | push {qe : Addr} {q : IntrusiveSafeList (Tid ι)} : s.clients c = .pushing qe →
      s._q.pushBack QueueElement.hook (.client c) qe = some q →
      ClientMove s c ({ s with _q := q }.setClient c .idle)
  | pause {tc : ThreadControl (Tid ι)} {r : Option Unit} : s.clients c = .pausing →
      s._tc.advance (.client c) (.pause .pause) = some (tc, r) →
      ClientMove s c ({ s with _tc := tc }.setClient c (if r.isSome then .idle else .pausing))
  | resume {tc : ThreadControl (Tid ι)} {r : Option Unit} : s.clients c = .resuming →
      s._tc.advance (.client c) (.pause .resume) = some (tc, r) →
      ClientMove s c ({ s with _tc := tc }.setClient c (if r.isSome then .idle else .resuming))
  | stopNum : s.clients c = .stopNum → s._muThreadPool = none →
      ClientMove s c (s.setClient c (if s._vecThreads.length > 0 then .stopSet else .idle))
  | stopSet : s.clients c = .stopSet →
      ClientMove s c ({ s with _tc := s._tc.requestStop }.setClient c .stopWait)
  | stopWait {tc : ThreadControl (Tid ι)} {r : Option Unit} : s.clients c = .stopWait →
      s._tc.advance (.client c) (.fanIn .wait) = some (tc, r) →
      ClientMove s c ({ s with _tc := tc }.setClient c (if r.isSome then .join 0 else .stopWait))
  | join {j i : Nat} : s.clients c = .join j → s._vecThreads[j]? = some i → s.workers i = .exited →
      ClientMove s c (s.setClient c (.join (j + 1)))
  | joined {j : Nat} : s.clients c = .join j → s._vecThreads[j]? = none →
      ClientMove s c (s.setClient c .stopClear)
  | stopClear : s.clients c = .stopClear → s._muThreadPool = none →
      ClientMove s c ({ s with _vecThreads := [] }.setClient c .idle)

theorem clientMove_of_step (h : s.clientStep c = some s') : ClientMove s c s' := by
  unfold clientStep at h
  split at h
  · cases h
  · -- the constructor, then `add_thread`: the same loop
    rename_i left pc hpc
    simp only [Option.map_eq_some_iff] at h
    obtain ⟨⟨s₁, r⟩, hadd, rfl⟩ := h
    cases r with
    | none => exact .built hpc (addMove_of_step hadd)
    | some r => exact .construct hpc (addMove_of_step hadd)
  · rename_i left pc hpc
    simp only [Option.map_eq_some_iff] at h
    obtain ⟨⟨s₁, r⟩, hadd, rfl⟩ := h
    cases r with
    | none => exact .added hpc (addMove_of_step hadd)
    | some r => exact .add hpc (addMove_of_step hadd)
  · rename_i qe hpc
    simp only [Option.map_eq_some_iff] at h
    obtain ⟨q, hpush, rfl⟩ := h
    exact .push hpc hpush
  · rename_i hpc
    simp only [Option.map_eq_some_iff] at h
    obtain ⟨⟨tc, r⟩, hadv, rfl⟩ := h
    exact .pause hpc hadv
  · rename_i hpc
    simp only [Option.map_eq_some_iff] at h
    obtain ⟨⟨tc, r⟩, hadv, rfl⟩ := h
    exact .resume hpc hadv
  · rename_i hpc
    split at h
    · rename_i hmu
      cases h
      exact .stopNum hpc hmu
    · cases h
  · rename_i hpc
    cases h
    exact .stopSet hpc
  · rename_i hpc
    simp only [Option.map_eq_some_iff] at h
    obtain ⟨⟨tc, r⟩, hadv, rfl⟩ := h
    exact .stopWait hpc hadv
  · rename_i j hpc
    split at h
    · rename_i hj
      cases h
      exact .joined hpc hj
    · rename_i i hj
      split at h
      · rename_i hexited
        cases h
        exact .join hpc hj hexited
      · cases h
  · rename_i hpc
    split at h
    · rename_i hmu
      cases h
      exact .stopClear hpc hmu
    · cases h

/-- The calls, one by one. -/
inductive CallMove (s : GenericThreadPool ι) (c : ι) : Call → GenericThreadPool ι → Prop
  | pushFunction {qe : Addr} : s.elements qe = none →
      CallMove s c (.pushFunction qe)
        ({ s with
          elements := Function.update s.elements qe (some { task := s.tasks })
          tasks := s.tasks + 1
          _q := s._q.constructHook QueueElement.hook qe }.setClient c (.pushing qe))
  | addThread {nthreads : Nat} : s._muThreadPool = none →
      CallMove s c (.addThread nthreads)
        ({ s with _muThreadPool := some c }.setClient c (.adding nthreads .head))
  | pause : CallMove s c .pause (s.setClient c .pausing)
  | resume : CallMove s c .resume (s.setClient c .resuming)
  | stop : CallMove s c .stop (s.setClient c .stopNum)

theorem callMove_of_step {op : Call} (h : s.callStep c op = some s') :
    s.built = true ∧ s.clients c = .idle ∧ CallMove s c op s' := by
  unfold callStep at h
  split at h
  · rename_i hbuilt hidle
    refine ⟨hbuilt, hidle, ?_⟩
    split at h
    · split at h
      · rename_i hfree
        cases h
        exact .pushFunction hfree
      · cases h
    · split at h
      · rename_i hmu
        cases h
        exact .addThread hmu
      · cases h
    · cases h
      exact .pause
    · cases h
      exact .resume
    · cases h
      exact .stop
  · cases h

-- ============================================================================
-- What clients leave alone
-- ============================================================================

/-- No worker moves, but there may be a new one, about to start. -/
def Grows (s s' : GenericThreadPool ι) : Prop :=
  (s'.created = s.created ∧ s'.workers = s.workers) ∨
    (s'.created = s.created + 1 ∧ s'.workers = Function.update s.workers s.created .pause)

theorem addMove_frame {left : Nat} {pc : AddPc} {r : Option (Nat × AddPc)}
    (h : AddMove s c left pc s' r) : Grows s s' ∧ s'._tc._stopper = s._tc._stopper := by
  cases h with
  | finish => exact ⟨.inl ⟨rfl, rfl⟩, rfl⟩
  | emplace => exact ⟨.inr ⟨rfl, rfl⟩, rfl⟩
  | announce hadv => exact ⟨.inl ⟨rfl, rfl⟩, advance_stopper hadv⟩

/-- The steps of a client move no worker and do not clear the stop flag. -/
theorem clientStep_frame (h : s.clientStep c = some s') :
    Grows s s' ∧ (s._tc._stopper = true → s'._tc._stopper = true) := by
  cases clientMove_of_step h with
  | construct _ hadd => exact (addMove_frame hadd).imp id fun h => h.trans
  | built _ hadd => exact (addMove_frame hadd).imp id fun h => h.trans
  | add _ hadd => exact (addMove_frame hadd).imp id fun h => h.trans
  | added _ hadd => exact (addMove_frame hadd).imp id fun h => h.trans
  | pause _ hadv => exact ⟨.inl ⟨rfl, rfl⟩, (advance_stopper hadv).trans⟩
  | resume _ hadv => exact ⟨.inl ⟨rfl, rfl⟩, (advance_stopper hadv).trans⟩
  | stopWait _ hadv => exact ⟨.inl ⟨rfl, rfl⟩, (advance_stopper hadv).trans⟩
  | stopSet => exact ⟨.inl ⟨rfl, rfl⟩, fun _ => rfl⟩
  | push => exact ⟨.inl ⟨rfl, rfl⟩, id⟩
  | stopNum => exact ⟨.inl ⟨rfl, rfl⟩, id⟩
  | join => exact ⟨.inl ⟨rfl, rfl⟩, id⟩
  | joined => exact ⟨.inl ⟨rfl, rfl⟩, id⟩
  | stopClear => exact ⟨.inl ⟨rfl, rfl⟩, id⟩

theorem callStep_frame {op : Call} (h : s.callStep c op = some s') :
    s'.created = s.created ∧ s'.workers = s.workers ∧ s'._vecThreads = s._vecThreads ∧
      s'._tc = s._tc := by
  obtain ⟨-, -, hmove⟩ := callMove_of_step h
  cases hmove <;> exact ⟨rfl, rfl, rfl, rfl⟩

/-- A step of a worker moves nobody else and changes nothing of the vector and
    the stop flag. -/
theorem workerStep_frame (h : s.workerStep i = some s') :
    (∃ pc, s'.workers = Function.update s.workers i pc) ∧ s'.created = s.created ∧
      s'._vecThreads = s._vecThreads ∧ s'._tc._stopper = s._tc._stopper ∧
      s'.clients = s.clients := by
  obtain ⟨-, hmove⟩ := workerMove_of_step h
  cases hmove with
  | pause _ hadv => exact ⟨⟨_, rfl⟩, rfl, rfl, advance_stopper hadv, rfl⟩
  | done _ hadv => exact ⟨⟨_, rfl⟩, rfl, rfl, advance_stopper hadv, rfl⟩
  | _ => exact ⟨⟨_, rfl⟩, rfl, rfl, rfl, rfl⟩

/-- A step moves one worker, or none. -/
theorem step_frame (hs : step s e = some s') :
    (Grows s s' ∧ (s._tc._stopper = true → s'._tc._stopper = true)) ∨
      ∃ i, i < s.created ∧ (s.workerStep i = some s' ∨ s.workers i = .pop) ∧
        s'.created = s.created := by
  cases e with
  | call c op =>
      obtain ⟨hcreated, hworkers, -, htc⟩ := callStep_frame hs
      exact .inl ⟨.inl ⟨hcreated, hworkers⟩, by rw [htc]; exact id⟩
  | client c => exact .inl (clientStep_frame hs)
  | worker i =>
      exact .inr ⟨i, (workerMove_of_step hs).1, .inl hs, (workerStep_frame hs).2.1⟩
  | timeout i =>
      -- a time-out is a step of the worker, though not one it takes itself
      obtain ⟨hi, hpc, q, r, -, rfl⟩ := timeoutStep_some hs
      exact .inr ⟨i, hi, .inr hpc, rfl⟩
  | spuriousTc b t =>
      simp only [step, Option.map_eq_some_iff] at hs
      obtain ⟨tc, hsp, rfl⟩ := hs
      exact .inl ⟨.inl ⟨rfl, rfl⟩, (spurious_stopper hsp).trans⟩
  | spuriousQ t =>
      simp only [step, Option.map_eq_some_iff] at hs
      obtain ⟨q, -, rfl⟩ := hs
      exact .inl ⟨.inl ⟨rfl, rfl⟩, id⟩

theorem created_le_of_step (hs : step s e = some s') : s.created ≤ s'.created := by
  rcases step_frame hs with ⟨⟨hcreated, -⟩ | ⟨hcreated, -⟩, -⟩ | ⟨i, -, -, hcreated⟩ <;> omega

end GenericThreadPool
end Fredlib
