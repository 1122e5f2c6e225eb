/-
  Fredlib.ThreadPool.Progress

  What must happen in a `GenericThreadPool`.

  A run without end that is fair to the workers: none of them stands still for ever while
  it could take a step, or while the time-out of its `pop_front(100)` could end its wait.
  A function once popped is then run to its end and deleted, whatever is paused or stopped
  meanwhile; and a queue that is not empty is popped from, as long as no pause and no stop
  is on.  So from then on every function that has been pushed, or is, lives its whole life
  (`functions_run`).
-/

import Fredlib.Lib.Fair
import Fredlib.ThreadPool.NumThreads

namespace Fredlib

open Lib Lib.Monitor ThreadControl IntrusiveSafeList

-- ============================================================================
-- The queue
-- ============================================================================

namespace IntrusiveSafeList

variable {T : Type*} [DecidableEq T] {ptrToHook : Addr} {l l' : IntrusiveSafeList T} {s : List Addr}
  {t : T} {timeout : Int} {r : Option (Option Addr)}

omit [DecidableEq T] in
/-- The code of the pops is never undefined. -/
theorem Holds.popFront_ne_none (h : Holds ptrToHook l s) : l.list.data.popFront ≠ none := by
  cases s with
  | nil => simp [ListMem.popFront_empty h.list]
  | cons a s =>
      obtain ⟨m', hrun, -⟩ := ListMem.popFront_spec (n := getHook ptrToHook a) h.list
      simp [hrun]

/-- A `pop_front` that begins can go on. -/
theorem popFront_of_out (h : Holds ptrToHook l s) (hout : l.list.thr t = .out) :
    popFront t timeout l ≠ none := by
  obtain ⟨r, hr⟩ := Option.ne_none_iff_exists'.mp h.popFront_ne_none
  have hsec : ∃ e, SafeList.monitor.wakeSection (.front timeout) l.list.data = some e := by
    rw [SafeList.wakeSection_front, hr]
    split
    · exact ⟨_, rfl⟩
    · exact ⟨_, rfl⟩
  obtain ⟨e, he⟩ := hsec
  have henter : SafeList.monitor.enterSection (.popFront timeout) l.list.data = some e := he
  have hadv := SafeList.monitor.advance_of_out hout henter
  simp [popFront, hadv]

/-- One that waits can give up. -/
theorem giveUp_of_waiting (h : Holds ptrToHook l s)
    (hat : (l.list.thr t).waiting = some (.front timeout)) (htimed : timeout ≠ 0) :
    giveUp t l ≠ none := by
  obtain ⟨r, hr⟩ := Option.ne_none_iff_exists'.mp h.popFront_ne_none
  have htimed' : (SafeList.monitor (α := Addr)).timed (.front timeout) = true := by
    simpa [SafeList.monitor] using htimed
  simp [giveUp, Monitor.timeout, hat, htimed', SafeList.finish_front, hr]

/-- On a list that is not empty it does not wait. -/
theorem popFront_returns (h : Holds ptrToHook l s) (hne : s ≠ [])
    (hat : ∀ w, (l.list.thr t).waiting = some w → w = .front timeout)
    (hs : popFront t timeout l = some (l', r)) : r ≠ none := by
  simp only [popFront, Option.map_eq_some_iff, Prod.mk.injEq] at hs
  obtain ⟨⟨c, r₀⟩, hadv, rfl, rfl⟩ := hs
  have hempty : l.list.data.list.empty = false := by
    rw [h.list.empty_eq, List.isEmpty_map]
    simpa using hne
  have hreturns : ∀ e, SafeList.monitor.wakeSection (.front timeout) l.list.data = some e →
      e.exit.result ≠ none := by
    intro e he
    rw [SafeList.wakeSection_front, hempty] at he
    obtain ⟨r, -, rfl⟩ := Option.map_eq_some_iff.mp he
    simp [Exit.result]
  -- the first look at the list, or a re-check after waiting: both find an element
  rcases SafeList.monitor.advance_some hadv with ⟨-, hcall⟩ | ⟨w, hw, hcheck⟩
  · obtain ⟨-, e, hsec, happ⟩ := SafeList.monitor.call_some hcall
    have hr : r₀ = e.exit.result := (congrArg Prod.snd happ).symm
    simpa [hr] using hreturns e hsec
  · obtain ⟨w, hw, e, hsec, happ⟩ := SafeList.monitor.recheck_some hcheck
    have hfront := hat w (by rw [hw]; rfl)
    subst hfront
    have hr : r₀ = e.exit.result := (congrArg Prod.snd happ).symm
    simpa [hr] using hreturns e hsec

end IntrusiveSafeList

namespace GenericThreadPool

variable {ι : Type*} [DecidableEq ι]

-- ============================================================================
-- The steps of one worker
-- ============================================================================

/-- What is up to the worker `i`. -/
def Ev.IsOf (i : Nat) : Ev ι → Prop
  | .worker j | .timeout j => j = i
  | _ => False

/-- No stop is requested, and no pause. -/
def Serving (s : GenericThreadPool ι) : Prop :=
  s._tc._stopper = false ∧ s._tc.pausePoint.data.mPause = false

/-- How many steps a worker in its loop is away from its `pop_front`. -/
def WorkerPc.distance : WorkerPc → Nat
  | .run _ => 5
  | .inside _ => 4
  | .delete _ => 3
  | .pause => 2
  | .check => 1
  | .pop | .done | .exited => 0

variable {s s' : GenericThreadPool ι} {i : Nat} {e : Ev ι} {log : List Obs} {l : List (Addr × Nat)}

/-- The steps of the others do not move a worker. -/
theorem QueueInv.others (h : QueueInv log s l) (he : ¬ e.IsOf i)
    (hs : GenericThreadPool.step s e = some s') : s'.workers i = s.workers i := by
  -- a worker that is created starts where an absent one is
  have hgrows : Grows s s' → s'.workers i = s.workers i := by
    rintro (⟨-, hworkers⟩ | ⟨-, hworkers⟩)
    · rw [hworkers]
    · rw [hworkers, ← h.absent s.created (Nat.le_refl _), Function.update_eq_self]
  cases e with
  | call c op => exact congrFun (callStep_frame hs).2.1 i
  | client c => exact hgrows (clientStep_frame hs).1
  | worker j =>
      obtain ⟨⟨pc, hworkers⟩, -⟩ := workerStep_frame hs
      rw [hworkers, Function.update_of_ne (fun hij => he hij.symm)]
  | timeout j =>
      obtain ⟨-, -, q, r, -, rfl⟩ := timeoutStep_some hs
      exact setWorker_of_ne (fun hij => he hij.symm)
  | spuriousTc b t =>
      simp only [GenericThreadPool.step, Option.map_eq_some_iff] at hs
      obtain ⟨tc, -, rfl⟩ := hs
      rfl
  | spuriousQ t =>
      simp only [GenericThreadPool.step, Option.map_eq_some_iff] at hs
      obtain ⟨q, -, rfl⟩ := hs
      rfl

/-- Nothing clears the stop flag. -/
theorem stopper_of_step (hs : GenericThreadPool.step s e = some s')
    (hflag : s'._tc._stopper = false) : s._tc._stopper = false := by
  cases e with
  | call c op => rwa [← (callStep_frame hs).2.2.2]
  | client c =>
      by_contra htrue
      have hset := (clientStep_frame hs).2 (by simpa using htrue)
      rw [hflag] at hset
      cases hset
  | worker i => rwa [← (workerStep_frame hs).2.2.2.1]
  | timeout i =>
      obtain ⟨-, -, q, r, -, rfl⟩ := timeoutStep_some hs
      exact hflag
  | spuriousTc b t =>
      simp only [GenericThreadPool.step, Option.map_eq_some_iff] at hs
      obtain ⟨tc, hsp, rfl⟩ := hs
      rwa [← spurious_stopper hsp]
  | spuriousQ t =>
      simp only [GenericThreadPool.step, Option.map_eq_some_iff] at hs
      obtain ⟨q, -, rfl⟩ := hs
      exact hflag

theorem looping_afterPop (r : Option (Option Addr)) : (afterPop r).Looping := by
  rcases r with - | - | qe <;> exact ⟨by simp [afterPop], by simp [afterPop]⟩

/-- Nobody leaves the loop of `_worker_thread` before a stop is requested. -/
theorem looping_of_reachable {n : Nat} {ok : GenericThreadPool ι → Ev ι → Prop}
    (h : (system ι n).ReachableBy ok s) (hflag : s._tc._stopper = false) (i : Nat) :
    (s.workers i).Looping := by
  refine h.invariant (P := fun s => s._tc._stopper = false → (s.workers i).Looping) ?_ ?_ hflag
  · rintro s ⟨c, heap, rfl⟩ -
    exact ⟨by simp [initial], by simp [initial]⟩
  · intro s e s' hreach hloop _ hs hflag'
    have hold := hloop (stopper_of_step hs hflag')
    by_cases he : e.IsOf i
    · cases e with
      | worker j =>
          cases he
          obtain ⟨-, hmove⟩ := workerMove_of_step hs
          cases hmove with
          | @pause tc r hpc hadv =>
              rw [setWorker_self]
              cases r <;> exact ⟨by simp, by simp⟩
          -- only a worker at `.check` leaves, and it sees the flag down
          | check hpc =>
              have hrequired : s._tc.stopRequired = false := hflag'
              rw [setWorker_self, hrequired]
              exact ⟨by simp, by simp⟩
          | pop hpc hpop => exact setWorker_self ▸ looping_afterPop _
          | run hpc helem => exact setWorker_self ▸ ⟨by simp, by simp⟩
          | inside hpc => exact setWorker_self ▸ ⟨by simp, by simp⟩
          | delete hpc helem => exact setWorker_self ▸ ⟨by simp, by simp⟩
          | done hpc => exact absurd hpc hold.1
      | timeout j =>
          cases he
          obtain ⟨-, -, q, r, -, rfl⟩ := timeoutStep_some hs
          exact setWorker_self ▸ looping_afterPop r
      | _ => cases he
    · -- the step of somebody else
      obtain ⟨log, hlog⟩ := hreach.traced obs
      obtain ⟨l, hinv⟩ := queueInv_of_traced hlog
      rw [hinv.others he hs]
      exact hold

/-- A worker can take a step wherever it does not sleep. -/
theorem QueueInv.worker_enabled (h : QueueInv log s l) (hi : i < s.created)
    (hpause : s.workers i = .pause →
      s._tc.advance (.worker i) (.pause .pauseIfRequred) ≠ none)
    (hpop : s.workers i = .pop → s._q.list.thr (.worker i) = .out)
    (hdone : s.workers i = .done → s._tc.advance (.worker i) (.fanIn .done) ≠ none)
    (hexited : s.workers i ≠ .exited) : s.workerStep i ≠ none := by
  -- an element that a worker holds is alive, so it can be run and deleted
  have hlive : ∀ st {qe}, s.workers i = Stage.pc st qe → s.elements qe ≠ none := by
    intro st qe hpc hnone
    have hsits : s.Sits l (.held i st) qe := hpc
    obtain ⟨k, hk⟩ := h.live hsits
    rw [taskOf, hnone] at hk
    cases hk
  cases hpc : s.workers i with
  | pause => simpa [workerStep, hi, hpc] using hpause hpc
  | check => simp [workerStep, hi, hpc]
  | pop =>
      have hgoes : s._q.popFront (.worker i) 100 ≠ none := popFront_of_out h.holds (hpop hpc)
      simpa [workerStep, hi, hpc] using hgoes
  | run qe => simpa [workerStep, hi, hpc] using hlive .taken hpc
  | inside qe => simp [workerStep, hi, hpc]
  | delete qe => simpa [workerStep, hi, hpc] using hlive .ran hpc
  | done => simpa [workerStep, hi, hpc] using hdone hpc
  | exited => exact absurd hpc hexited

/-- Where it waits for an element, it can give up. -/
theorem QueueInv.timeout_enabled (h : QueueInv log s l) (hi : i < s.created)
    (hpc : s.workers i = .pop) (hwaiting : s._q.list.thr (.worker i) ≠ .out) :
    s.timeoutStep i ≠ none := by
  obtain ⟨w, hw⟩ := Option.ne_none_iff_exists'.mp (Status.waiting_eq_none.not.mpr hwaiting)
  have hfront := h.workerAt i w hw
  subst hfront
  have hgive := giveUp_of_waiting h.holds hw (by decide)
  simpa [timeoutStep, hi, hpc] using hgive

/-- A worker in its loop can take a step, or give up its wait. -/
theorem QueueInv.enabled (h : QueueInv log s l) (hi : i < s.created)
    (hloop : (s.workers i).Looping) (hpause : s.workers i = .pause →
      s._tc.advance (.worker i) (.pause .pauseIfRequred) ≠ none) :
    ∃ e : Ev ι, e.IsOf i ∧ GenericThreadPool.step s e ≠ none := by
  by_cases hwaits : s.workers i = .pop ∧ s._q.list.thr (.worker i) ≠ .out
  · exact ⟨.timeout i, rfl, h.timeout_enabled hi hwaits.1 hwaits.2⟩
  · refine ⟨.worker i, rfl, h.worker_enabled hi hpause (fun hpc => ?_)
      (fun hpc => absurd hpc hloop.1) hloop.2⟩
    by_contra hin
    exact hwaits ⟨hpc, hin⟩

/-- Nothing keeps a worker from passing `pauseIfRequred`. -/
theorem passes_pause {n : Nat} {ok : GenericThreadPool ι → Ev ι → Prop}
    (h : (system ι n).ReachableBy ok s) (hflag : s._tc.pausePoint.data.mPause = false) (i : Nat) :
    ∃ tc, s._tc.advance (.worker i) (.pause .pauseIfRequred) = some (tc, some ()) := by
  have hat : ∀ w, (s._tc.pausePoint.thr (.worker i)).waiting = some w → w = .resumed :=
    fun w hw => ((growth_of_reachable h).pause.worker i w hw).1
  have hawake : s._tc.pausePoint.thr (.worker i) ≠ .asleep .resumed := by
    intro hasleep
    cases hflag.symm.trans (asleep_of_reachable h _ hasleep)
  obtain ⟨x, hx⟩ := PausePoint.check_returns hat hawake hflag
  exact ⟨_, advance_of_pause hx⟩

omit [DecidableEq ι] in
/-- A pop by the worker `i` from a queue that is not empty. -/
theorem QueueInv.shows_pop (h : QueueInv log s l) {q : IntrusiveSafeList (Tid ι)}
    {r : Option (Option Addr)} (hpops : Pops QueueElement.hook s._q q (l.map Prod.fst) r)
    (hne : l ≠ []) (hr : r ≠ none) : ∃ o ∈ s.showsPop i (some (q, r)), o.pop ≠ none := by
  match r, hpops with
  | none, _ => exact absurd rfl hr
  | some none, ⟨hnil, _⟩ => exact absurd (List.map_eq_nil_iff.mp hnil) hne
  | some (some qe), ⟨s', hs', _⟩ =>
      obtain ⟨⟨qe', k⟩, l', rfl, rfl, rfl⟩ := List.map_eq_cons_iff.mp hs'
      have hk : s.taskOf qe' = some k := h.contents _ List.mem_cons_self
      refine ⟨.popped i qe' k, ?_, by simp [Obs.pop]⟩
      show _ ∈ s.shows qe' (.popped i)
      rw [shows_eq hk]
      exact List.mem_singleton_self _

/-- A step of a worker brings it nearer to its `pop_front`, or it has popped. -/
theorem QueueInv.nearer {n : Nat} {ok : GenericThreadPool ι → Ev ι → Prop}
    (h : QueueInv log s l) (hreach : (system ι n).ReachableBy ok s) (hserving : Serving s)
    (hne : l ≠ []) (he : e.IsOf i) (hs : GenericThreadPool.step s e = some s') :
    (s'.workers i).distance < (s.workers i).distance ∨ ∃ o ∈ s.obs e, o.pop ≠ none := by
  have hlist : l.map Prod.fst ≠ [] := by simpa using hne
  cases e with
  | worker j =>
      cases he
      obtain ⟨-, hmove⟩ := workerMove_of_step hs
      cases hmove with
      | @pause tc r hpc hadv =>
          obtain ⟨tc', hpass⟩ := passes_pause hreach hserving.2 i
          rw [hadv] at hpass
          cases hpass
          left
          rw [setWorker_self, hpc]
          decide
      | check hpc =>
          have hrequired : s._tc.stopRequired = false := hserving.1
          left
          rw [setWorker_self, hpc, hrequired]
          decide
      -- at distance zero the step is the pop itself
      | @pop q r hpc hpop =>
          have hpops := (popFront_step h.holds (h.workerAt i) hpop).1
          have hr := popFront_returns h.holds hlist (h.workerAt i) hpop
          right
          simp only [obs, hpc, hpop]
          exact h.shows_pop hpops hne hr
      | run hpc => exact .inl (by rw [setWorker_self, hpc]; exact Nat.lt_succ_self 4)
      | inside hpc => exact .inl (by rw [setWorker_self, hpc]; exact Nat.lt_succ_self 3)
      | delete hpc => exact .inl (by rw [setWorker_self, hpc]; exact Nat.lt_succ_self 2)
      | done hpc => exact absurd hpc (looping_of_reachable hreach hserving.1 i).1
  | timeout j =>
      cases he
      obtain ⟨-, -, q, r, hgive, -⟩ := timeoutStep_some hs
      obtain ⟨hpops, -, -, hr⟩ := giveUp_step h.holds (h.workerAt i) hgive
      right
      simp only [obs, hgive]
      exact h.shows_pop hpops hne (by rintro rfl; cases hr)
  | _ => cases he

-- ============================================================================
-- The queue is popped from
-- ============================================================================

section Runs

variable {n : Nat} {x : Execution (system ι n)} {k k' : Nat}

theorem reachable_at (x : Execution (system ι n)) (k : Nat) :
    (system ι n).Reachable (x.state k) := by
  have hok : x.Meets fun _ _ => True := fun _ _ _ => trivial
  exact Execution.reachable hok k

theorem queueInv_at (x : Execution (system ι n)) (k : Nat) :
    ∃ l, QueueInv (x.log obs k) (x.state k) l := by
  have hok : x.Meets fun _ _ => True := fun _ _ _ => trivial
  exact queueInv_of_traced (Execution.traced hok obs k)

/-- No worker ever goes away. -/
theorem created_mono (x : Execution (system ι n)) (h : k ≤ k') :
    (x.state k).created ≤ (x.state k').created := by
  induction h with
  | refl => exact Nat.le_refl _
  | @step j _ ih =>
      refine Nat.le_trans ih ?_
      cases he : x.event j with
      | none => rw [x.still he]
      | some e => exact created_le_of_step (x.step he)

/-- How many elements have been popped before the moment `k`. -/
def pops (x : Execution (system ι n)) (k : Nat) : Nat := ((x.log obs k).filterMap Obs.pop).length

/-- And how many have been pushed. -/
def pushes (x : Execution (system ι n)) (k : Nat) : Nat :=
  ((x.log obs k).filterMap Obs.push).length

theorem pops_mono (x : Execution (system ι n)) (h : k ≤ k') : pops x k ≤ pops x k' :=
  ((x.log_prefix obs h).sublist.filterMap Obs.pop).length_le

theorem pushes_mono (x : Execution (system ι n)) (h : k ≤ k') : pushes x k ≤ pushes x k' :=
  ((x.log_prefix obs h).sublist.filterMap Obs.push).length_le

theorem pops_lt {o : Obs} (he : x.event k = some e) (ho : o ∈ (x.state k).obs e)
    (hpop : o.pop ≠ none) : pops x k < pops x (k + 1) := by
  have hpos : 0 < (((x.state k).obs e).filterMap Obs.pop).length := by
    obtain ⟨p, hp⟩ := Option.ne_none_iff_exists'.mp hpop
    exact List.length_pos_of_mem (List.mem_filterMap.mpr ⟨o, ho, hp⟩)
  rw [pops, pops, Execution.log_step he, List.filterMap_append, List.length_append]
  omega

/-- **A queue that is not empty is popped from**, from the moment that the pool has a worker and
    no pause and no stop is on. -/
theorem eventually_pops (hfair : x.WeaklyFair (Ev.IsOf i))
    (hserving : ∀ j, k ≤ j → Serving (x.state j)) (hi : i < (x.state k).created)
    (hleft : pops x k < pushes x k) : ∃ k', k ≤ k' ∧ pops x k < pops x k' := by
  -- as long as nothing is popped, the queue is not empty
  have hne : ∀ {j l}, k ≤ j → ¬ pops x k < pops x j → QueueInv (x.log obs j) (x.state j) l →
      l ≠ [] := by
    rintro j l hj hgoal hinv rfl
    have hfifo := congrArg List.length hinv.fifo
    have hpushes := pushes_mono x hj
    simp only [List.append_nil] at hfifo
    have heq : pushes x j = pops x j := hfifo
    omega
  -- the measure is the distance of worker `i`, which nobody else changes
  refine hfair.eventually (fun s => (s.workers i).distance) ?_ ?_ ?_
  · intro j hj _
    obtain ⟨l, hinv⟩ := queueInv_at x j
    obtain ⟨tc, hpass⟩ := passes_pause (reachable_at x j) (hserving j hj).2 i
    exact hinv.enabled (Nat.lt_of_lt_of_le hi (created_mono x hj))
      (looping_of_reachable (reachable_at x j) (hserving j hj).1 i) fun _ => by simp [hpass]
  · intro j e hj hgoal hgoal' he hevent
    obtain ⟨l, hinv⟩ := queueInv_at x j
    rcases hinv.nearer (reachable_at x j) (hserving j hj) (hne hj hgoal hinv) he (x.step hevent)
      with hnearer | ⟨o, ho, hpop⟩
    · exact hnearer
    · have hlt := pops_lt hevent ho hpop
      have hmono := pops_mono x hj
      exact absurd (by omega) hgoal'
  · intro j e hj _ _ he hevent
    obtain ⟨l, hinv⟩ := queueInv_at x j
    rw [hinv.others he (x.step hevent)]

/-- So all that has been pushed is popped. -/
theorem eventually_popped (hfair : x.WeaklyFair (Ev.IsOf i))
    (hserving : ∀ j, k ≤ j → Serving (x.state j)) (hi : i < (x.state k).created) {m : Nat}
    (hm : m ≤ pushes x k) : ∃ k', k ≤ k' ∧ m ≤ pops x k' := by
  induction m with
  | zero => exact ⟨k, Nat.le_refl k, Nat.zero_le _⟩
  | succ m ih =>
      obtain ⟨j, hj, hmj⟩ := ih (by omega)
      by_cases hmore : m < pops x j
      · exact ⟨j, hj, hmore⟩
      · have hpushes := pushes_mono x hj
        obtain ⟨k', hk', hlt⟩ := eventually_pops hfair (fun j' hj' => hserving j' (by omega))
          (Nat.lt_of_lt_of_le hi (created_mono x hj)) (by omega : pops x j < pushes x j)
        exact ⟨k', by omega, by omega⟩

theorem eventually_popped_of_pushed {p : Addr × Nat} (hfair : x.WeaklyFair (Ev.IsOf i))
    (hserving : ∀ j, k ≤ j → Serving (x.state j)) (hi : i < (x.state k).created)
    (hp : p ∈ (x.log obs k).filterMap Obs.push) :
    ∃ k', k ≤ k' ∧ p ∈ (x.log obs k').filterMap Obs.pop := by
  obtain ⟨k', hk', hle⟩ := eventually_popped hfair hserving hi (Nat.le_refl (pushes x k))
  obtain ⟨l, hinv⟩ := queueInv_at x k'
  -- both are the beginnings of what has been pushed by then
  have hpushed := (x.log_prefix obs hk').filterMap Obs.push
  have hpopped : (x.log obs k').filterMap Obs.pop <+: (x.log obs k').filterMap Obs.push :=
    ⟨l, hinv.fifo.symm⟩
  exact ⟨k', hk', (List.prefix_of_prefix_length_le hpushed hpopped hle).subset hp⟩

-- ============================================================================
-- What is popped is run
-- ============================================================================

omit [DecidableEq ι] in
/-- Only what a worker holds is due to have been popped. -/
theorem held_of_popped {p : Place ι} {a qe : Addr} {t : Nat} (h : .popped i qe t ∈ due p a t) :
    ∃ st, p = .held i st ∧ a = qe := by
  rcases p with c | - | ⟨j, st⟩
  · cases h
  · simp [due] at h
  · cases st <;>
    · simp only [due, life, List.take_succ_cons, List.take_zero, List.mem_cons, reduceCtorEq,
        Obs.popped.injEq, and_true, List.not_mem_nil, or_false, false_or] at h
      exact ⟨_, by rw [h.1], h.2.symm⟩

omit [DecidableEq ι] in
/-- A task that the worker `i` has popped: its life is over, or the worker holds it. -/
theorem held_or_over {qe : Addr} {t : Nat} (h : QueueInv log s l) (hpop : .popped i qe t ∈ log) :
    history Obs.task log t = life i qe t ∨ ∃ st, s.workers i = Stage.pc st qe := by
  have hmem : .popped i qe t ∈ history Obs.task log t :=
    List.mem_filter.mpr ⟨hpop, by simp [Obs.task]⟩
  rcases h.custody.located t with hnil | ⟨p, a, hsits, -, hdue⟩ | ⟨j, a, hlife⟩
  · rw [hnil] at hmem
    cases hmem
  · rw [hdue] at hmem
    obtain ⟨st, rfl, rfl⟩ := held_of_popped hmem
    exact .inr ⟨st, hsits⟩
  · rw [hlife] at hmem
    have heq : i = j ∧ qe = a := by simpa [life] using hmem
    obtain ⟨rfl, rfl⟩ := heq
    exact .inl hlife

/-- **What is popped is run to its end and deleted**, by the worker that has popped it. -/
theorem eventually_over {qe : Addr} {t : Nat} (hfair : x.WeaklyFair (Ev.IsOf i))
    (hpop : .popped i qe t ∈ x.log obs k) :
    ∃ k', k ≤ k' ∧ history Obs.task (x.log obs k') t = life i qe t := by
  -- until its life is over, the element is in the hands of `i`
  have hstage : ∀ j, k ≤ j → history Obs.task (x.log obs j) t ≠ life i qe t →
      ∃ st, (x.state j).workers i = Stage.pc st qe := by
    intro j hj hgoal
    obtain ⟨l, hinv⟩ := queueInv_at x j
    exact (held_or_over hinv ((x.log_prefix obs hj).subset hpop)).resolve_left hgoal
  refine hfair.eventually (fun s => (s.workers i).distance) ?_ ?_ ?_
  · intro j hj hgoal
    obtain ⟨st, hpc⟩ := hstage j hj hgoal
    obtain ⟨l, hinv⟩ := queueInv_at x j
    have hi : i < (x.state j).created := by
      by_contra hlate
      rw [hinv.absent i (by omega)] at hpc
      cases st <;> cases hpc
    refine hinv.enabled hi ?_ fun hpause => ?_
    · rw [hpc]
      cases st <;> exact ⟨by simp [Stage.pc], by simp [Stage.pc]⟩
    · rw [hpc] at hpause
      cases st <;> cases hpause
  · -- each of the three stages leads to the next
    intro j e hj hgoal _ he hevent
    obtain ⟨st, hpc⟩ := hstage j hj hgoal
    cases e with
    | worker w =>
        cases he
        obtain ⟨-, hmove⟩ := workerMove_of_step (x.step hevent)
        generalize x.state (j + 1) = s' at hmove
        cases hmove with
        | run hrun => exact (by rw [setWorker_self, hrun]; exact Nat.lt_succ_self 4)
        | inside hinside => exact (by rw [setWorker_self, hinside]; exact Nat.lt_succ_self 3)
        | delete hdelete => exact (by rw [setWorker_self, hdelete]; exact Nat.lt_succ_self 2)
        | _ hother =>
            rw [hpc] at hother
            cases st <;> cases hother
    | timeout w =>
        cases he
        obtain ⟨-, hother, -⟩ := timeoutStep_some (x.step hevent)
        rw [hpc] at hother
        cases st <;> cases hother
    | _ => cases he
  · intro j e hj _ _ he hevent
    obtain ⟨l, hinv⟩ := queueInv_at x j
    rw [hinv.others he (x.step hevent)]

-- ============================================================================
-- The result
-- ============================================================================

/-- **Every function is run.**  In a run that is fair to all workers, from the moment that the
    pool has a worker and neither a pause nor a stop is on: every function that has been
    pushed, or is later, is popped by one worker, run to its end and deleted. -/
theorem functions_run (hfair : ∀ i, x.WeaklyFair (Ev.IsOf i))
    (hserving : ∀ j, k ≤ j → Serving (x.state j)) (hworker : 0 < (x.state k).created) :
    ∀ j qe t, .pushed qe t ∈ x.log obs j →
      ∃ j' i, j ≤ j' ∧ history Obs.task (x.log obs j') t = life i qe t := by
  intro j qe t hpushed
  -- a moment when both the worker and the function are there
  have hpushed' : (qe, t) ∈ (x.log obs (max j k)).filterMap Obs.push := by
    refine List.mem_filterMap.mpr ⟨.pushed qe t, ?_, rfl⟩
    exact (x.log_prefix obs (Nat.le_max_left j k)).subset hpushed
  obtain ⟨j₁, hj₁, hpopped⟩ := eventually_popped_of_pushed (hfair 0)
    (fun j' hj' => hserving j' (by omega))
    (Nat.lt_of_lt_of_le hworker (created_mono x (Nat.le_max_right j k))) hpushed'
  obtain ⟨o, ho, hpop⟩ := List.mem_filterMap.mp hpopped
  cases o with
  | popped i a u =>
      cases hpop
      obtain ⟨j₂, hj₂, hover⟩ := eventually_over (hfair i) ho
      exact ⟨j₂, i, by omega, hover⟩
  | _ => cases hpop

end Runs

-- ============================================================================
-- A pool of one worker
-- ============================================================================

/-- The worker `i` requests no stop and no pause. -/
theorem Serving.own (h : Serving s) (he : e.IsOf i) (hs : GenericThreadPool.step s e = some s') :
    Serving s' ∧ s'.created = s.created := by
  cases e with
  | worker j =>
      obtain ⟨-, hcreated, -, hflag, -⟩ := workerStep_frame hs
      refine ⟨⟨hflag.trans h.1, ?_⟩, hcreated⟩
      obtain ⟨-, hmove⟩ := workerMove_of_step hs
      cases hmove with
      | pause hpc hadv =>
          obtain ⟨x, hx, rfl⟩ := advance_pause hadv
          exact (PausePoint.advance_mPause hx (by simp) (by simp)).trans h.2
      | done hpc hadv =>
          obtain ⟨x, -, rfl⟩ := advance_fanIn hadv
          exact h.2
      | _ => exact h.2
  | timeout j =>
      obtain ⟨-, -, q, r, -, rfl⟩ := timeoutStep_some hs
      exact ⟨h, rfl⟩
  | _ => cases he

/-- A pool of one worker is constructed, a function is pushed, and then the worker goes on as
    long as it can, and gives up its wait where it cannot. -/
def oneWorker (k : Nat) (s : GenericThreadPool Unit) : Option (Ev Unit) :=
  match [.client (), .client (), .client (), .client (), .client (),
    Ev.call () (.pushFunction 16), .client ()][k]? with
  | some e => some e
  | none => if (s.workerStep 0).isSome then some (.worker 0) else some (.timeout 0)

/-- The run of this pool. -/
def oneWorkerRun : Execution (system Unit 1) :=
  System.schedule (s := initial () 1 fun _ => ListHook.unlinked) oneWorker ⟨(), _, rfl⟩

theorem oneWorker_own {k : Nat} {s : GenericThreadPool Unit} {e : Ev Unit} (hk : 7 ≤ k)
    (he : oneWorker k s = some e) : e.IsOf 0 := by
  rw [oneWorker, List.getElem?_eq_none (by simpa using hk)] at he
  simp only at he
  split at he <;> cases he <;> rfl

/-- When the scheduler has nothing to pick, the worker can do nothing. -/
theorem oneWorker_stuck {k : Nat} {s : GenericThreadPool Unit} (hk : 7 ≤ k)
    (h : (system Unit 1).picked oneWorker k s = none) :
    s.workerStep 0 = none ∧ s.timeoutStep 0 = none := by
  rw [System.picked, oneWorker, List.getElem?_eq_none (by simpa using hk)] at h
  simp only at h
  split at h <;> rename_i hstep <;> rw [Option.filter_some] at h
  · exact absurd (h.symm.trans (if_pos hstep)) (by simp)
  · refine ⟨by simpa using hstep, ?_⟩
    by_contra hsome
    exact absurd (h.symm.trans (if_pos (Option.isSome_iff_ne_none.mpr hsome))) (by simp)

theorem oneWorker_serving {k : Nat} (hk : 7 ≤ k) :
    Serving (oneWorkerRun.state k) ∧ (oneWorkerRun.state k).created = 1 := by
  induction hk with
  | refl => exact ⟨⟨rfl, rfl⟩, rfl⟩
  | @step j hj ih =>
      cases he : oneWorkerRun.event j with
      | none => rwa [oneWorkerRun.still he]
      | some e =>
          have hown := oneWorker_own hj (System.schedule_picks oneWorker _ he)
          obtain ⟨hserving, hcreated⟩ := ih.1.own hown (oneWorkerRun.step he)
          exact ⟨hserving, hcreated.trans ih.2⟩

theorem oneWorker_fair (i : Nat) : oneWorkerRun.WeaklyFair (Ev.IsOf i) := by
  intro k
  refine ⟨max k 7, Nat.le_max_left k 7, ?_⟩
  have hcreated := (oneWorker_serving (Nat.le_max_right k 7)).2
  by_cases hi : i = 0
  · subst hi
    cases he : oneWorkerRun.event (max k 7) with
    | some e =>
        have hpicked := System.schedule_picks oneWorker _ he
        exact .inl ⟨e, oneWorker_own (Nat.le_max_right k 7) hpicked, rfl⟩
    | none =>
        right
        obtain ⟨hworker, htimeout⟩ := oneWorker_stuck (Nat.le_max_right k 7) he
        intro e hown
        cases e with
        | worker j =>
            cases hown
            exact hworker
        | timeout j =>
            cases hown
            exact htimeout
        | _ => cases hown
  · right
    intro e hown
    have hlate : ¬ i < (oneWorkerRun.state (max k 7)).created := by omega
    cases e with
    | worker j =>
        cases hown
        exact if_neg hlate
    | timeout j =>
        cases hown
        exact if_neg hlate
    | _ => cases hown

/-- The function that is pushed to it is run. -/
theorem functions_run_one :
    ∃ j i, 7 ≤ j ∧ history Obs.task (oneWorkerRun.log obs j) 0 = life i 16 0 := by
  have hpushed : .pushed 16 0 ∈ oneWorkerRun.log obs 7 := List.mem_singleton_self _
  have hworker : 0 < (oneWorkerRun.state 7).created := Nat.one_pos
  exact functions_run oneWorker_fair (fun j hj => (oneWorker_serving hj).1) hworker 7 16 0 hpushed

end GenericThreadPool
end Fredlib
