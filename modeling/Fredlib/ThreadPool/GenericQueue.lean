/-
  Fredlib.ThreadPool.GenericQueue

  What becomes of the functions pushed to a `GenericThreadPool`.

  A run is logged by what it does with the elements of the queue: they are
  pushed, popped, started, finished and deleted.  Whatever clients and workers
  there are, and in whatever order their steps come, the elements popped so far
  followed by the contents of the queue are the elements pushed so far, and the
  life of every task goes through these five stages in this order, once, with
  one worker and one object (`pool_queue_exactly_once`).
-/

import Fredlib.Lib.Custody
import Fredlib.ThreadPool.GenericThreadPool

namespace Fredlib

open Lib Lib.Monitor ThreadControl IntrusiveSafeList

namespace GenericThreadPool

variable {ι : Type*} [DecidableEq ι]

/-- What a run shows of itself: what is done with the element `qe` and the task
    it holds, by which worker, and who is done. -/
inductive Obs
  | pushed (qe : Addr) (task : Nat)
  | popped (i : Nat) (qe : Addr) (task : Nat)
  | started (i : Nat) (qe : Addr) (task : Nat)
  | finished (i : Nat) (qe : Addr) (task : Nat)
  | deleted (i : Nat) (qe : Addr) (task : Nat)
  | done (i : Nat)
  deriving DecidableEq

/-- The task an observation is about. -/
def Obs.task : Obs → Option Nat
  | .pushed _ k | .popped _ _ k | .started _ _ k | .finished _ _ k | .deleted _ _ k => some k
  | .done _ => none

/-- The elements pushed, with their tasks. -/
def Obs.push : Obs → Option (Addr × Nat)
  | .pushed qe k => some (qe, k)
  | _ => none

/-- The elements popped, with their tasks. -/
def Obs.pop : Obs → Option (Addr × Nat)
  | .popped _ qe k => some (qe, k)
  | _ => none

/-- The task in the element `qe`. -/
def taskOf (s : GenericThreadPool ι) (qe : Addr) : Option Nat :=
  (s.elements qe).map QueueElement.task

/-- An observation about the element `qe`. -/
def shows (s : GenericThreadPool ι) (qe : Addr) (o : Addr → Nat → Obs) : List Obs :=
  ((s.taskOf qe).map (o qe)).toList

/-- What a step of `pop_front` by the worker `i` shows. -/
def showsPop (s : GenericThreadPool ι) (i : Nat) :
    Option (IntrusiveSafeList (Tid ι) × Option (Option Addr)) → List Obs
  | some (_, some (some qe)) => s.shows qe (.popped i)
  | _ => []

/-- What a step shows. -/
def obs (s : GenericThreadPool ι) : Ev ι → List Obs
  | .client c =>
      match s.clients c with
      | .pushing qe => s.shows qe .pushed
      | _ => []
  | .worker i =>
      match s.workers i with
      | .pop => s.showsPop i (s._q.popFront (.worker i) 100)
      | .run qe => s.shows qe (.started i)
      | .inside qe => s.shows qe (.finished i)
      | .delete qe => s.shows qe (.deleted i)
      | .done => [.done i]
      | _ => []
  | .timeout i => s.showsPop i (s._q.giveUp (.worker i))
  | _ => []

/-- The whole life of a task. -/
def life (i : Nat) (qe : Addr) (k : Nat) : List Obs :=
  [.pushed qe k, .popped i qe k, .started i qe k, .finished i qe k, .deleted i qe k]

-- ============================================================================
-- Where an element can be
-- ============================================================================

/-- How far a worker is with the element it has popped. -/
inductive Stage
  | taken
  | running
  | ran

/-- The program counter at a stage. -/
def Stage.pc : Stage → Addr → WorkerPc
  | .taken => .run
  | .running => .inside
  | .ran => .delete

/-- Where an element can be. -/
inductive Place (ι : Type*)
  | pushing (c : ι)
  | queued
  | held (i : Nat) (stage : Stage)

/-- The element `qe` is at the place; `l` is what is in the queue. -/
def Sits (s : GenericThreadPool ι) (l : List (Addr × Nat)) : Place ι → Addr → Prop
  | .pushing c, qe => s.clients c = .pushing qe
  | .queued, qe => qe ∈ l.map Prod.fst
  | .held i stage, qe => s.workers i = stage.pc qe

/-- How much of the life of its task is over when an element is at the place. -/
def due : Place ι → Addr → Nat → List Obs
  | .pushing _, _, _ => []
  | .queued, qe, k => [.pushed qe k]
  | .held i .taken, qe, k => (life i qe k).take 2
  | .held i .running, qe, k => (life i qe k).take 3
  | .held i .ran, qe, k => (life i qe k).take 4

/-- The life of the task `k` is over. -/
def Ended (k : Nat) (h : List Obs) : Prop := ∃ i qe, h = life i qe k

/-- The invariant: `l` is in the queue, with its tasks; the log shows it pushed
    and not popped; every element is at one place; and nobody is inside the list
    but workers that pop. -/
structure QueueInv (log : List Obs) (s : GenericThreadPool ι) (l : List (Addr × Nat)) : Prop where
  holds : s._q.Holds QueueElement.hook (l.map Prod.fst)
  contents : ∀ p ∈ l, s.taskOf p.1 = some p.2
  fifo : log.filterMap Obs.push = log.filterMap Obs.pop ++ l
  custody : Custody Obs.task due Ended (s.Sits l) s.taskOf s.tasks log
  unlinked : ∀ c qe, s.clients c = .pushing qe → s._q.Unlinked QueueElement.hook qe
  clientOut : ∀ c, s._q.list.thr (.client c) = .out
  workerAt : ∀ i w, (s._q.list.thr (.worker i)).waiting = some w → w = .front 100
  absent : ∀ i, s.created ≤ i → s.workers i = .pause

variable {s s' : GenericThreadPool ι} {log : List Obs} {l : List (Addr × Nat)} {i : Nat} {c : ι}

theorem Stage.pc_inj {st st' : Stage} {a b : Addr} (h : st.pc a = st'.pc b) : st = st' ∧ a = b := by
  cases st <;> cases st' <;> cases h <;> exact ⟨rfl, rfl⟩

/-! ## Who sits where after a step -/

omit [DecidableEq ι] in
/-- A worker that holds nothing, before and after. -/
theorem sits_setWorker_idle {pc : WorkerPc} (hold : ∀ st a, s.workers i ≠ Stage.pc st a)
    (hnew : ∀ st a, pc ≠ Stage.pc st a) (p : Place ι) (b : Addr) :
    (s.setWorker i pc).Sits l p b ↔ s.Sits l p b := by
  cases p with
  | pushing d => rfl
  | queued => rfl
  | held j st =>
      simp only [Sits]
      by_cases hji : j = i
      · subst hji
        rw [setWorker_self]
        exact ⟨fun h => absurd h (hnew st b), fun h => absurd h (hold st b)⟩
      · rw [setWorker_of_ne hji]

omit [DecidableEq ι] in
/-- A worker that goes from one stage to the next. -/
theorem sits_setWorker_stage {st st' : Stage} {qe : Addr} (hold : s.workers i = st.pc qe)
    (hlog : Custody Obs.task due Ended (s.Sits l) s.taskOf s.tasks log) (p : Place ι) (b : Addr) :
    (s.setWorker i (st'.pc qe)).Sits l p b ↔
      (p = .held i st' ∧ b = qe) ∨ (b ≠ qe ∧ s.Sits l p b) := by
  have hsits : s.Sits l (.held i st) qe := hold
  -- nobody else has the element
  have hother : ∀ q, q ≠ Place.held i st → s.Sits l q b → b ≠ qe :=
    fun q hq hb => hlog.ne_of_sits hsits hq hb
  cases p with
  | pushing d =>
      simp only [reduceCtorEq, false_and, false_or]
      exact ⟨fun h => ⟨hother (.pushing d) (by simp) h, h⟩, fun h => h.2⟩
  | queued =>
      simp only [reduceCtorEq, false_and, false_or]
      exact ⟨fun h => ⟨hother .queued (by simp) h, h⟩, fun h => h.2⟩
  | held j st₀ =>
      by_cases hji : j = i
      · subst hji
        simp only [Sits, setWorker_self]
        constructor
        · intro h
          obtain ⟨rfl, rfl⟩ := Stage.pc_inj h
          exact .inl ⟨rfl, rfl⟩
        · rintro (⟨heq, rfl⟩ | ⟨hne, h⟩)
          · cases heq
            rfl
          · rw [hold] at h
            exact absurd (Stage.pc_inj h).2.symm hne
      · simp only [Sits, setWorker_of_ne hji]
        constructor
        · intro h
          exact .inr ⟨hother (.held j st₀) (by simp [hji]) h, h⟩
        · rintro (⟨heq, -⟩ | ⟨-, h⟩)
          · cases heq
            exact absurd rfl hji
          · exact h

omit [DecidableEq ι] in
/-- A worker that lets go of its element. -/
theorem sits_setWorker_release {st : Stage} {pc : WorkerPc} {qe : Addr}
    (hold : s.workers i = st.pc qe) (hnew : ∀ st a, pc ≠ Stage.pc st a)
    (hlog : Custody Obs.task due Ended (s.Sits l) s.taskOf s.tasks log) (p : Place ι) (b : Addr) :
    (s.setWorker i pc).Sits l p b ↔ b ≠ qe ∧ s.Sits l p b := by
  have hsits : s.Sits l (.held i st) qe := hold
  have hother : ∀ q, q ≠ Place.held i st → s.Sits l q b → b ≠ qe :=
    fun q hq hb => hlog.ne_of_sits hsits hq hb
  cases p with
  | pushing d => exact ⟨fun h => ⟨hother (.pushing d) (by simp) h, h⟩, fun h => h.2⟩
  | queued => exact ⟨fun h => ⟨hother .queued (by simp) h, h⟩, fun h => h.2⟩
  | held j st₀ =>
      by_cases hji : j = i
      · subst hji
        simp only [Sits, setWorker_self]
        constructor
        · exact fun h => absurd h (hnew st₀ b)
        · rintro ⟨hne, h⟩
          rw [hold] at h
          exact absurd (Stage.pc_inj h).2.symm hne
      · simp only [Sits, setWorker_of_ne hji]
        exact ⟨fun h => ⟨hother (.held j st₀) (by simp [hji]) h, h⟩, fun h => h.2⟩

/-- A client that pushes nothing, before and after. -/
theorem sits_setClient_idle {pc : ClientPc} (hold : ∀ a, s.clients c ≠ .pushing a)
    (hnew : ∀ a, pc ≠ .pushing a) (p : Place ι) (b : Addr) :
    (s.setClient c pc).Sits l p b ↔ s.Sits l p b := by
  cases p with
  | held j st => rfl
  | queued => rfl
  | pushing d =>
      simp only [Sits]
      by_cases hdc : d = c
      · subst hdc
        rw [setClient_self]
        exact ⟨fun h => absurd h (hnew b), fun h => absurd h (hold b)⟩
      · rw [setClient_of_ne hdc]

omit [DecidableEq ι] in
/-- A worker that gets the first element of the queue. -/
theorem sits_setWorker_take {qe : Addr} {k : Nat} (hold : ∀ st a, s.workers i ≠ Stage.pc st a)
    (hnot : qe ∉ l.map Prod.fst)
    (hlog : Custody Obs.task due Ended (s.Sits ((qe, k) :: l)) s.taskOf s.tasks log)
    (p : Place ι) (b : Addr) :
    (s.setWorker i (.run qe)).Sits l p b ↔
      (p = .held i .taken ∧ b = qe) ∨ (b ≠ qe ∧ s.Sits ((qe, k) :: l) p b) := by
  have hqueued : s.Sits ((qe, k) :: l) .queued qe := List.mem_cons_self
  refine hlog.moved_iff hqueued (by simp) ?_ ?_ ?_ p b
  · intro b
    simp only [Sits, setWorker_self]
    constructor
    · intro hb
      have hpc : Stage.taken.pc qe = Stage.taken.pc b := hb
      exact .inl (Stage.pc_inj hpc).2.symm
    · rintro (rfl | hb)
      · rfl
      · exact absurd hb (hold .taken b)
  · intro b
    constructor
    · intro hb
      refine ⟨?_, List.mem_cons_of_mem _ hb⟩
      rintro rfl
      exact hnot hb
    · rintro ⟨hne, hb⟩
      exact (List.mem_cons.mp hb).resolve_left hne
  · intro p b hp hp'
    cases p with
    | pushing d => exact Iff.rfl
    | queued => exact absurd rfl hp
    | held j st =>
        by_cases hji : j = i
        · subst hji
          simp only [Sits, setWorker_self]
          constructor
          · intro hb
            have hpc : Stage.taken.pc qe = st.pc b := hb
            obtain ⟨rfl, -⟩ := Stage.pc_inj hpc
            exact absurd rfl hp'
          · exact fun hb => absurd hb (hold st b)
        · simp only [Sits, setWorker_of_ne hji]

/-- A client whose element has been appended to the queue. -/
theorem sits_setClient_push {qe : Addr} {k : Nat} (hold : s.clients c = .pushing qe)
    (hlog : Custody Obs.task due Ended (s.Sits l) s.taskOf s.tasks log) (p : Place ι) (b : Addr) :
    (s.setClient c .idle).Sits (l ++ [(qe, k)]) p b ↔
      (p = .queued ∧ b = qe) ∨ (b ≠ qe ∧ s.Sits l p b) := by
  have hsits : s.Sits l (.pushing c) qe := hold
  refine hlog.moved_iff hsits (by simp) ?_ ?_ ?_ p b
  · intro b
    simp only [Sits, List.map_append, List.map_cons, List.map_nil, List.mem_append,
      List.mem_singleton]
    exact or_comm
  · intro b
    simp only [Sits, setClient_self, reduceCtorEq, false_iff, not_and]
    intro hne hb
    rw [hold] at hb
    cases hb
    exact hne rfl
  · intro p b hp hp'
    cases p with
    | held j st => exact Iff.rfl
    | queued => exact absurd rfl hp'
    | pushing d =>
        have hdc : d ≠ c := fun hdc => hp (congrArg Place.pushing hdc)
        simp only [Sits, setClient_of_ne hdc]

/-- A client that has a new element, which sat nowhere, on its way. -/
theorem sits_setClient_new {qe : Addr} (hidle : s.clients c = .idle)
    (hnot : ∀ {p : Place ι} {b : Addr}, s.Sits l p b → b ≠ qe) (p : Place ι) (b : Addr) :
    (s.setClient c (.pushing qe)).Sits l p b ↔
      (p = .pushing c ∧ b = qe) ∨ (b ≠ qe ∧ s.Sits l p b) := by
  cases p with
  | held j st =>
      simp only [reduceCtorEq, false_and, false_or]
      exact ⟨fun hb => ⟨hnot (p := .held j st) hb, hb⟩, fun hb => hb.2⟩
  | queued =>
      simp only [reduceCtorEq, false_and, false_or]
      exact ⟨fun hb => ⟨hnot (p := .queued) hb, hb⟩, fun hb => hb.2⟩
  | pushing d =>
      simp only [Sits]
      by_cases hdc : d = c
      · subst hdc
        rw [setClient_self]
        constructor
        · intro hb
          cases hb
          exact .inl ⟨rfl, rfl⟩
        · rintro (⟨-, rfl⟩ | ⟨-, hb⟩)
          · rfl
          · rw [hidle] at hb
            cases hb
      · rw [setClient_of_ne hdc]
        constructor
        · exact fun hb => .inr ⟨hnot (p := .pushing d) hb, hb⟩
        · rintro (⟨heq, -⟩ | ⟨-, hb⟩)
          · cases heq
            exact absurd rfl hdc
          · exact hb

/-! ## The invariant, step by step -/

omit [DecidableEq ι] in
theorem shows_eq {qe : Addr} {k : Nat} (h : s.taskOf qe = some k) (o : Addr → Nat → Obs) :
    s.shows qe o = [o qe k] := by
  simp [shows, h]

theorem push_eq_none {o : Obs} (h : o.task = none) : o.push = none ∧ o.pop = none := by
  cases o <;> first | cases h; done | exact ⟨rfl, rfl⟩

namespace QueueInv

omit [DecidableEq ι] in
/-- A step that moves no element. -/
theorem quiet (h : QueueInv log s l) {obs : List Obs} (hobs : ∀ o ∈ obs, o.task = none)
    (hsits : ∀ p a, s'.Sits l p a ↔ s.Sits l p a) (helements : s'.elements = s.elements)
    (htasks : s'.tasks = s.tasks) (hoffset : s'._q.mOffset = s._q.mOffset)
    (hdata : s'._q.list.data = s._q.list.data)
    (hclient : ∀ c, s'._q.list.thr (.client c) = .out)
    (hworker : ∀ i w, (s'._q.list.thr (.worker i)).waiting = some w → w = .front 100)
    (habsent : ∀ i, s'.created ≤ i → s'.workers i = .pause) :
    QueueInv (log ++ obs) s' l := by
  have htask : s'.taskOf = s.taskOf := by
    funext a
    rw [taskOf, helements]
    rfl
  -- what it shows is neither a push nor a pop
  have hnone : obs.filterMap Obs.push = [] ∧ obs.filterMap Obs.pop = [] :=
    ⟨List.filterMap_eq_nil_iff.mpr fun o ho => (push_eq_none (hobs o ho)).1,
      List.filterMap_eq_nil_iff.mpr fun o ho => (push_eq_none (hobs o ho)).2⟩
  refine ⟨⟨?_, ?_⟩, ?_, ?_, ?_, ?_, hclient, hworker, habsent⟩
  · rw [hoffset]
    exact h.holds.offset
  · rw [hdata]
    exact h.holds.list
  · rw [htask]
    exact h.contents
  · rw [List.filterMap_append, List.filterMap_append, hnone.1, hnone.2, List.append_nil,
      List.append_nil]
    exact h.fifo
  · rw [htask, htasks]
    exact h.custody.quiet hsits hobs
  · intro c qe hc
    have hold : s.Sits l (.pushing c) qe := (hsits _ _).mp hc
    have := h.unlinked c qe hold
    rwa [Unlinked, hdata]

omit [DecidableEq ι] in
/-- The element at a place lives. -/
theorem live (h : QueueInv log s l) {p : Place ι} {qe : Addr} (hp : s.Sits l p qe) :
    ∃ k, s.taskOf qe = some k := by
  obtain ⟨k, hk, -⟩ := h.custody.history p qe hp
  exact ⟨k, hk⟩

omit [DecidableEq ι] in
/-- A worker goes from one stage of its element to the next. -/
theorem stage (h : QueueInv log s l) (st st' : Stage) {qe : Addr} {o : Addr → Nat → Obs}
    (hi : i < s.created) (hold : s.workers i = st.pc qe) (ho : ∀ k, (o qe k).task = some k)
    (hpush : ∀ k, (o qe k).push = none ∧ (o qe k).pop = none)
    (hdue : ∀ k, due (.held i st' : Place ι) qe k = due (.held i st : Place ι) qe k ++ [o qe k]) :
    QueueInv (log ++ s.shows qe o) (s.setWorker i (st'.pc qe)) l := by
  have hsits : s.Sits l (.held i st) qe := hold
  obtain ⟨k, hk⟩ := h.live hsits
  have hmoved := h.custody.move hsits hk (sits_setWorker_stage hold h.custody) (ho k) (hdue k)
  rw [shows_eq hk]
  refine ⟨h.holds, h.contents, ?_, hmoved, h.unlinked, h.clientOut, h.workerAt, ?_⟩
  · rw [List.filterMap_append, List.filterMap_append]
    -- what a stage shows is not a matter of the queue
    simp only [List.filterMap_cons, (hpush k).1, (hpush k).2, List.filterMap_nil, List.append_nil]
    exact h.fifo
  · intro j hj
    have hji : j ≠ i := by
      have hj' : s.created ≤ j := hj
      omega
    rw [setWorker_of_ne hji]
    exact h.absent j hj

omit [DecidableEq ι] in
/-- Moving one worker keeps the threads yet to come at the start. -/
theorem absent_setWorker (h : QueueInv log s l) {pc : WorkerPc} (hi : i < s.created)
    {j : Nat} (hj : s.created ≤ j) : (s.setWorker i pc).workers j = .pause := by
  rw [setWorker_of_ne (by omega)]
  exact h.absent j hj

omit [DecidableEq ι] in
/-- A worker deletes its element. -/
theorem delete (h : QueueInv log s l) {qe : Addr} (hi : i < s.created)
    (hold : s.workers i = .delete qe) :
    QueueInv (log ++ s.shows qe (.deleted i))
      ({ s with elements := Function.update s.elements qe none }.setWorker i .pause) l := by
  have hpc : s.workers i = Stage.ran.pc qe := hold
  have hsits : s.Sits l (.held i .ran) qe := hold
  obtain ⟨k, hk⟩ := h.live hsits
  have hnew : ∀ st a, WorkerPc.pause ≠ Stage.pc st a := by
    rintro (_ | _ | _) a <;> simp [Stage.pc]
  have hreleased := h.custody.release (o := .deleted i qe k) hsits hk
    (sits_setWorker_release hpc hnew h.custody) rfl ⟨i, qe, rfl⟩
  have htask : ({ s with elements := Function.update s.elements qe none }.setWorker i
      .pause).taskOf = Function.update s.taskOf qe none := by
    funext a
    by_cases ha : a = qe
    · subst ha
      simp [taskOf, setWorker]
    · simp [taskOf, setWorker, ha]
  -- the element is with the worker, so it is not in the queue
  have hout : ∀ p ∈ l, p.1 ≠ qe := by
    rintro p hp rfl
    have hq : s.Sits l .queued p.1 := List.mem_map_of_mem hp
    cases h.custody.unique _ _ _ hq hsits
  rw [shows_eq hk]
  refine ⟨h.holds, ?_, ?_, ?_, h.unlinked, h.clientOut, h.workerAt, ?_⟩
  · intro p hp
    rw [htask, Function.update_of_ne (hout p hp)]
    exact h.contents p hp
  · rw [List.filterMap_append, List.filterMap_append]
    simp only [List.filterMap_cons, Obs.push, Obs.pop, List.filterMap_nil, List.append_nil]
    exact h.fifo
  · rw [htask]
    exact hreleased
  · exact fun j hj => h.absent_setWorker (s := s) hi hj

omit [DecidableEq ι] in
/-- A worker gets the first element of the queue. -/
theorem of_pop_first {qe : Addr} {k : Nat} (h : QueueInv log s ((qe, k) :: l))
    {q : IntrusiveSafeList (Tid ι)} (hi : i < s.created)
    (hidle : ∀ st a, s.workers i ≠ Stage.pc st a)
    (hholds : q.Holds QueueElement.hook (l.map Prod.fst))
    (hothers : ∀ b, b ∉ qe :: l.map Prod.fst → s._q.Unlinked QueueElement.hook b →
      q.Unlinked QueueElement.hook b)
    (hclient : ∀ c, q.list.thr (.client c) = .out)
    (hworker : ∀ j w, (q.list.thr (.worker j)).waiting = some w → w = .front 100) :
    QueueInv (log ++ s.shows qe (.popped i)) ({ s with _q := q }.setWorker i (.run qe)) l := by
  have hk : s.taskOf qe = some k := h.contents _ List.mem_cons_self
  have hnot : qe ∉ l.map Prod.fst := by
    have hnd := h.holds.nodup
    rw [List.map_cons, List.nodup_cons] at hnd
    exact hnd.1
  have hqueued : s.Sits ((qe, k) :: l) .queued qe := List.mem_cons_self
  have hdue : due (.held i .taken : Place ι) qe k =
      due (.queued : Place ι) qe k ++ [.popped i qe k] := rfl
  have hsits := sits_setWorker_take (s := { s with _q := q }) hidle hnot h.custody
  rw [shows_eq hk]
  refine ⟨hholds, fun p hp => h.contents p (List.mem_cons_of_mem _ hp), ?_,
    h.custody.move hqueued hk hsits rfl hdue, ?_, hclient, hworker,
    fun j hj => h.absent_setWorker (s := s) hi hj⟩
  · rw [List.filterMap_append, List.filterMap_append, h.fifo]
    simp [Obs.push, Obs.pop]
  · -- what a client is about to push is not in the queue, so the pop has not touched it
    intro c b hc
    refine hothers b (fun hmem => ?_) (h.unlinked c b hc)
    have hb : s.Sits ((qe, k) :: l) .queued b := hmem
    have hb' : s.Sits ((qe, k) :: l) (.pushing c) b := hc
    cases h.custody.unique _ _ _ hb hb'

omit [DecidableEq ι] in
/-- A step of a pop by a worker: it waits on, gives up, or gets the first element. -/
theorem of_pop_step (h : QueueInv log s l) {q : IntrusiveSafeList (Tid ι)}
    {r : Option (Option Addr)}
    (hi : i < s.created) (hpc : s.workers i = .pop)
    (hpops : Pops QueueElement.hook s._q q (l.map Prod.fst) r)
    (hoffset : q.mOffset = s._q.mOffset)
    (hframe : ∀ t, t ≠ .worker i → (q.list.thr t).waiting = (s._q.list.thr t).waiting)
    (hat : ∀ w, (q.list.thr (.worker i)).waiting = some w → w = .front 100) :
    ∃ l', QueueInv (log ++ s.showsPop i (some (q, r)))
      ({ s with _q := q }.setWorker i (afterPop r)) l' := by
  -- a worker that pops holds nothing yet
  have hidle : ∀ st a, s.workers i ≠ Stage.pc st a := by
    intro st a
    rw [hpc]
    cases st <;> simp [Stage.pc]
  have hclient : ∀ c, q.list.thr (.client c) = .out := by
    intro c
    exact (Status.out_iff (hframe _ (by simp))).mpr (h.clientOut c)
  have hworker : ∀ j w, (q.list.thr (.worker j)).waiting = some w → w = .front 100 := by
    intro j w hw
    by_cases hji : j = i
    · subst hji
      exact hat w hw
    · rw [hframe _ (by simpa using hji)] at hw
      exact h.workerAt j w hw
  have hquiet : ∀ pc, (∀ st a, pc ≠ Stage.pc st a) → q.list.data = s._q.list.data →
      QueueInv (log ++ []) ({ s with _q := q }.setWorker i pc) l := by
    intro pc hnew hdata
    refine h.quiet (by simp) (sits_setWorker_idle (s := { s with _q := q }) hidle hnew) rfl rfl
      hoffset hdata hclient hworker fun j hj => h.absent_setWorker (s := s) hi hj
  -- it sleeps on, times out, or gets the first element
  match r, hpops with
  | none, hdata => exact ⟨l, hquiet .pop (by rintro (_ | _ | _) a <;> simp [Stage.pc]) hdata⟩
  | some none, ⟨_, hdata⟩ =>
      exact ⟨l, hquiet .pause (by rintro (_ | _ | _) a <;> simp [Stage.pc]) hdata⟩
  | some (some qe), ⟨s', hs', hholds, hothers⟩ =>
      obtain ⟨⟨qe, k⟩, l', rfl, rfl, rfl⟩ := List.map_eq_cons_iff.mp hs'
      exact ⟨l', h.of_pop_first hi hidle hholds hothers hclient hworker⟩

/-- The program counters of a worker that holds no element. -/
theorem idle_pc {pc : WorkerPc} (h : pc = .pause ∨ pc = .check ∨ pc = .pop ∨ pc = .done ∨
    pc = .exited) (st : Stage) (a : Addr) : pc ≠ st.pc a := by
  rcases h with rfl | rfl | rfl | rfl | rfl <;> cases st <;> simp [Stage.pc]

/-- Every step of a worker keeps the invariant. -/
theorem worker (h : QueueInv log s l) (hs : s.workerStep i = some s') :
    ∃ l', QueueInv (log ++ s.obs (.worker i)) s' l' := by
  obtain ⟨hi, hmove⟩ := workerMove_of_step hs
  -- a step between two program counters that hold nothing
  have hquiet : ∀ {obs : List Obs} {pc : WorkerPc} (tc : ThreadControl (Tid ι)),
      (∀ o ∈ obs, o.task = none) → (∀ st a, s.workers i ≠ Stage.pc st a) →
      (∀ st a, pc ≠ Stage.pc st a) →
      QueueInv (log ++ obs) ({ s with _tc := tc }.setWorker i pc) l := by
    intro obs pc tc hobs hold hnew
    exact h.quiet hobs (sits_setWorker_idle (s := { s with _tc := tc }) hold hnew) rfl rfl rfl rfl
      h.clientOut h.workerAt fun j hj => h.absent_setWorker (s := s) hi hj
  cases hmove with
  | @pause tc r hpc hadv =>
      simp only [obs, hpc]
      refine ⟨l, hquiet tc (by simp) (fun st a => idle_pc (.inl hpc) st a) (idle_pc ?_)⟩
      cases r <;> simp
  | check hpc =>
      simp only [obs, hpc]
      refine ⟨l, hquiet s._tc (by simp) (fun st a => idle_pc (.inr (.inl hpc)) st a)
        (idle_pc ?_)⟩
      split <;> simp
  -- the only step that moves an element out of the queue
  | @pop q r hpc hpop =>
      obtain ⟨hpops, hframe, -, hat⟩ := popFront_step h.holds (h.workerAt i) hpop
      have hoffset : q.mOffset = s._q.mOffset := by
        simp only [popFront, Option.map_eq_some_iff, Prod.mk.injEq] at hpop
        obtain ⟨_, _, rfl, _⟩ := hpop
        rfl
      simp only [obs, hpc, hpop]
      exact h.of_pop_step hi hpc hpops hoffset hframe hat
  | @run qe e hpc he =>
      simp only [obs, hpc]
      exact ⟨l, h.stage .taken .running hi hpc (fun _ => rfl)
        (fun _ => ⟨rfl, rfl⟩) fun _ => rfl⟩
  | @inside qe hpc =>
      simp only [obs, hpc]
      exact ⟨l, h.stage .running .ran hi hpc (fun _ => rfl)
        (fun _ => ⟨rfl, rfl⟩) fun _ => rfl⟩
  | @delete qe e hpc he =>
      simp only [obs, hpc]
      exact ⟨l, h.delete hi hpc⟩
  | @done tc r hpc hadv =>
      simp only [obs, hpc]
      refine ⟨l, hquiet tc (by simp [Obs.task])
        (fun st a => idle_pc (.inr (.inr (.inr (.inl hpc)))) st a) (idle_pc (by simp))⟩

theorem timeout (h : QueueInv log s l) (hs : s.timeoutStep i = some s') :
    ∃ l', QueueInv (log ++ s.obs (.timeout i)) s' l' := by
  obtain ⟨hi, hpc, q, r, hgive, rfl⟩ := timeoutStep_some hs
  obtain ⟨hpops, hframe, hout, -⟩ := giveUp_step h.holds (h.workerAt i) hgive
  have hoffset : q.mOffset = s._q.mOffset := by
    simp only [giveUp, Option.map_eq_some_iff, Prod.mk.injEq] at hgive
    obtain ⟨_, _, rfl, _⟩ := hgive
    rfl
  simp only [obs, hgive]
  refine h.of_pop_step hi hpc hpops hoffset hframe fun w hw => ?_
  rw [hout] at hw
  cases hw

/-- A step of a client that pushes nothing. -/
theorem idleClient (h : QueueInv log s l) (s' : GenericThreadPool ι) {pc : ClientPc}
    (hold : ∀ a, s.clients c ≠ .pushing a) (hnew : ∀ a, pc ≠ .pushing a)
    (helements : s'.elements = s.elements) (htasks : s'.tasks = s.tasks) (hq : s'._q = s._q)
    (hclients : s'.clients = s.clients) (hworkers : s'.workers = s.workers)
    (habsent : s.created ≤ s'.created) :
    QueueInv (log ++ []) (s'.setClient c pc) l := by
  have hsits : ∀ p a, s'.Sits l p a ↔ s.Sits l p a := by
    intro p a
    cases p <;> simp only [Sits, hclients, hworkers]
  refine h.quiet (by simp) (fun p a => ?_) helements htasks (by simp [setClient, hq])
    (by simp [setClient, hq]) (by simpa [setClient, hq] using h.clientOut)
    (by simpa [setClient, hq] using h.workerAt) ?_
  · rw [sits_setClient_idle (by simpa [hclients] using hold) hnew, hsits]
  · intro j hj
    have hj' : s'.created ≤ j := hj
    show s'.workers j = .pause
    rw [hworkers]
    exact h.absent j (by omega)

/-- The loop over `_add_thread` touches neither queue nor clients nor workers
    already there. -/
theorem add_frame (h : QueueInv log s l) {left : Nat} {pc : AddPc} {r : Option (Nat × AddPc)}
    (hadd : AddMove s c left pc s' r) :
    s'.elements = s.elements ∧ s'.tasks = s.tasks ∧ s'._q = s._q ∧ s'.clients = s.clients ∧
      s'.workers = s.workers ∧ s.created ≤ s'.created := by
  cases hadd with
  | finish => exact ⟨rfl, rfl, rfl, rfl, rfl, Nat.le_refl _⟩
  | emplace =>
      refine ⟨rfl, rfl, rfl, rfl, ?_, Nat.le_succ _⟩
      have hstart := h.absent s.created (Nat.le_refl _)
      show Function.update s.workers s.created .pause = s.workers
      rw [← hstart, Function.update_eq_self]
  | announce hadv => exact ⟨rfl, rfl, rfl, rfl, rfl, Nat.le_refl _⟩

/-- A client appends its element. -/
theorem push (h : QueueInv log s l) {qe : Addr} {q : IntrusiveSafeList (Tid ι)}
    (hpc : s.clients c = .pushing qe)
    (hpush : s._q.pushBack QueueElement.hook (.client c) qe = some q) :
    ∃ l', QueueInv (log ++ s.shows qe .pushed) ({ s with _q := q }.setClient c .idle) l' := by
  have hsits : s.Sits l (.pushing c) qe := hpc
  obtain ⟨k, hk⟩ := h.live hsits
  -- custody gives `push_back` its precondition: the object is in no list
  have hother : ∀ p b, p ≠ Place.pushing c → s.Sits l p b → b ≠ qe :=
    fun p b hp hb => h.custody.ne_of_sits hsits hp hb
  have hnot : qe ∉ l.map Prod.fst := fun hmem => hother .queued qe (by simp) hmem rfl
  obtain ⟨hholds, hothers, hframe, hout⟩ :=
    pushBack_step h.holds hnot (h.unlinked c qe hpc) (h.clientOut c) hpush
  rw [shows_eq hk]
  refine ⟨l ++ [(qe, k)], ?_, ?_, ?_, ?_, ?_, ?_, ?_, h.absent⟩
  · rw [List.map_append]
    exact hholds
  · intro p hp
    rcases List.mem_append.mp hp with hp | hp
    · exact h.contents p hp
    · rw [List.mem_singleton.mp hp]
      exact hk
  · rw [List.filterMap_append, List.filterMap_append, h.fifo]
    simp [Obs.push, Obs.pop]
  · have hdue : due (.queued : Place ι) qe k = due (.pushing c) qe k ++ [.pushed qe k] := rfl
    exact h.custody.move hsits hk (sits_setClient_push (s := { s with _q := q }) hpc h.custody) rfl
      hdue
  · intro d b hd
    by_cases hdc : d = c
    · subst hdc
      rw [setClient_self] at hd
      cases hd
    · rw [setClient_of_ne hdc] at hd
      have hb : b ≠ qe := hother (.pushing d) b (by simpa using hdc) hd
      -- what another client is about to push is another object, and unlinked still
      refine hothers b (fun hmem => ?_) hb (h.unlinked d b hd)
      have hq : s.Sits l .queued b := hmem
      have hp : s.Sits l (.pushing d) b := hd
      cases h.custody.unique _ _ _ hq hp
  · intro d
    by_cases hdc : d = c
    · subst hdc
      exact hout
    · exact (Status.out_iff (hframe _ (by simpa using hdc))).mpr (h.clientOut d)
  · intro j w hw
    have hw' : (q.list.thr (.worker j)).waiting = some w := hw
    rw [hframe _ (by simp)] at hw'
    exact h.workerAt j w hw'

/-- Every step of a client inside a call keeps the invariant. -/
theorem client (h : QueueInv log s l) (hs : s.clientStep c = some s') :
    ∃ l', QueueInv (log ++ s.obs (.client c)) s' l' := by
  cases clientMove_of_step hs with
  | @construct left left' pc pc' s₁ hpc hadd =>
      obtain ⟨he, ht, hq, hc, hw, hcr⟩ := h.add_frame hadd
      simp only [obs, hpc]
      exact ⟨l, h.idleClient s₁ (by simp [hpc]) (by simp) he ht hq hc hw hcr⟩
  | @built left pc s₁ hpc hadd =>
      obtain ⟨he, ht, hq, hc, hw, hcr⟩ := h.add_frame hadd
      simp only [obs, hpc]
      exact ⟨l, h.idleClient { s₁ with built := true } (by simp [hpc]) (by simp) he ht hq hc
        hw hcr⟩
  | @add left left' pc pc' s₁ hpc hadd =>
      obtain ⟨he, ht, hq, hc, hw, hcr⟩ := h.add_frame hadd
      simp only [obs, hpc]
      exact ⟨l, h.idleClient s₁ (by simp [hpc]) (by simp) he ht hq hc hw hcr⟩
  | @added left pc s₁ hpc hadd =>
      obtain ⟨he, ht, hq, hc, hw, hcr⟩ := h.add_frame hadd
      simp only [obs, hpc]
      exact ⟨l, h.idleClient { s₁ with _muThreadPool := none } (by simp [hpc]) (by simp) he
        ht hq hc hw hcr⟩
  -- the only step of a client that moves an element
  | @push qe q hpc hpush =>
      simp only [obs, hpc]
      exact h.push hpc hpush
  | @pause tc r hpc hadv =>
      simp only [obs, hpc]
      exact ⟨l, h.idleClient { s with _tc := tc } (by simp [hpc]) (by cases r <;> simp) rfl
        rfl rfl rfl rfl (Nat.le_refl _)⟩
  | @resume tc r hpc hadv =>
      simp only [obs, hpc]
      exact ⟨l, h.idleClient { s with _tc := tc } (by simp [hpc]) (by cases r <;> simp) rfl
        rfl rfl rfl rfl (Nat.le_refl _)⟩
  | stopNum hpc hmu =>
      simp only [obs, hpc]
      refine ⟨l, h.idleClient s (by simp [hpc]) ?_ rfl rfl rfl rfl rfl (Nat.le_refl _)⟩
      split <;> simp
  | stopSet hpc =>
      simp only [obs, hpc]
      exact ⟨l, h.idleClient { s with _tc := s._tc.requestStop } (by simp [hpc]) (by simp)
        rfl rfl rfl rfl rfl (Nat.le_refl _)⟩
  | @stopWait tc r hpc hadv =>
      simp only [obs, hpc]
      exact ⟨l, h.idleClient { s with _tc := tc } (by simp [hpc]) (by cases r <;> simp) rfl
        rfl rfl rfl rfl (Nat.le_refl _)⟩
  | join hpc hj hexited =>
      simp only [obs, hpc]
      exact ⟨l, h.idleClient s (by simp [hpc]) (by simp) rfl rfl rfl rfl rfl (Nat.le_refl _)⟩
  | joined hpc hj =>
      simp only [obs, hpc]
      exact ⟨l, h.idleClient s (by simp [hpc]) (by simp) rfl rfl rfl rfl rfl (Nat.le_refl _)⟩
  | stopClear hpc hmu =>
      simp only [obs, hpc]
      exact ⟨l, h.idleClient { s with _vecThreads := [] } (by simp [hpc]) (by simp) rfl rfl
        rfl rfl rfl (Nat.le_refl _)⟩

/-- A client allocates an element and is about to append it. -/
theorem allocate (h : QueueInv log s l) {qe : Addr} (hidle : s.clients c = .idle)
    (hfree : s.elements qe = none) :
    QueueInv log ({ s with
      elements := Function.update s.elements qe (some { task := s.tasks })
      tasks := s.tasks + 1
      _q := s._q.constructHook QueueElement.hook qe }.setClient c (.pushing qe)) l := by
  -- `new` gives an object that does not live: nobody holds it, and it is not queued
  have hdead : s.taskOf qe = none := by rw [taskOf, hfree]; rfl
  have hnot : ∀ {p : Place ι} {b : Addr}, s.Sits l p b → b ≠ qe := by
    rintro p b hb rfl
    obtain ⟨k, hk⟩ := h.live hb
    rw [hdead] at hk
    cases hk
  have hout : qe ∉ l.map Prod.fst := by
    intro hmem
    have hq : s.Sits l .queued qe := hmem
    exact hnot hq rfl
  have htask : ({ s with
      elements := Function.update s.elements qe (some { task := s.tasks })
      tasks := s.tasks + 1
      _q := s._q.constructHook QueueElement.hook qe }.setClient c (.pushing qe)).taskOf =
        Function.update s.taskOf qe (some s.tasks) := by
    funext a
    by_cases ha : a = qe
    · subst ha
      simp [taskOf, setClient]
    · simp [taskOf, setClient, ha]
  refine ⟨h.holds.constructHook hout, ?_, h.fifo, ?_, ?_, h.clientOut, h.workerAt, h.absent⟩
  · intro p hp
    have hne : p.1 ≠ qe := fun heq => hout (heq ▸ List.mem_map_of_mem hp)
    rw [htask, Function.update_of_ne hne]
    exact h.contents p hp
  · rw [htask]
    exact h.custody.allocate hdead (sits_setClient_new hidle hnot) rfl
  · intro d b hd
    by_cases hdc : d = c
    · subst hdc
      rw [setClient_self] at hd
      cases hd
      simp [Unlinked, setClient, IntrusiveSafeList.constructHook]
    · rw [setClient_of_ne hdc] at hd
      have hne : b ≠ qe := hnot (p := .pushing d) hd
      -- the constructor writes the hook of the new object only
      have hne' : getHook QueueElement.hook b ≠ getHook QueueElement.hook qe :=
        fun heq => hne (getHook_injective _ heq)
      have hold := h.unlinked d b hd
      simp only [Unlinked, setClient, IntrusiveSafeList.constructHook,
        Function.update_of_ne hne'] at hold ⊢
      exact hold

/-- Every call keeps the invariant. -/
theorem call (h : QueueInv log s l) {op : Call} (hs : s.callStep c op = some s') :
    ∃ l', QueueInv (log ++ s.obs (.call c op)) s' l' := by
  obtain ⟨-, hidle, hmove⟩ := callMove_of_step hs
  have hnot : ∀ a, s.clients c ≠ .pushing a := by simp [hidle]
  simp only [obs]
  cases hmove with
  | @pushFunction qe hfree =>
      rw [List.append_nil]
      exact ⟨l, h.allocate hidle hfree⟩
  | addThread hmu =>
      exact ⟨l, h.idleClient { s with _muThreadPool := some c } hnot (by simp) rfl rfl rfl rfl rfl
        (Nat.le_refl _)⟩
  | pause => exact ⟨l, h.idleClient s hnot (by simp) rfl rfl rfl rfl rfl (Nat.le_refl _)⟩
  | resume => exact ⟨l, h.idleClient s hnot (by simp) rfl rfl rfl rfl rfl (Nat.le_refl _)⟩
  | stop => exact ⟨l, h.idleClient s hnot (by simp) rfl rfl rfl rfl rfl (Nat.le_refl _)⟩

/-- Every step of the pool keeps the invariant. -/
theorem step {e : Ev ι} (h : QueueInv log s l) (hs : GenericThreadPool.step s e = some s') :
    ∃ l', QueueInv (log ++ s.obs e) s' l' := by
  cases e with
  | call c op => exact h.call hs
  | client c => exact h.client hs
  | worker i => exact h.worker hs
  | timeout i => exact h.timeout hs
  | spuriousTc b t =>
      simp only [GenericThreadPool.step, Option.map_eq_some_iff] at hs
      obtain ⟨tc, -, rfl⟩ := hs
      refine ⟨l, h.quiet (by simp [obs]) (fun p a => ?_) rfl rfl rfl rfl h.clientOut h.workerAt
        h.absent⟩
      cases p <;> rfl
  | spuriousQ t =>
      simp only [GenericThreadPool.step, Option.map_eq_some_iff, IntrusiveSafeList.spurious] at hs
      obtain ⟨q, ⟨cfg, hsp, rfl⟩, rfl⟩ := hs
      obtain ⟨hdata, hwaiting⟩ := spurious_frame hsp
      -- waking up moves nobody out of the list and changes none of its data
      refine ⟨l, h.quiet (by simp [obs]) (fun p a => ?_) rfl rfl rfl hdata ?_ ?_ h.absent⟩
      · cases p <;> rfl
      · intro c
        exact (Status.out_iff (hwaiting _)).mpr (h.clientOut c)
      · intro i w hw
        have hw' : (cfg.thr (.worker i)).waiting = some w := hw
        rw [hwaiting] at hw'
        exact h.workerAt i w hw'

end QueueInv

theorem queueInv_of_init {n : Nat} (h : (system ι n).init s) : QueueInv [] s [] := by
  obtain ⟨c, heap, rfl⟩ := h
  refine ⟨.create _ heap, fun p hp => (by cases hp), rfl, ?_, ?_, fun _ => rfl, ?_, fun _ _ => rfl⟩
  · refine .init ?_ fun _ => rfl
    rintro (d | _ | ⟨i, st⟩) a hsits
    · by_cases hdc : d = c
      · subst hdc
        simp [Sits, initial] at hsits
      · simp [Sits, initial, hdc] at hsits
    · cases hsits
    · cases st <;> cases hsits
  · intro d a hd
    by_cases hdc : d = c
    · subst hdc
      simp [initial] at hd
    · simp [initial, hdc] at hd
  · intro i w hw
    cases hw

theorem queueInv_of_traced {n : Nat} {ok : GenericThreadPool ι → Ev ι → Prop}
    (h : (system ι n).Traced ok obs log s) : ∃ l, QueueInv log s l := by
  refine h.invariant (P := fun log s => ∃ l, QueueInv log s l)
    (fun s hs => ⟨[], queueInv_of_init hs⟩) ?_
  rintro log s e s' - ⟨l, hinv⟩ - hs
  exact hinv.step hs

-- ============================================================================
-- The result
-- ============================================================================

omit [DecidableEq ι] in
/-- What the log shows of a task is the beginning of a life. -/
theorem QueueInv.history_begins (h : QueueInv log s l) (k : Nat) :
    ∃ i qe, history Obs.task log k <+: life i qe k := by
  rcases h.custody.stages k with hnil | ⟨p, a, hdue⟩ | ⟨i, qe, hlife⟩
  · exact ⟨0, 0, by rw [hnil]; exact List.nil_prefix⟩
  · rw [hdue]
    cases p with
    | pushing d => exact ⟨0, a, List.nil_prefix⟩
    | queued => exact ⟨0, a, ⟨_, rfl⟩⟩
    | held i st =>
        refine ⟨i, a, ?_⟩
        cases st <;> exact List.take_prefix _ _
  · exact ⟨i, qe, by rw [hlife]⟩

/-- An observation that is a push is about the task pushed. -/
theorem task_of_push {o : Obs} {p : Addr × Nat} (h : o.push = some p) : o.task = some p.2 := by
  cases o <;> cases h
  rfl

/-- The pushes of one task are those in its history. -/
theorem count_pushes (log : List Obs) (k : Nat) :
    ((log.filterMap Obs.push).map Prod.snd).count k =
      ((history Obs.task log k).filterMap Obs.push).length := by
  induction log with
  | nil => rfl
  | cons o log ih =>
      unfold history at ih ⊢
      cases hpush : o.push with
      | none =>
          rw [List.filterMap_cons_none hpush, ih]
          by_cases hk : o.task = some k
          · rw [List.filter_cons_of_pos (by simpa using hk), List.filterMap_cons_none hpush]
          · rw [List.filter_cons_of_neg (by simpa using hk)]
      | some p =>
          have htask := task_of_push hpush
          rw [List.filterMap_cons_some hpush, List.map_cons]
          by_cases hk : p.2 = k
          · rw [List.filter_cons_of_pos (by simp [htask, hk]), List.filterMap_cons_some hpush,
              List.length_cons, hk, List.count_cons_self, ih]
          · rw [List.filter_cons_of_neg (by simp [htask, hk]),
              List.count_cons_of_ne hk, ih]

/-- **No queued function is lost, duplicated or reordered.**  In every run, by
    any clients and workers: the elements popped so far and then those in the
    queue are the elements pushed, in the order of their `push_back`, none
    twice; and what the run has done with a task is the beginning of: pushed,
    popped by one worker, started, finished and deleted by it, all of it with
    the same object.  No worker is about to use an object already deleted. -/
theorem pool_queue_exactly_once {n : Nat}
    (h : (system ι n).Traced (fun _ _ => True) obs log s) :
    (∃ l : List (Addr × Nat), s._q.Holds QueueElement.hook (l.map Prod.fst) ∧
      (∀ p ∈ l, s.elements p.1 = some { task := p.2 }) ∧
      log.filterMap Obs.push = log.filterMap Obs.pop ++ l) ∧
    ((log.filterMap Obs.push).map Prod.snd).Nodup ∧
    (∀ k, ∃ i qe, (log.filter fun o => o.task = some k) <+: life i qe k) ∧
    ∀ i qe, s.workers i = .run qe ∨ s.workers i = .inside qe ∨ s.workers i = .delete qe →
      s.elements qe ≠ none := by
  obtain ⟨l, hinv⟩ := queueInv_of_traced h
  refine ⟨⟨l, hinv.holds, ?_, hinv.fifo⟩, ?_, hinv.history_begins, ?_⟩
  · intro p hp
    have htask := hinv.contents p hp
    simp only [taskOf, Option.map_eq_some_iff] at htask
    obtain ⟨e, he, hk⟩ := htask
    rw [he, ← hk]
  · rw [List.nodup_iff_count_le_one]
    intro k
    obtain ⟨i, qe, hbegins⟩ := hinv.history_begins k
    -- a life holds one push, and the history is a beginning of it
    rw [count_pushes]
    have hsub := (hbegins.sublist.filterMap Obs.push).length_le
    have hlife : (life i qe k).filterMap Obs.push = [(qe, k)] := rfl
    rwa [hlife] at hsub
  · rintro i qe hheld hnone
    -- what a worker holds lives
    have hsits : ∃ st, s.Sits l (.held i st) qe := by
      rcases hheld with hpc | hpc | hpc
      · exact ⟨.taken, hpc⟩
      · exact ⟨.running, hpc⟩
      · exact ⟨.ran, hpc⟩
    obtain ⟨st, hst⟩ := hsits
    obtain ⟨k, hk⟩ := hinv.live hst
    rw [taskOf, hnone] at hk
    cases hk

/-- A pool of one worker: a function is pushed, popped, run and deleted. -/
theorem pool_queue_exactly_once_life :
    ∃ s : GenericThreadPool Unit, (life 0 16 0).filterMap Obs.push =
        (life 0 16 0).filterMap Obs.pop ∧ s._q.Holds QueueElement.hook [] ∧
        s.elements 16 = none := by
  have hinit : (system Unit 1).init (initial () 1 fun _ => ListHook.unlinked) := ⟨(), _, rfl⟩
  have hrun : ∃ s, (system Unit 1).Traced (fun _ _ => True) obs (life 0 16 0) s ∧
      s.elements 16 = none :=
    ⟨_, ((((((((((((((System.Traced.init hinit).step (e := .client ()) trivial rfl).step
      (e := .client ()) trivial rfl).step
      (e := .client ()) trivial rfl).step
      (e := .client ()) trivial rfl).step
      (e := .client ()) trivial rfl).step
      (e := .call () (.pushFunction 16)) trivial rfl).step
      (e := .client ()) trivial rfl).step
      (e := .worker 0) trivial rfl).step
      (e := .worker 0) trivial rfl).step
      (e := .worker 0) trivial rfl).step
      (e := .worker 0) trivial rfl).step
      (e := .worker 0) trivial rfl).step
      (e := .worker 0) trivial rfl), rfl⟩
  obtain ⟨s, hs, hgone⟩ := hrun
  obtain ⟨⟨l, hholds, -, hfifo⟩, -⟩ := pool_queue_exactly_once hs
  have hl : l = [] := by
    have : (life 0 16 0).filterMap Obs.pop = (life 0 16 0).filterMap Obs.push := rfl
    rw [← this] at hfifo
    simpa using hfifo
  exact ⟨s, rfl, by simpa [hl] using hholds, hgone⟩

end GenericThreadPool
end Fredlib
