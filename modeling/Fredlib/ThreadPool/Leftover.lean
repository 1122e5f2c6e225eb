/-
  Fredlib.ThreadPool.Leftover

  What is left in the queue when a `GenericThreadPool` is destroyed.

  A worker looks at the stop flag before it pops, and the destructor does not
  look at the queue at all.  A function that is in the queue when the last
  worker leaves, or that is pushed later, is never run, and its element never
  deleted.  `Drains` says that there is no such function; exactly then nothing
  is left behind (`nothing_left_iff`).
-/

import Fredlib.ThreadPool.Controller
import Fredlib.ThreadPool.GenericQueue

namespace Fredlib

open Lib Lib.Monitor ThreadControl IntrusiveSafeList

namespace GenericThreadPool

variable {ι : Type*} [DecidableEq ι]

/-- Every element allocated has been through its whole life, and the queue holds
    nothing. -/
def NothingLeft (log : List Obs) (s : GenericThreadPool ι) : Prop :=
  s._q.Holds QueueElement.hook [] ∧
    ∀ k, k < s.tasks → ∃ i qe, (log.filter fun o => o.task = some k) = life i qe k

/-- The last worker to leave its loop leaves an empty queue, and nothing is
    pushed from then on. -/
structure Drains (s : GenericThreadPool ι) (e : Ev ι) : Prop where
  leaving : ∀ i, e = .worker i → s.workers i = .check → s._tc._stopper = true →
    (∀ j, j < s.created → j ≠ i → ¬ (s.workers j).Looping) → s._q.empty = true
  pushing : ∀ c qe, e = .client c → s.clients c = .pushing qe → s._tc._stopper = true →
    ∃ i, i < s.created ∧ (s.workers i).Looping

/-- The stop flag is up and everybody has left the loop. -/
def Gone (s : GenericThreadPool ι) : Prop :=
  s._tc._stopper = true ∧ ∀ i, i < s.created → ¬ (s.workers i).Looping

/-- The stop flag is up and nobody is at `pop_front`; so nobody will be. -/
def Deserted (s : GenericThreadPool ι) : Prop :=
  s._tc._stopper = true ∧ ∀ i, i < s.created → s.workers i ≠ .pop

/-- What is in the queue stays there. -/
def Abandoned (log : List Obs) (s : GenericThreadPool ι) : Prop :=
  s.Deserted ∧ (log.filterMap Obs.pop).length < (log.filterMap Obs.push).length

variable {s s' : GenericThreadPool ι} {log : List Obs} {l : List (Addr × Nat)} {i n : Nat}
  {c p : ι} {e : Ev ι}

-- ============================================================================
-- Who pushes and who pops
-- ============================================================================

omit [DecidableEq ι] in
theorem shows_quiet {qe : Addr} {o : Addr → Nat → Obs} {f : Obs → Option (Addr × Nat)}
    (ho : ∀ k, f (o qe k) = none) : (s.shows qe o).filterMap f = [] := by
  rw [shows]
  cases s.taskOf qe with
  | none => rfl
  | some k => simp [ho k]

/-- Only a client that is about to append its element shows a push. -/
theorem push_of_obs (h : (s.obs e).filterMap Obs.push ≠ []) :
    ∃ c qe, e = .client c ∧ s.clients c = .pushing qe := by
  -- a pop shows no push
  have hpop : ∀ i r, (s.showsPop i r).filterMap Obs.push = [] := by
    intro i r
    unfold showsPop
    split
    · exact shows_quiet fun _ => rfl
    · rfl
  cases e with
  | client c =>
      refine ⟨c, ?_⟩
      cases hpc : s.clients c with
      | pushing qe => exact ⟨qe, rfl, rfl⟩
      | _ => exact absurd (by simp [obs, hpc]) h
  | worker i =>
      refine absurd ?_ h
      cases hpc : s.workers i <;> simp only [obs, hpc]
      case pop => exact hpop _ _
      case done => rfl
      all_goals first | rfl | exact shows_quiet fun _ => rfl
  | timeout i => exact absurd (hpop _ _) h
  | _ => exact absurd rfl h

/-- Only a worker at its `pop_front` shows a pop. -/
theorem pop_of_obs (hs : step s e = some s') (h : (s.obs e).filterMap Obs.pop ≠ []) :
    ∃ i, i < s.created ∧ s.workers i = .pop := by
  cases e with
  | client c =>
      refine absurd ?_ h
      cases hpc : s.clients c <;> simp only [obs, hpc]
      all_goals first | rfl | exact shows_quiet fun _ => rfl
  | worker i =>
      have hi := (workerMove_of_step hs).1
      cases hpc : s.workers i with
      | pop => exact ⟨i, hi, hpc⟩
      | done => exact absurd (by simp [obs, hpc, Obs.pop]) h
      | _ =>
          refine absurd ?_ h
          simp only [obs, hpc]
          first | rfl | exact shows_quiet fun _ => rfl
  | timeout i =>
      obtain ⟨hi, hpc, -⟩ := timeoutStep_some hs
      exact ⟨i, hi, hpc⟩
  | _ => exact absurd rfl h

/-- A pool in which something has been popped has a worker. -/
theorem created_of_traced {ok : GenericThreadPool ι → Ev ι → Prop}
    (h : (system ι n).Traced ok obs log s) (hpop : log.filterMap Obs.pop ≠ []) :
    0 < s.created := by
  refine h.invariant (P := fun log s => log.filterMap Obs.pop ≠ [] → 0 < s.created)
    (fun _ _ hnil => absurd rfl hnil) (fun log s e s' _ ih _ hs hpop => ?_) hpop
  -- popped before, or by this very step
  have hold : 0 < s.created := by
    by_cases hobs : (s.obs e).filterMap Obs.pop = []
    · refine ih fun hnil => hpop ?_
      rw [List.filterMap_append, hnil, hobs, List.append_nil]
    · obtain ⟨i, hi, -⟩ := pop_of_obs hs hobs
      omega
  exact Nat.lt_of_lt_of_le hold (created_le_of_step hs)

-- ============================================================================
-- When everybody has left
-- ============================================================================

omit [DecidableEq ι] in
theorem Gone.deserted (h : Gone s) : Deserted s := by
  refine ⟨h.1, fun i hi hpc => h.2 i hi ?_⟩
  rw [hpc]
  exact ⟨by simp, by simp⟩

/-- Nobody comes back to `pop_front`: with the flag up, `.check` leads to `.done`. -/
theorem Deserted.step (h : Deserted s) (hs : GenericThreadPool.step s e = some s') :
    Deserted s' := by
  obtain ⟨hf, hpop⟩ := h
  rcases step_frame hs with ⟨hgrows, hflag⟩ | ⟨i, hi, hstep | hpc, hcreated⟩
  · refine ⟨hflag hf, fun j hj => ?_⟩
    -- a worker created starts at `.pause`, not at `.pop`
    rcases hgrows with ⟨hcreated, hworkers⟩ | ⟨hcreated, hworkers⟩
    · rw [hworkers]
      exact hpop j (by omega)
    · rw [hworkers]
      by_cases hjc : j = s.created
      · rw [hjc, Function.update_self]
        simp
      · rw [Function.update_of_ne hjc]
        exact hpop j (by omega)
  · have hflag := (workerStep_frame hstep).2.2.2.1
    refine ⟨hflag.trans hf, fun j hj => ?_⟩
    rw [hcreated] at hj
    obtain ⟨-, hmove⟩ := workerMove_of_step hstep
    by_cases hji : j = i
    · subst hji
      -- the only way to `.pop` is from `.check`, and the flag sends it to `.done`
      cases hmove with
      | @pause tc r => cases r <;> simp
      | check => simp [stopRequired, hf]
      | pop hpc => exact absurd hpc (hpop j hj)
      | _ => simp
    · obtain ⟨⟨pc, hworkers⟩, -⟩ := workerStep_frame hstep
      rw [hworkers, Function.update_of_ne hji]
      exact hpop j hj
  · exact absurd hpc (hpop i hi)

/-- Nobody pops what is in the queue. -/
theorem Abandoned.step (h : Abandoned log s) (hs : GenericThreadPool.step s e = some s') :
    Abandoned (log ++ s.obs e) s' := by
  obtain ⟨hdeserted, hlt⟩ := h
  have hpop : (s.obs e).filterMap Obs.pop = [] := by
    by_contra hobs
    obtain ⟨i, hi, hpc⟩ := pop_of_obs hs hobs
    exact hdeserted.2 i hi hpc
  refine ⟨hdeserted.step hs, ?_⟩
  rw [List.filterMap_append, List.filterMap_append, hpop, List.append_nil, List.length_append]
  omega

/-- Only `stop` sets the flag. -/
theorem stopper_of_clientStep (hs : s.clientStep c = some s') (hpc : s.clients c ≠ .stopSet) :
    s'._tc._stopper = s._tc._stopper := by
  cases clientMove_of_step hs with
  | construct _ hadd => exact (addMove_frame hadd).2
  | built _ hadd => exact (addMove_frame hadd).2
  | add _ hadd => exact (addMove_frame hadd).2
  | added _ hadd => exact (addMove_frame hadd).2
  | pause _ hadv => exact advance_stopper hadv
  | resume _ hadv => exact advance_stopper hadv
  | stopWait _ hadv => exact advance_stopper hadv
  | stopSet hset => exact absurd hset hpc
  | _ => rfl

/-- The flag goes up while somebody is in the loop. -/
theorem Course.raised (h : Course p s) (hs : s.clientStep c = some s')
    (hf : s._tc._stopper = false) (hf' : s'._tc._stopper = true) : 0 < s.created := by
  have hset : s.clients c = .stopSet := by
    by_contra hne
    rw [stopper_of_clientStep hs hne, hf] at hf'
    cases hf'
  have hcp : c = p := by
    by_contra hne
    have hpush := h.others c hne
    rw [hset] at hpush
    exact hpush
  subst hcp
  rw [← (h.looping hf).1]
  exact List.length_pos_iff.mpr (h.setting hset)

/-- Everybody is gone when the last worker has seen the flag. -/
theorem gone_of_step (hc : Course p s) (hs : step s e = some s') (h : Gone s') :
    Gone s ∨ ∃ i, e = .worker i ∧ s.workers i = .check ∧ s._tc._stopper = true ∧
      ∀ j, j < s.created → j ≠ i → ¬ (s.workers j).Looping := by
  -- nobody who has not moved is in the loop
  have hgrows : Grows s s' → s._tc._stopper = true → Gone s := by
    rintro (⟨hcreated, hworkers⟩ | ⟨hcreated, hworkers⟩) hf
    · refine ⟨hf, fun j hj => ?_⟩
      rw [← hworkers]
      exact h.2 j (by omega)
    · refine absurd ?_ (h.2 s.created (by omega))
      rw [hworkers, Function.update_self]
      exact ⟨by simp, by simp⟩
  cases e with
  | call c op =>
      obtain ⟨hcreated, hworkers, -, htc⟩ := callStep_frame hs
      exact .inl (hgrows (.inl ⟨hcreated, hworkers⟩) (by rw [← htc]; exact h.1))
  | client c =>
      have hframe := (clientStep_frame hs).1
      cases hf : s._tc._stopper with
      | true => exact .inl (hgrows hframe hf)
      | false =>
          -- `stop` is raising the flag, and worker 0 is in its loop
          have hpos := hc.raised hs hf h.1
          refine absurd ?_ (h.2 0 (Nat.lt_of_lt_of_le hpos (created_le_of_step hs)))
          have hloop := (hc.looping hf).2 0 hpos
          rcases hframe with ⟨-, hworkers⟩ | ⟨-, hworkers⟩
          · rwa [hworkers]
          · rwa [hworkers, Function.update_of_ne (by omega)]
  | worker i =>
      obtain ⟨⟨pc, hworkers⟩, hcreated, -, hflag, -⟩ := workerStep_frame hs
      have hf : s._tc._stopper = true := hflag.symm.trans h.1
      have hothers : ∀ j, j < s.created → j ≠ i → ¬ (s.workers j).Looping := by
        intro j hj hji
        have hj' := h.2 j (by omega)
        rwa [hworkers, Function.update_of_ne hji] at hj'
      obtain ⟨hi, hmove⟩ := workerMove_of_step hs
      have hleft := h.2 i (by omega)
      -- of all steps of a worker only `.check` leads out of the loop
      cases hmove with
      | check hpc => exact .inr ⟨i, rfl, hpc, hf, hothers⟩
      | done hpc =>
          refine .inl ⟨hf, fun j hj => ?_⟩
          by_cases hji : j = i
          · rw [hji, hpc]
            exact fun hloop => hloop.1 rfl
          · exact hothers j hj hji
      | @pause tc r => exact absurd ⟨by cases r <;> simp, by cases r <;> simp⟩ hleft
      | @pop q r =>
          rw [setWorker_self] at hleft
          rcases r with - | - | qe <;> exact absurd ⟨by simp [afterPop], by simp [afterPop]⟩ hleft
      | _ => exact absurd ⟨by simp, by simp⟩ hleft
  | timeout i =>
      obtain ⟨hi, -, q, r, -, rfl⟩ := timeoutStep_some hs
      have hleft := h.2 i hi
      rw [setWorker_self] at hleft
      rcases r with - | - | qe <;> exact absurd ⟨by simp [afterPop], by simp [afterPop]⟩ hleft
  | spuriousTc b t =>
      simp only [step, Option.map_eq_some_iff] at hs
      obtain ⟨tc, hsp, rfl⟩ := hs
      exact .inl (hgrows (.inl ⟨rfl, rfl⟩) ((spurious_stopper hsp).symm.trans h.1))
  | spuriousQ t =>
      simp only [step, Option.map_eq_some_iff] at hs
      obtain ⟨q, -, rfl⟩ := hs
      exact .inl (hgrows (.inl ⟨rfl, rfl⟩) h.1)

omit [DecidableEq ι] in
/-- The queue is empty when as many elements have been popped as pushed. -/
theorem QueueInv.settled_iff (h : QueueInv log s l) :
    s._q.empty = true ↔ log.filterMap Obs.push = log.filterMap Obs.pop := by
  rw [h.holds.empty_eq, h.fifo, List.isEmpty_iff, List.map_eq_nil_iff,
    List.append_right_eq_self]

/-- When everybody has left, everything pushed has been popped. -/
theorem settled_of_traced
    (h : (system ι n).Traced (fun s e => Controlled p e ∧ Drains s e) obs log s) (hgone : Gone s) :
    log.filterMap Obs.push = log.filterMap Obs.pop := by
  -- induction on the run: the step at which the last worker leaves finds the queue empty
  induction h with
  | init hinit =>
      obtain ⟨c, heap, rfl⟩ := hinit
      rfl
  | @step log s s' e ht hok hs ih =>
      obtain ⟨l, hinv⟩ := queueInv_of_traced ht
      have hc : Course p s := course_of_reachable (fun _ _ hok => hok.1) ht.reachable
      rcases gone_of_step hc hs hgone with hgone | ⟨i, rfl, hpc, hf, hothers⟩
      · -- everybody had left before: this step neither pushes nor pops
        have hpush : (s.obs e).filterMap Obs.push = [] := by
          by_contra hobs
          obtain ⟨c, qe, rfl, hpc⟩ := push_of_obs hobs
          obtain ⟨i, hi, hloop⟩ := hok.2.pushing c qe rfl hpc hgone.1
          exact hgone.2 i hi hloop
        have hpop : (s.obs e).filterMap Obs.pop = [] := by
          by_contra hobs
          obtain ⟨i, hi, hpc⟩ := pop_of_obs hs hobs
          exact hgone.deserted.2 i hi hpc
        rw [List.filterMap_append, List.filterMap_append, hpush, hpop, ih hgone]
      · -- the last worker leaves now
        have hobs : s.obs (.worker i) = [] := by simp only [obs, hpc]
        rw [hobs, List.append_nil]
        exact hinv.settled_iff.mp (hok.2.leaving i rfl hpc hf hothers)

/-- After a step that does not drain, something is left for good. -/
theorem abandoned_of_step (hinv : QueueInv log s l) (hs : step s e = some s')
    (hok : ¬ Drains s e) : Abandoned (log ++ s.obs e) s' := by
  have hle : (log.filterMap Obs.pop).length ≤ (log.filterMap Obs.push).length := by
    rw [hinv.fifo, List.length_append]
    omega
  by_cases hleaving : ∀ i, e = .worker i → s.workers i = .check → s._tc._stopper = true →
      (∀ j, j < s.created → j ≠ i → ¬ (s.workers j).Looping) → s._q.empty = true
  · -- a push after everybody has left: one more pushed than popped
    obtain ⟨c, qe, rfl, hpc, hf, hnone⟩ : ∃ c qe, e = .client c ∧ s.clients c = .pushing qe ∧
        s._tc._stopper = true ∧ ∀ i, i < s.created → ¬ (s.workers i).Looping := by
      by_contra hpushing
      refine hok ⟨hleaving, fun c qe he hpc hf => ?_⟩
      by_contra hnone
      exact hpushing ⟨c, qe, he, hpc, hf, fun i hi hloop => hnone ⟨i, hi, hloop⟩⟩
    have hgone : Gone s := ⟨hf, hnone⟩
    have hsits : s.Sits l (.pushing c) qe := hpc
    obtain ⟨k, hk⟩ := hinv.live hsits
    have hobs : s.obs (.client c) = [.pushed qe k] := by
      simp only [obs, hpc]
      exact shows_eq hk .pushed
    refine ⟨hgone.deserted.step hs, ?_⟩
    rw [hobs, List.filterMap_append, List.filterMap_append, List.length_append, List.length_append]
    simp only [List.filterMap_cons, Obs.pop, Obs.push, List.filterMap_nil, List.length_nil,
      List.length_cons]
    omega
  · -- the last worker leaves, and the queue is not empty
    obtain ⟨i, rfl, hpc, hf, hothers, hempty⟩ : ∃ i, e = .worker i ∧ s.workers i = .check ∧
        s._tc._stopper = true ∧ (∀ j, j < s.created → j ≠ i → ¬ (s.workers j).Looping) ∧
        s._q.empty ≠ true := by
      simpa using hleaving
    have hdeserted : Deserted s := by
      refine ⟨hf, fun j hj hjpc => ?_⟩
      by_cases hji : j = i
      · rw [hji, hpc] at hjpc
        cases hjpc
      · refine hothers j hj hji ?_
        rw [hjpc]
        exact ⟨by simp, by simp⟩
    have hobs : s.obs (.worker i) = [] := by simp only [obs, hpc]
    refine ⟨hdeserted.step hs, ?_⟩
    rw [hobs, List.append_nil]
    refine Nat.lt_of_le_of_ne hle fun heq => hempty (hinv.settled_iff.mpr ?_)
    have hnil : l = [] := by
      rw [hinv.fifo, List.length_append] at heq
      exact List.length_eq_zero_iff.mp (by omega)
    rw [hinv.fifo, hnil, List.append_nil]

-- ============================================================================
-- The result
-- ============================================================================

/-- When the last call of `stop` returns, every worker has exited; or the pool
    has never had one. -/
theorem exited_of_return (hg : Course p s) (hin : (s.clients p).InStop)
    (hs : s.clientStep p = some s') (hidle : s'.clients p = .idle) :
    (s.created = 0 ∨ s._tc._stopper = true ∧ s.running = ∅) ∧ s'._q = s._q ∧ s'.tasks = s.tasks ∧
      s'.created = s.created ∧ s'.workers = s.workers ∧ s.obs (.client p) = [] := by
  cases clientMove_of_step hs with
  -- no thread in the vector: `stop` returns at once
  | stopNum hpc =>
      rw [setClient_self] at hidle
      have hnil : s._vecThreads = [] := by
        by_contra hne
        rw [if_pos (List.length_pos_iff.mpr hne)] at hidle
        cases hidle
      refine ⟨?_, rfl, rfl, rfl, rfl, by simp only [obs, hpc]⟩
      cases hf : s._tc._stopper with
      | true => exact .inr ⟨rfl, hg.cleared hf hnil⟩
      | false =>
          left
          rw [← (hg.looping hf).1, hnil]
          rfl
  -- the end of a `stop` that has joined them all
  | stopClear hpc =>
      exact ⟨.inr (hg.joining (.inr hpc)), rfl, rfl, rfl, rfl, by simp only [obs, hpc]⟩
  | stopSet hpc => simp at hidle
  | @stopWait tc r hpc => cases r <;> simp at hidle
  | join hpc => simp at hidle
  | joined hpc => simp at hidle
  | _ hpc =>
      rw [hpc] at hin
      rcases hin with hnum | hstops
      · cases hnum
      · exact absurd hstops id

omit [DecidableEq ι] in
/-- With no element on its way, in the queue or with a worker, all lives are over. -/
theorem QueueInv.over (h : QueueInv log s []) (hclients : ∀ c qe, s.clients c ≠ .pushing qe)
    (hexited : ∀ i, i < s.created → s.workers i = .exited) : NothingLeft log s := by
  refine ⟨h.holds, fun k hk => h.custody.gone k hk fun a ha => ?_⟩
  obtain ⟨place, hsits⟩ := h.custody.owned a k ha
  cases place with
  | pushing c => exact hclients c a hsits
  | queued => cases hsits
  | held i st =>
      have hpc : s.workers i = st.pc a := hsits
      by_cases hi : i < s.created
      · rw [hexited i hi] at hpc
        cases st <;> cases hpc
      · rw [h.absent i (Nat.le_of_not_lt hi)] at hpc
        cases st <;> cases hpc

/-- **Nothing stays behind in the queue** of a pool that one controller destroys,
    exactly if every step of its run drains and a pool that has never had a worker
    has been given no function. -/
theorem nothing_left_iff {s₀ : GenericThreadPool ι} {evs : List (Ev ι)}
    (hinit : (system ι n).init s₀)
    (hrun : ((system ι n).recorded obs).Run (fun _ e => Controlled p e) ([], s₀) evs (log, s))
    (hin : (s.clients p).InStop) (hs : (system ι n).step s (.client p) = some s')
    (hidle : ∀ c, s'.clients c = .idle) :
    NothingLeft log s' ↔
      ((system ι n).recorded obs).Run (fun q e => Controlled p e ∧ Drains q.2 e) ([], s₀) evs
        (log, s) ∧ (s.created = 0 → s.tasks = 0) := by
  have hstart : ∀ ok, ((system ι n).recorded obs).ReachableBy ok ([], s₀) :=
    fun _ => .init ⟨rfl, hinit⟩
  have htraced : (system ι n).Traced (fun _ e => Controlled p e) obs log s :=
    System.ReachableBy.traced_of_recorded (p := (log, s)) (hrun.reachable (hstart _))
  have hc : Course p s := course_of_reachable (fun _ _ hok => hok) htraced.reachable
  obtain ⟨l, hinv⟩ := queueInv_of_traced htraced
  obtain ⟨hover, hq, htasks, hcreated, hworkers, hobs⟩ := exited_of_return hc hin hs (hidle p)
  obtain ⟨l', hinv'⟩ := hinv.step (e := .client p) hs
  rw [hobs, List.append_nil] at hinv'
  constructor
  · rintro ⟨hholds, hlife⟩
    have hempty : s'._q.empty = true := hholds.empty_eq
    constructor
    · rcases hrun.meets_or_breaks (Q := fun q e => Drains q.2 e) with hmeets |
        ⟨evs₁, ⟨log₁, s₁⟩, e, q₂, evs₂, hrun₁, hok, hbreak, hs₁, hrest⟩
      · exact hmeets
      · -- the first step that does not drain leaves something, and so do all the others
        obtain ⟨s₂, hs₂, rfl⟩ := System.recorded_some hs₁
        have htraced₁ : (system ι n).Traced (fun s e => Controlled p e ∧ Drains s e) obs log₁ s₁ :=
          System.ReachableBy.traced_of_recorded (p := (log₁, s₁)) (hrun₁.reachable (hstart _))
        obtain ⟨l₁, hinv₁⟩ := queueInv_of_traced htraced₁
        have hleft : Abandoned log s := by
          exact hrest.recorded_invariant (abandoned_of_step hinv₁ hs₂ hbreak)
            fun log s e s' hab _ hs => hab.step hs
        have hlt := hleft.2
        rw [hinv'.settled_iff.mp hempty] at hlt
        exact absurd hlt (Nat.lt_irrefl _)
    · -- a pool without workers pops nothing, so no life can be complete
      intro hnone
      by_contra hsome
      obtain ⟨i, qe, hlife⟩ := hlife 0 (by rw [htasks]; omega)
      have hmem : Obs.popped i qe 0 ∈ log := by
        have hpopped : Obs.popped i qe 0 ∈ life i qe 0 := by simp [life]
        rw [← hlife] at hpopped
        exact (List.mem_filter.mp hpopped).1
      have hpos := created_of_traced htraced
        (List.ne_nil_of_mem (List.mem_filterMap.mpr ⟨_, hmem, rfl⟩))
      omega
  · rintro ⟨hmeets, hnone⟩
    -- what is in the queue has been pushed and not popped
    have hnil : l' = [] := by
      rcases hover with hzero | ⟨hf, hexited⟩
      · by_contra hne
        obtain ⟨x, hx⟩ := List.exists_mem_of_ne_nil l' hne
        have hlt := hinv'.custody.fresh x.1 x.2 (hinv'.contents x hx)
        rw [htasks, hnone hzero] at hlt
        exact Nat.not_lt_zero _ hlt
      · have hgone : Gone s := by
          refine ⟨hf, fun i hi hloop => hloop.2 ?_⟩
          exact running_eq_empty.mp hexited i hi
        have hdrained : (system ι n).Traced (fun s e => Controlled p e ∧ Drains s e) obs log s :=
          System.ReachableBy.traced_of_recorded (p := (log, s)) (hmeets.reachable (hstart _))
        have hsettled := settled_of_traced hdrained hgone
        have hempty := hinv'.settled_iff.mpr hsettled
        rw [hinv'.holds.empty_eq, List.isEmpty_iff, List.map_eq_nil_iff] at hempty
        exact hempty
    subst hnil
    refine hinv'.over (fun c qe hc => ?_) fun i hi => ?_
    · rw [hidle c] at hc
      cases hc
    · rw [hcreated] at hi
      rw [hworkers]
      rcases hover with hzero | ⟨-, hexited⟩
      · omega
      · exact running_eq_empty.mp hexited i hi

omit [DecidableEq ι] in
/-- Until the flag is up every step drains. -/
theorem drains_of_flag (hf : s._tc._stopper = false) : Drains s e := by
  refine ⟨fun i _ _ hf' => ?_, fun d qe _ _ hf' => ?_⟩ <;>
  · rw [hf] at hf'
    cases hf'

omit [DecidableEq ι] in
theorem drains_of_client (pc : ClientPc) (hpc : s.clients c = pc) (hne : ∀ qe, pc ≠ .pushing qe) :
    Drains s (.client c) := by
  refine ⟨?_, ?_⟩
  · intro i he
    cases he
  · intro d qe he hd
    cases he
    exact absurd (hpc.symm.trans hd) (hne qe)

omit [DecidableEq ι] in
theorem drains_of_worker (hempty : s._q.empty = true) : Drains s (.worker i) := by
  refine ⟨fun _ _ _ _ _ => hempty, ?_⟩
  intro d qe he
  cases he

/-- A pool of one worker runs one function and is destroyed. -/
theorem nothing_left_of_run : ∃ s : GenericThreadPool Unit,
    NothingLeft (life 0 16 0 ++ [.done 0]) s ∧ s.tasks = 1 := by
  have hrun : ∃ s, ((system Unit 1).recorded obs).Run
      (fun q e => Controlled () e ∧ Drains q.2 e) ([], initial () 1 fun _ => ListHook.unlinked)
      [.client (), .client (), .client (), .client (), .client (),
        .call () (.pushFunction 16), .client (), .worker 0, .worker 0, .worker 0, .worker 0,
        .worker 0, .worker 0, .call () .stop, .client (), .client (), .worker 0, .worker 0,
        .worker 0, .client (), .client (), .client ()]
      (life 0 16 0 ++ [.done 0], s) ∧
      s.clients () = .stopClear ∧ s.created = 1 ∧ s._muThreadPool = none ∧ s.tasks = 1 :=
    ⟨_, .cons ⟨trivial, drains_of_flag rfl⟩ rfl <| .cons ⟨trivial, drains_of_flag rfl⟩ rfl <|
      .cons ⟨trivial, drains_of_flag rfl⟩ rfl <| .cons ⟨trivial, drains_of_flag rfl⟩ rfl <|
      .cons ⟨trivial, drains_of_flag rfl⟩ rfl <| .cons ⟨trivial, drains_of_flag rfl⟩ rfl <|
      .cons ⟨trivial, drains_of_flag rfl⟩ rfl <| .cons ⟨trivial, drains_of_flag rfl⟩ rfl <|
      .cons ⟨trivial, drains_of_flag rfl⟩ rfl <| .cons ⟨trivial, drains_of_flag rfl⟩ rfl <|
      .cons ⟨trivial, drains_of_flag rfl⟩ rfl <| .cons ⟨trivial, drains_of_flag rfl⟩ rfl <|
      .cons ⟨trivial, drains_of_flag rfl⟩ rfl <| .cons ⟨rfl, drains_of_flag rfl⟩ rfl <|
      .cons ⟨trivial, drains_of_flag rfl⟩ rfl <| .cons ⟨trivial, drains_of_flag rfl⟩ rfl <|
      .cons ⟨trivial, drains_of_worker rfl⟩ rfl <| .cons ⟨trivial, drains_of_worker rfl⟩ rfl <|
      .cons ⟨trivial, drains_of_worker rfl⟩ rfl <|
      .cons ⟨trivial, drains_of_client .stopWait rfl (by simp)⟩ rfl <|
      .cons ⟨trivial, drains_of_client (.join 0) rfl (by simp)⟩ rfl <|
      .cons ⟨trivial, drains_of_client (.join 1) rfl (by simp)⟩ rfl .nil, rfl, rfl, rfl, rfl⟩
  obtain ⟨s, hs, hpc, hone, hmu, htask⟩ := hrun
  have hstep : (system Unit 1).step s (.client ()) =
      some ({ s with _vecThreads := [] }.setClient () .idle) := by
    simp only [system, step, clientStep, hpc, hmu]
  have hin : (s.clients ()).InStop := .inr (by rw [hpc]; trivial)
  refine ⟨_, (nothing_left_iff ⟨_, _, rfl⟩ (hs.mono fun _ _ hok => hok.1) hin hstep
    fun c => setClient_self).mpr ⟨hs, fun hzero => ?_⟩, htask⟩
  rw [hone] at hzero
  cases hzero

/-- The one worker of a pool sees the flag before it gets to the function pushed:
    the pool is destroyed with an element in its queue. -/
theorem destroyed_with_element :
    ∃ log s s', ((system Unit 1).recorded obs).ReachableBy (fun _ e => Controlled () e) (log, s) ∧
      (s.clients ()).InStop ∧ (system Unit 1).step s (.client ()) = some s' ∧
      (∀ c, s'.clients c = .idle) ∧ ¬ NothingLeft log s' := by
  have hrun : ∃ log s, ((system Unit 1).recorded obs).Run (fun _ e => Controlled () e)
      ([], initial () 1 fun _ => ListHook.unlinked)
      [.client (), .client (), .client (), .client (), .client (),
        .call () (.pushFunction 16), .client (), .call () .stop, .client (), .client (),
        .worker 0, .worker 0, .worker 0, .client (), .client (), .client ()] (log, s) ∧
      s.clients () = .stopClear ∧ s._muThreadPool = none ∧ s._q.empty = false :=
    ⟨_, _, .cons trivial rfl <| .cons trivial rfl <| .cons trivial rfl <| .cons trivial rfl <|
      .cons trivial rfl <| .cons trivial rfl <| .cons trivial rfl <| .cons rfl rfl <|
      .cons trivial rfl <| .cons trivial rfl <| .cons trivial rfl <| .cons trivial rfl <|
      .cons trivial rfl <| .cons trivial rfl <| .cons trivial rfl <| .cons trivial rfl .nil,
      rfl, rfl, rfl⟩
  obtain ⟨log, s, hs, hpc, hmu, hempty⟩ := hrun
  have hstep : (system Unit 1).step s (.client ()) =
      some ({ s with _vecThreads := [] }.setClient () .idle) := by
    simp only [system, step, clientStep, hpc, hmu]
  refine ⟨log, s, _, hs.reachable (.init ⟨rfl, _, _, rfl⟩), .inr (by rw [hpc]; trivial), hstep,
    fun c => setClient_self, fun hleft => ?_⟩
  have hempty' : s._q.empty = true := hleft.1.empty_eq
  rw [hempty] at hempty'
  cases hempty'

end GenericThreadPool
end Fredlib
