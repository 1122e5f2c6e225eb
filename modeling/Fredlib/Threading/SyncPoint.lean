/-
  Fredlib.Threading.SyncPoint

  `SyncPoint` of include/threading.hpp: a counter that every caller of `sync`
  decrements, and a condition variable on which all but the last one wait for
  it to reach zero.

  Counters of the source are `int`; they are integers here.  The milliseconds
  that the operations return are not modelled.

  Armed with `n` and called once by each of `n` threads, a sync point is a
  barrier (`sync_one_shot_barrier`).  The invariant ties the counter to the set
  of threads that have not called yet.
-/

import Fredlib.Lib.Monitor
import Mathlib.Data.Fintype.Card

namespace Fredlib

open Lib Lib.Monitor

/-- `SyncPoint`. -/
structure SyncPoint where
  mExpectedThreads : Int
  deriving DecidableEq

namespace SyncPoint

/-- The public operations. -/
inductive Op
  | sync
  | initializeExpected (expected : Int)
  | addThread (num : Int)
  | setThreadnum (num : Int)
  deriving DecidableEq

/-- The condition variable. -/
inductive Cond
  | mCvSync
  deriving DecidableEq

/-- The one wait, in `sync`. -/
inductive Wait
  | synced
  deriving DecidableEq

/-- `sync`, up to its return or its wait. -/
def sync (p : SyncPoint) : Section SyncPoint Wait Cond Unit :=
  let p := { p with mExpectedThreads := p.mExpectedThreads - 1 }
  if p.mExpectedThreads = 0 then
    ⟨p, [.mCvSync], .ret ()⟩
  else
    ⟨p, [], .wait .synced⟩

/-- `initialize`, whose name is a keyword of Lean. -/
def initializeExpected (p : SyncPoint) (expected : Int) : SyncPoint :=
  { p with mExpectedThreads := expected }

/-- `add_thread`. -/
def addThread (p : SyncPoint) (num : Int) : SyncPoint :=
  { p with mExpectedThreads := p.mExpectedThreads + num }

/-- `set_threadnum`. -/
def setThreadnum (p : SyncPoint) (num : Int) : SyncPoint :=
  { p with mExpectedThreads := num }

/-- The class as a monitor. -/
def monitor : Monitor SyncPoint Op Wait Cond Unit where
  enter
    | .sync, p => some p.sync
    | .initializeExpected expected, p => some ⟨p.initializeExpected expected, [], .ret ()⟩
    | .addThread num, p => some ⟨p.addThread num, [], .ret ()⟩
    | .setThreadnum num, p => some ⟨p.setThreadnum num, [], .ret ()⟩
  cond _ := .mCvSync
  pred _ p := decide (p.mExpectedThreads = 0)
  after _ p := some (p, [], ())
  timed _ := false

@[simp] theorem pred_eq (w : Wait) (p : SyncPoint) :
    monitor.pred w p = decide (p.mExpectedThreads = 0) := rfl

/-- The whole critical section of a call of `sync`. -/
theorem enterSection_sync (p : SyncPoint) :
    monitor.enterSection .sync p =
      if p.mExpectedThreads = 1 then some ⟨⟨0⟩, [.mCvSync], .ret ()⟩
      else some ⟨⟨p.mExpectedThreads - 1⟩, [], .wait .synced⟩ := by
  by_cases h : p.mExpectedThreads = 1
  · simp [enterSection, monitor, sync, settle, h]
  · have h' : ¬ p.mExpectedThreads - 1 = 0 := by omega
    simp [enterSection, monitor, sync, settle, h, h']

/-- The critical section of a woken waiter. -/
theorem wakeSection_eq (w : Wait) (p : SyncPoint) :
    monitor.wakeSection w p =
      if p.mExpectedThreads = 0 then some ⟨p, [], .ret ()⟩ else some ⟨p, [], .wait w⟩ := by
  by_cases h : p.mExpectedThreads = 0 <;>
    simp [wakeSection, settle, finish, monitor, h]

variable {T : Type*} [DecidableEq T]

-- ============================================================================
-- Any number of callers
-- ============================================================================

section Counted

variable {c c' : Config T SyncPoint Wait} {t : T} {n m : Int} {arrived : List T} {r : Option Unit}

/-- A sync point armed with `n` at which the threads `arrived` have called `sync`,
    each once.  Whoever brings the counter below zero stays. -/
structure Counted (n : Int) (arrived : List T) (c : Config T SyncPoint Wait) : Prop where
  count : c.data.mExpectedThreads = n - arrived.length
  nodup : arrived.Nodup
  inside : ∀ t, c.thr t ≠ .out → t ∈ arrived
  held : c.data.mExpectedThreads < 0 → ∃ t, c.thr t ≠ .out

omit [DecidableEq T] in
theorem Counted.create (hthr : ∀ t, c.thr t = .out) (hdata : c.data = ⟨n⟩) (hn : 0 ≤ n) :
    Counted n [] c := by
  refine ⟨by simp [hdata], .nil, fun t ht => absurd (hthr t) ht, fun hneg => ?_⟩
  rw [hdata] at hneg
  exact absurd hneg (by simpa using hn)

omit [DecidableEq T] in
/-- One caller too many, and somebody is left inside. -/
theorem Counted.exceeded (h : Counted n arrived c) (hlen : n < arrived.length) :
    c.data.mExpectedThreads < 0 ∧ ∃ t, c.thr t ≠ .out := by
  have hneg : c.data.mExpectedThreads < 0 := by
    rw [h.count]
    omega
  exact ⟨hneg, h.held hneg⟩

/-- What a call of `sync` does that has just begun. -/
theorem advance_sync_out (hs : monitor.advance t .sync c = some (c', r)) (hout : c.thr t = .out) :
    c'.data.mExpectedThreads = c.data.mExpectedThreads - 1 ∧
      (r.isSome = true → c'.data.mExpectedThreads = 0) := by
  rcases monitor.advance_some hs with ⟨-, hcall⟩ | ⟨w, hw, -⟩
  · obtain ⟨-, e, hsec, happ⟩ := monitor.call_some hcall
    rw [enterSection_sync] at hsec
    split at hsec
    · rename_i hone
      cases hsec
      cases happ
      exact ⟨by simp [hone], fun _ => rfl⟩
    · cases hsec
      cases happ
      exact ⟨rfl, fun hsome => by cases hsome⟩
  · rw [hout] at hw
    cases hw

/-- What a woken caller of `sync` does. -/
theorem advance_sync_in (hs : monitor.advance t .sync c = some (c', r)) (hin : c.thr t ≠ .out) :
    c'.data.mExpectedThreads = c.data.mExpectedThreads ∧
      (r.isSome = true → c'.data.mExpectedThreads = 0) := by
  rcases monitor.advance_some hs with ⟨hout, -⟩ | ⟨w, -, hcheck⟩
  · exact absurd hout hin
  · obtain ⟨w', -, e, hsec, happ⟩ := monitor.recheck_some hcheck
    rw [wakeSection_eq] at hsec
    split at hsec
    · rename_i hzero
      cases hsec
      cases happ
      exact ⟨rfl, fun _ => hzero⟩
    · cases hsec
      cases happ
      exact ⟨rfl, fun hsome => by cases hsome⟩

/-- `sync` can always be called. -/
theorem sync_enabled (hout : c.thr t = .out) :
    ∃ c' r, monitor.advance t .sync c = some (c', r) := by
  simp only [advance, hout, call, enterSection_sync]
  split <;> exact ⟨_, _, rfl⟩

/-- A thread other than `t` is inside after a step of `t` as it was before. -/
theorem advance_other {op : Op} {t' : T} (hs : monitor.advance t op c = some (c', r))
    (hne : t' ≠ t) : c'.thr t' = .out ↔ c.thr t' = .out :=
  Status.out_iff ((monitor.advance_frame hs).1 t' hne)

/-- The counter after a step of `t` inside `sync`, if that is known. -/
theorem Counted.advance {arrived' : List T} (h : Counted n arrived c)
    (hs : monitor.advance t .sync c = some (c', r)) (hnodup : arrived'.Nodup)
    (hsub : ∀ t' ∈ arrived, t' ∈ arrived') (ht : t ∈ arrived')
    (hcount : c'.data.mExpectedThreads = n - arrived'.length)
    (hret : r.isSome = true → c'.data.mExpectedThreads = 0) : Counted n arrived' c' := by
  refine ⟨hcount, hnodup, fun t' hin => ?_, fun hneg => ⟨t, fun hout => ?_⟩⟩
  · by_cases heq : t' = t
    · exact heq ▸ ht
    · exact hsub t' (h.inside t' fun hout => hin ((advance_other hs heq).mpr hout))
  · have hzero := hret ((monitor.advance_frame hs).2.mp hout)
    omega

/-- A new caller. -/
theorem Counted.arrive (h : Counted n arrived c) (hs : monitor.advance t .sync c = some (c', r))
    (hout : c.thr t = .out) (hnew : t ∉ arrived) : Counted n (arrived ++ [t]) c' := by
  obtain ⟨hcount, hret⟩ := advance_sync_out hs hout
  refine h.advance hs ?_ (fun t' ht' => List.mem_append_left _ ht') (by simp) ?_ hret
  · rw [List.nodup_append_comm]
    exact List.nodup_cons.mpr ⟨hnew, h.nodup⟩
  · rw [hcount, h.count, List.length_append, List.length_singleton]
    omega

/-- A caller that checks the counter again. -/
theorem Counted.recheck (h : Counted n arrived c) (hs : monitor.advance t .sync c = some (c', r))
    (hin : c.thr t ≠ .out) : Counted n arrived c' := by
  obtain ⟨hcount, hret⟩ := advance_sync_in hs hin
  exact h.advance hs h.nodup (fun _ => id) (h.inside t hin) (hcount.trans h.count) hret

theorem Counted.spurious (h : Counted n arrived c) (hs : Monitor.spurious t c = some c') :
    Counted n arrived c' := by
  obtain ⟨hdata, hwaiting⟩ := spurious_frame hs
  have hout : ∀ t', c'.thr t' = .out ↔ c.thr t' = .out := fun t' => Status.out_iff (hwaiting t')
  refine ⟨by rw [hdata]; exact h.count, h.nodup, ?_, ?_⟩
  · exact fun t' hin => h.inside t' ((hout t').not.mp hin)
  · rw [hdata]
    exact fun hneg => (h.held hneg).imp fun t' => (hout t').not.mpr

/-- The sync point is armed before anybody has called `sync`. -/
theorem Counted.rearm (h : Counted m [] c)
    (hs : monitor.advance t (.initializeExpected n) c = some (c', r)) (hn : 0 ≤ n) :
    Counted n [] c' := by
  have hall : ∀ t', c.thr t' = .out := fun t' => by
    by_contra hin
    simpa using h.inside t' hin
  rcases monitor.advance_some hs with ⟨-, hcall⟩ | ⟨w, hw, -⟩
  · obtain ⟨-, e, hsec, happ⟩ := monitor.call_some hcall
    have hc' : c' = (monitor.apply t e c).1 := by rw [happ]
    cases hsec
    refine .create (fun t' => ?_) (by rw [hc']; rfl) hn
    by_cases heq : t' = t
    · subst heq
      rw [hc', apply_thr_self]
      rfl
    · exact (advance_other hs heq).mpr (hall t')
  · rw [hall t] at hw
    cases hw

end Counted

-- ============================================================================
-- The one-shot barrier
-- ============================================================================

/-- Every thread calls `sync` once and nothing else. -/
def SyncOnce (s : Session T SyncPoint Op Wait) : MonitorEv T Op → Prop
  | .call t op => op = .sync ∧ s.calls t = []
  | _ => True

/-- `t` has taken its decrement. -/
def Arrived (s : Session T SyncPoint Op Wait) (t : T) : Prop := s.calls t ≠ []

/-- The call of `t` has returned. -/
def Returned (s : Session T SyncPoint Op Wait) (t : T) : Prop :=
  Arrived s t ∧ s.cfg.thr t = .out

instance (s : Session T SyncPoint Op Wait) (t : T) : Decidable (Arrived s t) :=
  inferInstanceAs (Decidable (s.calls t ≠ []))

variable [Fintype T]

/-- A barrier for all threads of `T`. -/
def barrier (T : Type*) [DecidableEq T] [Fintype T] :
    System (Session T SyncPoint Op Wait) (MonitorEv T Op) :=
  monitor.sessions T (· = ⟨Fintype.card T⟩)

/-- The counter is the number of threads still to come; nobody is inside before
    arriving, sleeps on a zero counter, or has left before it was zero. -/
structure BarrierInv (s : Session T SyncPoint Op Wait) : Prop where
  count : s.cfg.data.mExpectedThreads = (Finset.univ.filter fun t => ¬ Arrived s t).card
  inside : ∀ t, s.cfg.thr t ≠ .out → Arrived s t
  alert : monitor.Alert s.cfg
  left : ∀ t, Returned s t → s.cfg.data.mExpectedThreads = 0

omit [DecidableEq T] in
theorem BarrierInv.zero_iff {s : Session T SyncPoint Op Wait} (h : BarrierInv s) :
    s.cfg.data.mExpectedThreads = 0 ↔ ∀ t, Arrived s t := by
  rw [h.count]
  simp [Finset.filter_eq_empty_iff]

theorem BarrierInv.init {s : Session T SyncPoint Op Wait} (h : (barrier T).init s) :
    BarrierInv s := by
  obtain ⟨⟨hdata, hthr⟩, hcalls⟩ := h
  refine ⟨?_, ?_, ?_, ?_⟩
  · simp [hdata, Arrived, hcalls, Finset.card_univ]
  · exact fun t ht => absurd (hthr t) ht
  · intro t w ht
    rw [hthr t] at ht
    cases ht
  · rintro t ⟨ht, -⟩
    exact absurd (hcalls t) ht

/-- The arrival of one more thread takes it off the threads to come. -/
theorem card_to_come {s : Session T SyncPoint Op Wait} {t : T} (ht : ¬ Arrived s t)
    {s' : Session T SyncPoint Op Wait}
    (hcalls : s'.calls = Function.update s.calls t (s.calls t ++ [.sync])) :
    ((Finset.univ.filter fun t' => ¬ Arrived s' t').card : Int) =
      (Finset.univ.filter fun t' => ¬ Arrived s t').card - 1 := by
  have herase : (Finset.univ.filter fun t' => ¬ Arrived s' t') =
      (Finset.univ.filter fun t' => ¬ Arrived s t').erase t := by
    ext t'
    by_cases heq : t' = t
    · subst heq
      simp [Arrived, hcalls]
    · simp [Arrived, hcalls, heq]
  have hmem : t ∈ Finset.univ.filter fun t' => ¬ Arrived s t' := by simpa using ht
  have hpos := Finset.card_pos.mpr ⟨t, hmem⟩
  rw [herase, Finset.card_erase_of_mem hmem]
  omega

/-- One arrival. -/
theorem BarrierInv.arrive {s s' : Session T SyncPoint Op Wait} {t : T} {r : Option Unit}
    (h : BarrierInv s) (hfresh : s.calls t = [])
    (hcall : monitor.call t .sync s.cfg = some (s'.cfg, r))
    (hcalls : s'.calls = Function.update s.calls t (s.calls t ++ [.sync])) :
    BarrierInv s' := by
  obtain ⟨hout, sec, hsec, happ⟩ := monitor.call_some hcall
  have hcfg : s'.cfg = (monitor.apply t sec s.cfg).1 := by rw [happ]
  have hnew : ¬ Arrived s t := by simp [Arrived, hfresh]
  have hself : Arrived s' t := by simp [Arrived, hcalls]
  have hother : ∀ t', t' ≠ t → (Arrived s' t' ↔ Arrived s t') := by
    intro t' hne
    simp [Arrived, hcalls, hne]
  have hcard := card_to_come hnew hcalls
  have hcount := h.count
  have hinside : ∀ t', s'.cfg.thr t' ≠ .out → Arrived s' t' := by
    intro t' ht'
    by_cases heq : t' = t
    · exact heq ▸ hself
    · rw [hcfg, monitor.apply_thr_of_ne heq, ne_eq, notify_eq_out] at ht'
      exact (hother t' heq).mpr (h.inside t' ht')
  rw [enterSection_sync] at hsec
  split at hsec
  · -- the last arrival: the counter is zero and everybody is notified
    rename_i hone
    cases hsec
    have hzero : s'.cfg.data.mExpectedThreads = 0 := by rw [hcfg, apply_data]
    refine ⟨by rw [hzero]; omega, hinside, ?_, fun _ _ => hzero⟩
    rw [hcfg]
    refine h.alert.apply _ (by simp) ?_
    intro t' w _ _ _ hmem
    simp [monitor] at hmem
  · -- the others go to sleep on a counter that is not zero
    rename_i hne1
    cases hsec
    have hdata : s'.cfg.data.mExpectedThreads = s.cfg.data.mExpectedThreads - 1 := by
      rw [hcfg, apply_data]
    have hne0 : ¬ s.cfg.data.mExpectedThreads - 1 = 0 := by omega
    refine ⟨by rw [hdata]; omega, hinside, ?_, ?_⟩
    · rw [hcfg]
      exact h.alert.apply _ (by simp [hne0]) (by simp [hne0])
    · rintro t' ⟨harr, hout'⟩
      by_cases heq : t' = t
      · rw [heq, hcfg, apply_thr_self] at hout'
        cases hout'
      · rw [hcfg, monitor.apply_thr_of_ne heq, notify_eq_out] at hout'
        have hzero := h.left t' ⟨(hother t' heq).mp harr, hout'⟩
        exact absurd (h.zero_iff.mp hzero t) hnew

/-- One waiter takes the lock again. -/
theorem BarrierInv.wake {s s' : Session T SyncPoint Op Wait} {t : T} {r : Option Unit}
    (h : BarrierInv s) (hcheck : monitor.recheck t s.cfg = some (s'.cfg, r))
    (hcalls : s'.calls = s.calls) : BarrierInv s' := by
  obtain ⟨w, hw, sec, hsec, happ⟩ := monitor.recheck_some hcheck
  have hcfg : s'.cfg = (monitor.apply t sec s.cfg).1 := by rw [happ]
  have harr : ∀ t', Arrived s' t' ↔ Arrived s t' := by simp [Arrived, hcalls]
  have hin : Arrived s t := h.inside t (by simp [hw])
  have hdata : sec.data = s.cfg.data := by
    rw [wakeSection_eq] at hsec
    split at hsec <;> cases hsec <;> rfl
  have hdata' : s'.cfg.data = s.cfg.data := by rw [hcfg, apply_data, hdata]
  refine ⟨?_, ?_, ?_, ?_⟩
  · simpa only [hdata', harr] using h.count
  · intro t' ht'
    by_cases heq : t' = t
    · exact (harr t').mpr (heq ▸ hin)
    · rw [hcfg, monitor.apply_thr_of_ne heq, ne_eq, notify_eq_out] at ht'
      exact (harr t').mpr (h.inside t' ht')
  · rw [hcfg]
    refine h.alert.apply _ (fun w' hexit => monitor.settle_wait hsec hexit) ?_
    intro t' w' _ _ hpred _
    rwa [hdata]
  · rintro t' ⟨ht', hout'⟩
    rw [hdata']
    by_cases heq : t' = t
    · -- the waiter itself only leaves when the counter is zero
      rw [heq, hcfg, apply_thr_self] at hout'
      rw [wakeSection_eq] at hsec
      split at hsec <;> cases hsec
      · assumption
      · cases hout'
    · rw [hcfg, monitor.apply_thr_of_ne heq, notify_eq_out] at hout'
      exact h.left t' ⟨(harr t').mp ht', hout'⟩

theorem BarrierInv.step {s s' : Session T SyncPoint Op Wait} {e : MonitorEv T Op}
    (h : BarrierInv s) (hok : SyncOnce s e) (hs : (barrier T).step s e = some s') :
    BarrierInv s' := by
  obtain ⟨⟨r, hstep⟩, hcalls⟩ := monitor.sessions_step hs
  cases e with
  | call t op =>
      obtain ⟨rfl, hfresh⟩ := hok
      exact h.arrive hfresh hstep hcalls
  | recheck t => exact h.wake hstep hcalls
  | spurious t =>
      simp only [stepRet, Option.map_eq_some_iff, Prod.mk.injEq] at hstep
      obtain ⟨c, hsp, rfl, -⟩ := hstep
      obtain ⟨hdata, hwaiting⟩ := spurious_frame hsp
      have hout : ∀ t', s'.cfg.thr t' = .out ↔ s.cfg.thr t' = .out :=
        fun t' => Status.out_iff (hwaiting t')
      have harr : ∀ t', Arrived s' t' ↔ Arrived s t' := by simp [Arrived, hcalls, callsAfter]
      refine ⟨?_, ?_, h.alert.spurious _ hsp, ?_⟩
      · simpa only [hdata, harr] using h.count
      · exact fun t' ht' => (harr t').mpr (h.inside t' (by rwa [ne_eq, ← hout]))
      · exact fun t' ht' => hdata ▸ h.left t' ⟨(harr t').mp ht'.1, (hout t').mp ht'.2⟩
  | timeout t =>
      obtain ⟨w, -, htimed, -⟩ := monitor.timeout_some hstep
      cases htimed

theorem barrierInv_of_reachable {s : Session T SyncPoint Op Wait}
    (h : (barrier T).ReachableBy SyncOnce s) : BarrierInv s :=
  h.invariant (fun _ => BarrierInv.init) fun _ _ _ _ hinv hok hs => hinv.step hok hs

/-- A thread that has not arrived can call `sync`. -/
theorem BarrierInv.call_enabled {s : Session T SyncPoint Op Wait} (h : BarrierInv s) {t : T}
    (ht : ¬ Arrived s t) : ((barrier T).step s (.call t .sync)).isSome := by
  have hout : s.cfg.thr t = .out := by
    by_contra hne
    exact ht (h.inside t hne)
  simp only [barrier, sessions, stepRet, call, hout, Option.isSome_map, enterSection_sync]
  split <;> rfl

omit [Fintype T] in
/-- A woken waiter returns exactly when the counter is zero. -/
theorem recheck_returns_iff {c : Config T SyncPoint Wait} {t : T} {w : Wait}
    (hw : c.thr t = .woken w) :
    (∃ c', monitor.recheck t c = some (c', some ())) ↔ c.data.mExpectedThreads = 0 := by
  simp only [recheck, hw, wakeSection_eq]
  split <;> simp [Monitor.apply, Exit.result, *]

/-- Some step other than a spurious wake-up is enabled. -/
def Progress (s : Session T SyncPoint Op Wait) : Prop :=
  ∃ e, (∀ t, e ≠ .spurious t) ∧ SyncOnce s e ∧ ((barrier T).step s e).isSome

theorem BarrierInv.progress {s : Session T SyncPoint Op Wait} (h : BarrierInv s) {t : T}
    (ht : ¬ Returned s t) : Progress s := by
  by_cases harr : ∀ t', Arrived s t'
  · -- everybody has arrived: nobody sleeps, so `t` has been woken
    have hzero := h.zero_iff.mpr harr
    cases hthr : s.cfg.thr t with
    | out => exact absurd ⟨harr t, hthr⟩ ht
    | asleep w =>
        have hfalse := h.alert t w hthr
        simp [hzero] at hfalse
    | woken w =>
        obtain ⟨c', hc'⟩ := (recheck_returns_iff hthr).mpr hzero
        exact ⟨.recheck t, by simp, trivial, by simp [barrier, sessions, stepRet, hc']⟩
  · obtain ⟨t', ht'⟩ := not_forall.mp harr
    exact ⟨.call t' .sync, by simp, ⟨rfl, by simpa [Arrived] using ht'⟩, h.call_enabled ht'⟩

/-- A sync point armed with the number of its callers is a barrier: nobody gets
    out before all have arrived; once all have, nobody sleeps and every re-check
    succeeds; and until all have returned some step is enabled, so that a run
    can only end with everybody out and the counter at zero. -/
theorem sync_one_shot_barrier {s : Session T SyncPoint Op Wait}
    (h : (barrier T).ReachableBy SyncOnce s) :
    (∀ t, Returned s t → ∀ t', Arrived s t') ∧
    ((∀ t, Arrived s t) →
      (∀ t w, s.cfg.thr t ≠ .asleep w) ∧
      ∀ t w, s.cfg.thr t = .woken w →
        ∃ c', monitor.recheck t s.cfg = some (c', some ())) ∧
    (∀ t, ¬ Returned s t → Progress s) ∧
    (¬ Progress s → (∀ t, Returned s t) ∧ s.cfg.data.mExpectedThreads = 0) := by
  have hinv := barrierInv_of_reachable h
  refine ⟨?_, ?_, fun t ht => hinv.progress ht, ?_⟩
  · intro t ht
    exact hinv.zero_iff.mp (hinv.left t ht)
  · intro harr
    have hzero := hinv.zero_iff.mpr harr
    refine ⟨fun t w ht => ?_, fun t w ht => (recheck_returns_iff ht).mpr hzero⟩
    have hfalse := hinv.alert t w ht
    simp [hzero] at hfalse
  · intro hstuck
    have hall : ∀ t, Returned s t := by
      intro t
      by_contra ht
      exact hstuck (hinv.progress ht)
    exact ⟨hall, hinv.zero_iff.mpr fun t => (hall t).1⟩

/-- Two threads: the first sleeps until the second arrives, and then gets out. -/
theorem sync_one_shot_barrier_two : ∃ s : Session (Fin 2) SyncPoint Op Wait,
    (barrier (Fin 2)).ReachableBy SyncOnce s ∧ Returned s 0 ∧ ∀ t, Arrived s t := by
  have h0 : (barrier (Fin 2)).ReachableBy SyncOnce ⟨⟨⟨2⟩, fun _ => .out⟩, fun _ => []⟩ :=
    .init ⟨⟨rfl, fun _ => rfl⟩, fun _ => rfl⟩
  have h1 := h0.step (.call 0 .sync) ⟨rfl, rfl⟩ rfl
  have h2 := h1.step (.call 1 .sync) ⟨rfl, rfl⟩ rfl
  have h3 := h2.step (.recheck 0) trivial rfl
  refine ⟨_, h3, ⟨?_, rfl⟩, (sync_one_shot_barrier h3).1 0 ⟨?_, rfl⟩⟩ <;> decide

end SyncPoint
end Fredlib
