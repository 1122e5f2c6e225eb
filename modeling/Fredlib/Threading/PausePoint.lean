/-
  Fredlib.Threading.PausePoint

  `PausePoint` of include/threading.hpp: worker threads stop in `pauseIfRequred`
  while a pause is requested; `pause` waits until as many of them are paused as
  are expected, `resume` until none is left.

  Two condition variables share one mutex: workers wait on `mCvPause`, the
  controlling thread on `mCvPaused`.  `Handshake` is the invariant of any
  number of workers and one controller: the counter counts the workers in the
  paused section, nobody sleeps on a true predicate, and the phase of the
  controller fixes the pause flag.

  Counters of the source are `int`; they are integers here, so that nothing is
  said of counts that overflow, nor of an `expected` beyond `INT_MAX`, which the
  constructor takes as a `size_t` and narrows.  The milliseconds that the
  operations return are not modelled.
-/

import Fredlib.Lib.Monitor
import Mathlib.Data.Fintype.Card

namespace Fredlib

open Lib Lib.Monitor

/-- `PausePoint`. -/
structure PausePoint where
  mPause : Bool
  mPausedThreads : Int
  mExpectedThreads : Int
  deriving DecidableEq

namespace PausePoint

/-- The constructor. -/
def create (expected : Int) : PausePoint :=
  { mPause := false, mPausedThreads := 0, mExpectedThreads := expected }

/-- The public operations. -/
inductive Op
  | pauseIfRequred
  | pause
  | resume
  | initializeExpected (expected : Int)
  | addThread (num : Int)
  | setThreadnum (num : Int)
  deriving DecidableEq

/-- The condition variables. -/
inductive Cond
  | mCvPause
  | mCvPaused
  deriving DecidableEq

/-- The waits: of `pauseIfRequred`, of `pause`, of `resume`. -/
inductive Wait
  | resumed
  | allPaused
  | nonePaused
  deriving DecidableEq

/-- `pauseIfRequred`, up to its return or its wait. -/
def pauseIfRequred (p : PausePoint) : Section PausePoint Wait Cond Unit :=
  if p.mPause = true then
    ⟨{ p with mPausedThreads := p.mPausedThreads + 1 }, [.mCvPaused], .wait .resumed⟩
  else
    ⟨p, [], .ret ()⟩

/-- `pauseIfRequred`, after its wait. -/
def unpause (p : PausePoint) : PausePoint × List Cond × Unit :=
  ({ p with mPausedThreads := p.mPausedThreads - 1 }, [.mCvPaused], ())

/-- `pause`, up to its wait. -/
def pause (p : PausePoint) : Section PausePoint Wait Cond Unit :=
  ⟨{ p with mPause := true }, [], .wait .allPaused⟩

/-- `resume`, up to its wait. -/
def resume (p : PausePoint) : Section PausePoint Wait Cond Unit :=
  ⟨{ p with mPause := false }, [.mCvPause], .wait .nonePaused⟩

/-- `initialize`, whose name is a keyword of Lean. -/
def initializeExpected (p : PausePoint) (expected : Int) : PausePoint :=
  { p with mPausedThreads := 0, mExpectedThreads := expected }

/-- `add_thread`. -/
def addThread (p : PausePoint) (num : Int) : PausePoint :=
  { p with mExpectedThreads := p.mExpectedThreads + num }

/-- `set_threadnum`. -/
def setThreadnum (p : PausePoint) (num : Int) : PausePoint :=
  { p with mExpectedThreads := num }

/-- The class as a monitor. -/
def monitor : Monitor PausePoint Op Wait Cond Unit where
  enter
    | .pauseIfRequred, p => some p.pauseIfRequred
    | .pause, p => some p.pause
    | .resume, p => some p.resume
    | .initializeExpected expected, p => some ⟨p.initializeExpected expected, [], .ret ()⟩
    | .addThread num, p => some ⟨p.addThread num, [], .ret ()⟩
    | .setThreadnum num, p => some ⟨p.setThreadnum num, [], .ret ()⟩
  cond
    | .resumed => .mCvPause
    | .allPaused | .nonePaused => .mCvPaused
  pred
    | .resumed, p => !p.mPause
    | .allPaused, p => decide (p.mPausedThreads = p.mExpectedThreads)
    | .nonePaused, p => decide (p.mPausedThreads = 0)
  after
    | .resumed, p => some p.unpause
    | .allPaused, p | .nonePaused, p => some (p, [], ())
  timed _ := false

/-! ## The critical sections -/

section Sections

variable (p : PausePoint)

@[simp] theorem cond_resumed : monitor.cond .resumed = .mCvPause := rfl
@[simp] theorem cond_allPaused : monitor.cond .allPaused = .mCvPaused := rfl
@[simp] theorem cond_nonePaused : monitor.cond .nonePaused = .mCvPaused := rfl
@[simp] theorem pred_resumed : monitor.pred .resumed p = !p.mPause := rfl
@[simp] theorem pred_allPaused :
    monitor.pred .allPaused p = decide (p.mPausedThreads = p.mExpectedThreads) := rfl
@[simp] theorem pred_nonePaused :
    monitor.pred .nonePaused p = decide (p.mPausedThreads = 0) := rfl

/-- A worker goes to sleep exactly when a pause is requested. -/
theorem enterSection_pauseIfRequred :
    monitor.enterSection .pauseIfRequred p =
      if p.mPause then
        some ⟨{ p with mPausedThreads := p.mPausedThreads + 1 }, [.mCvPaused], .wait .resumed⟩
      else some ⟨p, [], .ret ()⟩ := by
  cases h : p.mPause <;>
    simp [enterSection, settle, monitor, pauseIfRequred, h]

theorem enterSection_pause :
    monitor.enterSection .pause p =
      if p.mPausedThreads = p.mExpectedThreads then
        some ⟨{ p with mPause := true }, [], .ret ()⟩
      else some ⟨{ p with mPause := true }, [], .wait .allPaused⟩ := by
  by_cases h : p.mPausedThreads = p.mExpectedThreads <;>
    simp [enterSection, settle, finish, monitor, pause, h]

theorem enterSection_resume :
    monitor.enterSection .resume p =
      if p.mPausedThreads = 0 then
        some ⟨{ p with mPause := false }, [.mCvPause], .ret ()⟩
      else some ⟨{ p with mPause := false }, [.mCvPause], .wait .nonePaused⟩ := by
  by_cases h : p.mPausedThreads = 0 <;>
    simp [enterSection, settle, finish, monitor, resume, h]

@[simp] theorem enterSection_addThread (num : Int) :
    monitor.enterSection (.addThread num) p =
      some ⟨{ p with mExpectedThreads := p.mExpectedThreads + num }, [], .ret ()⟩ := rfl

@[simp] theorem enterSection_setThreadnum (num : Int) :
    monitor.enterSection (.setThreadnum num) p =
      some ⟨{ p with mExpectedThreads := num }, [], .ret ()⟩ := rfl

@[simp] theorem enterSection_initializeExpected (expected : Int) :
    monitor.enterSection (.initializeExpected expected) p =
      some ⟨{ p with mPausedThreads := 0, mExpectedThreads := expected }, [], .ret ()⟩ := rfl

theorem wakeSection_resumed :
    monitor.wakeSection .resumed p =
      if p.mPause then some ⟨p, [], .wait .resumed⟩
      else some ⟨{ p with mPausedThreads := p.mPausedThreads - 1 }, [.mCvPaused], .ret ()⟩ := by
  cases h : p.mPause <;>
    simp [wakeSection, settle, finish, monitor, unpause, h]

theorem wakeSection_allPaused :
    monitor.wakeSection .allPaused p =
      if p.mPausedThreads = p.mExpectedThreads then some ⟨p, [], .ret ()⟩
      else some ⟨p, [], .wait .allPaused⟩ := by
  by_cases h : p.mPausedThreads = p.mExpectedThreads <;>
    simp [wakeSection, settle, finish, monitor, h]

theorem wakeSection_nonePaused :
    monitor.wakeSection .nonePaused p =
      if p.mPausedThreads = 0 then some ⟨p, [], .ret ()⟩
      else some ⟨p, [], .wait .nonePaused⟩ := by
  by_cases h : p.mPausedThreads = 0 <;>
    simp [wakeSection, settle, finish, monitor, h]

end Sections

/-! ## Waits, counter and flag -/

section Effects

variable {p : PausePoint} {op : Op} {w w' : Wait} {e : Section PausePoint Wait Cond Unit}

/-- The wait of an operation, if it has one. -/
def Op.wait : Op → Option Wait
  | .pauseIfRequred => some .resumed
  | .pause => some .allPaused
  | .resume => some .nonePaused
  | _ => none

/-- What an operation makes of the expected number of threads. -/
def Op.expected : Op → Int → Int
  | .initializeExpected expected, _ => expected
  | .addThread num, n => n + num
  | .setThreadnum num, _ => num
  | _, n => n

/-- What an operation makes of the pause flag. -/
def Op.flag : Op → Bool → Bool
  | .pause, _ => true
  | .resume, _ => false
  | _, b => b

theorem enterSection_wait (h : monitor.enterSection op p = some e) (hw : e.exit = .wait w) :
    op.wait = some w := by
  cases op with
  | pauseIfRequred =>
      rw [enterSection_pauseIfRequred] at h
      split at h <;> cases h <;> cases hw
      rfl
  | pause =>
      rw [enterSection_pause] at h
      split at h <;> cases h <;> cases hw
      rfl
  | resume =>
      rw [enterSection_resume] at h
      split at h <;> cases h <;> cases hw
      rfl
  | _ =>
      cases h
      cases hw

theorem enterSection_effect (h : monitor.enterSection op p = some e) :
    e.data.mExpectedThreads = op.expected p.mExpectedThreads ∧
      e.data.mPause = op.flag p.mPause := by
  cases op with
  | pauseIfRequred =>
      rw [enterSection_pauseIfRequred] at h
      split at h <;> cases h <;> exact ⟨rfl, rfl⟩
  | pause =>
      rw [enterSection_pause] at h
      split at h <;> cases h <;> exact ⟨rfl, rfl⟩
  | resume =>
      rw [enterSection_resume] at h
      split at h <;> cases h <;> exact ⟨rfl, rfl⟩
  | _ =>
      cases h
      exact ⟨rfl, rfl⟩

theorem wakeSection_effect (h : monitor.wakeSection w p = some e) :
    e.data.mExpectedThreads = p.mExpectedThreads ∧ e.data.mPause = p.mPause := by
  cases w with
  | resumed =>
      rw [wakeSection_resumed] at h
      split at h <;> cases h <;> exact ⟨rfl, rfl⟩
  | allPaused =>
      rw [wakeSection_allPaused] at h
      split at h <;> cases h <;> exact ⟨rfl, rfl⟩
  | nonePaused =>
      rw [wakeSection_nonePaused] at h
      split at h <;> cases h <;> exact ⟨rfl, rfl⟩

end Effects

-- ============================================================================
-- The handshake invariant
-- ============================================================================

variable {T : Type*} [DecidableEq T] {worker : T → Prop} {c c' : Config T PausePoint Wait}

/-- Who calls what: workers check in, the others control.  The counters are
    only set anew while nobody is inside. -/
def Roles (worker : T → Prop) (c : Config T PausePoint Wait) : MonitorEv T Op → Prop
  | .call t .pauseIfRequred => worker t
  | .call t (.initializeExpected _) => ¬ worker t ∧ ∀ t', c.thr t' = .out
  | .call t _ => ¬ worker t
  | _ => True

/-- The invariant of any number of workers and one controller. -/
structure Handshake (worker : T → Prop) (c : Config T PausePoint Wait) : Prop where
  roles : ∀ t w, (c.thr t).waiting = some w → (w = .resumed ↔ worker t)
  paused : HasCount .resumed c.data.mPausedThreads c
  alert : monitor.Alert c
  pausing : ∀ t, (c.thr t).waiting = some .allPaused → c.data.mPause = true
  resuming : ∀ t, (c.thr t).waiting = some .nonePaused → c.data.mPause = false

omit [DecidableEq T] in
theorem Handshake.init (hdata : c.data.mPausedThreads = 0) (hthr : ∀ t, c.thr t = .out) :
    Handshake worker c := by
  have hnone : ∀ t w, (c.thr t).waiting ≠ some w := by
    intro t w
    simp [hthr t, Status.waiting]
  refine ⟨fun t w h => absurd h (hnone t w), ⟨∅, ?_, by simp [hdata]⟩, ?_, ?_, ?_⟩
  · exact fun t => ⟨fun h => absurd h (Finset.notMem_empty t), fun h => absurd h (hnone t _)⟩
  · intro t w h
    rw [hthr t] at h
    cases h
  · exact fun t h => absurd h (hnone t _)
  · exact fun t h => absurd h (hnone t _)

omit [DecidableEq T] in
/-- A thread asleep on one of the controller's waits is not a worker. -/
theorem Handshake.not_worker (h : Handshake worker c) {t : T} {w : Wait}
    (hw : (c.thr t).waiting = some w) (hne : w ≠ .resumed) : ¬ worker t :=
  fun ht => hne ((h.roles t w hw).mpr ht)

/-- What a critical section has to do to keep the handshake. -/
theorem Handshake.apply {t : T} {e : Section PausePoint Wait Cond Unit}
    (h : Handshake worker c) (hone : ∀ t t', ¬ worker t → ¬ worker t' → t = t')
    (hexit : ∀ w, e.exit = .wait w → (w = .resumed ↔ worker t) ∧ monitor.pred w e.data = false)
    (hcount : e.data.mPausedThreads = c.data.mPausedThreads
      - (if (c.thr t).waiting = some .resumed then 1 else 0)
      + (if e.exit.status.waiting = some .resumed then 1 else 0))
    (hcover : ∀ t' w, t' ≠ t → c.thr t' = .asleep w → monitor.pred w c.data = false →
      monitor.cond w ∉ e.notified → monitor.pred w e.data = false)
    (hpausing : e.exit = .wait .allPaused → e.data.mPause = true)
    (hresuming : e.exit = .wait .nonePaused → e.data.mPause = false)
    (hkeep : worker t → e.data.mPause = c.data.mPause) :
    Handshake worker (monitor.apply t e c).1 := by
  have hstatus : ∀ w, e.exit.status.waiting = some w → e.exit = .wait w := by
    intro w hw
    cases hexit : e.exit with
    | ret r => rw [hexit] at hw; cases hw
    | wait w' => rw [hexit] at hw; cases hw; rfl
  -- another thread at a controller's wait means that `t` is a worker
  have hflag : ∀ t' w, t' ≠ t → (c.thr t').waiting = some w → w ≠ .resumed →
      e.data.mPause = c.data.mPause := by
    intro t' w hne hw hw'
    by_cases ht : worker t
    · exact hkeep ht
    · exact absurd (hone t' t (h.not_worker hw hw') ht) hne
  refine ⟨?_, ?_, ?_, ?_, ?_⟩
  · intro t' w hw
    by_cases heq : t' = t
    · subst heq
      rw [apply_thr_self] at hw
      exact (hexit w (hstatus w hw)).1
    · rw [monitor.apply_thr_of_ne heq, waiting_notify] at hw
      exact h.roles t' w hw
  · rw [apply_data, hcount]
    exact h.paused.apply monitor t e
  · exact h.alert.apply _ (fun w hw => (hexit w hw).2) hcover
  · intro t' hw
    rw [apply_data]
    by_cases heq : t' = t
    · subst heq
      rw [apply_thr_self] at hw
      exact hpausing (hstatus _ hw)
    · rw [monitor.apply_thr_of_ne heq, waiting_notify] at hw
      rw [hflag t' _ heq hw (by simp)]
      exact h.pausing t' hw
  · intro t' hw
    rw [apply_data]
    by_cases heq : t' = t
    · subst heq
      rw [apply_thr_self] at hw
      exact hresuming (hstatus _ hw)
    · rw [monitor.apply_thr_of_ne heq, waiting_notify] at hw
      rw [hflag t' _ heq hw (by simp)]
      exact h.resuming t' hw

theorem Handshake.spurious {t : T} (h : Handshake worker c)
    (hs : Monitor.spurious t c = some c') : Handshake worker c' := by
  obtain ⟨hdata, hwaiting⟩ := spurious_frame hs
  refine ⟨?_, ?_, h.alert.spurious _ hs, ?_, ?_⟩
  · exact fun t' w hw => h.roles t' w (by rwa [← hwaiting])
  · rw [hdata]
    exact h.paused.spurious hs
  · exact fun t' hw => hdata ▸ h.pausing t' (by rwa [← hwaiting])
  · exact fun t' hw => hdata ▸ h.resuming t' (by rwa [← hwaiting])

/-- A worker checks in. -/
theorem Handshake.call_pauseIfRequred {t : T} {r : Option Unit} (h : Handshake worker c)
    (hone : ∀ t t', ¬ worker t → ¬ worker t' → t = t') (ht : worker t)
    (hcall : monitor.call t .pauseIfRequred c = some (c', r)) : Handshake worker c' := by
  obtain ⟨hout, e, hsec, happ⟩ := monitor.call_some hcall
  have hc' : c' = (monitor.apply t e c).1 := by rw [happ]
  rw [enterSection_pauseIfRequred] at hsec
  rw [hc']
  split at hsec <;> rename_i hpause <;> cases hsec
  · refine h.apply hone ?_ ?_ ?_ ?_ ?_ ?_
    · simp [ht, hpause]
    · simp [hout, Status.waiting, Exit.status]
    · intro t' w _ hw hpred hnot
      cases w with
      | resumed => simp [hpause]
      | allPaused => simp at hnot
      | nonePaused => simp at hnot
    · simp
    · simp
    · simp
  · refine h.apply hone ?_ ?_ ?_ ?_ ?_ ?_
    · simp
    · simp [hout, Status.waiting, Exit.status]
    · exact fun _ _ _ _ hpred _ => hpred
    · simp
    · simp
    · simp

omit [DecidableEq T] in
/-- While one controller runs, whoever else sleeps waits for a resume. -/
theorem Handshake.asleep_other {t t' : T} {w : Wait} (h : Handshake worker c)
    (hone : ∀ t t', ¬ worker t → ¬ worker t' → t = t') (ht : ¬ worker t) (hne : t' ≠ t)
    (hw : c.thr t' = .asleep w) : w = .resumed := by
  by_contra hw'
  exact hne (hone t' t (h.not_worker (by rw [hw]; rfl) hw') ht)

/-- The controller requests a pause. -/
theorem Handshake.call_pause {t : T} {r : Option Unit} (h : Handshake worker c)
    (hone : ∀ t t', ¬ worker t → ¬ worker t' → t = t') (ht : ¬ worker t)
    (hcall : monitor.call t .pause c = some (c', r)) : Handshake worker c' := by
  obtain ⟨hout, e, hsec, happ⟩ := monitor.call_some hcall
  have hc' : c' = (monitor.apply t e c).1 := by rw [happ]
  have hcover : ∀ t' w, t' ≠ t → c.thr t' = .asleep w →
      monitor.pred w { c.data with mPause := true } = false := by
    intro t' w hne hw
    rw [h.asleep_other hone ht hne hw]
    rfl
  rw [enterSection_pause] at hsec
  rw [hc']
  split at hsec <;> rename_i hall <;> cases hsec
  all_goals
    refine h.apply hone ?_ ?_ ?_ ?_ ?_ ?_
    · simp [ht, hall]
    · simp [hout, Status.waiting, Exit.status]
    · exact fun t' w hne hw _ _ => hcover t' w hne hw
    · simp
    · simp
    · exact fun hwk => absurd hwk ht

/-- The controller requests a resume. -/
theorem Handshake.call_resume {t : T} {r : Option Unit} (h : Handshake worker c)
    (hone : ∀ t t', ¬ worker t → ¬ worker t' → t = t') (ht : ¬ worker t)
    (hcall : monitor.call t .resume c = some (c', r)) : Handshake worker c' := by
  obtain ⟨hout, e, hsec, happ⟩ := monitor.call_some hcall
  have hc' : c' = (monitor.apply t e c).1 := by rw [happ]
  rw [enterSection_resume] at hsec
  rw [hc']
  split at hsec <;> rename_i hall <;> cases hsec
  all_goals
    refine h.apply hone ?_ ?_ ?_ ?_ ?_ ?_
    · simp [ht, hall]
    · simp [hout, Status.waiting, Exit.status]
    · -- every sleeping worker is notified
      intro t' w hne hw _ hnot
      rw [h.asleep_other hone ht hne hw] at hnot
      simp at hnot
    · simp
    · simp
    · exact fun hwk => absurd hwk ht

/-- The controller sets the expected number anew: it leaves the flag and the
    number of paused workers alone. -/
theorem Handshake.call_count {t : T} {r : Option Unit} {op : Op} {expected : Int}
    (h : Handshake worker c) (hone : ∀ t t', ¬ worker t → ¬ worker t' → t = t')
    (ht : ¬ worker t) (hop : monitor.enterSection op c.data =
      some ⟨{ c.data with mExpectedThreads := expected }, [], .ret ()⟩)
    (hcall : monitor.call t op c = some (c', r)) : Handshake worker c' := by
  obtain ⟨hout, e, hsec, happ⟩ := monitor.call_some hcall
  have hc' : c' = (monitor.apply t e c).1 := by rw [happ]
  rw [hop] at hsec
  cases hsec
  rw [hc']
  refine h.apply hone ?_ ?_ ?_ ?_ ?_ ?_
  · simp
  · simp [hout, Status.waiting, Exit.status]
  · intro t' w hne hw hpred _
    have hres := h.asleep_other hone ht hne hw
    subst hres
    simpa using hpred
  · simp
  · simp
  · exact fun hwk => absurd hwk ht

/-- A woken thread takes the lock again. -/
theorem Handshake.recheck {t : T} {r : Option Unit} (h : Handshake worker c)
    (hone : ∀ t t', ¬ worker t → ¬ worker t' → t = t')
    (hcheck : monitor.recheck t c = some (c', r)) : Handshake worker c' := by
  obtain ⟨w, hw, e, hsec, happ⟩ := monitor.recheck_some hcheck
  have hc' : c' = (monitor.apply t e c).1 := by rw [happ]
  have hwait : (c.thr t).waiting = some w := by rw [hw]; rfl
  have hrole := h.roles t w hwait
  rw [hc']
  cases w with
  | resumed =>
      have ht : worker t := hrole.mp rfl
      rw [wakeSection_resumed] at hsec
      split at hsec <;> rename_i hpause <;> cases hsec
      · -- still paused: back to sleep
        refine h.apply hone ?_ ?_ ?_ ?_ ?_ ?_
        · simp [ht, hpause]
        · simp [hw, Status.waiting, Exit.status]
        · exact fun _ _ _ _ hpred _ => hpred
        · simp
        · simp
        · simp
      · -- leaves the paused section and tells the controller
        refine h.apply hone ?_ ?_ ?_ ?_ ?_ ?_
        · simp
        · simp [hw, Status.waiting, Exit.status]
        · intro t' w _ hw' hpred hnot
          cases w with
          | resumed => exact hpred
          | allPaused => simp at hnot
          | nonePaused => simp at hnot
        · simp
        · simp
        · simp
  | allPaused =>
      have hpausing := h.pausing t hwait
      have ht : ¬ worker t := h.not_worker hwait (by simp)
      rw [wakeSection_allPaused] at hsec
      split at hsec <;> rename_i hall <;> cases hsec
      all_goals
        refine h.apply hone ?_ ?_ ?_ ?_ ?_ ?_
        · simp [ht, hall]
        · simp [hw, Status.waiting, Exit.status]
        · exact fun _ _ _ _ hpred _ => hpred
        · simp [hpausing]
        · simp
        · simp
  | nonePaused =>
      have hresuming := h.resuming t hwait
      have ht : ¬ worker t := h.not_worker hwait (by simp)
      rw [wakeSection_nonePaused] at hsec
      split at hsec <;> rename_i hnone <;> cases hsec
      all_goals
        refine h.apply hone ?_ ?_ ?_ ?_ ?_ ?_
        · simp [ht, hnone]
        · simp [hw, Status.waiting, Exit.status]
        · exact fun _ _ _ _ hpred _ => hpred
        · simp
        · simp [hresuming]
        · simp

/-- Every step of workers and one controller keeps the handshake. -/
theorem Handshake.step {e : MonitorEv T Op} {r : Option Unit} (h : Handshake worker c)
    (hone : ∀ t t', ¬ worker t → ¬ worker t' → t = t') (hroles : Roles worker c e)
    (hs : monitor.stepRet c e = some (c', r)) : Handshake worker c' := by
  cases e with
  | call t op =>
      cases op with
      | pauseIfRequred => exact h.call_pauseIfRequred hone hroles hs
      | pause => exact h.call_pause hone hroles hs
      | resume => exact h.call_resume hone hroles hs
      | addThread num => exact h.call_count hone hroles (enterSection_addThread _ _) hs
      | setThreadnum num => exact h.call_count hone hroles (enterSection_setThreadnum _ _) hs
      | initializeExpected expected =>
          obtain ⟨-, hempty⟩ := hroles
          obtain ⟨hout, e, hsec, happ⟩ := monitor.call_some hs
          have hc' : c' = (monitor.apply t e c).1 := by rw [happ]
          simp only [enterSection_initializeExpected, Option.some.injEq] at hsec
          subst hsec
          refine Handshake.init (by rw [hc']; rfl) fun t' => ?_
          by_cases heq : t' = t
          · rw [heq, hc', apply_thr_self]
            rfl
          · rw [hc', monitor.apply_thr_of_ne heq, notify_eq_out]
            exact hempty t'
  | recheck t => exact h.recheck hone hs
  | spurious t =>
      simp only [stepRet, Option.map_eq_some_iff, Prod.mk.injEq] at hs
      obtain ⟨c₁, hsp, rfl, -⟩ := hs
      exact h.spurious hsp
  | timeout t =>
      obtain ⟨w, -, htimed, -⟩ := monitor.timeout_some hs
      cases htimed

-- ============================================================================
-- Steps of an operation
-- ============================================================================

section Advance

variable {t : T} {op : Op} {r : Option Unit}

theorem Handshake.advance (h : Handshake worker c)
    (hone : ∀ t t', ¬ worker t → ¬ worker t' → t = t') (hroles : Roles worker c (.call t op))
    (hs : monitor.advance t op c = some (c', r)) : Handshake worker c' := by
  rcases monitor.advance_some hs with ⟨-, hcall⟩ | ⟨w, -, hcheck⟩
  · exact h.step (e := .call t op) hone hroles hcall
  · exact h.recheck hone hcheck

/-- A thread inside an operation is at the wait of that operation. -/
theorem advance_wait (hs : monitor.advance t op c = some (c', r))
    (hat : ∀ w, (c.thr t).waiting = some w → op.wait = some w) {w : Wait}
    (hw : (c'.thr t).waiting = some w) : op.wait = some w := by
  have hexit : ∀ {e : Section PausePoint Wait Cond Unit}, monitor.apply t e c = (c', r) →
      e.exit = .wait w := by
    intro e happ
    have hc' : c' = (monitor.apply t e c).1 := by rw [happ]
    rw [hc', apply_thr_self] at hw
    cases hexit : e.exit with
    | ret _ => rw [hexit] at hw; cases hw
    | wait w' => rw [hexit] at hw; cases hw; rfl
  rcases monitor.advance_some hs with ⟨-, hcall⟩ | ⟨w', hw', hcheck⟩
  · obtain ⟨-, e, hsec, happ⟩ := monitor.call_some hcall
    exact enterSection_wait hsec (hexit happ)
  · obtain ⟨w'', hw'', e, hsec, happ⟩ := monitor.recheck_some hcheck
    rw [monitor.wakeSection_wait hsec (hexit happ)]
    exact hat w'' (by rw [hw'']; rfl)

/-- The first section of an operation makes of the counter and the flag what the
    operation does. -/
theorem call_effect (hs : monitor.call t op c = some (c', r)) :
    c'.data.mExpectedThreads = op.expected c.data.mExpectedThreads ∧
      c'.data.mPause = op.flag c.data.mPause := by
  obtain ⟨-, e, hsec, happ⟩ := monitor.call_some hs
  have hc' : c' = (monitor.apply t e c).1 := by rw [happ]
  rw [hc', apply_data]
  exact enterSection_effect hsec

/-- A woken waiter leaves both alone. -/
theorem recheck_effect (hs : monitor.recheck t c = some (c', r)) :
    c'.data.mExpectedThreads = c.data.mExpectedThreads ∧ c'.data.mPause = c.data.mPause := by
  obtain ⟨w, -, e, hsec, happ⟩ := monitor.recheck_some hs
  have hc' : c' = (monitor.apply t e c).1 := by rw [happ]
  rw [hc', apply_data]
  exact wakeSection_effect hsec

theorem advance_effect (hs : monitor.advance t op c = some (c', r)) :
    (c.thr t = .out → c'.data.mExpectedThreads = op.expected c.data.mExpectedThreads ∧
      c'.data.mPause = op.flag c.data.mPause) ∧
    (c.thr t ≠ .out → c'.data.mExpectedThreads = c.data.mExpectedThreads ∧
      c'.data.mPause = c.data.mPause) := by
  rcases monitor.advance_some hs with ⟨hout, hcall⟩ | ⟨w', hw', hcheck⟩
  · exact ⟨fun _ => call_effect hcall, fun hne => absurd hout hne⟩
  · exact ⟨fun hout => by simp [hw'] at hout, fun _ => recheck_effect hcheck⟩

/-- An operation that may wait leaves the expected number alone. -/
theorem advance_expected (hs : monitor.advance t op c = some (c', r)) (hop : op.wait.isSome) :
    c'.data.mExpectedThreads = c.data.mExpectedThreads := by
  by_cases hout : c.thr t = .out
  · rw [((advance_effect hs).1 hout).1]
    cases op <;> first | rfl | cases hop
  · exact ((advance_effect hs).2 hout).1

/-- Only `pause` and `resume` change the pause flag. -/
theorem advance_mPause (hs : monitor.advance t op c = some (c', r)) (hp : op ≠ .pause)
    (hr : op ≠ .resume) : c'.data.mPause = c.data.mPause := by
  by_cases hout : c.thr t = .out
  · rw [((advance_effect hs).1 hout).2]
    cases op <;> first | rfl | exact absurd rfl hp | exact absurd rfl hr
  · exact ((advance_effect hs).2 hout).2

/-- Only `resume` takes the pause flag down. -/
theorem advance_flag (hs : monitor.advance t op c = some (c', r)) (hop : op ≠ .resume)
    (hflag : c.data.mPause = true) : c'.data.mPause = true := by
  by_cases hout : c.thr t = .out
  · rw [((advance_effect hs).1 hout).2, hflag]
    cases op <;> first | rfl | exact absurd rfl hop
  · rw [((advance_effect hs).2 hout).2, hflag]

/-- A worker sleeps in `pauseIfRequred` only while a pause is on: `resume` wakes
    them all. -/
theorem asleep_advance (h : ∀ t, c.thr t = .asleep .resumed → c.data.mPause = true)
    (hs : monitor.advance t op c = some (c', r)) (t' : T) (ht' : c'.thr t' = .asleep .resumed) :
    c'.data.mPause = true := by
  by_cases heq : t' = t
  · subst heq
    simpa using monitor.pred_of_asleep hs ht'
  · have hold := h t' (monitor.asleep_of_advance hs heq ht')
    by_cases hop : op = .resume
    · subst hop
      rcases monitor.advance_some hs with ⟨-, hcall⟩ | ⟨w, -, hcheck⟩
      · obtain ⟨-, e, hsec, happ⟩ := monitor.call_some hcall
        have hc' : c' = (monitor.apply t e c).1 := by rw [happ]
        rw [hc', monitor.apply_thr_of_ne heq, notify_eq_asleep] at ht'
        rw [enterSection_resume] at hsec
        split at hsec <;> cases hsec <;> simp at ht'
      · rw [(recheck_effect hcheck).2, hold]
    · exact advance_flag hs hop hold

/-- While no pause is on, a worker that is awake gets through `pauseIfRequred`. -/
theorem check_returns (hat : ∀ w, (c.thr t).waiting = some w → w = .resumed)
    (hawake : c.thr t ≠ .asleep .resumed) (hflag : c.data.mPause = false) :
    ∃ c', monitor.advance t .pauseIfRequred c = some (c', some ()) := by
  cases hthr : c.thr t with
  | out =>
      refine ⟨_, monitor.advance_of_out hthr (e := ⟨c.data, [], .ret ()⟩) ?_⟩
      rw [enterSection_pauseIfRequred, if_neg (by simp [hflag])]
  | asleep w =>
      have hres := hat w (by rw [hthr]; rfl)
      subst hres
      exact absurd hthr hawake
  | woken w =>
      have hres := hat w (by rw [hthr]; rfl)
      subst hres
      refine ⟨_, monitor.advance_of_woken hthr
        (e := ⟨{ c.data with mPausedThreads := c.data.mPausedThreads - 1 }, [.mCvPaused],
          .ret ()⟩) ?_⟩
      rw [wakeSection_resumed, if_neg (by simp [hflag])]

theorem enterSection_paused {p : PausePoint} {e : Section PausePoint Wait Cond Unit}
    (h : monitor.enterSection op p = some e) (hop : ∀ k, op ≠ .initializeExpected k) :
    e.data.mPausedThreads =
      p.mPausedThreads + (if e.exit.status.waiting = some .resumed then 1 else 0) := by
  cases op with
  | pauseIfRequred =>
      rw [enterSection_pauseIfRequred] at h
      split at h <;> cases h <;> simp [Exit.status, Status.waiting]
  | pause =>
      rw [enterSection_pause] at h
      split at h <;> cases h <;> simp [Exit.status, Status.waiting]
  | resume =>
      rw [enterSection_resume] at h
      split at h <;> cases h <;> simp [Exit.status, Status.waiting]
  | initializeExpected k => exact absurd rfl (hop k)
  | addThread num =>
      cases h
      simp [Exit.status, Status.waiting, addThread]
  | setThreadnum num =>
      cases h
      simp [Exit.status, Status.waiting, setThreadnum]

theorem wakeSection_paused {p : PausePoint} {w : Wait} {e : Section PausePoint Wait Cond Unit}
    (h : monitor.wakeSection w p = some e) :
    e.data.mPausedThreads = p.mPausedThreads - (if w = .resumed then 1 else 0)
      + (if e.exit.status.waiting = some .resumed then 1 else 0) := by
  cases w with
  | resumed =>
      rw [wakeSection_resumed] at h
      split at h <;> cases h <;> simp [Exit.status, Status.waiting]
  | allPaused =>
      rw [wakeSection_allPaused] at h
      split at h <;> cases h <;> simp [Exit.status, Status.waiting]
  | nonePaused =>
      rw [wakeSection_nonePaused] at h
      split at h <;> cases h <;> simp [Exit.status, Status.waiting]

/-- The number of paused threads counts those at the wait of `pauseIfRequred`,
    whatever is called but `initialize`. -/
theorem paused_advance (h : HasCount .resumed c.data.mPausedThreads c)
    (hop : ∀ k, op ≠ .initializeExpected k) (hs : monitor.advance t op c = some (c', r)) :
    HasCount .resumed c'.data.mPausedThreads c' := by
  rcases monitor.advance_some hs with ⟨hout, hcall⟩ | ⟨w, -, hcheck⟩
  · obtain ⟨-, e, hsec, happ⟩ := monitor.call_some hcall
    have hc' : c' = (monitor.apply t e c).1 := by rw [happ]
    have hcount := h.apply monitor t e
    rw [hc', apply_data, enterSection_paused hsec hop]
    simpa [hout, Status.waiting] using hcount
  · obtain ⟨w, hw, e, hsec, happ⟩ := monitor.recheck_some hcheck
    have hc' : c' = (monitor.apply t e c).1 := by rw [happ]
    have hcount := h.apply monitor t e
    rw [hc', apply_data, wakeSection_paused hsec]
    simpa [hw, Status.waiting] using hcount

/-- While a pause is requested no call of `pauseIfRequred` returns. -/
theorem check_paused (hat : ∀ w, (c.thr t).waiting = some w → w = .resumed)
    (hpause : c.data.mPause = true)
    (hs : monitor.advance t .pauseIfRequred c = some (c', r)) : r = none := by
  rcases monitor.advance_some hs with ⟨-, hcall⟩ | ⟨w', -, hcheck⟩
  · obtain ⟨-, e, hsec, happ⟩ := monitor.call_some hcall
    rw [enterSection_pauseIfRequred, if_pos hpause] at hsec
    cases hsec
    cases happ
    rfl
  · obtain ⟨w, hw, e, hsec, happ⟩ := monitor.recheck_some hcheck
    have hres := hat w (by rw [hw]; rfl)
    subst hres
    rw [wakeSection_resumed, if_pos hpause] at hsec
    cases hsec
    cases happ
    rfl

/-- When `pause` returns the flag is set, and all expected threads are paused. -/
theorem pause_met (hat : ∀ w, (c.thr t).waiting = some w → w = .allPaused)
    (hflag : (c.thr t).waiting = some .allPaused → c.data.mPause = true)
    (hs : monitor.advance t .pause c = some (c', some ())) :
    c.data.mPausedThreads = c.data.mExpectedThreads ∧ c'.data = { c.data with mPause := true } := by
  rcases monitor.advance_some hs with ⟨-, hcall⟩ | ⟨w', -, hcheck⟩
  · obtain ⟨-, e, hsec, happ⟩ := monitor.call_some hcall
    rw [enterSection_pause] at hsec
    split at hsec <;> rename_i hall <;> cases hsec <;> cases happ
    exact ⟨hall, rfl⟩
  · obtain ⟨w, hw, e, hsec, happ⟩ := monitor.recheck_some hcheck
    have hwait : (c.thr t).waiting = some w := by rw [hw]; rfl
    have hall := hat w hwait
    subst hall
    rw [wakeSection_allPaused] at hsec
    split at hsec <;> rename_i hmet <;> cases hsec <;> cases happ
    refine ⟨hmet, ?_⟩
    rw [← hflag hwait]

theorem Handshake.pause_returns (h : Handshake worker c)
    (hat : ∀ w, (c.thr t).waiting = some w → w = .allPaused)
    (hs : monitor.advance t .pause c = some (c', some ())) :
    c'.data.mPause = true ∧ c'.data.mPausedThreads = c'.data.mExpectedThreads := by
  obtain ⟨hmet, hdata⟩ := pause_met hat (h.pausing t) hs
  rw [hdata]
  exact ⟨rfl, hmet⟩

theorem Handshake.check_paused (h : Handshake worker c) (ht : worker t)
    (hpause : c.data.mPause = true)
    (hs : monitor.advance t .pauseIfRequred c = some (c', r)) : r = none :=
  PausePoint.check_paused (fun w hw => (h.roles t w hw).mpr ht) hpause hs

end Advance

end PausePoint
end Fredlib
