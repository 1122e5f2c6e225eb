/-
  Fredlib.Threading.FanInPoint

  `FanInPoint` of include/threading.hpp: child threads call `done`, the parent
  waits in `wait` until the counter of expected threads is zero.  Of all
  operations only `done` notifies.

  The counter of the source is an `int`; it is an integer here, so that nothing
  is said of counts that overflow.  The milliseconds that `wait` returns are
  not modelled.
-/

import Fredlib.Lib.Monitor

namespace Fredlib

open Lib Lib.Monitor

/-- `FanInPoint`. -/
structure FanInPoint where
  mExpectedThreads : Int
  deriving DecidableEq

namespace FanInPoint

/-- The public operations. -/
inductive Op
  | done
  | wait
  | add
  | initializeExpected (expected : Int)
  | addThread (num : Int)
  | setThreadnum (num : Int)
  deriving DecidableEq

/-- The condition variable. -/
inductive Cond
  | mCvFanIn
  deriving DecidableEq

/-- The one wait, in `wait`. -/
inductive Wait
  | fannedIn
  deriving DecidableEq

/-- `done`. -/
def done (p : FanInPoint) : Section FanInPoint Wait Cond Unit :=
  ⟨{ p with mExpectedThreads := p.mExpectedThreads - 1 }, [.mCvFanIn], .ret ()⟩

/-- `wait`, up to its wait. -/
def wait (p : FanInPoint) : Section FanInPoint Wait Cond Unit :=
  ⟨p, [], .wait .fannedIn⟩

/-- `add`. -/
def add (p : FanInPoint) : FanInPoint :=
  { p with mExpectedThreads := p.mExpectedThreads + 1 }

/-- `initialize`, whose name is a keyword of Lean. -/
def initializeExpected (p : FanInPoint) (expected : Int) : FanInPoint :=
  { p with mExpectedThreads := expected }

/-- `add_thread`. -/
def addThread (p : FanInPoint) (num : Int) : FanInPoint :=
  { p with mExpectedThreads := p.mExpectedThreads + num }

/-- `set_threadnum`. -/
def setThreadnum (p : FanInPoint) (num : Int) : FanInPoint :=
  { p with mExpectedThreads := num }

/-- The class as a monitor. -/
def monitor : Monitor FanInPoint Op Wait Cond Unit where
  enter
    | .done, p => some p.done
    | .wait, p => some p.wait
    | .add, p => some ⟨p.add, [], .ret ()⟩
    | .initializeExpected expected, p => some ⟨p.initializeExpected expected, [], .ret ()⟩
    | .addThread num, p => some ⟨p.addThread num, [], .ret ()⟩
    | .setThreadnum num, p => some ⟨p.setThreadnum num, [], .ret ()⟩
  cond _ := .mCvFanIn
  pred _ p := decide (p.mExpectedThreads = 0)
  after _ p := some (p, [], ())
  timed _ := false

@[simp] theorem pred_eq (w : Wait) (p : FanInPoint) :
    monitor.pred w p = decide (p.mExpectedThreads = 0) := rfl

/-! ## The critical sections -/

@[simp] theorem enterSection_addThread (num : Int) (p : FanInPoint) :
    monitor.enterSection (.addThread num) p =
      some ⟨⟨p.mExpectedThreads + num⟩, [], .ret ()⟩ := rfl

/-- A waiter returns at once, or when it is woken, if the counter is zero. -/
theorem wakeSection_eq (w : Wait) (p : FanInPoint) :
    monitor.wakeSection w p =
      if p.mExpectedThreads = 0 then some ⟨p, [], .ret ()⟩ else some ⟨p, [], .wait w⟩ := by
  by_cases h : p.mExpectedThreads = 0 <;>
    simp [wakeSection, settle, finish, monitor, h]

theorem enterSection_wait (p : FanInPoint) :
    monitor.enterSection .wait p = monitor.wakeSection .fannedIn p := rfl

-- ============================================================================
-- Children and one parent
-- ============================================================================

variable {T : Type*} [DecidableEq T] {child : T → Prop} {c c' : Config T FanInPoint Wait}

/-- Who calls what: anybody may be done, only the parent does the rest. -/
def Roles (child : T → Prop) : MonitorEv T Op → Prop
  | .call _ .done => True
  | .call t _ => ¬ child t
  | _ => True

/-- No child waits, and nobody sleeps on a counter that is zero. -/
structure Awaited (child : T → Prop) (c : Config T FanInPoint Wait) : Prop where
  parent : ∀ t w, (c.thr t).waiting = some w → ¬ child t
  alert : monitor.Alert c

omit [DecidableEq T] in
theorem Awaited.init (hthr : ∀ t, c.thr t = .out) : Awaited child c := by
  refine ⟨fun t w h => ?_, fun t w h => ?_⟩ <;> simp [hthr t, Status.waiting] at h

/-- What a critical section has to do to keep the parent from being forgotten:
    a child notifies whenever it changes the counter. -/
theorem Awaited.apply {t : T} {e : Section FanInPoint Wait Cond Unit} (h : Awaited child c)
    (hone : ∀ t t', ¬ child t → ¬ child t' → t = t')
    (hexit : ∀ w, e.exit = .wait w → ¬ child t ∧ monitor.pred w e.data = false)
    (hdata : e.data = c.data ∨ e.notified = [.mCvFanIn] ∨ ¬ child t) :
    Awaited child (monitor.apply t e c).1 := by
  constructor
  · intro t' w hw
    by_cases heq : t' = t
    · subst heq
      rw [apply_thr_self] at hw
      cases hex : e.exit with
      | ret r => rw [hex] at hw; cases hw
      | wait w' => exact (hexit w' hex).1
    · rw [monitor.apply_thr_of_ne heq, waiting_notify] at hw
      exact h.parent t' w hw
  · refine h.alert.apply _ (fun w hw => (hexit w hw).2) ?_
    intro t' w hne hw hpred hnot
    rcases hdata with hdata | hdata | hparent
    · rwa [hdata]
    · simp [hdata, monitor] at hnot
    · -- another sleeper would be a second parent
      exact absurd (hone t' t (h.parent t' w (by rw [hw]; rfl)) hparent) hne

theorem Awaited.step {e : MonitorEv T Op} {r : Option Unit} (h : Awaited child c)
    (hone : ∀ t t', ¬ child t → ¬ child t' → t = t') (hroles : Roles child e)
    (hs : monitor.stepRet c e = some (c', r)) : Awaited child c' := by
  cases e with
  | call t op =>
      obtain ⟨-, e, hsec, happ⟩ := monitor.call_some hs
      have hc' : c' = (monitor.apply t e c).1 := by rw [happ]
      rw [hc']
      cases op with
      | done =>
          cases hsec
          exact h.apply hone (fun w hw => by cases hw) (.inr (.inl rfl))
      | wait =>
          refine h.apply hone (fun w hw => ⟨hroles, ?_⟩) (.inr (.inr hroles))
          rw [enterSection_wait] at hsec
          exact monitor.settle_wait hsec hw
      | _ =>
          cases hsec
          exact h.apply hone (fun w hw => by cases hw) (.inr (.inr hroles))
  | recheck t =>
      obtain ⟨w, hw, e, hsec, happ⟩ := monitor.recheck_some hs
      have hc' : c' = (monitor.apply t e c).1 := by rw [happ]
      have hparent := h.parent t w (by rw [hw]; rfl)
      rw [hc']
      exact h.apply hone (fun w' hw' => ⟨hparent, monitor.settle_wait hsec hw'⟩)
        (.inr (.inr hparent))
  | spurious t =>
      simp only [stepRet, Option.map_eq_some_iff, Prod.mk.injEq] at hs
      obtain ⟨c₁, hsp, rfl, -⟩ := hs
      exact ⟨fun t' w hw => h.parent t' w (by rwa [← (spurious_frame hsp).2]),
        h.alert.spurious _ hsp⟩
  | timeout t =>
      obtain ⟨w, -, htimed, -⟩ := monitor.timeout_some hs
      cases htimed

-- ============================================================================
-- Steps of an operation
-- ============================================================================

section Advance

variable {t : T} {op : Op} {r : Option Unit}

/-- What an operation makes of the expected number of threads. -/
def Op.expected : Op → Int → Int
  | .done, n => n - 1
  | .wait, n => n
  | .add, n => n + 1
  | .initializeExpected expected, _ => expected
  | .addThread num, n => n + num
  | .setThreadnum num, _ => num

theorem enterSection_expected {p : FanInPoint} {e : Section FanInPoint Wait Cond Unit}
    (h : monitor.enterSection op p = some e) :
    e.data.mExpectedThreads = op.expected p.mExpectedThreads := by
  cases op with
  | wait =>
      rw [enterSection_wait, wakeSection_eq] at h
      split at h <;> cases h <;> rfl
  | _ =>
      cases h
      rfl

theorem Awaited.advance (h : Awaited child c)
    (hone : ∀ t t', ¬ child t → ¬ child t' → t = t') (hroles : Roles child (.call t op))
    (hs : monitor.advance t op c = some (c', r)) : Awaited child c' := by
  rcases monitor.advance_some hs with ⟨-, hcall⟩ | ⟨w, -, hcheck⟩
  · exact h.step (e := .call t op) hone hroles hcall
  · exact h.step (e := .recheck t) hone trivial hcheck

/-- What a step makes of the counter: the first section what the operation
    does, a woken waiter nothing. -/
theorem advance_expected (hs : monitor.advance t op c = some (c', r)) :
    (c.thr t = .out → c'.data.mExpectedThreads = op.expected c.data.mExpectedThreads) ∧
    (c.thr t ≠ .out → c'.data.mExpectedThreads = c.data.mExpectedThreads) := by
  rcases monitor.advance_some hs with ⟨hout, hcall⟩ | ⟨w', hw', hcheck⟩
  · obtain ⟨-, e, hsec, happ⟩ := monitor.call_some hcall
    have hc' : c' = (monitor.apply t e c).1 := by rw [happ]
    rw [hc', apply_data]
    exact ⟨fun _ => enterSection_expected hsec, fun hne => absurd hout hne⟩
  · obtain ⟨w'', -, e, hsec, happ⟩ := monitor.recheck_some hcheck
    have hc' : c' = (monitor.apply t e c).1 := by rw [happ]
    rw [hc', apply_data]
    rw [wakeSection_eq] at hsec
    refine ⟨fun hout => by simp [hw'] at hout, fun _ => ?_⟩
    split at hsec <;> cases hsec <;> rfl

/-- `wait` leaves the counter alone. -/
theorem wait_expected (hs : monitor.advance t .wait c = some (c', r)) :
    c'.data.mExpectedThreads = c.data.mExpectedThreads := by
  by_cases hout : c.thr t = .out
  · exact (advance_expected hs).1 hout
  · exact (advance_expected hs).2 hout

/-- Every operation but `wait` returns at once. -/
theorem advance_out (hs : monitor.advance t op c = some (c', r)) (hout : c.thr t = .out)
    (hop : op ≠ .wait) : c'.thr t = .out := by
  rcases monitor.advance_some hs with ⟨-, hcall⟩ | ⟨w, hw, -⟩
  · obtain ⟨-, e, hsec, happ⟩ := monitor.call_some hcall
    have hc' : c' = (monitor.apply t e c).1 := by rw [happ]
    rw [hc', apply_thr_self]
    cases op with
    | wait => exact absurd rfl hop
    | _ =>
        cases hsec
        rfl
  · rw [hout] at hw
    cases hw

/-- After `done` nobody sleeps. -/
theorem done_wakes (hs : monitor.advance t .done c = some (c', r)) (hout : c.thr t = .out)
    (t' : T) (w : Wait) : c'.thr t' ≠ .asleep w := by
  rcases monitor.advance_some hs with ⟨-, hcall⟩ | ⟨w', hw', -⟩
  · obtain ⟨-, e, hsec, happ⟩ := monitor.call_some hcall
    have hc' : c' = (monitor.apply t e c).1 := by rw [happ]
    cases hsec
    rw [hc']
    by_cases heq : t' = t
    · rw [heq, apply_thr_self]
      simp [Exit.status, done]
    · rw [monitor.apply_thr_of_ne heq, Ne, notify_eq_asleep]
      simp [monitor, done]
  · rw [hout] at hw'
    cases hw'

/-- `add_thread` wakes nobody. -/
theorem addThread_silent {num : Int} (hs : monitor.advance t (.addThread num) c = some (c', r))
    (hout : c.thr t = .out) {t' : T} (hne : t' ≠ t) : c'.thr t' = c.thr t' := by
  rcases monitor.advance_some hs with ⟨-, hcall⟩ | ⟨w', hw', -⟩
  · obtain ⟨-, e, hsec, happ⟩ := monitor.call_some hcall
    have hc' : c' = (monitor.apply t e c).1 := by rw [happ]
    cases hsec
    rw [hc', monitor.apply_thr_of_ne hne, notify_nil]
  · rw [hout] at hw'
    cases hw'

/-- `wait` returns only when the counter is zero. -/
theorem wait_returns (hs : monitor.advance t .wait c = some (c', some ())) :
    c'.data.mExpectedThreads = 0 := by
  rcases monitor.advance_some hs with ⟨-, hcall⟩ | ⟨w', -, hcheck⟩
  · obtain ⟨-, e, hsec, happ⟩ := monitor.call_some hcall
    rw [enterSection_wait, wakeSection_eq] at hsec
    split at hsec <;> rename_i hzero <;> cases hsec <;> cases happ
    exact hzero
  · obtain ⟨w'', -, e, hsec, happ⟩ := monitor.recheck_some hcheck
    rw [wakeSection_eq] at hsec
    split at hsec <;> rename_i hzero <;> cases hsec <;> cases happ
    exact hzero

end Advance

end FanInPoint
end Fredlib
