/-
  Fredlib.Threading.LostWakeup

  Which operations of the synchronisation points leave a thread asleep on a
  predicate that has become true.

  Of the operations that change what a predicate reads, `done`, `sync`,
  `pauseIfRequred` and `resume` notify the condition variable of that predicate.
  `add`, `add_thread`, `set_threadnum` and `initialize` notify nobody.  The latter
  are harmless exactly while nobody sleeps on the predicate they make true:
  `Covered` says so for each class, on the state before the call, and
  `no_lost_wakeup_iff` that a run loses no wake-up if and only if its calls meet
  `Covered`.
-/

import Fredlib.Threading.SyncPoint
import Fredlib.Threading.FanInPoint
import Fredlib.Threading.PausePoint

namespace Fredlib

open Lib Lib.Monitor

variable {T : Type*} [DecidableEq T]

/-- Nobody is asleep at the wait `w`. -/
def NoSleeper {D W : Type*} (w : W) (c : Config T D W) : Prop := ∀ t, c.thr t ≠ .asleep w

-- ============================================================================
-- FanInPoint
-- ============================================================================

namespace FanInPoint

variable {c : Config T FanInPoint Wait} {e : Section FanInPoint Wait Cond Unit}

/-- The counter is brought to zero without a notification only while nobody
    sleeps in `wait`. -/
def Covered (c : Config T FanInPoint Wait) : MonitorEv T Op → Prop
  | .call _ .add => c.data.mExpectedThreads + 1 = 0 → NoSleeper .fannedIn c
  | .call _ (.initializeExpected expected) => expected = 0 → NoSleeper .fannedIn c
  | .call _ (.addThread num) => c.data.mExpectedThreads + num = 0 → NoSleeper .fannedIn c
  | .call _ (.setThreadnum num) => num = 0 → NoSleeper .fannedIn c
  | _ => True

omit [DecidableEq T] in
/-- A section that notifies nobody covers what it does to the counter if nobody
    sleeps on a counter it makes zero. -/
theorem covers_silent_iff (hnot : e.notified = []) :
    monitor.Covers e c ↔ (e.data.mExpectedThreads = 0 → NoSleeper .fannedIn c) := by
  rw [monitor.covers_silent_iff hnot]
  constructor
  · exact fun h hzero => h .fannedIn (decide_eq_true hzero)
  · intro h w hpred
    cases w
    exact h (of_decide_eq_true hpred)

omit [DecidableEq T] in
theorem covers_iff {t : T} {op : Op} (halert : monitor.Alert c)
    (hsec : monitor.enterSection op c.data = some e) :
    monitor.Covers e c ↔ Covered c (.call t op) := by
  cases op with
  | done =>
      cases hsec
      exact iff_of_true (fun t w _ hnot => absurd (List.mem_singleton.mpr rfl) hnot) trivial
  | wait =>
      refine iff_of_true (halert.covers _ ?_) trivial
      rw [enterSection_wait, wakeSection_eq] at hsec
      split at hsec <;> cases hsec <;> rfl
  | _ =>
      cases hsec
      exact covers_silent_iff rfl

theorem run_leavesAlert_iff (p : FanInPoint) {evs : List (MonitorEv T Op)} :
    (monitor.system T fun _ => True).Run monitor.LeavesAlert ⟨p, fun _ => .out⟩ evs c ↔
      (monitor.system T fun _ => True).Run Covered ⟨p, fun _ => .out⟩ evs c := by
  refine monitor.run_leavesAlert_iff (fun _ => rfl) (fun _ => rfl) ?_
    (fun c t op e => covers_iff) ?_
  · intro c w e halert hsec
    refine halert.covers _ ?_
    rw [wakeSection_eq] at hsec
    split at hsec <;> cases hsec <;> rfl
  · intro c e hcall
    cases e with
    | call t op => exact absurd rfl (hcall t op)
    | _ => trivial

end FanInPoint

-- ============================================================================
-- SyncPoint
-- ============================================================================

namespace SyncPoint

variable {c : Config T SyncPoint Wait} {e : Section SyncPoint Wait Cond Unit}

/-- The counter is brought to zero without a notification only while nobody
    sleeps in `sync`. -/
def Covered (c : Config T SyncPoint Wait) : MonitorEv T Op → Prop
  | .call _ (.initializeExpected expected) => expected = 0 → NoSleeper .synced c
  | .call _ (.addThread num) => c.data.mExpectedThreads + num = 0 → NoSleeper .synced c
  | .call _ (.setThreadnum num) => num = 0 → NoSleeper .synced c
  | _ => True

omit [DecidableEq T] in
theorem covers_silent_iff (hnot : e.notified = []) :
    monitor.Covers e c ↔ (e.data.mExpectedThreads = 0 → NoSleeper .synced c) := by
  rw [monitor.covers_silent_iff hnot]
  constructor
  · exact fun h hzero => h .synced (decide_eq_true hzero)
  · intro h w hpred
    cases w
    exact h (of_decide_eq_true hpred)

omit [DecidableEq T] in
theorem covers_iff {t : T} {op : Op} (hsec : monitor.enterSection op c.data = some e) :
    monitor.Covers e c ↔ Covered c (.call t op) := by
  cases op with
  | sync =>
      refine iff_of_true (fun t w _ hnot => ?_) trivial
      rw [enterSection_sync] at hsec
      split at hsec <;> rename_i hone <;> cases hsec
      · simp [monitor] at hnot
      · -- a caller that is not the last one leaves a counter that is not zero
        have hne : ¬ c.data.mExpectedThreads - 1 = 0 := by omega
        simp [hne]
  | _ =>
      cases hsec
      exact covers_silent_iff rfl

theorem run_leavesAlert_iff (p : SyncPoint) {evs : List (MonitorEv T Op)} :
    (monitor.system T fun _ => True).Run monitor.LeavesAlert ⟨p, fun _ => .out⟩ evs c ↔
      (monitor.system T fun _ => True).Run Covered ⟨p, fun _ => .out⟩ evs c := by
  refine monitor.run_leavesAlert_iff (fun _ => rfl) (fun _ => rfl) ?_
    (fun c t op e _ => covers_iff) ?_
  · intro c w e halert hsec
    refine halert.covers _ ?_
    rw [wakeSection_eq] at hsec
    split at hsec <;> cases hsec <;> rfl
  · intro c e hcall
    cases e with
    | call t op => exact absurd rfl (hcall t op)
    | _ => trivial

end SyncPoint

-- ============================================================================
-- PausePoint
-- ============================================================================

namespace PausePoint

variable {c : Config T PausePoint Wait} {e : Section PausePoint Wait Cond Unit} {w : Wait}

/-- The paused and the expected threads are made equal without a notification
    only while nobody sleeps in `pause`, and the paused threads are set to zero
    only while nobody sleeps in `resume`. -/
def Covered (c : Config T PausePoint Wait) : MonitorEv T Op → Prop
  | .call _ (.initializeExpected expected) =>
      NoSleeper .nonePaused c ∧ (expected = 0 → NoSleeper .allPaused c)
  | .call _ (.addThread num) =>
      c.data.mPausedThreads = c.data.mExpectedThreads + num → NoSleeper .allPaused c
  | .call _ (.setThreadnum num) => c.data.mPausedThreads = num → NoSleeper .allPaused c
  | _ => True

omit [DecidableEq T] in
/-- A section that notifies nobody and does not touch the flag covers what it does
    to the counters if nobody sleeps on what it makes true. -/
theorem covers_silent_iff (halert : monitor.Alert c) (hnot : e.notified = [])
    (hflag : e.data.mPause = c.data.mPause) :
    monitor.Covers e c ↔
      (e.data.mPausedThreads = 0 → NoSleeper .nonePaused c) ∧
      (e.data.mPausedThreads = e.data.mExpectedThreads → NoSleeper .allPaused c) := by
  rw [monitor.covers_silent_iff hnot]
  constructor
  · exact fun h => ⟨fun hzero => h .nonePaused (decide_eq_true hzero),
      fun hall => h .allPaused (decide_eq_true hall)⟩
  · rintro ⟨hnone, hall⟩ w hpred
    cases w with
    | resumed =>
        -- the flag is as it was, so whoever slept on it still may
        intro t hw
        have hold := halert t .resumed hw
        rw [pred_resumed] at hpred hold
        rw [hflag, hold] at hpred
        cases hpred
    | allPaused => exact hall (of_decide_eq_true hpred)
    | nonePaused => exact hnone (of_decide_eq_true hpred)

omit [DecidableEq T] in
/-- A section that notifies the sleepers of `pause` and `resume`, and does not touch
    the flag, covers whatever it does to the counters. -/
theorem covers_mCvPaused (halert : monitor.Alert c) (hnot : e.notified = [.mCvPaused])
    (hflag : e.data.mPause = c.data.mPause) : monitor.Covers e c := by
  intro t w hw hmem
  cases w with
  | resumed =>
      have hpred := halert t .resumed hw
      rw [pred_resumed] at hpred ⊢
      rw [hflag]
      exact hpred
  | allPaused => simp [hnot] at hmem
  | nonePaused => simp [hnot] at hmem

omit [DecidableEq T] in
/-- A section that leaves the counters alone covers what it does to the flag if it
    sets it or notifies the sleepers of `pauseIfRequred`. -/
theorem covers_flag (halert : monitor.Alert c)
    (hpaused : e.data.mPausedThreads = c.data.mPausedThreads)
    (hexpected : e.data.mExpectedThreads = c.data.mExpectedThreads)
    (hflag : e.data.mPause = c.data.mPause ∨ e.data.mPause = true ∨ e.notified = [.mCvPause]) :
    monitor.Covers e c := by
  intro t w hw hmem
  have hpred := halert t w hw
  cases w with
  | resumed =>
      rw [pred_resumed] at hpred ⊢
      rcases hflag with hflag | hflag | hflag
      · rw [hflag]
        exact hpred
      · rw [hflag]
        rfl
      · simp [hflag] at hmem
  | allPaused =>
      rw [pred_allPaused] at hpred ⊢
      rw [hpaused, hexpected]
      exact hpred
  | nonePaused =>
      rw [pred_nonePaused] at hpred ⊢
      rw [hpaused]
      exact hpred

omit [DecidableEq T] in
theorem covers_wake (halert : monitor.Alert c) (hsec : monitor.wakeSection w c.data = some e) :
    monitor.Covers e c := by
  cases w with
  | resumed =>
      rw [wakeSection_resumed] at hsec
      split at hsec <;> cases hsec
      · exact covers_flag halert rfl rfl (.inl rfl)
      · exact covers_mCvPaused halert rfl rfl
  | allPaused =>
      rw [wakeSection_allPaused] at hsec
      split at hsec <;> cases hsec <;> exact covers_flag halert rfl rfl (.inl rfl)
  | nonePaused =>
      rw [wakeSection_nonePaused] at hsec
      split at hsec <;> cases hsec <;> exact covers_flag halert rfl rfl (.inl rfl)

omit [DecidableEq T] in
/-- Nobody sleeps in `resume` while no thread is paused. -/
theorem noSleeper_nonePaused (halert : monitor.Alert c) (hzero : c.data.mPausedThreads = 0) :
    NoSleeper .nonePaused c := by
  intro t ht
  have hpred := halert t .nonePaused ht
  simp [hzero] at hpred

omit [DecidableEq T] in
theorem covers_iff {t : T} {op : Op} (halert : monitor.Alert c)
    (hsec : monitor.enterSection op c.data = some e) :
    monitor.Covers e c ↔ Covered c (.call t op) := by
  cases op with
  | pauseIfRequred =>
      refine iff_of_true ?_ trivial
      rw [enterSection_pauseIfRequred] at hsec
      split at hsec <;> cases hsec
      · exact covers_mCvPaused halert rfl rfl
      · exact covers_flag halert rfl rfl (.inl rfl)
  | pause =>
      refine iff_of_true ?_ trivial
      rw [enterSection_pause] at hsec
      split at hsec <;> cases hsec <;> exact covers_flag halert rfl rfl (.inr (.inl rfl))
  | resume =>
      refine iff_of_true ?_ trivial
      rw [enterSection_resume] at hsec
      split at hsec <;> cases hsec <;> exact covers_flag halert rfl rfl (.inr (.inr rfl))
  | initializeExpected expected =>
      cases hsec
      rw [covers_silent_iff halert rfl rfl]
      refine and_congr ?_ (imp_congr_left ?_)
      · exact ⟨fun hnone => hnone rfl, fun hnone _ => hnone⟩
      · exact eq_comm
  | addThread num =>
      cases hsec
      rw [covers_silent_iff halert rfl rfl]
      exact and_iff_right (noSleeper_nonePaused halert)
  | setThreadnum num =>
      cases hsec
      rw [covers_silent_iff halert rfl rfl]
      exact and_iff_right (noSleeper_nonePaused halert)

theorem run_leavesAlert_iff (p : PausePoint) {evs : List (MonitorEv T Op)} :
    (monitor.system T fun _ => True).Run monitor.LeavesAlert ⟨p, fun _ => .out⟩ evs c ↔
      (monitor.system T fun _ => True).Run Covered ⟨p, fun _ => .out⟩ evs c := by
  refine monitor.run_leavesAlert_iff (fun _ => rfl) (fun w => rfl)
    (fun c w e => covers_wake) (fun c t op e => covers_iff) ?_
  intro c e hcall
  cases e with
  | call t op => exact absurd rfl (hcall t op)
  | _ => trivial

end PausePoint

-- ============================================================================
-- The three classes
-- ============================================================================

/-- In a run of any number of threads on a fan-in, a sync or a pause point, no
    state has a thread asleep on a true predicate if and only if the operations
    that do not notify are called only while nobody sleeps on a predicate they
    make true. -/
theorem no_lost_wakeup_iff :
    (∀ (p : FanInPoint) evs (c : Config T FanInPoint FanInPoint.Wait),
      (FanInPoint.monitor.system T fun _ => True).Run FanInPoint.monitor.LeavesAlert
          ⟨p, fun _ => .out⟩ evs c ↔
        (FanInPoint.monitor.system T fun _ => True).Run FanInPoint.Covered
          ⟨p, fun _ => .out⟩ evs c) ∧
    (∀ (p : SyncPoint) evs (c : Config T SyncPoint SyncPoint.Wait),
      (SyncPoint.monitor.system T fun _ => True).Run SyncPoint.monitor.LeavesAlert
          ⟨p, fun _ => .out⟩ evs c ↔
        (SyncPoint.monitor.system T fun _ => True).Run SyncPoint.Covered
          ⟨p, fun _ => .out⟩ evs c) ∧
    (∀ (p : PausePoint) evs (c : Config T PausePoint PausePoint.Wait),
      (PausePoint.monitor.system T fun _ => True).Run PausePoint.monitor.LeavesAlert
          ⟨p, fun _ => .out⟩ evs c ↔
        (PausePoint.monitor.system T fun _ => True).Run PausePoint.Covered
          ⟨p, fun _ => .out⟩ evs c) :=
  ⟨fun p _ _ => FanInPoint.run_leavesAlert_iff p, fun p _ _ => SyncPoint.run_leavesAlert_iff p,
    fun p _ _ => PausePoint.run_leavesAlert_iff p⟩

/-- A `done` that comes before its `add_thread`: the parent goes to sleep on a counter
    of -1, and the `add_thread` that makes it zero wakes nobody. -/
theorem add_thread_loses_wakeup :
    ∃ c : Config (Fin 2) FanInPoint FanInPoint.Wait,
      (FanInPoint.monitor.system (Fin 2) (· = ⟨0⟩)).Reachable c ∧
      c.thr 0 = .asleep .fannedIn ∧ FanInPoint.monitor.pred .fannedIn c.data = true := by
  have h0 : (FanInPoint.monitor.system (Fin 2) (· = ⟨0⟩)).Reachable ⟨⟨0⟩, fun _ => .out⟩ :=
    .init ⟨rfl, fun _ => rfl⟩
  have h1 := h0.step (.call 1 .done) trivial rfl
  have h2 := h1.step (.call 0 .wait) trivial rfl
  have h3 := h2.step (.call 1 (.addThread 1)) trivial rfl
  exact ⟨_, h3, rfl, rfl⟩

end Fredlib
