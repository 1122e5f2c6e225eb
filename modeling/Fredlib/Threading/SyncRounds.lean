/-
  Fredlib.Threading.SyncRounds

  A sync point that is used again.  The call of `sync` that brings the counter
  to zero completes a round; whoever waits at that moment is *released*, but
  leaves only when it next takes the lock and evaluates its predicate, which
  reads the counter of whatever round it is then.

  `rounds` records next to the monitor who has been released and has not left
  yet.  `sync_round_iff`: the released threads get out at their next re-check,
  whenever that is, if and only if nothing that changes the counter is called
  before all of them are out.
-/

import Fredlib.Threading.SyncPoint

namespace Fredlib
namespace SyncPoint

open Lib Lib.Monitor

variable {T : Type*} [DecidableEq T]

/-- A sync point, and who was waiting when a round was completed and has not
    returned since. -/
@[ext] structure Rounds (T : Type*) where
  cfg : Config T SyncPoint Wait
  released : T → Bool

/-- The event is the last arrival of a round. -/
def completes (p : SyncPoint) : MonitorEv T Op → Bool
  | .call _ .sync => decide (p.mExpectedThreads = 1)
  | _ => false

/-- A sync point under any calls, with the threads its rounds have released. -/
def rounds (T : Type*) [DecidableEq T] : System (Rounds T) (MonitorEv T Op) where
  init s := (∀ t, s.cfg.thr t = .out) ∧ ∀ t, s.released t = false
  step s e := (monitor.stepRet s.cfg e).map fun (c, _) =>
    ⟨c, fun t => (c.thr t).waiting.isSome && (s.released t || completes s.cfg.data e)⟩

namespace Rounds

variable {s s' : Rounds T} {e : MonitorEv T Op} {t : T}

/-- Every released thread gets out when it next re-checks its predicate. -/
def Freed (s : Rounds T) : Prop :=
  ∀ t, s.released t = true → ∃ c, monitor.recheck t s.cfg = some (c, some ())

/-- In whatever state `e` leads to, the released threads get out. -/
def Kept (s : Rounds T) (e : MonitorEv T Op) : Prop :=
  ∀ s', (rounds T).step s e = some s' → s'.Freed

/-- Until the released threads are out nobody calls `sync`, and the sync point is
    not armed with anything but zero. -/
def Undisturbed (s : Rounds T) : MonitorEv T Op → Prop
  | .call _ .sync => ∀ t, s.released t = false
  | .call _ (.initializeExpected expected) => (∃ t, s.released t = true) → expected = 0
  | .call _ (.addThread num) => (∃ t, s.released t = true) → num = 0
  | .call _ (.setThreadnum num) => (∃ t, s.released t = true) → num = 0
  | _ => True

theorem freed_iff : s.Freed ↔
    ∀ t, s.released t = true → s.cfg.data.mExpectedThreads = 0 ∧ ∃ w, s.cfg.thr t = .woken w := by
  refine forall_congr' fun t => imp_congr_right fun _ => ?_
  constructor
  · rintro ⟨c, hc⟩
    obtain ⟨w, hw, -⟩ := monitor.recheck_some hc
    exact ⟨(recheck_returns_iff hw).mp ⟨c, hc⟩, w, hw⟩
  · rintro ⟨hzero, w, hw⟩
    exact (recheck_returns_iff hw).mpr hzero

/-- A step is a step of the monitor, and whoever is released afterwards is still
    inside and was released before, or is so by this step. -/
theorem step_some (hs : (rounds T).step s e = some s') :
    (∃ r, monitor.stepRet s.cfg e = some (s'.cfg, r)) ∧
      ∀ t, s'.released t = true ↔
        s'.cfg.thr t ≠ .out ∧ (s.released t = true ∨ completes s.cfg.data e = true) := by
  simp only [rounds, Option.map_eq_some_iff] at hs
  obtain ⟨⟨c, r⟩, hstep, rfl⟩ := hs
  refine ⟨⟨r, hstep⟩, fun t => ?_⟩
  rw [Bool.and_eq_true, Bool.or_eq_true, Option.isSome_iff_ne_none, Ne, Status.waiting_eq_none]

/-- A call that notifies nobody keeps a released thread released and where it is. -/
theorem step_silent {op : Op} {e : Section SyncPoint Wait Cond Unit}
    (hs : (rounds T).step s (.call t op) = some s')
    (hsec : monitor.enterSection op s.cfg.data = some e) (hnot : e.notified = [])
    (hcompl : completes s.cfg.data (.call t op) = false) :
    s'.cfg.data = e.data ∧ ∀ u w, s.cfg.thr u = .woken w →
      s'.cfg.thr u = .woken w ∧ (s'.released u = true ↔ s.released u = true) := by
  obtain ⟨⟨r, hstep⟩, hrel⟩ := step_some hs
  obtain ⟨hout, e', hsec', happ⟩ := monitor.call_some hstep
  cases hsec.symm.trans hsec'
  have hc' : s'.cfg = (monitor.apply t e s.cfg).1 := by rw [happ]
  refine ⟨by rw [hc', apply_data], fun u w hu => ?_⟩
  have hne : u ≠ t := by
    rintro rfl
    rw [hout] at hu
    cases hu
  have hthr : s'.cfg.thr u = .woken w := by
    rw [hc', monitor.apply_thr_of_ne hne, hnot, notify_nil, hu]
  refine ⟨hthr, ?_⟩
  rw [hrel, hthr, hcompl]
  simp

/-- Such a call disturbs the released threads exactly if it leaves a counter other
    than zero. -/
theorem kept_silent_iff {op : Op} {e : Section SyncPoint Wait Cond Unit} (h : s.Freed)
    (hs : (rounds T).step s (.call t op) = some s')
    (hsec : monitor.enterSection op s.cfg.data = some e) (hnot : e.notified = [])
    (hcompl : completes s.cfg.data (.call t op) = false) :
    s'.Freed ↔ ((∃ u, s.released u = true) → e.data.mExpectedThreads = 0) := by
  obtain ⟨hdata, hthr⟩ := step_silent hs hsec hnot hcompl
  rw [freed_iff] at h ⊢
  constructor
  · rintro hfreed ⟨u, hu⟩
    obtain ⟨-, w, hw⟩ := h u hu
    rw [← hdata]
    exact (hfreed u ((hthr u w hw).2.mpr hu)).1
  · intro hzero u hu
    have hbefore : s.released u = true := by
      have hu' := ((step_some hs).2 u).mp hu
      simpa [hcompl] using hu'.2
    obtain ⟨-, w, hw⟩ := h u hbefore
    exact ⟨by rw [hdata]; exact hzero ⟨u, hbefore⟩, w, (hthr u w hw).1⟩

/-- The last arrival of a round wakes everybody it releases. -/
theorem freed_of_completes (hs : (rounds T).step s (.call t .sync) = some s')
    (hone : s.cfg.data.mExpectedThreads = 1) : s'.Freed := by
  obtain ⟨⟨r, hstep⟩, hrel⟩ := step_some hs
  obtain ⟨-, e, hsec, happ⟩ := monitor.call_some hstep
  have hc' : s'.cfg = (monitor.apply t e s.cfg).1 := by rw [happ]
  rw [enterSection_sync, if_pos hone] at hsec
  cases hsec
  rw [freed_iff]
  intro u hu
  refine ⟨by rw [hc', apply_data], ?_⟩
  have hin := ((hrel u).mp hu).1
  cases hthr : s'.cfg.thr u with
  | out => exact absurd hthr hin
  | woken w => exact ⟨w, rfl⟩
  | asleep w =>
      -- nobody is asleep after a `notify_all`
      have hne : u ≠ t := by
        rintro rfl
        rw [hc', apply_thr_self] at hthr
        cases hthr
      rw [hc', monitor.apply_thr_of_ne hne, notify_eq_asleep] at hthr
      exact absurd (List.mem_singleton.mpr rfl) hthr.2

/-- A re-check or a spurious wake-up moves its own thread only, which is not among
    those still released afterwards, and leaves the counter alone. -/
theorem freed_of_still (h : s.Freed) (hs : (rounds T).step s e = some s')
    (hcompl : completes s.cfg.data e = false) (hdata : s'.cfg.data = s.cfg.data)
    (hself : s.released t = true → s'.cfg.thr t = .out)
    (hother : ∀ u w, u ≠ t → s.cfg.thr u = .woken w → s'.cfg.thr u = .woken w) : s'.Freed := by
  rw [freed_iff] at h ⊢
  intro u hu
  obtain ⟨hin, hrel⟩ := ((step_some hs).2 u).mp hu
  have hbefore : s.released u = true := by simpa [hcompl] using hrel
  obtain ⟨hzero, w, hw⟩ := h u hbefore
  have hne : u ≠ t := by
    rintro rfl
    exact hin (hself hbefore)
  exact ⟨by rw [hdata]; exact hzero, w, hother u w hne hw⟩

theorem freed_of_recheck (h : s.Freed) (hs : (rounds T).step s (.recheck t) = some s') :
    s'.Freed := by
  obtain ⟨⟨r, hstep⟩, -⟩ := step_some hs
  obtain ⟨w, hw, e, hsec, happ⟩ := monitor.recheck_some hstep
  have hc' : s'.cfg = (monitor.apply t e s.cfg).1 := by rw [happ]
  rw [wakeSection_eq] at hsec
  refine freed_of_still h hs rfl ?_ (fun ht => ?_) (fun u w' hne hu => ?_) (t := t)
  · rw [hc', apply_data]
    split at hsec <;> cases hsec <;> rfl
  · have hzero := (freed_iff.mp h t ht).1
    rw [if_pos hzero] at hsec
    cases hsec
    rw [hc', apply_thr_self]
    rfl
  · rw [hc', monitor.apply_thr_of_ne hne]
    unfold notify
    rw [hu]

theorem freed_of_spurious (h : s.Freed) (hs : (rounds T).step s (.spurious t) = some s') :
    s'.Freed := by
  obtain ⟨⟨r, hstep⟩, -⟩ := step_some hs
  simp only [stepRet, Option.map_eq_some_iff, Prod.mk.injEq] at hstep
  obtain ⟨c, hsp, rfl, -⟩ := hstep
  obtain ⟨w, hw, hc⟩ := spurious_some hsp
  refine freed_of_still h hs rfl (spurious_frame hsp).1 (fun ht => ?_) (fun u w' hne hu => ?_)
    (t := t)
  · -- a released thread has been woken already
    obtain ⟨-, w', hw'⟩ := freed_iff.mp h t ht
    rw [hw] at hw'
    cases hw'
  · rw [hc]
    simpa [hne] using hu

theorem kept_iff (h : s.Freed) (hs : (rounds T).step s e = some s') :
    s.Kept e ↔ s.Undisturbed e := by
  have hiff : s.Kept e ↔ s'.Freed := by
    constructor
    · exact fun hkept => hkept s' hs
    · intro hfreed s₁ hs₁
      cases hs.symm.trans hs₁
      exact hfreed
  rw [hiff]
  cases e with
  | call t op =>
      cases op with
      | sync =>
          by_cases hone : s.cfg.data.mExpectedThreads = 1
          · refine iff_of_true (freed_of_completes hs hone) fun u => ?_
            -- the counter of released threads is zero, not one
            by_contra hu
            have hzero := (freed_iff.mp h u (by simpa using hu)).1
            omega
          · have hsec := enterSection_sync s.cfg.data
            rw [if_neg hone] at hsec
            rw [kept_silent_iff h hs hsec rfl (by simp [completes, hone])]
            constructor
            · intro hzero u
              by_contra hu
              have hbefore := (freed_iff.mp h u (by simpa using hu)).1
              have hafter := hzero ⟨u, by simpa using hu⟩
              simp only at hafter
              omega
            · rintro hnone ⟨u, hu⟩
              rw [hnone u] at hu
              cases hu
      | initializeExpected expected => exact kept_silent_iff h hs rfl rfl rfl
      | setThreadnum num => exact kept_silent_iff h hs rfl rfl rfl
      | addThread num =>
          rw [kept_silent_iff h hs rfl rfl rfl]
          refine forall_congr' fun ⟨u, hu⟩ => ?_
          have hzero := (freed_iff.mp h u hu).1
          simp [addThread, hzero]
  | recheck t => exact iff_of_true (freed_of_recheck h hs) trivial
  | spurious t => exact iff_of_true (freed_of_spurious h hs) trivial
  | timeout t =>
      obtain ⟨⟨r, hstep⟩, -⟩ := step_some hs
      obtain ⟨w, -, htimed, -⟩ := monitor.timeout_some hstep
      cases htimed

end Rounds

/-- However a sync point is armed and whatever is called on it: the threads that
    waited in a completed round leave `sync` at their next re-check, at every
    moment of the run, if and only if the sync point is left alone until they are
    out. -/
theorem sync_round_iff (n : Int) {evs : List (MonitorEv T Op)} {s : Rounds T} :
    (rounds T).Run Rounds.Kept ⟨⟨⟨n⟩, fun _ => .out⟩, fun _ => false⟩ evs s ↔
      (rounds T).Run Rounds.Undisturbed ⟨⟨⟨n⟩, fun _ => .out⟩, fun _ => false⟩ evs s := by
  refine System.run_iff_of_invariant (I := Rounds.Freed) ?_ (fun s e s' => Rounds.kept_iff) ?_
  · intro t ht
    cases ht
  · exact fun s e s' _ hkept hs => hkept s' hs

/-- Two threads: the first waits, the second completes the round and comes back
    before the first has the lock again, which then goes back to sleep. -/
theorem sync_again_traps : ∃ s : Rounds (Fin 2),
    (rounds (Fin 2)).Run (fun _ _ => True) ⟨⟨⟨2⟩, fun _ => .out⟩, fun _ => false⟩
      [.call 0 .sync, .call 1 .sync, .call 1 .sync, .recheck 0] s ∧
    s.released 0 = true ∧ s.cfg.thr 0 = .asleep .synced :=
  ⟨_, .cons trivial rfl (.cons trivial rfl (.cons trivial rfl (.cons trivial rfl .nil))), rfl, rfl⟩

end SyncPoint
end Fredlib
