/-
  Fredlib.Threading.PauseHandshake

  A pause point expecting `n` threads, with `n` workers that check in any
  number of times and one controller that pauses and resumes any number of
  times (`pause_resume_handshake`).

  Nothing is assumed about the order of the controller's calls, so a controller
  that alternates `pause` and `resume` is one case.
-/

import Fredlib.Threading.PausePoint

namespace Fredlib

open Lib Lib.Monitor

namespace PausePoint

/-- The threads around a pause point. -/
inductive Party (n : Nat)
  | worker (i : Fin n)
  | controller
  deriving DecidableEq

/-- `p` is one of the workers. -/
def Party.IsWorker {n : Nat} : Party n → Prop
  | .worker _ => True
  | .controller => False

variable {n : Nat} {c c' : Config (Party n) PausePoint Wait}

theorem Party.one_controller (t t' : Party n) (h : ¬ t.IsWorker) (h' : ¬ t'.IsWorker) : t = t' := by
  cases t with
  | worker i => exact absurd trivial h
  | controller =>
      cases t' with
      | worker i => exact absurd trivial h'
      | controller => rfl

/-- A pause point expecting `n` threads. -/
def pausePoint (n : Nat) : System (Config (Party n) PausePoint Wait) (MonitorEv (Party n) Op) :=
  monitor.system (Party n) (· = create n)

/-- Workers only check in; the controller only pauses and resumes. -/
def Callers (_ : Config (Party n) PausePoint Wait) : MonitorEv (Party n) Op → Prop
  | .call (.worker _) op => op = .pauseIfRequred
  | .call .controller op => op = .pause ∨ op = .resume
  | _ => True

/-- Worker `i` has entered the paused section and not left it. -/
def InPaused (c : Config (Party n) PausePoint Wait) (i : Fin n) : Prop :=
  (c.thr (.worker i)).waiting = some .resumed

instance (c : Config (Party n) PausePoint Wait) (i : Fin n) : Decidable (InPaused c i) :=
  inferInstanceAs (Decidable (_ = _))

/-- In the step `e` the controller's call of `pause` returns. -/
def PauseReturns (c : Config (Party n) PausePoint Wait) (e : MonitorEv (Party n) Op)
    (c' : Config (Party n) PausePoint Wait) : Prop :=
  monitor.stepRet c e = some (c', some ()) ∧
    (e = .call .controller .pause ∨
      e = .recheck .controller ∧ (c.thr .controller).waiting = some .allPaused)

/-- In the step `e` the controller's call of `resume` returns. -/
def ResumeReturns (c : Config (Party n) PausePoint Wait) (e : MonitorEv (Party n) Op)
    (c' : Config (Party n) PausePoint Wait) : Prop :=
  monitor.stepRet c e = some (c', some ()) ∧
    (e = .call .controller .resume ∨
      e = .recheck .controller ∧ (c.thr .controller).waiting = some .nonePaused)

theorem roles_of_callers {e : MonitorEv (Party n) Op} (h : Callers c e) :
    Roles Party.IsWorker c e := by
  cases e with
  | call t op =>
      cases t with
      | worker i =>
          rw [show op = .pauseIfRequred from h]
          exact trivial
      | controller =>
          rcases h with rfl | rfl <;> exact id
  | _ => trivial

theorem step_some {e : MonitorEv (Party n) Op} (hs : (pausePoint n).step c e = some c') :
    ∃ r, monitor.stepRet c e = some (c', r) := by
  simp only [pausePoint, system, Option.map_eq_some_iff] at hs
  obtain ⟨⟨c₁, r⟩, hstep, rfl⟩ := hs
  exact ⟨r, hstep⟩

/-- Nothing these callers do changes the expected number of threads. -/
theorem expected_step {e : MonitorEv (Party n) Op} {r : Option Unit} (hok : Callers c e)
    (hs : monitor.stepRet c e = some (c', r)) :
    c'.data.mExpectedThreads = c.data.mExpectedThreads := by
  cases e with
  | call t op =>
      rw [(call_effect hs).1]
      cases op with
      | pauseIfRequred | pause | resume => rfl
      | _ => cases t <;> simp [Callers] at hok
  | recheck t => exact (recheck_effect hs).1
  | spurious t =>
      simp only [stepRet, Option.map_eq_some_iff, Prod.mk.injEq] at hs
      obtain ⟨c₁, hsp, rfl, -⟩ := hs
      rw [(spurious_frame hsp).1]
  | timeout t =>
      obtain ⟨w, -, htimed, -⟩ := monitor.timeout_some hs
      cases htimed

/-- The handshake invariant, and the expected number. -/
theorem handshake_of_reachable (h : (pausePoint n).ReachableBy Callers c) :
    Handshake Party.IsWorker c ∧ c.data.mExpectedThreads = n := by
  refine h.invariant (P := fun c => Handshake Party.IsWorker c ∧ c.data.mExpectedThreads = n)
    ?_ ?_
  · rintro s ⟨hdata, hthr⟩
    exact ⟨Handshake.init (by rw [hdata]; rfl) hthr, by rw [hdata]; rfl⟩
  · intro s e s' _ hinv hok hs
    obtain ⟨r, hstep⟩ := step_some hs
    exact ⟨hinv.1.step Party.one_controller (roles_of_callers hok) hstep,
      (expected_step hok hstep).trans hinv.2⟩

/-- The workers, as threads. -/
def workers (n : Nat) : Finset (Party n) :=
  Finset.univ.image Party.worker

theorem worker_injective : Function.Injective (Party.worker (n := n)) :=
  fun _ _ h => Party.worker.inj h

theorem card_workers (n : Nat) : (workers n).card = n := by
  rw [workers, Finset.card_image_of_injective _ worker_injective, Finset.card_univ,
    Fintype.card_fin]

/-- The count of the paused section, as a set of workers. -/
theorem Handshake.card_paused (h : Handshake Party.IsWorker c) :
    c.data.mPausedThreads = (Finset.univ.filter fun i => InPaused c i).card := by
  obtain ⟨S, hS, hk⟩ := h.paused
  have himage : S = (Finset.univ.filter fun i => InPaused c i).image Party.worker := by
    ext t
    rw [hS, Finset.mem_image]
    cases t with
    | worker i =>
        simp only [Finset.mem_filter, Finset.mem_univ, true_and, Party.worker.injEq,
          exists_eq_right]
        exact Iff.rfl
    | controller =>
        simp only [reduceCtorEq, and_false, exists_false, iff_false]
        exact fun hw => (h.roles _ _ hw).mp rfl
  rw [← hk, himage, Finset.card_image_of_injective _ worker_injective]

/-- With all expected threads in the paused section, every worker is there. -/
theorem Handshake.all_paused (h : Handshake Party.IsWorker c)
    (hn : c.data.mPausedThreads = n) (i : Fin n) : InPaused c i := by
  have hcount : HasCount .resumed ((workers n).card : Int) c := by
    rw [card_workers, ← hn]
    exact h.paused
  refine hcount.all_of_card (fun t ht => ?_) (by simp [workers])
  cases t with
  | worker j => simp [workers]
  | controller => exact absurd ((h.roles _ _ ht).mp rfl) id

/-- What a returning `pause` leaves: the flag is set and the count is met. -/
theorem pause_returns {e : MonitorEv (Party n) Op} (h : Handshake Party.IsWorker c)
    (hret : PauseReturns c e c') :
    c'.data.mPause = true ∧ c'.data.mPausedThreads = c'.data.mExpectedThreads := by
  obtain ⟨hs, rfl | ⟨rfl, hw⟩⟩ := hret
  · have hout := (monitor.call_some hs).1
    exact h.pause_returns (by simp [hout, Status.waiting]) (monitor.advance_of_call hs)
  · exact h.pause_returns (fun w hw' => Option.some.inj (hw'.symm.trans hw))
      (monitor.advance_of_recheck hs)

/-- What a returning `resume` leaves: nobody is counted. -/
theorem resume_returns {e : MonitorEv (Party n) Op} (hret : ResumeReturns c e c') :
    c'.data.mPausedThreads = 0 := by
  obtain ⟨hs, rfl | ⟨rfl, hw⟩⟩ := hret
  · obtain ⟨-, e, hsec, happ⟩ := monitor.call_some hs
    rw [enterSection_resume] at hsec
    split at hsec <;> rename_i hnone <;> cases hsec <;> cases happ
    exact hnone
  · obtain ⟨w, hw', e, hsec, happ⟩ := monitor.recheck_some hs
    rw [hw'] at hw
    cases hw
    rw [wakeSection_nonePaused] at hsec
    split at hsec <;> rename_i hnone <;> cases hsec <;> cases happ
    exact hnone

/-- While the flag is set and the controller does not call `resume`, no worker
    leaves the paused section. -/
theorem paused_step {e : MonitorEv (Party n) Op} {r : Option Unit}
    (h : c.data.mPause = true ∧ ∀ i, InPaused c i) (hok : Callers c e)
    (hres : e ≠ .call .controller .resume) (hs : monitor.stepRet c e = some (c', r)) :
    c'.data.mPause = true ∧ ∀ i, InPaused c' i := by
  obtain ⟨hflag, hin⟩ := h
  have hother : ∀ (e : Section PausePoint Wait Cond Unit) (t : Party n),
      (∀ i, t = .worker i → e.exit = .wait .resumed) →
      ∀ i, InPaused (monitor.apply t e c).1 i := by
    intro e t hexit i
    unfold InPaused
    by_cases heq : Party.worker i = t
    · rw [heq, apply_thr_self, hexit i heq.symm]
      rfl
    · rw [monitor.apply_thr_of_ne heq, waiting_notify]
      exact hin i
  cases e with
  | call t op =>
      obtain ⟨hout, e, hsec, happ⟩ := monitor.call_some hs
      cases t with
      | worker i =>
          have hwait := hin i
          rw [InPaused, hout] at hwait
          cases hwait
      | controller =>
          rcases hok with rfl | rfl
          · refine ⟨(call_effect hs).2, ?_⟩
            have hc' : c' = (monitor.apply .controller e c).1 := by rw [happ]
            rw [hc']
            exact hother e .controller (by simp)
          · exact absurd rfl hres
  | recheck t =>
      obtain ⟨w, hw, e, hsec, happ⟩ := monitor.recheck_some hs
      refine ⟨(recheck_effect hs).2.trans hflag, ?_⟩
      have hc' : c' = (monitor.apply t e c).1 := by rw [happ]
      rw [hc']
      refine hother e t ?_
      -- a worker that wakes up finds the pause still on
      rintro i rfl
      have hwait := hin i
      rw [InPaused, hw] at hwait
      cases hwait
      rw [wakeSection_resumed, if_pos hflag] at hsec
      cases hsec
      rfl
  | spurious t =>
      simp only [stepRet, Option.map_eq_some_iff, Prod.mk.injEq] at hs
      obtain ⟨c₁, hsp, rfl, -⟩ := hs
      obtain ⟨hdata, hwaiting⟩ := spurious_frame hsp
      exact ⟨hdata ▸ hflag, fun i => by rw [InPaused, hwaiting]; exact hin i⟩
  | timeout t =>
      obtain ⟨w, -, htimed, -⟩ := monitor.timeout_some hs
      cases htimed

/-- **The pause handshake.**  In every reachable state the counter is the number
    of workers in the paused section; when `pause` returns all `n` workers are
    in it, and stay there until `resume` is called; when `resume` returns none
    is in it; and neither call can be left asleep un-notified once the workers
    have done what it waits for. -/
theorem pause_resume_handshake (h : (pausePoint n).ReachableBy Callers c) :
    (c.data.mPausedThreads = (Finset.univ.filter fun i => InPaused c i).card ∧
      0 ≤ c.data.mPausedThreads ∧ c.data.mPausedThreads ≤ n) ∧
    (∀ e c₁, Callers c e → PauseReturns c e c₁ → ∀ evs c₂,
      (pausePoint n).Run (fun c e => Callers c e ∧ e ≠ .call .controller .resume) c₁ evs c₂ →
      ∀ i, InPaused c₂ i) ∧
    (∀ e c₁, Callers c e → ResumeReturns c e c₁ → ∀ i, ¬ InPaused c₁ i) ∧
    ¬ (c.thr .controller = .asleep .nonePaused ∧
      ∀ i, InPaused c i → c.thr (.worker i) = .asleep .resumed) ∧
    ¬ (c.thr .controller = .asleep .allPaused ∧ ∀ i, InPaused c i) := by
  obtain ⟨hinv, hexp⟩ := handshake_of_reachable h
  have hcard := hinv.card_paused
  have hle : (Finset.univ.filter fun i => InPaused c i).card ≤ n := by
    have := Finset.card_filter_le (Finset.univ : Finset (Fin n)) fun i => InPaused c i
    rwa [Finset.card_univ, Fintype.card_fin] at this
  refine ⟨⟨hcard, by omega, by omega⟩, ?_, ?_, ?_, ?_⟩
  · intro e c₁ hok hret evs c₂ hrun
    have hinv₁ := hinv.step Party.one_controller (roles_of_callers hok) hret.1
    obtain ⟨hflag, hmet⟩ := pause_returns hinv hret
    have hn : c₁.data.mPausedThreads = n := by
      rw [hmet, expected_step hok hret.1, hexp]
    have hkeep := hrun.invariant (P := fun c => c.data.mPause = true ∧ ∀ i, InPaused c i)
      ⟨hflag, hinv₁.all_paused hn⟩ fun s e s' hs hok hstep => by
        obtain ⟨r, hstep⟩ := step_some hstep
        exact paused_step hs hok.1 hok.2 hstep
    exact hkeep.2
  · intro e c₁ hok hret i hin
    have hinv₁ := hinv.step Party.one_controller (roles_of_callers hok) hret.1
    have hcount := hinv₁.paused
    rw [resume_returns hret] at hcount
    exact hcount.none_of_zero _ hin
  · rintro ⟨hctrl, hall⟩
    have hresume := hinv.resuming .controller (by rw [hctrl]; rfl)
    have hsome : c.data.mPausedThreads ≠ 0 := by simpa using hinv.alert _ _ hctrl
    -- somebody is in the paused section, asleep, although the pause is over
    obtain ⟨t, ht⟩ := hinv.paused.exists_of_ne_zero hsome
    cases t with
    | worker i =>
        have hpause := hinv.alert _ _ (hall i ht)
        simp [hresume] at hpause
    | controller => exact absurd ((hinv.roles _ _ ht).mp rfl) id
  · rintro ⟨hctrl, hall⟩
    have hshort : c.data.mPausedThreads ≠ c.data.mExpectedThreads := by
      simpa using hinv.alert _ _ hctrl
    have hfull : (Finset.univ.filter fun i => InPaused c i).card = n := by
      rw [Finset.filter_true_of_mem fun i _ => hall i, Finset.card_univ, Fintype.card_fin]
    omega

/-- Two workers, from one pause through a `resume` into the next one: both are paused when
    `pause` returns, none when `resume` does, and in the second pause one is counted. -/
theorem pause_resume_handshake_rounds :
    ∃ c₁ c₁' c₂ c₂' c₃ : Config (Party 2) PausePoint Wait,
      (PauseReturns c₁ (.recheck .controller) c₁' ∧ ∀ i, InPaused c₁' i) ∧
      (ResumeReturns c₂ (.recheck .controller) c₂' ∧ ∀ i, ¬ InPaused c₂' i) ∧
      (pausePoint 2).Run Callers c₁ [.recheck .controller, .call .controller .resume,
        .recheck (.worker 0), .recheck (.worker 1)] c₂ ∧
      (pausePoint 2).Run Callers c₂ [.recheck .controller, .call .controller .pause,
        .call (.worker 1) .pauseIfRequred] c₃ ∧
      c₃.data.mPausedThreads = (Finset.univ.filter fun i => InPaused c₃ i).card := by
  have h0 : (pausePoint 2).ReachableBy Callers ⟨create 2, fun _ => .out⟩ :=
    .init ⟨rfl, fun _ => rfl⟩
  have h1 := ((h0.step (.call .controller .pause) (.inl rfl) rfl).step
    (.call (.worker 0) .pauseIfRequred) rfl rfl).step (.call (.worker 1) .pauseIfRequred) rfl rfl
  have h2 := (((h1.step (.recheck .controller) trivial rfl).step
    (.call .controller .resume) (.inr rfl) rfl).step (.recheck (.worker 0)) trivial rfl).step
    (.recheck (.worker 1)) trivial rfl
  have h3 := ((h2.step (.recheck .controller) trivial rfl).step
    (.call .controller .pause) (.inl rfl) rfl).step (.call (.worker 1) .pauseIfRequred) rfl rfl
  have hreturns : ∀ {c c' : Config (Party 2) PausePoint Wait},
      (pausePoint 2).ReachableBy Callers c →
      monitor.stepRet c (.recheck .controller) = some (c', some ()) →
      ((c.thr .controller).waiting = some .allPaused → PauseReturns c (.recheck .controller) c') ∧
      ((c.thr .controller).waiting = some .nonePaused →
        ResumeReturns c (.recheck .controller) c') :=
    fun _ hs => ⟨fun hw => ⟨hs, .inr ⟨rfl, hw⟩⟩, fun hw => ⟨hs, .inr ⟨rfl, hw⟩⟩⟩
  have hcheck : ∀ {c : Config (Party 2) PausePoint Wait}, Callers c (.recheck .controller) :=
    trivial
  have hpause := (hreturns h1 rfl).1 rfl
  have hresume := (hreturns h2 rfl).2 rfl
  exact ⟨_, _, _, _, _,
    ⟨hpause, fun i => (pause_resume_handshake h1).2.1 _ _ hcheck hpause [] _ .nil i⟩,
    ⟨hresume, (pause_resume_handshake h2).2.2.1 _ _ hcheck hresume⟩,
    .cons trivial rfl <| .cons (.inr rfl) rfl <| .cons trivial rfl <| .cons trivial rfl .nil,
    .cons trivial rfl <| .cons (.inl rfl) rfl <| .cons rfl rfl .nil,
    (pause_resume_handshake h3).1.1⟩

end PausePoint
end Fredlib
