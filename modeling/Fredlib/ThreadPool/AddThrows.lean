/-
  Fredlib.ThreadPool.AddThrows

  `WorkerThreads::add_thread` when the creation of a thread throws.

  `add_thread` tells the three bases of `_tc` of the whole batch, and only then
  creates the threads one by one.  The constructor of `std::thread` may throw;
  the lock guard then lets go of `_muWorkerThreads`, the exception leaves
  `add_thread`, and nothing takes the counters back.  So they have grown by the
  number of threads asked for, however few of them there are
  (`counters_of_throw`), and `FanInPoint::wait` waits for the missing ones for
  ever.

  A constructor of the pool that throws leaves no pool behind, and is left out.
-/

import Fredlib.ThreadPool.WorkerWait

namespace Fredlib

open Lib Lib.Monitor ThreadControl

namespace WorkerThreads

variable {ι : Type*} [DecidableEq ι]

/-- What can happen: a step of the pool, or `emplace_back` throws in the client `c`. -/
inductive ThrowEv (ι : Type*)
  | ev (e : Ev ι)
  | throws (c : ι)

/-- `_vecThreads.emplace_back` throws in the loop of `add_thread`. -/
def throwStep (c : ι) (s : WorkerThreads ι) : Option (WorkerThreads ι) :=
  match s.clients c with
  | .adding (_ + 1) => some ({ s with _muWorkerThreads := none }.setClient c .idle)
  | _ => none

/-- One step of the pool, or of an exception. -/
def stepOrThrow (s : WorkerThreads ι) : ThrowEv ι → Option (WorkerThreads ι)
  | .ev e => s.step e
  | .throws c => s.throwStep c

/-- The pools constructed with `n` threads, in which `add_thread` may throw. -/
def throwing (ι : Type*) [DecidableEq ι] (n : Nat) : System (WorkerThreads ι) (ThrowEv ι) where
  init s := ∃ c, s = initial c n
  step := stepOrThrow

-- ============================================================================
-- The counters
-- ============================================================================

/-- What a run has shown of itself: the calls of `sync` and `done`, and what
    `FanInPoint` has been shown. -/
abbrev Seen (ι : Type*) := List (Obs ι ⊕ FanObs)

/-- What a step shows. -/
def seen (s : WorkerThreads ι) : ThrowEv ι → Seen ι
  | .ev e => (s.obs e).map .inl ++ (s.fanObs e).map .inr
  | .throws _ => []

/-- The part for `FanInPoint`. -/
def fans (log : Seen ι) : List FanObs := log.filterMap Sum.getRight?

/-- `o` is a call of `sync`. -/
def Obs.isSync : Obs ι → Bool
  | .synced _ => true
  | .done _ => false

/-- How often the threads have counted the base `b` down by one. -/
def spent (log : Seen ι) : Base → Nat
  | .syncPoint => (log.filterMap Sum.getLeft?).countP Obs.isSync
  | .fanIn => (doneBy (fans log)).length
  | .pausePoint => 0

/-- The number of threads the base `b` expects. -/
def expected (s : WorkerThreads ι) : Base → Int
  | .syncPoint => s._tc.syncPoint.data.mExpectedThreads
  | .fanIn => s._tc.fanIn.data.mExpectedThreads
  | .pausePoint => s._tc.pausePoint.data.mExpectedThreads

/-- The pools constructed with `n` threads in which `add_thread` may throw, with
    what their runs have shown. -/
abbrev throwRecorded (ι : Type*) [DecidableEq ι] (n : Nat) :
    System (Seen ι × WorkerThreads ι) (ThrowEv ι) :=
  (throwing ι n).recorded seen

/-- The promise of the routines: each calls `done` at most once. -/
def DoneOnce (p : Seen ι × WorkerThreads ι) : ThrowEv ι → Prop
  | .ev (.act i .done) => .done i ∉ fans p.1
  | _ => True

/-- From `p` to `p'` the counter of each base `b` has grown by `k b`, but for what
    the threads have counted it down meanwhile. -/
def Grew (k : Base → Nat) (p p' : Seen ι × WorkerThreads ι) : Prop :=
  ∀ b, p'.2.expected b + spent p'.1 b = p.2.expected b + spent p.1 b + k b

/-- In `p` the client `c` calls `add_thread` for `num` threads, and creates `k` of
    them before the exception that leads to `p'`. -/
def Throws (n : Nat) (c : ι) (num k : Nat) (p p' : Seen ι × WorkerThreads ι) : Prop :=
  ∃ p₁ evs p₂, (throwRecorded ι n).step p (.ev (.call c (.addThread num))) = some p₁ ∧
    (throwRecorded ι n).Run (fun q e => DoneOnce q e ∧ (q.2.clients c).Adds) p₁ evs p₂ ∧
    (throwRecorded ι n).step p₂ (.throws c) = some p' ∧ p₂.2.created = p.2.created + k

variable {s s' : WorkerThreads ι} {i num k : Nat} {c : ι} {e : Ev ι} {log obs : Seen ι} {b : Base}

omit [DecidableEq ι] in
@[simp] theorem fans_append : fans (log ++ obs) = fans log ++ fans obs := List.filterMap_append

omit [DecidableEq ι] in
@[simp] theorem doneBy_append (l m : List FanObs) : doneBy (l ++ m) = doneBy l ++ doneBy m :=
  List.filterMap_append

omit [DecidableEq ι] in
theorem spent_append (log obs : Seen ι) (b : Base) :
    spent (log ++ obs) b = spent log b + spent obs b := by
  cases b <;> simp [spent]

omit [DecidableEq ι] in
@[simp] theorem fans_seen : fans (s.seen (.ev e)) = s.fanObs e := by
  simp [fans, seen, List.filterMap_append, List.filterMap_map, Function.comp_def]

omit [DecidableEq ι] in
theorem spent_seen : spent (s.seen (.ev e)) b =
    match b with
    | .syncPoint => (s.obs e).countP Obs.isSync
    | .fanIn => (doneBy (s.fanObs e)).length
    | .pausePoint => 0 := by
  cases b with
  | syncPoint => simp [spent, seen, List.filterMap_append, List.filterMap_map, Function.comp_def]
  | fanIn => simp [spent]
  | pausePoint => rfl

theorem throwStep_some (h : s.throwStep c = some s') :
    ∃ left, s.clients c = .adding (left + 1) ∧
      s' = { s with _muWorkerThreads := none }.setClient c .idle := by
  unfold throwStep at h
  split at h
  · rename_i left hpc
    exact ⟨left, hpc, (Option.some.inj h).symm⟩
  · cases h

-- ============================================================================
-- What a step makes of the counters
-- ============================================================================

/-- A step of `sync` counts down once for each call of it. -/
theorem spends_sync {t : Tid ι} {x : Config (Tid ι) SyncPoint SyncPoint.Wait} {r : Option Unit}
    (hadv : SyncPoint.monitor.advance t .sync s._tc.syncPoint = some (x, r)) :
    x.data.mExpectedThreads + (s.showsSync t).countP Obs.isSync =
      s._tc.syncPoint.data.mExpectedThreads := by
  unfold showsSync
  split
  · -- the call has only begun: the log shows it, and the counter goes down
    rename_i hout
    rw [(SyncPoint.advance_sync_out hadv hout).1]
    simp [Obs.isSync]
  · -- a re-check of a call shown before
    rename_i hin
    rw [(SyncPoint.advance_sync_in hadv hin).1]
    simp

/-- Who brings no threads only counts down. -/
theorem spends_of_client (hs : s.clientStep c = some s')
    (hquiet : ¬ (s.clients c).Builds ∧ ¬ (s.clients c).Adds) (b : Base) :
    s'.expected b + spent (s.seen (.ev (.client c))) b = s.expected b := by
  have hbrings : ∀ {pc}, s.clients c = pc → ¬ pc.Builds ∧ ¬ pc.Adds := by
    rintro pc rfl
    exact hquiet
  have hobs : ∀ {pc}, s.clients c = pc → pc ≠ .syncing → s.obs (.client c) = [] := by
    intro pc hpc hne
    simp only [obs, hpc]
  have hfans : s.fanObs (.client c) = [] := by
    cases hpc : s.clients c with
    | arming => exact absurd trivial (hbrings hpc).1
    | announcing => exact absurd trivial (hbrings hpc).2
    | _ => simp only [fanObs, hpc]
  rw [spent_seen]
  cases clientMove_of_step hs with
  -- the steps that bring threads are excluded
  | arm hpc => exact absurd trivial (hbrings hpc).1
  | create hpc => exact absurd trivial (hbrings hpc).1
  | built hpc => exact absurd trivial (hbrings hpc).1
  | announce hpc => exact absurd trivial (hbrings hpc).2
  | add hpc => exact absurd trivial (hbrings hpc).2
  | added hpc => exact absurd trivial (hbrings hpc).2
  | sync hpc hadv =>
      obtain ⟨x, hx, rfl⟩ := advance_sync hadv
      have hshown : s.obs (.client c) = s.showsSync (.client c) := by simp only [obs, hpc]
      rw [hshown, hfans]
      cases b with
      | syncPoint => exact spends_sync hx
      | fanIn => exact Int.add_zero _
      | pausePoint => exact Int.add_zero _
  -- a call that waits in a base leaves its counter alone
  | pause hpc hadv =>
      obtain ⟨x, hx, rfl⟩ := advance_pause hadv
      rw [hobs hpc (by simp), hfans]
      cases b with
      | pausePoint => exact (Int.add_zero _).trans (PausePoint.advance_expected hx rfl)
      | _ => exact Int.add_zero _
  | resume hpc hadv =>
      obtain ⟨x, hx, rfl⟩ := advance_pause hadv
      rw [hobs hpc (by simp), hfans]
      cases b with
      | pausePoint => exact (Int.add_zero _).trans (PausePoint.advance_expected hx rfl)
      | _ => exact Int.add_zero _
  | wait hpc hadv =>
      obtain ⟨x, hx, rfl⟩ := advance_fanIn hadv
      rw [hobs hpc (by simp), hfans]
      cases b with
      | fanIn => exact (Int.add_zero _).trans (FanInPoint.wait_expected hx)
      | _ => exact Int.add_zero _
  | stopWait hpc hadv =>
      obtain ⟨x, hx, rfl⟩ := advance_fanIn hadv
      rw [hobs hpc (by simp), hfans]
      cases b with
      | fanIn => exact (Int.add_zero _).trans (FanInPoint.wait_expected hx)
      | _ => exact Int.add_zero _
  | _ hpc =>
      rw [hobs hpc (by simp), hfans]
      cases b <;> exact Int.add_zero _

theorem spends_of_worker (hroll : Roll (fans log) s) (hs : s.workerStep i = some s') (b : Base) :
    s'.expected b + spent (s.seen (.ev (.worker i))) b = s.expected b := by
  obtain ⟨-, act, tc, r, hpc, hadv, rfl⟩ := workerStep_some hs
  rw [spent_seen]
  cases act with
  | sync =>
      obtain ⟨x, hx, rfl⟩ := advance_sync hadv
      have hobs : s.obs (.worker i) = s.showsSync (.worker i) := by simp only [obs, hpc]
      have hfans : s.fanObs (.worker i) = [] := by simp only [fanObs, hpc]
      rw [hobs, hfans]
      cases b with
      | syncPoint => exact spends_sync hx
      | _ => exact Int.add_zero _
  | pauseIfRequred =>
      obtain ⟨x, hx, rfl⟩ := advance_pause hadv
      have hobs : s.obs (.worker i) = [] := by simp only [obs, hpc]
      have hfans : s.fanObs (.worker i) = [] := by simp only [fanObs, hpc]
      rw [hobs, hfans]
      cases b with
      | pausePoint => exact (Int.add_zero _).trans (PausePoint.advance_expected hx rfl)
      | _ => exact Int.add_zero _
  | done =>
      obtain ⟨x, hx, rfl⟩ := advance_fanIn hadv
      have hobs : s.obs (.worker i) = [.done i] := by simp only [obs, hpc]
      have hfans : s.fanObs (.worker i) = [.done i] := by simp only [fanObs, hpc]
      -- only clients wait in `FanInPoint`, so `done` is in its first section
      have hout : s._tc.fanIn.thr (.worker i) = .out := hroll.out fun d hd => by cases hd
      have hdown : x.data.mExpectedThreads = s._tc.fanIn.data.mExpectedThreads - 1 :=
        (FanInPoint.advance_expected hx).1 hout
      rw [hobs, hfans]
      cases b with
      | fanIn =>
          show x.data.mExpectedThreads + 1 = s._tc.fanIn.data.mExpectedThreads
          omega
      | _ => exact Int.add_zero _

/-- The counters change by the steps that bring threads, and otherwise as the
    threads count them down. -/
theorem spends_of_step (hroll : Roll (fans log) s) (hs : s.step e = some s')
    (hquiet : ∀ d, e = .client d → ¬ (s.clients d).Builds ∧ ¬ (s.clients d).Adds) (b : Base) :
    s'.expected b + spent (s.seen (.ev e)) b = s.expected b := by
  cases e with
  | call c op =>
      obtain ⟨-, -, hmove⟩ := callMove_of_step hs
      rw [spent_seen]
      cases hmove <;> cases b <;> exact Int.add_zero _
  | client c => exact spends_of_client hs (hquiet c rfl) b
  | act i act =>
      obtain ⟨-, -, rfl⟩ := actStep_some hs
      rw [spent_seen]
      cases b <;> exact Int.add_zero _
  | worker i => exact spends_of_worker hroll hs b
  | ret i =>
      obtain ⟨-, -, rfl⟩ := retStep_some hs
      rw [spent_seen]
      cases b <;> exact Int.add_zero _
  | spurious b' t =>
      simp only [WorkerThreads.step, Option.map_eq_some_iff] at hs
      obtain ⟨tc, hsp, rfl⟩ := hs
      rw [spent_seen]
      cases b' <;>
      · simp only [ThreadControl.spurious, Option.map_eq_some_iff] at hsp
        obtain ⟨x, hx, rfl⟩ := hsp
        have hdata := (spurious_frame hx).1
        cases b <;> simp [expected, hdata, obs, fanObs, doneBy]

-- ============================================================================
-- Who is inside an operation
-- ============================================================================

/-- A client inside `SyncPoint` or `PausePoint` is in a call that waits there. -/
structure Seated (s : WorkerThreads ι) : Prop where
  sync : ∀ c, s._tc.syncPoint.thr (.client c) ≠ .out → s.clients c = .syncing
  pause : ∀ c, s._tc.pausePoint.thr (.client c) ≠ .out →
    s.clients c = .pausing ∨ s.clients c = .resuming

namespace Seated

omit [DecidableEq ι] in
/-- A step that changes nothing here, but may wake somebody. -/
theorem frame (h : Seated s)
    (hsync : ∀ t, (s'._tc.syncPoint.thr t).waiting = (s._tc.syncPoint.thr t).waiting)
    (hpause : ∀ t, (s'._tc.pausePoint.thr t).waiting = (s._tc.pausePoint.thr t).waiting)
    (hclients : s'.clients = s.clients) : Seated s' := by
  refine ⟨fun c hc => ?_, fun c hc => ?_⟩
  · rw [hclients]
    exact h.sync c fun hout => hc ((Status.out_iff (hsync _)).mpr hout)
  · rw [hclients]
    exact h.pause c fun hout => hc ((Status.out_iff (hpause _)).mpr hout)

/-- A client goes on to `pc`, and is inside only where `pc` waits. -/
theorem of_client_at {pc : ClientPc} (h : Seated s)
    (hclients : s'.clients = Function.update s.clients c pc)
    (hsync : ∀ t, t ≠ .client c →
      (s'._tc.syncPoint.thr t).waiting = (s._tc.syncPoint.thr t).waiting)
    (hpause : ∀ t, t ≠ .client c →
      (s'._tc.pausePoint.thr t).waiting = (s._tc.pausePoint.thr t).waiting)
    (hsync' : s'._tc.syncPoint.thr (.client c) ≠ .out → pc = .syncing)
    (hpause' : s'._tc.pausePoint.thr (.client c) ≠ .out → pc = .pausing ∨ pc = .resuming) :
    Seated s' := by
  obtain ⟨hself, hother⟩ := clients_of_update hclients
  refine ⟨fun d hd => ?_, fun d hd => ?_⟩
  · by_cases hdc : d = c
    · subst hdc
      exact hself.trans (hsync' hd)
    · have hne : Tid.client d ≠ .client c := fun heq => hdc (Tid.client.inj heq)
      rw [hother d hdc]
      exact h.sync d fun hout => hd ((Status.out_iff (hsync _ hne)).mpr hout)
  · by_cases hdc : d = c
    · subst hdc
      rw [hself]
      exact hpause' hd
    · have hne : Tid.client d ≠ .client c := fun heq => hdc (Tid.client.inj heq)
      rw [hother d hdc]
      exact h.pause d fun hout => hd ((Status.out_iff (hpause _ hne)).mpr hout)

/-- A client takes a step outside the two. -/
theorem of_other_call {pc : ClientPc} (h : Seated s)
    (hclients : s'.clients = Function.update s.clients c pc)
    (hsync : s'._tc.syncPoint = s._tc.syncPoint) (hpause : s'._tc.pausePoint = s._tc.pausePoint)
    (houts : s.clients c ≠ .syncing) (houtp : s.clients c ≠ .pausing ∧ s.clients c ≠ .resuming) :
    Seated s' := by
  refine h.of_client_at hclients (fun t _ => by rw [hsync]) (fun t _ => by rw [hpause])
    (fun hin => ?_) fun hin => ?_
  · rw [hsync] at hin
    exact absurd (h.sync c hin) houts
  · rw [hpause] at hin
    exact absurd (h.pause c hin) (not_or.mpr houtp)

omit [DecidableEq ι] in
theorem out (h : Seated s) (hc : (s.clients c).Adds ∨ (s.clients c).Builds) :
    s._tc.syncPoint.thr (.client c) = .out ∧ s._tc.pausePoint.thr (.client c) = .out := by
  constructor
  · by_contra hin
    rw [h.sync c hin] at hc
    exact hc.elim id id
  · by_contra hin
    rcases h.pause c hin with hpc | hpc <;>
    · rw [hpc] at hc
      exact hc.elim id id

/-- A client takes a step inside `SyncPoint`. -/
theorem atSync {pc : ClientPc} {op : SyncPoint.Op} {r : Option Unit} (h : Seated s)
    (hclients : s'.clients = Function.update s.clients c pc)
    (hadv : SyncPoint.monitor.advance (.client c) op s._tc.syncPoint = some (s'._tc.syncPoint, r))
    (hpause : s'._tc.pausePoint = s._tc.pausePoint)
    (houtp : s.clients c ≠ .pausing ∧ s.clients c ≠ .resuming)
    (hpc : r.isSome = true ∨ pc = .syncing) : Seated s' := by
  obtain ⟨hother, hself⟩ := SyncPoint.monitor.advance_frame hadv
  refine h.of_client_at hclients hother (fun t _ => by rw [hpause]) (fun hin => ?_) fun hin => ?_
  · exact hpc.resolve_left fun hsome => hin (hself.mpr hsome)
  · rw [hpause] at hin
    exact absurd (h.pause c hin) (not_or.mpr houtp)

/-- A client takes a step inside `PausePoint`. -/
theorem atPause {pc : ClientPc} {op : PausePoint.Op} {r : Option Unit} (h : Seated s)
    (hclients : s'.clients = Function.update s.clients c pc)
    (hadv : PausePoint.monitor.advance (.client c) op s._tc.pausePoint =
      some (s'._tc.pausePoint, r))
    (hsync : s'._tc.syncPoint = s._tc.syncPoint) (houts : s.clients c ≠ .syncing)
    (hpc : r.isSome = true ∨ pc = .pausing ∨ pc = .resuming) : Seated s' := by
  obtain ⟨hother, hself⟩ := PausePoint.monitor.advance_frame hadv
  refine h.of_client_at hclients (fun t _ => by rw [hsync]) hother (fun hin => ?_) fun hin => ?_
  · rw [hsync] at hin
    exact absurd (h.sync c hin) houts
  · exact hpc.resolve_left fun hsome => hin (hself.mpr hsome)

/-- A client tells a base of threads, or initializes it. -/
theorem of_counting_step {pc : ClientPc} {tc : ThreadControl (Tid ι)} {r : Option Unit}
    {op : Base → Op} (h : Seated s) (hc : (s.clients c).Adds ∨ (s.clients c).Builds)
    (hop : op = initializeExpected num ∨ op = addThread num)
    (hadv : s._tc.advance (.client c) (op b) = some (tc, r))
    (hclients : s'.clients = Function.update s.clients c pc) (htc : s'._tc = tc) : Seated s' := by
  obtain ⟨hsync, hpause⟩ := h.out hc
  have hnot : ∀ pc', s.clients c = pc' → pc'.Adds ∨ pc'.Builds := by
    rintro pc' rfl
    exact hc
  have houts : s.clients c ≠ .syncing := fun heq => (hnot _ heq).elim id id
  have houtp : s.clients c ≠ .pausing ∧ s.clients c ≠ .resuming :=
    ⟨fun heq => (hnot _ heq).elim id id, fun heq => (hnot _ heq).elim id id⟩
  cases b with
  | syncPoint =>
      -- neither operation waits, so the client is out again after the step
      have hx : ∃ op' x, SyncPoint.monitor.advance (.client c) op' s._tc.syncPoint = some (x, r) ∧
          tc = { s._tc with syncPoint := x } ∧ x.thr (.client c) = .out := by
        rcases hop with rfl | rfl <;>
        · obtain ⟨x, hx, rfl⟩ := advance_sync hadv
          exact ⟨_, x, hx, rfl, (SyncPoint.monitor.returns_of_advance hx hsync rfl).2⟩
      obtain ⟨op', x, hx, rfl, hout⟩ := hx
      have hsame : s'._tc.syncPoint = x := by rw [htc]
      have hsome := (SyncPoint.monitor.advance_frame hx).2.mp hout
      exact h.atSync hclients (hsame ▸ hx) (by rw [htc]) houtp (.inl hsome)
  | fanIn =>
      have hx : tc.syncPoint = s._tc.syncPoint ∧ tc.pausePoint = s._tc.pausePoint := by
        rcases hop with rfl | rfl <;>
        · obtain ⟨x, -, rfl⟩ := advance_fanIn hadv
          exact ⟨rfl, rfl⟩
      exact h.of_other_call hclients (by rw [htc, hx.1]) (by rw [htc, hx.2]) houts houtp
  | pausePoint =>
      have hx : ∃ op' x, PausePoint.monitor.advance (.client c) op' s._tc.pausePoint =
          some (x, r) ∧ tc = { s._tc with pausePoint := x } ∧ x.thr (.client c) = .out := by
        rcases hop with rfl | rfl <;>
        · obtain ⟨x, hx, rfl⟩ := advance_pause hadv
          exact ⟨_, x, hx, rfl, (PausePoint.monitor.returns_of_advance hx hpause rfl).2⟩
      obtain ⟨op', x, hx, rfl, hout⟩ := hx
      have hsame : s'._tc.pausePoint = x := by rw [htc]
      have hsome := (PausePoint.monitor.advance_frame hx).2.mp hout
      exact h.atPause hclients (hsame ▸ hx) (by rw [htc]) houts (.inl hsome)

theorem client (h : Seated s) (hs : s.clientStep c = some s') : Seated s' := by
  cases clientMove_of_step hs with
  | arm hpc hadv =>
      exact h.of_counting_step (.inr (by rw [hpc]; trivial)) (.inl rfl) hadv rfl rfl
  | announce hpc hadv =>
      exact h.of_counting_step (.inl (by rw [hpc]; trivial)) (.inr rfl) hadv rfl rfl
  | @pause tc r hpc hadv =>
      obtain ⟨x, hx, rfl⟩ := advance_pause hadv
      exact h.atPause rfl hx rfl (by simp [hpc]) (by cases r <;> simp)
  | @resume tc r hpc hadv =>
      obtain ⟨x, hx, rfl⟩ := advance_pause hadv
      exact h.atPause rfl hx rfl (by simp [hpc]) (by cases r <;> simp)
  | @sync tc r hpc hadv =>
      obtain ⟨x, hx, rfl⟩ := advance_sync hadv
      exact h.atSync rfl hx rfl (by simp [hpc]) (by cases r <;> simp)
  | wait hpc hadv =>
      obtain ⟨x, hx, rfl⟩ := advance_fanIn hadv
      exact h.of_other_call rfl rfl rfl (by simp [hpc]) (by simp [hpc])
  | stopWait hpc hadv =>
      obtain ⟨x, hx, rfl⟩ := advance_fanIn hadv
      exact h.of_other_call rfl rfl rfl (by simp [hpc]) (by simp [hpc])
  | _ hpc => exact h.of_other_call rfl rfl rfl (by simp [hpc]) (by simp [hpc])

theorem step (h : Seated s) (hs : WorkerThreads.step s e = some s') : Seated s' := by
  cases e with
  | call c op =>
      obtain ⟨-, hidle, hmove⟩ := callMove_of_step hs
      cases hmove <;> exact h.of_other_call rfl rfl rfl (by simp [hidle]) (by simp [hidle])
  | client c => exact h.client hs
  | act i act =>
      obtain ⟨-, -, rfl⟩ := actStep_some hs
      exact h.frame (fun _ => rfl) (fun _ => rfl) rfl
  | worker i =>
      obtain ⟨-, act, tc, r, -, hadv, rfl⟩ := workerStep_some hs
      have hne : ∀ d : ι, Tid.client d ≠ .worker i := fun d heq => by cases heq
      cases act with
      | sync =>
          obtain ⟨x, hx, rfl⟩ := advance_sync hadv
          refine ⟨fun d hd => h.sync d fun hout => hd ?_, h.pause⟩
          exact (Status.out_iff ((SyncPoint.monitor.advance_frame hx).1 _ (hne d))).mpr hout
      | pauseIfRequred =>
          obtain ⟨x, hx, rfl⟩ := advance_pause hadv
          refine ⟨h.sync, fun d hd => h.pause d fun hout => hd ?_⟩
          exact (Status.out_iff ((PausePoint.monitor.advance_frame hx).1 _ (hne d))).mpr hout
      | done =>
          obtain ⟨x, hx, rfl⟩ := advance_fanIn hadv
          exact ⟨h.sync, h.pause⟩
  | ret i =>
      obtain ⟨-, -, rfl⟩ := retStep_some hs
      exact h.frame (fun _ => rfl) (fun _ => rfl) rfl
  | spurious b t =>
      simp only [WorkerThreads.step, Option.map_eq_some_iff] at hs
      obtain ⟨tc, hsp, rfl⟩ := hs
      cases b <;>
      · simp only [ThreadControl.spurious, Option.map_eq_some_iff] at hsp
        obtain ⟨x, hx, rfl⟩ := hsp
        have hwaiting := (spurious_frame hx).2
        exact h.frame (fun t => by simp [hwaiting]) (fun t => by simp [hwaiting]) rfl

end Seated

omit [DecidableEq ι] in
/-- Nor is a client that tells a base of threads inside `FanInPoint`. -/
theorem fanIn_out {l : List FanObs} (hroll : Roll l s) (hpc : s.clients c = .announcing num b) :
    s._tc.fanIn.thr (.client c) = .out := by
  refine hroll.out fun d hd => ?_
  cases hd
  rw [hpc]
  rintro (h | h) <;> cases h

/-- A client that tells the base `b` of `num` threads. -/
theorem told (hseated : Seated s) (hroll : Roll (fans log) s)
    (hpc : s.clients c = .announcing num b)
    {tc : ThreadControl (Tid ι)} {r : Option Unit}
    (hadv : s._tc.advance (.client c) (addThread num b) = some (tc, r)) (b' : Base) :
    expected { s with _tc := tc } b' = s.expected b' + if b' = b then (num : Int) else 0 := by
  have hadds : (s.clients c).Adds := by rw [hpc]; trivial
  obtain ⟨hsync, hpause⟩ := hseated.out (.inl hadds)
  cases b with
  | syncPoint =>
      obtain ⟨x, hx, rfl⟩ := advance_sync hadv
      have hdata := (SyncPoint.monitor.returns_of_advance hx hsync rfl).1
      cases b' <;> simp [expected, hdata, SyncPoint.addThread]
  | fanIn =>
      obtain ⟨x, hx, rfl⟩ := advance_fanIn hadv
      have hdata := (FanInPoint.monitor.returns_of_advance hx (fanIn_out hroll hpc) rfl).1
      cases b' <;> simp [expected, hdata, FanInPoint.addThread]
  | pausePoint =>
      obtain ⟨x, hx, rfl⟩ := advance_pause hadv
      have hdata := (PausePoint.monitor.returns_of_advance hx hpause rfl).1
      cases b' <;> simp [expected, hdata, PausePoint.addThread]

-- ============================================================================
-- The states reached
-- ============================================================================

/-- What holds in every state reached, exceptions included. -/
structure Kept (log : Seen ι) (s : WorkerThreads ι) : Prop where
  roll : Roll (fans log) s
  bringers : Bringers s
  seated : Seated s

omit [DecidableEq ι] in
theorem seated_of_out (hsync : ∀ t, s._tc.syncPoint.thr t = .out)
    (hpause : ∀ t, s._tc.pausePoint.thr t = .out) : Seated s :=
  ⟨fun _ hc => absurd (hsync _) hc, fun _ hc => absurd (hpause _) hc⟩

theorem kept_initial {n : Nat} : Kept [] (initial c n) :=
  ⟨roll_initial, bringers_initial, seated_of_out (fun _ => rfl) fun _ => rfl⟩

namespace Kept

/-- An exception leaves the counters alone, and `FanInPoint` owed the workers
    that have not been created. -/
theorem throws (h : Kept log s) (hs : s.throwStep c = some s') : Kept log s' := by
  obtain ⟨left, hpc, rfl⟩ := throwStep_some hs
  have hadds : (s.clients c).Adds := by rw [hpc]; trivial
  have hwaits : ¬ (s.clients c).Waits := by rw [hpc]; simp [ClientPc.Waits]
  have hother : ∀ d, d ≠ c →
      ({ s with _muWorkerThreads := none }.setClient c .idle).clients d = s.clients d :=
    fun d hd => Function.update_of_ne hd ..
  -- the counter and the log are as before; only the room of `c` has changed
  refine ⟨⟨h.roll.counter, fun d => ?_, h.roll.worker, h.roll.nodup, h.roll.calling,
    fun t w hw => ?_, h.roll.alert, fun d hd => ?_⟩, ?_, ?_⟩
  · by_cases hdc : d = c
    · rw [hdc, setClient_self]
      exact h.roll.created_le c
    · rw [hother d hdc]
      exact h.roll.room d
  · obtain ⟨d, rfl, hd⟩ := h.roll.waiter t w hw
    have hdc : d ≠ c := by
      rintro rfl
      exact hwaits hd
    exact ⟨d, rfl, by rw [hother d hdc]; exact hd⟩
  · by_cases hdc : d = c
    · rw [hdc, setClient_self] at hd
      exact absurd hd id
    · rw [hother d hdc] at hd
      exact h.roll.arming d hd
  · exact h.bringers.of_client_at (h.bringers.nobody (by simp [hpc])) rfl
      (fun hidle => absurd hidle id)
      (fun d hdc hd => absurd hd (h.bringers.alone (.inr hadds) hdc).2) fun hidle => absurd hidle id
  · exact h.seated.of_other_call rfl rfl rfl (by simp [hpc]) (by simp [hpc])

theorem step {e : ThrowEv ι} (h : Kept log s) (hok : DoneOnce (log, s) e)
    (hs : s.stepOrThrow e = some s') : Kept (log ++ s.seen e) s' := by
  cases e with
  | ev e =>
      refine ⟨?_, h.bringers.step hs, h.seated.step hs⟩
      rw [fans_append, fans_seen]
      refine h.roll.step_of_once h.bringers ?_ hs
      rintro i rfl
      exact hok
  | throws c =>
      rw [seen, List.append_nil]
      exact h.throws hs

end Kept

theorem kept_of_reachable {n : Nat} {p : Seen ι × WorkerThreads ι}
    (h : (throwRecorded ι n).ReachableBy DoneOnce p) : Kept p.1 p.2 := by
  refine h.recorded_invariant (P := fun log s => Kept log s) ?_
    fun log s e s' hkept hok hs => hkept.step hok hs
  rintro s ⟨c, rfl⟩
  exact kept_initial

-- ============================================================================
-- Inside `add_thread`
-- ============================================================================

/-- What a client has told the base `b` so far in an `add_thread` of `num` threads. -/
def ClientPc.told (num : Nat) : ClientPc → Base → Nat
  | .announcing _ .syncPoint, _ => 0
  | .announcing _ .fanIn, .syncPoint => num
  | .announcing _ .fanIn, _ => 0
  | .announcing _ .pausePoint, .pausePoint => 0
  | _, _ => num

/-- How many threads a client has still to create in an `add_thread` of `num` threads. -/
def ClientPc.toCreate (num : Nat) : ClientPc → Nat
  | .adding left => left
  | _ => num

/-- In an `add_thread` of `num` threads. -/
def ClientPc.AddsFor (num : Nat) (pc : ClientPc) : Prop :=
  (∃ b, pc = .announcing num b) ∨ ∃ left, pc = .adding left

/-- Since `p` the client `c` is in an `add_thread` of `num` threads: the counters
    have grown by what it has told the bases, and nobody else has created any. -/
structure InCall (c : ι) (num : Nat) (p : Seen ι × WorkerThreads ι) (log : Seen ι)
    (s : WorkerThreads ι) : Prop where
  place : (s.clients c).AddsFor num
  grew : Grew ((s.clients c).told num) p (log, s)
  created : s.created + (s.clients c).toCreate num = p.2.created + num

/-- Who brings no threads creates none, and moves nobody but itself. -/
theorem frame_of_step (hs : s.step e = some s')
    (hquiet : ∀ d, e = .client d → ¬ (s.clients d).Builds ∧ ¬ (s.clients d).Adds)
    (hbusy : s.clients c ≠ .idle) (hne : e ≠ .client c) :
    s'.created = s.created ∧ s'.clients c = s.clients c := by
  cases e with
  | call d op =>
      obtain ⟨-, hidle, hmove⟩ := callMove_of_step hs
      have hcd : c ≠ d := by
        rintro rfl
        exact hbusy hidle
      cases hmove <;> exact ⟨rfl, Function.update_of_ne hcd ..⟩
  | client d =>
      have hcd : c ≠ d := fun heq => hne (by rw [heq])
      obtain ⟨hbuilds, hadds⟩ := hquiet d rfl
      cases clientMove_of_step hs with
      | create hpc => exact absurd (by rw [hpc]; trivial) hbuilds
      | add hpc => exact absurd (by rw [hpc]; trivial) hadds
      | _ => exact ⟨rfl, Function.update_of_ne hcd ..⟩
  | act i act =>
      obtain ⟨-, -, rfl⟩ := actStep_some hs
      exact ⟨rfl, rfl⟩
  | worker i =>
      obtain ⟨-, act, tc, r, -, -, rfl⟩ := workerStep_some hs
      exact ⟨rfl, rfl⟩
  | ret i =>
      obtain ⟨-, -, rfl⟩ := retStep_some hs
      exact ⟨rfl, rfl⟩
  | spurious b t =>
      simp only [WorkerThreads.step, Option.map_eq_some_iff] at hs
      obtain ⟨tc, -, rfl⟩ := hs
      exact ⟨rfl, rfl⟩

omit [DecidableEq ι] in
/-- `add_thread` counts nothing down. -/
theorem spent_adds (hadds : (s.clients c).Adds) : spent (s.seen (.ev (.client c))) b = 0 := by
  rw [spent_seen]
  cases hpc : s.clients c with
  | announcing nthreads b' => cases b <;> cases b' <;>
    simp [obs, fanObs, hpc, doneBy, FanObs.worker]
  | adding left => cases b <;> simp [obs, fanObs, hpc, doneBy]
  | _ => rw [hpc] at hadds; exact absurd hadds id

namespace InCall

variable {p : Seen ι × WorkerThreads ι}

omit [DecidableEq ι] in
theorem client_adds (h : InCall c num p log s) : (s.clients c).Adds := by
  rcases h.place with ⟨b, hpc⟩ | ⟨left, hpc⟩ <;>
  · rw [hpc]
    trivial

/-- The next step of the call itself. -/
theorem own (h : InCall c num p log s) (hkept : Kept log s) (hs : s.clientStep c = some s')
    (hadds : (s'.clients c).Adds) : InCall c num p (log ++ s.seen (.ev (.client c))) s' := by
  have hspent : (s.clients c).Adds → ∀ b,
      spent (log ++ s.seen (.ev (.client c))) b = spent log b := by
    intro hin b
    rw [spent_append, spent_adds hin, Nat.add_zero]
  obtain ⟨⟨b, hpc⟩ | ⟨left, hpc⟩, hgrew, hcreated⟩ := h
  · -- between the bases: `told` grows by what the step tells the base `b`
    have hin := hspent (by rw [hpc]; trivial)
    rw [hpc] at hgrew hcreated
    cases clientMove_of_step hs with
    | @announce nthreads b₁ tc r hpc₁ hadv =>
        cases hpc.symm.trans hpc₁
        have htold := told hkept.seated hkept.roll hpc hadv
        refine ⟨?_, fun b' => ?_, ?_⟩
        · rw [setClient_self]
          cases b with
          | pausePoint => exact .inr ⟨num, rfl⟩
          | _ => exact .inl ⟨_, rfl⟩
        · -- the counter of `b'` has grown if it is `b`
          have hold := hgrew b'
          have hnew : expected ({ s with _tc := tc }.setClient c (afterAnnouncing num b)) b' =
            s.expected b' + if b' = b then (num : Int) else 0 := htold b'
          rw [setClient_self]
          show expected _ b' + ((spent (log ++ s.seen (.ev (.client c))) b' : Nat) : Int) = _
          rw [hnew, hin]
          cases b <;> cases b' <;> simp [ClientPc.told, afterAnnouncing, Base.next] at hold ⊢ <;>
            omega
        · rw [setClient_self]
          cases b <;> exact hcreated
    | _ hpc₁ => cases hpc.symm.trans hpc₁
  · have hin := hspent (by rw [hpc]; trivial)
    rw [hpc] at hgrew hcreated
    cases clientMove_of_step hs with
    | @add left₁ hpc₁ =>
        cases hpc.symm.trans hpc₁
        refine ⟨.inr ⟨left₁, setClient_self⟩, fun b' => ?_, ?_⟩
        · have hold := hgrew b'
          rw [setClient_self]
          show expected s b' + ((spent (log ++ s.seen (.ev (.client c))) b' : Nat) : Int) = _
          rw [hin]
          cases b' <;> exact hold
        · rw [setClient_self]
          simp only [ClientPc.toCreate] at hcreated ⊢
          show s.created + 1 + left₁ = _
          omega
    -- the end of the loop is the end of the call
    | added hpc₁ =>
        rw [setClient_self] at hadds
        exact absurd hadds id
    | _ hpc₁ => cases hpc.symm.trans hpc₁

/-- A step of somebody else. -/
theorem other (h : InCall c num p log s) (hkept : Kept log s) (hs : s.step e = some s')
    (hne : e ≠ .client c) : InCall c num p (log ++ s.seen (.ev e)) s' := by
  have hadds := h.client_adds
  -- whoever else is at work brings no threads: the mutex is taken
  have hquiet : ∀ d, e = .client d → ¬ (s.clients d).Builds ∧ ¬ (s.clients d).Adds := by
    rintro d rfl
    exact hkept.bringers.alone (.inr hadds) fun hdc => hne (by rw [hdc])
  have hbusy : s.clients c ≠ .idle := by
    intro hidle
    rw [hidle] at hadds
    exact hadds
  obtain ⟨hcreated, hclient⟩ := frame_of_step hs hquiet hbusy hne
  refine ⟨by rw [hclient]; exact h.place, fun b => ?_, by rw [hclient, hcreated]; exact h.created⟩
  have hspends := spends_of_step hkept.roll hs hquiet b
  have hgrew := h.grew b
  have happend := spent_append log (s.seen (.ev e)) b
  rw [hclient]
  simp only at hgrew ⊢
  omega

theorem step {e : ThrowEv ι} (h : InCall c num p log s) (hkept : Kept log s)
    (hs : s.stepOrThrow e = some s') (hadds : (s'.clients c).Adds) :
    InCall c num p (log ++ s.seen e) s' := by
  cases e with
  | ev e =>
      by_cases he : e = .client c
      · subst he
        exact h.own hkept hs hadds
      · exact h.other hkept hs he
  | throws d =>
      obtain ⟨left, hpc, rfl⟩ := throwStep_some hs
      -- an exception ends this call, and nobody else is in one
      by_cases hdc : d = c
      · rw [hdc, setClient_self] at hadds
        exact absurd hadds id
      · have hnot := (hkept.bringers.alone (.inr h.client_adds) hdc).2
        rw [hpc] at hnot
        exact absurd trivial hnot

/-- And so up to any later step of the call. -/
theorem run {n : Nat} {q q' : Seen ι × WorkerThreads ι} {evs : List (ThrowEv ι)}
    (h : InCall c num p q.1 q.2) (hkept : Kept q.1 q.2)
    (hrun : (throwRecorded ι n).Run (fun q e => DoneOnce q e ∧ (q.2.clients c).Adds) q evs q')
    (hadds : (q'.2.clients c).Adds) : InCall c num p q'.1 q'.2 ∧ Kept q'.1 q'.2 := by
  induction hrun with
  | nil => exact ⟨h, hkept⟩
  | @cons q q₁ q₂ e evs hok hs hrest ih =>
      obtain ⟨s₁, hs₁, rfl⟩ := System.recorded_some hs
      have hin : (s₁.clients c).Adds := by
        cases hrest with
        | nil => exact hadds
        | cons hok' _ _ => exact hok'.2
      exact ih (h.step hkept hs₁ hin) (hkept.step hok.1 hs₁) hadds

end InCall

-- ============================================================================
-- What is owed
-- ============================================================================

/-- `FanInPoint` has been told of `d` workers that nobody creates. -/
def Owes (d : Nat) (log : List FanObs) (s : WorkerThreads ι) : Prop :=
  ∀ c, s.created + (s.clients c).left + d ≤ announced log

namespace Owes

variable {d : Nat} {l : List FanObs}

omit [DecidableEq ι] in
/-- It expects at least as many more calls of `done`. -/
theorem le_expected (h : Owes d l s) (hroll : Roll l s) (c : ι) :
    (s.created : Int) - (doneBy l).length + d ≤ s.expected .fanIn := by
  have hroom := h c
  have hcounter : s.expected .fanIn = announced l - (doneBy l).length := hroll.counter
  omega

omit [DecidableEq ι] in
theorem frame {o : List FanObs} (h : Owes d l s) (hcreated : s'.created = s.created)
    (hleft : ∀ c, (s'.clients c).left = (s.clients c).left)
      (ho : announced (l ++ o) = announced l) :
    Owes d (l ++ o) s' := by
  intro c
  rw [hcreated, hleft, ho]
  exact h c

theorem left_of_update {pc pc' : ClientPc} (hpc : s.clients c = pc)
    (hclients : s'.clients = Function.update s.clients c pc') (hleft : pc'.left = pc.left) (x : ι) :
    (s'.clients x).left = (s.clients x).left := by
  obtain ⟨hself, hother⟩ := clients_of_update hclients
  by_cases hxc : x = c
  · rw [hxc, hself, hpc, hleft]
  · rw [hother x hxc]

theorem ev (h : Owes d l s) (hb : Bringers s) (hs : s.step e = some s') :
    Owes d (l ++ s.fanObs e) s' := by
  have hmove := fanMove_of_step hs
  generalize s.fanObs e = o at hmove ⊢
  cases hmove with
  | same hfan hcreated hworkers hclients =>
      exact h.frame hcreated (fun c => by rw [hclients]) (by rw [List.append_nil])
  | moves hpc hclients hleft hwaits harms hfan hcreated hworkers =>
      exact h.frame hcreated (left_of_update hpc hclients hleft) (by rw [List.append_nil])
  -- the roll and what is left to the client grow by the same batch
  | @tells c pc pc' k op r s' hpc hclients hleft hleft' hbrings harms hop hadv hcreated hworkers =>
      obtain ⟨hself, hother⟩ := clients_of_update hclients
      have hc := h c
      intro x
      rw [announced_snoc, hcreated]
      simp only [FanObs.workers]
      by_cases hxc : x = c
      · rw [hxc, hself, hleft']
        omega
      · rw [hother x hxc]
        have hx := h x
        omega
  -- one more created is one less left
  | @creates c pc pc' s' hpc hclients hleft hbrings harms hfan hcreated hworkers =>
      obtain ⟨hself, hother⟩ := clients_of_update hclients
      have hc := h c
      rw [hpc, hleft] at hc
      intro x
      rw [List.append_nil, hcreated]
      by_cases hxc : x = c
      · rw [hxc, hself]
        omega
      · obtain ⟨hbuilds, hadds⟩ := hb.alone (by rw [hpc]; exact hbrings) hxc
        rw [hother x hxc, ClientPc.left_eq_zero hbuilds hadds]
        omega
  | @waits c pc pc' r s' hpc hclients hwaits hpc' hadv hcreated hworkers =>
      have hleft : pc'.left = pc.left := by
        rw [hpc']
        rcases hwaits with rfl | rfl <;> cases r <;> rfl
      exact h.frame hcreated (left_of_update hpc hclients hleft) (by rw [List.append_nil])
  | runs hdone hworkers hfan hcreated hclients =>
      exact h.frame hcreated (fun c => by rw [hclients]) (by rw [List.append_nil])
  | done hi hpc hworkers hadv hcreated hclients =>
      exact h.frame hcreated (fun c => by rw [hclients]) (by rw [announced_snoc]; rfl)
  | spurious hsp hcreated hworkers hclients =>
      exact h.frame hcreated (fun c => by rw [hclients]) (by rw [List.append_nil])

/-- An exception leaves the threads that were still to be created owed. -/
theorem throws {left : Nat} (h : Owes d l s) (hb : Bringers s)
    (hpc : s.clients c = .adding (left + 1)) :
    Owes (d + left + 1) l ({ s with _muWorkerThreads := none }.setClient c .idle) := by
  have hadds : (s.clients c).Adds := by rw [hpc]; trivial
  have hc := h c
  rw [hpc] at hc
  simp only [ClientPc.left] at hc
  intro x
  by_cases hxc : x = c
  · -- what was left to `c` is left to nobody now
    rw [hxc, setClient_self]
    show s.created + 0 + (d + left + 1) ≤ announced l
    omega
  · obtain ⟨hbuilds, hno⟩ := hb.alone (.inr hadds) hxc
    have hzero := ClientPc.left_eq_zero hbuilds hno
    show s.created + (Function.update s.clients c .idle x).left + (d + left + 1) ≤ announced l
    rw [Function.update_of_ne hxc, hzero]
    omega

omit [DecidableEq ι] in
theorem mono {d' : Nat} (h : Owes d l s) (hle : d' ≤ d) : Owes d' l s := by
  intro c
  have hc := h c
  omega

theorem run {n : Nat} {q q' : Seen ι × WorkerThreads ι} {evs : List (ThrowEv ι)}
    (h : Owes d (fans q.1) q.2) (hkept : Kept q.1 q.2)
    (hrun : (throwRecorded ι n).Run DoneOnce q evs q') :
    Owes d (fans q'.1) q'.2 ∧ Kept q'.1 q'.2 := by
  refine hrun.recorded_invariant (P := fun log s => Owes d (fans log) s ∧ Kept log s) ⟨h, hkept⟩ ?_
  rintro log s e s' ⟨howes, hkept⟩ hok hs
  refine ⟨?_, hkept.step hok hs⟩
  cases e with
  | ev e =>
      rw [fans_append, fans_seen]
      exact howes.ev hkept.bringers hs
  | throws c =>
      obtain ⟨left, hpc, rfl⟩ := throwStep_some hs
      rw [seen, List.append_nil]
      exact (howes.throws hkept.bringers hpc).mono (by omega)

end Owes

-- ============================================================================
-- The result
-- ============================================================================

variable {n : Nat} {p p' q q' : Seen ι × WorkerThreads ι}

/-- While `FanInPoint` expects somebody, nobody returns from its wait. -/
theorem waits_of_expected (hexpected : 0 < q.2.expected .fanIn) (hwaits : (q.2.clients c).Waits)
    (hs : (throwRecorded ι n).step q (.ev (.client c)) = some q') : (q'.2.clients c).Waits := by
  obtain ⟨s', hs', rfl⟩ := System.recorded_some hs
  -- the wait returns only on a counter that is zero
  have hnone : ∀ {tc r}, q.2._tc.advance (.client c) (.fanIn .wait) = some (tc, r) → r = none := by
    intro tc r hadv
    obtain ⟨x, hx, rfl⟩ := advance_fanIn hadv
    by_contra hr
    obtain ⟨⟨⟩, rfl⟩ := Option.ne_none_iff_exists'.mp hr
    have hzero : x.data.mExpectedThreads = 0 := FanInPoint.wait_returns hx
    have hsame := FanInPoint.wait_expected hx
    simp only [expected] at hexpected
    omega
  cases clientMove_of_step hs' with
  | wait hpc hadv =>
      rw [hnone hadv, setClient_self]
      exact .inl rfl
  | stopWait hpc hadv =>
      rw [hnone hadv, setClient_self]
      exact .inr rfl
  | _ hpc =>
      rw [hpc] at hwaits
      rcases hwaits with h | h <;> cases h

/-- A call of `add_thread` that throws begins, and the exception finds it in its loop. -/
theorem Throws.parts (h : Throws n c num k p p') (hkept : Kept p.1 p.2) :
    ∃ (q : Seen ι × WorkerThreads ι) (left : Nat), Kept q.1 q.2 ∧ InCall c num p q.1 q.2 ∧
      q.2.clients c = .adding (left + 1) ∧
      q.2.created = p.2.created + k ∧
      p' = (q.1, { q.2 with _muWorkerThreads := none }.setClient c .idle) := by
  obtain ⟨p₁, evs, q, hcall, hrun, hthrow, hcreated⟩ := h
  obtain ⟨s₁, hs₁, rfl⟩ := System.recorded_some hcall
  obtain ⟨s', hs', rfl⟩ := System.recorded_some hthrow
  obtain ⟨left, hpc, rfl⟩ := throwStep_some hs'
  have hkept₁ := hkept.step (e := .ev (.call c (.addThread num))) trivial hs₁
  -- at the call no base has been told yet
  have hbegun : InCall c num p (p.1 ++ p.2.seen (.ev (.call c (.addThread num)))) s₁ := by
    have hcall₁ : p.2.callStep c (.addThread num) = some s₁ := hs₁
    obtain ⟨-, -, hmove⟩ := callMove_of_step hcall₁
    cases hmove with
    | addThread hmu =>
        refine ⟨.inl ⟨_, setClient_self⟩, fun b => ?_, ?_⟩
        · rw [setClient_self]
          cases b <;> simp [expected, ClientPc.told, seen, obs, fanObs, setClient]
        · rw [setClient_self]
          rfl
  obtain ⟨hin, hkept₂⟩ := hbegun.run hkept₁ hrun (by rw [hpc]; trivial)
  refine ⟨q, left, hkept₂, hin, hpc, hcreated, ?_⟩
  rw [seen, List.append_nil]

theorem recorded_step {e : ThrowEv ι} (h : q.2.stepOrThrow e = some s') :
    (throwRecorded ι n).step q e = some (q.1 ++ q.2.seen e, s') :=
  System.recorded_of_step (S := WorkerThreads ι) h

omit [DecidableEq ι] in
theorem doneOnce_client : DoneOnce q (.ev (.client c)) := trivial

/-- A call of `add_thread` goes on from one base to the next, -/
theorem announce_next (hkept : Kept q.1 q.2) (hpc : q.2.clients c = .announcing num b) :
    ∃ q', (throwRecorded ι n).step q (.ev (.client c)) = some q' ∧ Kept q'.1 q'.2 ∧
      q'.2.clients c = afterAnnouncing num b ∧ q'.2.created = q.2.created := by
  have hadds : (q.2.clients c).Adds := by rw [hpc]; trivial
  obtain ⟨hsync, hpause⟩ := hkept.seated.out (.inl hadds)
  have hfan := fanIn_out hkept.roll hpc
  have hadv : ∃ tc r, q.2._tc.advance (.client c) (addThread num b) = some (tc, r) := by
    cases b with
    | syncPoint =>
        have hx : SyncPoint.monitor.advance (.client c) (.addThread num) q.2._tc.syncPoint = some
          _ :=
          SyncPoint.monitor.advance_of_out hsync rfl
        exact ⟨_, _, advance_of_sync hx⟩
    | fanIn =>
        have hx : FanInPoint.monitor.advance (.client c) (.addThread num) q.2._tc.fanIn = some _ :=
          FanInPoint.monitor.advance_of_out hfan rfl
        exact ⟨_, _, advance_of_fanIn hx⟩
    | pausePoint =>
        have hx : PausePoint.monitor.advance (.client c) (.addThread num) q.2._tc.pausePoint =
            some _ := PausePoint.monitor.advance_of_out hpause rfl
        exact ⟨_, _, advance_of_pause hx⟩
  obtain ⟨tc, r, hadv⟩ := hadv
  have hs : q.2.clientStep c =
      some ({ q.2 with _tc := tc }.setClient c (afterAnnouncing num b)) := by
    simp only [clientStep, hpc, hadv, Option.map_some]
  have hrec := recorded_step (n := n) (q := q) (e := .ev (.client c)) hs
  exact ⟨_, hrec, hkept.step doneOnce_client hs, setClient_self, rfl⟩

/-- then creates one thread after another, -/
theorem create_run {left : Nat} (k : Nat) : ∀ {q : Seen ι × WorkerThreads ι},
    q.2.clients c = .adding (left + 1 + k) →
    ∃ evs q', (throwRecorded ι n).Run (fun q e => DoneOnce q e ∧ (q.2.clients c).Adds) q evs q' ∧
      q'.2.clients c = .adding (left + 1) ∧ q'.2.created = q.2.created + k := by
  induction k with
  | zero => exact fun hpc => ⟨[], _, .nil, hpc, rfl⟩
  | succ k ih =>
      intro q hpc
      have hadds : (q.2.clients c).Adds := by rw [hpc]; trivial
      have hs : q.2.clientStep c = some (q.2.emplace.setClient c (.adding (left + 1 + k))) := by
        rw [← Nat.add_assoc] at hpc
        simp only [clientStep, hpc]
      have hrec := recorded_step (n := n) (q := q) (e := .ev (.client c)) hs
      obtain ⟨evs, q', hrun, hpc', hcreated⟩ := ih (q := (q.1 ++ q.2.seen (.ev (.client c)),
        q.2.emplace.setClient c (.adding (left + 1 + k)))) setClient_self
      refine ⟨_, q', .cons ⟨doneOnce_client, hadds⟩ hrec hrun, hpc',
        hcreated.trans ?_⟩
      show q.2.created + 1 + k = _
      omega

/-- and any of them may be the one that throws. -/
theorem throws_exists (hkept : Kept p.1 p.2) (hbuilt : p.2.built = true)
    (hidle : p.2.clients c = .idle) (hmutex : p.2._muWorkerThreads = none) (hk : k < num) :
    ∃ p', Throws n c num k p p' := by
  obtain ⟨left, rfl⟩ := Nat.exists_eq_add_of_lt hk
  have hcall : p.2.callStep c (.addThread (k + left + 1)) =
      some ({ p.2 with _muWorkerThreads := some c }.setClient c
        (.announcing (k + left + 1) .syncPoint)) := by
    simp only [callStep, hbuilt, hidle, hmutex]
  have hrec := recorded_step (n := n) (q := p)
    (e := .ev (.call c (.addThread (k + left + 1)))) hcall
  have hkept₁ := hkept.step (e := .ev (.call c (.addThread (k + left + 1)))) trivial hcall
  -- one step at each of the three bases
  obtain ⟨q₁, hs₁, hkept₂, hpc₁, hcreated₁⟩ := announce_next (n := n)
    (q := (p.1 ++ p.2.seen (.ev (.call c (.addThread (k + left + 1)))),
      { p.2 with _muWorkerThreads := some c }.setClient c
        (.announcing (k + left + 1) .syncPoint))) hkept₁ setClient_self
  obtain ⟨q₂, hs₂, hkept₃, hpc₂, hcreated₂⟩ := announce_next (n := n) hkept₂ hpc₁
  obtain ⟨q₃, hs₃, hkept₄, hpc₃, hcreated₃⟩ := announce_next (n := n) hkept₃ hpc₂
  -- then the loop, as far as the thread that throws
  have hadding : q₃.2.clients c = .adding (left + 1 + k) := by
    rw [hpc₃, show left + 1 + k = k + left + 1 by omega]
    rfl
  obtain ⟨evs, q₄, hrun, hpc₄, hcreated₄⟩ := create_run (n := n) k hadding
  have hthrow : q₄.2.throwStep c =
      some ({ q₄.2 with _muWorkerThreads := none }.setClient c .idle) := by
    simp only [throwStep, hpc₄]
  have hthrown := recorded_step (n := n) (q := q₄) (e := .throws c) hthrow
  have hadds : ∀ {pc : ClientPc} {s : WorkerThreads ι}, s.clients c = pc → pc.Adds →
      (s.clients c).Adds := by
    rintro pc s rfl
    exact id
  refine ⟨_, _, _, q₄, hrec,
    .cons ⟨doneOnce_client, hadds setClient_self trivial⟩ hs₁ <|
    .cons ⟨doneOnce_client, hadds hpc₁ trivial⟩ hs₂ <|
    .cons ⟨doneOnce_client, hadds hpc₂ trivial⟩ hs₃ hrun, hthrown, ?_⟩
  rw [hcreated₄, hcreated₃, hcreated₂, hcreated₁]
  rfl

/-- **After an exception the counters have grown too far**: whatever the state in
    which `add_thread` is called for `num` threads, and whichever of them throws,
    each of the three counters has grown by `num`, and not by the `k < num` threads
    created; and in every later state `FanInPoint` expects `num - k` calls of
    `done` more than there are workers left to make them, so that nobody returns
    from its wait again. -/
theorem counters_of_throw (h : (throwRecorded ι n).ReachableBy DoneOnce p) :
    (∀ c num k, p.2.built = true → p.2.clients c = .idle → p.2._muWorkerThreads = none →
      k < num → ∃ p', Throws n c num k p p') ∧
    ∀ c num k p', Throws n c num k p p' →
      k < num ∧ Grew (fun _ => num) p p' ∧ ¬ Grew (fun _ => k) p p' ∧
      p'.2.created = p.2.created + k ∧ p'.2._muWorkerThreads = none ∧ p'.2.clients c = .idle ∧
      ∀ evs q, (throwRecorded ι n).Run DoneOnce p' evs q →
        (q.2.created : Int) - spent q.1 .fanIn + (num - k) ≤ q.2.expected .fanIn ∧
        ∀ d q', (q.2.clients d).Waits →
          (throwRecorded ι n).step q (.ev (.client d)) = some q' → (q'.2.clients d).Waits := by
  have hkept := kept_of_reachable h
  refine ⟨fun c num k hbuilt hidle hmutex hk => throws_exists hkept hbuilt hidle hmutex hk, ?_⟩
  intro c num k p' hthrows
  obtain ⟨q₀, left, hkept₀, hin, hpc, hcreated, rfl⟩ := hthrows.parts hkept
  -- of the `num` threads `k` have been created, so `left + 1` are missing
  have hleft := hin.created
  rw [hpc] at hleft
  simp only [ClientPc.toCreate] at hleft
  have hgrew : Grew (fun _ => num) p
      (q₀.1, { q₀.2 with _muWorkerThreads := none }.setClient c .idle) := by
    intro b
    have hb := hin.grew b
    rw [hpc] at hb
    cases b <;> exact hb
  refine ⟨by omega, hgrew, fun hk => ?_, hcreated, rfl, setClient_self, fun evs q hrun => ?_⟩
  · -- `PausePoint` is never counted down: its counter tells `num` from `k`
    have hmore := hgrew .pausePoint
    have hless := hk .pausePoint
    simp only at hmore hless
    omega
  · -- the roll had room for the missing threads, which nobody will create
    have hzero : Owes 0 (fans q₀.1) q₀.2 := hkept₀.roll.room
    have howes₀ : Owes (num - k) (fans q₀.1)
        ({ q₀.2 with _muWorkerThreads := none }.setClient c .idle) :=
      (hzero.throws hkept₀.bringers hpc).mono (by omega)
    have hthrow : q₀.2.throwStep c =
        some ({ q₀.2 with _muWorkerThreads := none }.setClient c .idle) := by
      simp only [throwStep, hpc]
    obtain ⟨howes, hkept'⟩ := Owes.run
      (q := (q₀.1, { q₀.2 with _muWorkerThreads := none }.setClient c .idle)) howes₀
      (hkept₀.throws hthrow) hrun
    have hdone := hkept'.roll.length_doneBy_le
    have hle := howes.le_expected hkept'.roll c
    have hspent : spent q.1 .fanIn = (doneBy (fans q.1)).length := rfl
    refine ⟨by omega, fun d q' hwaits hs => ?_⟩
    exact waits_of_expected (by omega) hwaits hs

/-- A pool of one worker, and one more that cannot be created. -/
theorem counters_of_throw_one :
    ∃ p p' : Seen Unit × WorkerThreads Unit, Throws 1 () 1 0 p p' ∧ ¬ Grew (fun _ => 0) p p' := by
  have hbuilt : ∃ p, (throwRecorded Unit 1).Run DoneOnce ([], initial () 1)
      [.ev (.client ()), .ev (.client ()), .ev (.client ()), .ev (.client ()), .ev (.client ())] p ∧
      p.2.built = true ∧ p.2.clients () = .idle ∧ p.2._muWorkerThreads = none :=
    ⟨_, .cons trivial rfl <| .cons trivial rfl <| .cons trivial rfl <| .cons trivial rfl <|
      .cons trivial rfl .nil, rfl, rfl, rfl⟩
  obtain ⟨p, hrun, hbuilt, hidle, hmutex⟩ := hbuilt
  have hreach : (throwRecorded Unit 1).ReachableBy DoneOnce p :=
    hrun.reachable (.init ⟨rfl, _, rfl⟩)
  obtain ⟨p', hthrows⟩ := (counters_of_throw hreach).1 () 1 0 hbuilt hidle hmutex (by decide)
  exact ⟨p, p', hthrows, ((counters_of_throw hreach).2 () 1 0 p' hthrows).2.2.1⟩

/-- A pool of one worker is asked for one more, whose creation throws.  The
    counters have grown by one although no thread has come; when the one worker
    is done, `stop` sleeps on a counter that is one. -/
theorem add_thread_throws_hangs_stop :
    ∃ p p' q : Seen Unit × WorkerThreads Unit, (throwRecorded Unit 1).ReachableBy DoneOnce p ∧
      Throws 1 () 1 0 p p' ∧ (∀ b, p.2.expected b = 1) ∧ (∀ b, p'.2.expected b = 2) ∧
      p'.2.created = p.2.created ∧
      (∃ evs, (throwRecorded Unit 1).Run DoneOnce p' evs q) ∧ q.2.created = 1 ∧
      .done 0 ∈ fans q.1 ∧ q.2.clients () = .stopWait ∧ q.2.expected .fanIn = 1 ∧
      q.2._tc.fanIn.thr (.client ()) = .asleep .fannedIn := by
  have hrun : ∃ p, (throwRecorded Unit 1).Run DoneOnce ([], initial () 1)
      [.ev (.client ()), .ev (.client ()), .ev (.client ()), .ev (.client ()), .ev (.client ())] p ∧
      (∀ b, p.2.expected b = 1) ∧ p.2.created = 1 ∧
      ∃ p₁, (throwRecorded Unit 1).step p (.ev (.call () (.addThread 1))) = some p₁ ∧
      ∃ p₂, (throwRecorded Unit 1).Run (fun q e => DoneOnce q e ∧ (q.2.clients ()).Adds) p₁
        [.ev (.client ()), .ev (.client ()), .ev (.client ())] p₂ ∧ p₂.2.created = 1 ∧
      ∃ p', (throwRecorded Unit 1).step p₂ (.throws ()) = some p' ∧
        (∀ b, p'.2.expected b = 2) ∧ p'.2.created = 1 ∧ fans p'.1 = [.announced 1, .announced 1] ∧
      ∃ q, (throwRecorded Unit 1).step p' (.ev (.act 0 .done)) = some q ∧
      ∃ q', (throwRecorded Unit 1).Run DoneOnce q [.ev (.worker 0), .ev (.call () .stop),
          .ev (.client ()), .ev (.client ()), .ev (.client ())] q' ∧ q'.2.created = 1 ∧
        fans q'.1 = [.announced 1, .announced 1, .done 0] ∧ q'.2.clients () = .stopWait ∧
        q'.2.expected .fanIn = 1 ∧ q'.2._tc.fanIn.thr (.client ()) = .asleep .fannedIn :=
    ⟨_, .cons trivial rfl <| .cons trivial rfl <| .cons trivial rfl <| .cons trivial rfl <|
      .cons trivial rfl .nil, by rintro (_ | _ | _) <;> rfl, rfl, _, rfl, _,
      .cons ⟨trivial, trivial⟩ rfl <| .cons ⟨trivial, trivial⟩ rfl <|
      .cons ⟨trivial, trivial⟩ rfl .nil, rfl, _, rfl, by rintro (_ | _ | _) <;> rfl, rfl, rfl, _,
      rfl, _, .cons trivial rfl <| .cons trivial rfl <| .cons trivial rfl <| .cons trivial rfl <|
      .cons trivial rfl .nil, rfl, rfl, rfl, rfl, rfl⟩
  obtain ⟨p, hp, hone, hcreated, p₁, hcall, p₂, hadd, hcreated₂, p', hthrow, htwo, hcreated', hfans,
    q, hdone, q', hstop, hcreated'', hfans', hpc, hexpected, hasleep⟩ := hrun
  have hok : DoneOnce p' (.ev (.act 0 .done)) := by
    show .done 0 ∉ fans p'.1
    rw [hfans]
    simp
  refine ⟨p, p', q', hp.reachable (.init ⟨rfl, _, rfl⟩), ⟨p₁, _, p₂, hcall, hadd, hthrow, ?_⟩, hone,
    htwo, hcreated'.trans hcreated.symm, ⟨_, .cons hok hdone hstop⟩, hcreated'', ?_, hpc,
    hexpected, hasleep⟩
  · rw [hcreated₂, hcreated]
  · rw [hfans']
    simp

end WorkerThreads
end Fredlib
