/-
  Fredlib.ThreadPool.WorkerSync

  `WorkerThreads::sync`, called by the controller while every worker calls
  `tc.sync()`.

  The constructor arms the sync point with the number of the workers, and the
  controller is one caller more.  The last of them to call takes the counter
  below zero and never gets out: once everybody has called, the pool is stuck,
  and every pool gets there (`pool_sync_stuck`).
-/

import Fredlib.ThreadPool.WorkerThreads

namespace Fredlib

open Lib Lib.Monitor ThreadControl

namespace WorkerThreads

/-- The threads that call `sync`: the controller and `n` workers. -/
def Caller (n : Nat) : Tid Unit → Prop
  | .client _ => True
  | .worker i => i < n

/-- Everybody calls `sync` at most once, and no workers are added. -/
def SyncOnce (p : List (Obs Unit) × WorkerThreads Unit) : Ev Unit → Prop
  | .act i .sync => .synced (.worker i) ∉ p.1
  | .call c .sync => .synced (.client c) ∉ p.1
  | .call _ (.addThread _) => False
  | _ => True

/-- All `n + 1` callers have called `sync`. -/
def AllCalled (n : Nat) (p : List (Obs Unit) × WorkerThreads Unit) : Prop :=
  ∀ t, Caller n t → .synced t ∈ p.1

/-- Some caller is still inside `sync` and no caller can make progress: all have
    called, and whoever is inside sleeps un-notified or is about to check a
    counter that is not zero. -/
def SyncStuck (n : Nat) (p : List (Obs Unit) × WorkerThreads Unit) : Prop :=
  AllCalled n p ∧ (∃ t, Caller n t ∧ p.2._tc.syncPoint.thr t ≠ .out) ∧
    ∀ t, p.2._tc.syncPoint.thr t ≠ .out → p.2._tc.syncPoint.thr t = .asleep .synced ∨
      p.2._tc.syncPoint.thr t = .woken .synced ∧
        p.2._tc.syncPoint.data.mExpectedThreads ≠ 0

/-- Who has called `sync`, in this order. -/
def arrived (log : List (Obs Unit)) : List (Tid Unit) :=
  log.filterMap fun o =>
    match o with
    | .synced t => some t
    | .done _ => none

-- ============================================================================
-- The invariant
-- ============================================================================

/-- How many workers there are when the controller is at `pc`. -/
def Builds (n created : Nat) : ClientPc → Prop
  | .arming m _ => m = n ∧ created = 0
  | .creating left => created + left = n
  | .announcing _ _ | .adding _ => False
  | _ => created = n

/-- What the sync point is armed with when the controller is at `pc`. -/
def armed (n : Nat) : ClientPc → Int
  | .arming _ .syncPoint => 0
  | _ => n

/-- The sync point counts the callers down from the number of workers. -/
structure SyncInv (n : Nat) (log : List (Obs Unit)) (s : WorkerThreads Unit) : Prop where
  builds : Builds n s.created (s.clients ())
  counted : SyncPoint.Counted (armed n (s.clients ())) (arrived log) s._tc.syncPoint
  callers : ∀ t ∈ arrived log, Caller s.created t
  early : ∀ m b, s.clients () = .arming m b → arrived log = []
  worker : ∀ i, s.workers i = .calling .sync → s._tc.syncPoint.thr (.worker i) = .out →
    .worker i ∉ arrived log
  client : s.clients () = .syncing → s._tc.syncPoint.thr (.client ()) = .out →
    .client () ∉ arrived log

variable {n : Nat} {log obs : List (Obs Unit)} {s s' : WorkerThreads Unit} {e : Ev Unit} {i : Nat}
  {t : Tid Unit}

theorem mem_arrived : t ∈ arrived log ↔ .synced t ∈ log := by
  simp only [arrived, List.mem_filterMap]
  constructor
  · rintro ⟨o, ho, heq⟩
    cases o <;> cases heq
    exact ho
  · exact fun h => ⟨_, h, rfl⟩

theorem arrived_append (log obs : List (Obs Unit)) :
    arrived (log ++ obs) = arrived log ++ arrived obs := List.filterMap_append

namespace SyncInv

/-- A step of the controller outside `sync`. -/
theorem move {pc : ClientPc} (h : SyncInv n log s) (hobs : arrived obs = [])
    (hpc : s'.clients () = pc) (hcreated : s'.created = s.created)
    (hworkers : s'.workers = s.workers) (hsync : s'._tc.syncPoint = s._tc.syncPoint)
    (hbuilds : Builds n s.created pc) (harmed : armed n pc = armed n (s.clients ()))
    (hearly : ∀ m b, pc = .arming m b → arrived log = [])
    (hclient : pc = .syncing → .client () ∉ arrived log) : SyncInv n (log ++ obs) s' := by
  have hlog : arrived (log ++ obs) = arrived log := by
    rw [arrived_append, hobs, List.append_nil]
  refine ⟨?_, ?_, ?_, ?_, ?_, ?_⟩
  · rwa [hpc, hcreated]
  · rw [hpc, harmed, hlog, hsync]
    exact h.counted
  · rw [hlog, hcreated]
    exact h.callers
  · rw [hpc, hlog]
    exact hearly
  · rw [hworkers, hsync, hlog]
    exact h.worker
  · rw [hpc, hlog]
    exact fun heq _ => hclient heq

/-- A step of a worker outside `sync`. -/
theorem moveWorker {pc : WorkerPc} {tc : ThreadControl (Tid Unit)} (h : SyncInv n log s)
    (hobs : arrived obs = []) (hsync : tc.syncPoint = s._tc.syncPoint)
    (hpc : pc = .calling .sync → .worker i ∉ arrived log) :
    SyncInv n (log ++ obs) ({ s with _tc := tc }.setWorker i pc) := by
  have hlog : arrived (log ++ obs) = arrived log := by
    rw [arrived_append, hobs, List.append_nil]
  refine ⟨h.builds, ?_, ?_, ?_, ?_, ?_⟩
  · rw [hlog]
    show SyncPoint.Counted _ _ tc.syncPoint
    rw [hsync]
    exact h.counted
  · rw [hlog]
    exact h.callers
  · rw [hlog]
    exact h.early
  · rw [hlog]
    intro j hj hout
    by_cases hji : j = i
    · subst hji
      rw [setWorker_self] at hj
      exact hpc hj
    · rw [setWorker_of_ne hji] at hj
      refine h.worker j hj ?_
      rw [← hsync]
      exact hout
  · rw [hlog]
    intro hcl hout
    refine h.client hcl ?_
    rw [← hsync]
    exact hout

/-- A new worker. -/
theorem emplace {left : Nat} (h : SyncInv n log s) (hpc : s.clients () = .creating (left + 1)) :
    SyncInv n log (s.emplace.setClient () (.creating left)) := by
  have hbuilds := h.builds
  have hcounted := h.counted
  rw [hpc] at hbuilds hcounted
  refine ⟨?_, ?_, ?_, by simp, ?_, by simp⟩
  · rw [setClient_self]
    simp only [Builds] at hbuilds
    show s.created + 1 + left = n
    omega
  · rw [setClient_self]
    exact hcounted
  · intro t ht
    have hcaller := h.callers t ht
    cases t with
    | client c => trivial
    | worker j => exact Nat.lt_succ_of_lt hcaller
  · intro j hj
    by_cases hjc : j = s.created
    · subst hjc
      simp [WorkerThreads.emplace, setClient] at hj
    · refine h.worker j ?_
      simpa [WorkerThreads.emplace, setClient, setWorker, hjc] using hj

/-- A step of the caller `t` inside `sync`: what becomes of the sync point. -/
theorem sync_counted {c : Config (Tid Unit) SyncPoint SyncPoint.Wait} {r : Option Unit}
    (h : SyncInv n log s) (hadv : SyncPoint.monitor.advance t .sync s._tc.syncPoint = some (c, r))
    (hnew : s._tc.syncPoint.thr t = .out → t ∉ arrived log) :
    SyncPoint.Counted (armed n (s.clients ())) (arrived (log ++ s.showsSync t)) c := by
  rw [arrived_append]
  unfold showsSync
  split
  · -- the first step counts the caller down
    rename_i hout
    exact h.counted.arrive hadv hout (hnew hout)
  · -- a re-check counts nobody
    rename_i hin
    simpa [arrived] using h.counted.recheck hadv hin

theorem mem_arrived_showsSync {t' : Tid Unit} (h : t' ∈ arrived (log ++ s.showsSync t)) :
    t' ∈ arrived log ∨ t' = t := by
  rw [arrived_append] at h
  refine (List.mem_append.mp h).imp id fun h => ?_
  unfold showsSync at h
  split at h
  · simpa [arrived] using h
  · cases h

/-- A worker inside `sync`. -/
theorem syncWorker {tc : ThreadControl (Tid Unit)} {r : Option Unit} (h : SyncInv n log s)
    (hi : i < s.created) (hpc : s.workers i = .calling .sync)
    (hadv : s._tc.advance (.worker i) (.sync .sync) = some (tc, r)) :
    SyncInv n (log ++ s.showsSync (.worker i))
      ({ s with _tc := tc }.setWorker i (Act.sync.after r)) := by
  obtain ⟨c, hc, rfl⟩ := advance_sync hadv
  refine ⟨h.builds, h.sync_counted hc (h.worker i hpc), ?_, ?_, ?_, ?_⟩
  · intro t ht
    rcases mem_arrived_showsSync ht with ht | rfl
    · exact h.callers t ht
    · exact hi
  · -- no worker exists before the constructor has armed the counters
    intro m b harming
    have hbuilds := h.builds
    rw [show s.clients () = .arming m b from harming] at hbuilds
    have hzero := hbuilds.2
    omega
  · intro j hj hout hmem
    have hout' : c.thr (.worker j) = .out := hout
    by_cases hji : j = i
    · subst hji
      rw [setWorker_self] at hj
      -- `i` itself is out only when the call has returned
      have hsome := (SyncPoint.monitor.advance_frame hc).2.mp hout'
      cases r with
      | none => cases hsome
      | some u => cases hj
    · rw [setWorker_of_ne hji] at hj
      have hne : Tid.worker j ≠ Tid.worker (ι := Unit) i := by simpa using hji
      have hold := h.worker j hj ((SyncPoint.advance_other hc hne).mp hout')
      exact (mem_arrived_showsSync hmem).elim hold hne
  · intro hcl hout hmem
    have hne : Tid.client () ≠ Tid.worker i := by simp
    have hold := h.client hcl ((SyncPoint.advance_other hc hne).mp hout)
    exact (mem_arrived_showsSync hmem).elim hold hne

/-- The controller inside `sync`. -/
theorem syncClient {tc : ThreadControl (Tid Unit)} {r : Option Unit} (h : SyncInv n log s)
    (hpc : s.clients () = .syncing)
    (hadv : s._tc.advance (.client ()) (.sync .sync) = some (tc, r)) :
    SyncInv n (log ++ s.showsSync (.client ()))
      ({ s with _tc := tc }.setClient () (if r.isSome then .idle else .syncing)) := by
  obtain ⟨c, hc, rfl⟩ := advance_sync hadv
  have hbuilds := h.builds
  have hcounted := h.sync_counted hc (h.client hpc)
  rw [hpc] at hbuilds hcounted
  refine ⟨?_, ?_, ?_, ?_, ?_, ?_⟩
  · rw [setClient_self]
    cases r <;> exact hbuilds
  · rw [setClient_self]
    cases r <;> exact hcounted
  · intro t ht
    rcases mem_arrived_showsSync ht with ht | rfl
    · exact h.callers t ht
    · trivial
  · cases r <;> simp
  · intro j hj hout hmem
    have hne : Tid.worker j ≠ Tid.client () := by simp
    have hold := h.worker j hj ((SyncPoint.advance_other hc hne).mp hout)
    exact (mem_arrived_showsSync hmem).elim hold hne
  · intro hcl hout hmem
    rw [setClient_self] at hcl
    have hsome := (SyncPoint.monitor.advance_frame hc).2.mp hout
    cases r with
    | none => cases hsome
    | some u => cases hcl

/-- The controller goes from one base of `_tc` to the next in the constructor. -/
theorem arm {m : Nat} {b : Base} {tc : ThreadControl (Tid Unit)} {r : Option Unit}
    (h : SyncInv n log s) (hpc : s.clients () = .arming m b)
    (hadv : s._tc.advance (.client ()) (initializeExpected m b) = some (tc, r)) :
    SyncInv n (log ++ []) ({ s with _tc := tc }.setClient () (afterArming m b)) := by
  have hbuilds := h.builds
  have hcounted := h.counted
  have hnil := h.early m b hpc
  rw [hpc] at hbuilds hcounted
  obtain ⟨rfl, hzero⟩ := hbuilds
  cases b with
  | syncPoint =>
      -- here the counter goes from 0 to the number of the workers, and nobody has called yet
      obtain ⟨c, hc, rfl⟩ := advance_sync hadv
      rw [hnil] at hcounted
      rw [List.append_nil]
      refine ⟨?_, ?_, ?_, fun _ _ _ => hnil, ?_, ?_⟩
      · rw [setClient_self]
        exact ⟨rfl, hzero⟩
      · rw [setClient_self, hnil]
        exact hcounted.rearm hc (Int.natCast_nonneg m)
      · simp [hnil]
      · simp [hnil]
      · simp [hnil]
  | fanIn =>
      obtain ⟨c, -, rfl⟩ := advance_fanIn hadv
      have hbuilds : Builds m s.created (afterArming m .fanIn) := ⟨rfl, hzero⟩
      exact h.move rfl setClient_self rfl rfl rfl hbuilds (by rw [hpc]; rfl) (fun _ _ _ => hnil)
        (by simp [afterArming, Base.next])
  | pausePoint =>
      obtain ⟨c, -, rfl⟩ := advance_pause hadv
      have hbuilds : Builds m s.created (afterArming m .pausePoint) := by
        simp [afterArming, Base.next, Builds, hzero]
      exact h.move rfl setClient_self rfl rfl rfl hbuilds (by rw [hpc]; rfl) (fun _ _ _ => hnil)
        (by simp [afterArming, Base.next])

/-- A spurious wake-up. -/
theorem spurious {b : Base} {tc : ThreadControl (Tid Unit)} (h : SyncInv n log s)
    (hsp : s._tc.spurious b t = some tc) : SyncInv n log { s with _tc := tc } := by
  cases b with
  | syncPoint =>
      simp only [ThreadControl.spurious, Option.map_eq_some_iff] at hsp
      obtain ⟨c, hc, rfl⟩ := hsp
      have hout : ∀ t', c.thr t' = .out ↔ s._tc.syncPoint.thr t' = .out :=
        fun t' => Status.out_iff ((spurious_frame hc).2 t')
      exact ⟨h.builds, h.counted.spurious hc, h.callers, h.early,
        fun j hj hj' => h.worker j hj ((hout _).mp hj'),
        fun hcl hcl' => h.client hcl ((hout _).mp hcl')⟩
  | fanIn =>
      simp only [ThreadControl.spurious, Option.map_eq_some_iff] at hsp
      obtain ⟨c, -, rfl⟩ := hsp
      exact ⟨h.builds, h.counted, h.callers, h.early, h.worker, h.client⟩
  | pausePoint =>
      simp only [ThreadControl.spurious, Option.map_eq_some_iff] at hsp
      obtain ⟨c, -, rfl⟩ := hsp
      exact ⟨h.builds, h.counted, h.callers, h.early, h.worker, h.client⟩

theorem client_step (h : SyncInv n log s) (hs : s.clientStep () = some s') :
    SyncInv n (log ++ s.obs (.client ())) s' := by
  have hbuilds := h.builds
  cases clientMove_of_step hs with
  | arm hpc hadv =>
      simp only [WorkerThreads.obs, hpc]
      exact h.arm hpc hadv
  | create hpc =>
      simp only [WorkerThreads.obs, hpc, List.append_nil]
      exact h.emplace hpc
  -- `add_thread`, which `SyncOnce` excludes
  | announce hpc hadv | add hpc | added hpc =>
      rw [hpc] at hbuilds
      exact absurd hbuilds id
  | built hpc | stopSet hpc | join hpc | joined hpc | joinClear hpc =>
      rw [hpc] at hbuilds
      simp only [WorkerThreads.obs, hpc]
      exact h.move rfl setClient_self rfl rfl rfl (by simpa [Builds] using hbuilds)
        (by rw [hpc]; rfl) (by simp) (by simp)
  | @pause tc r hpc hadv | @resume tc r hpc hadv =>
      rw [hpc] at hbuilds
      simp only [WorkerThreads.obs, hpc]
      obtain ⟨c, -, rfl⟩ := advance_pause hadv
      exact h.move rfl setClient_self rfl rfl rfl (by cases r <;> exact hbuilds)
        (by rw [hpc]; cases r <;> rfl) (by cases r <;> simp) (by cases r <;> simp)
  | @wait tc r hpc hadv | @stopWait tc r hpc hadv =>
      rw [hpc] at hbuilds
      simp only [WorkerThreads.obs, hpc]
      obtain ⟨c, -, rfl⟩ := advance_fanIn hadv
      exact h.move rfl setClient_self rfl rfl rfl (by cases r <;> exact hbuilds)
        (by rw [hpc]; cases r <;> rfl) (by cases r <;> simp) (by cases r <;> simp)
  | sync hpc hadv =>
      simp only [WorkerThreads.obs, hpc]
      exact h.syncClient hpc hadv
  | waitSize hpc | stopSize hpc =>
      rw [hpc] at hbuilds
      simp only [WorkerThreads.obs, hpc]
      exact h.move rfl setClient_self rfl rfl rfl (by split <;> exact hbuilds)
        (by rw [hpc]; split <;> rfl) (by split <;> simp) (by split <;> simp)

theorem step (h : SyncInv n log s) (hok : SyncOnce (log, s) e)
    (hs : WorkerThreads.step s e = some s') : SyncInv n (log ++ s.obs e) s' := by
  cases e with
  | call c op =>
      obtain ⟨-, hidle, hmove⟩ := callMove_of_step hs
      have hbuilds := h.builds
      rw [show s.clients () = .idle from hidle] at hbuilds
      have hmoves : ∀ pc : ClientPc, Builds n s.created pc → armed n pc = n →
          (∀ m b, pc ≠ .arming m b) → (pc = .syncing → .client () ∉ arrived log) →
          SyncInv n (log ++ s.obs (.call c op)) (s.setClient () pc) := fun pc hb ha hne hsync =>
        h.move rfl setClient_self rfl rfl rfl hb
          (by rw [show s.clients () = .idle from hidle, ha]; rfl)
          (fun m b heq => absurd heq (hne m b)) hsync
      -- a first call of `sync`: `SyncOnce` says that the caller has not arrived
      cases hmove with
      | addThread hmu => exact absurd hok id
      | sync => exact hmoves _ hbuilds rfl (by simp) fun _ => mem_arrived.not.mpr hok
      | _ => exact hmoves _ hbuilds rfl (by simp) (by simp)
  | client c => exact h.client_step hs
  | act i act =>
      obtain ⟨-, -, rfl⟩ := actStep_some hs
      refine h.moveWorker rfl rfl fun heq => ?_
      cases heq
      exact mem_arrived.not.mpr hok
  | worker i =>
      obtain ⟨hi, act, tc, r, hpc, hadv, rfl⟩ := workerStep_some hs
      simp only [WorkerThreads.obs, hpc]
      cases act with
      | sync => exact h.syncWorker hi hpc hadv
      | done =>
          obtain ⟨c, -, rfl⟩ := advance_fanIn hadv
          exact h.moveWorker rfl rfl fun heq => by cases heq
      | pauseIfRequred =>
          obtain ⟨c, -, rfl⟩ := advance_pause hadv
          exact h.moveWorker rfl rfl fun heq => by cases r <;> cases heq
  | ret i =>
      obtain ⟨-, -, rfl⟩ := retStep_some hs
      exact h.moveWorker rfl rfl fun heq => by cases heq
  | spurious b t =>
      simp only [WorkerThreads.step, Option.map_eq_some_iff] at hs
      obtain ⟨tc, hsp, rfl⟩ := hs
      simp only [WorkerThreads.obs, List.append_nil]
      exact h.spurious hsp

end SyncInv

theorem syncInv_of_reachable {p : List (Obs Unit) × WorkerThreads Unit}
    (h : (recorded Unit n).ReachableBy SyncOnce p) : SyncInv n p.1 p.2 := by
  refine h.recorded_invariant ?_ fun log s e s' hinv hok hs => hinv.step hok hs
  rintro s ⟨c, rfl⟩
  exact ⟨⟨rfl, rfl⟩, .create (fun _ => rfl) rfl (Int.le_refl 0), by simp [arrived],
    fun _ _ _ => rfl, by simp [arrived], by simp [arrived]⟩

-- ============================================================================
-- Once everybody has called
-- ============================================================================

/-- The callers, one by one. -/
def allCallers (n : Nat) : List (Tid Unit) := .client () :: (List.range n).map .worker

theorem mem_allCallers : t ∈ allCallers n ↔ Caller n t := by
  cases t with
  | client c => simp [allCallers, Caller]
  | worker i => simp [allCallers, Caller]

theorem nodup_allCallers : (allCallers n).Nodup := by
  refine List.nodup_cons.mpr ⟨by simp, ?_⟩
  exact List.nodup_range.map fun i j h => by cases h; rfl

theorem created_le {created : Nat} {pc : ClientPc} (h : Builds n created pc) : created ≤ n := by
  cases pc <;> simp only [Builds] at h <;> omega

/-- One caller more than the sync point was armed with: the last is left inside. -/
theorem SyncInv.stuck (h : SyncInv n log s) (hall : AllCalled n (log, s)) :
    SyncStuck n (log, s) := by
  have hclient : .client () ∈ arrived log := mem_arrived.mpr (hall _ trivial)
  have harmed : armed n (s.clients ()) = n := by
    cases hpc : s.clients () with
    | arming m b =>
        rw [h.early m b hpc] at hclient
        cases hclient
    | _ => rfl
  -- `n + 1` callers, a counter armed with `n`: it has gone below zero with somebody inside
  have hsub : allCallers n ⊆ arrived log :=
    fun t ht => mem_arrived.mpr (hall t (mem_allCallers.mp ht))
  have hlen := (nodup_allCallers.subperm hsub).length_le
  have hcount : (allCallers n).length = n + 1 := by simp [allCallers]
  have hcounted := h.counted
  rw [harmed] at hcounted
  obtain ⟨hneg, t, ht⟩ := hcounted.exceeded (by omega)
  refine ⟨hall, ⟨t, ?_, ht⟩, fun t' ht' => ?_⟩
  · have hcaller := h.callers t (hcounted.inside t ht)
    cases t with
    | client c => trivial
    | worker i => exact Nat.lt_of_lt_of_le hcaller (created_le h.builds)
  · show s._tc.syncPoint.thr t' = _ ∨ s._tc.syncPoint.thr t' = _ ∧ _
    have hne : s._tc.syncPoint.data.mExpectedThreads ≠ 0 := by omega
    cases hthr : s._tc.syncPoint.thr t' with
    | out => exact absurd hthr ht'
    | asleep w => exact .inl rfl
    | woken w => exact .inr ⟨rfl, hne⟩

-- ============================================================================
-- Everybody can call
-- ============================================================================

/-- The constructor has `left` workers to create, and nobody has called anything. -/
structure Creating (n left : Nat) (p : List (Obs Unit) × WorkerThreads Unit) : Prop where
  log : p.1 = []
  client : p.2.clients () = .creating left
  created : p.2.created + left = n
  workers : ∀ i, p.2.workers i = .routine
  out : ∀ t, p.2._tc.syncPoint.thr t = .out

/-- The first `k` workers have called `sync`, and nobody else has called anything. -/
structure Turn (n k : Nat) (p : List (Obs Unit) × WorkerThreads Unit) : Prop where
  built : p.2.built = true
  idle : p.2.clients () = .idle
  created : p.2.created = n
  worker : ∀ i, k ≤ i → p.2.workers i = .routine ∧
    p.2._tc.syncPoint.thr (.worker i) = .out ∧ .synced (.worker i) ∉ p.1
  client : p.2._tc.syncPoint.thr (.client ()) = .out ∧ .synced (.client ()) ∉ p.1
  called : ∀ i, i < k → .synced (.worker i) ∈ p.1

theorem creating_of_initial (n : Nat) :
    ∃ p, (recorded Unit n).ReachableBy SyncOnce p ∧ Creating n n p := by
  have hrun : ∃ p, (recorded Unit n).Run SyncOnce ([], .initial () n)
      [.client (), .client (), .client ()] p ∧ Creating n n p := by
    refine ⟨_, .cons trivial rfl <| .cons trivial rfl <| .cons trivial rfl .nil,
      rfl, rfl, Nat.zero_add n, fun _ => rfl, ?_⟩
    rintro (c | i) <;> rfl
  obtain ⟨p, hp, hcreating⟩ := hrun
  exact ⟨p, hp.reachable (.init ⟨rfl, (), rfl⟩), hcreating⟩

/-- The constructor creates the workers that are left, and returns. -/
theorem turn_of_creating {p : List (Obs Unit) × WorkerThreads Unit} {left : Nat}
    (hp : (recorded Unit n).ReachableBy SyncOnce p) (h : Creating n left p) :
    ∃ p', (recorded Unit n).ReachableBy SyncOnce p' ∧ Turn n 0 p' := by
  -- induction on the workers left to create
  induction left generalizing p with
  | zero =>
      obtain ⟨log, s⟩ := p
      have hlog : log = [] := h.log
      have hpc : s.clients () = .creating 0 := h.client
      subst hlog
      have hstep : (recorded Unit n).step ([], s) (.client ()) =
          some ([], { s with built := true }.setClient () .idle) := by
        simp [System.recorded, system, step, clientStep, obs, hpc]
      refine ⟨_, hp.step (.client ()) trivial hstep, rfl, setClient_self, h.created, ?_, ?_, ?_⟩
      · exact fun i _ => ⟨h.workers i, h.out _, by simp⟩
      · exact ⟨h.out _, by simp⟩
      · exact fun i hi => absurd hi (Nat.not_lt_zero i)
  | succ left ih =>
      obtain ⟨log, s⟩ := p
      have hlog : log = [] := h.log
      have hpc : s.clients () = .creating (left + 1) := h.client
      subst hlog
      have hstep : (recorded Unit n).step ([], s) (.client ()) =
          some ([], s.emplace.setClient () (.creating left)) := by
        simp [System.recorded, system, step, clientStep, obs, hpc]
      refine ih (hp.step (.client ()) trivial hstep) ⟨rfl, setClient_self, ?_, fun i => ?_, h.out⟩
      · have hcreated : s.created + (left + 1) = n := h.created
        show s.created + 1 + left = n
        omega
      · show Function.update s.workers s.created .routine i = .routine
        by_cases hi : i = s.created
        · rw [hi, Function.update_self]
        · rw [Function.update_of_ne hi]
          exact h.workers i

/-- The next worker calls `sync`. -/
theorem Turn.next {p : List (Obs Unit) × WorkerThreads Unit} {k : Nat}
    (hp : (recorded Unit n).ReachableBy SyncOnce p) (h : Turn n k p) (hk : k < n) :
    ∃ p', (recorded Unit n).ReachableBy SyncOnce p' ∧ Turn n (k + 1) p' := by
  obtain ⟨log, s⟩ := p
  obtain ⟨hroutine, hout, hnew⟩ := h.worker k (Nat.le_refl k)
  have hi : k < s.created := by
    have hcreated : s.created = n := h.created
    omega
  have hact : (recorded Unit n).step (log, s) (.act k .sync) =
      some (log, s.setWorker k (.calling .sync)) := by
    have hroutine' : s.workers k = .routine := hroutine
    simp [System.recorded, system, step, actStep, obs, hi, hroutine']
  obtain ⟨c, r, hadv⟩ := SyncPoint.sync_enabled hout
  have hout' : s._tc.syncPoint.thr (.worker k) = .out := hout
  have htc := advance_of_sync hadv
  have hstep : (recorded Unit n).step (log, s.setWorker k (.calling .sync)) (.worker k) =
      some (log ++ [.synced (.worker k)],
        { s with _tc := { s._tc with syncPoint := c } }.setWorker k (Act.sync.after r)) := by
    simp [System.recorded, system, step, workerStep, obs, setWorker, hi, Act.op, htc, showsSync,
      hout']
  -- the other workers and the controller are as before
  refine ⟨_, (hp.step (.act k .sync) hnew hact).step (.worker k) trivial hstep, h.built, h.idle,
    h.created, ?_, ?_, ?_⟩
  · intro i hki
    obtain ⟨hri, hoi, hni⟩ := h.worker i (by omega)
    have hne : i ≠ k := by omega
    have hne' : Tid.worker i ≠ Tid.worker (ι := Unit) k := by simpa using hne
    refine ⟨(setWorker_of_ne hne).trans hri, (SyncPoint.advance_other hadv hne').mpr hoi, ?_⟩
    simpa [hne] using hni
  · refine ⟨(SyncPoint.advance_other hadv (by simp)).mpr h.client.1, ?_⟩
    simpa using h.client.2
  · intro i hik
    by_cases heq : i = k
    · subst heq
      simp
    · exact List.mem_append_left _ (h.called i (by omega))

theorem Turn.all {p : List (Obs Unit) × WorkerThreads Unit} {k : Nat}
    (hp : (recorded Unit n).ReachableBy SyncOnce p) (h : Turn n 0 p) (hk : k ≤ n) :
    ∃ p', (recorded Unit n).ReachableBy SyncOnce p' ∧ Turn n k p' := by
  induction k with
  | zero => exact ⟨p, hp, h⟩
  | succ k ih =>
      obtain ⟨p', hp', h'⟩ := ih (by omega)
      exact h'.next hp' (by omega)

/-- The controller calls `sync` last. -/
theorem Turn.last {p : List (Obs Unit) × WorkerThreads Unit}
    (hp : (recorded Unit n).ReachableBy SyncOnce p) (h : Turn n n p) :
    ∃ p', (recorded Unit n).ReachableBy SyncOnce p' ∧ AllCalled n p' := by
  obtain ⟨log, s⟩ := p
  have hbuilt : s.built = true := h.built
  have hidle : s.clients () = .idle := h.idle
  have hout : s._tc.syncPoint.thr (.client ()) = .out := h.client.1
  have hcall : (recorded Unit n).step (log, s) (.call () .sync) =
      some (log, s.setClient () .syncing) := by
    simp [System.recorded, system, step, callStep, obs, hbuilt, hidle]
  obtain ⟨c, r, hadv⟩ := SyncPoint.sync_enabled hout
  have htc := advance_of_sync hadv
  have hstep : (recorded Unit n).step (log, s.setClient () .syncing) (.client ()) =
      some (log ++ [.synced (.client ())],
        ({ s with _tc := { s._tc with syncPoint := c } }.setClient () .syncing).setClient ()
          (if r.isSome then .idle else .syncing)) := by
    simp [System.recorded, system, step, clientStep, obs, setClient, htc, showsSync, hout]
  refine ⟨_, (hp.step (.call () .sync) h.client.2 hcall).step (.client ()) trivial hstep, ?_⟩
  intro t ht
  cases t with
  | client c => simp
  | worker i => exact List.mem_append_left _ (h.called i ht)

/-- **`sync` on a pool is always stuck in the end.**  Whatever the number of
    workers: there is a run in which the controller and the workers, each calling
    `sync` once, get stuck; and in every run, once they all have called, they are
    stuck. -/
theorem pool_sync_stuck (n : Nat) :
    (∃ p, (recorded Unit n).ReachableBy SyncOnce p ∧ SyncStuck n p) ∧
    ∀ p, (recorded Unit n).ReachableBy SyncOnce p → AllCalled n p → SyncStuck n p := by
  have hstuck : ∀ p, (recorded Unit n).ReachableBy SyncOnce p → AllCalled n p → SyncStuck n p :=
    fun p hp hall => (syncInv_of_reachable hp).stuck hall
  obtain ⟨p, hp, hcreating⟩ := creating_of_initial n
  obtain ⟨p, hp, hturn⟩ := turn_of_creating hp hcreating
  obtain ⟨p, hp, hturn⟩ := hturn.all hp (Nat.le_refl n)
  obtain ⟨p, hp, hall⟩ := hturn.last hp
  exact ⟨⟨p, hp, hstuck p hp hall⟩, hstuck⟩

/-- One worker: it calls `sync` first, and returns at once; then the controller
    calls, and sleeps for ever. -/
theorem pool_sync_stuck_one : ∃ p, (recorded Unit 1).ReachableBy SyncOnce p ∧ SyncStuck 1 p := by
  have hrun : ∃ p, (recorded Unit 1).Run SyncOnce ([], .initial () 1)
      [.client (), .client (), .client (), .client (), .client (),
        .act 0 .sync, .worker 0, .call () .sync, .client ()] p ∧ SyncStuck 1 p := by
    refine ⟨_, .cons trivial rfl <| .cons trivial rfl <| .cons trivial rfl <|
      .cons trivial rfl <| .cons trivial rfl <| .cons (fun h => by cases h) rfl <|
      .cons trivial rfl <| .cons (fun h => by cases h; contradiction) rfl <|
      .cons trivial rfl .nil, ?_, ⟨.client (), trivial, fun h => by cases h⟩, ?_⟩
    · rintro (c | i) hi
      · exact .tail _ (.head _)
      · have hzero : i = 0 := Nat.lt_one_iff.mp hi
        subst hzero
        exact .head _
    · rintro (c | i) hin
      · exact .inl rfl
      · cases i with
        | zero => exact absurd rfl hin
        | succ i => exact absurd rfl hin
  obtain ⟨p, hp, hstuck⟩ := hrun
  exact ⟨p, hp.reachable (.init ⟨rfl, (), rfl⟩), hstuck⟩

end WorkerThreads
end Fredlib
