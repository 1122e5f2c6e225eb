/-
  Fredlib.ThreadPool.Orderly

  A `GenericThreadPool` whose controller keeps out of the two deadlocks.

  One controller makes all the calls but those of `push_function`.  It does not call `pause`
  once it has stopped the pool, nor `stop` while a pause is on.  Then nobody is forgotten who
  sleeps in a wait of the pool, and a client in a call can always take its next step unless it
  sleeps there itself (`client_enabled`).
-/

import Fredlib.Threading.LostWakeup
import Fredlib.ThreadPool.GrowingPause
import Fredlib.ThreadPool.GrowingStop
import Fredlib.ThreadPool.Whereabouts

namespace Fredlib

open Lib Lib.Monitor ThreadControl IntrusiveSafeList

namespace PausePoint

variable {T : Type*} [DecidableEq T] {c c' : Config T PausePoint Wait} {t : T} {op : Op}
  {r : Option Unit}

/-- A step forgets nobody if its call does not. -/
theorem alert_advance (halert : monitor.Alert c) (hs : monitor.advance t op c = some (c', r))
    (hcovered : Covered c (.call t op)) : monitor.Alert c' := by
  have hleaves : ∀ e, Covered c e → monitor.stepRet c e = some (c', r) → monitor.Alert c' := by
    intro e hcov hstep
    refine (monitor.leavesAlert_iff halert (fun _ => rfl) (fun w e => covers_wake halert)
      (fun t op e => covers_iff halert) ?_ (Option.isSome_of_eq_some hstep)).mpr hcov c' r hstep
    intro hcall
    cases e with
    | call t op => exact absurd rfl (hcall t op)
    | _ => trivial
  rcases monitor.advance_some hs with ⟨-, hcall⟩ | ⟨w, -, hcheck⟩
  · exact hleaves (.call t op) hcovered hcall
  · exact hleaves (.recheck t) trivial hcheck

end PausePoint

namespace IntrusiveSafeList

variable {T : Type*} [DecidableEq T] {ptrToHook a : Addr} {l : IntrusiveSafeList T} {s : List Addr}
  {t : T}

/-- A `push_back` that begins can go on. -/
theorem pushBack_of_out (h : Holds ptrToHook l s) (hout : l.list.thr t = .out) :
    pushBack ptrToHook t a l ≠ none := by
  have hdefined : l.list.data.pushBack (some (getHook ptrToHook a)) ≠ none := by
    cases s with
    | nil => simp [ListMem.pushBack, h.list.empty_eq]
    | cons b s =>
        obtain ⟨z, hz⟩ : ∃ z, l.list.data.list.mTail = some z := by
          rw [h.list.tail]
          exact ⟨_, List.getLast?_eq_some_getLast (by simp)⟩
        simp [ListMem.pushBack, h.list.empty_eq, hz]
  obtain ⟨r, hr⟩ := Option.ne_none_iff_exists'.mp hdefined
  have henter : SafeList.monitor.enterSection (.pushBack (some (getHook ptrToHook a)))
      l.list.data = some (SafeList.updated r) := by
    rw [SafeList.enterSection_pushBack, hr]
    rfl
  have hadv := SafeList.monitor.advance_of_out hout henter
  simp [pushBack, hadv]

end IntrusiveSafeList

namespace GenericThreadPool

variable {ι : Type*} [DecidableEq ι] {s s' : GenericThreadPool ι} {i n : Nat} {c p : ι} {e : Ev ι}
  {ok : GenericThreadPool ι → Ev ι → Prop}

/-- Who calls what: nobody but `p` makes other calls than of `push_function`, and it does not
    call `pause` once it has stopped the pool, nor `stop` while a pause is on. -/
def Orderly (p : ι) (s : GenericThreadPool ι) : Ev ι → Prop
  | .call _ (.pushFunction _) => True
  | .call c .pause => c = p ∧ s._tc._stopper = false
  | .call c .stop => c = p ∧ s._tc.pausePoint.data.mPause = false
  | .call c _ => c = p
  | _ => True

omit [DecidableEq ι] in
theorem Orderly.controlled (h : Orderly p s e) : Controlled p e := by
  cases e with
  | call c op => cases op <;> first | exact trivial | exact h | exact h.1
  | _ => trivial

omit [DecidableEq ι] in
theorem Orderly.solo (h : Orderly p s e) : Solo p e := by
  cases e with
  | call c op => cases op <;> first | exact trivial | exact h | exact h.1
  | _ => trivial

theorem course_of_orderly (h : (system ι n).ReachableBy (Orderly p) s) : Course p s :=
  course_of_reachable (fun _ _ => Orderly.controlled) h

theorem pauser_of_orderly (h : (system ι n).ReachableBy (Orderly p) s) : Pauser p s :=
  pauser_of_reachable (h.mono fun _ _ => Orderly.solo)

/-- Whoever is in another call than `push_function` is the controller. -/
theorem Course.controller (h : Course p s) (hc : ¬ (s.clients c).Pushes) : c = p := by
  by_contra hne
  exact hc (h.others c hne)

-- ============================================================================
-- Who holds what
-- ============================================================================

/-- Nobody but the clients changes what only clients have to do with. -/
theorem pool_side (he : (∀ c, e ≠ .client c) ∧ ∀ c op, e ≠ .call c op)
    (hs : GenericThreadPool.step s e = some s') :
    s'.clients = s.clients ∧ s'._muThreadPool = s._muThreadPool ∧
      s'._vecThreads = s._vecThreads ∧ s'.created = s.created ∧
      s'._tc._stopper = s._tc._stopper := by
  cases e with
  | call c op => exact absurd rfl (he.2 c op)
  | client c => exact absurd rfl (he.1 c)
  | worker j =>
      obtain ⟨-, hmove⟩ := workerMove_of_step hs
      cases hmove with
      | pause _ hadv | done _ hadv => exact ⟨rfl, rfl, rfl, rfl, advance_stopper hadv⟩
      | _ => exact ⟨rfl, rfl, rfl, rfl, rfl⟩
  | timeout j =>
      obtain ⟨-, -, q, r, -, rfl⟩ := timeoutStep_some hs
      exact ⟨rfl, rfl, rfl, rfl, rfl⟩
  | spuriousTc b t =>
      obtain ⟨tc, hsp, rfl⟩ := Option.map_eq_some_iff.mp hs
      exact ⟨rfl, rfl, rfl, rfl, spurious_stopper hsp⟩
  | spuriousQ t =>
      obtain ⟨q, -, rfl⟩ := Option.map_eq_some_iff.mp hs
      exact ⟨rfl, rfl, rfl, rfl, rfl⟩

/-- Who holds `_muThreadPool` is in the loop over `_add_thread`. -/
theorem holder_of_reachable (h : (system ι n).ReachableBy ok s) :
    ∀ c, s._muThreadPool = some c → ∃ left pc, s.clients c = .adding left pc := by
  refine h.invariant
    (P := fun s => ∀ c, s._muThreadPool = some c → ∃ left pc, s.clients c = .adding left pc) ?_ ?_
  · rintro s ⟨c, heap, rfl⟩ d hd
    cases hd
  · intro s e s' hreach hholder _ hstep d hd
    have hs : GenericThreadPool.step s e = some s' := hstep
    have hadders := (growth_of_reachable hreach).adders
    -- the holder stays where it is when somebody else moves
    have hstays : ∀ {s₁ : GenericThreadPool ι} {c pc}, s₁.clients = s.clients →
        s._muThreadPool = some d → (∀ left pc, s.clients c ≠ .adding left pc) →
        ∃ left pc', (s₁.setClient c pc).clients d = .adding left pc' := by
      intro s₁ c pc hclients hmutex hout
      obtain ⟨left, pc', hpc⟩ := hholder d hmutex
      have hdc : d ≠ c := by
        rintro rfl
        exact hout left pc' hpc
      exact ⟨left, pc', by rw [setClient_of_ne hdc, hclients, hpc]⟩
    cases e with
    | call c op =>
        obtain ⟨-, hidle, hmove⟩ := callMove_of_step hs
        have hout : ∀ left pc, s.clients c ≠ .adding left pc := by simp [hidle]
        cases hmove with
        -- the call takes the mutex for the caller
        | addThread =>
            cases hd
            exact ⟨_, _, setClient_self⟩
        | pushFunction => exact hstays rfl hd hout
        | _ => exact hstays rfl hd hout
    | client c =>
        cases clientMove_of_step hs with
        | construct hpc hadd =>
            obtain ⟨hclients, hmutex, -⟩ := addMove_clients hadd
            exact hstays hclients (hmutex ▸ hd) (by simp [hpc])
        | @built _ _ s₁ hpc hadd =>
            obtain ⟨hclients, hmutex, -⟩ := addMove_clients hadd
            have hsame : ({ s₁ with built := true } : GenericThreadPool ι).clients = s.clients :=
              hclients
            exact hstays hsame (hmutex ▸ hd) (by simp [hpc])
        | add hpc hadd =>
            obtain ⟨-, hmutex, -⟩ := addMove_clients hadd
            -- the holder itself moves: `d` is `c`
            have hold := hadders.mutex c _ _ hpc
            have hd' : s._muThreadPool = some d := hmutex ▸ hd
            rw [hold] at hd'
            cases hd'
            exact ⟨_, _, setClient_self⟩
        | added => cases hd
        | push hpc => exact hstays rfl hd (by simp [hpc])
        | pause hpc => exact hstays rfl hd (by simp [hpc])
        | resume hpc => exact hstays rfl hd (by simp [hpc])
        | stopNum hpc => exact hstays rfl hd (by simp [hpc])
        | stopSet hpc => exact hstays rfl hd (by simp [hpc])
        | stopWait hpc => exact hstays rfl hd (by simp [hpc])
        | join hpc => exact hstays rfl hd (by simp [hpc])
        | joined hpc => exact hstays rfl hd (by simp [hpc])
        | stopClear hpc => exact hstays rfl hd (by simp [hpc])
    | _ =>
        obtain ⟨hclients, hmutex, -⟩ := pool_side (by simp) hs
        rw [hmutex] at hd
        rw [hclients]
        exact hholder d hd

/-- The threads to be joined have been created. -/
theorem member_of_reachable (h : (system ι n).ReachableBy ok s) :
    ∀ i ∈ s._vecThreads, i < s.created := by
  refine h.invariant (P := fun s => ∀ i ∈ s._vecThreads, i < s.created) ?_ ?_
  · rintro s ⟨c, heap, rfl⟩ i hi
    cases hi
  · intro s e s' _ hmember _ hstep
    have hs : GenericThreadPool.step s e = some s' := hstep
    have hadded : ∀ {c left pc r s₁}, AddMove s c left pc s₁ r →
        ∀ i ∈ s₁._vecThreads, i < s₁.created := by
      intro c left pc r s₁ hadd i hi
      cases hadd with
      | emplace =>
          have hcreated : i < s.created + 1 := by
            rcases List.mem_append.mp hi with hold | hnew
            · exact Nat.lt_succ_of_lt (hmember i hold)
            · rw [List.mem_singleton.mp hnew]
              exact Nat.lt_succ_self _
          exact hcreated
      | finish => exact hmember i hi
      | announce => exact hmember i hi
    cases e with
    | call c op =>
        obtain ⟨hcreated, -, hvec, -⟩ := callStep_frame hs
        rw [hcreated, hvec]
        exact hmember
    | client c =>
        cases clientMove_of_step hs with
        | construct _ hadd | built _ hadd | add _ hadd | added _ hadd =>
            have hnew := hadded hadd
            exact hnew
        -- `stop` empties the vector at its end
        | stopClear => exact fun i hi => absurd hi List.not_mem_nil
        | _ => exact hmember
    | _ =>
        obtain ⟨-, -, hvec, hcreated, -⟩ := pool_side (by simp) hs
        rw [hvec, hcreated]
        exact hmember

/-- Of the pool only `add_thread` calls `SyncPoint`, and it does not wait there. -/
theorem AddMove.sync_out {left : Nat} {pc : AddPc} {s₁ : GenericThreadPool ι}
    {r : Option (Nat × AddPc)} (h : AddMove s c left pc s₁ r)
    (hout : ∀ t, s._tc.syncPoint.thr t = .out) (t : Tid ι) : s₁._tc.syncPoint.thr t = .out := by
  cases h with
  | @announce _ b tc r hadv =>
      cases b with
      | syncPoint =>
          obtain ⟨x, hx, rfl⟩ := advance_sync hadv
          by_cases htc : t = .client c
          · subst htc
            exact (SyncPoint.monitor.returns_of_advance hx (hout _) rfl).2
          · have hframe := (SyncPoint.monitor.advance_frame hx).1 t htc
            rw [hout t] at hframe
            exact Status.waiting_eq_none.mp hframe
      | fanIn =>
          obtain ⟨x, -, rfl⟩ := advance_fanIn hadv
          exact hout t
      | pausePoint =>
          obtain ⟨x, -, rfl⟩ := advance_pause hadv
          exact hout t
  | _ => exact hout t

/-- Nobody is in `SyncPoint`. -/
theorem sync_out_of_reachable (h : (system ι n).ReachableBy ok s) (t : Tid ι) :
    s._tc.syncPoint.thr t = .out := by
  refine h.invariant (P := fun s => ∀ t, s._tc.syncPoint.thr t = .out) ?_ ?_ t
  · rintro s ⟨c, heap, rfl⟩ t
    rfl
  · intro s e s' _ hout _ hs t
    cases e with
    | call c op =>
        obtain ⟨-, -, -, htc⟩ := callStep_frame hs
        rw [htc]
        exact hout t
    | client c =>
        cases clientMove_of_step hs with
        | construct _ hadd | built _ hadd | add _ hadd | added _ hadd =>
            have hnew := hadd.sync_out hout t
            exact hnew
        | pause _ hadv | resume _ hadv =>
            obtain ⟨x, -, rfl⟩ := advance_pause hadv
            exact hout t
        | stopWait _ hadv =>
            obtain ⟨x, -, rfl⟩ := advance_fanIn hadv
            exact hout t
        | _ => exact hout t
    | worker j =>
        obtain ⟨-, hmove⟩ := workerMove_of_step hs
        cases hmove with
        | pause _ hadv =>
            obtain ⟨x, -, rfl⟩ := advance_pause hadv
            exact hout t
        | done _ hadv =>
            obtain ⟨x, -, rfl⟩ := advance_fanIn hadv
            exact hout t
        | _ => exact hout t
    | timeout j =>
        obtain ⟨-, -, q, r, -, rfl⟩ := timeoutStep_some hs
        exact hout t
    | spuriousTc b t' =>
        obtain ⟨tc, hsp, rfl⟩ := Option.map_eq_some_iff.mp hs
        cases b with
        | syncPoint =>
            obtain ⟨x, hx, rfl⟩ := Option.map_eq_some_iff.mp hsp
            obtain ⟨w, hw, -⟩ := spurious_some hx
            rw [hout t'] at hw
            cases hw
        | _ =>
            obtain ⟨x, -, rfl⟩ := Option.map_eq_some_iff.mp hsp
            exact hout t
    | spuriousQ t' =>
        obtain ⟨q, -, rfl⟩ := Option.map_eq_some_iff.mp hs
        exact hout t

-- ============================================================================
-- The two flags
-- ============================================================================

/-- The stop flag goes up in `stop`. -/
theorem stopSet_of_stopper (hs : GenericThreadPool.step s e = some s')
    (hset : s'._tc._stopper = true) : s._tc._stopper = true ∨ ∃ c, s.clients c = .stopSet := by
  have hadded : ∀ {c left pc r s₁}, AddMove s c left pc s₁ r → s₁._tc._stopper = true →
      s._tc._stopper = true :=
    fun hadd hset => (addMove_frame hadd).2.symm.trans hset
  cases e with
  | call c op =>
      obtain ⟨-, -, -, htc⟩ := callStep_frame hs
      exact .inl (htc ▸ hset)
  | client c =>
      cases clientMove_of_step hs with
      | stopSet hpc => exact .inr ⟨c, hpc⟩
      | construct _ hadd | built _ hadd | add _ hadd | added _ hadd => exact .inl (hadded hadd hset)
      | pause _ hadv | resume _ hadv | stopWait _ hadv =>
          exact .inl ((advance_stopper hadv).symm.trans hset)
      | _ => exact .inl hset
  | _ =>
      obtain ⟨-, -, -, -, hflag⟩ := pool_side (by simp) hs
      exact .inl (hflag ▸ hset)

/-- The pause flag goes up in `pause`. -/
theorem PauseMove.pausing {x : Config (Tid ι) PausePoint PausePoint.Wait} (h : PauseMove s x)
    (hset : x.data.mPause = true) :
    s._tc.pausePoint.data.mPause = true ∨ ∃ c, s.clients c = .pausing := by
  have hadvanced : ∀ {t op r}, PausePoint.monitor.advance t op s._tc.pausePoint = some (x, r) →
      op ≠ .pause → s._tc.pausePoint.data.mPause = true := by
    intro t op r hx hop
    by_cases hout : s._tc.pausePoint.thr t = .out
    · have heffect := ((PausePoint.advance_effect hx).1 hout).2
      rw [hset] at heffect
      cases op <;> first | exact absurd rfl hop | exact heffect.symm | cases heffect
    · exact ((PausePoint.advance_effect hx).2 hout).2.symm.trans hset
  cases h with
  | same => exact .inl hset
  | check _ hx => exact .inl (hadvanced hx (by simp))
  | pause hc _ => exact .inr ⟨_, hc⟩
  | resume _ hx => exact .inl (hadvanced hx (by simp))
  | count _ hx => exact .inl (hadvanced hx (by simp))
  | spurious hx => exact .inl (by rwa [← (spurious_frame hx).1])

/-- A client gets into `stop` by calling it. -/
theorem enters_stop {d : ι} (hs : GenericThreadPool.step s e = some s')
    (hd : (s'.clients d).InStop) : (s.clients d).InStop ∨ e = .call d .stop := by
  cases e with
  | call c op =>
      obtain ⟨-, -, hmove⟩ := callMove_of_step hs
      by_cases hdc : d = c
      · subst hdc
        right
        cases hmove with
        | stop => rfl
        | _ =>
            rw [setClient_self] at hd
            rcases hd with hd | hd <;> cases hd
      · left
        cases hmove <;> rwa [setClient_of_ne hdc] at hd
  | client c =>
      left
      by_cases hdc : d = c
      · subst hdc
        -- the steps inside `stop` stay there; no other step leads into it
        cases clientMove_of_step hs with
        | stopNum hpc => exact .inl hpc
        | stopSet hpc => exact .inr (by rw [hpc]; trivial)
        | stopWait hpc => exact .inr (by rw [hpc]; trivial)
        | join hpc => exact .inr (by rw [hpc]; trivial)
        | joined hpc => exact .inr (by rw [hpc]; trivial)
        | stopClear hpc => exact .inr (by rw [hpc]; trivial)
        | @pause _ r | @resume _ r =>
            cases r <;> rw [setClient_self] at hd <;> rcases hd with hd | hd <;> cases hd
        | _ =>
            rw [setClient_self] at hd
            rcases hd with hd | hd <;> cases hd
      · rwa [clientStep_others hs hdc] at hd
  | _ =>
      left
      rwa [(pool_side (by simp) hs).1] at hd

/-- The controller is not in `pause` while the stop flag is up, -/
theorem pausing_unstopped (h : (system ι n).ReachableBy (Orderly p) s)
    (hpc : s.clients p = .pausing) : s._tc._stopper = false := by
  refine h.invariant (P := fun s => s.clients p = .pausing → s._tc._stopper = false) ?_ ?_ hpc
  · rintro s ⟨c, heap, rfl⟩ -
    rfl
  · intro s e s' hreach hunstopped hok hstep hpc'
    have hs : GenericThreadPool.step s e = some s' := hstep
    rcases enters (.inl ⟨rfl, rfl⟩) hs hpc' with hold | rfl
    · by_contra hset
      rcases stopSet_of_stopper hs (by simpa using hset) with hup | ⟨c, hc⟩
      · rw [hunstopped hold] at hup
        cases hup
      · have hcp := (course_of_orderly hreach).controller (c := c) (by rw [hc]; exact id)
        rw [hcp, hold] at hc
        cases hc
    · -- the call of `pause`: `Orderly` says that the stop flag is down
      have hcall : s.callStep p .pause = some s' := hs
      rw [(callStep_frame hcall).2.2.2]
      exact hok.2

/-- nor in `stop` while a pause is on. -/
theorem stopping_unpaused (h : (system ι n).ReachableBy (Orderly p) s)
    (hpc : (s.clients p).InStop) : s._tc.pausePoint.data.mPause = false := by
  refine h.invariant
    (P := fun s => (s.clients p).InStop → s._tc.pausePoint.data.mPause = false) ?_ ?_ hpc
  · rintro s ⟨c, heap, rfl⟩ -
    rfl
  · intro s e s' hreach hunpaused hok hstep hpc'
    have hs : GenericThreadPool.step s e = some s' := hstep
    rcases enters_stop hs hpc' with hold | rfl
    · by_contra hset
      rcases (pauseMove_of_step hs).pausing (by simpa using hset) with hup | ⟨c, hc⟩
      · rw [hunpaused hold] at hup
        cases hup
      · have hcp := (course_of_orderly hreach).controller (c := c) (by rw [hc]; exact id)
        rw [← hcp, hc] at hold
        rcases hold with hold | hold <;> cases hold
    · -- the call of `stop`: `Orderly` says that no pause is on
      have hcall : s.callStep p .stop = some s' := hs
      rw [(callStep_frame hcall).2.2.2]
      exact hok.2

/-- While the controller waits in `resume` the pause flag is down. -/
theorem resuming_unpaused (h : (system ι n).ReachableBy (Orderly p) s)
    (hw : (s._tc.pausePoint.thr (.client p)).waiting = some .nonePaused) :
    s._tc.pausePoint.data.mPause = false := by
  refine h.invariant (P := fun s =>
    (s._tc.pausePoint.thr (.client p)).waiting = some .nonePaused →
      s._tc.pausePoint.data.mPause = false) ?_ ?_ hw
  · rintro s ⟨c, heap, rfl⟩ -
    rfl
  · intro s e s' hreach hunpaused _ hs hw'
    have hg := growth_of_reachable hreach
    have hcourse := course_of_orderly hreach
    by_contra hset
    have hmove := pauseMove_of_step hs
    generalize s'._tc.pausePoint = x at hmove hw' hset
    -- somebody else moves, and leaves the flag alone
    have hother : ∀ {t op r}, PausePoint.monitor.advance t op s._tc.pausePoint = some (x, r) →
        t ≠ .client p → op.flag false = false → False := by
      intro t op r hx hne hop
      rw [(PausePoint.monitor.advance_frame hx).1 _ (Ne.symm hne)] at hw'
      have hdown := hunpaused hw'
      by_cases hout : s._tc.pausePoint.thr t = .out
      · have heffect := ((PausePoint.advance_effect hx).1 hout).2
        rw [hdown, hop] at heffect
        exact hset heffect
      · exact hset (((PausePoint.advance_effect hx).2 hout).2.trans hdown)
    cases hmove with
    | same => exact hset (hunpaused hw')
    | check _ hx => exact hother hx (by simp) rfl
    -- `pause` waits for other threads than `resume`
    | @pause c _ _ hc hx =>
        have hcp := hcourse.controller (c := c) (by rw [hc]; exact id)
        subst hcp
        have hat : ∀ w, (s._tc.pausePoint.thr (.client c)).waiting = some w →
            PausePoint.Op.pause.wait = some w := by
          intro w hw
          rcases hg.pause.client c w hw with ⟨rfl, -⟩ | ⟨-, hpc⟩
          · rfl
          · rw [hc] at hpc
            cases hpc
        cases PausePoint.advance_wait hx hat hw'
    | @resume c _ _ hc hx =>
        have hcp := hcourse.controller (c := c) (by rw [hc]; exact id)
        subst hcp
        by_cases hout : s._tc.pausePoint.thr (.client c) = .out
        · exact hset ((PausePoint.advance_effect hx).1 hout).2
        · obtain ⟨w, hw⟩ := Option.ne_none_iff_exists'.mp (mt Status.waiting_eq_none.mp hout)
          rcases hg.pause.client c w hw with ⟨-, hpc⟩ | ⟨rfl, -⟩
          · rw [hc] at hpc
            cases hpc
          · -- a re-check, which leaves the flag
            exact hset (((PausePoint.advance_effect hx).2 hout).2.trans (hunpaused hw))
    | @count c _ _ hc hx =>
        by_cases hcp : c = p
        · subst hcp
          have hout := hg.pause.client_out (c := c) (by rintro hp; rw [hp] at hc; exact hc rfl)
            (by rintro hp; rw [hp] at hc; exact hc rfl)
          cases PausePoint.advance_wait hx (by simp [hout, Status.waiting]) hw'
        · exact hother hx (by simpa using hcp) rfl
    | spurious hx =>
        rw [(spurious_frame hx).2] at hw'
        rw [(spurious_frame hx).1] at hset
        exact hset (hunpaused hw')

-- ============================================================================
-- Nobody is forgotten
-- ============================================================================

/-- Nobody sleeps in `PausePoint` on a predicate that is true. -/
theorem pause_alert (h : (system ι n).ReachableBy (Orderly p) s) :
    PausePoint.monitor.Alert s._tc.pausePoint := by
  refine h.invariant (P := fun s => PausePoint.monitor.Alert s._tc.pausePoint) ?_ ?_
  · rintro s ⟨c, heap, rfl⟩ t w hw
    cases hw
  · intro s e s' hreach halert _ hs
    have hg := growth_of_reachable hreach
    have hcourse := course_of_orderly hreach
    have hmove := pauseMove_of_step hs
    generalize s'._tc.pausePoint = x at hmove ⊢
    cases hmove with
    | same => exact halert
    | check _ hx => exact PausePoint.alert_advance halert hx trivial
    | pause _ hx => exact PausePoint.alert_advance halert hx trivial
    | resume _ hx => exact PausePoint.alert_advance halert hx trivial
    | @count c _ _ hc hx =>
        refine PausePoint.alert_advance halert hx (fun _ t ht => ?_)
        cases t with
        | worker j => cases (hg.pause.worker j .allPaused (by rw [ht]; rfl)).1
        | client d =>
            -- the sleeper would be in `pause` while another client is in the loop
            rcases hg.pause.client d .allPaused (by rw [ht]; rfl) with ⟨-, hd⟩ | ⟨hne, -⟩
            · have hdp := hcourse.controller (c := d) (by rw [hd]; exact id)
              have halone := hcourse.alone hg.adders (by rw [← hdp, hd]; simp)
              by_cases hcp : c = p
              · rw [hcp, ← hdp, hd] at hc
                exact hc rfl
              · exact hc (halone c hcp)
            · cases hne
    | spurious hx => exact halert.spurious _ hx

/-- Nobody adds the last worker while the controller sleeps in `stop`. -/
theorem heeded_of_orderly (h : (system ι n).ReachableBy (Orderly p) s) (e : Ev ι) : Heeded s e := by
  intro c _ hc _ d hd
  -- both the adder and the sleeper would be the controller
  have hcourse := course_of_orderly h
  have hcp := hcourse.controller (c := c) (by rw [hc]; exact id)
  have hwait := (growth_of_reachable h).fan.stopping hd
  have hdp := hcourse.controller (c := d) (by rw [hwait]; exact id)
  rw [hcp] at hc
  rw [hdp, hc] at hwait
  cases hwait

theorem heard_of_orderly (h : (system ι n).ReachableBy (Orderly p) s) : Heard s := by
  refine h.invariant ?_ fun s e s' hreach hheard _ hs =>
    hheard.step (growth_of_reachable hreach) (heeded_of_orderly hreach e) hs
  rintro s ⟨c, heap, rfl⟩ d hd
  cases hd

-- ============================================================================
-- The next step of a call
-- ============================================================================

/-- A client in a call can go on, unless it sleeps. -/
theorem client_enabled {log : List Obs} {l : List (Addr × Nat)}
    (h : (system ι n).ReachableBy (Orderly p) s) (hinv : QueueInv log s l)
    (hbusy : s.clients c ≠ .idle)
    (hpause : s.clients c = .pausing ∨ s.clients c = .resuming →
      ∀ w, s._tc.pausePoint.thr (.client c) ≠ .asleep w)
    (hfan : s.clients c = .stopWait → ∀ w, s._tc.fanIn.thr (.client c) ≠ .asleep w) :
    s.clientStep c ≠ none := by
  have hg := growth_of_reachable h
  have hcourse := course_of_orderly h
  -- no call of the loop over `_add_thread` waits
  have hadds : ∀ left pc, s.clients c ≠ .pausing → s.clients c ≠ .resuming →
      s.clients c ≠ .stopWait → s.addStep c left pc ≠ none := by
    intro left pc hp hr hw
    cases pc with
    | head => cases left <;> simp [addStep]
    | announce b =>
        have hadv : s._tc.advance (.client c) (addThread 1 b) ≠ none := by
          refine advance_of_awake ?_
          cases b with
          | syncPoint => exact fun w => by simp [sync_out_of_reachable h]
          | fanIn => exact fun w => by simp [hg.fan.client_out hw]
          | pausePoint => exact fun w => by simp [hg.pause.client_out hp hr]
        simpa [addStep] using hadv
  -- whoever holds the mutex is the controller, and so is `c`
  have hmutex : ¬ (s.clients c).Pushes → (∀ left pc, s.clients c ≠ .adding left pc) →
      s._muThreadPool = none := by
    intro hcalls hno
    rw [Option.eq_none_iff_forall_ne_some]
    intro d hd
    obtain ⟨left, pc, hpc⟩ := holder_of_reachable h d hd
    have hdp := hcourse.controller (c := d) (by rw [hpc]; exact id)
    have hcp := hcourse.controller hcalls
    exact hno left pc (by rw [hcp, ← hdp, hpc])
  cases hpc : s.clients c with
  | idle => exact absurd hpc hbusy
  | constructing left pc =>
      simpa [clientStep, hpc] using
        hadds left pc (by simp [hpc]) (by simp [hpc]) (by simp [hpc])
  | adding left pc =>
      simpa [clientStep, hpc] using
        hadds left pc (by simp [hpc]) (by simp [hpc]) (by simp [hpc])
  | pushing qe =>
      have hpush := pushBack_of_out (a := qe) hinv.holds (hinv.clientOut c)
      simpa [clientStep, hpc] using hpush
  | pausing =>
      have hadv : s._tc.advance (.client c) (.pause .pause) ≠ none :=
        advance_of_awake (hpause (.inl hpc))
      simpa [clientStep, hpc] using hadv
  | resuming =>
      have hadv : s._tc.advance (.client c) (.pause .resume) ≠ none :=
        advance_of_awake (hpause (.inr hpc))
      simpa [clientStep, hpc] using hadv
  | stopNum =>
      have hfree := hmutex (by rw [hpc]; exact id) (by simp [hpc])
      simp [clientStep, hpc, hfree]
  | stopSet => simp [clientStep, hpc]
  | stopWait =>
      have hadv : s._tc.advance (.client c) (.fanIn .wait) ≠ none :=
        advance_of_awake (hfan hpc)
      simpa [clientStep, hpc] using hadv
  | join j =>
      cases hj : s._vecThreads[j]? with
      | none => simp [clientStep, hpc, hj]
      | some i =>
          have hcp := hcourse.controller (c := c) (by rw [hpc]; exact id)
          have hi := member_of_reachable h i (List.mem_of_getElem? hj)
          -- joined are only threads that have left their function
          have hempty := (hcourse.joining (.inl ⟨j, hcp ▸ hpc⟩)).2
          have hexited := running_eq_empty.mp hempty i hi
          simp [clientStep, hpc, hj, hexited]
  | stopClear =>
      have hfree := hmutex (by rw [hpc]; exact id) (by simp [hpc])
      simp [clientStep, hpc, hfree]

end GenericThreadPool
end Fredlib
