/-
  Fredlib.ThreadPool.Adders

  Who is in the loop over `_add_thread`.

  `_add_thread` creates a worker first and then tells the three bases of `_tc`
  about it, one after another, while the worker already runs.  Whatever clients
  there are and whatever they call, at most one of them is in this loop
  (`Adders`), so that each counter lags behind the workers by at most the one
  that this client has just created (`Lags`).
-/

import Fredlib.ThreadPool.GenericThreadPool

namespace Fredlib

open Lib Lib.Monitor ThreadControl

namespace GenericThreadPool

variable {ι : Type*} [DecidableEq ι]

-- ============================================================================
-- The loop over `_add_thread`
-- ============================================================================

/-- Where in the loop over `_add_thread` a client is, if it is there. -/
def ClientPc.loop : ClientPc → Option (Nat × AddPc)
  | .constructing left pc | .adding left pc => some (left, pc)
  | _ => none

/-- How many of the workers created `FanInPoint` has yet to be told of. -/
def AddPc.fanLag : AddPc → Int
  | .announce .syncPoint | .announce .fanIn => 1
  | .announce .pausePoint | .head => 0

/-- How many of the workers created `PausePoint` has yet to be told of. -/
def AddPc.pauseLag : AddPc → Int
  | .announce _ => 1
  | .head => 0

/-- The lag a client is answerable for. -/
def ClientPc.lag (f : AddPc → Int) (pc : ClientPc) : Int :=
  match pc.loop with
  | some (_, p) => f p
  | none => 0

/-- Nobody but `c` is in the loop over `_add_thread`. -/
def Alone (s : GenericThreadPool ι) (c : ι) : Prop := ∀ d, d ≠ c → (s.clients d).loop = none

/-- The one client that may be in the loop over `_add_thread` has the lag `k`. -/
def Lags (f : AddPc → Int) (s : GenericThreadPool ι) (k : Int) : Prop :=
  ∀ c, s.Alone c → (s.clients c).lag f = k

variable {s s' : GenericThreadPool ι} {i : Nat} {c : ι} {f : AddPc → Int} {k : Int}

theorem ClientPc.lag_of_loop {pc : ClientPc} {left : Nat} {p : AddPc}
    (h : pc.loop = some (left, p)) : pc.lag f = f p := by
  simp [lag, h]

theorem ClientPc.lag_of_out {pc : ClientPc} (h : pc.loop = none) : pc.lag f = 0 := by
  simp [lag, h]

omit [DecidableEq ι] in
theorem lags_congr (h : Lags f s k) (hloop : ∀ c, (s'.clients c).loop = (s.clients c).loop) :
    Lags f s' k := by
  intro c halone
  have hc := h c fun d hd => by rw [← hloop]; exact halone d hd
  rw [← hc, ClientPc.lag, ClientPc.lag, hloop]

theorem lags_of_alone (h : s.Alone c) : Lags f s ((s.clients c).lag f) := by
  intro d halone
  by_cases hdc : d = c
  · rw [hdc]
  · rw [ClientPc.lag_of_out (h d hdc), ClientPc.lag_of_out (halone c (Ne.symm hdc))]

theorem alone_update {pc : ClientPc} (h : s.Alone c)
    (hclients : s'.clients = Function.update s.clients c pc) : s'.Alone c := by
  intro d hd
  rw [hclients, Function.update_of_ne hd]
  exact h d hd

/-- The client in the loop moves on, and takes its lag along. -/
theorem lags_turn {pc pc' : ClientPc} {k' : Int} (h : Lags f s k) (halone : s.Alone c)
    (hpc : s.clients c = pc) (hclients : s'.clients = Function.update s.clients c pc')
    (hlag : pc'.lag f = pc.lag f + (k' - k)) : Lags f s' k' := by
  -- `c` is alone before and after, so its lag is that of the pool
  have hold := h c halone
  have hnew := lags_of_alone (f := f) (alone_update halone hclients)
  rw [hpc] at hold
  rw [hclients, Function.update_self] at hnew
  have heq : pc'.lag f = k' := by omega
  rwa [heq] at hnew

-- ============================================================================
-- Who is in the loop
-- ============================================================================

/-- At most one client is in the loop over `_add_thread`: it is constructing the
    pool, which nobody else uses yet, or it holds `_muThreadPool`. -/
structure Adders (s : GenericThreadPool ι) : Prop where
  alone : ∀ c, (s.clients c).loop ≠ none → s.Alone c
  mutex : ∀ c left pc, s.clients c = .adding left pc → s._muThreadPool = some c
  building : ∀ c left pc, s.clients c = .constructing left pc →
    s.built = false ∧ ∀ d, d ≠ c → s.clients d = .idle

theorem addMove_clients {left : Nat} {pc : AddPc} {r : Option (Nat × AddPc)}
    (h : AddMove s c left pc s' r) :
    s'.clients = s.clients ∧ s'._muThreadPool = s._muThreadPool ∧ s'.built = s.built := by
  cases h <;> exact ⟨rfl, rfl, rfl⟩

/-- A client moves nobody else. -/
theorem clientStep_others {d : ι} (hs : s.clientStep c = some s') (hd : d ≠ c) :
    s'.clients d = s.clients d := by
  cases clientMove_of_step hs with
  | construct _ hadd => rw [setClient_of_ne hd, (addMove_clients hadd).1]
  | add _ hadd => rw [setClient_of_ne hd, (addMove_clients hadd).1]
  | built _ hadd =>
      rw [setClient_of_ne hd]
      exact congrFun (addMove_clients hadd).1 d
  | added _ hadd =>
      rw [setClient_of_ne hd]
      exact congrFun (addMove_clients hadd).1 d
  | _ => exact setClient_of_ne hd

namespace Adders

omit [DecidableEq ι] in
theorem frame (h : Adders s) (hclients : s'.clients = s.clients)
    (hmutex : s'._muThreadPool = s._muThreadPool) (hbuilt : s'.built = s.built) : Adders s' := by
  refine ⟨?_, ?_, ?_⟩
  · intro c hc d hd
    rw [hclients] at hc ⊢
    exact h.alone c hc d hd
  · rw [hclients, hmutex]
    exact h.mutex
  · rw [hclients, hbuilt]
    exact h.building

/-- A client that is not in the loop does not enter it. -/
theorem of_client_outside {pc : ClientPc} (h : Adders s)
    (hno : ∀ d left p, s.clients d ≠ .constructing left p)
    (hout : (s.clients c).loop = none) (hpc : pc.loop = none)
    (hclients : s'.clients = Function.update s.clients c pc)
    (hmutex : s'._muThreadPool = s._muThreadPool) : Adders s' := by
  have hloop : ∀ d, (s'.clients d).loop = (s.clients d).loop := by
    intro d
    rw [hclients]
    by_cases hdc : d = c
    · subst hdc
      rw [Function.update_self, hpc, hout]
    · rw [Function.update_of_ne hdc]
  refine ⟨?_, ?_, ?_⟩
  · intro d hd x hx
    rw [hloop] at hd ⊢
    exact h.alone d hd x hx
  · -- neither of the two loops can be where `c` is now
    intro d left p hd
    by_cases hdc : d = c
    · subst hdc
      rw [hclients, Function.update_self] at hd
      rw [hd] at hpc
      cases hpc
    · rw [hclients, Function.update_of_ne hdc] at hd
      rw [hmutex]
      exact h.mutex d left p hd
  · intro d left p hd
    by_cases hdc : d = c
    · subst hdc
      rw [hclients, Function.update_self] at hd
      rw [hd] at hpc
      cases hpc
    · rw [hclients, Function.update_of_ne hdc] at hd
      exact absurd hd (hno d left p)

/-- A client takes a step in another call; the pool is not being constructed then. -/
theorem of_other_call {pc pc' : ClientPc} (h : Adders s) (hpc : s.clients c = pc)
    (hbusy : pc ≠ .idle) (hout : pc.loop = none) (hpc' : pc'.loop = none)
    (hclients : s'.clients = Function.update s.clients c pc')
    (hmutex : s'._muThreadPool = s._muThreadPool) : Adders s' := by
  refine h.of_client_outside (fun d left p hd => ?_) (by rw [hpc, hout]) hpc' hclients hmutex
  -- during the construction everybody else is idle, but `c` is in a call
  by_cases hcd : c = d
  · subst hcd
    rw [← hpc, hd] at hout
    cases hout
  · exact hbusy (hpc.symm.trans ((h.building d left p hd).2 c hcd))

/-- The only client that may be in the loop goes on to `pc`. -/
theorem of_lone_client {pc : ClientPc} (halone : s.Alone c)
    (hclients : s'.clients = Function.update s.clients c pc)
    (hmutex : ∀ left p, pc = .adding left p → s'._muThreadPool = some c)
    (hbuilding : ∀ left p, pc = .constructing left p →
      s'.built = false ∧ ∀ d, d ≠ c → s.clients d = .idle) : Adders s' := by
  have hother : ∀ d, d ≠ c → (s'.clients d).loop = none := by
    intro d hd
    rw [hclients, Function.update_of_ne hd]
    exact halone d hd
  have hself : s'.clients c = pc := by rw [hclients, Function.update_self]
  refine ⟨?_, ?_, ?_⟩
  · intro d hd
    by_cases hdc : d = c
    · rw [hdc]
      exact hother
    · exact absurd (hother d hdc) hd
  · intro d left p hd
    by_cases hdc : d = c
    · subst hdc
      exact hmutex left p (hself.symm.trans hd)
    · have hnone := hother d hdc
      rw [hd] at hnone
      cases hnone
  · intro d left p hd
    by_cases hdc : d = c
    · subst hdc
      obtain ⟨hbuilt, hidle⟩ := hbuilding left p (hself.symm.trans hd)
      refine ⟨hbuilt, fun x hx => ?_⟩
      rw [hclients, Function.update_of_ne hx]
      exact hidle x hx
    · have hnone := hother d hdc
      rw [hd] at hnone
      cases hnone

omit [DecidableEq ι] in
/-- With the mutex free and the pool built nobody is in the loop. -/
theorem nobody (h : Adders s) (hbuilt : s.built = true) (hmutex : s._muThreadPool = none) (d : ι) :
    (s.clients d).loop = none := by
  cases hd : s.clients d with
  | constructing left p =>
      have hno := (h.building d left p hd).1
      rw [hbuilt] at hno
      cases hno
  | adding left p =>
      have hsome := h.mutex d left p hd
      rw [hmutex] at hsome
      cases hsome
  | _ => rfl

theorem call {op : Call} (h : Adders s) (hs : s.callStep c op = some s') : Adders s' := by
  obtain ⟨hbuilt, hidle, hmove⟩ := callMove_of_step hs
  have hout : (s.clients c).loop = none := by rw [hidle]; rfl
  have hno : ∀ d left p, s.clients d ≠ .constructing left p := by
    intro d left p hd
    have hnot := (h.building d left p hd).1
    rw [hbuilt] at hnot
    cases hnot
  cases hmove with
  -- with the mutex free nobody is in the loop, so the caller enters it alone
  | addThread hmutex =>
      refine of_lone_client (fun d _ => h.nobody hbuilt hmutex d) rfl ?_ (by simp)
      exact fun _ _ _ => rfl
  | _ => exact h.of_client_outside hno hout rfl rfl rfl

theorem client (h : Adders s) (hs : s.clientStep c = some s') : Adders s' := by
  -- a turn of the loop is taken alone, and changes no client, mutex or flag
  have hturn : ∀ {left pc r} {s₁ : GenericThreadPool ι}, (s.clients c).loop = some (left, pc) →
      AddMove s c left pc s₁ r → s.Alone c ∧ s₁.clients = s.clients ∧
      s₁._muThreadPool = s._muThreadPool ∧ s₁.built = s.built := by
    intro left pc r s₁ hloop hadd
    exact ⟨h.alone c (by rw [hloop]; simp), addMove_clients hadd⟩
  cases clientMove_of_step hs with
  | construct hpc hadd =>
      obtain ⟨halone, hclients, hmutex, hbuilt⟩ := hturn (by rw [hpc]; rfl) hadd
      refine of_lone_client halone (congrArg (Function.update · c _) hclients) (by simp)
        fun _ _ _ => ?_
      obtain ⟨hnot, hidle⟩ := h.building c _ _ hpc
      exact ⟨hbuilt.trans hnot, hidle⟩
  | built hpc hadd =>
      obtain ⟨halone, hclients, -, -⟩ := hturn (by rw [hpc]; rfl) hadd
      exact of_lone_client halone (congrArg (Function.update · c _) hclients) (by simp) (by simp)
  | add hpc hadd =>
      obtain ⟨halone, hclients, hmutex, -⟩ := hturn (by rw [hpc]; rfl) hadd
      refine of_lone_client halone (congrArg (Function.update · c _) hclients) (fun _ _ _ => ?_)
        (by simp)
      exact hmutex.trans (h.mutex c _ _ hpc)
  | added hpc hadd =>
      obtain ⟨halone, hclients, -, -⟩ := hturn (by rw [hpc]; rfl) hadd
      exact of_lone_client halone (congrArg (Function.update · c _) hclients) (by simp) (by simp)
  | push hpc => exact h.of_other_call hpc (by simp) rfl rfl rfl rfl
  | @pause tc r hpc => exact h.of_other_call hpc (by simp) rfl (by cases r <;> rfl) rfl rfl
  | @resume tc r hpc => exact h.of_other_call hpc (by simp) rfl (by cases r <;> rfl) rfl rfl
  | @stopWait tc r hpc => exact h.of_other_call hpc (by simp) rfl (by cases r <;> rfl) rfl rfl
  | stopNum hpc => exact h.of_other_call hpc (by simp) rfl (by split <;> rfl) rfl rfl
  | stopSet hpc => exact h.of_other_call hpc (by simp) rfl rfl rfl rfl
  | join hpc => exact h.of_other_call hpc (by simp) rfl rfl rfl rfl
  | joined hpc => exact h.of_other_call hpc (by simp) rfl rfl rfl rfl
  | stopClear hpc => exact h.of_other_call hpc (by simp) rfl rfl rfl rfl

theorem step {e : Ev ι} (h : Adders s) (hs : GenericThreadPool.step s e = some s') :
    Adders s' := by
  cases e with
  | call c op => exact h.call hs
  | client c => exact h.client hs
  | worker i =>
      obtain ⟨-, hmove⟩ := workerMove_of_step hs
      cases hmove <;> exact h.frame rfl rfl rfl
  | timeout i =>
      obtain ⟨-, -, q, r, -, rfl⟩ := timeoutStep_some hs
      exact h.frame rfl rfl rfl
  | spuriousTc b t =>
      simp only [GenericThreadPool.step, Option.map_eq_some_iff] at hs
      obtain ⟨tc, -, rfl⟩ := hs
      exact h.frame rfl rfl rfl
  | spuriousQ t =>
      simp only [GenericThreadPool.step, Option.map_eq_some_iff] at hs
      obtain ⟨q, -, rfl⟩ := hs
      exact h.frame rfl rfl rfl

end Adders

/-! ## What a client's move keeps -/

theorem loop_setClient {pc : ClientPc} (hloop : pc.loop = (s.clients c).loop) (d : ι) :
    ((s.setClient c pc).clients d).loop = (s.clients d).loop := by
  by_cases hdc : d = c
  · rw [hdc, setClient_self, hloop]
  · rw [setClient_of_ne hdc]

/-- Whoever else is at `pc₀` stays there. -/
theorem setClient_keeps {pc pc₀ : ClientPc} (hne : s.clients c ≠ pc₀) {d : ι}
    (hd : s.clients d = pc₀) : (s.setClient c pc).clients d = pc₀ := by
  have hdc : d ≠ c := by
    rintro rfl
    exact hne hd
  rw [setClient_of_ne hdc, hd]

end GenericThreadPool
end Fredlib
