/-
  Fredlib.SafeList.Linearizable

  A `SafeList` behind its mutex is an atomic sequence.

  Whatever any number of threads call, and however their critical sections, wake-ups and
  time-outs interleave, they see what they would see of a sequence whose operations each
  take effect in one step between the call and the return; and as soon as the sequence
  can answer a call, the thread that has made it can bring it to its end by itself.
-/

import Fredlib.Lib.Atomic
import Fredlib.SafeList.Threads

namespace Fredlib

open Lib Lib.Monitor

variable {T α : Type*} [DecidableEq T] [DecidableEq α]

namespace SafeList

/-- The operations of the atomic sequence. -/
abbrev sequence (o : Op α) (s : List α) : Option (Ret α × List α) := runSeq s (.op o)

/-- Threads that call the operations of one list, empty at the start, all hooks unlinked. -/
abbrev clients (T α : Type*) [DecidableEq T] [DecidableEq α] :
    System (Clients (Config T (ListMem α) Wait) T (Op α) (Ret α)) (Clients.Ev T (Op α) Move) :=
  monitor.clients T fun m => m.list = create ∧ ∀ a, m.heap a = ListHook.unlinked

-- ============================================================================
-- The sections
-- ============================================================================

variable {m : ListMem α} {q q' : List α} {o : Op α} {w : Wait} {v : Ret α}
  {e : Section (ListMem α) Wait Cond (Ret α)}

omit [DecidableEq α] in
/-- A pop promises nothing. -/
theorem promised_wait (w : Wait) (m : ListMem α) : m.Promised (w.op : Op α) := by
  cases w <;> exact ⟨fun a ha => (by cases ha), fun a ha => (by cases ha)⟩

theorem does_of_runs (h : m.Spans q) (hok : m.Promised o) (hruns : Runs o m e) :
    Does sequence ListMem.Spans o q e := by
  rcases hruns with ⟨hdata, hres, -, -⟩ | ⟨v, hrun, hres⟩
  · rw [Does, hres, hdata]
    exact h
  · obtain ⟨q', hseq, hspans, -⟩ := h.run (h.fits hok) hrun
    rw [Does, hres]
    exact ⟨q', hseq, hspans⟩

/-- Every section only waits, or does what its operation does to the sequence. -/
theorem monitor_atomic : (monitor (α := α)).Atomic sequence Wait.op ListMem.Promised ListMem.Spans where
  waits := by
    intro o m e w hsec hexit
    cases hw : o.wait with
    | none =>
        rw [enterSection_update hw] at hsec
        obtain ⟨r, -, rfl⟩ := Option.map_eq_some_iff.mp hsec
        cases hexit
    | some w' =>
        obtain ⟨henter, rfl⟩ := enterSection_pop (m := m) hw
        rw [henter] at hsec
        rw [monitor.wakeSection_wait hsec hexit]
  enter := fun h hok hsec => does_of_runs h hok (runs_enter hsec)
  wake := fun h hsec => does_of_runs h (promised_wait _ _) (runs_wake hsec)
  timeout := by
    intro w m q e h htimed hsec
    rw [finish_eq (.inl htimed)] at hsec
    obtain ⟨⟨v, m'⟩, hrun, rfl⟩ := Option.map_eq_some_iff.mp hsec
    exact does_of_runs h (promised_wait w m) (.inr ⟨v, hrun, rfl⟩)

/-- What the sequence answers, the list answers. -/
theorem run_of_sequence (h : m.Spans q) (hok : m.Promised o) (hseq : sequence o q = some (v, q')) :
    ∃ m', m.run (.op o) = some (v, m') ∧ m'.Spans q' := by
  have hfits := h.fits hok
  rcases answers h.list hfits with ⟨hnone, -⟩ | ⟨v₁, q₁, m', hseq₁, hrun, -, -⟩
  · cases hnone.symm.trans hseq
  · obtain ⟨q₂, hseq₂, hspans, -⟩ := h.run hfits hrun
    cases hseq₁.symm.trans hseq
    cases hseq₂.symm.trans hseq
    exact ⟨m', hrun, hspans⟩

/-- Only a timed pop has an answer on the empty sequence. -/
theorem timed_of_sequence (hseq : sequence (w.op : Op α) [] = some (v, q')) :
    (monitor (α := α)).timed w = true := by
  cases w with
  | front timeout =>
      by_contra htimed
      have hzero : timeout = 0 := by simpa [monitor] using htimed
      simp [Wait.op, runSeq, hzero] at hseq
  | back timeout =>
      by_contra htimed
      have hzero : timeout = 0 := by simpa [monitor] using htimed
      simp [Wait.op, runSeq, hzero] at hseq

-- ============================================================================
-- Moves of one thread
-- ============================================================================

section Moves

variable {s : Clients (Config T (ListMem α) Wait) T (Op α) (Ret α)} {t : T}

/-- The thread `t` gets its answer `v` by moves of its own, and leaves the list as `q`. -/
def Ends (s : Clients (Config T (ListMem α) Wait) T (Op α) (Ret α)) (t : T) (v : Ret α)
    (q : List α) : Prop :=
  ∃ evs s', (clients T α).Run (fun _ e => ∃ move, e = .act t move) s evs s' ∧
    s'.pc t = .returned v ∧ s'.state.data.Spans q

theorem clients_act {move : Move} {c : Config T (ListMem α) Wait} {r : Option (Ret α)}
    (hpc : s.pc t = .called o) (hact : monitor.act t o move s.state = some (c, r)) :
    (clients T α).step s (.act t move) = some ⟨c, Clients.answer t s.pc r⟩ :=
  (Clients.step_of_called _ hpc).trans (by rw [hact, Option.map_some])

/-- A section that returns. -/
theorem Ends.section {move : Move} (hpc : s.pc t = .called o)
    (hact : monitor.act t o move s.state = some (monitor.apply t e s.state))
    (hres : e.exit.result = some v) (hspans : e.data.Spans q) : Ends s t v q := by
  have hstep := clients_act hpc hact
  rw [hres] at hstep
  exact ⟨_, _, .cons ⟨move, rfl⟩ hstep .nil, Function.update_self _ _ _, hspans⟩

/-- A timed pop gives up on the empty list. -/
theorem Ends.timeout (h : s.state.data.Spans []) (hpc : s.pc t = .called w.op)
    (hw : (s.state.thr t).waiting = some w) (hseq : sequence w.op [] = some (v, q)) :
    Ends s t v q := by
  have htimed := timed_of_sequence hseq
  obtain ⟨m', hrun, hspans⟩ := run_of_sequence h (promised_wait w _) hseq
  have hsec : monitor.finish w s.state.data = some ⟨m', [], .ret v⟩ := by
    rw [finish_eq (.inl htimed), hrun, Option.map_some]
  have hact : monitor.act t w.op .timeout s.state =
      some (monitor.apply t ⟨m', [], .ret v⟩ s.state) := by
    show monitor.timeout t s.state = _
    simp only [Monitor.timeout, hw, htimed, if_true, hsec, Option.map_some]
  exact Ends.section hpc hact rfl hspans

/-- A woken pop takes its element. -/
theorem Ends.recheck (h : s.state.data.Spans q) (hne : q ≠ []) (hpc : s.pc t = .called w.op)
    (hw : s.state.thr t = .woken w) (hseq : sequence w.op q = some (v, q')) : Ends s t v q' := by
  obtain ⟨m', hrun, hspans⟩ := run_of_sequence h (promised_wait w _) hseq
  have hsec : monitor.wakeSection w s.state.data = some ⟨m', [], .ret v⟩ := by
    rw [wakeSection_eq, h.list.empty_eq, if_neg (by simpa using hne), hrun, Option.map_some]
  have hact : monitor.act t w.op .recheck s.state =
      some (monitor.apply t ⟨m', [], .ret v⟩ s.state) := by
    show monitor.recheck t s.state = _
    simp only [Monitor.recheck, hw, hsec, Option.map_some]
  exact Ends.section hpc hact rfl hspans

/-- A call that has not begun yet. -/
theorem Ends.enter (h : s.state.data.Spans q) (hok : s.state.data.Promised o)
    (hpc : s.pc t = .called o) (hout : s.state.thr t = .out) (hseq : sequence o q = some (v, q')) :
    Ends s t v q' := by
  obtain ⟨m', hrun, hspans⟩ := run_of_sequence h hok hseq
  have hcall : ∀ {e}, monitor.enterSection o s.state.data = some e →
      monitor.act t o .enter s.state = some (monitor.apply t e s.state) := by
    intro e hsec
    show monitor.call t o s.state = _
    simp only [Monitor.call, hout, hsec, Option.map_some]
  cases hw : o.wait with
  | none =>
      have hsec := enterSection_update (m := s.state.data) hw
      rw [hrun, Option.map_some] at hsec
      exact Ends.section hpc (hcall hsec) rfl hspans
  | some w =>
      obtain ⟨hsec, rfl⟩ := enterSection_pop (m := s.state.data) hw
      rw [wakeSection_eq, h.list.empty_eq] at hsec
      by_cases hempty : q = []
      · -- it falls asleep first
        subst hempty
        have hstep := clients_act hpc (hcall hsec)
        obtain ⟨evs, s', hrun', hpc', hspans'⟩ : Ends
            ⟨(monitor.apply t ⟨s.state.data, [], .wait w⟩ s.state).1, s.pc⟩ t v q' := by
          refine Ends.timeout h hpc ?_ hseq
          rw [monitor.apply_thr_self]
          rfl
        exact ⟨_, s', .cons ⟨.enter, rfl⟩ hstep hrun', hpc', hspans'⟩
      · rw [if_neg (by simpa using hempty), hrun, Option.map_some] at hsec
        exact Ends.section hpc (hcall hsec) rfl hspans

end Moves

-- ============================================================================
-- Runs
-- ============================================================================

section Runs

variable {s : Clients (Config T (ListMem α) Wait) T (Op α) (Ret α)}

/-- Nobody sleeps on a list that is not empty. -/
theorem alert_of_clients (h : (clients T α).ReachableBy (Monitor.Callers ListMem.Promised) s) :
    (monitor (α := α)).Alert s.state := by
  have hshared : (shared T α).ReachableBy Callers s.state := by
    refine (monitor.clients_projects _ _).reachable (fun _ _ hok => hok) ?_ h
    rintro s _ _ hok ⟨t, o, move, rfl, hpc, rfl⟩
    cases move with
    | enter => exact hok o hpc
    | recheck => trivial
    | spurious => trivial
    | timeout => trivial
  exact (spans_of_reachable hshared).2

/-- **A list is an atomic sequence**: in every interleaving of any threads, they see a history of
    the sequence whose operations take effect in one step each, the list holds that sequence,
    and a thread whose call the sequence can answer gets this answer by moves of its own. -/
theorem linearizable {log : List (Clients.Action T (Op α) (Ret α))}
    (h : (clients T α).Traced (Monitor.Callers ListMem.Promised) Clients.history log s) :
    ∃ a, (Clients.atomic T sequence []).Traced (fun _ _ => True) Clients.history log a ∧
      s.state.data.Spans a.state ∧ a.pc = s.pc ∧
      ∀ t o v q, s.pc t = .called o → s.state.data.Promised o → sequence o a.state = some (v, q) →
        Ends s t v q := by
  have hinit : ∀ m : ListMem α, (m.list = create ∧ ∀ a, m.heap a = ListHook.unlinked) → m.Spans [] :=
    fun m hm => .create hm.1 hm.2
  obtain ⟨a, hlog, hagrees⟩ := monitor_atomic.traced hinit h
  refine ⟨a, hlog, hagrees.data, hagrees.pc, fun t o v q hpc hok hseq => ?_⟩
  have hspans := hagrees.data
  cases hthr : s.state.thr t with
  | out => exact Ends.enter hspans hok hpc hthr hseq
  | asleep w =>
      have hwaiting : (s.state.thr t).waiting = some w := by rw [hthr]; rfl
      have hcall := (hagrees.waiting t w hwaiting).symm.trans hpc
      cases hcall
      have hempty : a.state = [] := by
        have hpred := alert_of_clients h.reachable t w hthr
        rw [pred_eq, hspans.list.empty_eq] at hpred
        simpa using hpred
      rw [hempty] at hspans hseq
      exact Ends.timeout hspans hpc hwaiting hseq
  | woken w =>
      have hwaiting : (s.state.thr t).waiting = some w := by rw [hthr]; rfl
      have hcall := (hagrees.waiting t w hwaiting).symm.trans hpc
      cases hcall
      by_cases hempty : a.state = []
      · rw [hempty] at hspans hseq
        exact Ends.timeout hspans hpc hwaiting hseq
      · exact Ends.recheck hspans hempty hpc hthr hseq

/-- A consumer that waits while a node is pushed. -/
theorem linearizable_push :
    ∃ a, (Clients.atomic Bool (sequence (α := Nat)) []).Traced (fun _ _ => True) Clients.history
      [.invoke true (.popFront 0), .invoke false (.pushBack (some 7)), .respond false (.bool true)] a ∧
      a.pc true = .called (.popFront 0) := by
  have h0 : (clients Bool Nat).Traced (Monitor.Callers ListMem.Promised) Clients.history []
      ⟨⟨⟨create, fun _ => ListHook.unlinked⟩, fun _ => .out⟩, fun _ => .idle⟩ :=
    .init ⟨⟨⟨rfl, fun _ => rfl⟩, fun _ => rfl⟩, fun _ => rfl⟩
  have h1 := h0.step (e := Clients.Ev.invoke true (.popFront 0)) trivial rfl
  have h2 := h1.step (e := Clients.Ev.act true Move.enter)
    (fun o ho => by cases ho; exact promised_wait (.front 0) _) rfl
  have h3 := h2.step (e := Clients.Ev.invoke false (.pushBack (some 7))) trivial rfl
  have h4 := h3.step (e := Clients.Ev.act false Move.enter)
    (fun o ho => by
      cases ho
      exact ⟨fun a _ hlinked => (by obtain ⟨x, hx, -⟩ := hlinked; cases hx),
        fun a ha => (by cases ha)⟩) rfl
  have h5 := h4.step (e := Clients.Ev.respond false) trivial rfl
  obtain ⟨a, hlog, -, hpc, -⟩ := linearizable h5
  exact ⟨a, hlog, congrFun hpc true⟩

end Runs

end SafeList
end Fredlib
