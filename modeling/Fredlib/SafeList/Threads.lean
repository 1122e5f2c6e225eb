/-
  Fredlib.SafeList.Threads

  One `SafeList` shared by any number of threads.

  A step of a thread either only waits, or runs the body of one operation
  (`stepRet_some`); so the sequences of `Runs` say what the list holds after any
  interleaving.  What they do not say is who sleeps: every operation that can
  make the list non-empty notifies, so nobody sleeps on a non-empty list
  (`alert_step`).
-/

import Fredlib.SafeList.Runs

namespace Fredlib

open Lib Lib.DList Lib.Monitor SafeList

variable {T α : Type*} [DecidableEq T] [DecidableEq α]

-- ============================================================================
-- A list that has its memory to itself
-- ============================================================================

namespace ListMem

/-- `a` is linked in the list. -/
def Linked (m : ListMem α) (a : α) : Prop :=
  Reaches (fun a => (m.heap a).next) m.list.mHead a

/-- The list is the sequence `s`, and no other hook is linked. -/
structure Spans (m : ListMem α) (s : List α) : Prop where
  list : m.Represents s
  unlinked : ∀ a, a ∉ s → m.heap a = ListHook.unlinked

/-- What the caller of an operation promises: a new node is linked nowhere, and a
    node said to be in the list is linked in it. -/
def Promised (m : ListMem α) (o : Op α) : Prop :=
  (∀ a, (Call.op o).newNode = some a → ¬ m.Linked a) ∧
    ∀ a, (Call.op o).linkedNode = some a → m.Linked a

variable {m m' : ListMem α} {s : List α} {o : Op α} {v : Ret α}

omit [DecidableEq α] in
theorem Spans.create (hlist : m.list = SafeList.create)
    (hheap : ∀ a, m.heap a = ListHook.unlinked) : Spans m [] := by
  refine ⟨?_, fun a _ => hheap a⟩
  obtain ⟨list, heap⟩ := m
  cases hlist
  exact .create heap

omit [DecidableEq α] in
theorem Spans.linked_iff (h : Spans m s) {a : α} : m.Linked a ↔ a ∈ s :=
  h.list.reaches_iff

omit [DecidableEq α] in
theorem Spans.fits (h : Spans m s) (hok : m.Promised o) : Fits (.op o) m s := by
  constructor
  · intro a ha
    have hout : a ∉ s := fun hmem => hok.1 a ha (h.linked_iff.mpr hmem)
    exact ⟨hout, h.unlinked a hout⟩
  · exact fun a ha => h.linked_iff.mp (hok.2 a ha)

/-- The body of an operation, on the sequence. -/
theorem Spans.run (h : Spans m s) (hfit : Fits (.op o) m s)
    (hrun : m.run (.op o) = some (v, m')) :
    ∃ s', runSeq s (.op o) = some (v, s') ∧ Spans m' s' ∧ Moves (.op o) m m' s s' := by
  rcases answers h.list hfit with ⟨-, hnone⟩ | ⟨v', s', m₁, hseq, hrun', hrep, hmoves⟩
  · rw [hnone] at hrun
    cases hrun
  · rw [hrun'] at hrun
    cases hrun
    refine ⟨s', hseq, ⟨hrep, fun a ha => ?_⟩, hmoves⟩
    by_cases htouched : a ∈ s ∨ (Call.op o).newNode = some a
    · exact hmoves.out a ha htouched
    · rw [not_or] at htouched
      rw [hmoves.frame a htouched.1 htouched.2, h.unlinked a htouched.1]

end ListMem

namespace SafeList

-- ============================================================================
-- The threads
-- ============================================================================

/-- Threads around one list, empty at the start, all hooks unlinked. -/
def shared (T α : Type*) [DecidableEq T] [DecidableEq α] :
    System (Config T (ListMem α) Wait) (MonitorEv T (Op α)) :=
  monitor.system T fun m => m.list = create ∧ ∀ a, m.heap a = ListHook.unlinked

/-- The pop that waits at `w`. -/
def Wait.op : Wait → Op α
  | .front timeout => .popFront timeout
  | .back timeout => .popBack timeout

/-- The wait of an operation, if it has one. -/
def Op.wait : Op α → Option Wait
  | .popFront timeout => some (.front timeout)
  | .popBack timeout => some (.back timeout)
  | _ => none

/-- The operation whose body the event may run. -/
def performs (c : Config T (ListMem α) Wait) : MonitorEv T (Op α) → Option (Op α)
  | .call _ o => some o
  | .recheck t | .timeout t => (c.thr t).waiting.map Wait.op
  | .spurious _ => none

/-- Every caller keeps its promise when its operation takes the lock. -/
def Callers (c : Config T (ListMem α) Wait) : MonitorEv T (Op α) → Prop
  | .call _ o => c.data.Promised o
  | _ => True

section Sections

variable {m m' : ListMem α} {w : Wait} {o : Op α} {v : Ret α}

@[simp] theorem pred_eq (w : Wait) (m : ListMem α) : monitor.pred w m = !m.list.empty := rfl

/-- What comes after the wait is the pop, if the wait may end at all. -/
theorem finish_eq (hend : (monitor (α := α)).timed w = true ∨ m.list.empty = false) :
    monitor.finish w m = (m.run (.op w.op)).map fun r => ⟨r.2, [], .ret r.1⟩ := by
  cases w with
  | front timeout =>
      have hrun : ¬ (timeout = 0 ∧ m.list.empty = true) := by
        rintro ⟨rfl, hempty⟩
        simp [monitor, hempty] at hend
      simp only [finish, monitor, ListMem.run, Wait.op, if_neg hrun, Option.map_map]
      rfl
  | back timeout =>
      have hrun : ¬ (timeout = 0 ∧ m.list.empty = true) := by
        rintro ⟨rfl, hempty⟩
        simp [monitor, hempty] at hend
      simp only [finish, monitor, ListMem.run, Wait.op, if_neg hrun, Option.map_map]
      rfl

/-- A woken pop sleeps again on an empty list, and runs on any other. -/
theorem wakeSection_eq (w : Wait) (m : ListMem α) :
    monitor.wakeSection w m =
      if m.list.empty then some ⟨m, [], .wait w⟩
      else (m.run (.op w.op)).map fun r => ⟨r.2, [], .ret r.1⟩ := by
  cases hempty : m.list.empty with
  | true => simp [wakeSection, settle, hempty]
  | false =>
      rw [if_neg (by simp)]
      simp only [wakeSection, settle, pred_eq, hempty, Bool.not_false, if_true]
      rw [finish_eq (.inr hempty), Option.map_map]
      rfl

/-- A pop that has just been called is as one that has just been woken. -/
theorem enterSection_pop (hw : o.wait = some w) :
    monitor.enterSection o m = monitor.wakeSection w m ∧ w.op = o := by
  cases o <;> cases hw <;> exact ⟨rfl, rfl⟩

/-- The other operations run at once, and notify on success. -/
theorem enterSection_update (hw : o.wait = none) :
    monitor.enterSection o m = (m.run (.op o)).map fun r =>
      ⟨r.2, if r.1 = .bool true then [.mListCV] else [], .ret r.1⟩ := by
  cases o with
  | insert existingNode newNode =>
      simp [enterSection, settle, monitor, ListMem.run, updated]
  | erase node => simp [enterSection, settle, monitor, ListMem.run, updated]
  | pushBack newNode =>
      cases hpush : m.pushBack newNode <;>
        simp [enterSection, settle, monitor, ListMem.run, updated, hpush]
  | popFront timeout => cases hw
  | popBack timeout => cases hw

/-- An operation that does not wait and does not succeed changes nothing. -/
theorem run_update (hw : o.wait = none) (hrun : m.run (.op o) = some (v, m')) :
    v = .bool true ∨ m' = m := by
  cases o with
  | insert existingNode newNode =>
      simp only [ListMem.run, Option.some.injEq, Prod.mk.injEq] at hrun
      obtain ⟨rfl, rfl⟩ := hrun
      -- `insert` refuses a null node, and a null position on a list that is not empty
      unfold ListMem.insert
      split
      · exact .inr rfl
      · split
        · exact .inr rfl
        · exact .inr rfl
        · exact .inl rfl
        · exact .inl rfl
  | erase node =>
      simp only [ListMem.run, Option.some.injEq, Prod.mk.injEq] at hrun
      obtain ⟨rfl, rfl⟩ := hrun
      cases node with
      | none => exact .inr rfl
      | some n => exact .inl rfl
  | pushBack newNode =>
      simp only [ListMem.run, Option.map_eq_some_iff, Prod.mk.injEq] at hrun
      obtain ⟨⟨b, m₁⟩, hpush, rfl, rfl⟩ := hrun
      unfold ListMem.pushBack at hpush
      split at hpush
      · cases hpush
        exact .inr rfl
      · split at hpush
        · cases hpush
          exact .inl rfl
        · split at hpush <;> cases hpush
          exact .inl rfl
  | popFront timeout => cases hw
  | popBack timeout => cases hw

end Sections

/-! ## Steps -/

section Steps

variable {c c' : Config T (ListMem α) Wait} {e : MonitorEv T (Op α)} {r : Option (Ret α)}
  {sec : Section (ListMem α) Wait Cond (Ret α)} {t : T} {o : Op α} {w : Wait} {v : Ret α}

/-- A section either is a pop that leaves everything as it is and waits for the
    empty list, or runs the body of its operation and returns what that returns. -/
def Runs (o : Op α) (m : ListMem α) (sec : Section (ListMem α) Wait Cond (Ret α)) : Prop :=
  (sec.data = m ∧ sec.exit.result = none ∧ o.wait ≠ none ∧ m.list.empty = true) ∨
    ∃ v, m.run (.op o) = some (v, sec.data) ∧ sec.exit.result = some v

theorem runs_wake {m : ListMem α} (h : monitor.wakeSection w m = some sec) :
    Runs w.op m sec := by
  rw [wakeSection_eq] at h
  split at h
  · rename_i hempty
    cases h
    exact .inl ⟨rfl, rfl, by cases w <;> simp [Wait.op, Op.wait], hempty⟩
  · obtain ⟨⟨v, m'⟩, hrun, rfl⟩ := Option.map_eq_some_iff.mp h
    exact .inr ⟨v, hrun, rfl⟩

theorem runs_enter {m : ListMem α} (h : monitor.enterSection o m = some sec) :
    Runs o m sec := by
  cases hw : o.wait with
  | none =>
      rw [enterSection_update hw] at h
      obtain ⟨⟨v, m'⟩, hrun, rfl⟩ := Option.map_eq_some_iff.mp h
      exact .inr ⟨v, hrun, rfl⟩
  | some w =>
      obtain ⟨hsec, rfl⟩ := enterSection_pop (m := m) hw
      rw [hsec] at h
      exact runs_wake h

/-- The step leaves the list alone and returns nothing: a spurious wake-up, or a
    pop that finds the list empty. -/
structure Idle (c : Config T (ListMem α) Wait) (e : MonitorEv T (Op α))
    (c' : Config T (ListMem α) Wait) (r : Option (Ret α)) : Prop where
  data : c'.data = c.data
  ret : r = none
  waits : ∀ o, performs c e = some o → o.wait ≠ none ∧ c.data.list.empty = true

/-- A step of a thread is idle, or runs the body of one operation and returns its
    value. -/
theorem stepRet_some (h : monitor.stepRet c e = some (c', r)) :
    Idle c e c' r ∨
      ∃ o v, performs c e = some o ∧ c.data.run (.op o) = some (v, c'.data) ∧ r = some v := by
  have hsection : ∀ {t o sec}, performs c e = some o → Runs o c.data sec →
      monitor.apply t sec c = (c', r) →
      Idle c e c' r ∨
        ∃ o v, performs c e = some o ∧ c.data.run (.op o) = some (v, c'.data) ∧ r = some v := by
    intro t o sec hperf hruns happ
    cases happ
    rcases hruns with ⟨hdata, hres, hwait, hempty⟩ | ⟨v, hrun, hres⟩
    · refine .inl ⟨hdata, hres, fun o' ho' => ?_⟩
      cases hperf.symm.trans ho'
      exact ⟨hwait, hempty⟩
    · exact .inr ⟨o, v, hperf, hrun, hres⟩
  cases e with
  | call t o =>
      obtain ⟨-, sec, hsec, happ⟩ := monitor.call_some h
      exact hsection rfl (runs_enter hsec) happ
  | recheck t =>
      obtain ⟨w, hw, sec, hsec, happ⟩ := monitor.recheck_some h
      exact hsection (by simp [performs, hw, Status.waiting]) (runs_wake hsec) happ
  | spurious t =>
      simp only [stepRet, Option.map_eq_some_iff, Prod.mk.injEq] at h
      obtain ⟨c₁, hsp, rfl, rfl⟩ := h
      exact .inl ⟨(spurious_frame hsp).1, rfl, fun o ho => by cases ho⟩
  | timeout t =>
      obtain ⟨w, hw, htimed, sec, hsec, happ⟩ := monitor.timeout_some h
      rw [finish_eq (m := c.data) (.inl htimed)] at hsec
      obtain ⟨⟨v, m'⟩, hrun, rfl⟩ := Option.map_eq_some_iff.mp hsec
      exact hsection (by simp [performs, hw]) (.inr ⟨v, hrun, rfl⟩) happ

/-- On an empty list a pop changes nothing. -/
theorem run_pop_empty {m m' : ListMem α} (hempty : m.list.empty = true)
    (hrun : m.run (.op w.op) = some (v, m')) : m' = m := by
  cases w with
  | front timeout =>
      simp only [ListMem.run, Wait.op, ListMem.popFront, hempty] at hrun
      split at hrun <;> cases hrun
      rfl
  | back timeout =>
      simp only [ListMem.run, Wait.op, ListMem.popBack, hempty] at hrun
      split at hrun <;> cases hrun
      rfl

/-- A section that leaves an empty list empty, or notifies, leaves no sleeper behind. -/
theorem alert_section (h : monitor.Alert c)
    (hself : ∀ w, sec.exit = .wait w → monitor.pred w sec.data = false)
    (hcover : c.data.list.empty = true → sec.notified = [.mListCV] ∨ sec.data = c.data) :
    monitor.Alert (monitor.apply t sec c).1 := by
  refine h.apply _ hself fun t' w _ _ hpred hnot => ?_
  rcases hcover (by simpa using hpred) with hnotified | hdata
  · simp [hnotified, monitor] at hnot
  · rwa [hdata]

/-- Nobody is put to sleep on a non-empty list, and whatever makes the list
    non-empty notifies. -/
theorem alert_step (h : monitor.Alert c) (hs : monitor.stepRet c e = some (c', r)) :
    monitor.Alert c' := by
  -- a pop that finds the list empty leaves it as it is
  have hpop : ∀ {w sec}, monitor.wakeSection w c.data = some sec → c.data.list.empty = true →
      sec.notified = [.mListCV] ∨ sec.data = c.data := by
    intro w sec hsec hempty
    rw [wakeSection_eq, if_pos hempty] at hsec
    cases hsec
    exact .inr rfl
  cases e with
  | call t o =>
      obtain ⟨-, sec, hsec, happ⟩ := monitor.call_some hs
      have hc' : c' = (monitor.apply t sec c).1 := by rw [happ]
      rw [hc']
      cases hw : o.wait with
      | none =>
          rw [enterSection_update hw] at hsec
          obtain ⟨⟨v, m'⟩, hrun, rfl⟩ := Option.map_eq_some_iff.mp hsec
          refine alert_section h (fun w hwait => by cases hwait) fun _ => ?_
          -- an update notifies the waiters exactly if it has succeeded
          rcases run_update hw hrun with hsucc | hsame
          · exact .inl (if_pos hsucc)
          · exact .inr hsame
      | some w =>
          rw [(enterSection_pop hw).1] at hsec
          exact alert_section h (fun w hwait => monitor.settle_wait hsec hwait) (hpop hsec)
  | recheck t =>
      obtain ⟨w, -, sec, hsec, happ⟩ := monitor.recheck_some hs
      have hc' : c' = (monitor.apply t sec c).1 := by rw [happ]
      rw [hc']
      exact alert_section h (fun w hwait => monitor.settle_wait hsec hwait) (hpop hsec)
  | spurious t =>
      simp only [stepRet, Option.map_eq_some_iff, Prod.mk.injEq] at hs
      obtain ⟨c₁, hsp, rfl, -⟩ := hs
      exact h.spurious _ hsp
  | timeout t =>
      obtain ⟨w, -, htimed, sec, hsec, happ⟩ := monitor.timeout_some hs
      have hc' : c' = (monitor.apply t sec c).1 := by rw [happ]
      rw [hc']
      rw [finish_eq (m := c.data) (.inl htimed)] at hsec
      obtain ⟨⟨v, m'⟩, hrun, rfl⟩ := Option.map_eq_some_iff.mp hsec
      exact alert_section h (fun w hwait => by cases hwait)
        fun hempty => .inr (run_pop_empty hempty hrun)

end Steps

-- ============================================================================
-- Runs
-- ============================================================================

section Runs

variable {c c' : Config T (ListMem α) Wait} {e : MonitorEv T (Op α)} {r : Option (Ret α)}
  {s s' : List α} {o : Op α} {v : Ret α}

omit [DecidableEq T] [DecidableEq α] in
/-- A pop promises nothing. -/
theorem promised_of_performs (hok : Callers c e) (hperf : performs c e = some o) :
    c.data.Promised o := by
  have hpop : ∀ w : Wait, c.data.Promised (w.op : Op α) := by
    intro w
    cases w <;> exact ⟨fun a ha => (by cases ha), fun a ha => (by cases ha)⟩
  cases e with
  | call t o' =>
      cases hperf
      exact hok
  | recheck t =>
      obtain ⟨w, -, rfl⟩ := Option.map_eq_some_iff.mp hperf
      exact hpop w
  | spurious t => cases hperf
  | timeout t =>
      obtain ⟨w, -, rfl⟩ := Option.map_eq_some_iff.mp hperf
      exact hpop w

/-- What a step does to the sequence the list holds. -/
theorem spans_step (h : c.data.Spans s) (hs : monitor.stepRet c e = some (c', r))
    (hfit : ∀ o, performs c e = some o → Fits (.op o) c.data s) :
    Idle c e c' r ∨
      ∃ o v s', performs c e = some o ∧ r = some v ∧ runSeq s (.op o) = some (v, s') ∧
        c'.data.Spans s' ∧ Moves (.op o) c.data c'.data s s' := by
  rcases stepRet_some hs with hidle | ⟨o, v, hperf, hrun, hr⟩
  · exact .inl hidle
  · obtain ⟨s', hseq, hspans, hmoves⟩ := h.run (hfit o hperf) hrun
    exact .inr ⟨o, v, s', hperf, hr, hseq, hspans, hmoves⟩

omit [DecidableEq T] in
theorem alert_init (h : ∀ t, c.thr t = .out) : (monitor (α := α)).Alert c := by
  intro t w hw
  rw [h t] at hw
  cases hw

/-- The list holds a sequence, and nobody sleeps while it is not empty. -/
theorem spans_of_reachable (h : (shared T α).ReachableBy Callers c) :
    (∃ s, c.data.Spans s) ∧ (monitor (α := α)).Alert c := by
  refine h.invariant (P := fun c => (∃ s, c.data.Spans s) ∧ (monitor (α := α)).Alert c) ?_ ?_
  · rintro c ⟨⟨hlist, hheap⟩, hthr⟩
    exact ⟨⟨[], .create hlist hheap⟩, alert_init hthr⟩
  · rintro c e c' - ⟨⟨s, hspans⟩, halert⟩ hok hs
    simp only [shared, Monitor.system, Option.map_eq_some_iff] at hs
    obtain ⟨⟨c₁, r⟩, hstep, rfl⟩ := hs
    refine ⟨?_, alert_step halert hstep⟩
    rcases spans_step hspans hstep fun o ho => hspans.fits (promised_of_performs hok ho) with
      hidle | ⟨o, v, s', -, -, -, hspans', -⟩
    · exact ⟨s, by rw [hidle.data]; exact hspans⟩
    · exact ⟨s', hspans'⟩

omit [DecidableEq T] in
/-- Only a pop of the empty sequence has no answer. -/
theorem runSeq_none (h : runSeq s (.op o) = none) : o.wait ≠ none ∧ s = [] := by
  cases o with
  | insert existingNode newNode =>
      simp only [runSeq] at h
      split at h <;> cases h
  | erase node =>
      simp only [runSeq] at h
      split at h <;> cases h
  | pushBack newNode =>
      simp only [runSeq] at h
      split at h <;> cases h
  | popFront timeout =>
      simp only [runSeq] at h
      split at h
      · rename_i hwaits
        exact ⟨by simp [Op.wait], List.isEmpty_iff.mp hwaits.2⟩
      · cases h
  | popBack timeout =>
      simp only [runSeq] at h
      split at h
      · rename_i hwaits
        exact ⟨by simp [Op.wait], List.isEmpty_iff.mp hwaits.2⟩
      · cases h

/-- No operation follows a null pointer: whoever is outside can call, and whoever
    is woken can go on. -/
theorem shared_defined (h : (shared T α).ReachableBy Callers c) :
    (∀ t o, c.thr t = .out → c.data.Promised o → (monitor.stepRet c (.call t o)).isSome) ∧
    ∀ t w, c.thr t = .woken w → (monitor.stepRet c (.recheck t)).isSome := by
  obtain ⟨⟨s, hspans⟩, -⟩ := spans_of_reachable h
  -- by the sequence semantics only a pop of an empty list is undefined
  have hrun : ∀ o, c.data.Promised o → o.wait = none ∨ c.data.list.empty = false →
      ∃ r, c.data.run (.op o) = some r := by
    intro o hok hends
    rcases answers hspans.list (hspans.fits hok) with ⟨hseq, -⟩ | ⟨v, s', m', -, hrun, -⟩
    · obtain ⟨hwait, rfl⟩ := runSeq_none hseq
      rw [hspans.list.empty_eq] at hends
      rcases hends with hends | hends
      · exact absurd hends hwait
      · cases hends
    · exact ⟨_, hrun⟩
  have hwake : ∀ w : Wait, ∃ sec, (monitor (α := α)).wakeSection w c.data = some sec := by
    intro w
    rw [wakeSection_eq]
    split
    · exact ⟨_, rfl⟩
    · rename_i hempty
      have hok : c.data.Promised (w.op : Op α) := by
        cases w <;> exact ⟨fun a ha => (by cases ha), fun a ha => (by cases ha)⟩
      obtain ⟨v, hv⟩ := hrun w.op hok (.inr (by simpa using hempty))
      exact ⟨_, by rw [hv]; rfl⟩
  constructor
  · intro t o hout hok
    simp only [stepRet, Monitor.call, hout, Option.isSome_map]
    cases hw : o.wait with
    | none =>
        obtain ⟨v, hv⟩ := hrun o hok (.inl hw)
        rw [enterSection_update hw, hv]
        rfl
    | some w =>
        obtain ⟨sec, hsec⟩ := hwake w
        rw [(enterSection_pop hw).1, hsec]
        rfl
  · intro t w hw
    obtain ⟨sec, hsec⟩ := hwake w
    simp only [stepRet, Monitor.recheck, hw, hsec, Option.map_some, Option.isSome_some]

omit [DecidableEq T] in
/-- Only a timed pop of the empty sequence returns null. -/
theorem runSeq_null (h : runSeq s (.op o) = some (.node none, s')) :
    s' = [] ∧ ∃ timeout : Int, timeout ≠ 0 ∧ (o = .popFront timeout ∨ o = .popBack timeout) := by
  cases o with
  | insert existingNode newNode =>
      simp only [runSeq] at h
      split at h <;> cases h
  | erase node =>
      simp only [runSeq] at h
      split at h <;> cases h
  | pushBack newNode =>
      simp only [runSeq] at h
      split at h <;> cases h
  | popFront timeout =>
      simp only [runSeq] at h
      split at h
      · cases h
      · rename_i hwaits
        simp only [Option.some.injEq, Prod.mk.injEq, Ret.node.injEq, List.head?_eq_none_iff] at h
        obtain ⟨rfl, rfl⟩ := h
        exact ⟨rfl, timeout, fun hzero => hwaits ⟨hzero, rfl⟩, .inl rfl⟩
  | popBack timeout =>
      simp only [runSeq] at h
      split at h
      · cases h
      · rename_i hwaits
        simp only [Option.some.injEq, Prod.mk.injEq, Ret.node.injEq,
          List.getLast?_eq_none_iff] at h
        obtain ⟨rfl, rfl⟩ := h
        exact ⟨rfl, timeout, fun hzero => hwaits ⟨hzero, rfl⟩, .inr rfl⟩

/-- Whatever the threads do: while a node is linked nobody sleeps in a pop, and a
    pop that returns null is a timed one and leaves an empty list. -/
theorem pops_miss_nothing (h : (shared T α).ReachableBy Callers c) :
    ((∃ a, c.data.Linked a) → ∀ t w, c.thr t ≠ .asleep w) ∧
    ∀ e c', Callers c e → monitor.stepRet c e = some (c', some (.node none)) →
      (∃ timeout : Int, timeout ≠ 0 ∧
        (performs c e = some (.popFront timeout) ∨ performs c e = some (.popBack timeout))) ∧
      ¬ ∃ a, c'.data.Linked a := by
  obtain ⟨⟨s, hspans⟩, halert⟩ := spans_of_reachable h
  constructor
  · rintro ⟨a, ha⟩ t w hw
    have hempty := halert t w hw
    rw [pred_eq, hspans.list.empty_eq, Bool.not_eq_false', List.isEmpty_iff] at hempty
    subst hempty
    exact absurd (hspans.linked_iff.mp ha) List.not_mem_nil
  · intro e c' hok hs
    rcases spans_step hspans hs fun o ho => hspans.fits (promised_of_performs hok ho) with
      hidle | ⟨o, v, s', hperf, hv, hseq, hspans', -⟩
    · cases hidle.ret
    · cases hv
      obtain ⟨rfl, timeout, htimed, ho⟩ := runSeq_null hseq
      refine ⟨⟨timeout, htimed, ho.imp (fun ho => ?_) fun ho => ?_⟩, ?_⟩
      · rw [hperf, ho]
      · rw [hperf, ho]
      · rintro ⟨a, ha⟩
        exact absurd (hspans'.linked_iff.mp ha) List.not_mem_nil

/-- A consumer asleep in `pop_front` when a node is pushed has been woken. -/
theorem pops_miss_nothing_push : ∃ c : Config Bool (ListMem Nat) Wait,
    (shared Bool Nat).ReachableBy Callers c ∧ c.data.Linked 7 ∧
      ∀ t w, c.thr t ≠ .asleep w := by
  have h0 : (shared Bool Nat).ReachableBy Callers
      ⟨⟨create, fun _ => ListHook.unlinked⟩, fun _ => .out⟩ :=
    .init ⟨⟨rfl, fun _ => rfl⟩, fun _ => rfl⟩
  have h1 := h0.step (.call true (.popFront 0))
    ⟨fun a ha => (by cases ha), fun a ha => (by cases ha)⟩ rfl
  have h2 := h1.step (.call false (.pushBack (some 7)))
    ⟨fun a _ hlinked => (by obtain ⟨x, hx, -⟩ := hlinked; cases hx),
      fun a ha => (by cases ha)⟩ rfl
  exact ⟨_, h2, ⟨7, rfl, .refl⟩, (pops_miss_nothing h2).1 ⟨7, 7, rfl, .refl⟩⟩

end Runs

end SafeList
end Fredlib
