/-
  Fredlib.Lib.Monitor

  Monitors: data behind one mutex, condition variables, and operations whose
  critical sections may end in a predicated wait.

  A critical section runs atomically.  It notifies condition variables and then
  either returns or reaches `cv.wait(lock, pred)`.  A thread at a wait is
  *asleep* or *woken*: a notification, or a spurious wake-up, turns the first
  into the second, and a woken thread takes the lock, evaluates its predicate
  and either finishes the operation or goes back to sleep.  A timed wait may
  also give up at any moment; the code after it then runs whatever the
  predicate says.

  Threads are an arbitrary type `T`, so every result here is about any number
  of them.  `Config` is the state of one monitor with the position of every
  thread in it; its operations are partial functions, `none` standing for a
  step that is not enabled (or, inside a section, for undefined behaviour).
-/

import Fredlib.Lib.System
import Mathlib.Logic.Function.Basic
import Mathlib.Data.Finset.Card

namespace Fredlib
namespace Lib

-- ============================================================================
-- Definitions
-- ============================================================================

/-- Where a thread stands with respect to a monitor. -/
inductive Status (W : Type*)
  | out
  | asleep (w : W)
  | woken (w : W)
  deriving DecidableEq

/-- The wait a thread is at, asleep or woken. -/
def Status.waiting {W : Type*} : Status W → Option W
  | .out => none
  | .asleep w => some w
  | .woken w => some w

@[simp] theorem Status.waiting_eq_none {W : Type*} {st : Status W} :
    st.waiting = none ↔ st = .out := by
  cases st <;> simp [Status.waiting]

/-- Two threads at the same wait, or at none, are both out or both in. -/
theorem Status.out_iff {W : Type*} {st st' : Status W} (h : st.waiting = st'.waiting) :
    st = .out ↔ st' = .out := by
  rw [← waiting_eq_none, h, waiting_eq_none]

/-- How a critical section ends. -/
inductive Exit (W R : Type*)
  | ret (r : R)
  | wait (w : W)

/-- What a critical section leaves behind: the data, the condition variables
    it called `notify_all` on, and its end. -/
structure Section (D W C R : Type*) where
  data : D
  notified : List C
  exit : Exit W R

/-- A class with a mutex: its operations up to their return or their wait, and
    for each wait the condition variable, the predicate, the code after it, and
    whether it is timed. -/
structure Monitor (D Op W C R : Type*) where
  enter : Op → D → Option (Section D W C R)
  cond : W → C
  pred : W → D → Bool
  after : W → D → Option (D × List C × R)
  timed : W → Bool

/-- A monitor's data together with the position of every thread. -/
@[ext] structure Config (T D W : Type*) where
  data : D
  thr : T → Status W

/-- What can happen to a monitor. -/
inductive MonitorEv (T Op : Type*)
  | call (t : T) (op : Op)
  | recheck (t : T)
  | spurious (t : T)
  | timeout (t : T)

/-- The position a section leaves its thread in. -/
def Exit.status {W R : Type*} : Exit W R → Status W
  | .ret _ => .out
  | .wait w => .asleep w

/-- The value a section returns, if it returns. -/
def Exit.result {W R : Type*} : Exit W R → Option R
  | .ret r => some r
  | .wait _ => none

namespace Monitor

variable {T D Op W C R : Type*} [DecidableEq T] [DecidableEq C] (m : Monitor D Op W C R)

/-- `notify_all` on each of `ns`. -/
def notify (ns : List C) (thr : T → Status W) : T → Status W := fun t =>
  match thr t with
  | .asleep w => if m.cond w ∈ ns then .woken w else .asleep w
  | st => st

/-- The section from the end of the wait `w` to the return. -/
def finish (w : W) (d : D) : Option (Section D W C R) :=
  (m.after w d).map fun (d', ns, r) => ⟨d', ns, .ret r⟩

/-- A section that reached `cv.wait(lock, pred)` evaluates the predicate: it
    goes on if that is true, and otherwise gives up the lock and sleeps. -/
def settle (e : Section D W C R) : Option (Section D W C R) :=
  match e.exit with
  | .ret _ => some e
  | .wait w =>
      if m.pred w e.data then
        (m.finish w e.data).map fun e' => { e' with notified := e.notified ++ e'.notified }
      else some e

/-- The critical section of a call of `op`. -/
def enterSection (op : Op) (d : D) : Option (Section D W C R) :=
  (m.enter op d).bind m.settle

/-- The critical section of a woken thread at the wait `w`. -/
def wakeSection (w : W) (d : D) : Option (Section D W C R) :=
  m.settle ⟨d, [], .wait w⟩

/-- Thread `t` has run the critical section `e`: the notified threads are woken
    and `t` is out or asleep. -/
def apply (t : T) (e : Section D W C R) (c : Config T D W) : Config T D W × Option R :=
  (⟨e.data, Function.update (m.notify e.notified c.thr) t e.exit.status⟩, e.exit.result)

/-- `t` calls `op`.  The result is `none` while the call has not returned. -/
def call (t : T) (op : Op) (c : Config T D W) : Option (Config T D W × Option R) :=
  match c.thr t with
  | .out => (m.enterSection op c.data).map (m.apply t · c)
  | _ => none

/-- A woken thread takes the lock again. -/
def recheck (t : T) (c : Config T D W) : Option (Config T D W × Option R) :=
  match c.thr t with
  | .woken w => (m.wakeSection w c.data).map (m.apply t · c)
  | _ => none

/-- A sleeping thread wakes up although nobody notified it. -/
def spurious (t : T) (c : Config T D W) : Option (Config T D W) :=
  match c.thr t with
  | .asleep w => some { c with thr := Function.update c.thr t (.woken w) }
  | _ => none

/-- A timed wait gives up and takes the lock again. -/
def timeout (t : T) (c : Config T D W) : Option (Config T D W × Option R) :=
  match (c.thr t).waiting with
  | some w => if m.timed w then (m.finish w c.data).map (m.apply t · c) else none
  | none => none

/-- The next step of a thread on its way through `op`. -/
def advance (t : T) (op : Op) (c : Config T D W) : Option (Config T D W × Option R) :=
  match c.thr t with
  | .out => m.call t op c
  | _ => m.recheck t c

/-- One event of the monitor, with the value returned if a call returns. -/
def stepRet (c : Config T D W) : MonitorEv T Op → Option (Config T D W × Option R)
  | .call t op => m.call t op c
  | .recheck t => m.recheck t c
  | .spurious t => (spurious t c).map fun c' => (c', none)
  | .timeout t => m.timeout t c

/-- The monitor as a transition system: data that `init` allows, and no thread
    inside. -/
def system (T : Type*) [DecidableEq T] (init : D → Prop) :
    System (Config T D W) (MonitorEv T Op) where
  init c := init c.data ∧ ∀ t, c.thr t = .out
  step c e := (m.stepRet c e).map Prod.fst

/-- A monitor with the calls each thread has made so far, the last one last. -/
structure Session (T D Op W : Type*) where
  cfg : Config T D W
  calls : T → List Op

/-- The calls made once `e` has happened. -/
def callsAfter (calls : T → List Op) : MonitorEv T Op → T → List Op
  | .call t op => Function.update calls t (calls t ++ [op])
  | _ => calls

/-- The monitor as a transition system that records who called what. -/
def sessions (T : Type*) [DecidableEq T] (init : D → Prop) :
    System (Session T D Op W) (MonitorEv T Op) where
  init s := (m.system T init).init s.cfg ∧ ∀ t, s.calls t = []
  step s e := (m.stepRet s.cfg e).map fun c => ⟨c.1, callsAfter s.calls e⟩

-- ============================================================================
-- What a step does
-- ============================================================================

omit [DecidableEq T] in
@[simp] theorem waiting_notify (ns : List C) (thr : T → Status W) (t : T) :
    (m.notify ns thr t).waiting = (thr t).waiting := by
  unfold notify
  cases h : thr t with
  | out => rfl
  | woken w => rfl
  | asleep w => simp only; split <;> rfl

omit [DecidableEq T] in
@[simp] theorem notify_eq_asleep {ns : List C} {thr : T → Status W} {t : T} {w : W} :
    m.notify ns thr t = .asleep w ↔ thr t = .asleep w ∧ m.cond w ∉ ns := by
  unfold notify
  cases h : thr t with
  | out => simp
  | woken w' => simp
  | asleep w' =>
      simp only
      split <;> rename_i hmem <;> simp only [reduceCtorEq, Status.asleep.injEq, false_iff, not_and,
        not_not]
      · rintro rfl; exact hmem
      · constructor
        · rintro rfl; exact ⟨rfl, hmem⟩
        · exact fun h => h.1

omit [DecidableEq T] in
@[simp] theorem notify_eq_out {ns : List C} {thr : T → Status W} {t : T} :
    m.notify ns thr t = .out ↔ thr t = .out := by
  unfold notify
  cases h : thr t with
  | out => simp
  | woken w' => simp
  | asleep w' => simp only; split <;> simp

omit [DecidableEq T] in
@[simp] theorem notify_nil (thr : T → Status W) : m.notify [] thr = thr := by
  funext t
  unfold notify
  cases h : thr t <;> simp

@[simp] theorem apply_data (t : T) (e : Section D W C R) (c : Config T D W) :
    (m.apply t e c).1.data = e.data := rfl

@[simp] theorem apply_thr_self (t : T) (e : Section D W C R) (c : Config T D W) :
    (m.apply t e c).1.thr t = e.exit.status := by
  simp [apply]

@[simp] theorem apply_thr_of_ne {t t' : T} (h : t' ≠ t) (e : Section D W C R)
    (c : Config T D W) : (m.apply t e c).1.thr t' = m.notify e.notified c.thr t' := by
  simp [apply, h]

omit [DecidableEq C] in
/-- A section that went through its wait, or returned before it, does not sleep
    on a true predicate. -/
theorem settle_wait {e e' : Section D W C R} {w : W} (h : m.settle e = some e')
    (hw : e'.exit = .wait w) : m.pred w e'.data = false := by
  unfold settle at h
  cases hexit : e.exit with
  | ret r =>
      simp only [hexit, Option.some.injEq] at h
      subst h
      rw [hexit] at hw
      cases hw
  | wait w' =>
      simp only [hexit] at h
      split at h
      · rename_i hpred
        simp only [finish, Option.map_map, Option.map_eq_some_iff] at h
        obtain ⟨_, _, rfl⟩ := h
        simp at hw
      · rename_i hpred
        simp only [Option.some.injEq] at h
        subst h
        rw [hexit] at hw
        cases hw
        simpa using hpred

omit [DecidableEq C] in
/-- A woken waiter that sleeps again does so at the same wait. -/
theorem wakeSection_wait {w w' : W} {d : D} {e : Section D W C R}
    (h : m.wakeSection w d = some e) (hw : e.exit = .wait w') : w' = w := by
  simp only [wakeSection, settle] at h
  split at h
  · simp only [finish, Option.map_map, Option.map_eq_some_iff] at h
    obtain ⟨_, _, rfl⟩ := h
    simp at hw
  · cases h
    cases hw
    rfl

theorem call_some {t : T} {op : Op} {c c' : Config T D W} {r : Option R}
    (h : m.call t op c = some (c', r)) :
    c.thr t = .out ∧ ∃ e, m.enterSection op c.data = some e ∧ m.apply t e c = (c', r) := by
  unfold call at h
  cases hthr : c.thr t with
  | out =>
      simp only [hthr, Option.map_eq_some_iff] at h
      exact ⟨rfl, h⟩
  | asleep w => simp [hthr] at h
  | woken w => simp [hthr] at h

theorem recheck_some {t : T} {c c' : Config T D W} {r : Option R}
    (h : m.recheck t c = some (c', r)) :
    ∃ w, c.thr t = .woken w ∧
      ∃ e, m.wakeSection w c.data = some e ∧ m.apply t e c = (c', r) := by
  unfold recheck at h
  cases hthr : c.thr t with
  | out => simp [hthr] at h
  | asleep w => simp [hthr] at h
  | woken w =>
      simp only [hthr, Option.map_eq_some_iff] at h
      exact ⟨w, rfl, h⟩

theorem timeout_some {t : T} {c c' : Config T D W} {r : Option R}
    (h : m.timeout t c = some (c', r)) :
    ∃ w, (c.thr t).waiting = some w ∧ m.timed w = true ∧
      ∃ e, m.finish w c.data = some e ∧ m.apply t e c = (c', r) := by
  unfold timeout at h
  split at h
  · rename_i w hw
    split at h
    · rename_i htimed
      simp only [Option.map_eq_some_iff] at h
      exact ⟨w, hw, htimed, h⟩
    · cases h
  · cases h

omit [DecidableEq C] in
theorem spurious_some {t : T} {c c' : Config T D W} (h : spurious t c = some c') :
    ∃ w, c.thr t = .asleep w ∧ c' = { c with thr := Function.update c.thr t (.woken w) } := by
  unfold spurious at h
  cases hthr : c.thr t with
  | out => simp [hthr] at h
  | woken w => simp [hthr] at h
  | asleep w =>
      simp only [hthr, Option.some.injEq] at h
      exact ⟨w, rfl, h.symm⟩

omit [DecidableEq C] in
/-- A spurious wake-up changes neither the data nor who is at which wait. -/
theorem spurious_frame {t : T} {c c' : Config T D W} (h : spurious t c = some c') :
    c'.data = c.data ∧ ∀ t', (c'.thr t').waiting = (c.thr t').waiting := by
  obtain ⟨w, hw, rfl⟩ := spurious_some h
  refine ⟨rfl, fun t' => ?_⟩
  by_cases heq : t' = t
  · subst heq
    simp [hw, Status.waiting]
  · simp [heq]

omit [DecidableEq C] in
/-- Nor does it put anybody to sleep. -/
theorem asleep_of_spurious {t t' : T} {c c' : Config T D W} {w : W}
    (h : spurious t c = some c') (hw : c'.thr t' = .asleep w) : c.thr t' = .asleep w := by
  obtain ⟨w', -, rfl⟩ := spurious_some h
  by_cases heq : t' = t
  · subst heq
    simp at hw
  · simpa [heq] using hw

/-- A step of an operation is its first critical section or that of a woken
    waiter. -/
theorem advance_some {t : T} {op : Op} {c c' : Config T D W} {r : Option R}
    (h : m.advance t op c = some (c', r)) :
    (c.thr t = .out ∧ m.call t op c = some (c', r)) ∨
      ∃ w, c.thr t = .woken w ∧ m.recheck t c = some (c', r) := by
  unfold advance at h
  cases hthr : c.thr t with
  | out =>
      simp only [hthr] at h
      exact .inl ⟨rfl, h⟩
  | asleep w =>
      simp only [hthr, recheck, reduceCtorEq] at h
  | woken w =>
      simp only [hthr] at h
      exact .inr ⟨w, rfl, h⟩

theorem advance_of_call {t : T} {op : Op} {c c' : Config T D W} {r : Option R}
    (h : m.call t op c = some (c', r)) : m.advance t op c = some (c', r) := by
  rw [advance, (m.call_some h).1]
  exact h

/-- A thread that is out can take the first section of an operation. -/
theorem advance_of_out {t : T} {op : Op} {c : Config T D W} {e : Section D W C R}
    (hout : c.thr t = .out) (hsec : m.enterSection op c.data = some e) :
    m.advance t op c = some (m.apply t e c) := by
  rw [advance, hout]
  simp only [call, hout, hsec, Option.map_some]

/-- A woken thread can take its wait's section. -/
theorem advance_of_woken {t : T} {op : Op} {c : Config T D W} {w : W} {e : Section D W C R}
    (hw : c.thr t = .woken w) (hsec : m.wakeSection w c.data = some e) :
    m.advance t op c = some (m.apply t e c) := by
  rw [advance, hw]
  simp only [recheck, hw, hsec, Option.map_some]

theorem advance_of_recheck {t : T} {op : Op} {c c' : Config T D W} {r : Option R}
    (h : m.recheck t c = some (c', r)) : m.advance t op c = some (c', r) := by
  obtain ⟨w, hw, -⟩ := m.recheck_some h
  rw [advance, hw]
  exact h

omit [DecidableEq C] in
theorem settle_ne_none (hafter : ∀ w d, m.after w d ≠ none) (e : Section D W C R) :
    m.settle e ≠ none := by
  unfold settle
  cases e.exit with
  | ret r => simp
  | wait w =>
      obtain ⟨x, hx⟩ := Option.ne_none_iff_exists'.mp (hafter w e.data)
      by_cases hpred : m.pred w e.data = true
      · simp [hpred, finish, hx]
      · simp [hpred]

/-- Where no section is undefined, a thread that is awake can go on. -/
theorem advance_of_awake {t : T} {c : Config T D W} (henter : ∀ op d, m.enter op d ≠ none)
    (hafter : ∀ w d, m.after w d ≠ none) (hawake : ∀ w, c.thr t ≠ .asleep w) (op : Op) :
    m.advance t op c ≠ none := by
  cases hthr : c.thr t with
  | out =>
      obtain ⟨e₀, he₀⟩ := Option.ne_none_iff_exists'.mp (henter op c.data)
      obtain ⟨e, he⟩ := Option.ne_none_iff_exists'.mp (m.settle_ne_none hafter e₀)
      have hsec : m.enterSection op c.data = some e := by
        rw [enterSection, he₀, Option.bind_some, he]
      simp [m.advance_of_out hthr hsec]
  | woken w =>
      obtain ⟨e, he⟩ :=
        Option.ne_none_iff_exists'.mp (m.settle_ne_none hafter ⟨c.data, [], .wait w⟩)
      have hadv : m.advance t op c = some (m.apply t e c) := m.advance_of_woken hthr he
      simp [hadv]
  | asleep w => exact absurd hthr (hawake w)

/-- A section moves nobody but its own thread, which is out exactly when the
    operation has returned. -/
theorem apply_frame {t : T} {e : Section D W C R} {c c' : Config T D W} {r : Option R}
    (h : m.apply t e c = (c', r)) :
    (∀ t', t' ≠ t → (c'.thr t').waiting = (c.thr t').waiting) ∧
      (c'.thr t = .out ↔ r.isSome = true) := by
  have hc' : c' = (m.apply t e c).1 := by rw [h]
  have hr : r = e.exit.result := by
    rw [apply, Prod.mk.injEq] at h
    exact h.2.symm
  subst hc' hr
  refine ⟨fun t' hne => by rw [m.apply_thr_of_ne hne, waiting_notify], ?_⟩
  rw [apply_thr_self]
  cases e.exit <;> simp [Exit.status, Exit.result]

/-- The same for a step of an operation. -/
theorem advance_frame {t : T} {op : Op} {c c' : Config T D W} {r : Option R}
    (h : m.advance t op c = some (c', r)) :
    (∀ t', t' ≠ t → (c'.thr t').waiting = (c.thr t').waiting) ∧
      (c'.thr t = .out ↔ r.isSome = true) := by
  rcases m.advance_some h with ⟨-, hcall⟩ | ⟨w, -, hcheck⟩
  · obtain ⟨-, e, -, happ⟩ := m.call_some hcall
    exact m.apply_frame happ
  · obtain ⟨w, -, e, -, happ⟩ := m.recheck_some hcheck
    exact m.apply_frame happ

/-- An operation that never waits returns with its first section. -/
theorem returns_of_advance {t : T} {op : Op} {c c' : Config T D W} {r : Option R} {d : D}
    {ns : List C} {x : R} (h : m.advance t op c = some (c', r)) (hout : c.thr t = .out)
    (hsec : m.enterSection op c.data = some ⟨d, ns, .ret x⟩) : c'.data = d ∧ c'.thr t = .out := by
  rw [m.advance_of_out hout hsec] at h
  have hc' : c' = (m.apply t ⟨d, ns, .ret x⟩ c).1 := by rw [Option.some.inj h]
  rw [hc', apply_data, apply_thr_self]
  exact ⟨rfl, rfl⟩

/-- An operation whose thread waits has not returned. -/
theorem none_of_waiting {t : T} {op : Op} {c c' : Config T D W} {r : Option R} {w : W}
    (h : m.advance t op c = some (c', r)) (hw : (c'.thr t).waiting = some w) : r = none := by
  cases hr : r with
  | none => rfl
  | some x =>
      rw [(m.advance_frame h).2.mpr (by rw [hr]; rfl)] at hw
      cases hw

/-- A step only puts its own thread to sleep, -/
theorem asleep_of_advance {t t' : T} {op : Op} {c c' : Config T D W} {r : Option R} {w : W}
    (h : m.advance t op c = some (c', r)) (hne : t' ≠ t) (hw : c'.thr t' = .asleep w) :
    c.thr t' = .asleep w := by
  have happly : ∀ e, m.apply t e c = (c', r) → c.thr t' = .asleep w := by
    intro e happ
    have hc' : c' = (m.apply t e c).1 := by rw [happ]
    rw [hc', m.apply_thr_of_ne hne, notify_eq_asleep] at hw
    exact hw.1
  rcases m.advance_some h with ⟨-, hcall⟩ | ⟨w', -, hcheck⟩
  · obtain ⟨-, e, -, happ⟩ := m.call_some hcall
    exact happly e happ
  · obtain ⟨w', -, e, -, happ⟩ := m.recheck_some hcheck
    exact happly e happ

/-- and does so only on a predicate that is false. -/
theorem pred_of_asleep {t : T} {op : Op} {c c' : Config T D W} {r : Option R} {w : W}
    (h : m.advance t op c = some (c', r)) (hw : c'.thr t = .asleep w) :
    m.pred w c'.data = false := by
  have happly : ∀ e e₀, m.settle e₀ = some e → m.apply t e c = (c', r) →
      m.pred w c'.data = false := by
    intro e e₀ hsettle happ
    have hc' : c' = (m.apply t e c).1 := by rw [happ]
    rw [hc', apply_thr_self] at hw
    rw [hc', apply_data]
    cases hexit : e.exit with
    | ret x => rw [hexit] at hw; cases hw
    | wait w' =>
        rw [hexit] at hw
        cases hw
        exact m.settle_wait hsettle hexit
  rcases m.advance_some h with ⟨-, hcall⟩ | ⟨w', -, hcheck⟩
  · obtain ⟨-, e, hsec, happ⟩ := m.call_some hcall
    obtain ⟨e₀, -, hsettle⟩ := Option.bind_eq_some_iff.mp hsec
    exact happly e e₀ hsettle happ
  · obtain ⟨w', -, e, hsec, happ⟩ := m.recheck_some hcheck
    exact happly e _ hsec happ

theorem sessions_step {init : D → Prop} {s s' : Session T D Op W} {e : MonitorEv T Op}
    (h : (m.sessions T init).step s e = some s') :
    (∃ r, m.stepRet s.cfg e = some (s'.cfg, r)) ∧ s'.calls = callsAfter s.calls e := by
  simp only [sessions, Option.map_eq_some_iff] at h
  obtain ⟨⟨c, r⟩, hstep, rfl⟩ := h
  exact ⟨⟨r, hstep⟩, rfl⟩

-- ============================================================================
-- No lost wake-up
-- ============================================================================

/-- No thread sleeps un-notified on a predicate that is true. -/
def Alert (c : Config T D W) : Prop :=
  ∀ t w, c.thr t = .asleep w → m.pred w c.data = false

/-- A section keeps the monitor alert if it does not itself sleep on a true
    predicate, and notifies whoever sleeps on a predicate it makes true. -/
theorem Alert.apply {t : T} {e : Section D W C R} {c : Config T D W} (h : m.Alert c)
    (hself : ∀ w, e.exit = .wait w → m.pred w e.data = false)
    (hcover : ∀ t' w, t' ≠ t → c.thr t' = .asleep w → m.pred w c.data = false →
      m.cond w ∉ e.notified → m.pred w e.data = false) :
    m.Alert (m.apply t e c).1 := by
  intro t' w ht'
  by_cases heq : t' = t
  · subst heq
    rw [apply_thr_self] at ht'
    cases hexit : e.exit with
    | ret r => rw [hexit] at ht'; cases ht'
    | wait w' =>
        rw [hexit] at ht'
        cases ht'
        exact hself w hexit
  · rw [m.apply_thr_of_ne heq, notify_eq_asleep] at ht'
    exact hcover t' w heq ht'.1 (h t' w ht'.1) ht'.2

omit [DecidableEq C] in
/-- A spurious wake-up only wakes. -/
theorem Alert.spurious {t : T} {c c' : Config T D W} (h : m.Alert c)
    (hs : Monitor.spurious t c = some c') : m.Alert c' := by
  obtain ⟨w, hw, rfl⟩ := spurious_some hs
  intro t' w' ht'
  by_cases heq : t' = t
  · subst heq
    simp at ht'
  · simp only [Function.update_of_ne heq] at ht'
    exact h t' w' ht'

/-- No thread sleeps un-notified on a predicate that the section `e` leaves true. -/
def Covers (e : Section D W C R) (c : Config T D W) : Prop :=
  ∀ t w, c.thr t = .asleep w → m.cond w ∉ e.notified → m.pred w e.data = false

omit [DecidableEq T] [DecidableEq C] in
/-- A section that changes no data covers what it leaves. -/
theorem Alert.covers {e : Section D W C R} {c : Config T D W} (h : m.Alert c)
    (hdata : e.data = c.data) : m.Covers e c := by
  intro t w hw _
  rw [hdata]
  exact h t w hw

omit [DecidableEq T] [DecidableEq C] in
/-- A section that notifies nobody covers what it leaves if nobody sleeps on a
    predicate that it leaves true. -/
theorem covers_silent_iff {e : Section D W C R} {c : Config T D W} (hnot : e.notified = []) :
    m.Covers e c ↔ ∀ w, m.pred w e.data = true → ∀ t, c.thr t ≠ .asleep w := by
  simp only [Covers, hnot, List.not_mem_nil, not_false_eq_true, true_implies]
  constructor
  · intro h w hpred t ht
    rw [h t w ht] at hpred
    cases hpred
  · intro h t w ht
    rw [← Bool.not_eq_true]
    exact fun hpred => h w hpred t ht

/-- What the section of an awake thread has to do to keep the monitor alert. -/
theorem alert_apply_iff {t : T} {e : Section D W C R} {c : Config T D W}
    (hawake : ∀ w, c.thr t ≠ .asleep w) (hself : ∀ w, e.exit = .wait w → m.pred w e.data = false) :
    m.Alert (m.apply t e c).1 ↔ m.Covers e c := by
  constructor
  · intro h t' w hw hnot
    have hne : t' ≠ t := fun heq => hawake w (heq ▸ hw)
    refine h t' w ?_
    rw [m.apply_thr_of_ne hne, notify_eq_asleep]
    exact ⟨hw, hnot⟩
  · intro h t' w hw
    by_cases heq : t' = t
    · subst heq
      rw [apply_thr_self] at hw
      cases hexit : e.exit with
      | ret r => rw [hexit] at hw; cases hw
      | wait w' =>
          rw [hexit] at hw
          cases hw
          exact hself w hexit
    · rw [m.apply_thr_of_ne heq, notify_eq_asleep] at hw
      exact h t' w hw.1 hw.2

/-- Whatever state `e` leads to is alert. -/
def LeavesAlert (c : Config T D W) (e : MonitorEv T Op) : Prop :=
  ∀ c' r, m.stepRet c e = some (c', r) → m.Alert c'

section LeavesAlert

variable {init : D → Prop} {Q : Config T D W → MonitorEv T Op → Prop} {c c' : Config T D W}
  {e : MonitorEv T Op}

/-- If woken threads cover what they change and no wait is timed, only calls
    can leave a sleeper behind. -/
theorem leavesAlert_iff (h : m.Alert c) (htimed : ∀ w, m.timed w = false)
    (hwake : ∀ w e, m.wakeSection w c.data = some e → m.Covers e c)
    (hcall : ∀ t op e, m.enterSection op c.data = some e → (m.Covers e c ↔ Q c (.call t op)))
    (hrest : (∀ t op, e ≠ .call t op) → Q c e) (hs : (m.stepRet c e).isSome = true) :
    m.LeavesAlert c e ↔ Q c e := by
  obtain ⟨⟨c', r⟩, hs⟩ := Option.isSome_iff_exists.mp hs
  have hiff : m.LeavesAlert c e ↔ m.Alert c' := by
    constructor
    · exact fun hleaves => hleaves c' r hs
    · intro halert c₁ r₁ hs₁
      cases hs.symm.trans hs₁
      exact halert
  rw [hiff]
  cases e with
  -- the one case that `Q` decides
  | call t op =>
      obtain ⟨hout, sec, hsec, happ⟩ := m.call_some hs
      have hc' : c' = (m.apply t sec c).1 := by rw [happ]
      rw [hc', ← hcall t op sec hsec]
      refine m.alert_apply_iff (by simp [hout]) fun w hw => ?_
      obtain ⟨sec₀, -, hsettle⟩ := Option.bind_eq_some_iff.mp hsec
      exact m.settle_wait hsettle hw
  -- a woken thread covers what it changes
  | recheck t =>
      refine iff_of_true ?_ (hrest (by simp))
      obtain ⟨w, hw, sec, hsec, happ⟩ := m.recheck_some hs
      have hc' : c' = (m.apply t sec c).1 := by rw [happ]
      rw [hc', m.alert_apply_iff (by simp [hw]) fun w' hw' => m.settle_wait hsec hw']
      exact hwake w sec hsec
  | spurious t =>
      refine iff_of_true ?_ (hrest (by simp))
      simp only [stepRet, Option.map_eq_some_iff, Prod.mk.injEq] at hs
      obtain ⟨c₁, hsp, rfl, -⟩ := hs
      exact h.spurious _ hsp
  | timeout t =>
      obtain ⟨w, -, ht, -⟩ := m.timeout_some hs
      rw [htimed w] at ht
      cases ht

/-- The same along runs, from a state in which nobody is inside. -/
theorem run_leavesAlert_iff {evs : List (MonitorEv T Op)} (hthr : ∀ t, c.thr t = .out)
    (htimed : ∀ w, m.timed w = false)
    (hwake : ∀ (c : Config T D W) w e, m.Alert c → m.wakeSection w c.data = some e →
      m.Covers e c)
    (hcall : ∀ (c : Config T D W) t op e, m.Alert c → m.enterSection op c.data = some e →
      (m.Covers e c ↔ Q c (.call t op)))
    (hrest : ∀ (c : Config T D W) e, (∀ t op, e ≠ .call t op) → Q c e) :
    (m.system T init).Run m.LeavesAlert c evs c' ↔ (m.system T init).Run Q c evs c' := by
  refine System.run_iff_of_invariant (I := m.Alert) ?_ ?_ ?_
  · intro t w hw
    rw [hthr t] at hw
    cases hw
  · intro c e c' halert hs
    refine m.leavesAlert_iff halert htimed (fun w e => hwake c w e halert)
      (fun t op e => hcall c t op e halert) (hrest c e) ?_
    simpa [system] using Option.isSome_of_eq_some hs
  · intro c e c' _ hleaves hs
    simp only [system, Option.map_eq_some_iff] at hs
    obtain ⟨⟨c₁, r⟩, hstep, rfl⟩ := hs
    exact hleaves c₁ r hstep

end LeavesAlert

-- ============================================================================
-- Counting the threads at a wait
-- ============================================================================

variable [DecidableEq W]

/-- Exactly `k` threads are at the wait `w`. -/
def HasCount (w : W) (k : Int) (c : Config T D W) : Prop :=
  ∃ S : Finset T, (∀ t, t ∈ S ↔ (c.thr t).waiting = some w) ∧ (S.card : Int) = k

/-- A section moves the count by its own thread only. -/
theorem HasCount.apply {w : W} {k : Int} {c : Config T D W} (h : HasCount w k c)
    (t : T) (e : Section D W C R) :
    HasCount w (k - (if (c.thr t).waiting = some w then 1 else 0)
      + (if e.exit.status.waiting = some w then 1 else 0)) (m.apply t e c).1 := by
  obtain ⟨S, hS, hk⟩ := h
  have hother : ∀ t', t' ≠ t →
      (((m.apply t e c).1.thr t').waiting = some w ↔ t' ∈ S) := by
    intro t' ht'
    rw [m.apply_thr_of_ne ht', waiting_notify, hS]
  -- `t` is at `w` after the section, or not; before it, it was or was not
  by_cases hafter : e.exit.status.waiting = some w
  · refine ⟨insert t S, ?_, ?_⟩
    · intro t'
      by_cases heq : t' = t
      · subst heq; simp [hafter]
      · rw [hother t' heq, Finset.mem_insert, or_iff_right heq]
    · by_cases hbefore : (c.thr t).waiting = some w
      · rw [Finset.insert_eq_of_mem ((hS t).mpr hbefore), if_pos hbefore, if_pos hafter]
        omega
      · rw [Finset.card_insert_of_notMem (fun hm => hbefore ((hS t).mp hm)), if_neg hbefore,
          if_pos hafter]
        push_cast
        omega
  · refine ⟨S.erase t, ?_, ?_⟩
    · intro t'
      by_cases heq : t' = t
      · subst heq; simp [hafter]
      · rw [hother t' heq, Finset.mem_erase, and_iff_right heq]
    · by_cases hbefore : (c.thr t).waiting = some w
      · have hmem := (hS t).mpr hbefore
        have hpos := Finset.card_pos.mpr ⟨t, hmem⟩
        rw [Finset.card_erase_of_mem hmem, if_pos hbefore, if_neg hafter]
        omega
      · rw [Finset.erase_eq_of_notMem (fun hm => hbefore ((hS t).mp hm)), if_neg hbefore,
          if_neg hafter]
        omega

omit [DecidableEq W] in
/-- A spurious wake-up moves no count. -/
theorem HasCount.spurious {t : T} {w : W} {k : Int} {c c' : Config T D W}
    (h : HasCount w k c) (hs : Monitor.spurious t c = some c') : HasCount w k c' := by
  obtain ⟨S, hS, hk⟩ := h
  exact ⟨S, fun t' => by rw [hS, (spurious_frame hs).2], hk⟩

omit [DecidableEq T] [DecidableEq W] in
/-- A count of zero means nobody is there. -/
theorem HasCount.none_of_zero {w : W} {c : Config T D W} (h : HasCount w 0 c) (t : T) :
    (c.thr t).waiting ≠ some w := by
  obtain ⟨S, hS, hk⟩ := h
  have hempty : S = ∅ := Finset.card_eq_zero.mp (by omega)
  intro hw
  have hmem := (hS t).mpr hw
  rw [hempty] at hmem
  exact Finset.notMem_empty t hmem

omit [DecidableEq T] [DecidableEq W] in
/-- A count other than zero means somebody is there. -/
theorem HasCount.exists_of_ne_zero {w : W} {k : Int} {c : Config T D W} (h : HasCount w k c)
    (hk0 : k ≠ 0) : ∃ t, (c.thr t).waiting = some w := by
  obtain ⟨S, hS, hk⟩ := h
  have hne : S.Nonempty := Finset.card_pos.mp (by omega)
  obtain ⟨t, ht⟩ := hne
  exact ⟨t, (hS t).mp ht⟩

omit [DecidableEq T] [DecidableEq W] in
/-- If only threads of a finite set `A` ever get to the wait and the count is
    the size of `A`, then all of them are there. -/
theorem HasCount.all_of_card {w : W} {c : Config T D W} {A : Finset T}
    (h : HasCount w A.card c) (hA : ∀ t, (c.thr t).waiting = some w → t ∈ A) {t : T}
    (ht : t ∈ A) : (c.thr t).waiting = some w := by
  obtain ⟨S, hS, hk⟩ := h
  have hsub : S ⊆ A := fun t' ht' => hA t' ((hS t').mp ht')
  have heq : S = A := Finset.eq_of_subset_of_card_le hsub (by omega)
  exact (hS t).mp (heq ▸ ht)

omit [DecidableEq T] [DecidableEq W] in
/-- If the threads of a finite set are the ones at the wait, the count is its size. -/
theorem HasCount.eq_card {w : W} {k : Int} {c : Config T D W} {A : Finset T}
    (h : HasCount w k c) (hA : ∀ t, t ∈ A ↔ (c.thr t).waiting = some w) : k = A.card := by
  obtain ⟨S, hS, hk⟩ := h
  have heq : S = A := by
    ext t
    rw [hS, hA]
  rw [← hk, heq]

end Monitor
end Lib
end Fredlib
