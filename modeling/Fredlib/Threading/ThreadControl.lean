/-
  Fredlib.Threading.ThreadControl

  `ThreadControl` of include/threading.hpp: one object that is a `SyncPoint`, a
  `FanInPoint` and a `PausePoint`, with a stop flag.

  The three bases keep their own mutex and their own counter of expected
  threads; `initialize` and `add_thread` go through them one after another, so
  that between two of their steps the counters disagree.  `set_threadnum` does
  the same, but nothing in the library calls it.
-/

import Fredlib.Threading.SyncPoint
import Fredlib.Threading.FanInPoint
import Fredlib.Threading.PausePoint

namespace Fredlib

open Lib Lib.Monitor

/-- The threads around a pool: its clients, and the workers it has created. -/
inductive Tid (ι : Type*)
  | client (c : ι)
  | worker (i : Nat)
  deriving DecidableEq

/-- `t` is a worker. -/
def Tid.IsWorker {ι : Type*} : Tid ι → Prop
  | .client _ => False
  | .worker _ => True

/-- `ThreadControl`. -/
structure ThreadControl (T : Type*) where
  syncPoint : Config T SyncPoint SyncPoint.Wait
  fanIn : Config T FanInPoint FanInPoint.Wait
  pausePoint : Config T PausePoint PausePoint.Wait
  _stopper : Bool

namespace ThreadControl

/-- The bases. -/
inductive Base
  | syncPoint
  | fanIn
  | pausePoint
  deriving DecidableEq

/-- The base after `b` in `initialize` and `add_thread`. -/
def Base.next : Base → Option Base
  | .syncPoint => some .fanIn
  | .fanIn => some .pausePoint
  | .pausePoint => none

/-- The operations of the bases. -/
inductive Op
  | sync (op : SyncPoint.Op)
  | fanIn (op : FanInPoint.Op)
  | pause (op : PausePoint.Op)

/-- The step of `initialize` at the base `b`. -/
def initializeExpected (expected : Int) : Base → Op
  | .syncPoint => .sync (.initializeExpected expected)
  | .fanIn => .fanIn (.initializeExpected expected)
  | .pausePoint => .pause (.initializeExpected expected)

/-- The step of `add_thread` at the base `b`. -/
def addThread (num : Int) : Base → Op
  | .syncPoint => .sync (.addThread num)
  | .fanIn => .fanIn (.addThread num)
  | .pausePoint => .pause (.addThread num)

variable {T : Type*} [DecidableEq T]

/-- The constructor. -/
def create (expected : Int) : ThreadControl T where
  syncPoint := ⟨⟨expected⟩, fun _ => .out⟩
  fanIn := ⟨⟨expected⟩, fun _ => .out⟩
  pausePoint := ⟨PausePoint.create expected, fun _ => .out⟩
  _stopper := false

/-- The next step of `t` on its way through an operation of a base. -/
def advance (t : T) (op : Op) (tc : ThreadControl T) : Option (ThreadControl T × Option Unit) :=
  match op with
  | .sync op =>
      (SyncPoint.monitor.advance t op tc.syncPoint).map fun r => ({ tc with syncPoint := r.1 }, r.2)
  | .fanIn op =>
      (FanInPoint.monitor.advance t op tc.fanIn).map fun r => ({ tc with fanIn := r.1 }, r.2)
  | .pause op =>
      (PausePoint.monitor.advance t op tc.pausePoint).map fun r =>
        ({ tc with pausePoint := r.1 }, r.2)

/-- A thread asleep at the base `b` wakes up although nobody notified it. -/
def spurious (b : Base) (t : T) (tc : ThreadControl T) : Option (ThreadControl T) :=
  match b with
  | .syncPoint => (Monitor.spurious t tc.syncPoint).map fun c => { tc with syncPoint := c }
  | .fanIn => (Monitor.spurious t tc.fanIn).map fun c => { tc with fanIn := c }
  | .pausePoint => (Monitor.spurious t tc.pausePoint).map fun c => { tc with pausePoint := c }

/-- `stop`, before it waits in `FanInPoint::wait`. -/
def requestStop (tc : ThreadControl T) : ThreadControl T := { tc with _stopper := true }

/-- `stopRequired` -/
def stopRequired (tc : ThreadControl T) : Bool := tc._stopper

-- ============================================================================
-- What a step leaves alone
-- ============================================================================

variable {tc tc' : ThreadControl T} {t : T} {r : Option Unit}

theorem advance_sync {op : SyncPoint.Op} (h : tc.advance t (.sync op) = some (tc', r)) :
    ∃ c, SyncPoint.monitor.advance t op tc.syncPoint = some (c, r) ∧
      tc' = { tc with syncPoint := c } := by
  simp only [advance, Option.map_eq_some_iff, Prod.mk.injEq] at h
  obtain ⟨⟨c, r⟩, hc, rfl, rfl⟩ := h
  exact ⟨c, hc, rfl⟩

theorem advance_of_sync {op : SyncPoint.Op} {c : Config T SyncPoint SyncPoint.Wait}
    (h : SyncPoint.monitor.advance t op tc.syncPoint = some (c, r)) :
    tc.advance t (.sync op) = some ({ tc with syncPoint := c }, r) := by
  simp only [advance, h, Option.map_some]

theorem advance_fanIn {op : FanInPoint.Op} (h : tc.advance t (.fanIn op) = some (tc', r)) :
    ∃ c, FanInPoint.monitor.advance t op tc.fanIn = some (c, r) ∧ tc' = { tc with fanIn := c } := by
  simp only [advance, Option.map_eq_some_iff, Prod.mk.injEq] at h
  obtain ⟨⟨c, r⟩, hc, rfl, rfl⟩ := h
  exact ⟨c, hc, rfl⟩

theorem advance_pause {op : PausePoint.Op} (h : tc.advance t (.pause op) = some (tc', r)) :
    ∃ c, PausePoint.monitor.advance t op tc.pausePoint = some (c, r) ∧
      tc' = { tc with pausePoint := c } := by
  simp only [advance, Option.map_eq_some_iff, Prod.mk.injEq] at h
  obtain ⟨⟨c, r⟩, hc, rfl, rfl⟩ := h
  exact ⟨c, hc, rfl⟩

theorem advance_of_fanIn {op : FanInPoint.Op} {c : Config T FanInPoint FanInPoint.Wait}
    (h : FanInPoint.monitor.advance t op tc.fanIn = some (c, r)) :
    tc.advance t (.fanIn op) = some ({ tc with fanIn := c }, r) := by
  simp only [advance, h, Option.map_some]

theorem advance_of_pause {op : PausePoint.Op} {c : Config T PausePoint PausePoint.Wait}
    (h : PausePoint.monitor.advance t op tc.pausePoint = some (c, r)) :
    tc.advance t (.pause op) = some ({ tc with pausePoint := c }, r) := by
  simp only [advance, h, Option.map_some]

/-- Only `requestStop` changes the stop flag. -/
theorem advance_stopper {op : Op} (h : tc.advance t op = some (tc', r)) :
    tc'._stopper = tc._stopper := by
  cases op with
  | sync op =>
      obtain ⟨c, -, rfl⟩ := advance_sync h
      rfl
  | fanIn op =>
      obtain ⟨c, -, rfl⟩ := advance_fanIn h
      rfl
  | pause op =>
      obtain ⟨c, -, rfl⟩ := advance_pause h
      rfl

theorem spurious_stopper {b : Base} (h : tc.spurious b t = some tc') :
    tc'._stopper = tc._stopper := by
  cases b <;>
  · simp only [spurious, Option.map_eq_some_iff] at h
    obtain ⟨c, -, rfl⟩ := h
    rfl

/-- Only `pause` and `resume` change the pause flag. -/
theorem advance_mPause {op : Op} (h : tc.advance t op = some (tc', r)) (hp : op ≠ .pause .pause)
    (hr : op ≠ .pause .resume) : tc'.pausePoint.data.mPause = tc.pausePoint.data.mPause := by
  cases op with
  | sync op =>
      obtain ⟨c, -, rfl⟩ := advance_sync h
      rfl
  | fanIn op =>
      obtain ⟨c, -, rfl⟩ := advance_fanIn h
      rfl
  | pause op =>
      obtain ⟨c, hc, rfl⟩ := advance_pause h
      exact PausePoint.advance_mPause hc (fun hop => hp (congrArg _ hop))
        (fun hop => hr (congrArg _ hop))

theorem spurious_mPause {b : Base} (h : tc.spurious b t = some tc') :
    tc'.pausePoint.data.mPause = tc.pausePoint.data.mPause := by
  cases b <;>
  · simp only [spurious, Option.map_eq_some_iff] at h
    obtain ⟨c, hc, rfl⟩ := h
    first | rfl | rw [(spurious_frame hc).1]

end ThreadControl
end Fredlib
