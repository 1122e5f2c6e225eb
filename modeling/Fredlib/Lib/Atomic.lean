/-
  Fredlib.Lib.Atomic

  Calls by any number of threads, and objects whose operations are atomic.

  A thread invokes an operation, takes steps inside the object, and gets the answer
  some time after it has left it; what can be seen from outside is the history of
  invocations and responses.  An atomic object performs an operation in one step
  somewhere between the two.  An object is linearizable if an atomic one has each of its
  histories.

  `Monitor.Atomic.traced`: so is a monitor, if each critical section either only waits or
  does what its operation does to the abstract value.
-/

import Fredlib.Lib.Monitor

namespace Fredlib
namespace Lib

-- ============================================================================
-- Calls
-- ============================================================================

/-- Where a thread stands with its calls. -/
inductive Clients.Pc (Op V : Type*)
  | idle
  | called (o : Op)
  | returned (v : V)

/-- An object with the threads that use it. -/
structure Clients (S T Op V : Type*) where
  state : S
  pc : T → Clients.Pc Op V

namespace Clients

/-- Invocations, steps inside the object, and responses. -/
inductive Ev (T Op M : Type*)
  | invoke (t : T) (o : Op)
  | act (t : T) (move : M)
  | respond (t : T)

/-- What can be seen of them. -/
inductive Action (T Op V : Type*)
  | invoke (t : T) (o : Op)
  | respond (t : T) (v : V)

variable {S Q T Op V M : Type*} [DecidableEq T]

/-- The thread leaves the object, if there is an answer. -/
def answer (t : T) (pc : T → Pc Op V) : Option V → T → Pc Op V
  | some v => Function.update pc t (.returned v)
  | none => pc

def step (act : T → Op → M → S → Option (S × Option V)) (s : Clients S T Op V) :
    Ev T Op M → Option (Clients S T Op V)
  | .invoke t o =>
      match s.pc t with
      | .idle => some { s with pc := Function.update s.pc t (.called o) }
      | _ => none
  | .act t move =>
      match s.pc t with
      | .called o => (act t o move s.state).map fun r => ⟨r.1, answer t s.pc r.2⟩
      | _ => none
  | .respond t =>
      match s.pc t with
      | .returned _ => some { s with pc := Function.update s.pc t .idle }
      | _ => none

/-- The history of a run. -/
def history (s : Clients S T Op V) : Ev T Op M → List (Action T Op V)
  | .invoke t o => [.invoke t o]
  | .act _ _ => []
  | .respond t =>
      match s.pc t with
      | .returned v => [.respond t v]
      | _ => []

/-- Any number of threads around an object, none of them inside at the start. -/
def system (act : T → Op → M → S → Option (S × Option V)) (init : S → Prop) :
    System (Clients S T Op V) (Ev T Op M) where
  init s := init s.state ∧ ∀ t, s.pc t = .idle
  step := step act

/-- An operation performed in one step. -/
def perform (spec : Op → Q → Option (V × Q)) (_ : T) (o : Op) (_ : Unit) (q : Q) :
    Option (Q × Option V) :=
  (spec o q).map fun r => (r.2, some r.1)

/-- **The atomic object** with these operations. -/
abbrev atomic (T : Type*) [DecidableEq T] (spec : Op → Q → Option (V × Q)) (q₀ : Q) :
    System (Clients Q T Op V) (Ev T Op Unit) :=
  system (perform spec) (· = q₀)

variable {act : T → Op → M → S → Option (S × Option V)} {s s' : Clients S T Op V} {t : T} {o : Op}
  {v : V} {move : M}

theorem step_invoke (h : step act s (.invoke t o) = some s') :
    s.pc t = .idle ∧ s' = { s with pc := Function.update s.pc t (.called o) } := by
  simp only [step] at h
  split at h
  · rename_i hpc
    exact ⟨hpc, (Option.some.inj h).symm⟩
  · cases h

theorem step_act (h : step act s (.act t move) = some s') :
    ∃ o c r, s.pc t = .called o ∧ act t o move s.state = some (c, r) ∧ s' = ⟨c, answer t s.pc r⟩ := by
  simp only [step] at h
  split at h
  · rename_i o hpc
    obtain ⟨⟨c, r⟩, hact, rfl⟩ := Option.map_eq_some_iff.mp h
    exact ⟨o, c, r, hpc, hact, rfl⟩
  · cases h

theorem step_respond (h : step act s (.respond t) = some s') :
    ∃ v, s.pc t = .returned v ∧ s' = { s with pc := Function.update s.pc t .idle } := by
  simp only [step] at h
  split at h
  · rename_i v hpc
    exact ⟨v, hpc, (Option.some.inj h).symm⟩
  · cases h

variable (act) in
theorem step_of_idle (hpc : s.pc t = .idle) :
    step act s (.invoke t o) = some { s with pc := Function.update s.pc t (.called o) } := by
  simp only [step, hpc]

variable (act) in
theorem step_of_called (hpc : s.pc t = .called o) :
    step act s (.act t move) =
      (act t o move s.state).map fun r => ⟨r.1, answer t s.pc r.2⟩ := by
  simp only [step, hpc]

variable (act) in
theorem step_of_returned (hpc : s.pc t = .returned v) :
    step act s (.respond t) = some { s with pc := Function.update s.pc t .idle } := by
  simp only [step, hpc]

end Clients

-- ============================================================================
-- Monitors
-- ============================================================================

namespace Monitor

open Clients

/-- What a thread that has called an operation may do. -/
inductive Move
  | enter
  | recheck
  | spurious
  | timeout

variable {T D Op W C V Q : Type*} [DecidableEq T] [DecidableEq C] (m : Monitor D Op W C V)

/-- The event of a move. -/
def Move.event (t : T) (o : Op) : Move → MonitorEv T Op
  | .enter => .call t o
  | .recheck => .recheck t
  | .spurious => .spurious t
  | .timeout => .timeout t

/-- The steps inside a monitor. -/
def act (t : T) (o : Op) (move : Move) (c : Config T D W) : Option (Config T D W × Option V) :=
  m.stepRet c (move.event t o)

/-- The monitor with the threads that use it. -/
def clients (T : Type*) [DecidableEq T] (init : D → Prop) :
    System (Clients (Config T D W) T Op V) (Ev T Op Move) :=
  Clients.system m.act fun c => init c.data ∧ ∀ t, c.thr t = .out

/-- Every caller keeps its promise when it takes the lock. -/
def Callers (promise : D → Op → Prop) (s : Clients (Config T D W) T Op V) : Ev T Op Move → Prop
  | .act t .enter => ∀ o, s.pc t = .called o → promise s.state.data o
  | _ => True

/-- Behind its mutex, the monitor alone. -/
theorem clients_projects (init : D → Prop) (ok : Clients (Config T D W) T Op V → Ev T Op Move → Prop) :
    System.Projects (m.clients T init) (m.system T init) ok
      (fun s e e' => ∃ t o move, e = .act t move ∧ s.pc t = .called o ∧ e' = move.event t o)
      Clients.state where
  init _ h := h.1
  step := by
    intro s e s' _ _ hs
    replace hs : step m.act s e = some s' := hs
    cases e with
    | invoke t o =>
        obtain ⟨-, rfl⟩ := step_invoke hs
        exact .inl rfl
    | act t move =>
        obtain ⟨o, c, r, hpc, hact, rfl⟩ := step_act hs
        refine .inr ⟨move.event t o, ⟨t, o, move, rfl, hpc, rfl⟩, ?_⟩
        exact congrArg (Option.map Prod.fst) hact
    | respond t =>
        obtain ⟨v, -, rfl⟩ := step_respond hs
        exact .inl rfl

/-- A section that waits leaves the abstract value as it is, and one that returns does what
    `o` does to it. -/
def Does (spec : Op → Q → Option (V × Q)) (R : D → Q → Prop) (o : Op) (q : Q)
    (e : Section D W C V) : Prop :=
  match e.exit.result with
  | none => R e.data q
  | some v => ∃ q', spec o q = some (v, q') ∧ R e.data q'

/-- All sections do what their operations do, where `op` tells the operation of a wait. -/
structure Atomic (spec : Op → Q → Option (V × Q)) (op : W → Op) (promise : D → Op → Prop)
    (R : D → Q → Prop) : Prop where
  waits : ∀ {o d e w}, m.enterSection o d = some e → e.exit = .wait w → op w = o
  enter : ∀ {o d q e}, R d q → promise d o → m.enterSection o d = some e → Does spec R o q e
  wake : ∀ {w d q e}, R d q → m.wakeSection w d = some e → Does spec R (op w) q e
  timeout : ∀ {w d q e}, R d q → m.timed w = true → m.finish w d = some e → Does spec R (op w) q e

/-- The atomic object is in the same state: a thread at a wait has called its operation. -/
structure Agrees (op : W → Op) (R : D → Q → Prop) (s : Clients (Config T D W) T Op V)
    (a : Clients Q T Op V) : Prop where
  data : R s.state.data a.state
  pc : a.pc = s.pc
  waiting : ∀ t w, (s.state.thr t).waiting = some w → s.pc t = .called (op w)

variable {m} {spec : Op → Q → Option (V × Q)} {op : W → Op} {promise : D → Op → Prop}
  {R : D → Q → Prop} {s s' : Clients (Config T D W) T Op V} {a : Clients Q T Op V} {t : T} {o : Op}
  {e : Section D W C V} {c : Config T D W} {r : Option V} {move : Move}

/-- A section of a thread that has called `o`: nothing happens to the atomic object, or it
    performs `o`. -/
theorem Agrees.section (h : Agrees op R s a) (hpc : s.pc t = .called o)
    (hdoes : Does spec R o a.state e) (hwaits : ∀ w, e.exit = .wait w → op w = o)
    (happly : m.apply t e s.state = (c, r)) :
    (r = none ∧ Agrees op R ⟨c, answer t s.pc r⟩ a) ∨
      ∃ v q, r = some v ∧ spec o a.state = some (v, q) ∧
        Agrees op R ⟨c, answer t s.pc r⟩ ⟨q, answer t a.pc r⟩ := by
  obtain ⟨hothers, -⟩ := m.apply_frame happly
  have hc : c = (m.apply t e s.state).1 := by rw [happly]
  have hdata : c.data = e.data := by rw [hc, m.apply_data]
  have hthr : c.thr t = e.exit.status := by rw [hc, m.apply_thr_self]
  have hr : r = e.exit.result := (congrArg Prod.snd happly).symm
  have hother : ∀ t' w, t' ≠ t → (c.thr t').waiting = some w → s.pc t' = .called (op w) :=
    fun t' w hne hw => h.waiting t' w ((hothers t' hne).symm.trans hw)
  cases hexit : e.exit with
  -- nothing has happened yet, and the thread is in the wait of its own call
  | wait w =>
      rw [hexit] at hthr hr
      cases hr
      rw [Does, hexit] at hdoes
      refine .inl ⟨rfl, hdata ▸ hdoes, h.pc, fun t' w' hw' => ?_⟩
      by_cases hself : t' = t
      · subst hself
        rw [hthr] at hw'
        cases hw'
        rw [hwaits _ hexit]
        exact hpc
      · exact hother t' w' hself hw'
  -- the section that returns is the effect of the operation
  | ret v =>
      rw [hexit] at hthr hr
      cases hr
      rw [Does, hexit] at hdoes
      obtain ⟨q, hspec, hR⟩ := hdoes
      refine .inr ⟨v, q, rfl, hspec, hdata ▸ hR, by rw [h.pc], fun t' w' hw' => ?_⟩
      by_cases hself : t' = t
      · subst hself
        rw [hthr] at hw'
        cases hw'
      · exact (Function.update_of_ne hself _ _).trans (hother t' w' hself hw')

/-- A step of a thread inside the monitor. -/
theorem Agrees.act (h : Agrees op R s a) (hm : m.Atomic spec op promise R)
    (hok : Callers promise s (.act t move)) (hpc : s.pc t = .called o)
    (hact : m.act t o move s.state = some (c, r)) :
    (r = none ∧ Agrees op R ⟨c, answer t s.pc r⟩ a) ∨
      ∃ v q, r = some v ∧ spec o a.state = some (v, q) ∧
        Agrees op R ⟨c, answer t s.pc r⟩ ⟨q, answer t a.pc r⟩ := by
  -- a thread that waits does so in the call it has made
  have hcalled : ∀ w, (s.state.thr t).waiting = some w → op w = o := by
    intro w hw
    have hcall := h.waiting t w hw
    rw [hpc] at hcall
    cases hcall
    rfl
  cases move with
  | enter =>
      obtain ⟨-, e, hsec, happly⟩ := m.call_some hact
      exact h.section hpc (hm.enter h.data (hok o hpc) hsec) (fun w hw => hm.waits hsec hw) happly
  | recheck =>
      obtain ⟨w, hw, e, hsec, happly⟩ := m.recheck_some hact
      have hop := hcalled w (by rw [hw]; rfl)
      refine h.section hpc (hop ▸ hm.wake h.data hsec) (fun w' hw' => ?_) happly
      rw [m.wakeSection_wait hsec hw', hop]
  | spurious =>
      obtain ⟨c', hspurious, heq⟩ := Option.map_eq_some_iff.mp hact
      cases heq
      obtain ⟨hdata, hwaiting⟩ := spurious_frame hspurious
      refine .inl ⟨rfl, ?_, h.pc, fun t' w hw => h.waiting t' w ?_⟩
      · show R c.data a.state
        rw [hdata]
        exact h.data
      · exact (hwaiting t').symm.trans hw
  -- a wait that gives up returns, so it does not wait again
  | timeout =>
      obtain ⟨w, hw, htimed, e, hsec, happly⟩ := m.timeout_some hact
      have hop := hcalled w hw
      refine h.section hpc (hop ▸ hm.timeout h.data htimed hsec) (fun w' hw' => ?_) happly
      obtain ⟨x, -, rfl⟩ := Option.map_eq_some_iff.mp hsec
      cases hw'

/-- **Monitors**: an atomic object has the history of every run. -/
theorem Atomic.traced {init : D → Prop} {q₀ : Q} (hm : m.Atomic spec op promise R)
    (hinit : ∀ d, init d → R d q₀) {log : List (Action T Op V)}
    (h : (m.clients T init).Traced (Callers promise) Clients.history log s) :
    ∃ a, (atomic T spec q₀).Traced (fun _ _ => True) Clients.history log a ∧ Agrees op R s a := by
  -- the simulation: an act of the monitor is the atomic one at the step that has the effect
  induction h with
  | @init s h0 =>
      obtain ⟨⟨hdata, hout⟩, hidle⟩ := h0
      refine ⟨⟨q₀, s.pc⟩, .init ⟨rfl, hidle⟩, hinit _ hdata, rfl, fun t w hw => ?_⟩
      rw [hout t] at hw
      cases hw
  | @step log s s' e _ hok hs ih =>
      obtain ⟨a, hlog, h⟩ := ih
      have hsame : ∀ t, a.pc t = s.pc t := fun t => congrFun h.pc t
      have hother : ∀ {t pc}, (∀ o, s.pc t ≠ .called o) → ∀ t' w,
          (s.state.thr t').waiting = some w → Function.update s.pc t pc t' = .called (op w) := by
        intro t pc hpc t' w hw
        have hcall := h.waiting t' w hw
        have hne : t' ≠ t := fun heq => hpc _ (heq ▸ hcall)
        exact (Function.update_of_ne hne _ _).trans hcall
      replace hs : step m.act s e = some s' := hs
      cases e with
      | invoke t o =>
          obtain ⟨hpc, rfl⟩ := step_invoke hs
          have hstep : (atomic T spec q₀).step a (.invoke t o) =
              some { a with pc := Function.update a.pc t (.called o) } :=
            step_of_idle (perform spec) ((hsame t).trans hpc)
          exact ⟨_, hlog.step trivial hstep, h.data, by rw [h.pc],
            hother fun o ho => by rw [hpc] at ho; cases ho⟩
      | act t move =>
          obtain ⟨o, c, r, hpc, hact, rfl⟩ := step_act hs
          rw [Clients.history, List.append_nil]
          -- before the effect, or without one, the atomic system does not move
          rcases h.act hm hok hpc hact with ⟨-, hagrees⟩ | ⟨v, q, rfl, hspec, hagrees⟩
          · exact ⟨a, hlog, hagrees⟩
          · have hstep : (atomic T spec q₀).step a (.act t ()) = some ⟨q, answer t a.pc (some v)⟩ := by
              refine (step_of_called (perform spec) ((hsame t).trans hpc)).trans ?_
              rw [perform, hspec, Option.map_some, Option.map_some]
            have hnext := hlog.step trivial hstep
            rw [Clients.history, List.append_nil] at hnext
            exact ⟨_, hnext, hagrees⟩
      | respond t =>
          obtain ⟨v, hpc, rfl⟩ := step_respond hs
          have hreturned : a.pc t = .returned v := (hsame t).trans hpc
          have hstep : (atomic T spec q₀).step a (.respond t) =
              some { a with pc := Function.update a.pc t .idle } :=
            step_of_returned (perform spec) hreturned
          have hnext := hlog.step trivial hstep
          rw [Clients.history, hreturned] at hnext
          rw [Clients.history, hpc]
          exact ⟨_, hnext, h.data, by rw [h.pc], hother fun o ho => by rw [hpc] at ho; cases ho⟩

end Monitor

end Lib
end Fredlib
