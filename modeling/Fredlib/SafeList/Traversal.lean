/-
  Fredlib.SafeList.Traversal

  A range-for over a `SafeList` that other threads change meanwhile.

  The iterator holds a raw pointer to a node between two increments, and no lock.
  If that node is taken out, `unlink` sets its `next` to null, and the traversal
  ends there, whatever still followed it in the list.

  `Traversal` records which nodes have been visited and which have been linked
  ever since before `begin()`.  `traversal_iff`: the traversal, left alone from any
  moment on, visits the latter once each and in list order, if and only if nobody
  takes the node under the iterator away from in front of such a node, or puts
  it back in front of one.
-/

import Fredlib.SafeList.Iterator
import Fredlib.SafeList.PushFront
import Fredlib.SafeList.Threads

namespace Fredlib

open Lib Lib.DList Lib.Monitor SafeList Fronts

/-- A shared list, the iterator of the traversal once `begin()` has run, the nodes
    it has been at so far, and those linked ever since before `begin()`. -/
structure Traversal (T α : Type*) where
  cfg : Config T (ListMem α) Wait
  iter : Option (Iterator Unit α)
  visited : List α
  stayed : α → Prop

variable {T α : Type*} [DecidableEq T] [DecidableEq α]

namespace Traversal

/-- The steps: `begin()`, an increment of an iterator that is not `end()`, and those
    of the threads that use the list. -/
inductive Ev (T α : Type*)
  | beginIter
  | next
  | list (e : MonitorEv T (Op α))

/-- The node under the iterator. -/
def cursor (s : Traversal T α) : Option α := s.iter.bind Iterator.mCurrent

/-- The lists the iterator can belong to. -/
def lists (s : Traversal T α) : Unit → SafeList α := fun _ => s.cfg.data.list

/-- The traversal and the threads. -/
def system (T α : Type*) [DecidableEq T] [DecidableEq α] : System (Traversal T α) (Ev T α) where
  init s := (shared T α).init s.cfg ∧ s.iter = none ∧ s.visited = [] ∧ ∀ a, ¬ s.stayed a
  step s
    | .beginIter =>
        match s.iter with
        | none =>
            let it := SafeList.beginIter s.lists ()
            some { s with
              iter := some it, visited := it.mCurrent.toList, stayed := s.cfg.data.Linked }
        | some _ => none
    | .next =>
        match s.iter with
        | none => none
        | some it =>
            if it = endIter s.lists then none
            else (it.increment s.cfg.data.heap).map fun it =>
              { s with iter := some it, visited := s.visited ++ it.mCurrent.toList }
    | .list e =>
        (monitor.stepRet s.cfg e).map fun (c, _) =>
          { s with cfg := c, stayed := fun a => s.stayed a ∧ c.data.Linked a }

/-- The threads keep their promises. -/
def Allowed (s : Traversal T α) : Ev T α → Prop
  | .list e => Callers s.cfg e
  | _ => True

-- ============================================================================
-- What the traversal promises
-- ============================================================================

/-- The iterator is `end()`. -/
def Ended (s : Traversal T α) : Prop := s.iter = some (endIter s.lists)

open Classical in
/-- Each node that has stayed has been visited once, and these nodes in the order
    of the list. -/
structure Complete (s : Traversal T α) : Prop where
  once : ∀ a, s.stayed a → s.visited.count a = 1
  order : ∃ l, Follows (fun a => (s.cfg.data.heap a).next) s.cfg.data.list.mHead l ∧
    s.visited.filter s.stayed = l.filter s.stayed

/-- From the state `e` leads to, the traversal left alone ends complete. -/
def Kept (s : Traversal T α) (e : Ev T α) : Prop :=
  ∀ s' evs s'', (system T α).step s e = some s' →
    (system T α).Run (fun _ e => e = .next) s' evs s'' → s''.Ended → s''.Complete

/-- The node an operation takes out of the list. -/
def taken (l : SafeList α) : Op α → Option α
  | .erase node => node
  | .popFront _ => l.mHead
  | .popBack _ => l.mTail
  | _ => none

/-- The node before which an operation links its new node. -/
def place : Op α → Option α
  | .insert existingNode _ => existingNode
  | _ => none

/-- No operation takes the node under the iterator out of the list while a node that
    has stayed follows it, or puts it in again before such a node. -/
def Spared (s : Traversal T α) : Ev T α → Prop
  | .list e => ∀ o c a, performs s.cfg e = some o → s.cursor = some c → s.stayed a →
      (taken s.cfg.data.list o = some c →
        ¬ Reaches (fun a => (s.cfg.data.heap a).next) (s.cfg.data.heap c).next a) ∧
      ((Call.op o).newNode = some c →
        ¬ Reaches (fun a => (s.cfg.data.heap a).next) (place o) a)
  | _ => True

-- ============================================================================
-- How an operation changes the sequence
-- ============================================================================

section Edit

variable {m m' : ListMem α} {l l' u v : List α} {o : Op α} {r : Ret α} {n a : α}

/-- An operation leaves the sequence alone, or puts its new node in between `u` and
    `v`, or takes a node out from there. -/
inductive Edit (m : ListMem α) (o : Op α) (l l' : List α) : Prop
  | same (hl : l' = l) (htaken : taken m.list o = none)
      (hnew : (Call.op o).newNode = none ∨ place o = none)
  | added (n : α) (u v : List α) (hnew : (Call.op o).newNode = some n) (hl : l = u ++ v)
      (hl' : l' = u ++ n :: v) (htaken : taken m.list o = none) (hplace : place o = v.head?)
  | removed (n : α) (u v : List α) (hnew : (Call.op o).newNode = none) (hl : l = u ++ n :: v)
      (hl' : l' = u ++ v) (htaken : taken m.list o = some n)

theorem edit_of_runSeq (h : m.Spans l) (hfit : Fits (.op o) m l)
    (hseq : runSeq l (.op o) = some (r, l')) : Edit m o l l' := by
  cases o with
  | insert existingNode newNode =>
      cases newNode with
      | none =>
          cases hseq
          exact .same rfl rfl (.inl rfl)
      | some n =>
          cases existingNode with
          | none =>
              cases l with
              | nil =>
                  cases hseq
                  exact .added n [] [] rfl rfl rfl rfl rfl
              -- a null position counts only on an empty list
              | cons b l =>
                  cases hseq
                  exact .same rfl rfl (.inr rfl)
          | some e =>
              obtain ⟨u, v, rfl, hu⟩ := List.eq_append_cons_of_mem (hfit.linked e rfl)
              have hl' : l' = insertBefore e n (u ++ e :: v) := by
                cases u <;> (cases hseq; rfl)
              rw [insertBefore_append hu] at hl'
              exact .added n u (e :: v) rfl rfl hl' rfl rfl
  | erase node =>
      cases node with
      | none =>
          cases hseq
          exact .same rfl rfl (.inl rfl)
      | some n =>
          -- the promise: the node is linked, so there is something to cut out
          obtain ⟨u, v, -, rfl, herase⟩ := List.exists_erase_eq (hfit.linked n rfl)
          cases hseq
          exact .removed n u v rfl rfl herase rfl
  | pushBack newNode =>
      cases newNode with
      | none =>
          cases hseq
          exact .same rfl rfl (.inl rfl)
      | some n =>
          cases hseq
          exact .added n l [] rfl (by simp) rfl rfl rfl
  | popFront timeout =>
      simp only [runSeq] at hseq
      split at hseq <;> cases hseq
      cases l with
      | nil => exact .same rfl h.list.head (.inl rfl)
      | cons n l => exact .removed n [] l rfl rfl rfl h.list.head
  | popBack timeout =>
      simp only [runSeq] at hseq
      split at hseq <;> cases hseq
      rcases List.eq_nil_or_concat l with rfl | ⟨u, n, rfl⟩
      · exact .same rfl h.list.tail (.inl rfl)
      · rw [List.concat_eq_append] at h ⊢
        refine .removed n u [] rfl rfl (by simp) ?_
        rw [taken, h.list.tail]
        simp

omit [DecidableEq α] in
/-- Following `next` from the first node of a suffix visits the suffix. -/
theorem reaches_suffix (h : m.Represents (u ++ v)) :
    Reaches (fun a => (m.heap a).next) v.head? a ↔ a ∈ v :=
  (chain_append.mp h.links).2.reaches_iff

omit [DecidableEq α] in
/-- Following `next` past a node visits what comes after it. -/
theorem reaches_past (h : m.Represents (u ++ n :: v)) :
    Reaches (fun a => (m.heap a).next) (m.heap n).next a ↔ a ∈ v := by
  rw [h.links_at.2]
  have h' : m.Represents ((u ++ [n]) ++ v) := by simpa using h
  exact reaches_suffix h'

end Edit
-- ============================================================================
-- Where the traversal is
-- ============================================================================

section Passed

variable {s s' : Traversal T α} {l l' x y x' y' : List α} {c a : α}

open Classical in
/-- The list is `x ++ y`: of the nodes that have stayed, the traversal has visited
    those of `x`, once and in order.  If the node under the iterator is linked, it
    is the last one of `x`; otherwise nothing that has stayed is left in `y`. -/
structure Passed (s : Traversal T α) (x y : List α) : Prop where
  spans : s.cfg.data.Spans (x ++ y)
  stayed : ∀ a, s.stayed a → a ∈ x ++ y
  seen : s.visited.filter s.stayed = x.filter s.stayed
  at_cursor : ∀ c, s.cursor = some c → c ∈ x ++ y → x.getLast? = some c
  past : (∀ c, s.cursor = some c → c ∉ x ++ y) → ∀ a ∈ y, ¬ s.stayed a
  wellFormed : ∀ it, s.iter = some it → it.WellFormed

omit [DecidableEq T] in
open Classical in
/-- A traversal at its end is complete. -/
theorem Passed.complete (h : Passed s x y) (hend : s.Ended) : s.Complete := by
  have hcursor : s.cursor = none := by
    rw [cursor, hend]
    rfl
  have hy : y.filter s.stayed = [] := by
    rw [List.filter_eq_nil_iff]
    intro a ha
    simpa using h.past (fun c hc => by rw [hcursor] at hc; cases hc) a ha
  have hall : s.visited.filter s.stayed = (x ++ y).filter s.stayed := by
    rw [List.filter_append, hy, List.append_nil, h.seen]
  refine ⟨fun a ha => ?_, x ++ y, follows_of_represents h.spans.list, hall⟩
  rw [← List.count_filter (p := fun a => decide (s.stayed a)) (by simpa using ha), hall,
    List.count_filter (by simpa using ha)]
  exact List.count_eq_one_of_mem h.spans.list.nodup (h.stayed a ha)

/-! ## The steps of the traversal -/

theorem beginIter_some (hs : (system T α).step s .beginIter = some s') :
    s' = { s with
      iter := some (SafeList.beginIter s.lists ()),
      visited := s.cfg.data.list.mHead.toList, stayed := s.cfg.data.Linked } := by
  simp only [system] at hs
  split at hs
  · cases hs
    rfl
  · cases hs

theorem next_some (hs : (system T α).step s .next = some s') :
    ∃ it it' c, s.iter = some it ∧ it.mCurrent = some c ∧
      it'.mCurrent = (s.cfg.data.heap c).next ∧ it'.WellFormed ∧
      s' = { s with iter := some it', visited := s.visited ++ it'.mCurrent.toList } := by
  simp only [system] at hs
  split at hs
  · cases hs
  · rename_i it hit
    split at hs
    · cases hs
    · obtain ⟨it', hinc, rfl⟩ := Option.map_eq_some_iff.mp hs
      obtain ⟨c, hc, hc', hwf⟩ := Iterator.increment_some hinc
      exact ⟨it, it', c, hit, hc, hc', hwf, rfl⟩

theorem list_some {e : MonitorEv T (Op α)} (hs : (system T α).step s (.list e) = some s') :
    ∃ c r, monitor.stepRet s.cfg e = some (c, r) ∧
      s' = { s with cfg := c, stayed := fun a => s.stayed a ∧ c.data.Linked a } := by
  obtain ⟨⟨c, r⟩, hstep, rfl⟩ := Option.map_eq_some_iff.mp hs
  exact ⟨c, r, hstep, rfl⟩

open Classical in
theorem Passed.beginIter (h : Passed s x y) (hs : (system T α).step s .beginIter = some s') :
    ∃ x' y', Passed s' x' y' := by
  have hspans := h.spans
  obtain ⟨l, hl⟩ : ∃ l, l = x ++ y := ⟨_, rfl⟩
  rw [← hl] at hspans
  have hhead := hspans.list.head
  have hwf := Iterator.create_wellFormed s.lists (some ())
  rw [beginIter_some hs]
  cases l with
  | nil =>
      refine ⟨[], [], hspans, fun a ha => hspans.linked_iff.mp ha, ?_, ?_, ?_, ?_⟩
      · rw [hhead]
        rfl
      · exact fun c _ hc => absurd hc List.not_mem_nil
      · exact fun _ a ha => absurd ha List.not_mem_nil
      · rintro it ⟨⟩
        exact hwf
  | cons b l =>
      have hcursor : s.cfg.data.list.mHead = some b := hhead
      refine ⟨[b], l, hspans, fun a ha => hspans.linked_iff.mp ha, ?_, ?_, ?_, ?_⟩
      · rw [hcursor]
        rfl
      · intro c hc _
        exact hcursor.symm.trans hc
      · intro hpast
        exact absurd List.mem_cons_self (hpast b hcursor)
      · rintro it ⟨⟩
        exact hwf

open Classical in
theorem Passed.next (h : Passed s x y) (hs : (system T α).step s .next = some s') :
    ∃ x' y', Passed s' x' y' := by
  obtain ⟨it, it', c, hit, hc, hnext, hwf, rfl⟩ := next_some hs
  have hcursor : s.cursor = some c := by rw [cursor, hit, Option.bind_some, hc]
  have hwf' : ∀ it₁, some it' = some it₁ → it₁.WellFormed := by
    rintro it₁ ⟨⟩
    exact hwf
  -- at the end of the list, and on a node that is not linked any more, `next` is null
  have hends : it'.mCurrent = none → (∀ a ∈ y, ¬ s.stayed a) →
      Passed { s with iter := some it', visited := s.visited ++ it'.mCurrent.toList } x y := by
    intro hnull hy
    have hnone : ∀ d, (some it').bind Iterator.mCurrent ≠ some d := by
      intro d hd
      rw [Option.bind_some, hnull] at hd
      cases hd
    refine ⟨h.spans, h.stayed, ?_, fun d hd _ => absurd hd (hnone d), fun _ => hy, hwf'⟩
    rw [hnull, Option.toList_none, List.append_nil]
    exact h.seen
  by_cases hlinked : c ∈ x ++ y
  · obtain ⟨x₀, rfl⟩ := List.getLast?_eq_some_iff.mp (h.at_cursor c hcursor hlinked)
    have hspans := h.spans
    rw [List.append_assoc, List.singleton_append] at hspans
    rw [hspans.list.links_at.2] at hnext
    cases y with
    | nil => exact ⟨_, _, hends hnext fun a ha => absurd ha List.not_mem_nil⟩
    | cons b y =>
        have hmove : (x₀ ++ [c]) ++ b :: y = (x₀ ++ [c] ++ [b]) ++ y := by simp
        have hnext' : it'.mCurrent = some b := hnext
        refine ⟨x₀ ++ [c] ++ [b], y, ?_, ?_, ?_, ?_, ?_, hwf'⟩
        · rw [← hmove]
          exact h.spans
        · rw [← hmove]
          exact h.stayed
        · rw [hnext', Option.toList_some, List.filter_append, List.filter_append, h.seen]
        · intro d hd _
          rw [cursor, Option.bind_some, hnext'] at hd
          rw [List.getLast?_concat, hd]
        · intro hpast
          exact absurd (by simp) (hpast b (by rw [cursor, Option.bind_some, hnext']))
  · have hunlinked := h.spans.unlinked c hlinked
    rw [hunlinked] at hnext
    refine ⟨x, y, hends hnext (h.past fun d hd => ?_)⟩
    rw [hcursor] at hd
    cases hd
    exact hlinked

/-! ## The steps of the other threads -/

omit [DecidableEq α] in
/-- Two ways to cut a sequence: the second cut comes after the first one, or before
    it with a node in between. -/
theorem cuts {u v : List α} (h : x ++ y = u ++ v) :
    (∃ d, u = x ++ d ∧ y = d ++ v) ∨ ∃ b d, x = u ++ b :: d ∧ v = b :: d ++ y := by
  rcases List.append_eq_append_iff.mp h with ⟨d, hu, hy⟩ | ⟨d, hx, hv⟩
  · exact .inl ⟨d, hu, hy⟩
  · cases d with
    | nil => exact .inl ⟨[], by simpa using hx.symm, by simpa using hv.symm⟩
    | cons b d => exact .inr ⟨b, d, hx, hv⟩

omit [DecidableEq α] in
open Classical in
/-- Lists that agree on `p` agree on less. -/
theorem filter_of_imp {p r : α → Prop} (hrp : ∀ a, r a → p a)
    (h : x.filter p = y.filter p) : x.filter r = y.filter r := by
  have hsplit : ∀ l : List α, l.filter r = (l.filter p).filter r := by
    intro l
    rw [List.filter_filter]
    refine List.filter_congr fun a _ => ?_
    by_cases hr : r a
    · simp [hr, hrp a hr]
    · simp [hr]
  rw [hsplit, hsplit y, h]

/-- The state after a step of another thread that leaves the monitor at `c`. -/
def relist (s : Traversal T α) (c : Config T (ListMem α) Wait) : Traversal T α :=
  { s with cfg := c, stayed := fun a => s.stayed a ∧ c.data.Linked a }

open Classical in
omit [DecidableEq T] [DecidableEq α] in
/-- What such a step has to leave of the list. -/
theorem Passed.relist {cfg : Config T (ListMem α) Wait} (h : Passed s x y)
    (hspans : cfg.data.Spans (x' ++ y'))
    (hfilter : ∀ p : α → Bool, (∀ a, p a = true → s.stayed a ∧ a ∈ x' ++ y') →
      x.filter p = x'.filter p)
    (hat : ∀ c, s.cursor = some c → c ∈ x' ++ y' → x'.getLast? = some c)
    (hpast : (∀ c, s.cursor = some c → c ∉ x' ++ y') → ∀ a ∈ y', ¬ s.stayed a) :
    Passed (s.relist cfg) x' y' := by
  refine ⟨hspans, fun a ha => hspans.linked_iff.mp ha.2, ?_, hat, ?_, h.wellFormed⟩
  · have hseen : s.visited.filter (s.relist cfg).stayed = x.filter (s.relist cfg).stayed :=
      filter_of_imp (fun a ha => ha.1) h.seen
    refine hseen.trans (hfilter _ fun a ha => ?_)
    rw [decide_eq_true_eq] at ha
    exact ⟨ha.1, hspans.linked_iff.mp ha.2⟩
  · exact fun hcursor a ha hstayed => hpast hcursor a ha hstayed.1

omit [DecidableEq T] [DecidableEq α] in
/-- A node put in that is not under the iterator. -/
theorem Passed.added {cfg : Config T (ListMem α) Wait} {n : α} {u v : List α}
    (h : Passed s x y) (hl : x ++ y = u ++ v) (hnew : n ∉ x ++ y)
    (hspans : cfg.data.Spans (u ++ n :: v)) (hcursor : s.cursor ≠ some n) :
    ∃ x' y', Passed (s.relist cfg) x' y' := by
  have hstayed : ¬ s.stayed n := fun hn => hnew (h.stayed n hn)
  have hother : ∀ c, s.cursor = some c → c ≠ n := fun c hc hcn => hcursor (hcn ▸ hc)
  -- put in after what has been passed, or within it
  rcases cuts hl with ⟨d, rfl, rfl⟩ | ⟨b, d, rfl, rfl⟩
  · have hmem : ∀ c, c ≠ n → (c ∈ x ++ (d ++ n :: v) ↔ c ∈ x ++ (d ++ v)) := by
      intro c hc
      simp [hc]
    refine ⟨x, d ++ n :: v, h.relist (by simpa using hspans) (fun _ _ => rfl) ?_ ?_⟩
    · exact fun c hc hin => h.at_cursor c hc ((hmem c (hother c hc)).mp hin)
    · intro hout a ha hsa
      have hpast := h.past fun c hc hin => hout c hc ((hmem c (hother c hc)).mpr hin)
      have hne : a ≠ n := fun heq => hstayed (heq ▸ hsa)
      exact hpast a (by simpa [hne] using ha) hsa
  · have hmem : ∀ c, c ≠ n → (c ∈ (u ++ n :: b :: d) ++ y ↔ c ∈ (u ++ b :: d) ++ y) := by
      intro c hc
      simp [hc]
    refine ⟨u ++ n :: b :: d, y, h.relist (by simpa using hspans) ?_ ?_ ?_⟩
    · intro p hp
      have hpn : ¬ p n = true := fun hpn => hstayed (hp n hpn).1
      rw [List.filter_append, List.filter_append, List.filter_cons_of_neg hpn]
    · intro c hc hin
      have hlast := h.at_cursor c hc ((hmem c (hother c hc)).mp hin)
      rw [List.getLast?_append] at hlast ⊢
      rwa [List.getLast?_cons_cons]
    · exact fun hout => h.past fun c hc hin => hout c hc ((hmem c (hother c hc)).mpr hin)

omit [DecidableEq T] [DecidableEq α] in
/-- The node under the iterator, put in again with nothing that has stayed after it. -/
theorem Passed.added_cursor {cfg : Config T (ListMem α) Wait} {n : α} {u v : List α}
    (h : Passed s x y) (hl : x ++ y = u ++ v) (hnew : n ∉ x ++ y)
    (hspans : cfg.data.Spans (u ++ n :: v)) (hcursor : s.cursor = some n)
    (hv : ∀ a, s.stayed a → a ∉ v) : ∃ x' y', Passed (s.relist cfg) x' y' := by
  have hstayed : ¬ s.stayed n := fun hn => hnew (h.stayed n hn)
  -- the node under the iterator was not linked, so nothing that has stayed is ahead
  have hy : ∀ a ∈ y, ¬ s.stayed a := by
    refine h.past fun c hc => ?_
    cases hcursor.symm.trans hc
    exact hnew
  refine ⟨u ++ [n], v, h.relist (by simpa using hspans) ?_ ?_ ?_⟩
  · intro p hp
    have hpy : y.filter p = [] := by
      rw [List.filter_eq_nil_iff]
      exact fun a ha hpa => hy a ha (hp a hpa).1
    have hpv : v.filter p = [] := by
      rw [List.filter_eq_nil_iff]
      exact fun a ha hpa => hv a (hp a hpa).1 ha
    have hpn : [n].filter p = [] := by
      rw [List.filter_eq_nil_iff]
      exact fun a ha hpa => hstayed (List.mem_singleton.mp ha ▸ (hp a hpa).1)
    have hall := congrArg (List.filter p) hl
    rw [List.filter_append, List.filter_append, hpy, hpv, List.append_nil, List.append_nil]
      at hall
    rw [hall, List.filter_append, hpn, List.append_nil]
  · intro c hc _
    rw [List.getLast?_concat, ← hcursor, hc]
  · intro hout
    exact absurd (by simp) (hout n hcursor)

omit [DecidableEq T] in
/-- A node taken out, with nothing that has stayed after it if it is under the
    iterator. -/
theorem Passed.removed {cfg : Config T (ListMem α) Wait} {n : α} {u v : List α}
    (h : Passed s x y) (hl : x ++ y = u ++ n :: v) (hspans : cfg.data.Spans (u ++ v))
    (hv : s.cursor = some n → ∀ a, s.stayed a → a ∉ v) :
    ∃ x' y', Passed (s.relist cfg) x' y' := by
  have hnodup := h.spans.list.nodup
  rw [hl] at hnodup
  have hout : n ∉ u ++ v := (List.nodup_middle.mp hnodup |> List.nodup_cons.mp).1
  have hne : ∀ c ∈ u ++ v, c ≠ n := fun c hc hcn => hout (hcn ▸ hc)
  rcases cuts hl with ⟨d, rfl, rfl⟩ | ⟨b, d, rfl, hbd⟩
  · -- the node was still to come
    have hpn : s.cursor ≠ some n := by
      intro hc
      have hlast := h.at_cursor n hc (by simp)
      exact hout (by simp [List.mem_of_getLast? hlast])
    refine ⟨x, d ++ v, h.relist (by simpa using hspans) (fun _ _ => rfl) ?_ ?_⟩
    · intro c hc hin
      exact h.at_cursor c hc (by simp at hin ⊢; tauto)
    · intro hgone a ha
      refine h.past (fun c hc hin => hgone c hc ?_) a (by simp at ha ⊢; tauto)
      have hcn : c ≠ n := fun heq => hpn (heq ▸ hc)
      simpa [hcn] using hin
  · -- the node had been passed
    rw [List.cons_append, List.cons.injEq] at hbd
    obtain ⟨rfl, rfl⟩ := hbd
    refine ⟨u ++ d, y, h.relist (by simpa using hspans) ?_ ?_ ?_⟩
    · intro p hp
      have hpn : ¬ p n = true := by
        intro hpn
        exact hout (by simpa using (hp n hpn).2)
      rw [List.filter_append, List.filter_append, List.filter_cons_of_neg hpn]
    · intro c hc hin
      have hcn : c ≠ n := hne c (by simpa using hin)
      have hlast := h.at_cursor c hc (by simp at hin ⊢; tauto)
      rw [List.getLast?_append, List.getLast?_cons] at hlast
      rw [List.getLast?_append]
      cases hd : d.getLast? with
      | none =>
          rw [hd] at hlast
          exact absurd (Option.some.inj hlast).symm hcn
      | some z =>
          rw [hd] at hlast
          exact hlast
    · intro hgone a ha hsa
      by_cases hcn : s.cursor = some n
      · exact hv hcn a hsa (by simp [ha])
      · refine h.past (fun c hc hin => hgone c hc ?_) a ha hsa
        have hne' : c ≠ n := fun heq => hcn (heq ▸ hc)
        simpa [hne'] using hin

omit [DecidableEq T] [DecidableEq α] in
/-- A step that leaves the sequence as it is. -/
theorem Passed.same {cfg : Config T (ListMem α) Wait} (h : Passed s x y)
    (hspans : cfg.data.Spans (x ++ y)) : Passed (s.relist cfg) x y :=
  h.relist hspans (fun _ _ => rfl) h.at_cursor h.past

theorem Passed.list {e : MonitorEv T (Op α)} (h : Passed s x y) (hok : s.Allowed (.list e))
    (hspared : s.Spared (.list e)) (hs : (system T α).step s (.list e) = some s') :
    ∃ x' y', Passed s' x' y' := by
  obtain ⟨c, r, hstep, rfl⟩ := list_some hs
  have hfit : ∀ o, performs s.cfg e = some o → Fits (.op o) s.cfg.data (x ++ y) :=
    fun o ho => h.spans.fits (promised_of_performs hok ho)
  rcases spans_step h.spans hstep hfit with hidle | ⟨o, v, l', hperf, -, hseq, hspans, -⟩
  · exact ⟨x, y, h.same (by rw [hidle.data]; exact h.spans)⟩
  · cases edit_of_runSeq h.spans (hfit o hperf) hseq with
    | same hl htaken hnew => exact ⟨x, y, h.same (hl ▸ hspans)⟩
    | added n u v hnew hl hl' htaken hplace =>
        have hout := ((hfit o hperf).new n hnew).1
        by_cases hcursor : s.cursor = some n
        · refine h.added_cursor hl hout (hl' ▸ hspans) hcursor fun a ha hav => ?_
          have hrep := h.spans.list
          rw [hl] at hrep
          refine (hspared o n a hperf hcursor ha).2 hnew ?_
          rw [hplace]
          exact (reaches_suffix hrep).mpr hav
        · exact h.added hl hout (hl' ▸ hspans) hcursor
    | removed n u v hnew hl hl' htaken =>
        refine h.removed hl (hl' ▸ hspans) fun hcursor a ha hav => ?_
        have hrep := h.spans.list
        rw [hl] at hrep
        exact (hspared o n a hperf hcursor ha).1 htaken ((reaches_past hrep).mpr hav)

/-- A step that spares the node under the iterator keeps the traversal on its way. -/
theorem Passed.step {e : Ev T α} (h : Passed s x y) (hok : s.Allowed e) (hspared : s.Spared e)
    (hs : (system T α).step s e = some s') : ∃ x' y', Passed s' x' y' := by
  cases e with
  | beginIter => exact h.beginIter hs
  | next => exact h.next hs
  | list e => exact h.list hok hspared hs

/-- Left alone, a traversal on its way ends complete. -/
theorem Passed.left_alone {evs : List (Ev T α)} (h : Passed s x y)
    (hrun : (system T α).Run (fun _ e => e = .next) s evs s') (hend : s'.Ended) :
    s'.Complete := by
  have hway : ∃ x' y', Passed s' x' y' := by
    refine hrun.invariant (P := fun s => ∃ x y, Passed s x y) ⟨x, y, h⟩ ?_
    rintro s e s' ⟨x, y, h⟩ rfl hs
    exact h.next hs
  obtain ⟨x', y', h'⟩ := hway
  exact h'.complete hend

end Passed

-- ============================================================================
-- Traversals that miss or repeat a node
-- ============================================================================

section Missed

variable {s s' : Traversal T α} {x y l l' u v : List α} {c a : α} {evs : List (Ev T α)}

/-- One increment from a node. -/
theorem next_step {it : Iterator Unit α} (hit : s.iter = some it) (hwf : it.WellFormed)
    (hc : it.mCurrent = some c) :
    ∃ it', (system T α).step s .next =
        some { s with iter := some it', visited := s.visited ++ (s.cfg.data.heap c).next.toList } ∧
      it'.mCurrent = (s.cfg.data.heap c).next ∧ it'.WellFormed := by
  obtain ⟨it', hinc⟩ := Iterator.increment_defined s.cfg.data.heap hwf hc
  obtain ⟨c', hc', hnext, hwf'⟩ := Iterator.increment_some hinc
  cases hc.symm.trans hc'
  have hne : it ≠ endIter s.lists := by
    rintro rfl
    cases hc
  refine ⟨it', ?_, hnext, hwf'⟩
  simp only [system, hit, if_neg hne, hinc, Option.map_some, hnext]

omit [DecidableEq T] [DecidableEq α] in
theorem ended_of_null {it : Iterator Unit α} (hit : s.iter = some it) (hwf : it.WellFormed)
    (hnull : it.mCurrent = none) : s.Ended := by
  obtain ⟨mCurrent, mParent⟩ := it
  cases hnull
  cases hwf.mpr rfl
  exact hit

/-- Left alone, the iterator visits what comes after its node in the list. -/
theorem walk {it : Iterator Unit α} (h : s.cfg.data.Represents (u ++ c :: v))
    (hit : s.iter = some it) (hwf : it.WellFormed) (hc : it.mCurrent = some c) :
    ∃ evs s', (system T α).Run (fun _ e => e = .next) s evs s' ∧ s'.Ended ∧
      s'.visited = s.visited ++ v ∧ s'.stayed = s.stayed := by
  induction v generalizing s u c it with
  | nil =>
      obtain ⟨it', hs, hc', hwf'⟩ := next_step hit hwf hc
      rw [h.links_at.2] at hs hc'
      refine ⟨_, _, .cons rfl hs .nil, ended_of_null rfl hwf' hc', ?_, rfl⟩
      simp
  | cons b v ih =>
      obtain ⟨it', hs, hc', hwf'⟩ := next_step hit hwf hc
      rw [h.links_at.2] at hs hc'
      have h' : s.cfg.data.Represents ((u ++ [c]) ++ b :: v) := by simpa using h
      obtain ⟨evs, s', hrun, hend, hvisited, hstayed⟩ := ih
        (s := { s with iter := some it', visited := s.visited ++ (b :: v).head?.toList })
        h' rfl hwf' hc'
      refine ⟨_, s', .cons rfl hs hrun, hend, ?_, hstayed⟩
      rw [hvisited]
      simp

open Classical in
omit [DecidableEq T] [DecidableEq α] in
/-- Of the nodes that have stayed, those of `x` have been visited. -/
theorem Passed.visited_iff (h : Passed s x y) (ha : s.stayed a) : a ∈ s.visited ↔ a ∈ x := by
  have hmem : ∀ l : List α, a ∈ l.filter s.stayed ↔ a ∈ l := by
    intro l
    simp [ha]
  rw [← hmem s.visited, h.seen, hmem]

/-- The node under the iterator is taken out in front of one that has stayed: the
    traversal ends without the latter. -/
theorem Passed.misses {cfg : Config T (ListMem α) Wait} (h : Passed s x y)
    (hl : x ++ y = u ++ c :: v) (hspans : cfg.data.Spans (u ++ v)) (hcursor : s.cursor = some c)
    (ha : s.stayed a) (hav : a ∈ v) :
    ∃ evs s', (system T α).Run (fun _ e => e = .next) (s.relist cfg) evs s' ∧ s'.Ended ∧
      ¬ s'.Complete := by
  obtain ⟨it, hit, hc⟩ := Option.bind_eq_some_iff.mp hcursor
  have hwf := h.wellFormed it hit
  have hnodup := h.spans.list.nodup
  have hlast := h.at_cursor c hcursor (by rw [hl]; simp)
  have hout : c ∉ u ++ v := by
    rw [hl] at hnodup
    exact (List.nodup_cons.mp (List.nodup_middle.mp hnodup)).1
  obtain ⟨it', hs, hc', hwf'⟩ := next_step (s := s.relist cfg) hit hwf hc
  have hunlinked : ((s.relist cfg).cfg.data.heap c).next = none := by
    show (cfg.data.heap c).next = none
    rw [hspans.unlinked c hout]
    rfl
  rw [hunlinked] at hs hc'
  refine ⟨_, _, .cons rfl hs .nil, ended_of_null rfl hwf' hc', fun hcomplete => ?_⟩
  have hnotx : a ∉ x := by
    -- `x` ends in `c`, so what comes after `c` is in `y`
    obtain ⟨x₀, rfl⟩ := List.getLast?_eq_some_iff.mp hlast
    rw [List.append_assoc, List.singleton_append] at hl hnodup
    have hc₀ : c ∉ x₀ ++ y := (List.nodup_cons.mp (List.nodup_middle.mp hnodup)).1
    rw [List.mem_append, not_or] at hc₀
    obtain ⟨rfl, -, rfl⟩ := (List.append_cons_inj_of_notMem hc₀.1 hc₀.2).mp hl
    intro hax
    rcases List.mem_append.mp hax with hax | hax
    · exact (List.nodup_append.mp hnodup).2.2 a hax a (by simp [hav]) rfl
    · exact hout (by simp [← List.mem_singleton.mp hax, hav])
  have hcount := hcomplete.once a ⟨ha, hspans.linked_iff.mpr (by simp [hav])⟩
  have hnot : a ∉ s.visited := (h.visited_iff ha).not.mpr hnotx
  have hzero : (s.visited ++ (none : Option α).toList).count a = 0 := by
    rw [Option.toList_none, List.append_nil, List.count_eq_zero]
    exact hnot
  exact absurd (hcount.symm.trans hzero) (by decide)

/-- The node under the iterator is put in again in front of one that has stayed:
    the traversal visits the latter a second time. -/
theorem Passed.repeats {cfg : Config T (ListMem α) Wait} (h : Passed s x y) (hnew : c ∉ x ++ y)
    (hspans : cfg.data.Spans (u ++ c :: v))
    (hcursor : s.cursor = some c) (ha : s.stayed a) (hav : a ∈ v) :
    ∃ evs s', (system T α).Run (fun _ e => e = .next) (s.relist cfg) evs s' ∧ s'.Ended ∧
      ¬ s'.Complete := by
  obtain ⟨it, hit, hc⟩ := Option.bind_eq_some_iff.mp hcursor
  obtain ⟨evs, s', hrun, hend, hvisited, hstayed⟩ :=
    walk (s := s.relist cfg) hspans.list hit (h.wellFormed it hit) hc
  refine ⟨evs, s', hrun, hend, fun hcomplete => ?_⟩
  have hax : a ∈ x := by
    rcases List.mem_append.mp (h.stayed a ha) with hax | hay
    · exact hax
    · refine absurd ha (h.past (fun d hd => ?_) a hay)
      cases hcursor.symm.trans hd
      exact hnew
  have hstayed' : s'.stayed a := by
    rw [hstayed]
    exact ⟨ha, hspans.linked_iff.mpr (by simp [hav])⟩
  have hcount := hcomplete.once a hstayed'
  have hfirst : 0 < (s.relist cfg).visited.count a :=
    List.count_pos_iff.mpr ((h.visited_iff ha).mpr hax)
  have hsecond : 0 < v.count a := List.count_pos_iff.mpr hav
  rw [hvisited, List.count_append] at hcount
  omega

/-- A step keeps the traversal complete exactly if it spares the node under the
    iterator. -/
theorem Passed.kept_iff {e : Ev T α} (h : Passed s x y) (hok : s.Allowed e)
    (hs : (system T α).step s e = some s') : s.Kept e ↔ s.Spared e := by
  constructor
  · intro hkept
    cases e with
    | beginIter => trivial
    | next => trivial
    | list e =>
        intro o c a hperf hcursor ha
        obtain ⟨cfg, r, hstep, rfl⟩ := list_some hs
        have hfit := h.spans.fits (promised_of_performs hok hperf)
        have hspoilt : ∀ {evs s'}, (system T α).Run (fun _ e => e = .next) (s.relist cfg) evs s' →
            s'.Ended → ¬ s'.Complete → False :=
          fun hrun hend hnot => hnot (hkept _ _ _ hs hrun hend)
        rcases spans_step h.spans hstep (fun o' ho' => by cases hperf.symm.trans ho'; exact hfit)
          with hidle | ⟨o', r', l', hperf', -, hseq, hspans, -⟩
        · -- a pop that finds the list empty
          obtain ⟨hwait, hempty⟩ := hidle.waits o hperf
          rw [h.spans.list.empty_eq, List.isEmpty_iff] at hempty
          have hin := h.stayed a ha
          rw [hempty] at hin
          exact absurd hin List.not_mem_nil
        · cases hperf.symm.trans hperf'
          cases edit_of_runSeq h.spans hfit hseq with
          | same hl htaken hnew =>
              refine ⟨fun ht => (by rw [htaken] at ht; cases ht), fun hn hreach => ?_⟩
              rcases hnew with hnew | hplace
              · rw [hn] at hnew
                cases hnew
              · obtain ⟨b, hb, -⟩ := hreach
                rw [hplace] at hb
                cases hb
          | added n u v hnew hl hl' htaken hplace =>
              refine ⟨fun ht => (by rw [htaken] at ht; cases ht), fun hn hreach => ?_⟩
              cases hnew.symm.trans hn
              have hrep := h.spans.list
              rw [hl] at hrep
              rw [hplace] at hreach
              obtain ⟨evs, s'', hrun, hend, hnot⟩ := h.repeats (hfit.new c hnew).1
                (hl' ▸ hspans) hcursor ha ((reaches_suffix hrep).mp hreach)
              exact hspoilt hrun hend hnot
          | removed n u v hnew hl hl' htaken =>
              refine ⟨fun ht hreach => ?_, fun hn => by rw [hnew] at hn; cases hn⟩
              cases htaken.symm.trans ht
              have hrep := h.spans.list
              rw [hl] at hrep
              obtain ⟨evs, s'', hrun, hend, hnot⟩ := h.misses hl (hl' ▸ hspans) hcursor ha
                ((reaches_past hrep).mp hreach)
              exact hspoilt hrun hend hnot
  · intro hspared s₁ evs s₂ hs₁ hrun hend
    obtain ⟨x', y', h'⟩ := h.step hok hspared hs₁
    exact h'.left_alone hrun hend

end Missed

-- ============================================================================
-- Runs
-- ============================================================================

/-- Nobody has called anything yet. -/
def start (T α : Type*) : Traversal T α :=
  { cfg := ⟨⟨create, fun _ => ListHook.unlinked⟩, fun _ => .out⟩
    iter := none
    visited := []
    stayed := fun _ => False }

omit [DecidableEq T] [DecidableEq α] in
theorem passed_start : Passed (start T α) [] [] := by
  refine ⟨.create rfl fun _ => rfl, fun a ha => ha.elim, rfl, ?_, ?_, ?_⟩
  · exact fun c hc => by cases hc
  · exact fun _ a ha => absurd ha List.not_mem_nil
  · exact fun it hit => by cases hit

/-- However the steps of a traversal fall between those of other threads: left alone
    from any moment of the run on, it visits each node that has been linked since
    before `begin()` once, and these nodes in list order, if and only if no step takes
    the node under the iterator away from in front of such a node, or puts it back
    in front of one. -/
theorem traversal_iff {evs : List (Ev T α)} {s : Traversal T α} :
    (system T α).Run (fun s e => s.Allowed e ∧ s.Kept e) (start T α) evs s ↔
      (system T α).Run (fun s e => s.Allowed e ∧ s.Spared e) (start T α) evs s := by
  refine System.run_iff_of_invariant (I := fun s => ∃ x y, Passed s x y) ⟨[], [], passed_start⟩
    ?_ ?_
  · rintro s e s' ⟨x, y, h⟩ hs
    exact and_congr_right fun hok => h.kept_iff hok hs
  · rintro s e s' ⟨x, y, h⟩ ⟨hok, hkept⟩ hs
    exact h.step hok ((h.kept_iff hok hs).mp hkept) hs

/-- The first of two nodes is popped while the iterator is on it: the traversal ends
    there, and the second one, linked all the time, is never visited. -/
theorem pop_ends_traversal : ∃ s : Traversal Bool Nat,
    (system Bool Nat).Run Allowed (start Bool Nat)
      [.list (.call true (.pushBack (some 1))), .list (.call true (.pushBack (some 2))),
        .beginIter, .list (.call true (.popFront 0)), .next] s ∧
    s.Ended ∧ s.stayed 2 ∧ s.visited = [1] := by
  refine ⟨_, .cons ⟨?_, by simp [Call.linkedNode]⟩ rfl (.cons ⟨?_, by simp [Call.linkedNode]⟩ rfl
    (.cons trivial rfl (.cons ⟨by simp [Call.newNode], by simp [Call.linkedNode]⟩ rfl
      (.cons trivial rfl .nil)))), rfl, ⟨⟨1, rfl, .tail .refl rfl⟩, 2, rfl, .refl⟩, rfl⟩
  · rintro a - ⟨x, hx, -⟩
    cases hx
  · rintro a ⟨⟩ hlinked
    have hrep := ListMem.represents_singleton (m := ⟨create, fun _ => ListHook.unlinked⟩) (n := 1)
      rfl
    exact absurd (hrep.reaches_iff.mp hlinked) (by decide)

end Traversal
end Fredlib
