/-
  Fredlib.SafeList.Removals

  Who has removed a node.

  `pop_front`, `pop_back` and `erase` all report the node they have taken out,
  but `erase` does not look whether its node is in the list: it unlinks the hook,
  decrements `mSize` and returns true.  A caller whose node has been popped by
  somebody else before `erase` gets the lock is told that it has removed it too.

  `removals` records every insertion and every reported removal.  A run keeps
  the promises of `erase` and of `size` exactly if each `erase` finds its node
  still linked and no `push_back` wraps the counter (`removed_once_iff`).
-/

import Fredlib.SafeList.PushFront
import Fredlib.SafeList.Threads

namespace Fredlib

open Lib Lib.DList Lib.Monitor SafeList Fronts

variable {T α : Type*} [DecidableEq T] [DecidableEq α]

namespace SafeList

/-- A node has been put in, or a caller has been told that it has taken it out. -/
inductive Change (α : Type*)
  | inserted (n : α)
  | removed (n : α)
  deriving DecidableEq

/-- What an operation reports. -/
def changes : Op α → Ret α → List (Change α)
  | .insert _ (some n), .bool true | .pushBack (some n), .bool true => [.inserted n]
  | .erase (some n), .bool true => [.removed n]
  | .popFront _, .node (some n) | .popBack _, .node (some n) => [.removed n]
  | _, _ => []

/-- What a step reports. -/
def shows (c : Config T (ListMem α) Wait) (e : MonitorEv T (Op α)) : List (Change α) :=
  match performs c e, monitor.stepRet c e with
  | some o, some (_, some v) => changes o v
  | _, _ => []

/-- The shared list with the changes so far. -/
def removals (T α : Type*) [DecidableEq T] [DecidableEq α] :
    System (List (Change α) × Config T (ListMem α) Wait) (MonitorEv T (Op α)) :=
  (shared T α).recorded shows

/-- Nodes that are linked nowhere are pushed, and nodes that have been in the list
    are erased. -/
def Removers (s : List (Change α) × Config T (ListMem α) Wait) : MonitorEv T (Op α) → Prop
  | .call _ (.pushBack newNode) => ∀ n, newNode = some n → ¬ s.2.data.Linked n
  | .call _ (.erase node) => ∀ n, node = some n → Change.inserted n ∈ s.1
  | .call _ (.insert _ _) => False
  | _ => True

-- ============================================================================
-- What erase and size promise
-- ============================================================================

/-- Between two reported removals of a node there is an insertion of it. -/
def Once (log : List (Change α)) : Prop :=
  ∀ n x y z, log = x ++ .removed n :: (y ++ .removed n :: z) → Change.inserted n ∈ y

/-- `mSize` is the number of nodes reached from `mHead`. -/
def Counts (m : ListMem α) : Prop :=
  ∃ l, Follows (fun a => (m.heap a).next) m.list.mHead l ∧ l.length = m.list.mSize.toNat

/-- After the step every insertion has been removed once at most and `mSize` is
    right; and if the step is an `erase` of a node that is not linked any more, it
    has returned false and changed nothing. -/
def Kept (s : List (Change α) × Config T (ListMem α) Wait) (e : MonitorEv T (Op α)) : Prop :=
  (∀ s', (removals T α).step s e = some s' → Once s'.1 ∧ Counts s'.2.data) ∧
    ∀ t n c' r, e = .call t (.erase (some n)) → ¬ s.2.data.Linked n →
      monitor.stepRet s.2 e = some (c', r) → r = some (.bool false) ∧ c'.data = s.2.data

/-- `erase` gets the lock while its node is linked, and `push_back` while `mSize` is
    not at its largest value. -/
def InTime (s : List (Change α) × Config T (ListMem α) Wait) : MonitorEv T (Op α) → Prop
  | .call _ (.erase (some n)) => s.2.data.Linked n
  | .call _ (.pushBack (some _)) => s.2.data.list.mSize + 1 ≠ 0
  | _ => True

-- ============================================================================
-- The log and the list
-- ============================================================================

section Log

variable {log : List (Change α)} {n a : α} {l l' : List α} {o : Op α} {v : Ret α}

/-- The last change of `n` is an insertion. -/
def Standing (log : List (Change α)) (n : α) : Prop :=
  ∃ x y, log = x ++ .inserted n :: y ∧ Change.removed n ∉ y

omit [DecidableEq α] in
theorem Standing.snoc (h : Standing log n) {ch : Change α} (hch : ch ≠ .removed n) :
    Standing (log ++ [ch]) n := by
  obtain ⟨x, y, rfl, hy⟩ := h
  refine ⟨x, y ++ [ch], by simp, fun hmem => ?_⟩
  rcases List.mem_append.mp hmem with hmem | hmem
  · exact hy hmem
  · exact hch (List.mem_singleton.mp hmem).symm

omit [DecidableEq α] in
theorem standing_inserted (log : List (Change α)) (n : α) :
    Standing (log ++ [.inserted n]) n :=
  ⟨log, [], rfl, List.not_mem_nil⟩

omit [DecidableEq α] in
/-- After every earlier removal of a node that stands there is an insertion. -/
theorem Standing.inserted_mem (h : Standing log n) {x y : List (Change α)}
    (hsplit : log = x ++ .removed n :: y) : Change.inserted n ∈ y := by
  obtain ⟨x', y', rfl, hy'⟩ := h
  rcases List.append_eq_append_iff.mp hsplit with ⟨d, hx, hd⟩ | ⟨d, hx, hd⟩
  · -- the removal comes after the last insertion
    cases d with
    | nil => cases hd
    | cons ch d =>
        rw [List.cons_append, List.cons.injEq] at hd
        exact absurd (by rw [hd.2]; simp) hy'
  · cases d with
    | nil => cases hd
    | cons ch d =>
        rw [List.cons_append, List.cons.injEq] at hd
        rw [hd.2]
        simp

omit [DecidableEq α] in
/-- One more report, of a node that stands if it is a removal. -/
theorem Once.snoc (h : Once log) {ch : Change α} (hch : ∀ n, ch = .removed n → Standing log n) :
    Once (log ++ [ch]) := by
  intro n x y z hsplit
  rcases List.eq_nil_or_concat z with rfl | ⟨z, last, rfl⟩
  · have hlog : log ++ [ch] = (x ++ .removed n :: y) ++ [.removed n] := by simpa using hsplit
    obtain ⟨hlog, hlast⟩ := List.append_inj' hlog rfl
    exact (hch n (List.cons.inj hlast).1).inserted_mem hlog
  · have hlog : log ++ [ch] = (x ++ .removed n :: (y ++ .removed n :: z)) ++ [last] := by
      simpa using hsplit
    exact h n x y z (List.append_inj' hlog rfl).1

/-- What an operation reports is what it does to the sequence. -/
theorem changes_of_runSeq (hnodup : l.Nodup) (hlinked : ∀ n, o = .erase (some n) → n ∈ l)
    (hinsert : ∀ e n, o ≠ .insert e n) (hseq : runSeq l (.op o) = some (v, l')) :
    (changes o v = [] ∧ l' = l) ∨
    (∃ n, o = .pushBack (some n) ∧ changes o v = [.inserted n] ∧ l' = l ++ [n]) ∨
    ∃ n ∈ l, changes o v = [.removed n] ∧ l'.length ≤ l.length ∧
      ∀ a ∈ l', a ∈ l ∧ a ≠ n := by
  cases o with
  | insert e n => exact absurd rfl (hinsert e n)
  | erase node =>
      cases node with
      | none =>
          cases hseq
          exact .inl ⟨rfl, rfl⟩
      -- a linked node goes, and no duplicate stays behind
      | some n =>
          cases hseq
          refine .inr (.inr ⟨n, hlinked n rfl, rfl, List.length_erase_le, fun a ha => ?_⟩)
          exact ⟨List.mem_of_mem_erase ha, fun heq => hnodup.not_mem_erase (heq ▸ ha)⟩
  | pushBack newNode =>
      cases newNode with
      | none =>
          cases hseq
          exact .inl ⟨rfl, rfl⟩
      | some n =>
          cases hseq
          exact .inr (.inl ⟨n, rfl, rfl, rfl⟩)
  | popFront timeout =>
      simp only [runSeq] at hseq
      -- on an empty list the pop that gives up returns null
      split at hseq <;> cases hseq
      cases l with
      | nil => exact .inl ⟨rfl, rfl⟩
      | cons n l =>
          refine .inr (.inr ⟨n, List.mem_cons_self, rfl, by simp, fun a ha => ?_⟩)
          exact ⟨List.mem_cons_of_mem _ ha,
            fun heq => (List.nodup_cons.mp hnodup).1 (heq ▸ ha)⟩
  | popBack timeout =>
      simp only [runSeq] at hseq
      split at hseq <;> cases hseq
      rcases List.eq_nil_or_concat l with rfl | ⟨l, n, rfl⟩
      · exact .inl ⟨rfl, rfl⟩
      · rw [List.concat_eq_append] at hnodup ⊢
        rw [List.getLast?_append, List.dropLast_concat]
        refine .inr (.inr ⟨n, by simp, rfl, by simp, fun a ha => ?_⟩)
        refine ⟨List.mem_append_left _ ha, fun heq => ?_⟩
        exact (List.nodup_append.mp hnodup).2.2 a ha n (by simp) heq

end Log

-- ============================================================================
-- Steps
-- ============================================================================

section Steps

variable {s s' : List (Change α) × Config T (ListMem α) Wait} {e : MonitorEv T (Op α)}
  {l : List α}

/-- The list holds `l`, shorter than the counter can count, every node of it stands
    in the log, and no insertion has been removed twice. -/
structure Accounted (s : List (Change α) × Config T (ListMem α) Wait) (l : List α) : Prop where
  spans : s.2.data.Spans l
  small : l.length < UInt32.size
  standing : ∀ n ∈ l, Standing s.1 n
  once : Once s.1

theorem removals_step (hs : (removals T α).step s e = some s') :
    ∃ r, monitor.stepRet s.2 e = some (s'.2, r) ∧ s'.1 = s.1 ++ shows s.2 e := by
  simp only [removals, System.recorded, shared, Monitor.system, Option.map_map,
    Option.map_eq_some_iff, Function.comp] at hs
  obtain ⟨⟨c, r⟩, hstep, rfl⟩ := hs
  exact ⟨r, hstep, rfl⟩

omit [DecidableEq T] [DecidableEq α] in
theorem Accounted.fits (h : Accounted s l) (hok : Removers s e) (htime : InTime s e) {o : Op α}
    (hperf : performs s.2 e = some o) :
    Fits (.op o) s.2.data l ∧ ∀ existing new, o ≠ .insert existing new := by
  have hpop : ∀ w : Wait, Fits (.op w.op) s.2.data l ∧
      ∀ existing new, (w.op : Op α) ≠ .insert existing new := by
    intro w
    cases w <;> exact ⟨⟨fun a ha => (by cases ha), fun a ha => (by cases ha)⟩, by simp [Wait.op]⟩
  cases e with
  | call t o' =>
      cases hperf
      cases o with
      | insert existing new => exact absurd hok id
      | erase node =>
          refine ⟨⟨fun a ha => (by cases ha), fun a ha => ?_⟩, by simp⟩
          cases ha
          exact h.spans.linked_iff.mp htime
      | pushBack newNode =>
          refine ⟨h.spans.fits ⟨fun a ha => hok a ha, fun a ha => (by cases ha)⟩, by simp⟩
      | popFront timeout => exact hpop (.front timeout)
      | popBack timeout => exact hpop (.back timeout)
  | recheck t =>
      obtain ⟨w, -, rfl⟩ := Option.map_eq_some_iff.mp hperf
      exact hpop w
  | spurious t => cases hperf
  | timeout t =>
      obtain ⟨w, -, rfl⟩ := Option.map_eq_some_iff.mp hperf
      exact hpop w

omit [DecidableEq T] [DecidableEq α] in
/-- No push makes the list longer than the counter can count. -/
theorem Accounted.push_small (h : Accounted s l) (htime : InTime s e) {n : α}
    (hperf : performs s.2 e = some (.pushBack (some n))) : (l ++ [n]).length < UInt32.size := by
  rw [List.length_append, List.length_singleton, ← size_succ_ne_zero_iff h.spans.list h.small]
  have hpop : ∀ w : Wait, (w.op : Op α) ≠ .pushBack (some n) := by
    intro w
    cases w <;> simp [Wait.op]
  cases e with
  | call t o =>
      cases hperf
      exact htime
  | spurious t => cases hperf
  | recheck t | timeout t =>
      obtain ⟨w, -, hw⟩ := Option.map_eq_some_iff.mp hperf
      exact absurd hw (hpop w)

/-- A step in time keeps the accounts. -/
theorem Accounted.step (h : Accounted s l) (hok : Removers s e) (htime : InTime s e)
    (hs : (removals T α).step s e = some s') : ∃ l', Accounted s' l' := by
  obtain ⟨r, hstep, hlog⟩ := removals_step hs
  rcases spans_step h.spans hstep fun o ho => (h.fits hok htime ho).1 with
    ⟨hdata, rfl, -⟩ | ⟨o, v, l', hperf, rfl, hseq, hspans, -⟩
  · -- a step that performs no operation, such as falling asleep
    have hshows : shows s.2 e = [] := by
      simp only [shows, hstep]
      split
      · rename_i heq
        cases heq
      · rfl
    rw [hshows, List.append_nil] at hlog
    exact ⟨l, by rw [hdata]; exact h.spans, h.small, by rw [hlog]; exact h.standing,
      by rw [hlog]; exact h.once⟩
  · -- a step that performs one: nothing, an insertion or a removal
    have hshows : shows s.2 e = changes o v := by simp only [shows, hstep, hperf]
    obtain ⟨hfit, hinsert⟩ := h.fits hok htime hperf
    rw [hshows] at hlog
    refine ⟨l', ?_⟩
    rcases changes_of_runSeq h.spans.list.nodup (fun n hn => hfit.linked n (by rw [hn]; rfl))
        hinsert hseq with ⟨hnone, rfl⟩ | ⟨n, rfl, hins, rfl⟩ | ⟨n, hn, hrem, hlen, hout⟩
    · rw [hnone, List.append_nil] at hlog
      exact ⟨hspans, h.small, by rw [hlog]; exact h.standing, by rw [hlog]; exact h.once⟩
    · rw [hins] at hlog
      refine ⟨hspans, h.push_small htime hperf, fun a ha => ?_, ?_⟩
      · rw [hlog]
        rcases List.mem_append.mp ha with ha | ha
        · exact (h.standing a ha).snoc (by simp)
        · rw [List.mem_singleton.mp ha]
          exact standing_inserted s.1 n
      · rw [hlog]
        exact h.once.snoc fun n' hn' => by cases hn'
    · rw [hrem] at hlog
      refine ⟨hspans, Nat.lt_of_le_of_lt hlen h.small, fun a ha => ?_, ?_⟩
      · obtain ⟨hin, hne⟩ := hout a ha
        rw [hlog]
        exact (h.standing a hin).snoc (by simpa using fun heq => hne heq.symm)
      · rw [hlog]
        refine h.once.snoc fun n' hn' => ?_
        cases hn'
        exact h.standing n hn

omit [DecidableEq T] [DecidableEq α] in
theorem Accounted.counts (h : Accounted s l) : Counts s.2.data :=
  ⟨l, follows_of_represents h.spans.list, (h.spans.list.size_toNat h.small).symm⟩

/-- An `erase` of a node always reports success. -/
theorem erase_true {c c' : Config T (ListMem α) Wait} {t : T} {n : α} {r : Option (Ret α)}
    (hs : monitor.stepRet c (.call t (.erase (some n))) = some (c', r)) :
    r = some (.bool true) := by
  obtain ⟨-, sec, hsec, happ⟩ := monitor.call_some hs
  cases hsec
  cases happ
  rfl

/-- A `push_back` of a node puts it at the end. -/
theorem pushBack_step {c c' : Config T (ListMem α) Wait} {t : T} {n : α} {r : Option (Ret α)}
    (h : c.data.Spans l) (hfit : Fits (.op (.pushBack (some n))) c.data l)
    (hs : monitor.stepRet c (.call t (.pushBack (some n))) = some (c', r)) :
    c'.data.Spans (l ++ [n]) := by
  obtain ⟨-, sec, hsec, happ⟩ := monitor.call_some hs
  have hc' : c' = (monitor.apply t sec c).1 := by rw [happ]
  rw [enterSection_update rfl] at hsec
  obtain ⟨⟨v, m'⟩, hrun, rfl⟩ := Option.map_eq_some_iff.mp hsec
  obtain ⟨l', hseq, hspans, -⟩ := h.run hfit hrun
  cases hseq
  rw [hc']
  exact hspans

/-- A step keeps the promises exactly if it is in time. -/
theorem Accounted.kept_iff (h : Accounted s l) (hok : Removers s e)
    (hs : (removals T α).step s e = some s') : Kept s e ↔ InTime s e := by
  obtain ⟨r, hstep, -⟩ := removals_step hs
  constructor
  · rintro ⟨hgood, herase⟩
    cases e with
    | call t o =>
        cases o with
        | erase node =>
            cases node with
            | none => trivial
            | some n =>
                by_contra hlinked
                obtain ⟨hfalse, -⟩ := herase t n s'.2 r rfl hlinked hstep
                cases hfalse.symm.trans (erase_true hstep)
        | pushBack newNode =>
            cases newNode with
            | none => trivial
            | some n =>
                -- the list is longer by `n`, and the counter still counts it
                obtain ⟨-, l', hfollows, hlen⟩ := hgood s' hs
                have hfit := h.spans.fits (o := .pushBack (some n))
                  ⟨fun a ha => hok a ha, fun a ha => by cases ha⟩
                have hspans := pushBack_step h.spans hfit hstep
                show s.2.data.list.mSize + 1 ≠ 0
                rw [size_succ_ne_zero_iff h.spans.list h.small]
                have hl' := (follows_of_represents hspans.list).unique hfollows
                have hlt := s'.2.data.list.mSize.toNat_lt
                rw [← hlen, ← hl', List.length_append, List.length_singleton] at hlt
                exact hlt
        | _ => trivial
    | _ => trivial
  · intro htime
    refine ⟨fun s₁ hs₁ => ?_, ?_⟩
    · obtain ⟨l', h'⟩ := h.step hok htime hs₁
      exact ⟨h'.once, h'.counts⟩
    · rintro t n c' r rfl hlinked
      exact absurd htime hlinked

end Steps

/-- Nobody has called anything yet. -/
def nobody (T α : Type*) : List (Change α) × Config T (ListMem α) Wait :=
  ([], ⟨⟨create, fun _ => ListHook.unlinked⟩, fun _ => .out⟩)

/-- However many threads push, pop and erase, and however their steps fall: no
    insertion is reported removed twice, a late `erase` returns false and changes
    nothing, and `mSize` is the number of nodes reached from `mHead`, at every
    moment of the run, if and only if every `erase` gets the lock while its node is
    linked and no `push_back` finds `mSize` at its largest value. -/
theorem removed_once_iff {evs : List (MonitorEv T (Op α))}
    {s : List (Change α) × Config T (ListMem α) Wait} :
    (removals T α).Run (fun s e => Removers s e ∧ Kept s e) (nobody T α) evs s ↔
      (removals T α).Run (fun s e => Removers s e ∧ InTime s e) (nobody T α) evs s := by
  refine System.run_iff_of_invariant (I := fun s => ∃ l, Accounted s l) ?_ ?_ ?_
  · refine ⟨[], .create rfl fun _ => rfl, by show 0 < UInt32.size; decide,
      fun n hn => absurd hn List.not_mem_nil, ?_⟩
    intro n x y z hnil
    simp [nobody] at hnil
  · rintro s e s' ⟨l, h⟩ hs
    exact and_congr_right fun hok => h.kept_iff hok hs
  · rintro s e s' ⟨l, h⟩ ⟨hok, hkept⟩ hs
    exact h.step hok ((h.kept_iff hok hs).mp hkept) hs

/-- A node is pushed, popped by one thread and erased by another, which had seen it
    in the list: both are told that they have removed it, and `mSize` of the empty
    list is the largest number it can be. -/
theorem erase_after_pop : ∃ s : List (Change Nat) × Config Bool (ListMem Nat) Wait,
    (removals Bool Nat).Run Removers (nobody Bool Nat)
      [.call true (.pushBack (some 1)), .call true (.popFront 0),
        .call false (.erase (some 1))] s ∧
    s.1 = [.inserted 1, .removed 1, .removed 1] ∧ ¬ Once s.1 ∧
    s.2.data.list = ⟨none, none, 4294967295⟩ := by
  have hfresh : Removers (nobody Bool Nat) (.call true (.pushBack (some 1))) := by
    rintro n - ⟨x, hx, -⟩
    cases hx
  refine ⟨_, .cons hfresh rfl (.cons trivial rfl (.cons ?_ rfl .nil)), rfl, ?_, rfl⟩
  · intro n hn
    cases hn
    decide
  · intro honce
    exact absurd (honce 1 [.inserted 1] [] [] rfl) List.not_mem_nil

end SafeList
end Fredlib
