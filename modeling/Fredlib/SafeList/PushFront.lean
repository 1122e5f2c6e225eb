/-
  Fredlib.SafeList.PushFront

  `push_front` next to the other operations, thread by thread.

  `push_front(newNode)` is `insert(mHead, newNode)`: the argument `mHead` is read
  before `insert` takes the lock, so other threads may run in between.  Here the
  read and the locked body are two steps; every other operation is one.

  If the head that was read is still the head when the body runs, `push_front`
  does what it says.  If not, it does not: it returns false, or links its node
  where it is not the first one, or where no list sees it.  A run keeps the
  promise of `push_front` exactly if all its steps meet that condition
  (`push_front_atomic_iff`).
-/

import Fredlib.SafeList.Runs

namespace Fredlib

open Lib Lib.DList SafeList

variable {T α : Type*} [DecidableEq T] [DecidableEq α]

/-- One list, and for every thread inside `push_front` its new node and the
    `mHead` it has read. -/
structure Fronts (T α : Type*) where
  mem : ListMem α
  pushing : T → Option (α × Option α)

namespace Fronts

/-- The steps: the two of `push_front`, and the locked body of any other operation. -/
inductive Ev (T α : Type*)
  | readHead (t : T) (newNode : α)
  | insert (t : T)
  | op (t : T) (o : Op α)

/-- The threads around one list, empty at the start, all hooks unlinked. -/
def system (T α : Type*) [DecidableEq T] [DecidableEq α] : System (Fronts T α) (Ev T α) where
  init s :=
    s.mem.list = SafeList.create ∧ (∀ a, s.mem.heap a = ListHook.unlinked) ∧
      ∀ t, s.pushing t = none
  step s
    | .readHead t newNode =>
        match s.pushing t with
        | none =>
            some { s with
              pushing := Function.update s.pushing t (some (newNode, s.mem.list.mHead)) }
        | some _ => none
    | .insert t =>
        match s.pushing t with
        | none => none
        | some (newNode, readHead) =>
            some
              { mem := (s.mem.pushFront readHead (some newNode)).2
                pushing := Function.update s.pushing t none }
    | .op t o =>
        match s.pushing t with
        | none => (s.mem.run (.op o)).map fun r => { s with mem := r.2 }
        | some _ => none

/-- `a` is linked in the list. -/
def Linked (s : Fronts T α) (a : α) : Prop :=
  Reaches (fun a => (s.mem.heap a).next) s.mem.list.mHead a

/-- `a` is linked nowhere and no other call is about to link it. -/
def Fresh (s : Fronts T α) (a : α) : Prop :=
  ¬ s.Linked a ∧ ∀ t n r, s.pushing t = some (n, r) → n ≠ a

/-- The callers push fresh nodes and erase linked ones. -/
def Allowed (s : Fronts T α) : Ev T α → Prop
  | .readHead _ newNode => s.Fresh newNode
  | .op _ (.pushBack newNode) => ∃ n, newNode = some n ∧ s.Fresh n
  | .op _ (.erase node) => ∃ n, node = some n ∧ s.Linked n
  | .op _ (.insert _ _) => False
  | _ => True

-- ============================================================================
-- What push_front promises
-- ============================================================================

/-- Following `next` from `p` visits the nodes of `l` and stops. -/
def Follows (next : α → Option α) : Option α → List α → Prop
  | p, [] => p = none
  | p, a :: l => p = some a ∧ Follows next (next a) l

/-- The nodes reached from `mHead` through `next` end at `mTail`, are free of
    duplicates, and number `mSize`. -/
def Sound (m : ListMem α) : Prop :=
  ∃ l, Follows (fun a => (m.heap a).next) m.list.mHead l ∧ m.list.mTail = l.getLast? ∧
    l.Nodup ∧ l.length = m.list.mSize.toNat

/-- The step leaves a sound list, and if it is the locked body of a `push_front`,
    that returns true and its node is the first one. -/
def Kept (s : Fronts T α) (e : Ev T α) : Prop :=
  ∀ s', (system T α).step s e = some s' →
    Sound s'.mem ∧
      ∀ t newNode readHead, e = .insert t → s.pushing t = some (newNode, readHead) →
        (s.mem.pushFront readHead (some newNode)).1 = true ∧ s'.mem.list.mHead = some newNode

/-- The head a `push_front` has read is the head when its body runs, and no
    insertion finds the counter at its largest value. -/
def HeadStands (s : Fronts T α) : Ev T α → Prop
  | .insert t => ∀ newNode readHead, s.pushing t = some (newNode, readHead) →
      readHead = s.mem.list.mHead ∧ s.mem.list.mSize + 1 ≠ 0
  | .op _ (.pushBack _) => s.mem.list.mSize + 1 ≠ 0
  | _ => True

omit [DecidableEq α] in
/-- A walk along `next` is determined by where it starts. -/
theorem Follows.unique {next : α → Option α} {p : Option α} {l l' : List α}
    (h : Follows next p l) (h' : Follows next p l') : l = l' := by
  induction l generalizing p l' with
  | nil =>
      cases l' with
      | nil => rfl
      | cons b l' => exact absurd (h.symm.trans h'.1) (by simp)
  | cons a l ih =>
      cases l' with
      | nil => exact absurd (h.1.symm.trans h') (by simp)
      | cons b l' =>
          have hab : a = b := Option.some.inj (h.1.symm.trans h'.1)
          subst hab
          rw [ih h.2 h'.2]

omit [DecidableEq α] in
theorem follows_of_chain {prev next : α → Option α} {p : Option α} {l : List α}
    (h : Chain prev next p l none) : Follows next l.head? l := by
  induction l generalizing p with
  | nil => rfl
  | cons a l ih =>
      refine ⟨rfl, ?_⟩
      have hnext : next a = l.head? := by simpa using h.2.1
      rw [hnext]
      exact ih h.2.2

-- ============================================================================
-- The invariant of runs that keep the condition
-- ============================================================================

variable {s s' : Fronts T α} {l l' : List α} {m m' : ListMem α}

/-- The list represents `l`, shorter than the counter can count; the nodes that
    are being pushed are distinct and outside; whatever is outside is unlinked. -/
structure Inv (s : Fronts T α) (l : List α) : Prop where
  list : s.mem.Represents l
  small : l.length < UInt32.size
  outside : ∀ t n r, s.pushing t = some (n, r) → n ∉ l
  distinct : ∀ t t' n r r', s.pushing t = some (n, r) → s.pushing t' = some (n, r') → t = t'
  unlinked : ∀ a, a ∉ l → s.mem.heap a = ListHook.unlinked

omit [DecidableEq α] in
theorem follows_of_represents (h : m.Represents l) :
    Follows (fun a => (m.heap a).next) m.list.mHead l := by
  rw [h.head]
  exact follows_of_chain h.links

omit [DecidableEq α] in
/-- A represented list is sound exactly below `2 ^ 32` nodes. -/
theorem sound_iff (h : m.Represents l) : Sound m ↔ l.length < UInt32.size := by
  constructor
  · rintro ⟨l', hfollows, -, -, hlen⟩
    rw [(follows_of_represents h).unique hfollows, hlen]
    exact m.list.mSize.toNat_lt
  · intro hlt
    exact ⟨l, follows_of_represents h, h.tail, h.nodup, (h.size_toNat hlt).symm⟩

omit [DecidableEq α] in
/-- The counter is at its largest value when one more node would wrap it. -/
theorem size_succ_ne_zero_iff (h : m.Represents l) (hlt : l.length < UInt32.size) :
    m.list.mSize + 1 ≠ 0 ↔ l.length + 1 < UInt32.size := by
  have hsize : UInt32.size = 4294967296 := rfl
  rw [h.size, ← ListMem.ofNat_succ, ne_eq, ← UInt32.toNat_inj, UInt32.toNat_ofNat',
    UInt32.toNat_zero]
  omega

omit [DecidableEq α] in
/-- A call lengthens the sequence by its new node at most. -/
theorem length_le_of_moves {call : Call α} (hmoves : Moves call m m' l l') (hnodup : l'.Nodup) :
    l'.length ≤ l.length + call.newNode.toList.length := by
  have hsub : l' ⊆ l ++ call.newNode.toList := by
    intro a ha
    rw [List.mem_append, Option.mem_toList]
    exact hmoves.inside a ha
  have hle := (List.subperm_of_subset hnodup hsub).length_le
  rwa [List.length_append] at hle

omit [DecidableEq T] [DecidableEq α] in
theorem Inv.linked_iff (h : Inv s l) {a : α} : s.Linked a ↔ a ∈ l :=
  h.list.reaches_iff

omit [DecidableEq T] [DecidableEq α] in
/-- A fresh node is outside and unlinked. -/
theorem Inv.fresh (h : Inv s l) {n : α} (hn : s.Fresh n) :
    n ∉ l ∧ s.mem.heap n = ListHook.unlinked := by
  have hout : n ∉ l := fun hmem => hn.1 (h.linked_iff.mpr hmem)
  exact ⟨hout, h.unlinked n hout⟩

omit [DecidableEq T] [DecidableEq α] in
/-- What a call does to the invariant, whoever has finished a `push_front` by it. -/
theorem Inv.update {call : Call α} {pushing : T → Option (α × Option α)} (h : Inv s l)
    (hrep : m'.Represents l') (hmoves : Moves call s.mem m' l l') (hsmall : l'.length < UInt32.size)
    (hsub : ∀ t n r, pushing t = some (n, r) → s.pushing t = some (n, r))
    (hnew : ∀ t n r, pushing t = some (n, r) → call.newNode ≠ some n) :
    Inv ⟨m', pushing⟩ l' := by
  refine ⟨hrep, hsmall, ?_, ?_, ?_⟩
  · intro t n r ht hmem
    rcases hmoves.inside n hmem with hin | hin
    · exact h.outside t n r (hsub t n r ht) hin
    · exact hnew t n r ht hin
  · exact fun t t' n r r' ht ht' => h.distinct t t' n r r' (hsub t n r ht) (hsub t' n r' ht')
  · intro a ha
    by_cases htouched : a ∈ l ∨ call.newNode = some a
    · exact hmoves.out a ha htouched
    · rw [not_or] at htouched
      show m'.heap a = _
      rw [hmoves.frame a htouched.1 htouched.2, h.unlinked a htouched.1]

-- ============================================================================
-- The steps
-- ============================================================================

omit [DecidableEq T] in
/-- The body of a `push_front` that has read the head. -/
theorem Inv.pushFront_head (h : Inv s l) {t : T} {n : α} {r : Option α}
    (hpush : s.pushing t = some (n, r)) :
    ∃ m', s.mem.pushFront s.mem.list.mHead (some n) = (true, m') ∧ m'.Represents (n :: l) ∧
      Moves (.pushFront (some n)) s.mem m' l (n :: l) := by
  have hout := h.outside t n r hpush
  have hfit : Fits (.pushFront (some n)) s.mem l := by
    refine ⟨fun a ha => ?_, fun a ha => by cases ha⟩
    cases ha
    exact ⟨hout, h.unlinked n hout⟩
  rcases answers h.list hfit with ⟨hnone, -⟩ | ⟨v, l', m', hseq, hrun, hrep, hmoves⟩
  · cases hnone
  · cases hseq
    simp only [ListMem.run, Option.some.injEq, Prod.mk.injEq, Ret.bool.injEq] at hrun
    exact ⟨m', Prod.ext hrun.1 hrun.2, hrep, hmoves⟩

/-- If the head that was read is not the head, the body fails or its node does
    not become the first one. -/
theorem pushFront_stale {n : α} {r : Option α} (h : m.Represents l) (hn : n ∉ l)
    (htrue : (m.pushFront r (some n)).1 = true)
    (hfirst : (m.pushFront r (some n)).2.list.mHead = some n) : r = m.list.mHead := by
  have hempty := h.empty_eq
  cases r with
  | none =>
      cases l with
      | nil => rw [h.head]; rfl
      | cons a l =>
          rw [List.isEmpty_cons] at hempty
          simp [ListMem.pushFront, ListMem.insert, hempty] at htrue
  | some e =>
      cases l with
      | nil =>
          rw [List.isEmpty_nil] at hempty
          simp [ListMem.pushFront, ListMem.insert, hempty] at htrue
      | cons a l =>
          rw [List.isEmpty_cons] at hempty
          by_contra hne
          have hne' : ¬ m.list.mHead = some e := fun heq => hne heq.symm
          simp only [ListMem.pushFront, ListMem.insert, hempty, if_neg hne'] at hfirst
          -- the old head is still the first node, and is not the new one
          rw [h.head, List.head?_cons, Option.some.injEq] at hfirst
          exact hn (hfirst ▸ List.mem_cons_self)

omit [DecidableEq T] [DecidableEq α] in
/-- A call of another operation fits the sequence. -/
theorem Inv.fits_op (h : Inv s l) {t : T} {o : Op α} (hok : s.Allowed (.op t o)) :
    Fits (.op o) s.mem l := by
  constructor
  · intro a ha
    cases o with
    | insert existingNode newNode => exact absurd hok id
    | pushBack newNode =>
        obtain ⟨n, rfl, hfresh⟩ := hok
        cases ha
        exact h.fresh hfresh
    | _ => cases ha
  · intro a ha
    cases o with
    | insert existingNode newNode => exact absurd hok id
    | erase node =>
        obtain ⟨n, rfl, hlinked⟩ := hok
        cases ha
        exact h.linked_iff.mp hlinked
    | _ => cases ha

/-- The locked body of another operation, on the sequence. -/
theorem Inv.op_step (h : Inv s l) {t : T} {o : Op α} (hok : s.Allowed (.op t o))
    (hs : (system T α).step s (.op t o) = some s') :
    s'.pushing = s.pushing ∧ ∃ v l', runSeq l (.op o) = some (v, l') ∧
      s'.mem.Represents l' ∧ Moves (.op o) s.mem s'.mem l l' := by
  simp only [system] at hs
  split at hs
  · rcases answers h.list (h.fits_op hok) with ⟨-, hnone⟩ |
      ⟨v, l', m', hseq, hrun, hrep, hmoves⟩
    · rw [hnone] at hs
      cases hs
    · rw [hrun] at hs
      cases hs
      exact ⟨rfl, v, l', hseq, hrep, hmoves⟩
  · cases hs

/-- The body of `push_front` keeps its promise exactly if the head stands. -/
theorem Inv.kept_insert_iff (h : Inv s l) {t : T}
    (hs : (system T α).step s (.insert t) = some s') :
    s.Kept (.insert t) ↔ s.HeadStands (.insert t) := by
  simp only [system] at hs
  split at hs
  · cases hs
  · rename_i n r hpush
    obtain ⟨m', hrun, hrep, -⟩ := h.pushFront_head hpush
    have hsound : Sound m' ↔ s.mem.list.mSize + 1 ≠ 0 := by
      rw [sound_iff hrep, List.length_cons, size_succ_ne_zero_iff h.list h.small]
    constructor
    · intro hkept n' r' hpush'
      rw [hpush] at hpush'
      cases hpush'
      obtain ⟨hsnd, hins⟩ := hkept s' (by simp only [system, hpush]; exact hs)
      obtain ⟨htrue, hfirst⟩ := hins t n r rfl hpush
      cases hs
      -- the result says success and `n` is first: then the head read was still the head
      have hstands := pushFront_stale h.list (h.outside t n r hpush) htrue hfirst
      subst hstands
      rw [hrun] at hsnd
      exact ⟨rfl, hsound.mp hsnd⟩
    · intro hstands s₁ hs₁
      obtain ⟨rfl, hfull⟩ := hstands n r hpush
      simp only [system, hpush, hrun, Option.some.injEq] at hs₁
      subst hs₁
      refine ⟨hsound.mpr hfull, fun t' n' r' he hpush' => ?_⟩
      cases he
      rw [hpush] at hpush'
      cases hpush'
      rw [hrun]
      exact ⟨rfl, hrep.head⟩

/-- The other operations keep theirs, unless the counter wraps. -/
theorem Inv.kept_op_iff (h : Inv s l) {t : T} {o : Op α} (hok : s.Allowed (.op t o))
    (hs : (system T α).step s (.op t o) = some s') :
    s.Kept (.op t o) ↔ s.HeadStands (.op t o) := by
  obtain ⟨-, v, l', hseq, hrep, hmoves⟩ := h.op_step hok hs
  have hkept : s.Kept (.op t o) ↔ l'.length < UInt32.size := by
    rw [← sound_iff hrep]
    constructor
    · exact fun hkept => (hkept s' hs).1
    · intro hsound s₁ hs₁
      rw [hs] at hs₁
      cases hs₁
      exact ⟨hsound, fun _ _ _ he => by cases he⟩
  have hle := length_le_of_moves hmoves hrep.nodup
  have hsmall := h.small
  rw [hkept]
  cases o with
  | pushBack newNode =>
      obtain ⟨n, rfl, -⟩ := hok
      cases hseq
      -- only `push_back` makes the list longer
      rw [HeadStands, size_succ_ne_zero_iff h.list h.small, List.length_append,
        List.length_singleton]
  | insert existingNode newNode => exact absurd hok id
  | _ =>
      simp only [Call.newNode, Option.toList_none, List.length_nil] at hle
      exact ⟨fun _ => trivial, fun _ => by omega⟩

/-- Reading the head keeps every promise. -/
theorem Inv.kept_readHead (h : Inv s l) {t : T} {n : α} : s.Kept (.readHead t n) := by
  intro s' hs
  simp only [system] at hs
  split at hs
  · cases hs
    exact ⟨(sound_iff h.list).mpr h.small, fun _ _ _ he => by cases he⟩
  · cases hs

theorem Inv.kept_iff (h : Inv s l) {e : Ev T α} (hok : s.Allowed e)
    (hs : (system T α).step s e = some s') : s.Kept e ↔ s.HeadStands e := by
  cases e with
  | readHead t n => exact ⟨fun _ => trivial, fun _ => h.kept_readHead⟩
  | insert t => exact h.kept_insert_iff hs
  | op t o => exact h.kept_op_iff hok hs

/-- A step that keeps the promises keeps the invariant. -/
theorem Inv.step (h : Inv s l) {e : Ev T α} (hok : s.Allowed e) (hkept : s.Kept e)
    (hs : (system T α).step s e = some s') : ∃ l', Inv s' l' := by
  obtain ⟨hsound, -⟩ := hkept s' hs
  cases e with
  | readHead t n =>
      simp only [system] at hs
      split at hs
      · rename_i hnone
        cases hs
        have hpushing : ∀ t' n' r', Function.update s.pushing t (some (n, s.mem.list.mHead)) t' =
            some (n', r') → (t' = t ∧ n' = n) ∨ (t' ≠ t ∧ s.pushing t' = some (n', r')) := by
          intro t' n' r' ht'
          by_cases heq : t' = t
          · subst heq
            simp only [Function.update_self, Option.some.injEq, Prod.mk.injEq] at ht'
            exact .inl ⟨rfl, ht'.1.symm⟩
          · rw [Function.update_of_ne heq] at ht'
            exact .inr ⟨heq, ht'⟩
        refine ⟨l, h.list, h.small, ?_, ?_, h.unlinked⟩
        · intro t' n' r' ht'
          rcases hpushing t' n' r' ht' with ⟨-, rfl⟩ | ⟨-, hold⟩
          · exact (h.fresh hok).1
          · exact h.outside t' n' r' hold
        · -- the new node is in no other call
          intro t₁ t₂ n' r₁ r₂ h₁ h₂
          rcases hpushing t₁ n' r₁ h₁ with ⟨rfl, rfl⟩ | ⟨-, hold₁⟩ <;>
            rcases hpushing t₂ n' r₂ h₂ with ⟨rfl, heq⟩ | ⟨-, hold₂⟩
          · rfl
          · exact absurd rfl (hok.2 t₂ n' r₂ hold₂)
          · exact absurd heq (hok.2 t₁ n' r₁ hold₁)
          · exact h.distinct t₁ t₂ n' r₁ r₂ hold₁ hold₂
      · cases hs
  | insert t =>
      have hstands := (h.kept_insert_iff hs).mp hkept
      simp only [system] at hs
      split at hs
      · cases hs
      · rename_i n r hpush
        obtain ⟨rfl, -⟩ := hstands n r hpush
        obtain ⟨m', hrun, hrep, hmoves⟩ := h.pushFront_head hpush
        rw [hrun] at hs
        cases hs
        refine ⟨n :: l, h.update hrep hmoves ((sound_iff hrep).mp hsound) ?_ ?_⟩
        · intro t' n' r' ht'
          by_cases heq : t' = t
          · subst heq
            simp at ht'
          · rwa [Function.update_of_ne heq] at ht'
        · rintro t' n' r' ht' heq
          cases heq
          by_cases htt : t' = t
          · subst htt
            simp at ht'
          · rw [Function.update_of_ne htt] at ht'
            exact htt (h.distinct t' t n r' _ ht' hpush)
  | op t o =>
      obtain ⟨hpushing, v, l', -, hrep, hmoves⟩ := h.op_step hok hs
      have hinv : Inv ⟨s'.mem, s.pushing⟩ l' := by
        refine h.update hrep hmoves ((sound_iff hrep).mp hsound) (fun _ _ _ ht => ht) ?_
        intro t' n r ht' heq
        cases o with
        | pushBack newNode =>
            obtain ⟨n', rfl, hfresh⟩ := hok
            cases heq
            exact hfresh.2 t' n r ht' rfl
        | insert existingNode newNode => exact hok
        | _ => cases heq
      rw [← hpushing] at hinv
      exact ⟨l', hinv⟩

omit [DecidableEq T] in
theorem inv_of_init [DecidableEq T] (h : (system T α).init s) : Inv s [] := by
  obtain ⟨hlist, hheap, hpushing⟩ := h
  have hnone : ∀ t n r, s.pushing t ≠ some (n, r) := by
    intro t n r ht
    rw [hpushing t] at ht
    cases ht
  refine ⟨?_, Nat.zero_lt_succ _, fun t n r ht => absurd ht (hnone t n r),
    fun t _ n r _ ht => absurd ht (hnone t n r), fun a _ => hheap a⟩
  have hcreate := ListMem.Represents.create (α := α) s.mem.heap
  exact hcreate.frame hlist fun a _ => rfl

theorem inv_of_reachable
    (h : (system T α).ReachableBy (fun s e => s.Allowed e ∧ s.HeadStands e) s) :
    ∃ l, Inv s l := by
  refine h.invariant (P := fun s => ∃ l, Inv s l) (fun s hs => ⟨[], inv_of_init hs⟩) ?_
  rintro s e s' - ⟨l, hinv⟩ ⟨hok, hstands⟩ hs
  exact hinv.step hok ((hinv.kept_iff hok hs).mpr hstands) hs

/-- **`push_front` is atomic exactly while its head stands.**  Take any run of
    threads that push fresh nodes and erase linked ones.  At all its steps the
    list stays sound and every `push_front` returns true with its node as the
    first one, if and only if at all its steps the head read by a `push_front`
    is the head when its body runs, and no insertion finds the counter full. -/
theorem push_front_atomic_iff {evs : List (Ev T α)} (hinit : (system T α).init s)
    (hrun : (system T α).Run Allowed s evs s') :
    (system T α).Run (fun s e => s.Allowed e ∧ s.Kept e) s evs s' ↔
      (system T α).Run (fun s e => s.Allowed e ∧ s.HeadStands e) s evs s' := by
  refine hrun.and_iff (.init hinit) ?_
  intro s₁ e s₂ hreach hok hs
  obtain ⟨l, hinv⟩ := inv_of_reachable hreach
  exact hinv.kept_iff hok hs

/-- Two threads at the start: an empty list. -/
def start : Fronts Bool Nat :=
  { mem := ⟨SafeList.create, fun _ => ListHook.unlinked⟩, pushing := fun _ => none }

/-- A pop that finds nothing, between the two steps of a `push_front`, does no
    harm. -/
theorem push_front_atomic_iff_start : ∃ s',
    (system Bool Nat).Run (fun s e => s.Allowed e ∧ s.Kept e) start
      [.readHead true 7, .op false (.popFront 1), .insert true] s' := by
  have hfresh : start.Fresh 7 := by
    refine ⟨?_, fun t n r ht => by cases ht⟩
    rintro ⟨x, hx, -⟩
    cases hx
  have hstands : ∀ {s : Fronts Bool Nat} {n : Nat}, s.mem.list = SafeList.create →
      s.pushing true = some (n, none) → s.HeadStands (.insert true) := by
    intro s n hlist hpush n' r hpush'
    rw [hpush] at hpush'
    cases hpush'
    rw [hlist]
    exact ⟨rfl, by decide⟩
  have hrun : ∃ s', (system Bool Nat).Run (fun s e => s.Allowed e ∧ s.HeadStands e) start
      [.readHead true 7, .op false (.popFront 1), .insert true] s' :=
    ⟨_, .cons ⟨hfresh, trivial⟩ rfl (.cons ⟨trivial, trivial⟩ rfl
      (.cons ⟨trivial, hstands rfl rfl⟩ rfl .nil))⟩
  obtain ⟨s', hs'⟩ := hrun
  exact ⟨s', (push_front_atomic_iff ⟨rfl, fun _ => rfl, fun _ => rfl⟩
    (hs'.mono fun _ _ h => h.1)).mpr hs'⟩

/-- With `1` and `2` in the list, one thread reads the head `1`, another pops it,
    and the first links its node `9` before `1`: `push_front` returns true, but
    only `2` is reached from `mHead` while `mSize` is two. -/
theorem push_front_not_atomic :
    ∃ s, (system Bool Nat).ReachableBy Allowed s ∧ ¬ Sound s.mem := by
  have h0 : (system Bool Nat).ReachableBy Allowed start :=
    .init ⟨rfl, fun _ => rfl, fun _ => rfl⟩
  have hfresh : ∀ {s : Fronts Bool Nat} {l : List Nat} {n : Nat}, s.mem.Represents l → n ∉ l →
      (∀ t, s.pushing t = none) → s.Fresh n := by
    intro s l n hrep hn hidle
    exact ⟨fun hlinked => hn (hrep.reaches_iff.mp hlinked), fun t _ _ ht => by simp [hidle t] at ht⟩
  have h1 := h0.step (.op false (.pushBack (some 1)))
    ⟨1, rfl, hfresh (.create _) (by decide) fun _ => rfl⟩ rfl
  have h2 := h1.step (.op false (.pushBack (some 2)))
    ⟨2, rfl, hfresh (l := [1]) ⟨by decide, rfl, rfl, ⟨rfl, rfl, trivial⟩, rfl⟩ (by decide)
      fun _ => rfl⟩ rfl
  have h3 := h2.step (.readHead true 9)
    (hfresh (l := [1, 2]) ⟨by decide, rfl, rfl, ⟨rfl, rfl, rfl, rfl, trivial⟩, rfl⟩ (by decide)
      fun _ => rfl) rfl
  have h4 := h3.step (.op false (.popFront 0)) trivial rfl
  have h5 := h4.step (.insert true) trivial rfl
  refine ⟨_, h5, ?_⟩
  rintro ⟨l, hfollows, -, -, hlen⟩
  have hl := hfollows.unique (show Follows _ _ [2] from ⟨rfl, rfl⟩)
  subst hl
  revert hlen
  decide

end Fronts
end Fredlib
