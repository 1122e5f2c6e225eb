/-
  Fredlib.SafeList.Spec

  What the operations of `SafeList` do to the sequence a list represents.

  `Represents m s` is the representation invariant: the nodes of `s`, all
  different, are chained between two null pointers, `mHead` and `mTail` are its
  ends and `mSize` its length as a `uint32_t`.  Each operation has one lemma
  that gives its return value, the sequence afterwards, and its frame: nodes
  outside the sequence are left alone, and a node taken out is unlinked.
-/

import Fredlib.Lib.DList
import Fredlib.SafeList.Basic

namespace Fredlib

open Lib Lib.DList

variable {α : Type*} [DecidableEq α]

namespace ListMem

/-- The list is the sequence `s` of hooks. -/
structure Represents (m : ListMem α) (s : List α) : Prop where
  nodup : s.Nodup
  head : m.list.mHead = s.head?
  tail : m.list.mTail = s.getLast?
  links : Chain (fun a => (m.heap a).prev) (fun a => (m.heap a).next) none s none
  size : m.list.mSize = UInt32.ofNat s.length

variable {m m' : ListMem α} {s : List α} {n e : α}

omit [DecidableEq α] in
theorem Represents.create (h : Heap α) : Represents ⟨SafeList.create, h⟩ [] :=
  ⟨List.nodup_nil, rfl, rfl, trivial, rfl⟩

theorem Represents.empty_eq (h : Represents m s) : m.list.empty = s.isEmpty := by
  cases s with
  | nil => simp [SafeList.empty, h.head, h.tail]
  | cons a s => simp [SafeList.empty, h.head]

omit [DecidableEq α] in
/-- Below `2 ^ 32` nodes the counter is the length. -/
theorem Represents.size_toNat (h : Represents m s) (hlt : s.length < UInt32.size) :
    m.list.mSize.toNat = s.length := by
  rw [h.size, UInt32.toNat_ofNat']
  exact Nat.mod_eq_of_lt hlt

omit [DecidableEq α] in
/-- The members are the nodes reached from `mHead`. -/
theorem Represents.reaches_iff (h : Represents m s) {a : α} :
    Reaches (fun a => (m.heap a).next) m.list.mHead a ↔ a ∈ s := by
  rw [h.head]
  exact h.links.reaches_iff

omit [DecidableEq α] in
/-- A list only depends on its own nodes. -/
theorem Represents.frame (h : Represents m s) (hlist : m'.list = m.list)
    (hframe : ∀ a ∈ s, m'.heap a = m.heap a) : Represents m' s := by
  refine ⟨h.nodup, by rw [hlist, h.head], by rw [hlist, h.tail], ?_, by rw [hlist, h.size]⟩
  exact h.links.congr (fun a ha => congrArg ListHook.prev (hframe a ha))
    fun a ha => congrArg ListHook.next (hframe a ha)

omit [DecidableEq α] in
/-- The two links of a node inside the sequence. -/
theorem Represents.links_at {x y : List α} (h : Represents m (x ++ n :: y)) :
    (m.heap n).prev = x.getLast? ∧ (m.heap n).next = y.head? := by
  have hsplit := (chain_append.mp h.links).2
  rw [chain_cons] at hsplit
  exact ⟨by simpa using hsplit.1, by simpa using hsplit.2.1⟩

omit [DecidableEq α] in
theorem ofNat_succ (k : Nat) : UInt32.ofNat (k + 1) = UInt32.ofNat k + 1 := by
  rw [UInt32.ofNat_add]
  rfl

/-! ## Taking a node out -/

/-- `unlink` takes a node out of the sequence, wherever it stands. -/
theorem unlink_spec {x y : List α} (h : Represents m (x ++ n :: y)) :
    Chain (fun a => (m.heap.unlink n a).prev) (fun a => (m.heap.unlink n a).next) none
      (x ++ y) none ∧
    m.heap.unlink n n = ListHook.unlinked ∧
    ∀ a, a ∉ x ++ n :: y → m.heap.unlink n a = m.heap a := by
  obtain ⟨hp, hn⟩ := h.links_at
  have hnodup := h.nodup
  rw [List.nodup_append, List.nodup_cons] at hnodup
  obtain ⟨hx, ⟨hny, hy⟩, hdisj⟩ := hnodup
  have hnx : n ∉ x := fun hmem => hdisj n hmem n List.mem_cons_self rfl
  have hself : (m.heap n).prev ≠ some n := by
    rw [hp]
    exact fun hl => hnx (List.mem_of_getLast? hl)
  have hprev : ∀ a, a ≠ n → (m.heap.unlink n a).prev =
      if y.head? = some a then x.getLast? else (m.heap a).prev := by
    intro a ha
    rw [Heap.unlink_prev hself ha, hp, hn]
  have hnext : ∀ a, a ≠ n → (m.heap.unlink n a).next =
      if x.getLast? = some a then y.head? else (m.heap a).next := by
    intro a ha
    rw [Heap.unlink_next ha, hp, hn]
  have hne : ∀ a ∈ x ++ y, a ≠ n := by
    rintro a ha rfl
    exact (List.mem_append.mp ha).elim hnx hny
  have hxynodup : (x ++ y).Nodup := List.nodup_append.mpr
    ⟨hx, hy, fun a ha b hb => hdisj a ha b (List.mem_cons_of_mem _ hb)⟩
  -- the parts before and after `n` are linked to each other
  obtain ⟨hcx, hcn⟩ := chain_append.mp h.links
  obtain ⟨hcx', hcy'⟩ := hcx.relink hcn.2.2 hxynodup (fun a ha => hprev a (hne a ha))
    fun a ha => hnext a (hne a ha)
  refine ⟨chain_append.mpr ⟨?_, ?_⟩, Heap.unlink_self _ _, ?_⟩
  · rwa [Option.or_none]
  · rwa [Option.or_none]
  · intro a ha
    have hane : a ≠ n := by
      rintro rfl
      exact ha (by simp)
    apply ListHook.ext
    · rw [hprev a hane, if_neg]
      exact fun hh => ha (by simp [List.mem_of_head? hh])
    · rw [hnext a hane, if_neg]
      exact fun hl => ha (by simp [List.mem_of_getLast? hl])

omit [DecidableEq α] in
theorem ofNat_pred (k : Nat) : UInt32.ofNat (k + 1) - 1 = UInt32.ofNat k := by
  rw [ofNat_succ, UInt32.add_sub_cancel]

omit [DecidableEq α] in
theorem length_append_cons (x y : List α) : (x ++ n :: y).length = (x ++ y).length + 1 := by
  simp only [List.length_append, List.length_cons]
  omega

/-- `erase` of a member: it is gone, and unlinked. -/
theorem erase_spec {x y : List α} (h : Represents m (x ++ n :: y)) :
    ∃ m', m.erase (some n) = (true, m') ∧ Represents m' (x ++ y) ∧
      m'.heap n = ListHook.unlinked ∧ ∀ a, a ∉ x ++ n :: y → m'.heap a = m.heap a := by
  obtain ⟨hchain, hself, hframe⟩ := unlink_spec h
  obtain ⟨hp, hn⟩ := h.links_at
  have hnodup := h.nodup
  rw [List.nodup_append, List.nodup_cons] at hnodup
  obtain ⟨hx, ⟨hny, hy⟩, hdisj⟩ := hnodup
  have hnx : n ∉ x := fun hmem => hdisj n hmem n List.mem_cons_self rfl
  refine ⟨_, rfl, ⟨?_, ?_, ?_, hchain, ?_⟩, hself, hframe⟩
  · exact List.nodup_append.mpr
      ⟨hx, hy, fun a ha b hb => hdisj a ha b (List.mem_cons_of_mem _ hb)⟩
  · -- `mHead` moves on exactly when `n` is the first node
    show (if m.list.mHead = some n then (m.heap n).next else m.list.mHead) = _
    rw [h.head, hn]
    cases x with
    | nil => simp
    | cons b x =>
        have hbn : b ≠ n := fun hb => hnx (hb ▸ List.mem_cons_self)
        simp [hbn]
  · -- `mTail` moves back exactly when `n` is the last node
    show (if m.list.mTail = some n then (m.heap n).prev else m.list.mTail) = _
    rw [h.tail, hp]
    rcases List.eq_nil_or_concat y with rfl | ⟨y, b, rfl⟩
    · simp
    · have hbn : b ≠ n := by
        rintro rfl
        exact hny (by simp)
      simp [List.getLast?_append, List.getLast?_cons, hbn]
  · show m.list.mSize - 1 = _
    rw [h.size, length_append_cons, ofNat_pred]

/-- `pop_front` of a non-empty list. -/
theorem popFront_spec (h : Represents m (n :: s)) :
    ∃ m', m.popFront = some (some n, m') ∧ Represents m' s ∧
      m'.heap n = ListHook.unlinked ∧ ∀ a, a ∉ n :: s → m'.heap a = m.heap a := by
  have h' : Represents m ([] ++ n :: s) := h
  obtain ⟨hchain, hself, hframe⟩ := unlink_spec h'
  obtain ⟨-, hn⟩ := h'.links_at
  rw [List.nil_append] at hchain hframe
  have hne : m.list.empty = false := h.empty_eq
  have hhead : m.list.mHead = some n := h.head
  refine ⟨_, by simp only [popFront, hne, hhead]; rfl, ⟨?_, ?_, ?_, hchain, ?_⟩, hself, hframe⟩
  · exact (List.nodup_cons.mp h.nodup).2
  · exact hn
  · show (if m.list.mTail = some n then none else m.list.mTail) = _
    rw [h.tail]
    cases s with
    | nil => simp
    | cons b s =>
        rw [List.getLast?_cons_cons, if_neg]
        exact fun hl => (List.nodup_cons.mp h.nodup).1 (List.mem_of_getLast? hl)
  · show m.list.mSize - 1 = _
    rw [h.size, List.length_cons, ofNat_pred]

/-- `pop_back` of a non-empty list. -/
theorem popBack_spec (h : Represents m (s ++ [n])) :
    ∃ m', m.popBack = some (some n, m') ∧ Represents m' s ∧
      m'.heap n = ListHook.unlinked ∧ ∀ a, a ∉ s ++ [n] → m'.heap a = m.heap a := by
  obtain ⟨hchain, hself, hframe⟩ := unlink_spec h
  obtain ⟨hp, -⟩ := h.links_at
  have hne : m.list.empty = false := by
    rw [h.empty_eq]
    simp
  have htail : m.list.mTail = some n := by
    rw [h.tail]
    simp
  rw [List.append_nil] at hchain
  have hnodup := h.nodup
  rw [List.nodup_append] at hnodup
  obtain ⟨hs, -, hdisj⟩ := hnodup
  refine ⟨_, by simp only [popBack, hne, htail]; rfl, ⟨hs, ?_, hp, hchain, ?_⟩, hself, hframe⟩
  · show (if m.list.mHead = some n then none else m.list.mHead) = _
    rw [h.head]
    cases s with
    | nil => simp
    | cons b s =>
        rw [List.cons_append, List.head?_cons, List.head?_cons, if_neg]
        exact fun hb => hdisj b List.mem_cons_self n List.mem_cons_self (Option.some.inj hb)
  · show m.list.mSize - 1 = _
    rw [h.size, length_append_cons, List.append_nil, ofNat_pred]

/-- A pop on the empty list returns null and changes nothing. -/
theorem popFront_empty (h : Represents m []) : m.popFront = some (none, m) := by
  have he : m.list.empty = true := h.empty_eq
  simp [popFront, he]

theorem popBack_empty (h : Represents m []) : m.popBack = some (none, m) := by
  have he : m.list.empty = true := h.empty_eq
  simp [popBack, he]

/-! ## Putting a node in -/

omit [DecidableEq α] in
/-- The first node of an empty list. -/
theorem represents_singleton (hnull : m.heap n = ListHook.unlinked) :
    Represents { m with list := { mHead := some n, mTail := some n, mSize := 0 + 1 } } [n] := by
  refine ⟨List.nodup_singleton n, rfl, rfl, ⟨?_, ?_, trivial⟩, rfl⟩
  · show (m.heap n).prev = none
    rw [hnull]
    rfl
  · show (m.heap n).next = _
    rw [hnull]
    rfl

/-- `push_back` of an unlinked node. -/
theorem pushBack_spec (h : Represents m s) (hn : n ∉ s) (hnull : m.heap n = ListHook.unlinked) :
    ∃ m', m.pushBack (some n) = some (true, m') ∧ Represents m' (s ++ [n]) ∧
      ∀ a, a ∉ s → a ≠ n → m'.heap a = m.heap a := by
  rcases List.eq_nil_or_concat s with rfl | ⟨s, t, rfl⟩
  · have he : m.list.empty = true := h.empty_eq
    have hsize : m.list.mSize = 0 := h.size
    refine ⟨_, by simp only [pushBack, he, if_true, hsize], represents_singleton hnull, ?_⟩
    exact fun _ _ _ => rfl
  · rw [List.concat_eq_append] at h hn ⊢
    have he : m.list.empty = false := by
      rw [h.empty_eq]
      simp
    have htail : m.list.mTail = some t := by
      rw [h.tail]
      simp
    have hnt : n ≠ t := by
      rintro rfl
      exact hn (by simp)
    have hlast : (m.heap t).next = none := h.links_at.2
    have hheap : ∀ a, m.heap.linkAfter n t a =
        if a = n then ⟨some t, none⟩
        else if a = t then { m.heap t with next := some n } else m.heap a :=
      fun a => Heap.linkAfter_last hnt hlast
    refine ⟨_, by simp only [pushBack, he, htail]; rfl, ⟨?_, ?_, ?_, ?_, ?_⟩, ?_⟩
    · exact List.nodup_append.mpr ⟨h.nodup, List.nodup_singleton n, fun a ha b hb => by
        rw [List.mem_singleton.mp hb]
        rintro rfl
        exact hn ha⟩
    · show m.list.mHead = _
      rw [h.head]
      cases s <;> simp
    · simp
    · -- the old nodes, with a successor for the last one, and then the new node
      rw [chain_append]
      have hne : ∀ a ∈ s ++ [t], a ≠ n := fun a ha hna => hn (hna ▸ ha)
      refine ⟨h.links.relast h.nodup ?_ ?_, ?_, ?_, trivial⟩
      · intro a ha
        show (m.heap.linkAfter n t a).prev = _
        rw [hheap, if_neg (hne a ha)]
        split
        · rename_i hat; rw [hat]
        · rfl
      · intro a ha
        show (m.heap.linkAfter n t a).next = _
        rw [hheap, if_neg (hne a ha), List.getLast?_concat]
        by_cases hat : a = t
        · rw [if_pos hat, if_pos (congrArg some hat.symm)]
          rfl
        · rw [if_neg hat, if_neg (fun hta => hat (Option.some.inj hta).symm)]
      · show (m.heap.linkAfter n t n).prev = _
        rw [hheap, if_pos rfl]
        simp
      · show (m.heap.linkAfter n t n).next = _
        rw [hheap, if_pos rfl]
        rfl
    · show m.list.mSize + 1 = _
      rw [h.size, show (s ++ [t] ++ [n]).length = (s ++ [t]).length + 1 by simp, ofNat_succ]
    · intro a ha han
      have hat : a ≠ t := by
        rintro rfl
        exact ha (by simp)
      show m.heap.linkAfter n t a = _
      rw [hheap, if_neg han, if_neg hat]

/-- `insert` of an unlinked node before a member. -/
theorem insert_spec {x y : List α} (h : Represents m (x ++ e :: y)) (hn : n ∉ x ++ e :: y) :
    ∃ m', m.insert (some e) (some n) = (true, m') ∧ Represents m' (x ++ n :: e :: y) ∧
      ∀ a, a ∉ x ++ e :: y → a ≠ n → m'.heap a = m.heap a := by
  obtain ⟨hp, -⟩ := h.links_at
  have hnodup := h.nodup
  rw [List.nodup_append] at hnodup
  obtain ⟨hx, hey, hdisj⟩ := hnodup
  have hne : n ≠ e := by
    rintro rfl
    exact hn (by simp)
  have hmem : ∀ a, x.getLast? = some a → a ∈ x := fun a ha => List.mem_of_getLast? ha
  have hself : (m.heap e).prev ≠ some n := by
    rw [hp]
    exact fun hl => hn (List.mem_append_left _ (hmem n hl))
  have hprev : ∀ a, a ≠ n → (m.heap.linkBefore n e a).prev =
      if (e :: y).head? = some a then some n else (m.heap a).prev := by
    intro a ha
    rw [Heap.linkBefore_prev hself ha, List.head?_cons]
    simp only [Option.some.injEq, eq_comm]
  have hnext : ∀ a, a ≠ n → (m.heap.linkBefore n e a).next =
      if x.getLast? = some a then some n else (m.heap a).next := by
    intro a ha
    rw [Heap.linkBefore_next ha, hp]
  have hnode : m.heap.linkBefore n e n = ⟨x.getLast?, some e⟩ := by
    rw [Heap.linkBefore_self hne hself, hp]
  have hmn : ∀ a ∈ x ++ e :: y, a ≠ n := fun a ha hna => hn (hna ▸ ha)
  have hempty : m.list.empty = false := by
    rw [h.empty_eq]
    simp
  obtain ⟨hcx, hce⟩ := chain_append.mp h.links
  refine ⟨_, by simp only [insert, hempty]; rfl, ⟨?_, ?_, ?_, ?_, ?_⟩, ?_⟩
  · rw [List.nodup_append]
    refine ⟨hx, List.nodup_cons.mpr ⟨fun hm => hn (List.mem_append_right _ hm), hey⟩, ?_⟩
    intro a ha b hb
    rcases List.mem_cons.mp hb with rfl | hb
    · exact hmn a (List.mem_append_left _ ha)
    · exact hdisj a ha b hb
  · -- `mHead` changes exactly when the new node comes first
    show (if m.list.mHead = some e then some n else m.list.mHead) = _
    rw [h.head]
    cases x with
    | nil => simp
    | cons b x =>
        have hbe : b ≠ e := hdisj b List.mem_cons_self e List.mem_cons_self
        simp [hbe]
  · show m.list.mTail = _
    rw [h.tail]
    simp [List.getLast?_append, List.getLast?_cons_cons]
  · -- `n` comes between the two parts
    obtain ⟨hcx', hce'⟩ := hcx.relink hce h.nodup (fun a ha => hprev a (hmn a ha))
      fun a ha => hnext a (hmn a ha)
    refine chain_append.mpr ⟨hcx', ?_, ?_, hce'⟩
    · show (m.heap.linkBefore n e n).prev = _
      rw [hnode, Option.or_none]
    · show (m.heap.linkBefore n e n).next = _
      rw [hnode]
      rfl
  · show m.list.mSize + 1 = _
    rw [h.size, show (x ++ n :: e :: y).length = (x ++ e :: y).length + 1 by
      simp only [List.length_append, List.length_cons]; omega, ofNat_succ]
  · intro a ha han
    have hae : a ≠ e := by
      rintro rfl
      exact ha (by simp)
    apply ListHook.ext
    · show (m.heap.linkBefore n e a).prev = _
      rw [hprev a han, if_neg]
      exact fun he => hae (Option.some.inj he).symm
    · show (m.heap.linkBefore n e a).next = _
      rw [hnext a han, if_neg]
      exact fun hl => ha (List.mem_append_left _ (hmem a hl))

/-- `insert` into an empty list. -/
theorem insert_empty_spec (h : Represents m []) (hnull : m.heap n = ListHook.unlinked) :
    ∃ m', m.insert none (some n) = (true, m') ∧ Represents m' [n] ∧ m'.heap = m.heap := by
  have he : m.list.empty = true := h.empty_eq
  have hsize : m.list.mSize = 0 := h.size
  exact ⟨_, by simp only [insert, he, hsize], represents_singleton hnull, rfl⟩

end ListMem
end Fredlib
