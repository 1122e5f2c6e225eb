/-
  Fredlib.Lib.SubtreeStack

  The roots of full subtrees on a stack, merged as late as possible.

  A tree over leaves that come one after another is kept as the roots of full
  subtrees, the last one on top.  `merge node m` combines the top two as long as
  there are more than `m`.  Two subtrees of one height at the top are all that
  waits to be merged (`Pending`), and with the number of 1 bits in the number of
  leaves for `m` no two of one height are left (`merge_spec`): the heights are then
  the places of the 1 bits.

  A stack that has been merged is finished from the top down (`Merged.root_append`).
-/

import Fredlib.Lib.LeftTree
import Mathlib.Data.Nat.BitIndices
import Mathlib.Data.List.Perm.Subperm

namespace Fredlib
namespace Lib

/-- The number of 1 bits. -/
def ones (n : Nat) : Nat := n.bitIndices.length

theorem ones_le {n k : Nat} (h : n < 2 ^ k) : ones n ≤ k := by
  have hlt : ∀ i ∈ n.bitIndices, i < k := by
    intro i hi
    exact (Nat.pow_lt_pow_iff_right (by decide)).mp
      (Nat.lt_of_le_of_lt (Nat.two_pow_le_of_mem_bitIndices hi) h)
  have hsub : n.bitIndices.Subperm (List.range k) :=
    List.Nodup.subperm Nat.bitIndices_nodup fun i hi => List.mem_range.mpr (hlt i hi)
  have hlen := hsub.length_le
  rwa [List.length_range] at hlen

/-- A full subtree. -/
structure Full (α : Type*) where
  height : Nat
  leaves : List α
  length_leaves : leaves.length = 2 ^ height

namespace Full

variable {α : Type*}

theorem ne_nil (t : Full α) : t.leaves ≠ [] := by
  have hpos := Nat.two_pow_pos t.height
  rw [← t.length_leaves] at hpos
  exact List.length_pos_iff.mp hpos

/-- Two full subtrees of one height, side by side. -/
def join (t u : Full α) (h : t.height = u.height) : Full α where
  height := t.height + 1
  leaves := t.leaves ++ u.leaves
  length_leaves := by
    rw [List.length_append, t.length_leaves, u.length_leaves, ← h, Nat.pow_succ]
    omega

end Full

variable {α β : Type*} {t u : Full α} {ts ts' : List (Full α)}

/-- All leaves of a stack, the top last. -/
def stackLeaves : List (Full α) → List α
  | [] => []
  | t :: ts => stackLeaves ts ++ t.leaves

@[simp] theorem stackLeaves_nil : stackLeaves ([] : List (Full α)) = [] := rfl

@[simp] theorem stackLeaves_cons : stackLeaves (t :: ts) = stackLeaves ts ++ t.leaves := rfl

/-- The heights grow from the top down. -/
def Merged (ts : List (Full α)) : Prop := ts.Pairwise fun t u => t.height < u.height

/-- So they do below the top, which may be as high as what it lies on. -/
def Pending : List (Full α) → Prop
  | [] => True
  | t :: ts => Merged ts ∧ ∀ u ∈ ts, t.height ≤ u.height

theorem Merged.pending (h : Merged ts) : Pending ts := by
  cases ts with
  | nil => trivial
  | cons t ts =>
      obtain ⟨hlt, hrest⟩ := List.pairwise_cons.mp h
      exact ⟨hrest, fun u hu => Nat.le_of_lt (hlt u hu)⟩

-- ============================================================================
-- The number of leaves
-- ============================================================================

theorem length_stackLeaves (ts : List (Full α)) :
    (stackLeaves ts).length = ((ts.map Full.height).map (2 ^ ·)).sum := by
  induction ts with
  | nil => rfl
  | cons t ts ih =>
      simp only [stackLeaves_cons, List.length_append, ih, t.length_leaves, List.map_cons,
        List.sum_cons]
      omega

/-- The heights in a merged stack are the places of the 1 bits. -/
theorem Merged.bitIndices (h : Merged ts) :
    (stackLeaves ts).length.bitIndices = ts.map Full.height := by
  rw [length_stackLeaves]
  exact Nat.bitIndices_sum_map_two_pow (List.pairwise_map.mpr h).sortedLT

theorem Merged.ones (h : Merged ts) : Lib.ones (stackLeaves ts).length = ts.length := by
  rw [Lib.ones, h.bitIndices, List.length_map]

/-- A divisor of the number of leaves divides no subtree of the stack further. -/
theorem Merged.le_height (h : Merged ts) {k : Nat} (hdvd : 2 ^ k ∣ (stackLeaves ts).length)
    (hu : u ∈ ts) : k ≤ u.height := by
  have hin : u.height ∈ (stackLeaves ts).length.bitIndices := by
    rw [h.bitIndices]
    exact List.mem_map_of_mem hu
  obtain ⟨q, hq⟩ := hdvd
  rw [hq, Nat.bitIndices_two_pow_mul, List.mem_map] at hin
  obtain ⟨i, -, hi⟩ := hin
  omega

/-- A subtree goes on top if it divides what is there. -/
theorem Merged.push (h : Merged ts) (hdvd : 2 ^ t.height ∣ (stackLeaves ts).length) :
    Pending (t :: ts) :=
  ⟨h, fun _ hu => h.le_height hdvd hu⟩

/-- A stack over fewer than `2 ^ k` leaves has at most one entry more than `k`. -/
theorem Pending.length_le {k : Nat} (h : Pending ts) (hlt : (stackLeaves ts).length < 2 ^ k) :
    ts.length ≤ k + 1 := by
  cases ts with
  | nil => exact Nat.zero_le _
  | cons t ts =>
      rw [stackLeaves_cons, List.length_append] at hlt
      have hle := ones_le (show (stackLeaves ts).length < 2 ^ k by omega)
      rw [h.1.ones] at hle
      rw [List.length_cons]
      omega

-- ============================================================================
-- Merging
-- ============================================================================

/-- Combine the top two as long as there are more than `m`; `none` where there are not
    two. -/
def merge (node : β → β → β) (m : Nat) : List β → Option (List β)
  | y :: x :: st => if m < st.length + 2 then merge node m (node x y :: st) else some (y :: x :: st)
  | st => if m < st.length then none else some st
termination_by st => st.length

variable [Inhabited α] {node : α → α → α}

/-- The entries of the stack: what `f` makes of the roots. -/
def entries (node : α → α → α) (f : α → β) (ts : List (Full α)) : List β :=
  ts.map fun t => f (root node t.leaves)

variable {f : α → β} {nodeβ : β → β → β}

@[simp] theorem entries_cons :
    entries node f (t :: ts) = f (root node t.leaves) :: entries node f ts := rfl

@[simp] theorem length_entries : (entries node f ts).length = ts.length := List.length_map _

theorem merge_of_length_le {m : Nat} {st : List β} (h : st.length ≤ m) :
    merge nodeβ m st = some st := by
  match st, h with
  | [], h => rw [merge, if_neg (Nat.not_lt.mpr h)]; simp
  | [x], h => rw [merge, if_neg (Nat.not_lt.mpr h)]; simp
  | y :: x :: st, h =>
      have hle : st.length + 2 ≤ m := h
      rw [merge, if_neg (Nat.not_lt.mpr hle)]

/-- Merging as far as a merged stack over the same leaves. -/
theorem Pending.merges (h : Pending ts) (hf : ∀ x y, f (node x y) = nodeβ (f x) (f y)) :
    ∃ ts', Merged ts' ∧ stackLeaves ts' = stackLeaves ts ∧ ts'.length ≤ ts.length ∧
      merge nodeβ ts'.length (entries node f ts) = some (entries node f ts') := by
  induction hn : ts.length generalizing ts with
  | zero =>
      rw [List.length_eq_zero_iff] at hn
      subst hn
      exact ⟨[], List.Pairwise.nil, rfl, Nat.le_refl _, merge_of_length_le (Nat.le_refl _)⟩
  | succ n ih =>
      match ts, h with
      | [t], _ =>
          exact ⟨[t], List.pairwise_singleton _ t, rfl, Nat.le_of_eq hn,
            merge_of_length_le (Nat.le_refl _)⟩
      | t :: u :: ts, ⟨hmerged, hle⟩ =>
          obtain ⟨hlt, hrest⟩ := List.pairwise_cons.mp hmerged
          have htu := hle u List.mem_cons_self
          by_cases heq : u.height = t.height
          · -- one step, after which the top may be as high as the next one again
            have hpending : Pending (u.join t heq :: ts) :=
              ⟨hrest, fun v hv => hlt v hv⟩
            obtain ⟨ts', hts', hleaves, hlen, hmerge⟩ := ih hpending (by simpa using hn)
            refine ⟨ts', hts', ?_, by omega, ?_⟩
            · rw [hleaves]
              simp [Full.join]
            · have hroot : root node (u.join t heq).leaves =
                  node (root node u.leaves) (root node t.leaves) := by
                refine root_append u.length_leaves t.ne_nil (Nat.le_of_eq ?_)
                rw [t.length_leaves, heq]
              have hstep : entries node f (u.join t heq :: ts) =
                  nodeβ (f (root node u.leaves)) (f (root node t.leaves)) :: entries node f ts := by
                rw [entries_cons, hroot, hf]
              rw [List.length_cons, List.length_cons] at hn
              rw [entries_cons, entries_cons, merge, if_pos (by rw [length_entries]; omega), ← hstep,
                hmerge]
          · refine ⟨t :: u :: ts, List.pairwise_cons.mpr ⟨fun v hv => ?_, hmerged⟩, rfl,
              Nat.le_of_eq hn, merge_of_length_le (Nat.le_of_eq length_entries)⟩
            rcases List.mem_cons.mp hv with rfl | hv
            · omega
            · have huv := hlt v hv
              omega

/-- **Merging**: down to the number of 1 bits in the number of leaves. -/
theorem merge_spec (h : Pending ts) (hf : ∀ x y, f (node x y) = nodeβ (f x) (f y)) :
    ∃ ts', Merged ts' ∧ stackLeaves ts' = stackLeaves ts ∧
      merge nodeβ (ones (stackLeaves ts).length) (entries node f ts) =
        some (entries node f ts') := by
  obtain ⟨ts', hmerged, hleaves, -, hmerge⟩ := h.merges hf
  refine ⟨ts', hmerged, hleaves, ?_⟩
  rw [← hleaves, hmerged.ones, hmerge]

-- ============================================================================
-- Finishing
-- ============================================================================

variable (node) in
/-- A merged stack under a right part `b` that is no longer than any of its subtrees. -/
theorem Merged.root_append (h : Merged ts) {b : List α} (hb : b ≠ [])
    (hle : ∀ t ∈ ts, b.length ≤ 2 ^ t.height) :
    root node (stackLeaves ts ++ b) =
      ts.foldl (fun acc t => node (root node t.leaves) acc) (root node b) := by
  induction ts generalizing b with
  | nil => rfl
  | cons t ts ih =>
      obtain ⟨hlt, hrest⟩ := List.pairwise_cons.mp h
      have htop := hle t List.mem_cons_self
      have hne : t.leaves ++ b ≠ [] := List.append_ne_nil_of_left_ne_nil t.ne_nil b
      have hbelow : ∀ u ∈ ts, (t.leaves ++ b).length ≤ 2 ^ u.height := by
        intro u hu
        have hpow := Nat.pow_le_pow_right (show 0 < 2 by decide) (hlt u hu)
        rw [Nat.pow_succ] at hpow
        rw [List.length_append, t.length_leaves]
        omega
      rw [stackLeaves_cons, List.append_assoc, ih hrest hne hbelow, List.foldl_cons,
        Lib.root_append t.length_leaves hb htop]

variable (node) in
/-- A stack of two or more that has not been merged yet, from its top two on. -/
theorem Pending.root_append (h : Pending (t :: u :: ts)) :
    root node (stackLeaves (t :: u :: ts)) =
      ts.foldl (fun acc v => node (root node v.leaves) acc)
        (node (root node u.leaves) (root node t.leaves)) := by
  obtain ⟨hmerged, hle⟩ := h
  obtain ⟨hlt, hrest⟩ := List.pairwise_cons.mp hmerged
  have htu := Nat.pow_le_pow_right (show 0 < 2 by decide) (hle u List.mem_cons_self)
  have hne : u.leaves ++ t.leaves ≠ [] := List.append_ne_nil_of_left_ne_nil u.ne_nil _
  have hbelow : ∀ v ∈ ts, (u.leaves ++ t.leaves).length ≤ 2 ^ v.height := by
    intro v hv
    have hpow := Nat.pow_le_pow_right (show 0 < 2 by decide) (hlt v hv)
    rw [Nat.pow_succ] at hpow
    rw [List.length_append, u.length_leaves, t.length_leaves]
    omega
  rw [stackLeaves_cons, stackLeaves_cons, List.append_assoc,
    Merged.root_append node hrest hne hbelow,
    Lib.root_append u.length_leaves t.ne_nil (by rw [t.length_leaves]; exact htu)]

end Lib
end Fredlib
