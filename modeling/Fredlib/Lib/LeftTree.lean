/-
  Fredlib.Lib.LeftTree

  Trees over a sequence of leaves whose left subtrees are full.

  `root node l` combines the leaves `l`: the left subtree takes the largest power of
  two of them that leaves one for the right subtree.  The roots of a full left
  part and of a right part that is no longer give the root of the whole
  (`root_append`).

  `Layer node cs l` says that `cs` are roots of subtrees side by side, from which the
  tree over `l` can be finished.  The leaves are a layer, neighbours combined are
  the next one (`Layer.pairUp`), and layers of two parts are put side by side
  (`Layer.append`), so that a tree may be computed from several roots at a time.
-/

import Mathlib.Algebra.Group.Nat.Defs
import Mathlib.Data.Nat.Log
import Mathlib.Data.List.Basic
import Mathlib.Data.List.TakeDrop

namespace Fredlib
namespace Lib

variable {α β : Type*} {node : α → α → α} {a b l cs ds : List α} {n k : Nat}

-- ============================================================================
-- Where a tree splits
-- ============================================================================

/-- The number of leaves on the left of a tree over `n` leaves. -/
def split (n : Nat) : Nat := 2 ^ Nat.log2 (n - 1)

theorem split_lt (h : 2 ≤ n) : split n < n := by
  have hle := Nat.log2_self_le (show n - 1 ≠ 0 by omega)
  rw [split]
  omega

theorem split_pos (n : Nat) : 0 < split n := Nat.two_pow_pos _

theorem le_two_mul_split (n : Nat) : n ≤ 2 * split n := by
  have hlt := Nat.lt_log2_self (n := n - 1)
  rw [Nat.pow_succ] at hlt
  rw [split]
  omega

theorem split_eq (hlt : 2 ^ k < n) (hle : n ≤ 2 ^ (k + 1)) : split n = 2 ^ k := by
  have hpos := Nat.two_pow_pos k
  have hlog : Nat.log2 (n - 1) = k := (Nat.log2_eq_iff (by omega)).mpr ⟨by omega, by omega⟩
  rw [split, hlog]

-- ============================================================================
-- The root
-- ============================================================================

/-- The root of the tree over the leaves `l`. -/
def root [Inhabited α] (node : α → α → α) (l : List α) : α :=
  if 2 ≤ l.length then
    node (root node (l.take (split l.length))) (root node (l.drop (split l.length)))
  else l.headD default
termination_by l.length
decreasing_by
  · have hlt := split_lt (n := l.length) (by assumption)
    rw [List.length_take]
    omega
  · have hpos := split_pos l.length
    rw [List.length_drop]
    omega

variable [Inhabited α] [Inhabited β]

/-- The roots of the two subtrees of the root. -/
def halves (node : α → α → α) (l : List α) : α × α :=
  (root node (l.take (split l.length)), root node (l.drop (split l.length)))

@[simp] theorem root_singleton (x : α) : root node [x] = x := by
  rw [root, if_neg (by simp)]
  rfl

theorem root_eq_halves (h : 2 ≤ l.length) :
    root node l = node (halves node l).1 (halves node l).2 := by
  rw [root, if_pos h, halves]

theorem halves_append (ha : a.length = 2 ^ k) (hb : b ≠ []) (hle : b.length ≤ 2 ^ k) :
    halves node (a ++ b) = (root node a, root node b) := by
  have hpos := List.length_pos_iff.mpr hb
  have hsplit : split (a ++ b).length = a.length := by
    rw [ha, List.length_append]
    exact split_eq (by omega) (by rw [Nat.pow_succ]; omega)
  rw [halves, hsplit, List.take_left, List.drop_left]

/-- A full left part, and a right part that is no longer. -/
theorem root_append (ha : a.length = 2 ^ k) (hb : b ≠ []) (hle : b.length ≤ 2 ^ k) :
    root node (a ++ b) = node (root node a) (root node b) := by
  have hpos := List.length_pos_iff.mpr hb
  have hone := Nat.two_pow_pos k
  rw [root_eq_halves (by rw [List.length_append]; omega), halves_append ha hb hle]

omit [Inhabited α] in
/-- The parts of two leaves or more. -/
theorem exists_parts (h : 2 ≤ l.length) :
    ∃ k a b, l = a ++ b ∧ a.length = 2 ^ k ∧ b ≠ [] ∧ b.length ≤ 2 ^ k := by
  have hlt := split_lt h
  have hle := le_two_mul_split l.length
  refine ⟨_, l.take (split l.length), l.drop (split l.length), (List.take_append_drop _ l).symm,
    List.length_take_of_le (Nat.le_of_lt hlt), ?_, ?_⟩
  · rw [ne_eq, List.drop_eq_nil_iff]
    omega
  · rw [List.length_drop]
    show l.length - split l.length ≤ split l.length
    omega

omit [Inhabited α] in
/-- Induction along the tree. -/
@[elab_as_elim]
theorem tree_induction {motive : ∀ l : List α, l ≠ [] → Prop}
    (leaf : ∀ x, motive [x] (List.cons_ne_nil x []))
    (step : ∀ k a b (hane : a ≠ []) (hb : b ≠ []), a.length = 2 ^ k → b.length ≤ 2 ^ k →
      motive a hane → motive b hb → motive (a ++ b) (List.append_ne_nil_of_left_ne_nil hane b))
    (l : List α) (h : l ≠ []) : motive l h := by
  induction hn : l.length using Nat.strong_induction_on generalizing l with
  | _ n ih =>
      by_cases hlen : 2 ≤ l.length
      · obtain ⟨k, a, b, rfl, ha, hb, hle⟩ := exists_parts hlen
        have hpos := List.length_pos_iff.mpr hb
        have hone := Nat.two_pow_pos k
        rw [List.length_append] at hn
        have hane : a ≠ [] := List.length_pos_iff.mp (by omega)
        exact step k a b hane hb ha hle (ih a.length (by omega) a hane rfl)
          (ih b.length (by omega) b hb rfl)
      · have hpos := List.length_pos_iff.mpr h
        obtain ⟨x, rfl⟩ := List.length_eq_one_iff.mp (show l.length = 1 by omega)
        exact leaf x

/-- A map that respects the nodes respects the root. -/
theorem root_map {f : α → β} {nodeβ : β → β → β}
    (hf : ∀ x y, f (node x y) = nodeβ (f x) (f y)) (h : l ≠ []) :
    root nodeβ (l.map f) = f (root node l) := by
  induction l, h using tree_induction with
  | leaf x => rw [List.map_singleton, root_singleton, root_singleton]
  | step k a b hane hb ha hle iha ihb =>
      have hmap : b.map f ≠ [] := by simpa using hb
      rw [List.map_append, root_append (by rw [List.length_map, ha]) hmap (by rwa [List.length_map]),
        iha, ihb, root_append ha hb hle, hf]

-- ============================================================================
-- Layers
-- ============================================================================

/-- Neighbours combined; a leaf without a neighbour stays. -/
def pairUp (node : α → α → α) : List α → List α
  | x :: y :: l => node x y :: pairUp node l
  | l => l

omit [Inhabited α] in
theorem length_pairUp (node : α → α → α) (l : List α) :
    (pairUp node l).length = (l.length + 1) / 2 := by
  induction l using pairUp.induct with
  | case1 x y l ih =>
      rw [pairUp, List.length_cons, ih]
      simp only [List.length_cons]
      omega
  | case2 l h =>
      match l, h with
      | [], _ => simp [pairUp]
      | [_], _ => simp [pairUp]
      | x :: y :: l, h => exact absurd rfl (h x y l)

omit [Inhabited α] in
theorem pairUp_append (h : 2 ∣ a.length) :
    pairUp node (a ++ b) = pairUp node a ++ pairUp node b := by
  induction a using pairUp.induct with
  | case1 x y l ih =>
      have hl : 2 ∣ l.length := (Nat.dvd_add_left (Nat.dvd_refl 2)).mp h
      rw [List.cons_append, List.cons_append, pairUp, pairUp, ih hl, List.cons_append]
  | case2 l hl =>
      match l, hl with
      | [], _ => rfl
      | [_], _ => exact absurd h (by simp)
      | x :: y :: l, hl => exact absurd rfl (hl x y l)

omit [Inhabited α] in
theorem pairUp_ne_nil (h : b ≠ []) : pairUp node b ≠ [] := by
  have hpos := List.length_pos_iff.mpr h
  refine List.length_pos_iff.mp ?_
  rw [length_pairUp]
  omega

omit [Inhabited α] in
theorem two_dvd_of_full (ha : a.length = 2 ^ (k + 1)) : 2 ∣ a.length := by
  rw [ha, Nat.pow_succ]
  exact Nat.dvd_mul_left 2 (2 ^ k)

omit [Inhabited α] in
/-- A full part of two leaves or more has half as many neighbours. -/
theorem length_pairUp_full (ha : a.length = 2 ^ (k + 1)) : (pairUp node a).length = 2 ^ k := by
  rw [length_pairUp, ha, Nat.pow_succ]
  omega

omit [Inhabited α] in
theorem length_pairUp_le (hle : b.length ≤ 2 ^ (k + 1)) : (pairUp node b).length ≤ 2 ^ k := by
  rw [Nat.pow_succ] at hle
  rw [length_pairUp]
  omega

/-- The root of a layer is the root of the next one. -/
theorem root_pairUp (h : l ≠ []) : root node (pairUp node l) = root node l := by
  induction l, h using tree_induction with
  | leaf x => rfl
  | step k a b hane hb ha hle iha ihb =>
      cases k with
      | zero =>
          have hpos := List.length_pos_iff.mpr hb
          rw [Nat.pow_zero] at ha hle
          obtain ⟨x, rfl⟩ := List.length_eq_one_iff.mp ha
          obtain ⟨y, rfl⟩ := List.length_eq_one_iff.mp (show b.length = 1 by omega)
          rw [root_append (k := 0) rfl hb hle, root_singleton, root_singleton]
          exact root_singleton _
      | succ k =>
          rw [pairUp_append (two_dvd_of_full ha), root_append (length_pairUp_full ha) (pairUp_ne_nil hb)
            (length_pairUp_le hle), iha, ihb, root_append ha hb hle]

theorem halves_pairUp (h : 3 ≤ l.length) : halves node (pairUp node l) = halves node l := by
  obtain ⟨k, a, b, rfl, ha, hb, hle⟩ := exists_parts (l := l) (by omega)
  rw [List.length_append] at h
  cases k with
  | zero =>
      rw [Nat.pow_zero] at ha hle
      omega
  | succ k =>
      have hne : a ≠ [] := by
        rintro rfl
        exact absurd ha.symm (Nat.two_pow_pos (k + 1)).ne'
      rw [pairUp_append (two_dvd_of_full ha), halves_append (length_pairUp_full ha) (pairUp_ne_nil hb)
        (length_pairUp_le hle), root_pairUp hne, root_pairUp hb, halves_append ha hb hle]

/-- From `cs` the tree over `l` can be finished: `cs` are the leaves themselves, or
    the two parts of the tree over `cs` have the roots of those of the tree over `l`. -/
def Layer (node : α → α → α) (cs l : List α) : Prop :=
  cs = l ∨ 2 ≤ cs.length ∧ 2 ≤ l.length ∧ halves node cs = halves node l

theorem Layer.halves (h : Layer node cs l) : Lib.halves node cs = Lib.halves node l := by
  rcases h with rfl | ⟨-, -, heq⟩
  · rfl
  · exact heq

theorem Layer.root (h : Layer node cs l) : Lib.root node cs = Lib.root node l := by
  rcases h with rfl | ⟨hcs, hl, heq⟩
  · rfl
  · rw [root_eq_halves hcs, root_eq_halves hl, heq]

theorem Layer.append (hc : Layer node cs a) (hd : Layer node ds b) {j : Nat}
    (hcs : cs.length = 2 ^ j) (hds : ds ≠ []) (hdle : ds.length ≤ 2 ^ j) (ha : a.length = 2 ^ k)
    (hb : b ≠ []) (hle : b.length ≤ 2 ^ k) : Layer node (cs ++ ds) (a ++ b) := by
  have hdpos := List.length_pos_iff.mpr hds
  have hbpos := List.length_pos_iff.mpr hb
  have hj := Nat.two_pow_pos j
  have hk := Nat.two_pow_pos k
  refine .inr ⟨by rw [List.length_append]; omega, by rw [List.length_append]; omega, ?_⟩
  rw [halves_append hcs hds hdle, halves_append ha hb hle, hc.root, hd.root]

theorem Layer.pairUp (h : Layer node cs l) (hcs : 3 ≤ cs.length) :
    Layer node (Lib.pairUp node cs) l := by
  have hl : 2 ≤ l.length := by
    rcases h with rfl | ⟨-, hl, -⟩
    · omega
    · exact hl
  refine .inr ⟨by rw [length_pairUp]; omega, hl, ?_⟩
  rw [halves_pairUp hcs, h.halves]

end Lib
end Fredlib
