/-
  Fredlib.Lib.Collide

  Hashes built from a function `f` that may have collisions.

  A hash is computed in nodes, each of which contains what `f` gives for others: in a
  chain for the one before it (`Chain`), in a tree for the two below it (`LeftTree`).
  Where two chains or two trees end in the same node, they are the same, or two of
  their nodes collide (`Chain.eq_or_collide`, `root_eq_or_collide`).  The two are
  nodes of the one and of the other, so that this says more than that `f` has
  collisions.
-/

import Fredlib.Lib.LeftTree
import Mathlib.Data.List.Lattice

namespace Fredlib
namespace Lib

variable {α γ : Type*} {f : α → γ} {l m l' m' : List α} {x y : α}

/-- An element of `l` and another one of `m` that `f` does not tell apart. -/
def Collide (f : α → γ) (l m : List α) : Prop := ∃ x ∈ l, ∃ y ∈ m, x ≠ y ∧ f x = f y

theorem Collide.mono (h : Collide f l m) (hl : l ⊆ l') (hm : m ⊆ m') : Collide f l' m' := by
  obtain ⟨x, hx, y, hy, hxy⟩ := h
  exact ⟨x, hl hx, y, hm hy, hxy⟩

/-- Elements that `f` does not tell apart are a collision, unless they are the same. -/
theorem or_collide_cons {p : Prop} (h : f x = f y) (hsame : x = y → p ∨ Collide f l m) :
    p ∨ Collide f (x :: l) (y :: m) := by
  by_cases hxy : x = y
  · rcases hsame hxy with hp | hcollide
    · exact .inl hp
    · exact .inr (hcollide.mono (List.subset_cons_self _ _) (List.subset_cons_self _ _))
  · exact .inr ⟨x, List.mem_cons_self, y, List.mem_cons_self, hxy, h⟩

-- ============================================================================
-- Chains
-- ============================================================================

/-- The nodes of a chain, the last one first.  `prev` is what `f` has given for the node
    before, `none` in the first node. -/
def Chain (f : α → γ) (prev : α → Option γ) : List α → Prop
  | [] => True
  | [x] => prev x = none
  | x :: y :: l => prev x = some (f y) ∧ Chain f prev (y :: l)

/-- Two chains with the same last node. -/
theorem Chain.eq_or_collide {prev : α → Option γ} (h : Chain f prev (x :: l))
    (h' : Chain f prev (x :: m)) : l = m ∨ Collide f l m := by
  induction l generalizing x m with
  | nil =>
      cases m with
      | nil => exact .inl rfl
      | cons z m =>
          have hfirst : prev x = none := h
          rw [h'.1] at hfirst
          cases hfirst
  | cons y l ih =>
      cases m with
      | nil =>
          have hfirst : prev x = none := h'
          rw [h.1] at hfirst
          cases hfirst
      | cons z m =>
          have hf : f y = f z := Option.some.inj (h.1.symm.trans h'.1)
          refine or_collide_cons hf fun hyz => ?_
          subst hyz
          exact (ih h.2 h'.2).imp_left (congrArg (y :: ·))

-- ============================================================================
-- Trees
-- ============================================================================

/-- The nodes of a tree below its root, the leaves too. -/
def below [Inhabited α] (node : α → α → α) (l : List α) : List α :=
  if 2 ≤ l.length then
    (root node (l.take (split l.length)) :: below node (l.take (split l.length))) ++
      (root node (l.drop (split l.length)) :: below node (l.drop (split l.length)))
  else []
termination_by l.length
decreasing_by
  · have hlt := split_lt (n := l.length) (by assumption)
    rw [List.length_take]
    omega
  · have hpos := split_pos l.length
    rw [List.length_drop]
    omega

variable [Inhabited α] {node node' : α → α → α} {a b : List α} {k : Nat}

theorem below_append (ha : a.length = 2 ^ k) (hb : b ≠ []) (hle : b.length ≤ 2 ^ k) :
    below node (a ++ b) = (root node a :: below node a) ++ (root node b :: below node b) := by
  have hpos := List.length_pos_iff.mpr hb
  have hone := Nat.two_pow_pos k
  have hsplit : split (a ++ b).length = a.length := by
    rw [ha, List.length_append]
    exact split_eq (by omega) (by rw [Nat.pow_succ]; omega)
  rw [below, if_pos (by rw [List.length_append]; omega), hsplit, List.take_left, List.drop_left]

/-- What holds of the leaves and of every parent holds of the root. -/
theorem root_forall {P : α → Prop} (hnode : ∀ x y, P (node x y)) (hl : l ≠ [])
    (hleaf : ∀ x ∈ l, P x) : P (root node l) := by
  by_cases htwo : 2 ≤ l.length
  · rw [root_eq_halves htwo]
    exact hnode _ _
  · have hpos := List.length_pos_iff.mpr hl
    obtain ⟨x, rfl⟩ := List.length_eq_one_iff.mp (show l.length = 1 by omega)
    rw [root_singleton]
    exact hleaf x List.mem_cons_self

theorem below_forall {P : α → Prop} (hnode : ∀ x y, P (node x y)) (hl : l ≠ [])
    (hleaf : ∀ x ∈ l, P x) : ∀ x ∈ below node l, P x := by
  induction l, hl using tree_induction with
  | leaf x =>
      rw [below, if_neg (by simp)]
      simp
  | step k a b hane hb ha hle iha ihb =>
      rw [List.forall_mem_append] at hleaf
      rw [below_append ha hb hle, List.forall_mem_append, List.forall_mem_cons,
        List.forall_mem_cons]
      exact ⟨⟨root_forall hnode hane hleaf.1, iha hleaf.1⟩, root_forall hnode hb hleaf.2,
        ihb hleaf.2⟩

/-- Two trees with the same root, where no leaf of the one is a parent in the other. -/
theorem root_eq_or_collide
    (hnode : ∀ x y x' y', node x y = node' x' y' → f x = f x' ∧ f y = f y')
    (hl : l ≠ []) (hm : m ≠ []) (hleaf : ∀ x ∈ l, ∀ y z, x ≠ node' y z)
    (hleaf' : ∀ x ∈ m, ∀ y z, node y z ≠ x) (hroot : root node l = root node' m) :
    l = m ∨ Collide f (below node l) (below node' m) := by
  induction l, hl using tree_induction generalizing m with
  -- a leaf against a parent is excluded, against a leaf it is the same
  | leaf x =>
      by_cases htwo : 2 ≤ m.length
      · rw [root_singleton, root_eq_halves htwo] at hroot
        exact absurd hroot (hleaf x List.mem_cons_self _ _)
      · have hpos := List.length_pos_iff.mpr hm
        obtain ⟨y, rfl⟩ := List.length_eq_one_iff.mp (show m.length = 1 by omega)
        rw [root_singleton, root_singleton] at hroot
        exact .inl (by rw [hroot])
  | step k a b hane hb ha hle iha ihb =>
      by_cases htwo : 2 ≤ m.length
      · obtain ⟨k', c, d, rfl, hc, hd, hle'⟩ := exists_parts htwo
        have hcne : c ≠ [] := List.length_pos_iff.mp (by rw [hc]; exact Nat.two_pow_pos k')
        rw [List.forall_mem_append] at hleaf hleaf'
        rw [root_append ha hb hle, root_append hc hd hle'] at hroot
        rw [below_append ha hb hle, below_append hc hd hle']
        obtain ⟨hleft, hright⟩ := hnode _ _ _ _ hroot
        -- equal parents: each side is equal, or the pair collides there or further down
        have hac : a = c ∨ Collide f (root node a :: below node a) (root node' c :: below node' c) :=
          or_collide_cons hleft fun heq => iha hcne hleaf.1 hleaf'.1 heq
        have hbd : b = d ∨ Collide f (root node b :: below node b) (root node' d :: below node' d) :=
          or_collide_cons hright fun heq => ihb hd hleaf.2 hleaf'.2 heq
        rcases hac with rfl | hcollide
        · rcases hbd with rfl | hcollide
          · exact .inl rfl
          · exact .inr (hcollide.mono (List.subset_append_right _ _) (List.subset_append_right _ _))
        · exact .inr (hcollide.mono (List.subset_append_left _ _) (List.subset_append_left _ _))
      · have hpos := List.length_pos_iff.mpr hm
        obtain ⟨y, rfl⟩ := List.length_eq_one_iff.mp (show m.length = 1 by omega)
        rw [root_append ha hb hle, root_singleton] at hroot
        exact absurd hroot (hleaf' y List.mem_cons_self _ _)

end Lib
end Fredlib
