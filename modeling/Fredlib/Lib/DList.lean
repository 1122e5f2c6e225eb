/-
  Fredlib.Lib.DList

  Doubly linked chains in a heap, over any type of addresses.

  `Chain prev next p s q` says that the nodes of `s` are linked in this order in
  both directions, the first one having `p` before it and the last one `q` after
  it.  A chain only depends on the links of its own nodes, so what an update of
  the heap does to it is said pointwise (`Chain.rewire`, `Chain.congr`).
-/

import Mathlib.Data.List.Nodup
import Mathlib.Logic.Relation

namespace Fredlib
namespace Lib
namespace DList

variable {α : Type*} {prev next prev' next' : α → Option α} {p q p' q' p₂ q₁ : Option α}
  {s t : List α}

/-- The nodes of `s` are linked in this order between `p` and `q`. -/
def Chain (prev next : α → Option α) : Option α → List α → Option α → Prop
  | _, [], _ => True
  | p, a :: s, q => prev a = p ∧ next a = s.head?.or q ∧ Chain prev next (some a) s q

@[simp] theorem chain_nil : Chain prev next p [] q := trivial

@[simp] theorem chain_cons {a : α} :
    Chain prev next p (a :: s) q ↔
      prev a = p ∧ next a = s.head?.or q ∧ Chain prev next (some a) s q := Iff.rfl

/-- A chain splits at any place. -/
theorem chain_append :
    Chain prev next p (s ++ t) q ↔
      Chain prev next p s (t.head?.or q) ∧ Chain prev next (s.getLast?.or p) t q := by
  induction s generalizing p with
  | nil => simp
  | cons a s ih =>
      have hhead : (s ++ t).head?.or q = s.head?.or (t.head?.or q) := by
        cases s <;> simp
      have hlast : s.getLast?.or (some a) = (a :: s).getLast?.or p := by
        cases s with
        | nil => rfl
        | cons b s => simp [List.getLast?_cons]
      rw [List.cons_append, chain_cons, chain_cons, ih, hhead, hlast, and_assoc, and_assoc]

/-- The node before the first one. -/
theorem Chain.prev_head {a : α} (h : Chain prev next p s q) (ha : s.head? = some a) :
    prev a = p := by
  cases s with
  | nil => cases ha
  | cons b s =>
      cases ha
      exact h.1

/-- The node after the last one. -/
theorem Chain.next_last {a : α} (h : Chain prev next p s q) (ha : s.getLast? = some a) :
    next a = q := by
  obtain ⟨s, rfl⟩ := List.getLast?_eq_some_iff.mp ha
  exact (chain_append.mp h).2.2.1

/-- New links for the two ends: inside, nothing changes. -/
theorem Chain.rewire (h : Chain prev next p s q) (hnodup : s.Nodup)
    (hprev : ∀ a ∈ s, s.head? ≠ some a → prev' a = prev a)
    (hfirst : ∀ a, s.head? = some a → prev' a = p')
    (hnext : ∀ a ∈ s, s.getLast? ≠ some a → next' a = next a)
    (hlast : ∀ a, s.getLast? = some a → next' a = q') :
    Chain prev' next' p' s q' := by
  induction s generalizing p p' with
  | nil => trivial
  | cons a s ih =>
      obtain ⟨-, hna, htail⟩ := h
      have hne : ∀ b ∈ s, b ≠ a := fun b hb hba => (List.nodup_cons.mp hnodup).1 (hba ▸ hb)
      refine ⟨hfirst a rfl, ?_, ?_⟩
      · cases s with
        | nil => exact hlast a rfl
        | cons b s =>
            rw [hnext a List.mem_cons_self, hna]
            · rfl
            · rw [List.getLast?_cons_cons]
              intro hl
              exact hne a (List.mem_of_getLast? hl) rfl
      · -- the last of the whole is the last of the tail, unless the tail is empty
        have hlast' : ∀ b ∈ s, (a :: s).getLast? = s.getLast? := by
          intro b hb
          obtain ⟨c, s, rfl⟩ := List.exists_cons_of_ne_nil (List.ne_nil_of_mem hb)
          rw [List.getLast?_cons_cons]
        refine ih htail (List.nodup_cons.mp hnodup).2 ?_ ?_ ?_ ?_
        · intro b hb _
          exact hprev b (List.mem_cons_of_mem _ hb) fun hab => hne b hb (Option.some.inj hab).symm
        · intro b hb
          have hmem := List.mem_of_head? hb
          rw [hprev b (List.mem_cons_of_mem _ hmem) fun hab =>
            hne b hmem (Option.some.inj hab).symm]
          exact htail.prev_head hb
        · intro b hb hl
          exact hnext b (List.mem_cons_of_mem _ hb) (by rwa [hlast' b hb])
        · intro b hb
          exact hlast b (by rwa [hlast' b (List.mem_of_getLast? hb)])

/-- Another node after the last one. -/
theorem Chain.relast [DecidableEq α] (h : Chain prev next p s q) (hnodup : s.Nodup)
    (hprev : ∀ a ∈ s, prev' a = prev a)
    (hnext : ∀ a ∈ s, next' a = if s.getLast? = some a then q' else next a) :
    Chain prev' next' p s q' := by
  refine h.rewire hnodup ?_ ?_ ?_ ?_
  · intro a ha _
    exact hprev a ha
  · intro a ha
    rw [hprev a (List.mem_of_head? ha), h.prev_head ha]
  · intro a ha hl
    rw [hnext a ha, if_neg hl]
  · intro a ha
    rw [hnext a (List.mem_of_getLast? ha), if_pos ha]

/-- Another node before the first one. -/
theorem Chain.refirst [DecidableEq α] (h : Chain prev next p s q) (hnodup : s.Nodup)
    (hprev : ∀ a ∈ s, prev' a = if s.head? = some a then p' else prev a)
    (hnext : ∀ a ∈ s, next' a = next a) : Chain prev' next' p' s q := by
  refine h.rewire hnodup ?_ ?_ ?_ ?_
  · intro a ha hh
    rw [hprev a ha, if_neg hh]
  · intro a ha
    rw [hprev a (List.mem_of_head? ha), if_pos ha]
  · intro a ha _
    exact hnext a ha
  · intro a ha
    rw [hnext a (List.mem_of_getLast? ha), h.next_last ha]

/-- Two chains side by side, with new links where they meet: `p'` before the second and
    `q'` after the first. -/
theorem Chain.relink [DecidableEq α] (hs : Chain prev next p s q₁) (ht : Chain prev next p₂ t q)
    (hnodup : (s ++ t).Nodup)
    (hprev : ∀ a ∈ s ++ t, prev' a = if t.head? = some a then p' else prev a)
    (hnext : ∀ a ∈ s ++ t, next' a = if s.getLast? = some a then q' else next a) :
    Chain prev' next' p s q' ∧ Chain prev' next' p' t q := by
  obtain ⟨hsnodup, htnodup, hdisj⟩ := List.nodup_append.mp hnodup
  constructor
  · refine hs.relast hsnodup ?_ fun a ha => hnext a (List.mem_append_left _ ha)
    intro a ha
    rw [hprev a (List.mem_append_left _ ha), if_neg]
    exact fun hh => hdisj a ha a (List.mem_of_head? hh) rfl
  · refine ht.refirst htnodup (fun a ha => hprev a (List.mem_append_right _ ha)) ?_
    intro a ha
    rw [hnext a (List.mem_append_right _ ha), if_neg]
    exact fun hl => hdisj a (List.mem_of_getLast? hl) a ha rfl

/-- A chain only depends on the links of its nodes. -/
theorem Chain.congr (h : Chain prev next p s q) (hprev : ∀ a ∈ s, prev' a = prev a)
    (hnext : ∀ a ∈ s, next' a = next a) : Chain prev' next' p s q := by
  induction s generalizing p with
  | nil => trivial
  | cons a s ih =>
      obtain ⟨hp, hn, htail⟩ := h
      refine ⟨by rw [hprev a List.mem_cons_self, hp], by rw [hnext a List.mem_cons_self, hn], ?_⟩
      exact ih htail (fun b hb => hprev b (List.mem_cons_of_mem _ hb))
        fun b hb => hnext b (List.mem_cons_of_mem _ hb)

/-! ## Nodes reached along `next` -/

/-- `a` is reached from `head` by following `next`. -/
def Reaches (next : α → Option α) (head : Option α) (a : α) : Prop :=
  ∃ x, head = some x ∧ Relation.ReflTransGen (fun x y => next x = some y) x a

theorem Chain.reaches_of_mem {a x : α} (h : Chain prev next p (x :: s) q) (ha : a ∈ x :: s) :
    Relation.ReflTransGen (fun x y => next x = some y) x a := by
  induction s generalizing p x with
  | nil =>
      rw [List.mem_singleton.mp ha]
  | cons y s ih =>
      rcases List.mem_cons.mp ha with rfl | ha
      · exact .refl
      · exact .head h.2.1 (ih h.2.2 ha)

/-- Following `next` from the first node of a closed chain visits its nodes. -/
theorem Chain.reaches_iff {a : α} (h : Chain prev next p s none) :
    Reaches next s.head? a ↔ a ∈ s := by
  constructor
  · rintro ⟨x, hx, hpath⟩
    induction hpath with
    | refl => exact List.mem_of_head? hx
    | @tail b c _ hbc ih =>
        -- the node after a member of the chain is a member
        obtain ⟨s₁, s₂, rfl⟩ := List.append_of_mem ih
        have hb := (chain_append.mp h).2.2.1
        rw [hbc] at hb
        cases s₂ with
        | nil => simp at hb
        | cons d s₂ => simp_all
  · intro ha
    cases s with
    | nil => cases ha
    | cons x s => exact ⟨x, rfl, h.reaches_of_mem ha⟩

end DList
end Lib
end Fredlib
