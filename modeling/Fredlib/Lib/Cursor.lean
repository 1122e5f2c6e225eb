/-
  Fredlib.Lib.Cursor

  Bidirectional iterators over any type of elements.

  A `Cursor` is the operations of a type of iterators.  `Track` says what single
  steps do along a sequence of elements; from it follow a whole traversal in
  either direction, the range-for loop (`Track.visits`) and where the two
  directions undo each other.
-/

import Mathlib.Logic.Basic
import Mathlib.Data.List.Basic

namespace Fredlib
namespace Lib

/-- The operations of a bidirectional iterator.  `none` stands for undefined
    behaviour. -/
structure Cursor (I E : Type*) where
  increment : I → Option I
  decrement : I → Option I
  deref : I → Option E
  isValid : I → Bool
  equal : I → I → Bool

namespace Cursor

variable {I E : Type*}

/-- A move made `k` times. -/
def times (move : I → Option I) : Nat → I → Option I
  | 0, it => some it
  | k + 1, it => (times move k it).bind move

/-- The elements that `for (auto& a : range)` visits in less than `fuel` rounds.  `none` if
    it has not ended by then, or does something undefined. -/
def rangeFor (c : Cursor I E) (last : I) : Nat → I → Option (List E)
  | 0, _ => none
  | fuel + 1, it =>
      if c.equal it last then some []
      else (c.deref it).bind fun a =>
        (c.increment it).bind fun it => (c.rangeFor last fuel it).map fun rest => a :: rest

/-- Traversals of `s`: forwards from `first` through every element up to `last`, and
    from each of them backwards to the first element and out of the sequence. -/
structure Visits (c : Cursor I E) (first last null : I) (s : List E) : Prop where
  forwards : ∀ k (hk : k < s.length), ∃ it, times c.increment k first = some it ∧
    c.isValid it = true ∧ c.deref it = some s[k]
  ends : ∃ it, times c.increment s.length first = some it ∧ c.equal it last = true ∧
    c.isValid it = false
  backwards : ∀ k it, k < s.length → times c.increment k first = some it →
    (∀ j (hj : j < s.length), j ≤ k → ∃ it', times c.decrement (k - j) it = some it' ∧
      c.isValid it' = true ∧ c.deref it' = some s[j]) ∧
    ∃ it', times c.decrement (k + 1) it = some it' ∧ c.equal it' null = true ∧
      c.isValid it' = false
  loop : ∀ fuel, s.length < fuel → c.rangeFor last fuel first = some s

/-- The iterators `pos` stand at the elements of `s`, in order, and then past them. -/
structure Track (c : Cursor I E) (pos : Nat → I) (last null : I) (s : List E) : Prop where
  increment : ∀ k, k < s.length → c.increment (pos k) = some (pos (k + 1))
  decrement : ∀ k, k + 1 < s.length → c.decrement (pos (k + 1)) = some (pos k)
  out : s ≠ [] → ∃ it, c.decrement (pos 0) = some it ∧ c.equal it null = true ∧
    c.isValid it = false
  deref : ∀ k (hk : k < s.length), c.deref (pos k) = some s[k]
  isValid : ∀ k, k ≤ s.length → c.isValid (pos k) = decide (k < s.length)
  equal_last : ∀ k, k ≤ s.length → c.equal (pos k) last = decide (k = s.length)

variable {c : Cursor I E} {pos : Nat → I} {last null : I} {s : List E} {k j : Nat}

namespace Track

/-! ## Whole traversals -/

theorem times_increment (h : Track c pos last null s) (hk : k ≤ s.length) :
    times c.increment k (pos 0) = some (pos k) := by
  induction k with
  | zero => rfl
  | succ k ih =>
      rw [times, ih (by omega), Option.bind_some]
      exact h.increment k (by omega)

theorem times_decrement (h : Track c pos last null s) (hk : k < s.length) (hj : j ≤ k) :
    times c.decrement j (pos k) = some (pos (k - j)) := by
  induction j with
  | zero => rfl
  | succ j ih =>
      have hlast : k - j = k - (j + 1) + 1 := by omega
      rw [times, ih (by omega), Option.bind_some, hlast]
      exact h.decrement _ (by omega)

/-- The loop from the position `k` on, by induction on the rounds it is given. -/
theorem rangeFor_drop (h : Track c pos last null s) {fuel : Nat} (hk : k ≤ s.length)
    (hfuel : s.length < k + fuel) : c.rangeFor last fuel (pos k) = some (s.drop k) := by
  induction fuel generalizing k with
  | zero => omega
  | succ fuel ih =>
      rw [rangeFor, h.equal_last k hk]
      by_cases hend : k = s.length
      · rw [decide_eq_true hend, if_pos rfl, hend, List.drop_length]
      · have hlt : k < s.length := by omega
        rw [decide_eq_false hend, if_neg Bool.false_ne_true, h.deref k hlt, Option.bind_some,
          h.increment k hlt, Option.bind_some, ih (by omega) (by omega), Option.map_some,
          ← List.drop_eq_getElem_cons hlt]

/-- **The traversal rule**: steps that stay on the track make whole traversals. -/
theorem visits (h : Track c pos last null s) : Visits c (pos 0) last null s := by
  refine ⟨?_, ?_, ?_, ?_⟩
  · intro k hk
    refine ⟨pos k, h.times_increment (by omega), ?_, h.deref k hk⟩
    rw [h.isValid k (by omega), decide_eq_true hk]
  · refine ⟨pos s.length, h.times_increment (Nat.le_refl _), ?_, ?_⟩
    · rw [h.equal_last _ (Nat.le_refl _), decide_eq_true rfl]
    · rw [h.isValid _ (Nat.le_refl _), decide_eq_false (Nat.lt_irrefl _)]
  · intro k it hk hit
    rw [h.times_increment (by omega)] at hit
    cases hit
    constructor
    · intro j hj hjk
      have hback : k - (k - j) = j := by omega
      refine ⟨pos j, ?_, ?_, h.deref j hj⟩
      · rw [h.times_decrement hk (by omega), hback]
      · rw [h.isValid j (by omega), decide_eq_true hj]
    · obtain ⟨it', hout, hnull⟩ := h.out (List.ne_nil_of_length_pos (by omega))
      refine ⟨it', ?_, hnull⟩
      rw [times, h.times_decrement hk (Nat.le_refl _), Nat.sub_self, Option.bind_some, hout]
  · intro fuel hfuel
    exact h.rangeFor_drop (Nat.zero_le _) (by omega)

/-! ## There and back -/

variable {it : I}

/-- The iterators reached from the first one are those of the track, if there is no
    way on from its end. -/
theorem eq_pos (h : Track c pos last null s) (hend : c.increment (pos s.length) = none)
    (hit : times c.increment k (pos 0) = some it) : k ≤ s.length ∧ it = pos k := by
  induction k generalizing it with
  | zero =>
      cases hit
      exact ⟨Nat.zero_le _, rfl⟩
  | succ k ih =>
      obtain ⟨it₀, hit₀, hnext⟩ := Option.bind_eq_some_iff.mp hit
      obtain ⟨hk, rfl⟩ := ih hit₀
      have hlt : k < s.length := by
        refine Nat.lt_of_le_of_ne hk fun hlast => ?_
        rw [hlast, hend] at hnext
        cases hnext
      rw [h.increment k hlt] at hnext
      cases hnext
      exact ⟨hlt, rfl⟩

/-- Where one step forwards and one back, or one back and one forwards, lead to the
    iterator again, if nothing leads on or back from the end. -/
theorem bidirectional_iff (h : Track c pos last null s)
    (hends : c.increment (pos s.length) = none ∧ c.decrement (pos s.length) = none)
    (hit : times c.increment k (pos 0) = some it) :
    (c.equal it last = false →
      k < s.length ∧ ((c.increment it).bind c.decrement = some it ↔ k + 1 ≠ s.length)) ∧
    (it ≠ pos 0 → ((c.decrement it).bind c.increment = some it ↔ c.equal it last = false)) := by
  obtain ⟨hk, rfl⟩ := h.eq_pos hends.1 hit
  rw [h.equal_last k hk, decide_eq_false_iff_not]
  constructor
  · intro hne
    have hlt : k < s.length := Nat.lt_of_le_of_ne hk hne
    refine ⟨hlt, ?_⟩
    rw [h.increment k hlt, Option.bind_some]
    constructor
    · -- one step from the last element is the end, and nothing leads back from it
      intro hback hlast
      rw [hlast, hends.2] at hback
      cases hback
    · exact fun hnot => h.decrement k (Nat.lt_of_le_of_ne hlt hnot)
  · intro hfirst
    have hpos : k ≠ 0 := fun h0 => hfirst (congrArg pos h0)
    constructor
    · intro hforth hlast
      rw [hlast, hends.2] at hforth
      cases hforth
    · intro hnot
      obtain ⟨k, rfl⟩ := Nat.exists_eq_succ_of_ne_zero hpos
      rw [h.decrement k (Nat.lt_of_le_of_ne hk hnot), Option.bind_some]
      exact h.increment k hk

end Track
end Cursor
end Lib
end Fredlib
