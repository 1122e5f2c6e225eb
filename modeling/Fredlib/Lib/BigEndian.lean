/-
  Fredlib.Lib.BigEndian

  Numbers written with their most significant digit first, over any base.

  `beNat b ds` is Mathlib's little-endian `Nat.ofDigits` of the reversed digits.
  Digit strings of one length are ordered by their numbers the way they are
  ordered place by place, where they are ordered place by place at all
  (`beNat_le_of_forall₂`), different strings are different numbers (`beNat_inj`),
  and all of them are ordered as in a dictionary (`beNat_lt_iff`).
-/

import Mathlib.Data.Nat.Digits.Defs
import Mathlib.Data.Nat.Digits.Lemmas
import Mathlib.Data.List.Forall2

namespace Fredlib
namespace Lib

/-- The number with the digits `ds` in base `b`, the first one the most significant. -/
def beNat (b : ℕ) (ds : List ℕ) : ℕ := Nat.ofDigits b ds.reverse

variable {b d : ℕ} {as bs ds : List ℕ}

@[simp] theorem beNat_nil : beNat b [] = 0 := rfl

theorem beNat_cons : beNat b (d :: ds) = beNat b ds + b ^ ds.length * d :=
  Nat.ofDigits_reverse_cons ds d

/-- Place by place at most means at most. -/
theorem beNat_le_of_forall₂ (h : List.Forall₂ (· ≤ ·) as bs) : beNat b as ≤ beNat b bs := by
  induction h with
  | nil => rfl
  | cons hd htail ih =>
      rw [beNat_cons, beNat_cons, htail.length_eq]
      exact Nat.add_le_add ih (Nat.mul_le_mul_left _ hd)

/-- Strings of one length with the same number are the same string. -/
theorem beNat_inj (hb : 1 < b) (hlen : as.length = bs.length) (has : ∀ d ∈ as, d < b)
    (hbs : ∀ d ∈ bs, d < b) : beNat b as = beNat b bs ↔ as = bs := by
  constructor
  · intro h
    have hrev : as.reverse = bs.reverse := by
      refine Nat.ofDigits_inj_of_len_eq hb (by simpa using hlen) ?_ ?_ h
      · exact fun d hd => has d (List.mem_reverse.mp hd)
      · exact fun d hd => hbs d (List.mem_reverse.mp hd)
    exact List.reverse_inj.mp hrev
  · rintro rfl
    rfl

theorem beNat_lt_pow (has : ∀ d ∈ as, d < b) : beNat b as < b ^ as.length := by
  induction as with
  | nil => exact Nat.one_pos
  | cons a as ih =>
      rw [List.forall_mem_cons] at has
      have htail := ih has.2
      have hhead := Nat.mul_le_mul_left (b ^ as.length) (Nat.succ_le_of_lt has.1)
      rw [beNat_cons, List.length_cons, Nat.pow_succ]
      rw [Nat.mul_succ] at hhead
      omega

/-- Strings of one length are ordered by their numbers as they are in a dictionary. -/
theorem beNat_lt_iff (hlen : as.length = bs.length) (has : ∀ d ∈ as, d < b) (hbs : ∀ d ∈ bs, d < b) :
    beNat b as < beNat b bs ↔ as < bs := by
  induction as generalizing bs with
  | nil =>
      rw [List.length_nil, eq_comm, List.length_eq_zero_iff] at hlen
      simp [hlen]
  | cons x as ih =>
      cases bs with
      | nil => cases hlen
      | cons y bs =>
          have hlen' := Nat.succ.inj hlen
          rw [List.forall_mem_cons] at has hbs
          have hxs := beNat_lt_pow has.2
          have hys := beNat_lt_pow hbs.2
          rw [hlen'] at hxs
          rw [beNat_cons, beNat_cons, hlen', List.cons_lt_cons_iff]
          -- the first digits decide unless they are equal, since the rest is below one unit of them
          rcases Nat.lt_trichotomy x y with hlt | heq | hgt
          · have hmul := Nat.mul_le_mul_left (b ^ bs.length) (Nat.succ_le_of_lt hlt)
            rw [Nat.mul_succ] at hmul
            simp only [hlt, true_or, iff_true]
            omega
          · subst heq
            simp only [Nat.lt_irrefl, true_and, false_or, Nat.add_lt_add_iff_right]
            exact ih hlen' has.2 hbs.2
          · have hmul := Nat.mul_le_mul_left (b ^ bs.length) (Nat.succ_le_of_lt hgt)
            rw [Nat.mul_succ] at hmul
            have hnot : ¬ (x < y ∨ x = y ∧ as < bs) := by omega
            simp only [hnot, iff_false]
            omega

end Lib
end Fredlib
