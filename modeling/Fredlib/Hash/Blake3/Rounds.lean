/-
  Fredlib.Hash.Blake3.Rounds

  The rounds of the compression function lose nothing.

  Every statement of `g` changes one word of the state by a bijection that another word
  chooses, so that a round is a bijection of the states, whatever the message is.
  Hence the state before the last exclusive or still tells all inputs of the compression
  function but the block (`compressPre_inj`).
-/

import Fredlib.Lib.Words
import Fredlib.Hash.Blake3.Compress
import Mathlib.Algebra.Group.Equiv.Basic
import Mathlib.Data.Fintype.Basic

namespace Fredlib
namespace Blake3

open Lib

-- ============================================================================
-- Rotations
-- ============================================================================

theorem toBitVec_rotr32 (w : UInt32) {c : UInt32} (hpos : 0 < c.toNat) (hlt : c.toNat < 32) :
    (rotr32 w c).toBitVec = w.toBitVec.rotateRight c.toNat := by
  have hback : (32 - c).toNat = 32 - c.toNat := by
    rw [UInt32.toNat_sub_of_le _ _ (UInt32.le_iff_toNat_le.mpr (Nat.le_of_lt hlt))]
    rfl
  rw [rotr32, BitVec.rotateRight_def, UInt32.toBitVec_or, UInt32.toBitVec_shiftLeft,
    UInt32.toBitVec_shiftRight, BitVec.ushiftRight_eq', BitVec.shiftLeft_eq']
  congr 2
  show (32 - c).toNat % 32 = 32 - c.toNat % 32
  rw [hback]
  omega

/-- A rotation and the rest of the way round. -/
theorem rotr32_rotr32 (w : UInt32) {c d : UInt32} (hpos : 0 < c.toNat) (hdpos : 0 < d.toNat)
    (hsum : c.toNat + d.toNat = 32) : rotr32 (rotr32 w c) d = w := by
  apply UInt32.eq_of_toBitVec_eq
  rw [toBitVec_rotr32 _ hdpos (by omega), toBitVec_rotr32 _ hpos (by omega)]
  exact rotateRight_rotateRight _ hpos hdpos hsum

/-- A rotation. -/
def rotEquiv (c d : UInt32) (hpos : 0 < c.toNat) (hdpos : 0 < d.toNat)
    (hsum : c.toNat + d.toNat = 32) : Equiv.Perm UInt32 where
  toFun w := rotr32 w c
  invFun w := rotr32 w d
  left_inv w := rotr32_rotr32 w hpos hdpos hsum
  right_inv w := rotr32_rotr32 w hdpos hpos (by omega)

-- ============================================================================
-- One statement
-- ============================================================================

/-- A word changed by a bijection that another word chooses. -/
theorem step_bijective {i j : Nat} (hi : i < 16) (hj : j < 16) (hij : i ≠ j)
    (e : UInt32 → Equiv.Perm UInt32) :
    Function.Bijective fun s : Vector UInt32 16 => s.set i (e s[j] s[i]) := by
  have hother : ∀ (s : Vector UInt32 16) v, (s.set i v)[j] = s[j] := fun s v =>
    Vector.getElem_set_ne _ _ hij
  refine Function.bijective_iff_has_inverse.mpr
    ⟨fun s => s.set i ((e s[j]).symm s[i]), fun s => ?_, fun s => ?_⟩
  · simp only [hother, Vector.getElem_set_self, Equiv.symm_apply_apply, Vector.set_set,
      Vector.set_getElem_self]
  · simp only [hother, Vector.getElem_set_self, Equiv.apply_symm_apply, Vector.set_set,
      Vector.set_getElem_self]

/-- A word added. -/
def addEquiv (v : UInt32) : Equiv.Perm UInt32 where
  toFun w := w + v
  invFun w := w - v
  left_inv w := UInt32.add_sub_cancel w v
  right_inv w := UInt32.sub_add_cancel w v

/-- A word mixed in by exclusive or. -/
def xorEquiv (v : UInt32) : Equiv.Perm UInt32 where
  toFun w := w ^^^ v
  invFun w := w ^^^ v
  left_inv w := by simp only [UInt32.xor_assoc, UInt32.xor_self, UInt32.xor_zero]
  right_inv w := by simp only [UInt32.xor_assoc, UInt32.xor_self, UInt32.xor_zero]

variable {a b c d : Fin 16} {msg : Vector UInt32 16}

theorem g_bijective (hab : a ≠ b) (hda : d ≠ a) (hcd : c ≠ d) (hbc : b ≠ c) (x y : UInt32) :
    Function.Bijective fun state => g state a b c d x y := by
  have hadd : ∀ (v : UInt32) (i j : Fin 16) (hij : i ≠ j), Function.Bijective fun s : Vector UInt32 16 =>
      s.set i (s[i] + s[j] + v) :=
    fun v i j hij => step_bijective i.isLt j.isLt (mt Fin.ext hij)
      fun w => (addEquiv w).trans (addEquiv v)
  have hadd' : ∀ (i j : Fin 16) (hij : i ≠ j), Function.Bijective fun s : Vector UInt32 16 =>
      s.set i (s[i] + s[j]) :=
    fun i j hij => step_bijective i.isLt j.isLt (mt Fin.ext hij) addEquiv
  have hrot : ∀ (n k : UInt32) (i j : Fin 16) (hij : i ≠ j) (hn : 0 < n.toNat) (hk : 0 < k.toNat)
      (hsum : n.toNat + k.toNat = 32), Function.Bijective fun s : Vector UInt32 16 =>
      s.set i (rotr32 (s[i] ^^^ s[j]) n) :=
    fun n k i j hij hn hk hsum => step_bijective i.isLt j.isLt (mt Fin.ext hij)
      fun w => (xorEquiv w).trans (rotEquiv n k hn hk hsum)
  have h₁ := hadd x a b hab
  have h₂ := hrot 16 16 d a hda (by decide) (by decide) (by decide)
  have h₃ := hadd' c d hcd
  have h₄ := hrot 12 20 b c hbc (by decide) (by decide) (by decide)
  have h₅ := hadd y a b hab
  have h₆ := hrot 8 24 d a hda (by decide) (by decide) (by decide)
  have h₇ := hadd' c d hcd
  have h₈ := hrot 7 25 b c hbc (by decide) (by decide) (by decide)
  exact h₈.comp (h₇.comp (h₆.comp (h₅.comp (h₄.comp (h₃.comp (h₂.comp h₁))))))

-- ============================================================================
-- The rounds
-- ============================================================================

theorem roundFn_bijective (msg : Vector UInt32 16) (round : Fin 7) :
    Function.Bijective fun state => roundFn msg state round := by
  have hg : ∀ (a b c d : Fin 16) (x y : UInt32), a ≠ b → d ≠ a → c ≠ d → b ≠ c →
      Function.Bijective fun state => g state a b c d x y :=
    fun a b c d x y hab hda hcd hbc => g_bijective hab hda hcd hbc x y
  unfold roundFn
  refine (hg 3 4 9 14 _ _ ?_ ?_ ?_ ?_).comp <| (hg 2 7 8 13 _ _ ?_ ?_ ?_ ?_).comp <|
    (hg 1 6 11 12 _ _ ?_ ?_ ?_ ?_).comp <| (hg 0 5 10 15 _ _ ?_ ?_ ?_ ?_).comp <|
    (hg 3 7 11 15 _ _ ?_ ?_ ?_ ?_).comp <| (hg 2 6 10 14 _ _ ?_ ?_ ?_ ?_).comp <|
    (hg 1 5 9 13 _ _ ?_ ?_ ?_ ?_).comp (hg 0 4 8 12 _ _ ?_ ?_ ?_ ?_) <;> decide

theorem rounds_bijective (msg : Vector UInt32 16) : Function.Bijective (rounds msg) := by
  have hfold : ∀ l : List (Fin 7), Function.Bijective fun state => l.foldl (roundFn msg) state := by
    intro l
    induction l with
    | nil => exact Function.bijective_id
    | cons r l ih => exact ih.comp (roundFn_bijective msg r)
  exact hfold _

/-- The two words of a counter. -/
theorem counter_inj {counter counter' : UInt64} (hlow : counterLow counter = counterLow counter')
    (hhigh : counterHigh counter = counterHigh counter') : counter = counter' := by
  have hl := congrArg UInt32.toNat hlow
  have hh := congrArg UInt32.toNat hhigh
  have hlt := counter.toNat_lt
  have hlt' := counter'.toNat_lt
  rw [← UInt64.toNat_inj]
  simp only [counterLow, counterHigh, UInt64.toNat_toUInt32, UInt64.toNat_shiftRight,
    Nat.shiftRight_eq_div_pow] at hl hh
  simp at hl hh
  omega

/-- **Nothing is lost**: the rounds are a bijection of the states, whatever the message is, and
    for one block the state after them tells the chaining value, the counter, the length of
    the block and the flags. -/
theorem compressPre_inj (block : List UInt8) :
    Function.Bijective (rounds (blockWords block)) ∧
    ∀ cv cv' blockLen blockLen' counter counter' flags flags',
      compressPre cv block blockLen counter flags = compressPre cv' block blockLen' counter' flags' →
        cv = cv' ∧ blockLen = blockLen' ∧ counter = counter' ∧ flags = flags' := by
  refine ⟨rounds_bijective _, fun cv cv' blockLen blockLen' counter counter' flags flags' h => ?_⟩
  have hinit := (rounds_bijective (blockWords block)).injective h
  simp only [Vector.mk.injEq, Array.mk.injEq, List.cons.injEq, and_true, true_and] at hinit
  obtain ⟨h0, h1, h2, h3, h4, h5, h6, h7, hlow, hhigh, hlen, hflags⟩ := hinit
  refine ⟨?_, UInt8.toUInt32_inj.mp hlen, counter_inj hlow hhigh, UInt8.toUInt32_inj.mp hflags⟩
  refine Vector.ext fun i hi => ?_
  match i, hi with
  | 0, _ => exact h0
  | 1, _ => exact h1
  | 2, _ => exact h2
  | 3, _ => exact h3
  | 4, _ => exact h4
  | 5, _ => exact h5
  | 6, _ => exact h6
  | 7, _ => exact h7

end Blake3
end Fredlib
