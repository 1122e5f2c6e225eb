/-
  Fredlib.Lib.Words

  Operations on words that lose nothing: rotations, and the exclusive or of a word with
  its own upper bits.
-/

import Mathlib.Logic.Function.Basic
import Mathlib.Data.Nat.Basic

namespace Fredlib
namespace Lib

variable {w r s : Nat}

/-- A rotation moves the bits round. -/
theorem getLsbD_rotateRight (x : BitVec w) (hr : r < w) {i : Nat} (hi : i < w) :
    (x.rotateRight r).getLsbD i = x.getLsbD ((i + r) % w) := by
  rw [BitVec.getLsbD_rotateRight_of_lt hr]
  by_cases h : i < w - r
  · rw [decide_eq_true h, cond_true, Nat.mod_eq_of_lt (by omega), Nat.add_comm]
  · have hmod : (i + r) % w = i - (w - r) := by
      rw [Nat.mod_eq_sub_mod (by omega), Nat.mod_eq_of_lt (by omega)]
      omega
    simp [h, hi, hmod]

/-- A rotation and the rest of the way round. -/
theorem rotateRight_rotateRight (x : BitVec w) (hr : 0 < r) (hs : 0 < s) (hsum : r + s = w) :
    (x.rotateRight r).rotateRight s = x := by
  refine BitVec.eq_of_getLsbD_eq fun i hi => ?_
  have hround : ((i + s) % w + r) % w = i := by
    rw [Nat.mod_add_mod, Nat.add_assoc, Nat.add_comm s r, hsum, Nat.add_mod_right,
      Nat.mod_eq_of_lt hi]
  rw [getLsbD_rotateRight _ (by omega) hi,
    getLsbD_rotateRight _ (by omega) (Nat.mod_lt _ (by omega)), hround]

theorem rotateRight_injective (hr : 0 < r) (hlt : r < w) :
    Function.Injective fun x : BitVec w => x.rotateRight r :=
  Function.LeftInverse.injective (g := fun x : BitVec w => x.rotateRight (w - r)) fun x =>
    rotateRight_rotateRight x hr (by omega) (by omega)

/-- The bits of a word come back from the top. -/
theorem xorShift_injective (hs : 0 < s) :
    Function.Injective fun x : BitVec w => x ^^^ (x >>> s) := by
  intro x y h
  have hbit : ∀ k i, w - i = k → x.getLsbD i = y.getLsbD i := by
    intro k
    induction k using Nat.strong_induction_on with
    | _ k ih =>
        intro i hk
        by_cases hi : i < w
        · have hup := ih (w - (s + i)) (by omega) (s + i) rfl
          have hxor := congrArg (fun z => BitVec.getLsbD z i) h
          simp only [BitVec.getLsbD_xor, BitVec.getLsbD_ushiftRight, hup] at hxor
          exact Bool.xor_left_inj.mp hxor
        · rw [BitVec.getLsbD_of_ge _ _ (by omega), BitVec.getLsbD_of_ge _ _ (by omega)]
  exact BitVec.eq_of_getLsbD_eq fun i _ => hbit _ i rfl

end Lib
end Fredlib
