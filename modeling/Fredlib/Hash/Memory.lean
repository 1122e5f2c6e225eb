/-
  Fredlib.Hash.Memory

  Numbers in the memory of a little-endian machine, as the hash functions read
  and write them through pointers to other types.
-/

import Mathlib.Data.List.Basic
import Mathlib.Data.List.TakeDrop

namespace Fredlib

/-- The number of `n` bytes that `data` points to. -/
def load : Nat → List UInt8 → UInt64
  | 0, _ => 0
  | _ + 1, [] => 0
  | n + 1, x :: data => x.toUInt64 ||| (load n data <<< 8)

/-- The bytes of a number of eight bytes. -/
def bytes (value : UInt64) : List UInt8 :=
  (List.range 8).map fun i => (value >>> UInt64.ofNat (8 * i)).toUInt8

/-- A load reads no further than its bytes. -/
theorem load_take {n m : Nat} (hnm : n ≤ m) (data : List UInt8) :
    load n (data.take m) = load n data := by
  induction n generalizing m data with
  | zero => rfl
  | succ n ih =>
      obtain ⟨m, rfl⟩ : ∃ k, m = k + 1 := ⟨m - 1, by omega⟩
      cases data with
      | nil => rfl
      | cons x data => rw [List.take_succ_cons, load, load, ih (by omega)]

@[simp] theorem length_bytes (value : UInt64) : (bytes value).length = 8 := by simp [bytes]

end Fredlib
