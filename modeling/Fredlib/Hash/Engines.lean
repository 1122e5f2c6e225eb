/-
  Fredlib.Hash.Engines

  Where the engines of include/hash.hpp write, and the constructor of `HashKey`,
  which gives them its array.

  `DummyHashEngine` stores words of 16 bytes, at places that it computes from the
  length of the input and of the digest.  If the digest does not end with a word,
  the last of them may go beyond it (`engines_in_bounds_iff`).
-/

import Fredlib.Hash.HashKey
import Fredlib.Hash.XXhash64Engine
import Fredlib.Hash.City256Engine

namespace Fredlib

open Lib City

/-- A store through the pointer `digest`. -/
structure Store where
  offset : Nat
  data : List UInt8

/-- No store writes outside the `n` bytes of the digest. -/
def InBounds (n : Nat) (stores : List Store) : Prop :=
  ∀ st ∈ stores, st.offset + st.data.length ≤ n

namespace HashKey

variable {nbytes : Nat}

/-- One store into the array `mDigest`; `none` if it writes outside. -/
def write (key : HashKey nbytes) (st : Store) : Option (HashKey nbytes) :=
  if st.offset + st.data.length ≤ nbytes then
    some ⟨Vector.ofFn fun i =>
      if st.offset ≤ i.1 then (st.data[i.1 - st.offset]?).getD (key.mDigest.get i)
      else key.mDigest.get i⟩
  else none

/-- The stores of an engine, one after another. -/
def writeAll (key : HashKey nbytes) : List Store → Option (HashKey nbytes)
  | [] => some key
  | st :: stores => (key.write st).bind fun key => key.writeAll stores

/-- The constructor, with what the engine stores. -/
def create (nbytes : Nat) (stores : List Store) : Option (HashKey nbytes) :=
  writeAll ⟨Vector.replicate nbytes 0⟩ stores

theorem writeAll_isSome (key : HashKey nbytes) (stores : List Store) :
    (key.writeAll stores).isSome = true ↔ InBounds nbytes stores := by
  induction stores generalizing key with
  | nil => simp [writeAll, InBounds]
  | cons st stores ih =>
      rw [writeAll, InBounds, List.forall_mem_cons]
      by_cases hst : st.offset + st.data.length ≤ nbytes
      · rw [write, if_pos hst, Option.bind_some, ih, and_iff_right hst, InBounds]
      · have hwrite : key.write st = none := if_neg hst
        rw [hwrite, Option.bind_none]
        exact ⟨fun h => (Bool.false_ne_true h).elim, fun h => absurd h.1 hst⟩

end HashKey

namespace DummyHashEngine

/-- The bytes of `__uint128_t(i)`. -/
def bytes128 (i : Nat) : List UInt8 := bytes (UInt64.ofNat i) ++ List.replicate 8 0

/-- `hash` -/
def hash (len : UInt64) (digestLen : UInt32) : List Store :=
  (List.range (len.toNat / 16)).map fun i => ⟨16 * (i % digestLen.toNat / 16), bytes128 i⟩

end DummyHashEngine

/-- An algorithm of the library behind `SHAEngine`, which writes as many bytes as it
    says. -/
structure EvpMd where
  size : Nat
  digest : List UInt8 → List UInt8
  length_digest : ∀ input, (digest input).length = size

namespace SHAEngine

/-- `hash` -/
def hash (evp : EvpMd) (input : List UInt8) (digestLen : UInt32) : List Store :=
  if evp.size ≤ digestLen.toNat then [⟨0, evp.digest input⟩]
  else [⟨0, (evp.digest input).take digestLen.toNat⟩]

end SHAEngine

-- ============================================================================
-- The bounds
-- ============================================================================

variable {n : Nat} {digestLen : UInt32}

/-- A store at the front of the digest. -/
theorem inBounds_front {data : List UInt8} : InBounds n [⟨0, data⟩] ↔ data.length ≤ n := by
  simp [InBounds]

theorem dummy_in_bounds_iff (len : UInt64) (hdigest : 1 ≤ digestLen) :
    InBounds digestLen.toNat (DummyHashEngine.hash len digestLen) ↔
      16 * ((min (len.toNat / 16) digestLen.toNat + 15) / 16) ≤ digestLen.toNat := by
  have hpos : 1 ≤ digestLen.toNat := UInt32.le_iff_toNat_le.mp hdigest
  have hwords : InBounds digestLen.toNat (DummyHashEngine.hash len digestLen) ↔
      ∀ i < len.toNat / 16, 16 * (i % digestLen.toNat / 16) + 16 ≤ digestLen.toNat := by
    simp [InBounds, DummyHashEngine.hash, DummyHashEngine.bytes128]
  rw [hwords]
  generalize len.toNat / 16 = words
  constructor
  · -- the last place that comes up decides
    intro h
    by_cases hnone : words = 0
    · omega
    · have hlast := h (min words digestLen.toNat - 1) (by omega)
      rw [Nat.mod_eq_of_lt (by omega)] at hlast
      omega
  · intro h i hi
    have hlt := Nat.mod_lt i (show 0 < digestLen.toNat by omega)
    have hle := Nat.mod_le i digestLen.toNat
    omega

theorem xxhash_in_bounds {rounds : Nat} {buffer : Vector UInt8 32} {result : Option UInt64}
    {input : List UInt8} {r : List UInt8 × Option UInt64}
    (h : XXhash64Engine.hash rounds buffer result input digestLen = some r) :
    InBounds digestLen.toNat [⟨0, r.1⟩] := by
  rw [inBounds_front]
  simp only [XXhash64Engine.hash, Option.map_eq_some_iff] at h
  obtain ⟨myhash, -, rfl⟩ := h
  by_cases hlong : digestLen ≥ 8
  · rw [if_pos hlong, length_bytes]
    exact UInt32.le_iff_toNat_le.mp hlong
  · rw [if_neg hlong]
    exact List.length_take_le _ _

theorem city_in_bounds {T : Type*} {crc : List UInt8 → Words} {s : City256Engine T}
    {e : City256Engine.Ev T} {t : T} {input digest : List UInt8}
    (h : .delivered t input digestLen digest ∈ City256Engine.obs crc s e) :
    InBounds digestLen.toNat [⟨0, digest⟩] := by
  rw [inBounds_front]
  cases e with
  | call t input len => cases h
  | compute t =>
      simp only [City256Engine.obs] at h
      split at h
      · split at h
        · rename_i hlong
          cases List.mem_singleton.mp h
          rw [City256Engine.length_memory]
          exact UInt32.le_iff_toNat_le.mp hlong
        · cases List.mem_singleton.mp h
      · cases h
  | copy t =>
      simp only [City256Engine.obs] at h
      split at h
      · cases List.mem_singleton.mp h
        exact List.length_take_le _ _
      · cases h

theorem sha_in_bounds (evp : EvpMd) (input : List UInt8) :
    InBounds digestLen.toNat (SHAEngine.hash evp input digestLen) := by
  unfold SHAEngine.hash
  split
  · rename_i hfits
    rw [inBounds_front, evp.length_digest]
    exact hfits
  · rw [inBounds_front]
    exact List.length_take_le _ _

/-- **Where the engines write**: `XXhash64Engine`, `City256Engine` and `SHAEngine`
    write only inside the digest; `DummyHashEngine` does exactly when the number of
    words it stores, or the length of the digest if that is less, rounded up to a
    multiple of 16, is no more than the length of the digest.  And the constructor
    of a `HashKey` stays inside its array if its engine stays inside the digest. -/
theorem engines_in_bounds_iff (digestLen : UInt32) (hdigest : 1 ≤ digestLen) :
    (∀ len : UInt64, InBounds digestLen.toNat (DummyHashEngine.hash len digestLen) ↔
      16 * ((min (len.toNat / 16) digestLen.toNat + 15) / 16) ≤ digestLen.toNat) ∧
    (∀ rounds buffer result input r,
      XXhash64Engine.hash rounds buffer result input digestLen = some r →
        InBounds digestLen.toNat [⟨0, r.1⟩]) ∧
    (∀ (T : Type) (crc : List UInt8 → Words) (s : City256Engine T) e t input digest,
      .delivered t input digestLen digest ∈ City256Engine.obs crc s e →
        InBounds digestLen.toNat [⟨0, digest⟩]) ∧
    (∀ evp input, InBounds digestLen.toNat (SHAEngine.hash evp input digestLen)) ∧
    ∀ stores, (HashKey.create digestLen.toNat stores).isSome = true ↔
      InBounds digestLen.toNat stores :=
  ⟨fun len => dummy_in_bounds_iff len hdigest, fun _ _ _ _ _ h => xxhash_in_bounds h,
    fun _ _ _ _ _ _ _ h => city_in_bounds h, sha_in_bounds, HashKey.writeAll_isSome _⟩

/-- A key of 32 bytes, of the same input as below. -/
theorem engines_in_bounds_of_tests : InBounds 32 (DummyHashEngine.hash 272 32) :=
  ((engines_in_bounds_iff 32 (by decide)).1 272).mpr (by decide)

/-- A key of the default length, 20 bytes, of an input of 272 bytes: the 17th word
    goes to the bytes 16 to 31. -/
theorem dummy_writes_beyond_default_key :
    ⟨16, DummyHashEngine.bytes128 16⟩ ∈ DummyHashEngine.hash 272 20 ∧
    ¬ InBounds 20 (DummyHashEngine.hash 272 20) ∧
    HashKey.create 20 (DummyHashEngine.hash 272 20) = none := by
  have hin : ⟨16, DummyHashEngine.bytes128 16⟩ ∈ DummyHashEngine.hash 272 20 :=
    List.mem_map.mpr ⟨16, by decide, by rfl⟩
  have hnot : ¬ InBounds 20 (DummyHashEngine.hash 272 20) := by
    intro h
    have hle := h _ hin
    simp [DummyHashEngine.bytes128] at hle
  refine ⟨hin, hnot, ?_⟩
  rw [← Option.not_isSome_iff_eq_none, HashKey.create, HashKey.writeAll_isSome]
  exact hnot

end Fredlib
