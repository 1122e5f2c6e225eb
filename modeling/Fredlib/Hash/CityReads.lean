/-
  Fredlib.Hash.CityReads

  The memory that `CityHashCrc256` reads.

  The functions of this module are those of Fredlib.Hash.City again, with every
  `Fetch64` recorded.  They compute the same, and for an input of any length they read
  all of it and nothing else (`reads_of_crc256`): the chunk for the last bytes, which
  begins before them, does not begin before the input.
-/

import Fredlib.Lib.Reading
import Fredlib.Hash.City

namespace Fredlib
namespace City

open Lib

variable (input : List UInt8)

/-- `Fetch64` -/
def read64 (p : Nat) : Reading UInt64 := Reading.read (fetch64 input) p

/-- `CHUNK` -/
def readChunk (r : UInt64) (v : Locals) : Reading Locals := do
  -- PERMUTE3(x, z, y)
  let x := v.y
  let y := v.z
  let z := v.x
  let b := v.b + (← read64 input v.s)
  let c := v.c + (← read64 input (v.s + 8))
  let d := v.d + (← read64 input (v.s + 16))
  let e := v.e + (← read64 input (v.s + 24))
  let f := v.f + (← read64 input (v.s + 32))
  let a := v.a + b
  let h := v.h + f
  let b := b + c
  let f := f + d
  let g := v.g + e
  let e := e + z
  let g := g + x
  let z := crc32 z (b + g)
  let y := crc32 y (e + h)
  let x := crc32 x (f + a)
  let e := rotate e r
  let c := c + e
  pure { a, b, c, d, e, f, g, h, x, y, z, s := v.s + 40 }

/-- The loop over 240 bytes. -/
def readBigLoop : Nat → Locals → Reading Locals
  | 0, v => pure v
  | iters + 1, v => do
      let v ← readChunk input 0 v
      let v ← readChunk input 33 { v with a := v.c, h := v.a, c := v.h }
      let v ← readChunk input 0 { v with a := v.f, h := v.a, f := v.h }
      let v ← readChunk input 42 { v with b := v.f, h := v.b, f := v.h }
      let v ← readChunk input 0 { v with b := v.d, h := v.b, d := v.h }
      let v ← readChunk input 33 { v with b := v.e, h := v.b, e := v.h }
      readBigLoop iters { v with a := v.e, h := v.a, e := v.h }

/-- The loop over 40 bytes. -/
def readSmallLoop : Nat → Locals → Reading Locals
  | 0, v => pure v
  | n + 1, v => do
      let v ← readChunk input 29 v
      let v := { v with
        e := v.e ^^^ rotate v.a 20
        h := v.h + rotate v.b 30
        g := v.g ^^^ rotate v.c 40
        f := v.f + rotate v.d 34 }
      readSmallLoop n { v with c := v.g, h := v.c, g := v.h }

/-- The last bytes, with some of those before them. -/
def readLastBytes (len : Nat) (v : Locals) : Reading Locals :=
  if len > 0 then do
    let v ← readChunk input 33 { v with s := v.s + len - 40 }
    pure { v with
      e := v.e ^^^ rotate v.a 43
      h := v.h + rotate v.b 42
      g := v.g ^^^ rotate v.c 41
      f := v.f + rotate v.d 40 }
  else pure v

/-- The two loops. -/
def readLoops (v : Locals) : Reading Locals := do
  let v ← readBigLoop input (input.length / 240) v
  readSmallLoop input (input.length % 240 / 40) v

/-- `CityHashCrc256Long` -/
def readCrc256Long (seed : UInt32) : Reading Words := do
  let len := UInt64.ofNat input.length
  let a := (← read64 input 56) + k0
  let b := (← read64 input 96) + k0
  let c := hashLen16 b len
  let d := (← read64 input 120) * k0 + len
  let e := (← read64 input 184) + seed.toUInt64
  let v ← readLoops input
    { a, b, c, d, e, f := 0, g := 0, h := c + d, x := seed.toUInt64, y := 0, z := 0, s := 0 }
  let v ← readLastBytes input (input.length % 240 % 40) v
  pure (finish c d v)

/-- `CityHashCrc256` -/
def readCrc256 : Reading Words :=
  if input.length ≥ 240 then readCrc256Long input 0
  else
    -- CityHashCrc256Short
    let buf := input ++ List.replicate (240 - input.length) 0
    readCrc256Long buf (~~~ UInt32.ofNat input.length)

-- ============================================================================
-- What they compute
-- ============================================================================

variable {input}

@[simp] theorem readChunk_value (r : UInt64) (v : Locals) :
    (readChunk input r v).value = chunk input r v := rfl

@[simp] theorem chunk_s (r : UInt64) (v : Locals) : (chunk input r v).s = v.s + 40 := rfl

@[simp] theorem readBigLoop_value (iters : Nat) (v : Locals) :
    (readBigLoop input iters v).value = bigLoop input iters v := by
  induction iters generalizing v with
  | zero => rfl
  | succ iters ih => simp only [readBigLoop, Reading.bind_value, readChunk_value, ih, bigLoop]

@[simp] theorem readSmallLoop_value (n : Nat) (v : Locals) :
    (readSmallLoop input n v).value = smallLoop input n v := by
  induction n generalizing v with
  | zero => rfl
  | succ n ih => simp only [readSmallLoop, Reading.bind_value, readChunk_value, ih, smallLoop]

@[simp] theorem readLastBytes_value (len : Nat) (v : Locals) :
    (readLastBytes input len v).value = lastBytes input len v := by
  unfold readLastBytes lastBytes
  split <;> rfl

theorem readCrc256Long_value (seed : UInt32) :
    (readCrc256Long input seed).value = cityHashCrc256Long input seed := by
  simp only [readCrc256Long, readLoops, Reading.bind_value, readBigLoop_value, readSmallLoop_value,
    readLastBytes_value]
  rfl

-- ============================================================================
-- What they read
-- ============================================================================

theorem covers_readChunk (r : UInt64) (v : Locals) :
    (readChunk input r v).Covers 8 v.s (v.s + 40) := by
  have hplaces : (readChunk input r v).places = [v.s, v.s + 8, v.s + 16, v.s + 24, v.s + 32] := rfl
  refine ⟨fun p hp => ?_, fun i hle hlt => ?_⟩
  · rw [hplaces] at hp
    simp only [List.mem_cons, List.not_mem_nil, or_false] at hp
    omega
  · rw [hplaces]
    refine ⟨v.s + 8 * ((i - v.s) / 8), ?_, by omega, by omega⟩
    simp only [List.mem_cons, List.not_mem_nil, or_false]
    omega

/-- A chunk, and what goes on behind it. -/
theorem covers_chunk_bind {r : UInt64} {v : Locals} {f : Locals → Reading Locals} {b : Nat}
    (hf : (f (chunk input r v)).Covers 8 (v.s + 40) b) (hb : v.s + 40 ≤ b) :
    (readChunk input r v >>= f).Covers 8 v.s b :=
  (covers_readChunk r v).bind hf (by omega) (Nat.le_refl _) hb

variable (input) in
theorem covers_readBigLoop (iters : Nat) (v : Locals) :
    (readBigLoop input iters v).Covers 8 v.s (v.s + 240 * iters) ∧
      (bigLoop input iters v).s = v.s + 240 * iters := by
  induction iters generalizing v with
  | zero => exact ⟨Reading.covers_pure v, rfl⟩
  | succ iters ih =>
      have hend : ∀ s, s + 240 * (iters + 1) = s + 40 + 40 + 40 + 40 + 40 + 40 + 240 * iters := by
        omega
      constructor
      · rw [readBigLoop, hend]
        refine covers_chunk_bind ?_ (by omega)
        refine covers_chunk_bind ?_ (by simp only [chunk_s]; omega)
        refine covers_chunk_bind ?_ (by simp only [chunk_s]; omega)
        refine covers_chunk_bind ?_ (by simp only [chunk_s]; omega)
        refine covers_chunk_bind ?_ (by simp only [chunk_s]; omega)
        refine covers_chunk_bind ?_ (by simp only [chunk_s]; omega)
        exact (ih _).1
      · rw [bigLoop, (ih _).2, hend]
        rfl

variable (input) in
theorem covers_readSmallLoop (n : Nat) (v : Locals) :
    (readSmallLoop input n v).Covers 8 v.s (v.s + 40 * n) ∧
      (smallLoop input n v).s = v.s + 40 * n := by
  induction n generalizing v with
  | zero => exact ⟨Reading.covers_pure v, rfl⟩
  | succ n ih =>
      have hend : ∀ s, s + 40 * (n + 1) = s + 40 + 40 * n := by omega
      constructor
      · rw [readSmallLoop, hend]
        exact covers_chunk_bind (ih _).1 (by omega)
      · rw [smallLoop, (ih _).2, hend]
        rfl

variable (input) in
theorem covers_readLoops {v : Locals} (hs : v.s = 0) :
    (readLoops input v).Covers 8 0 (40 * (input.length / 40)) ∧
      (readLoops input v).value.s = 40 * (input.length / 40) := by
  obtain ⟨hbig, hbigEnd⟩ := covers_readBigLoop input (input.length / 240) v
  obtain ⟨hsmall, hsmallEnd⟩ := covers_readSmallLoop input (input.length % 240 / 40)
    (bigLoop input (input.length / 240) v)
  have hend : 240 * (input.length / 240) + 40 * (input.length % 240 / 40) =
      40 * (input.length / 40) := by omega
  rw [hs, Nat.zero_add] at hbig hbigEnd
  rw [hbigEnd, hend] at hsmall hsmallEnd
  constructor
  · rw [readLoops]
    refine hbig.bind ?_ (Nat.zero_le _) (Nat.le_refl _) (by omega)
    rw [readBigLoop_value]
    exact hsmall
  · simp only [readLoops, Reading.bind_value, readBigLoop_value, readSmallLoop_value]
    exact hsmallEnd

variable (input) in
/-- The chunk for the last bytes ends where the input does. -/
theorem covers_readLastBytes {len : Nat} (v : Locals) (hlen : 0 < len) (hs : 40 ≤ v.s + len) :
    (readLastBytes input len v).Covers 8 (v.s + len - 40) (v.s + len) := by
  have hend : v.s + len - 40 + 40 = v.s + len := by omega
  rw [readLastBytes, if_pos hlen, ← hend]
  exact covers_chunk_bind (Reading.covers_pure _) (Nat.le_refl _)

/-- All of the input, with the last bytes. -/
theorem covers_all {v : Locals} {last : Locals → Words} (hs : v.s = 0) (hlen : 240 ≤ input.length) :
    (do
      let v ← readLoops input v
      let v ← readLastBytes input (input.length % 240 % 40) v
      pure (last v) : Reading Words).Covers 8 0 input.length := by
  suffices h : (readLoops input v >>= readLastBytes input (input.length % 240 % 40)).Covers 8 0
      input.length by
    refine h.of_places ?_
    simp only [Reading.bind_places, Reading.pure_places, List.append_nil]
  obtain ⟨hloops, hend⟩ := covers_readLoops input hs
  by_cases hmore : 0 < input.length % 240 % 40
  · have hlast := covers_readLastBytes input (readLoops input v).value hmore (by omega)
    rw [hend, show 40 * (input.length / 40) + input.length % 240 % 40 = input.length by omega] at hlast
    exact hloops.bind hlast (Nat.zero_le _) (by omega) (by omega)
  · have hnone : readLastBytes input (input.length % 240 % 40) (readLoops input v).value =
        pure (readLoops input v).value := if_neg hmore
    have hexact : 40 * (input.length / 40) = input.length := by omega
    rw [hexact] at hloops
    have hlast : (readLastBytes input (input.length % 240 % 40) (readLoops input v).value).Covers 8
        input.length input.length := by
      rw [hnone]
      exact Reading.covers_pure _
    exact hloops.bind hlast (Nat.zero_le _) (Nat.le_refl _) (Nat.le_refl _)

theorem covers_readCrc256Long (seed : UInt32) (hlen : 240 ≤ input.length) :
    (readCrc256Long input seed).Covers 8 0 input.length := by
  have hfetch : ∀ p, p ≤ 184 → (read64 input p).Inside 8 0 input.length := by
    intro p hp q hq
    cases List.mem_singleton.mp hq
    omega
  rw [readCrc256Long]
  refine Reading.Covers.after (hfetch 56 (by decide)) ?_
  refine Reading.Covers.after (hfetch 96 (by decide)) ?_
  refine Reading.Covers.after (hfetch 120 (by decide)) ?_
  refine Reading.Covers.after (hfetch 184 (by decide)) ?_
  refine covers_all ?_ hlen
  rfl

/-- **`CityHashCrc256`** of an input of any length reads no word that is not inside it, and there
    is no byte that it does not read; a short input is read in a buffer of 240 bytes. -/
theorem reads_of_crc256 (input : List UInt8) :
    (readCrc256 input).value = cityHashCrc256 input ∧
      (readCrc256 input).Covers 8 0 (max 240 input.length) := by
  rw [readCrc256, cityHashCrc256]
  by_cases hlong : input.length ≥ 240
  · rw [if_pos hlong, if_pos hlong, Nat.max_eq_right hlong]
    exact ⟨readCrc256Long_value 0, covers_readCrc256Long 0 hlong⟩
  · have hbuf : (input ++ List.replicate (240 - input.length) (0 : UInt8)).length = 240 := by
      rw [List.length_append, List.length_replicate]
      omega
    rw [if_neg hlong, if_neg hlong, Nat.max_eq_left (by omega)]
    refine ⟨readCrc256Long_value _, ?_⟩
    have hcovers := covers_readCrc256Long (~~~ UInt32.ofNat input.length) (Nat.le_of_eq hbuf.symm)
    rwa [hbuf] at hcovers

end City
end Fredlib
