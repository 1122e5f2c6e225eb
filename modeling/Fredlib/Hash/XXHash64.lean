/-
  Fredlib.Hash.XXHash64

  `XXHash64` of hashes/xxhash64.h: a hash that takes its input in chunks.

  A pointer with a length is the list of the bytes it spans.  The constructor
  leaves `buffer` as it finds it, so that it is an argument here, and `add`
  leaves stale bytes in it behind `bufferSize`.

  `Streams` says what a hasher holds after any number of calls of `add`: the
  lanes after the whole blocks of all the bytes so far, and the bytes left over.
  That does not depend on how the bytes came (`Streams.add`), and `hash` reads
  nothing else (`Streams.hash_eq`).
-/

import Fredlib.Lib.Blocks
import Fredlib.Hash.Memory
import Mathlib.Data.Vector.Basic

namespace Fredlib

open Lib

/-- The array `state`. -/
structure Lanes where
  state0 : UInt64
  state1 : UInt64
  state2 : UInt64
  state3 : UInt64
  deriving DecidableEq

/-- `XXHash64`. -/
structure XXHash64 where
  state : Lanes
  buffer : Vector UInt8 32
  bufferSize : UInt64
  totalLength : UInt64

namespace XXHash64

def Prime1 : UInt64 := 11400714785074694791
def Prime2 : UInt64 := 14029467366897019727
def Prime3 : UInt64 := 1609587929392839161
def Prime4 : UInt64 := 9650029242287828579
def Prime5 : UInt64 := 2870177450012600261

/-- `MaxBufferSize` -/
def MaxBufferSize : UInt64 := 31 + 1

/-- `rotateLeft` -/
def rotateLeft (x bits : UInt64) : UInt64 := (x <<< bits) ||| (x >>> (64 - bits))

/-- `processSingle` -/
def processSingle (previous input : UInt64) : UInt64 :=
  rotateLeft (previous + input * Prime2) 31 * Prime1

/-- `process` -/
def process (state : Lanes) (data : List UInt8) : Lanes where
  state0 := processSingle state.state0 (load 8 data)
  state1 := processSingle state.state1 (load 8 (data.drop 8))
  state2 := processSingle state.state2 (load 8 (data.drop 16))
  state3 := processSingle state.state3 (load 8 (data.drop 24))

/-- The lanes of a new hasher. -/
def seeded (seed : UInt64) : Lanes where
  state0 := seed + Prime1 + Prime2
  state1 := seed + Prime2
  state2 := seed
  state3 := seed - Prime1

/-- The constructor. -/
def create (seed : UInt64) (buffer : Vector UInt8 32) : XXHash64 where
  state := seeded seed
  buffer := buffer
  bufferSize := 0
  totalLength := 0

-- ============================================================================
-- `add`
-- ============================================================================

/-- `buffer[bufferSize++] = x` -/
def store (h : XXHash64) (x : UInt8) : XXHash64 :=
  { h with
    buffer := h.buffer.setIfInBounds h.bufferSize.toNat x
    bufferSize := h.bufferSize + 1 }

/-- The loop that just adds new data. -/
def copyAll (h : XXHash64) : List UInt8 → XXHash64
  | [] => h
  | x :: data => copyAll (h.store x) data

/-- The loop that makes sure the buffer is full. -/
def refill (h : XXHash64) : List UInt8 → XXHash64 × List UInt8
  | [] => (h, [])
  | x :: data => if h.bufferSize < MaxBufferSize then refill (h.store x) data else (h, x :: data)

/-- The loop over the blocks: `data <= stopBlock` if 32 bytes are left. -/
def processBlocks (state : Lanes) (data : List UInt8) : Lanes × List UInt8 :=
  if 32 ≤ data.length then processBlocks (process state data) (data.drop 32) else (state, data)
termination_by data.length
decreasing_by
  rw [List.length_drop]
  omega

/-- The loop that copies the remainder, its first `i` rounds. -/
def copyRemainder (buffer : Vector UInt8 32) (data : List UInt8) : Nat → Vector UInt8 32
  | 0 => buffer
  | i + 1 => (copyRemainder buffer data i).setIfInBounds i (data.getD i 0)

/-- Other lanes. -/
def setState (h : XXHash64) (state : Lanes) : XXHash64 := { h with state := state }

/-- The part of `add` about data left from the previous update. -/
def flush (h : XXHash64) (data : List UInt8) : XXHash64 × List UInt8 :=
  if h.bufferSize > 0 then
    let r := h.refill data
    (r.1.setState (process r.1.state r.1.buffer.toList), r.2)
  else (h, data)

/-- The part of `add` from the loop over the blocks on. -/
def processRest (h : XXHash64) (data : List UInt8) : XXHash64 :=
  let (state, data) := processBlocks h.state data
  let bufferSize := UInt64.ofNat data.length
  { h with
    state := state
    buffer := copyRemainder h.buffer data bufferSize.toNat
    bufferSize := bufferSize }

/-- `add` -/
def add (h : XXHash64) (data : List UInt8) : Bool × XXHash64 :=
  let length := UInt64.ofNat data.length
  if length = 0 then (false, h)
  else
    let h := { h with totalLength := h.totalLength + length }
    if h.bufferSize + length < MaxBufferSize then (true, h.copyAll data)
    else
      let (h, data) := h.flush data
      (true, h.processRest data)

-- ============================================================================
-- `hash`
-- ============================================================================

/-- The loop that eats 8 bytes per step. -/
def eat8 (result : UInt64) : List UInt8 → UInt64 × List UInt8
  | x₀ :: x₁ :: x₂ :: x₃ :: x₄ :: x₅ :: x₆ :: x₇ :: data =>
      eat8 (rotateLeft (result ^^^ processSingle 0 (load 8 [x₀, x₁, x₂, x₃, x₄, x₅, x₆, x₇])) 27 *
        Prime1 + Prime4) data
  | data => (result, data)

/-- The four bytes eaten if they are left. -/
def eat4 (result : UInt64) (data : List UInt8) : UInt64 × List UInt8 :=
  if 4 ≤ data.length then
    (rotateLeft (result ^^^ load 4 data * Prime1) 23 * Prime2 + Prime3, data.drop 4)
  else (result, data)

/-- The loop that eats 1 byte per step. -/
def eat1 (result : UInt64) : List UInt8 → UInt64
  | [] => result
  | x :: data => eat1 (rotateLeft (result ^^^ x.toUInt64 * Prime5) 11 * Prime1) data

/-- The last lines of `hash`. -/
def mix (result : UInt64) : UInt64 :=
  let result := result ^^^ (result >>> 33)
  let result := result * Prime2
  let result := result ^^^ (result >>> 29)
  let result := result * Prime3
  result ^^^ (result >>> 32)

/-- The fold of the lanes into one value. -/
def fold (state : Lanes) : UInt64 :=
  let result := rotateLeft state.state0 1 + rotateLeft state.state1 7 +
    rotateLeft state.state2 12 + rotateLeft state.state3 18
  let result := (result ^^^ processSingle 0 state.state0) * Prime1 + Prime4
  let result := (result ^^^ processSingle 0 state.state1) * Prime1 + Prime4
  let result := (result ^^^ processSingle 0 state.state2) * Prime1 + Prime4
  (result ^^^ processSingle 0 state.state3) * Prime1 + Prime4

/-- The bytes of `buffer` up to `bufferSize`. -/
def buffered (h : XXHash64) : List UInt8 := h.buffer.toList.take h.bufferSize.toNat

/-- `hash` -/
def hash (h : XXHash64) : UInt64 :=
  let result := if h.totalLength ≥ MaxBufferSize then fold h.state else h.state.state2 + Prime5
  let result := result + h.totalLength
  let (result, data) := eat8 result h.buffered
  let (result, data) := eat4 result data
  mix (eat1 result data)

/-- `hash` of an input, the static function. -/
def hashOnce (buffer : Vector UInt8 32) (input : List UInt8) (seed : UInt64) : UInt64 :=
  ((create seed buffer).add input).2.hash

-- ============================================================================
-- The buffer
-- ============================================================================

variable {h : XXHash64} {x : UInt8} {data input : List UInt8} {lanes : Lanes}

theorem length_buffered (hsize : h.bufferSize.toNat ≤ 32) :
    h.buffered.length = h.bufferSize.toNat := by
  rw [buffered, List.length_take, Vector.length_toList]
  omega

/-- A full buffer is all buffered. -/
theorem buffered_of_full (hsize : h.bufferSize.toNat = 32) : h.buffered = h.buffer.toList := by
  rw [buffered, List.take_of_length_le]
  rw [Vector.length_toList]
  omega

@[simp] theorem setState_state (state : Lanes) : (h.setState state).state = state := rfl

@[simp] theorem setState_totalLength (state : Lanes) :
    (h.setState state).totalLength = h.totalLength := rfl

theorem store_bufferSize (hsize : h.bufferSize.toNat < 32) :
    (h.store x).bufferSize.toNat = h.bufferSize.toNat + 1 := by
  show (h.bufferSize + 1).toNat = _
  rw [UInt64.toNat_add]
  simp only [UInt64.reduceToNat]
  omega

/-- A byte stored goes behind those buffered. -/
theorem store_buffered (hsize : h.bufferSize.toNat < 32) :
    (h.store x).buffered = h.buffered ++ [x] := by
  have hlen : h.bufferSize.toNat < h.buffer.toList.length := by rwa [Vector.length_toList]
  rw [buffered, store_bufferSize hsize]
  show (h.buffer.setIfInBounds h.bufferSize.toNat x).toList.take _ = _
  rw [Vector.toList_setIfInBounds, List.take_succ_eq_append_getElem (by simpa using hlen)]
  rw [List.take_set_of_le (Nat.le_refl _), List.getElem_set_self]
  rfl

/-- What `copyAll` leaves of a hasher with room for the data. -/
theorem copyAll_spec (data : List UInt8) : ∀ {h : XXHash64}, h.bufferSize.toNat + data.length ≤ 32 →
    (h.copyAll data).state = h.state ∧ (h.copyAll data).totalLength = h.totalLength ∧
      (h.copyAll data).bufferSize.toNat = h.bufferSize.toNat + data.length ∧
      (h.copyAll data).buffered = h.buffered ++ data := by
  induction data with
  | nil => exact fun _ => ⟨rfl, rfl, rfl, (List.append_nil _).symm⟩
  | cons x data ih =>
      intro h hroom
      rw [List.length_cons] at hroom
      have hlt : h.bufferSize.toNat < 32 := by omega
      have hsize := store_bufferSize (x := x) hlt
      obtain ⟨hstate, htotal, hsize', hbuffered⟩ := ih (h := h.store x) (by omega)
      refine ⟨hstate, htotal, ?_, ?_⟩
      · rw [copyAll, hsize', hsize, List.length_cons]
        omega
      · rw [copyAll, hbuffered, store_buffered hlt, List.append_assoc]
        rfl

/-- What `refill` leaves of a hasher, if there is enough data to fill the buffer. -/
theorem refill_spec (data : List UInt8) : ∀ {h : XXHash64}, h.bufferSize.toNat ≤ 32 →
    32 - h.bufferSize.toNat ≤ data.length →
    (h.refill data).1.state = h.state ∧ (h.refill data).1.totalLength = h.totalLength ∧
      (h.refill data).1.buffer.toList = h.buffered ++ data.take (32 - h.bufferSize.toNat) ∧
      (h.refill data).2 = data.drop (32 - h.bufferSize.toNat) := by
  -- induction on the data: each byte goes in until the buffer is full
  induction data with
  | nil =>
      intro h hle henough
      rw [List.length_nil] at henough
      have hfull : h.bufferSize.toNat = 32 := by omega
      refine ⟨rfl, rfl, ?_, ?_⟩
      · rw [refill, buffered_of_full hfull, List.take_nil, List.append_nil]
      · rw [refill, List.drop_nil]
  | cons x data ih =>
      intro h hle henough
      by_cases hlt : h.bufferSize < MaxBufferSize
      · have hlt' : h.bufferSize.toNat < 32 := UInt64.lt_iff_toNat_lt.mp hlt
        have hsize := store_bufferSize (x := x) hlt'
        rw [List.length_cons] at henough
        obtain ⟨hstate, htotal, hbuffer, hdata⟩ := ih (h := h.store x) (by omega) (by omega)
        have hleft : 32 - h.bufferSize.toNat = 32 - (h.store x).bufferSize.toNat + 1 := by omega
        rw [refill, if_pos hlt]
        refine ⟨hstate, htotal, ?_, ?_⟩
        · rw [hbuffer, store_buffered hlt', hleft, List.take_succ_cons, List.append_assoc]
          rfl
        · rw [hdata, hleft, List.drop_succ_cons]
      · have hfull : h.bufferSize.toNat = 32 := by
          have hge : ¬ h.bufferSize.toNat < 32 := fun hlt' => hlt (UInt64.lt_iff_toNat_lt.mpr hlt')
          omega
        rw [refill, if_neg hlt, hfull]
        exact ⟨rfl, rfl, by rw [buffered_of_full hfull]; simp, rfl⟩

/-- The remainder is copied to the front of the buffer. -/
theorem copyRemainder_take (buffer : Vector UInt8 32) {i : Nat} (hi : i ≤ 32)
    (hdata : i ≤ data.length) : (copyRemainder buffer data i).toList.take i = data.take i := by
  induction i with
  | zero => simp
  | succ i ih =>
      have hlen : i < (copyRemainder buffer data i).toList.length := by
        rw [Vector.length_toList]
        omega
      have hget : data.getD i 0 = data[i] := by
        rw [List.getD_eq_getElem?_getD, List.getElem?_eq_getElem (by omega), Option.getD_some]
      rw [copyRemainder, Vector.toList_setIfInBounds,
        List.take_succ_eq_append_getElem (by simpa using hlen),
        List.take_set_of_le (Nat.le_refl _), List.getElem_set_self, ih (by omega) (by omega), hget,
        ← List.take_succ_eq_append_getElem]

-- ============================================================================
-- The blocks
-- ============================================================================

/-- `process` reads 32 bytes. -/
theorem process_take (state : Lanes) (data : List UInt8) :
    process state (data.take 32) = process state data := by
  simp only [process, List.drop_take]
  rw [load_take (by omega), load_take (by omega), load_take (by omega), load_take (by omega)]

/-- The loop over the blocks takes them off the front of the data. -/
theorem processBlocks_eq (state : Lanes) (data : List UInt8) :
    processBlocks state data = consume 32 process state data := by
  induction state, data using processBlocks.induct with
  | case1 state data hlen ih =>
      rw [processBlocks, if_pos hlen, ih, consume_of_block (by omega) hlen, process_take]
  | case2 state data hlen =>
      rw [processBlocks, if_neg hlen, consume_of_short (by omega)]

-- ============================================================================
-- The stream
-- ============================================================================

/-- The hasher `h`, created with `lanes`, has been given the bytes `input`. -/
structure Streams (lanes : Lanes) (input : List UInt8) (h : XXHash64) : Prop where
  state : h.state = (consume 32 process lanes input).1
  buffered : h.buffered = (consume 32 process lanes input).2
  size : h.bufferSize.toNat < 32
  total : h.totalLength = UInt64.ofNat input.length

theorem streams_create (seed : UInt64) (buffer : Vector UInt8 32) :
    Streams (seeded seed) [] (create seed buffer) := by
  have hnil : consume 32 process (seeded seed) [] = (seeded seed, []) :=
    consume_of_short (by decide)
  refine ⟨by rw [hnil]; rfl, ?_, ?_, rfl⟩
  · rw [hnil]
    exact List.take_zero
  · show (0 : UInt64).toNat < 32
    decide

/-- The blocks are processed, the remainder is buffered. -/
theorem processRest_spec (h : XXHash64) (data : List UInt8) :
    (h.processRest data).state = (consume 32 process h.state data).1 ∧
      (h.processRest data).buffered = (consume 32 process h.state data).2 ∧
      (h.processRest data).bufferSize.toNat < 32 ∧
      (h.processRest data).totalLength = h.totalLength := by
  have hlt : (consume 32 process h.state data).2.length < 32 := length_consume_lt (by decide) _ _
  have hsize : (UInt64.ofNat (consume 32 process h.state data).2.length).toNat =
      (consume 32 process h.state data).2.length := by
    rw [UInt64.toNat_ofNat', Nat.mod_eq_of_lt (by omega)]
  unfold processRest
  rw [processBlocks_eq]
  refine ⟨rfl, ?_, by simpa only [hsize] using hlt, rfl⟩
  simp only [buffered, hsize]
  rw [copyRemainder_take h.buffer (Nat.le_of_lt hlt) (Nat.le_refl _), List.take_length]

/-- A block that begins with the bytes buffered. -/
theorem consume_buffered (hsize : h.bufferSize.toNat < 32)
    (henough : 32 ≤ h.bufferSize.toNat + data.length) :
    consume 32 process h.state (h.buffered ++ data) =
      consume 32 process
        (process h.state (h.buffered ++ data.take (32 - h.bufferSize.toNat)))
        (data.drop (32 - h.bufferSize.toNat)) := by
  have hlen := length_buffered (h := h) (by omega)
  have hblock : 32 ≤ (h.buffered ++ data).length := by
    rw [List.length_append, hlen]
    exact henough
  have hfront : (h.buffered ++ data).take 32 =
      h.buffered ++ data.take (32 - h.bufferSize.toNat) := by
    rw [List.take_append, hlen, List.take_of_length_le (by omega)]
  have hback : (h.buffered ++ data).drop 32 = data.drop (32 - h.bufferSize.toNat) := by
    rw [List.drop_append, hlen, List.drop_of_length_le (by omega), List.nil_append]
  rw [consume_of_block (by omega) hblock, hfront, hback]

/-- A hasher with enough data for a block goes on with the data that follow it. -/
theorem flush_spec (data : List UInt8) (hsize : h.bufferSize.toNat < 32)
    (henough : 32 ≤ h.bufferSize.toNat + data.length) :
    consume 32 process (h.flush data).1.state (h.flush data).2 =
        consume 32 process h.state (h.buffered ++ data) ∧
      (h.flush data).1.totalLength = h.totalLength := by
  by_cases hpos : h.bufferSize > 0
  · obtain ⟨hstate, htotal, hbuffer, hdata⟩ :=
      refill_spec data (h := h) (by omega) (by omega)
    have hflush : h.flush data = ((h.refill data).1.setState
        (process (h.refill data).1.state (h.refill data).1.buffer.toList),
        (h.refill data).2) := if_pos hpos
    rw [consume_buffered hsize henough, hflush, setState_state, setState_totalLength, hstate,
      hbuffer, hdata]
    exact ⟨rfl, htotal⟩
  · have hzero : h.bufferSize.toNat = 0 := by
      have hle : ¬ 0 < h.bufferSize.toNat := fun hlt => hpos (UInt64.lt_iff_toNat_lt.mpr hlt)
      omega
    have hflush : h.flush data = (h, data) := if_neg hpos
    rw [hflush, buffered, hzero, List.take_zero, List.nil_append]
    exact ⟨rfl, rfl⟩

/-- **Adding a piece is adding its bytes**: what a hasher holds after `add` is
    what it would hold if it had been given all the bytes at once. -/
theorem Streams.add (hs : Streams lanes input h) (hfits : data.length + 32 ≤ 2 ^ 64) :
    Streams lanes (input ++ data) (h.add data).2 := by
  have hlength : (UInt64.ofNat data.length).toNat = data.length := by
    rw [UInt64.toNat_ofNat', Nat.mod_eq_of_lt (by omega)]
  have hsize := hs.size
  have htotal : h.totalLength + UInt64.ofNat data.length =
      UInt64.ofNat (input ++ data).length := by
    rw [hs.total, List.length_append, UInt64.ofNat_add]
  have hcut : consume 32 process lanes (input ++ data) =
      consume 32 process h.state (h.buffered ++ data) := by
    rw [consume_append, ← hs.state, ← hs.buffered]
  unfold XXHash64.add
  by_cases hzero : UInt64.ofNat data.length = 0
  · have hnil : data = [] := by
      rw [hzero] at hlength
      exact List.eq_nil_of_length_eq_zero hlength.symm
    rw [hnil, List.append_nil]
    exact hs
  · have hsum : (h.bufferSize + UInt64.ofNat data.length).toNat =
        h.bufferSize.toNat + data.length := by
      rw [UInt64.toNat_add, hlength, Nat.mod_eq_of_lt (by omega)]
    simp only [hzero, ↓reduceIte]
    by_cases hfit : h.bufferSize + UInt64.ofNat data.length < MaxBufferSize
    · -- the data still fit into the buffer
      have hroom : h.bufferSize.toNat + data.length < 32 := by
        rw [← hsum]
        exact UInt64.lt_iff_toNat_lt.mp hfit
      have hshort : (h.buffered ++ data).length < 32 := by
        rw [List.length_append, length_buffered (by omega)]
        exact hroom
      obtain ⟨hstate, htotal', hsize', hbuffered⟩ := copyAll_spec data
        (h := { h with totalLength := h.totalLength + UInt64.ofNat data.length })
        (by show h.bufferSize.toNat + data.length ≤ 32; omega)
      rw [if_pos hfit]
      rw [consume_of_short hshort] at hcut
      refine ⟨by rw [hcut]; exact hstate, by rw [hcut]; exact hbuffered, ?_, ?_⟩
      · rw [hsize']
        exact hroom
      · rw [htotal', ← htotal]
    · -- there is a block, at least
      have henough : 32 ≤ h.bufferSize.toNat + data.length := by
        have hge : ¬ (h.bufferSize + UInt64.ofNat data.length).toNat < 32 :=
          fun hlt => hfit (UInt64.lt_iff_toNat_lt.mpr hlt)
        omega
      obtain ⟨hflush, htotal'⟩ := flush_spec data
        (h := { h with totalLength := h.totalLength + UInt64.ofNat data.length }) hsize henough
      obtain ⟨hstate, hbuffered, hsize', htotal''⟩ := processRest_spec
        (flush { h with totalLength := h.totalLength + UInt64.ofNat data.length } data).1
        (flush { h with totalLength := h.totalLength + UInt64.ofNat data.length } data).2
      rw [if_neg hfit]
      refine ⟨?_, ?_, hsize', ?_⟩
      · rw [hcut]
        exact hstate.trans (congrArg Prod.fst hflush)
      · rw [hcut]
        exact hbuffered.trans (congrArg Prod.snd hflush)
      · rw [← htotal]
        exact htotal''.trans htotal'

/-- `hash` reads nothing but the stream. -/
theorem Streams.hash_eq {h' : XXHash64} (hs : Streams lanes input h)
    (hs' : Streams lanes input h') : h.hash = h'.hash := by
  rw [hash, hash, hs.state, hs'.state, hs.buffered, hs'.buffered, hs.total, hs'.total]

end XXHash64
end Fredlib
