/-
  Fredlib.Hash.Blake3.ChunkState

  `blake3_chunk_state` of hashes/b3/blake3.c: a chunk that is given in pieces.

  A full block stays in `buf` until more input follows, since the last block of a chunk
  is compressed with other flags.  So a chunk state is the blocks but the last, and the
  last (`Absorbed`), however the pieces were cut (`Absorbed.update`).
-/

import Fredlib.Hash.Blake3.Tree

namespace Fredlib
namespace Blake3

open Lib

/-- `blake3_chunk_state` -/
structure ChunkState where
  cv : Vector UInt32 8
  chunkCounter : UInt64
  buf : List UInt8
  bufLen : Nat
  blocksCompressed : Nat
  flags : UInt8

namespace ChunkState

variable (p : Platform)

/-- `chunk_state_init` -/
def init (key : Vector UInt32 8) (flags : UInt8) : ChunkState where
  cv := key
  chunkCounter := 0
  buf := List.replicate 64 0
  bufLen := 0
  blocksCompressed := 0
  flags := flags

/-- `chunk_state_reset` -/
def reset (self : ChunkState) (key : Vector UInt32 8) (chunkCounter : UInt64) : ChunkState :=
  { self with
    cv := key
    chunkCounter := chunkCounter
    blocksCompressed := 0
    buf := List.replicate 64 0
    bufLen := 0 }

/-- `chunk_state_len` -/
def len (self : ChunkState) : Nat := 64 * self.blocksCompressed + self.bufLen

/-- `chunk_state_fill_buf`, with what it returns. -/
def fillBuf (self : ChunkState) (input : List UInt8) : ChunkState × Nat :=
  let take := 64 - self.bufLen
  let take := if take > input.length then input.length else take
  ({ self with
    buf := self.buf.take self.bufLen ++ input.take take ++ self.buf.drop (self.bufLen + take)
    bufLen := self.bufLen + take }, take)

/-- `chunk_state_maybe_start_flag` -/
def maybeStartFlag (self : ChunkState) : UInt8 := startFlag self.blocksCompressed

/-- A block goes into the chaining value. -/
def compressBlock (self : ChunkState) (block : List UInt8) : ChunkState :=
  { self with
    cv := p.compressInPlace self.cv block 64 self.chunkCounter (self.flags ||| self.maybeStartFlag)
    blocksCompressed := self.blocksCompressed + 1 }

/-- The loop of `chunk_state_update`. -/
def updateLoop (self : ChunkState) (input : List UInt8) : ChunkState × List UInt8 :=
  if input.length > 64 then updateLoop (self.compressBlock p (input.take 64)) (input.drop 64)
  else (self, input)
termination_by input.length
decreasing_by
  rw [List.length_drop]
  omega

/-- The part of `chunk_state_update` about bytes that are in `buf`. -/
def updateBuf (self : ChunkState) (input : List UInt8) : ChunkState × List UInt8 :=
  if self.bufLen > 0 then
    let (self, take) := self.fillBuf input
    let input := input.drop take
    if input.length > 0 then
      ({ self.compressBlock p self.buf with bufLen := 0, buf := List.replicate 64 0 }, input)
    else (self, input)
  else (self, input)

/-- `chunk_state_update` -/
def update (self : ChunkState) (input : List UInt8) : ChunkState :=
  let (self, input) := self.updateBuf p input
  let (self, input) := self.updateLoop p input
  (self.fillBuf input).1

/-- `chunk_state_output` -/
def output (self : ChunkState) : Output :=
  makeOutput self.cv self.buf (UInt8.ofNat self.bufLen) self.chunkCounter
    (self.flags ||| self.maybeStartFlag ||| CHUNK_END)

-- ============================================================================
-- What a chunk state holds
-- ============================================================================

/-- After the blocks `s`, with the bytes `rest` in the buffer. -/
structure Holds (m : Mode) (counter : UInt64) (s : Vector UInt32 8 × Nat) (rest : List UInt8)
    (st : ChunkState) : Prop where
  cv : st.cv = s.1
  blocksCompressed : st.blocksCompressed = s.2
  chunkCounter : st.chunkCounter = counter
  flags : st.flags = m.flags
  buf : st.buf = padded rest
  bufLen : st.bufLen = rest.length
  fits : rest.length ≤ 64

/-- The bytes of `chunk` have been given to the chunk state. -/
def Absorbed (m : Mode) (counter : UInt64) (chunk : List UInt8) (st : ChunkState) : Prop :=
  Holds m counter (m.blocks counter chunk).1 (m.blocks counter chunk).2 st

variable {p} {m : Mode} {counter : UInt64} {s : Vector UInt32 8 × Nat} {rest input chunk : List UInt8}
  {st : ChunkState}

theorem length_padded (h : rest.length ≤ 64) : (padded rest).length = 64 := by
  rw [padded, List.length_append, List.length_replicate]
  omega

theorem padded_of_full (h : rest.length = 64) : padded rest = rest := by
  rw [padded, h, Nat.sub_self, List.replicate_zero, List.append_nil]

theorem Holds.init (key : Vector UInt32 8) (flags : UInt8) :
    Holds ⟨key, flags⟩ 0 (key, 0) [] (ChunkState.init key flags) :=
  ⟨rfl, rfl, rfl, rfl, rfl, rfl, by simp⟩

/-- The buffer takes what it has room for. -/
theorem Holds.fillBuf (h : Holds m counter s rest st) (input : List UInt8) :
    Holds m counter s (rest ++ input.take (64 - rest.length)) (st.fillBuf input).1 ∧
      (st.fillBuf input).2 = min (64 - rest.length) input.length := by
  have htake : (st.fillBuf input).2 = min (64 - rest.length) input.length := by
    simp only [ChunkState.fillBuf, h.bufLen]
    split <;> omega
  have hpieces : input.take (st.fillBuf input).2 = input.take (64 - rest.length) := by
    rw [htake, List.take_eq_take_min, Nat.min_comm]
    simp
  have hfits := h.fits
  refine ⟨⟨h.cv, h.blocksCompressed, h.chunkCounter, h.flags, ?_, ?_, ?_⟩, htake⟩
  · show st.buf.take st.bufLen ++ input.take (st.fillBuf input).2 ++
      st.buf.drop (st.bufLen + (st.fillBuf input).2) = _
    rw [hpieces, htake, h.buf, h.bufLen, padded, List.take_left, padded, List.drop_append,
      List.drop_eq_nil_of_le (by omega), List.nil_append, List.drop_replicate, List.length_append,
      List.length_take]
    congr 2
    omega
  · show st.bufLen + (st.fillBuf input).2 = _
    rw [htake, h.bufLen, List.length_append, List.length_take]
  · rw [List.length_append, List.length_take]
    omega

/-- A block goes on top of those before it. -/
theorem Holds.compressBlock (h : Holds m counter s rest st) (block : List UInt8) :
    Holds m counter (blockStep counter m.flags s block) rest (st.compressBlock p block) := by
  refine ⟨?_, ?_, h.chunkCounter, h.flags, h.buf, h.bufLen, h.fits⟩
  · simp only [ChunkState.compressBlock, maybeStartFlag, blockStep, p.compressInPlace_eq, h.cv,
      h.chunkCounter, h.flags, h.blocksCompressed]
  · simp only [ChunkState.compressBlock, blockStep, h.blocksCompressed]

theorem Holds.updateLoop (h : Holds m counter s [] st) (input : List UInt8) :
    Holds m counter (consumeLazy 64 (blockStep counter m.flags) s input).1 []
        (st.updateLoop p input).1 ∧
      (st.updateLoop p input).2 = (consumeLazy 64 (blockStep counter m.flags) s input).2 := by
  induction s, input using consumeLazy.induct 64 (blockStep counter m.flags) generalizing st with
  | case1 s input hlong ih =>
      rw [ChunkState.updateLoop, if_pos hlong.2, consumeLazy_of_block hlong.1 hlong.2]
      exact ih (h.compressBlock _)
  | case2 s input hshort =>
      rw [ChunkState.updateLoop, if_neg (by omega), consumeLazy_of_short (by omega)]
      exact ⟨h, rfl⟩

/-- What is left in the buffer, and the input after it. -/
theorem Holds.update (h : Holds m counter s rest st) (input : List UInt8) :
    Holds m counter (consumeLazy 64 (blockStep counter m.flags) s (rest ++ input)).1
      (consumeLazy 64 (blockStep counter m.flags) s (rest ++ input)).2 (st.update p input) := by
  have hfits := h.fits
  -- the last two parts of the function, on an empty buffer
  have hend : ∀ {st : ChunkState} {s} {input : List UInt8}, Holds m counter s [] st →
      Holds m counter (consumeLazy 64 (blockStep counter m.flags) s input).1
        (consumeLazy 64 (blockStep counter m.flags) s input).2
        ((st.updateLoop p input).1.fillBuf (st.updateLoop p input).2).1 := by
    intro st s input h
    obtain ⟨hloop, hleft⟩ := h.updateLoop (p := p) input
    have hlen := (length_consumeLazy (blockStep counter m.flags) (show 0 < 64 by decide) s input).1
    have hfill := (hloop.fillBuf (st.updateLoop p input).2).1
    rw [List.nil_append, List.length_nil, hleft, List.take_of_length_le hlen] at hfill
    exact hleft ▸ hfill
  by_cases hempty : rest = []
  · subst hempty
    have hbuf : st.updateBuf p input = (st, input) := by
      rw [updateBuf, if_neg]
      rw [h.bufLen]
      simp
    rw [ChunkState.update, hbuf, List.nil_append]
    exact hend h
  · have hpos := List.length_pos_iff.mpr hempty
    obtain ⟨hfill, htake⟩ := h.fillBuf input
    by_cases hmore : 64 < rest.length + input.length
    · -- the buffer gets full, and its block is compressed
      have hfull : (rest ++ input.take (64 - rest.length)).length = 64 := by
        rw [List.length_append, List.length_take]
        omega
      have hbuf : st.updateBuf p input =
          ({ (st.fillBuf input).1.compressBlock p (st.fillBuf input).1.buf with
              bufLen := 0, buf := List.replicate 64 0 }, input.drop (64 - rest.length)) := by
        have hdrop : input.drop (st.fillBuf input).2 = input.drop (64 - rest.length) := by
          rw [htake, Nat.min_eq_left (by omega)]
        rw [updateBuf, if_pos (by rw [h.bufLen]; exact hpos)]
        simp only [hdrop]
        rw [if_pos (by rw [List.length_drop]; omega)]
      have hblock : (rest ++ input).take 64 = (st.fillBuf input).1.buf := by
        rw [hfill.buf, padded_of_full hfull, List.take_append, List.take_of_length_le hfits]
      have hrest : (rest ++ input).drop 64 = input.drop (64 - rest.length) := by
        rw [List.drop_append, List.drop_eq_nil_of_le hfits, List.nil_append]
      have hcompressed := hfill.compressBlock (p := p) (st.fillBuf input).1.buf
      rw [ChunkState.update, hbuf, consumeLazy_of_block (by decide)
        (by rw [List.length_append]; exact hmore), hblock, hrest]
      exact hend ⟨hcompressed.cv, hcompressed.blocksCompressed, hcompressed.chunkCounter,
        hcompressed.flags, rfl, rfl, by simp⟩
    · -- everything stays in the buffer
      have hall : input.take (64 - rest.length) = input := List.take_of_length_le (by omega)
      have hbuf : st.updateBuf p input = ((st.fillBuf input).1, []) := by
        have hdrop : input.drop (st.fillBuf input).2 = [] := by
          rw [htake]
          exact List.drop_eq_nil_of_le (by omega)
        rw [updateBuf, if_pos (by rw [h.bufLen]; exact hpos)]
        simp only [hdrop, List.length_nil, gt_iff_lt, Nat.lt_irrefl, if_false]
      have hloop : (st.fillBuf input).1.updateLoop p [] = ((st.fillBuf input).1, []) := by
        rw [ChunkState.updateLoop, if_neg (by simp)]
      rw [hall] at hfill
      have hagain := (hfill.fillBuf []).1
      rw [List.take_nil, List.append_nil] at hagain
      rw [ChunkState.update, hbuf, consumeLazy_of_short (by rw [List.length_append]; omega)]
      simp only [hloop]
      exact hagain

-- ============================================================================
-- Chunks
-- ============================================================================

theorem Absorbed.init (m : Mode) : Absorbed m 0 [] (ChunkState.init m.key m.flags) := by
  have hnone : m.blocks 0 [] = ((m.key, 0), []) := consumeLazy_of_short (Nat.zero_le 64)
  rw [Absorbed, hnone]
  exact Holds.init m.key m.flags

theorem Absorbed.reset (hflags : st.flags = m.flags) (counter : UInt64) :
    Absorbed m counter [] (st.reset m.key counter) := by
  have hnone : m.blocks counter [] = ((m.key, 0), []) := consumeLazy_of_short (Nat.zero_le 64)
  rw [Absorbed, hnone]
  exact ⟨rfl, rfl, rfl, hflags, rfl, rfl, by simp⟩

/-- An empty chunk state may be moved to another place. -/
theorem Absorbed.move {counter' : UInt64} (h : Absorbed m counter [] st) :
    Absorbed m counter' [] { st with chunkCounter := counter' } := by
  have hnone : ∀ c, m.blocks c [] = ((m.key, 0), []) := fun c => consumeLazy_of_short (Nat.zero_le 64)
  rw [Absorbed, hnone] at h ⊢
  exact ⟨h.cv, h.blocksCompressed, rfl, h.flags, h.buf, h.bufLen, h.fits⟩

/-- A chunk state for the chunk at this place. -/
theorem Absorbed.fresh (m : Mode) (counter : UInt64) :
    Absorbed m counter [] { ChunkState.init m.key m.flags with chunkCounter := counter } :=
  (Absorbed.init m).move

/-- **Pieces of a chunk**: how it was cut makes no difference. -/
theorem Absorbed.update (h : Absorbed m counter chunk st) (input : List UInt8) :
    Absorbed m counter (chunk ++ input) (st.update p input) := by
  have happend : m.blocks counter (chunk ++ input) = consumeLazy 64 (blockStep counter m.flags)
      (m.blocks counter chunk).1 ((m.blocks counter chunk).2 ++ input) := consumeLazy_append _ _ _
  rw [Absorbed, happend]
  exact Holds.update h input

theorem Absorbed.output (h : Absorbed m counter chunk st) : st.output = m.chunk counter chunk := by
  rw [ChunkState.output, Mode.chunk, maybeStartFlag, h.cv, h.buf, h.bufLen, h.chunkCounter, h.flags,
    h.blocksCompressed]

/-- Every block that was compressed had 64 bytes. -/
theorem length_blocks (counter : UInt64) (chunk : List UInt8) :
    64 * (m.blocks counter chunk).1.2 + (m.blocks counter chunk).2.length = chunk.length := by
  have hgen : ∀ (s : Vector UInt32 8 × Nat) (l : List UInt8),
      64 * (consumeLazy 64 (blockStep counter m.flags) s l).1.2 +
        (consumeLazy 64 (blockStep counter m.flags) s l).2.length = 64 * s.2 + l.length := by
    intro s l
    induction s, l using consumeLazy.induct 64 (blockStep counter m.flags) with
    | case1 s l h ih =>
        rw [consumeLazy_of_block h.1 h.2, ih, List.length_drop]
        simp only [blockStep]
        omega
    | case2 s l h => rw [consumeLazy_of_short (by omega)]
  rw [Mode.blocks, hgen]
  simp

theorem Absorbed.len (h : Absorbed m counter chunk st) : st.len = chunk.length := by
  rw [ChunkState.len, h.blocksCompressed, h.bufLen, length_blocks]

end ChunkState
end Blake3
end Fredlib
