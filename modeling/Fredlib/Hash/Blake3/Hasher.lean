/-
  Fredlib.Hash.Blake3.Hasher

  `blake3_hasher` of hashes/b3/blake3.c: an input that is given in pieces.

  Whole chunks are hashed at once, in subtrees as large as their place allows, and their
  chaining values stay on a stack until it is known that they are not the root.  A
  hasher holds full subtrees over the whole chunks so far, and the bytes after them in
  its chunk state (`Absorbed`); the stack never needs more than its 55 places as long as
  the input has fewer than 2^64 bytes.

  `cvStack` has its top first; `none` is a read or a write outside of it, or a step of
  `compress_subtree_to_parent_node` that fails.
-/

import Fredlib.Lib.SubtreeStack
import Fredlib.Hash.Blake3.Subtree

namespace Fredlib
namespace Blake3

open Lib

/-- `popcnt` -/
def popcnt (x : UInt64) : Nat := ones x.toNat

/-- `blake3_hasher` -/
structure Hasher where
  key : Vector UInt32 8
  chunk : ChunkState
  cvStack : List (List UInt8)

namespace Hasher

variable (p : Platform)

/-- `hasher_init_base` -/
def initBase (key : Vector UInt32 8) (flags : UInt8) : Hasher where
  key := key
  chunk := ChunkState.init key flags
  cvStack := []

/-- `blake3_hasher_init` -/
def init : Hasher := initBase IV 0

/-- `blake3_hasher_init_keyed` -/
def initKeyed (key : List UInt8) : Hasher := initBase (loadKeyWords key) KEYED_HASH

/-- `hasher_merge_cv_stack` -/
def mergeCvStack (self : Hasher) (totalLen : UInt64) : Option Hasher :=
  let parent l r := outputChainingValue p (parentOutput (l ++ r) self.key self.chunk.flags)
  (merge parent (popcnt totalLen) self.cvStack).map fun cvStack => { self with cvStack := cvStack }

/-- `hasher_push_cv`; there are `BLAKE3_MAX_DEPTH + 1` places. -/
def pushCv (self : Hasher) (newCv : List UInt8) (chunkCounter : UInt64) : Option Hasher := do
  let self ← self.mergeCvStack p chunkCounter
  if self.cvStack.length < 54 + 1 then some { self with cvStack := newCv :: self.cvStack } else none

/-- The loop that shrinks `subtree_len`. -/
def shrink (countSoFar : UInt64) (subtreeLen : Nat) : Nat :=
  if UInt64.ofNat (subtreeLen - 1) &&& countSoFar ≠ 0 then shrink countSoFar (subtreeLen / 2)
  else subtreeLen
termination_by subtreeLen
decreasing_by
  rename_i h
  have hne : subtreeLen - 1 ≠ 0 := by
    intro h0
    rw [h0] at h
    simp at h
  omega

/-- The chaining values of a subtree, in the loop of `blake3_hasher_update`. -/
def pushSubtree (self : Hasher) (subtree : List UInt8) : Option Hasher :=
  let subtreeChunks := UInt64.ofNat (subtree.length / 1024)
  if subtree.length ≤ 1024 then
    let chunkState := { ChunkState.init self.key self.chunk.flags with
      chunkCounter := self.chunk.chunkCounter }
    let cv := outputChainingValue p (chunkState.update p subtree).output
    self.pushCv p cv chunkState.chunkCounter
  else do
    let (l, r) ← compressSubtreeToParentNode p self.key self.chunk.flags subtree
      self.chunk.chunkCounter
    let self ← self.pushCv p l self.chunk.chunkCounter
    self.pushCv p r (self.chunk.chunkCounter + subtreeChunks / 2)

theorem shrink_pos (countSoFar : UInt64) {subtreeLen : Nat} (h : 0 < subtreeLen) :
    0 < shrink countSoFar subtreeLen := by
  induction subtreeLen using shrink.induct countSoFar with
  | case1 subtreeLen hne ih =>
      rw [shrink, if_pos hne]
      refine ih ?_
      have hlen : subtreeLen - 1 ≠ 0 := by
        intro h0
        rw [h0] at hne
        simp at hne
      omega
  | case2 subtreeLen hne =>
      rw [shrink, if_neg hne]
      exact h

/-- The loop of `blake3_hasher_update`, with the input that it leaves. -/
def updateLoop (self : Hasher) (input : List UInt8) : Option (Hasher × List UInt8) :=
  if input.length > 1024 then do
    let countSoFar := self.chunk.chunkCounter * 1024
    let subtreeLen := shrink countSoFar (roundDownToPowerOf2 input.length)
    let subtreeChunks := UInt64.ofNat (subtreeLen / 1024)
    let self ← self.pushSubtree p (input.take subtreeLen)
    let chunk := { self.chunk with chunkCounter := self.chunk.chunkCounter + subtreeChunks }
    updateLoop { self with chunk := chunk } (input.drop subtreeLen)
  else some (self, input)
termination_by input.length
decreasing_by
  have hround : 0 < roundDownToPowerOf2 input.length := by
    rw [roundDownToPowerOf2_eq]
    exact Nat.two_pow_pos _
  rw [List.length_drop]
  exact Nat.sub_lt (by omega) (shrink_pos _ hround)

/-- `blake3_hasher_update` from its loop on. -/
def updateRest (self : Hasher) (input : List UInt8) : Option Hasher := do
  let (self, input) ← self.updateLoop p input
  if input.length > 0 then
    let self := { self with chunk := self.chunk.update p input }
    self.mergeCvStack p self.chunk.chunkCounter
  else some self

/-- `blake3_hasher_update` -/
def update (self : Hasher) (input : List UInt8) : Option Hasher :=
  if input.length = 0 then some self
  else if self.chunk.len > 0 then
    let take := 1024 - self.chunk.len
    let take := if take > input.length then input.length else take
    let self := { self with chunk := self.chunk.update p (input.take take) }
    let input := input.drop take
    if input.length > 0 then do
      let chunkCv := outputChainingValue p self.chunk.output
      let self ← self.pushCv p chunkCv self.chunk.chunkCounter
      let chunk := self.chunk.reset self.key (self.chunk.chunkCounter + 1)
      { self with chunk := chunk }.updateRest p input
    else some self
  else self.updateRest p input

/-- `blake3_hasher_reset` -/
def reset (self : Hasher) : Hasher :=
  { self with chunk := self.chunk.reset self.key 0, cvStack := [] }

-- ============================================================================
-- `finalize`
-- ============================================================================

/-- The loop of `output_root_bytes`. -/
def outputRootLoop (p : Platform) (output : Output) (outputBlockCounter : UInt64)
    (offsetWithinBlock : Fin 64) (outLen : Nat) : List UInt8 :=
  if outLen > 0 then
    let wideBuf := p.compressXof output.inputCv output.block output.blockLen outputBlockCounter
      (output.flags ||| ROOT)
    let availableBytes := 64 - offsetWithinBlock.1
    let memcpyLen := if outLen > availableBytes then availableBytes else outLen
    (wideBuf.drop offsetWithinBlock.1).take memcpyLen ++
      outputRootLoop p output (outputBlockCounter + 1) 0 (outLen - memcpyLen)
  else []
termination_by outLen
decreasing_by
  have hlt := offsetWithinBlock.isLt
  split <;> omega

/-- `output_root_bytes` -/
def outputRootBytes (output : Output) (seek : UInt64) (outLen : Nat) : List UInt8 :=
  outputRootLoop p output (seek / 64) ⟨(seek % 64).toNat, by
    rw [UInt64.toNat_mod]
    exact Nat.mod_lt _ (by decide)⟩ outLen

/-- The loop of `blake3_hasher_finalize_seek`, from the top of `cvs` down. -/
def rollUp (self : Hasher) (output : Output) : List (List UInt8) → Output
  | [] => output
  | cv :: cvs =>
      let parentBlock := cv ++ outputChainingValue p output
      self.rollUp (parentOutput parentBlock self.key self.chunk.flags) cvs

/-- `blake3_hasher_finalize_seek` -/
def finalizeSeek (self : Hasher) (seek : UInt64) (outLen : Nat) : Option (List UInt8) :=
  if outLen = 0 then some []
  else if self.cvStack.length = 0 then some (outputRootBytes p self.chunk.output seek outLen)
  else if self.chunk.len > 0 then
    some (outputRootBytes p (self.rollUp p self.chunk.output self.cvStack) seek outLen)
  else
    match self.cvStack with
    | r :: l :: cvs =>
        let output := parentOutput (l ++ r) self.key self.chunk.flags
        some (outputRootBytes p (self.rollUp p output cvs) seek outLen)
    | _ => none

/-- `blake3_hasher_finalize` -/
def finalize (self : Hasher) (outLen : Nat) : Option (List UInt8) := self.finalizeSeek p 0 outLen

/-- `blake3_hasher_init_derive_key_raw` -/
def initDeriveKeyRaw (context : List UInt8) : Option Hasher := do
  let contextHasher ← (initBase IV DERIVE_KEY_CONTEXT).update p context
  let contextKey ← contextHasher.finalize p 32
  some (initBase (loadKeyWords contextKey) DERIVE_KEY_MATERIAL)

/-- `blake3_hasher_init_derive_key`; the string ends before its first zero. -/
def initDeriveKey (context : List UInt8) : Option Hasher :=
  initDeriveKeyRaw p (context.takeWhile (· ≠ 0))

-- ============================================================================
-- The stack
-- ============================================================================

variable {p} {m : Mode} {h : Hasher} {ts : List (Full Output)} {full rest input : List UInt8}

/-- A hasher that holds the subtrees `ts` over the chunks of `full`, and the bytes `rest` of
    the chunk after them. -/
structure Holds (m : Mode) (full rest : List UInt8) (ts : List (Full Output)) (h : Hasher) :
    Prop where
  key : h.key = m.key
  length : full.length = 1024 * (stackLeaves ts).length
  leaves : stackLeaves ts = m.chunks 0 full
  stack : h.cvStack = entries m.join Output.cv ts
  pending : Pending ts
  chunk : ChunkState.Absorbed m (UInt64.ofNat (stackLeaves ts).length) rest h.chunk

theorem popcnt_eq {n : Nat} (h : n < 2 ^ 54) : popcnt (UInt64.ofNat n) = ones n := by
  rw [popcnt, UInt64.toNat_ofNat_of_lt' (by rw [UInt64.size]; omega)]

/-- Merging, as far as a merged stack over the same chunks. -/
theorem mergeCvStack_spec (hkey : h.key = m.key) (hflags : h.chunk.flags = m.flags)
    (hstack : h.cvStack = entries m.join Output.cv ts) (hpending : Pending ts)
    (hlt : (stackLeaves ts).length < 2 ^ 54) :
    ∃ ts', Merged ts' ∧ stackLeaves ts' = stackLeaves ts ∧
      h.mergeCvStack p (UInt64.ofNat (stackLeaves ts).length) =
        some { h with cvStack := entries m.join Output.cv ts' } := by
  obtain ⟨ts', hmerged, hleaves, hmerge⟩ := merge_spec hpending (Mode.cv_join (m := m))
  refine ⟨ts', hmerged, hleaves, ?_⟩
  have hparent : (fun l r => outputChainingValue p (parentOutput (l ++ r) h.key h.chunk.flags)) =
      m.node := by
    funext l r
    rw [outputChainingValue_eq, hkey, hflags]
    rfl
  simp only [mergeCvStack, hparent, popcnt_eq hlt, hstack, hmerge, Option.map_some]

/-- There is room for a chaining value on the stack. -/
theorem pushCv_spec (hkey : h.key = m.key) (hflags : h.chunk.flags = m.flags)
    (hstack : h.cvStack = entries m.join Output.cv ts) (hpending : Pending ts)
    (hlt : (stackLeaves ts).length < 2 ^ 54) (cv : List UInt8) :
    ∃ ts', Merged ts' ∧ stackLeaves ts' = stackLeaves ts ∧
      h.pushCv p cv (UInt64.ofNat (stackLeaves ts).length) =
        some { h with cvStack := cv :: entries m.join Output.cv ts' } := by
  obtain ⟨ts', hmerged, hleaves, hmerge⟩ :=
    mergeCvStack_spec (p := p) hkey hflags hstack hpending hlt
  refine ⟨ts', hmerged, hleaves, ?_⟩
  have hroom := ones_le (hleaves ▸ hlt)
  rw [hmerged.ones] at hroom
  simp only [pushCv, hmerge, Option.bind_eq_bind, Option.bind_some, length_entries]
  rw [if_pos (by omega)]

-- ============================================================================
-- One subtree
-- ============================================================================

/-- How much of the input the loop takes: the largest power of two that is not too much, and
    that divides what has been hashed. -/
theorem shrink_spec {c : UInt64} {a : Nat} (ha : a < 64) (hc : 2 ^ 10 ∣ c.toNat) (h10 : 10 ≤ a) :
    ∃ b, 10 ≤ b ∧ b ≤ a ∧ shrink c (2 ^ a) = 2 ^ b ∧ 2 ^ b ∣ c.toNat := by
  induction a with
  | zero => omega
  | succ a ih =>
      have hlt : 2 ^ (a + 1) < 2 ^ 64 := Nat.pow_lt_pow_right (by decide) ha
      have hmask : UInt64.ofNat (2 ^ (a + 1) - 1) &&& c ≠ 0 ↔ ¬ 2 ^ (a + 1) ∣ c.toNat := by
        rw [ne_eq, ← UInt64.toNat_inj, UInt64.toNat_and,
          UInt64.toNat_ofNat_of_lt' (by rw [UInt64.size]; omega), Nat.and_comm,
          Nat.and_two_pow_sub_one_eq_mod, Nat.dvd_iff_mod_eq_zero]
        rfl
      by_cases hdvd : 2 ^ (a + 1) ∣ c.toNat
      · refine ⟨a + 1, h10, Nat.le_refl _, ?_, hdvd⟩
        rw [shrink, if_neg (mt hmask.mp (not_not_intro hdvd))]
      · have hge : 10 ≤ a := by
          by_contra hlt10
          have ha10 : a + 1 = 10 := by omega
          exact hdvd (ha10 ▸ hc)
        obtain ⟨b, hb, hba, hshrink, hbdvd⟩ := ih (by omega) hge
        refine ⟨b, hb, by omega, ?_, hbdvd⟩
        rw [shrink, if_pos (hmask.mpr hdvd), Nat.pow_succ, Nat.mul_div_cancel _ (by decide), hshrink]

/-- The two halves of a subtree of two chunks or more. -/
theorem chunks_halves (m : Mode) (counter : UInt64) {subtree : List UInt8} {k : Nat}
    (hlen : subtree.length = 1024 * 2 ^ (k + 1)) :
    ∃ t u : Full Output, t.height = k ∧ u.height = k ∧
      m.chunks counter subtree = t.leaves ++ u.leaves ∧
      halves m.node ((m.chunks counter subtree).map Output.cv) =
        ((root m.join t.leaves).cv, (root m.join u.leaves).cv) := by
  have hpow : 2 ^ (k + 1) = 2 * 2 ^ k := by rw [Nat.pow_succ, Nat.mul_comm]
  have htake : (subtree.take (1024 * 2 ^ k)).length = 1024 * 2 ^ k := by
    rw [List.length_take]
    omega
  have hdrop : (subtree.drop (1024 * 2 ^ k)).length = 1024 * 2 ^ k := by
    rw [List.length_drop]
    omega
  -- both halves are subtrees of their own, the right one with its own counter
  have hcut := Mode.chunks_append m counter htake (subtree.drop (1024 * 2 ^ k))
  rw [List.take_append_drop] at hcut
  refine ⟨⟨k, m.chunks counter (subtree.take (1024 * 2 ^ k)), ?_⟩,
    ⟨k, m.chunks (counter + UInt64.ofNat (2 ^ k)) (subtree.drop (1024 * 2 ^ k)), ?_⟩, rfl, rfl,
      hcut, ?_⟩
  · rw [Mode.length_chunks, htake]
    omega
  · rw [Mode.length_chunks, hdrop]
    omega
  · have hpos := Nat.two_pow_pos k
    have hleft := Mode.chunks_ne_nil m counter
      (List.length_pos_iff.mp (show 0 < (subtree.take (1024 * 2 ^ k)).length by omega))
    have hright := Mode.chunks_ne_nil m (counter + UInt64.ofNat (2 ^ k))
      (List.length_pos_iff.mp (show 0 < (subtree.drop (1024 * 2 ^ k)).length by omega))
    rw [hcut, List.map_append, halves_append (k := k), root_map Mode.cv_join hleft,
      root_map Mode.cv_join hright]
    · rw [List.length_map, Mode.length_chunks, htake]
      omega
    · simpa using hright
    · rw [List.length_map, Mode.length_chunks, hdrop]
      omega

/-- The subtrees on the stack after another one has been pushed. -/
structure Pushed (m : Mode) (ts ts' : List (Full Output)) (subtree : List UInt8) : Prop where
  leaves : stackLeaves ts' =
    stackLeaves ts ++ m.chunks (UInt64.ofNat (stackLeaves ts).length) subtree
  pending : Pending ts'
  two : 1024 < subtree.length → 2 ≤ ts'.length

/-- A single chunk goes on the stack as it is. -/
theorem pushChunk_spec (hh : Holds m full [] ts h) {chunk : List UInt8}
    (hlen : chunk.length = 1024) (hlt : (stackLeaves ts).length + 1 ≤ 2 ^ 54) :
    ∃ ts', Pushed m ts ts' chunk ∧
      h.pushSubtree p chunk = some { h with cvStack := entries m.join Output.cv ts' } := by
  have hflags := hh.chunk.flags
  have hcounter := hh.chunk.chunkCounter
  have hchunk := (ChunkState.Absorbed.fresh m (UInt64.ofNat (stackLeaves ts).length)).update
    (p := p) chunk
  rw [List.nil_append] at hchunk
  have hone := Mode.chunks_of_short m (UInt64.ofNat (stackLeaves ts).length)
    (List.length_pos_iff.mp (show 0 < chunk.length by omega)) (by omega)
  obtain ⟨ts', hmerged, hleaves, hpush⟩ := pushCv_spec (p := p) hh.key hflags hh.stack hh.pending
    (by omega) (m.chunk (UInt64.ofNat (stackLeaves ts).length) chunk).cv
  refine ⟨⟨0, [m.chunk (UInt64.ofNat (stackLeaves ts).length) chunk], rfl⟩ :: ts', ⟨?_, ?_, ?_⟩,
    ?_⟩
  · rw [stackLeaves_cons, hleaves, hone]
  · exact hmerged.push (Nat.one_dvd _)
  · omega
  · have hcv : outputChainingValue p ((({ ChunkState.init h.key h.chunk.flags with
        chunkCounter := h.chunk.chunkCounter } : ChunkState).update p chunk).output) =
        (m.chunk (UInt64.ofNat (stackLeaves ts).length) chunk).cv := by
      rw [outputChainingValue_eq, hh.key, hflags, hcounter]
      exact congrArg Output.cv hchunk.output
    simp only [pushSubtree]
    rw [if_pos (by omega), hcv, hcounter, hpush, entries_cons, root_singleton]

/-- The counter of the right half of a subtree. -/
theorem counter_half {subtree : List UInt8} {n k : Nat}
    (hlen : subtree.length = 1024 * 2 ^ (k + 1)) (hlt : 2 ^ (k + 1) < 2 ^ 64) :
    UInt64.ofNat n + UInt64.ofNat (subtree.length / 1024) / 2 = UInt64.ofNat (n + 2 ^ k) := by
  have hpow : 2 ^ (k + 1) = 2 * 2 ^ k := by rw [Nat.pow_succ, Nat.mul_comm]
  have hdiv : subtree.length / 1024 = 2 * 2 ^ k := by omega
  have htwo : UInt64.ofNat (2 * 2 ^ k) / 2 = UInt64.ofNat (2 ^ k) := by
    rw [← UInt64.toNat_inj, UInt64.toNat_div,
      UInt64.toNat_ofNat_of_lt' (by rw [UInt64.size]; omega),
      UInt64.toNat_ofNat_of_lt' (by rw [UInt64.size]; omega)]
    exact Nat.mul_div_cancel_left _ (by decide)
  rw [hdiv, htwo, UInt64.ofNat_add]

/-- A subtree of two chunks or more goes on the stack as its two halves. -/
theorem pushHalves_spec (hh : Holds m full [] ts h) {subtree : List UInt8} {k : Nat}
    (hlen : subtree.length = 1024 * 2 ^ (k + 1)) (hdvd : 2 ^ k ∣ (stackLeaves ts).length)
    (hlt : (stackLeaves ts).length + 2 ^ (k + 1) ≤ 2 ^ 54) :
    ∃ ts', Pushed m ts ts' subtree ∧
      h.pushSubtree p subtree = some { h with cvStack := entries m.join Output.cv ts' } := by
  have hpos := Nat.two_pow_pos k
  have hflags := hh.chunk.flags
  have hcounter := hh.chunk.chunkCounter
  have hpow : 2 ^ (k + 1) = 2 * 2 ^ k := by rw [Nat.pow_succ, Nat.mul_comm]
  obtain ⟨t, u, ht, hu, hchunks, hhalves⟩ := chunks_halves m
    (UInt64.ofNat (stackLeaves ts).length) hlen
  have hparent := compressSubtreeToParentNode_spec p m (UInt64.ofNat (stackLeaves ts).length)
    subtree (by omega)
  rw [hhalves, ← hh.key, ← hflags] at hparent
  -- the left half
  obtain ⟨ts₁, hmerged₁, hleaves₁, hpush₁⟩ := pushCv_spec (p := p) hh.key hflags hh.stack
    hh.pending (by omega) (root m.join t.leaves).cv
  have hpending₁ : Pending (t :: ts₁) := hmerged₁.push (by rw [hleaves₁, ht]; exact hdvd)
  -- and the right half on top of it
  have hcount : (stackLeaves (t :: ts₁)).length = (stackLeaves ts).length + 2 ^ k := by
    rw [stackLeaves_cons, List.length_append, hleaves₁, t.length_leaves, ht]
  obtain ⟨ts₂, hmerged₂, hleaves₂, hpush₂⟩ := pushCv_spec (p := p) (m := m)
    (h := { h with cvStack := entries m.join Output.cv (t :: ts₁) }) hh.key hflags rfl hpending₁
    (by omega) (root m.join u.leaves).cv
  have hdvd₂ : 2 ^ u.height ∣ (stackLeaves ts₂).length := by
    rw [hleaves₂, hcount, hu]
    exact Nat.dvd_add hdvd (Nat.dvd_refl _)
  have hne : ts₂ ≠ [] := by
    rintro rfl
    rw [← hleaves₂, stackLeaves_nil, List.length_nil] at hcount
    omega
  have htspos := List.length_pos_iff.mpr hne
  refine ⟨u :: ts₂, ⟨?_, hmerged₂.push hdvd₂, fun _ => ?_⟩, ?_⟩
  · rw [stackLeaves_cons, hleaves₂, stackLeaves_cons, hleaves₁, hchunks, List.append_assoc]
  · rw [List.length_cons]
    omega
  · have hhalf := counter_half (n := (stackLeaves ts).length) hlen (by omega)
    rw [← hcount] at hhalf
    simp only [pushSubtree]
    rw [if_neg (by omega)]
    simp only [hcounter, hparent, Option.bind_eq_bind, Option.bind_some, hpush₁, hhalf]
    exact hpush₂

/-- A subtree that divides what is there goes on the stack; one of two chunks or more as its
    two halves, so that its own root stays open. -/
theorem pushSubtree_spec (hh : Holds m full [] ts h) {subtree : List UInt8} {k : Nat}
    (hlen : subtree.length = 1024 * 2 ^ k) (hdvd : 2 ^ k ∣ (stackLeaves ts).length)
    (hlt : (stackLeaves ts).length + 2 ^ k ≤ 2 ^ 54) :
    ∃ ts', Pushed m ts ts' subtree ∧
      h.pushSubtree p subtree = some { h with cvStack := entries m.join Output.cv ts' } := by
  cases k with
  | zero => exact pushChunk_spec hh (by omega) hlt
  | succ k =>
      exact pushHalves_spec hh hlen (Nat.dvd_trans (Nat.pow_dvd_pow 2 (Nat.le_succ k)) hdvd) hlt

-- ============================================================================
-- `update`
-- ============================================================================

/-- Further chunks. -/
theorem Pushed.leaves_eq {ts' : List (Full Output)} {subtree : List UInt8}
    (hp : Pushed m ts ts' subtree) (hh : Holds m full rest ts h) :
    stackLeaves ts' = m.chunks 0 (full ++ subtree) := by
  rw [hp.leaves, Mode.chunks_append m 0 hh.length, UInt64.zero_add, hh.leaves]

/-- What a round of the loop takes: a power of two of chunks that divides those before it. -/
theorem shrink_round (hh : Holds m full [] ts h) (hlong : 1024 < input.length)
    (hlt : full.length + input.length < 2 ^ 64) :
    ∃ k, shrink (h.chunk.chunkCounter * 1024) (roundDownToPowerOf2 input.length) = 1024 * 2 ^ k ∧
      1024 * 2 ^ k ≤ input.length ∧ 2 ^ k ∣ (stackLeaves ts).length := by
  have hn := hh.length
  generalize hcount : (stackLeaves ts).length = n at hn
  have hlog : 2 ^ Nat.log2 input.length ≤ input.length := Nat.log2_self_le (by omega)
  have ha : Nat.log2 input.length < 64 := by
    refine (Nat.pow_lt_pow_iff_right (show 1 < 2 by decide)).mp ?_
    omega
  have h10 : 10 ≤ Nat.log2 input.length := (Nat.le_log2 (by omega)).mpr (by omega)
  -- the counter counts chunks, so the bytes so far are a multiple of 1024
  have hc : (h.chunk.chunkCounter * 1024).toNat = 2 ^ 10 * n := by
    rw [hh.chunk.chunkCounter, hcount, UInt64.toNat_mul,
      UInt64.toNat_ofNat_of_lt' (by rw [UInt64.size]; omega)]
    simp only [UInt64.reduceToNat]
    omega
  obtain ⟨b, hb, hba, hshrink, hbdvd⟩ := shrink_spec (c := h.chunk.chunkCounter * 1024) ha
    (by rw [hc]; exact Nat.dvd_mul_right _ _) h10
  obtain ⟨k, rfl⟩ := Nat.exists_eq_add_of_le hb
  have hpow : 2 ^ (10 + k) = 1024 * 2 ^ k := Nat.pow_add 2 10 k
  have hble := Nat.pow_le_pow_right (show 0 < 2 by decide) hba
  refine ⟨k, ?_, by omega, ?_⟩
  · rw [roundDownToPowerOf2_of_pos (by omega), hshrink, hpow]
  · rw [hc, Nat.pow_add] at hbdvd
    exact Nat.dvd_of_mul_dvd_mul_left (by decide) hbdvd

/-- **The loop**: it takes whole chunks until at most one is left, and if nothing is left the
    root is still open. -/
theorem updateLoop_spec (hh : Holds m full [] ts h) (hlt : full.length + input.length < 2 ^ 64) :
    ∃ piece rest ts' h', piece ++ rest = input ∧ rest.length ≤ 1024 ∧
      Holds m (full ++ piece) [] ts' h' ∧ h.updateLoop p input = some (h', rest) ∧
      (rest = [] → input ≠ [] ∨ 2 ≤ ts.length → 2 ≤ ts'.length) := by
  induction hlen : input.length using Nat.strong_induction_on generalizing full ts h input with
  | _ len ih =>
      subst hlen
      by_cases hshort : input.length ≤ 1024
      · refine ⟨[], input, ts, h, rfl, hshort, by rwa [List.append_nil], ?_, fun hnil => ?_⟩
        · rw [updateLoop, if_neg (by omega)]
        · exact fun hor => hor.resolve_left (fun hne => hne hnil)
      · obtain ⟨k, hround, hkle, hkdvd⟩ := shrink_round hh (by omega) hlt
        have hn := hh.length
        have hsub : (input.take (1024 * 2 ^ k)).length = 1024 * 2 ^ k := by
          rw [List.length_take]
          omega
        have hkpos := Nat.two_pow_pos k
        obtain ⟨ts₁, hpushed, hpush⟩ := pushSubtree_spec (p := p) hh hsub hkdvd (by omega)
        -- what the hasher holds after this round
        have hcount₁ : (stackLeaves ts₁).length = (stackLeaves ts).length + 2 ^ k := by
          rw [hpushed.leaves, List.length_append, Mode.length_chunks, hsub]
          omega
        have hcounter : h.chunk.chunkCounter + UInt64.ofNat (1024 * 2 ^ k / 1024) =
            UInt64.ofNat (stackLeaves ts₁).length := by
          rw [Nat.mul_div_cancel_left _ (by decide), hcount₁, UInt64.ofNat_add, hh.chunk.chunkCounter]
        have hh₁ : Holds m (full ++ input.take (1024 * 2 ^ k)) [] ts₁
            { key := h.key,
              chunk := { h.chunk with chunkCounter := UInt64.ofNat (stackLeaves ts₁).length },
              cvStack := entries m.join Output.cv ts₁ } := by
          refine ⟨hh.key, ?_, hpushed.leaves_eq hh, rfl, hpushed.pending, hh.chunk.move⟩
          rw [List.length_append, hsub, hcount₁]
          omega
        have hdrop : (input.drop (1024 * 2 ^ k)).length = input.length - 1024 * 2 ^ k :=
          List.length_drop
        obtain ⟨piece, rest, ts', h', happend, hrest, hh', hloop, htwo⟩ :=
          ih (input.drop (1024 * 2 ^ k)).length (by omega) hh₁ (by rw [List.length_append]; omega)
            rfl
        refine ⟨input.take (1024 * 2 ^ k) ++ piece, rest, ts', h', ?_, hrest, ?_, ?_, fun hnil _ => ?_⟩
        · rw [List.append_assoc, happend, List.take_append_drop]
        · rwa [← List.append_assoc]
        · rw [updateLoop, if_pos (by omega)]
          simp only [hround, hpush, Option.bind_eq_bind, Option.bind_some, hcounter]
          exact hloop
        · refine htwo hnil ?_
          by_cases hall : input.drop (1024 * 2 ^ k) = []
          · rw [List.drop_eq_nil_iff] at hall
            exact .inr (hpushed.two (by omega))
          · exact .inl hall

/-- A hasher between two calls: the stack is merged if there are bytes after it, and has two
    subtrees at least if there are none. -/
structure Settled (m : Mode) (full rest : List UInt8) (ts : List (Full Output)) (h : Hasher) : Prop
    extends Holds m full rest ts h where
  short : rest.length ≤ 1024
  merged : rest ≠ [] → Merged ts
  two : rest = [] → ts ≠ [] → 2 ≤ ts.length

/-- `input` has been given to the hasher. -/
def Absorbed (m : Mode) (input : List UInt8) (h : Hasher) : Prop :=
  ∃ full rest ts, full ++ rest = input ∧ Settled m full rest ts h

theorem Absorbed.initBase (m : Mode) : Absorbed m [] (initBase m.key m.flags) := by
  refine ⟨[], [], [], rfl, ⟨rfl, rfl, ?_, rfl, trivial, ChunkState.Absorbed.init m⟩, by simp,
    fun hne => absurd rfl hne, fun _ hne => absurd rfl hne⟩
  rw [Mode.chunks_nil]
  rfl

theorem Absorbed.reset (ha : Absorbed m input h) : Absorbed m [] h.reset := by
  obtain ⟨full, rest, ts, -, hs⟩ := ha
  refine ⟨[], [], [], rfl, ⟨hs.key, rfl, ?_, rfl, trivial, ?_⟩, by simp,
    fun hne => absurd rfl hne, fun _ hne => absurd rfl hne⟩
  · rw [Mode.chunks_nil]
    rfl
  · show ChunkState.Absorbed m 0 [] (h.chunk.reset h.key 0)
    rw [hs.key]
    exact ChunkState.Absorbed.reset hs.chunk.flags 0

/-- From the loop on, with no bytes in the chunk state. -/
theorem updateRest_spec (hh : Holds m full [] ts h) (hne : input ≠ [])
    (hlt : full.length + input.length < 2 ^ 64) :
    ∃ h', h.updateRest p input = some h' ∧ Absorbed m (full ++ input) h' := by
  obtain ⟨piece, rest, ts', h', rfl, hshort, hh', hloop, htwo⟩ := updateLoop_spec (p := p) hh hlt
  rw [List.length_append] at hlt
  have hlen := hh'.length
  rw [List.length_append] at hlen
  by_cases hnil : rest = []
  · refine ⟨h', ?_, full ++ piece, rest, ts', List.append_assoc _ _ _, hnil ▸ hh', hshort,
      fun hne' => absurd hnil hne', fun _ _ => htwo hnil (.inl hne)⟩
    simp only [updateRest, hloop, Option.bind_eq_bind, Option.bind_some]
    rw [if_neg (by simp [hnil])]
  · have hpos := List.length_pos_iff.mpr hnil
    have hchunk := hh'.chunk.update (p := p) rest
    rw [List.nil_append] at hchunk
    obtain ⟨ts₂, hmerged, hleaves, hmerge⟩ := mergeCvStack_spec (p := p) (m := m)
      (h := { h' with chunk := h'.chunk.update p rest }) hh'.key hchunk.flags hh'.stack hh'.pending
      (by omega)
    refine ⟨{ h' with chunk := h'.chunk.update p rest, cvStack := entries m.join Output.cv ts₂ }, ?_,
      full ++ piece, rest, ts₂, List.append_assoc _ _ _,
      ⟨hh'.key, by rw [hleaves]; exact hh'.length, hleaves.trans hh'.leaves, rfl, hmerged.pending,
        by rw [hleaves]; exact hchunk⟩, hshort, fun _ => hmerged, fun h0 => absurd h0 hnil⟩
    simp only [updateRest, hloop, Option.bind_eq_bind, Option.bind_some]
    rw [if_pos hpos, hchunk.chunkCounter]
    exact hmerge

/-- A chunk that `piece` fills goes on the stack, and the next one is begun. -/
theorem Holds.fill {piece : List UInt8} (hh : Holds m full rest ts h)
    (hfill : (rest ++ piece).length = 1024) (hlt : (stackLeaves ts).length < 2 ^ 54) :
    ∃ ts' h', { h with chunk := h.chunk.update p piece }.pushCv p
        (outputChainingValue p (h.chunk.update p piece).output)
        (h.chunk.update p piece).chunkCounter = some h' ∧
      Holds m (full ++ (rest ++ piece)) [] ts'
        { h' with chunk := h'.chunk.reset h'.key (h'.chunk.chunkCounter + 1) } := by
  have hchunk := hh.chunk.update (p := p) piece
  have hone := Mode.chunks_of_short m (UInt64.ofNat (stackLeaves ts).length)
    (List.length_pos_iff.mp (by omega)) (Nat.le_of_eq hfill)
  generalize hleaf : m.chunk (UInt64.ofNat (stackLeaves ts).length) (rest ++ piece) = o at hone
  have hcv : outputChainingValue p (h.chunk.update p piece).output = o.cv := by
    rw [outputChainingValue_eq, hchunk.output, hleaf]
  obtain ⟨ts', hmerged, hleaves, hpush⟩ := pushCv_spec (p := p) (m := m)
    (h := { h with chunk := h.chunk.update p piece }) hh.key hchunk.flags hh.stack hh.pending hlt
    o.cv
  have hcount : (stackLeaves (⟨0, [o], rfl⟩ :: ts')).length = (stackLeaves ts).length + 1 := by
    rw [stackLeaves_cons, hleaves, List.length_append]
    rfl
  rw [hcv, hchunk.chunkCounter]
  refine ⟨⟨0, [o], rfl⟩ :: ts', _, hpush, hh.key, ?_, ?_, ?_, hmerged.push (Nat.one_dvd _), ?_⟩
  · rw [List.length_append, hfill, hcount, hh.length]
    omega
  · rw [stackLeaves_cons, hleaves, Mode.chunks_append m 0 hh.length, UInt64.zero_add, hone,
      hh.leaves]
  · rw [entries_cons, root_singleton]
  · have hcounter : (h.chunk.update p piece).chunkCounter + 1 =
        UInt64.ofNat (stackLeaves (⟨0, [o], rfl⟩ :: ts')).length := by
      rw [hchunk.chunkCounter, hcount, UInt64.ofNat_add]
      rfl
    rw [hcounter, hh.key]
    exact ChunkState.Absorbed.reset hchunk.flags _

/-- Input that more than fills the chunk. -/
theorem Settled.update_full (hs : Settled m full rest ts h) (hrest : rest ≠ [])
    (hmore : 1024 < rest.length + input.length)
    (hlt : full.length + rest.length + input.length < 2 ^ 64) :
    ∃ h', h.update p input = some h' ∧ Absorbed m (full ++ rest ++ input) h' := by
  have hlen := hs.chunk.len
  have hpos := List.length_pos_iff.mpr hrest
  have hshort := hs.short
  have hwhole := hs.length
  have hfill : (rest ++ input.take (1024 - rest.length)).length = 1024 := by
    rw [List.length_append, List.length_take]
    omega
  have hdrop : 0 < (input.drop (1024 - rest.length)).length := by
    rw [List.length_drop]
    omega
  obtain ⟨ts₁, h₁, hpush, hnext⟩ := hs.toHolds.fill (p := p) hfill (by omega)
  obtain ⟨h', hupdate, habsorbed⟩ := updateRest_spec (p := p) hnext (List.length_pos_iff.mp hdrop)
    (by rw [List.length_append, hfill, List.length_drop]; omega)
  refine ⟨h', ?_, ?_⟩
  · -- the chunk takes what it has room for, and the rest goes on to the loop
    have htake : (if 1024 - rest.length > input.length then input.length
        else 1024 - rest.length) = 1024 - rest.length := if_neg (by omega)
    rw [Hasher.update, if_neg (by omega), if_pos (by rw [hlen]; exact hpos)]
    simp only [hlen, htake]
    rw [if_pos hdrop]
    simp only [hpush, Option.bind_eq_bind, Option.bind_some]
    exact hupdate
  · rwa [List.append_assoc, List.append_assoc, List.take_append_drop, ← List.append_assoc]
      at habsorbed

/-- Input that the chunk has room for. -/
theorem Settled.update_short (hs : Settled m full rest ts h) (hrest : rest ≠ [])
    (hfew : rest.length + input.length ≤ 1024) (hnone : input ≠ []) :
    ∃ h', h.update p input = some h' ∧ Absorbed m (full ++ rest ++ input) h' := by
  have hlen := hs.chunk.len
  have hpos := List.length_pos_iff.mpr hrest
  have hin := List.length_pos_iff.mpr hnone
  have hchunk := hs.chunk.update (p := p) input
  refine ⟨{ h with chunk := h.chunk.update p input }, ?_, full, rest ++ input, ts,
    (List.append_assoc _ _ _).symm, ⟨hs.key, hs.length, hs.leaves, hs.stack, hs.pending, hchunk⟩,
    by rw [List.length_append]; omega, fun _ => hs.merged hrest, fun h0 => ?_⟩
  · have hall : input.take (if 1024 - rest.length > input.length then input.length
        else 1024 - rest.length) = input := by
      refine List.take_of_length_le ?_
      split <;> omega
    have hnil : input.drop (if 1024 - rest.length > input.length then input.length
        else 1024 - rest.length) = [] := by
      refine List.drop_eq_nil_of_le ?_
      split <;> omega
    rw [Hasher.update, if_neg (by omega), if_pos (by rw [hlen]; exact hpos)]
    simp only [hlen]
    rw [hall, hnil, if_neg (by simp)]
  · exact absurd (List.append_eq_nil_iff.mp h0).2 hnone

/-- **`update`**: the input so far gets longer, whatever the pieces are. -/
theorem Absorbed.update {seen : List UInt8} (ha : Absorbed m seen h)
    (hlt : seen.length + input.length < 2 ^ 64) :
    ∃ h', h.update p input = some h' ∧ Absorbed m (seen ++ input) h' := by
  by_cases hnone : input = []
  · subst hnone
    exact ⟨h, by simp [Hasher.update], by rwa [List.append_nil]⟩
  obtain ⟨full, rest, ts, rfl, hs⟩ := ha
  have hpos := List.length_pos_iff.mpr hnone
  have hlen := hs.chunk.len
  rw [List.length_append] at hlt
  by_cases hempty : rest = []
  · -- the chunk state holds nothing
    subst hempty
    obtain ⟨h', hupdate, habsorbed⟩ := updateRest_spec (p := p) hs.toHolds hnone (by omega)
    refine ⟨h', ?_, by rwa [List.append_nil]⟩
    rw [Hasher.update, if_neg (by omega), if_neg (by rw [hlen]; simp), hupdate]
  · -- it holds some bytes, which the input may or may not complete to a chunk
    by_cases hmore : 1024 < rest.length + input.length
    · exact hs.update_full hempty hmore hlt
    · exact hs.update_short hempty (by omega) hnone

end Hasher
end Blake3
end Fredlib
