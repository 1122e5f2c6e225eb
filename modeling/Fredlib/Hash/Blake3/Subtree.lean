/-
  Fredlib.Hash.Blake3.Subtree

  The recursion of hashes/b3/blake3.c over a subtree, several nodes at a time.

  `blake3_compress_subtree_wide` gives up to as many chaining values as the processor can
  compute at once, and its callers combine them.  Which layer of the tree they come
  from differs from one processor to the next, and on the right edge from one value to
  the next; that the tree can be finished from them does not
  (`compressSubtreeWide_spec`).

  Chaining values are written into arrays on the stack: `none` is a write outside, a
  value read that was not written, or an assertion that fails.
-/

import Fredlib.Hash.Blake3.ChunkState

namespace Fredlib
namespace Blake3

open Lib

-- ============================================================================
-- Arrays
-- ============================================================================

/-- Write chaining values into an array, from the place `at` on. -/
def storeCvs (array : List (List UInt8)) (offset : Nat) (cvs : List (List UInt8)) :
    Option (List (List UInt8)) :=
  if offset + cvs.length ≤ array.length then
    some (array.take offset ++ cvs ++ array.drop (offset + cvs.length))
  else none

/-- `highest_one` -/
def highestOne (x : Nat) : Nat := Nat.log2 x

/-- `round_down_to_power_of_2` -/
def roundDownToPowerOf2 (x : Nat) : Nat := 1 <<< highestOne (x ||| 1)

/-- `left_len` -/
def leftLen (contentLen : Nat) : Nat :=
  let fullChunks := (contentLen - 1) / 1024
  roundDownToPowerOf2 fullChunks * 1024

-- ============================================================================
-- Chunks and parents side by side
-- ============================================================================

/-- The whole chunks, `chunks_array`, and the bytes after them. -/
def chunksArray (input : List UInt8) : List (List UInt8) × List UInt8 :=
  if 1024 ≤ input.length then
    let r := chunksArray (input.drop 1024)
    (input.take 1024 :: r.1, r.2)
  else ([], input)
termination_by input.length
decreasing_by
  rw [List.length_drop]
  omega

/-- `compress_chunks_parallel`; the result is what it writes to `out`. -/
def compressChunksParallel (p : Platform) (key : Vector UInt32 8) (flags : UInt8)
    (input : List UInt8) (chunkCounter : UInt64) : Option (List (List UInt8)) :=
  let (array, rest) := chunksArray input
  if array.length > Platform.maxSimdDegree then none
  else
    let out := p.hashMany array (1024 / 64) key chunkCounter true flags CHUNK_START CHUNK_END
    if rest.length > 0 then
      let counter := chunkCounter + UInt64.ofNat array.length
      let chunkState := { ChunkState.init key flags with chunkCounter := counter }
      some (out ++ [outputChainingValue p (chunkState.update p rest).output])
    else some out

/-- The pairs, `parents_array`, and a chaining value that is left over. -/
def parentsArray : List (List UInt8) → List (List UInt8) × List (List UInt8)
  | l :: r :: cvs => ((l ++ r) :: (parentsArray cvs).1, (parentsArray cvs).2)
  | cvs => ([], cvs)

/-- `compress_parents_parallel`; the result is what it writes to `out`. -/
def compressParentsParallel (p : Platform) (key : Vector UInt32 8) (flags : UInt8)
    (childChainingValues : List (List UInt8)) : Option (List (List UInt8)) :=
  let (array, rest) := parentsArray childChainingValues
  if array.length > Platform.maxSimdDegree then none
  else some (p.hashMany array 1 key 0 false (flags ||| PARENT) 0 0 ++ rest)

-- ============================================================================
-- The recursion
-- ============================================================================

theorem roundDownToPowerOf2_eq (x : Nat) : roundDownToPowerOf2 x = 2 ^ Nat.log2 (x ||| 1) := by
  rw [roundDownToPowerOf2, highestOne, Nat.shiftLeft_eq, Nat.one_mul]

theorem leftLen_pos (n : Nat) : 0 < leftLen n := by
  have hpos := Nat.two_pow_pos (Nat.log2 ((n - 1) / 1024 ||| 1))
  simp only [leftLen, roundDownToPowerOf2_eq]
  omega

/-- `1` is or-ed so that the number is not 0. -/
theorem roundDownToPowerOf2_of_pos {x : Nat} (h : 0 < x) : roundDownToPowerOf2 x = 2 ^ Nat.log2
    x := by
  have hlog : Nat.log2 (x ||| 1) = Nat.log2 x := by
    have hle := Nat.log2_self_le (show x ≠ 0 by omega)
    have hlt := Nat.lt_log2_self (n := x)
    have hor : x ≤ x ||| 1 := Nat.left_le_or
    have hone : 1 < 2 ^ (Nat.log2 x + 1) := Nat.one_lt_two_pow (by omega)
    exact (Nat.log2_eq_iff (by omega)).mpr ⟨by omega, Nat.or_lt_two_pow hlt hone⟩
  rw [roundDownToPowerOf2_eq, hlog]

/-- The left subtree takes as many chunks as a tree over `n` leaves splits off. -/
theorem leftLen_eq {len : Nat} (h : 1024 < len) :
    leftLen len = split ((len + 1023) / 1024) * 1024 := by
  have hchunks : (len - 1) / 1024 = (len + 1023) / 1024 - 1 := by omega
  rw [leftLen, roundDownToPowerOf2_of_pos (by omega), hchunks, split]

theorem leftLen_lt {len : Nat} (h : 1024 < len) : leftLen len < len := by
  have hlt := split_lt (show 2 ≤ (len + 1023) / 1024 by omega)
  rw [leftLen_eq h]
  omega

/-- `blake3_compress_subtree_wide`; the result is what it writes to `out`. -/
def compressSubtreeWide (p : Platform) (key : Vector UInt32 8) (flags : UInt8)
    (input : List UInt8) (chunkCounter : UInt64) : Option (List (List UInt8)) :=
  if input.length ≤ p.simdDegree * 1024 then
    compressChunksParallel p key flags input chunkCounter
  else do
    let leftInputLen := leftLen input.length
    let rightChunkCounter := chunkCounter + UInt64.ofNat (leftInputLen / 1024)
    -- at least two chaining values, so that the root is not compressed here
    let degree := if leftInputLen > 1024 ∧ p.simdDegree = 1 then 2 else p.simdDegree
    let leftCvs ← compressSubtreeWide p key flags (input.take leftInputLen) chunkCounter
    let cvArray ← storeCvs p.memory.toList 0 leftCvs
    let rightCvs ← compressSubtreeWide p key flags (input.drop leftInputLen) rightChunkCounter
    let cvArray ← storeCvs cvArray degree rightCvs
    if leftCvs.length = 1 then some (cvArray.take 2)
    else compressParentsParallel p key flags (cvArray.take (leftCvs.length + rightCvs.length))
termination_by input.length
decreasing_by
  all_goals
    have hpos := p.simdDegree_pos
    have hlong : 1024 < input.length := by omega
    have hleft := leftLen_pos input.length
    have hlt := leftLen_lt hlong
    simp only [List.length_take, List.length_drop]
    omega

-- ============================================================================
-- Arrays, chunks and parents
-- ============================================================================

variable {p : Platform} {m : Mode} {input : List UInt8} {counter : UInt64}
  {cvs ds array : List (List UInt8)}

/-- Two parts written one behind the other. -/
theorem storeCvs_two (h : cvs.length + ds.length ≤ array.length) :
    ∃ rest, (storeCvs array 0 cvs).bind (fun array => storeCvs array cvs.length ds) =
      some (cvs ++ ds ++ rest) := by
  refine ⟨array.drop (cvs.length + ds.length), ?_⟩
  have hfirst : storeCvs array 0 cvs = some (cvs ++ array.drop cvs.length) := by
    rw [storeCvs, if_pos (by omega)]
    simp
  rw [hfirst, Option.bind_some, storeCvs, if_pos (by simp; omega), List.take_left,
    ← List.drop_drop, List.drop_left, List.drop_drop]

variable (m counter) in
/-- Hashed from its first block on, a whole chunk is what a chunk state makes of it. -/
theorem hashOneLoop_eq (n : Nat) (s : Vector UInt32 8 × Nat) (hlen : input.length = 64 * (n + 1)) :
    hashOneLoop counter m.flags CHUNK_END (n + 1) s.1 input (m.flags ||| startFlag s.2) =
      let r := consumeLazy 64 (blockStep counter m.flags) s input
      compressInPlacePortable r.1.1 (padded r.2) (UInt8.ofNat r.2.length) counter
        (m.flags ||| startFlag r.1.2 ||| CHUNK_END) := by
  induction n generalizing s input with
  | zero =>
      rw [consumeLazy_of_short (by omega), hashOneLoop, hashOneLoop, if_pos rfl,
        List.take_of_length_le (by omega)]
      simp only [ChunkState.padded_of_full (show input.length = 64 by omega), hlen]
      rfl
  | succ n ih =>
      have hdrop : (input.drop 64).length = 64 * (n + 1) := by
        rw [List.length_drop]
        omega
      have hnext : m.flags ||| startFlag (blockStep counter m.flags s (input.take 64)).2 =
        m.flags := by
        simp [blockStep, startFlag]
      have hloop := ih (blockStep counter m.flags s (input.take 64)) hdrop
      rw [hnext] at hloop
      rw [consumeLazy_of_block (by decide) (by omega), hashOneLoop, if_neg (by omega), ← hloop]
      rfl

theorem hashOnePortable_chunk (h : input.length = 1024) :
    hashOnePortable input (1024 / 64) m.key counter m.flags CHUNK_START CHUNK_END =
      (m.chunk counter input).cv := by
  have hloop := hashOneLoop_eq m counter 15 (m.key, 0) h
  show storeCvWords (hashOneLoop counter m.flags CHUNK_END 16 m.key input
    (m.flags ||| CHUNK_START)) = _
  exact congrArg storeCvWords hloop

theorem hashOnePortable_parent (l r : List UInt8) :
    hashOnePortable (l ++ r) 1 m.key 0 (m.flags ||| PARENT) 0 0 = m.node l r := by
  show storeCvWords (compressInPlacePortable m.key ((l ++ r).take 64) 64 0
    (m.flags ||| PARENT ||| 0 ||| 0)) = _
  rw [compressInPlacePortable_take, UInt8.or_zero, UInt8.or_zero]
  rfl

/-- The chunks one by one. -/
theorem hashManyPortable_chunks (counter : UInt64) (input : List UInt8) :
    hashManyPortable (chunksArray input).1 (1024 / 64) m.key counter true m.flags CHUNK_START
        CHUNK_END ++
      (m.chunks (counter + UInt64.ofNat (chunksArray input).1.length) (chunksArray input).2).map
        Output.cv = (m.chunks counter input).map Output.cv := by
  induction input using chunksArray.induct generalizing counter with
  | case1 input h ih =>
      have hne : input ≠ [] := List.length_pos_iff.mp (by omega)
      have hcounter : ∀ n, counter + 1 + UInt64.ofNat n = counter + UInt64.ofNat (n + 1) := by
        intro n
        rw [UInt64.ofNat_add, UInt64.add_assoc]
        congr 1
        exact UInt64.add_comm _ _
      rw [chunksArray, if_pos h, Mode.chunks_of_ne_nil hne, List.map_cons, ← ih,
        hashManyPortable, hashOnePortable_chunk (List.length_take_of_le h), if_pos rfl, hcounter]
      rfl
  | case2 input h =>
      rw [chunksArray, if_neg h]
      simp [hashManyPortable]

theorem chunksArray_length (input : List UInt8) :
    (chunksArray input).1.length = input.length / 1024 ∧
      (chunksArray input).2.length = input.length % 1024 := by
  induction input using chunksArray.induct with
  | case1 input h ih =>
      rw [List.length_drop] at ih
      rw [chunksArray, if_pos h]
      simp only [List.length_cons]
      omega
  | case2 input h =>
      rw [chunksArray, if_neg h]
      simp only [List.length_nil]
      omega

theorem compressChunksParallel_eq (h : input.length ≤ 16 * 1024) :
    compressChunksParallel p m.key m.flags input counter =
      some ((m.chunks counter input).map Output.cv) := by
  obtain ⟨harray, hrest⟩ := chunksArray_length input
  have hall := hashManyPortable_chunks (m := m) counter input
  have hcount : ¬ (chunksArray input).1.length > Platform.maxSimdDegree := by
    rw [harray, Platform.maxSimdDegree]
    omega
  simp only [compressChunksParallel]
  rw [if_neg hcount, p.hashMany_eq]
  -- the last chunk may be a partial one, which is hashed by itself
  by_cases hempty : (chunksArray input).2 = []
  · rw [hempty, Mode.chunks_nil, List.map_nil, List.append_nil] at hall
    rw [if_neg (by simp [hempty]), hall]
  · have hpos := List.length_pos_iff.mpr hempty
    have hone := Mode.chunks_of_short m (counter + UInt64.ofNat (chunksArray input).1.length) hempty
      (by omega)
    rw [hone] at hall
    rw [if_pos hpos, ← hall]
    have hchunk := (ChunkState.Absorbed.fresh m
      (counter + UInt64.ofNat (chunksArray input).1.length)).update (p := p) (chunksArray input).2
    rw [List.nil_append] at hchunk
    have hout := hchunk.output
    rw [outputChainingValue_eq]
    exact congrArg (fun o : Output => some (_ ++ [o.cv])) hout

theorem hashManyPortable_parents (cvs : List (List UInt8)) :
    hashManyPortable (parentsArray cvs).1 1 m.key 0 false (m.flags ||| PARENT) 0 0 ++
      (parentsArray cvs).2 = pairUp m.node cvs := by
  induction cvs using pairUp.induct with
  | case1 l r cvs ih =>
      rw [parentsArray, hashManyPortable, hashOnePortable_parent, pairUp, ← ih]
      rfl
  | case2 cvs h =>
      rcases cvs with _ | ⟨l, _ | ⟨r, cvs⟩⟩
      · rfl
      · rfl
      · exact absurd rfl (h l r cvs)

theorem parentsArray_length (cvs : List (List UInt8)) :
    (parentsArray cvs).1.length = cvs.length / 2 := by
  induction cvs using pairUp.induct with
  | case1 l r cvs ih =>
      simp only [parentsArray, List.length_cons, ih]
      omega
  | case2 cvs h =>
      rcases cvs with _ | ⟨l, _ | ⟨r, cvs⟩⟩
      · simp [parentsArray]
      · simp [parentsArray]
      · exact absurd rfl (h l r cvs)

variable (p m) in
theorem compressParentsParallel_eq (h : cvs.length ≤ 2 * 16) :
    compressParentsParallel p m.key m.flags cvs = some (pairUp m.node cvs) := by
  have hcount : ¬ (parentsArray cvs).1.length > Platform.maxSimdDegree := by
    rw [parentsArray_length, Platform.maxSimdDegree]
    omega
  simp only [compressParentsParallel]
  rw [if_neg hcount, p.hashMany_eq, hashManyPortable_parents]

-- ============================================================================
-- A subtree
-- ============================================================================

/-- The most chaining values a subtree is left at. -/
def width (p : Platform) : Nat := max p.simdDegree 2

theorem width_cases (p : Platform) :
    ∃ j, width p = 2 ^ (j + 1) ∧ width p ≤ 16 ∧
      (p.simdDegree = 1 ∧ width p = 2 ∨ 1 < p.simdDegree ∧ width p = p.simdDegree) := by
  rcases p.simdDegree_cases with h | h | h | h <;> rw [width, h]
  · exact ⟨0, by decide, by decide, .inl ⟨rfl, rfl⟩⟩
  · exact ⟨1, by decide, by decide, .inr ⟨by decide, rfl⟩⟩
  · exact ⟨2, by decide, by decide, .inr ⟨by decide, rfl⟩⟩
  · exact ⟨3, by decide, by decide, .inr ⟨by decide, rfl⟩⟩

/-- How many chaining values a subtree of `n` chunks is left at. -/
structure Width (p : Platform) (n : Nat) (k : Nat) : Prop where
  le : k ≤ width p
  small : n ≤ width p → k = n
  full : ∀ h, n = 2 ^ h → width p ≤ n → k = width p
  two : 2 ≤ n → 2 ≤ k

/-- A subtree of so many chunks that all can be computed at once. -/
theorem Width.chunks {n : Nat} (h : n ≤ p.simdDegree) : Width p n n := by
  have hle : p.simdDegree ≤ width p := Nat.le_max_left _ _
  exact ⟨Nat.le_trans h hle, fun _ => rfl, fun _ _ _ => by omega, id⟩

theorem Width.pos {n k : Nat} (h : Width p n k) (hn : 1 ≤ n) : 1 ≤ k := by
  by_cases hsmall : n ≤ width p
  · have hk := h.small hsmall
    omega
  · have htwo : 2 ≤ width p := Nat.le_max_right _ _
    have hk := h.two (by omega)
    omega

/-- The parents of a full left subtree's chaining values and a right subtree's. -/
theorem Width.parents {n h k : Nat} (hn : 2 ^ h < n)
    (hle : n ≤ 2 * 2 ^ h) (hleft : width p ≤ 2 ^ h) (hright : Width p (n - 2 ^ h) k) :
    Width p n ((width p + k + 1) / 2) := by
  obtain ⟨j, hj, -, -⟩ := width_cases p
  have hjpos := Nat.two_pow_pos j
  rw [Nat.pow_succ] at hj
  have hk := hright.le
  have hkpos := hright.pos (by omega)
  refine ⟨by omega, fun hsmall => by omega, fun h' hn' _ => ?_, fun _ => by omega⟩
  -- a power of two above `2 ^ h` and at most twice it
  have hlt : h < h' := (Nat.pow_lt_pow_iff_right (by decide)).mp (hn' ▸ hn)
  have hpow := Nat.pow_le_pow_right (show 0 < 2 by decide) hlt
  rw [Nat.pow_succ] at hpow
  have hkeq := hright.full h (by omega) (by omega)
  omega

/-- How many chunks so many bytes are. -/
def chunkCount (len : Nat) : Nat := (len + 1023) / 1024

/-- `input` is cut where the tree over its chunks splits: `a` and `b` are the inputs of the
    two subtrees, the left one over `2 ^ k` chunks. -/
structure Parts (input a b : List UInt8) (k : Nat) : Prop where
  append : a ++ b = input
  left : a.length = 1024 * 2 ^ k
  right : b.length = input.length - 1024 * 2 ^ k
  lt : 2 ^ k < chunkCount input.length
  le : chunkCount input.length ≤ 2 * 2 ^ k

theorem parts_of_long (h : 1024 < input.length) :
    ∃ k, leftLen input.length = 1024 * 2 ^ k ∧
      Parts input (input.take (leftLen input.length)) (input.drop (leftLen input.length)) k := by
  have hlt := split_lt (show 2 ≤ chunkCount input.length by rw [chunkCount]; omega)
  have hle := le_two_mul_split (chunkCount input.length)
  have hleft : leftLen input.length = 1024 * 2 ^ Nat.log2 (chunkCount input.length - 1) := by
    rw [leftLen_eq h, Nat.mul_comm]
    rfl
  have hlen := leftLen_lt h
  refine ⟨_, hleft, List.take_append_drop _ _, ?_, ?_, hlt, hle⟩
  · rw [← hleft, List.length_take_of_le (Nat.le_of_lt hlen)]
  · rw [← hleft, List.length_drop]

namespace Parts

variable {a b : List UInt8} {k : Nat}

theorem left_ne (h : Parts input a b k) : a ≠ [] := by
  have hpos := Nat.two_pow_pos k
  have hleft := h.left
  exact List.length_pos_iff.mp (by omega)

theorem right_ne (h : Parts input a b k) : b ≠ [] := by
  have hright := h.right
  have hlt := h.lt
  rw [chunkCount] at hlt
  exact List.length_pos_iff.mp (by omega)

theorem count_left (h : Parts input a b k) : chunkCount a.length = 2 ^ k := by
  rw [chunkCount, h.left]
  omega

theorem count_right (h : Parts input a b k) :
    chunkCount b.length = chunkCount input.length - 2 ^ k := by
  have hlt := h.lt
  rw [chunkCount] at hlt
  rw [chunkCount, chunkCount, h.right]
  omega

/-- Layers of the two parts, side by side. -/
theorem layer (h : Parts input a b k) {j : Nat} (hcs : cvs.length = 2 ^ j) (hds : ds ≠ [])
    (hle : ds.length ≤ 2 ^ j) (hc : Layer m.node cvs ((m.chunks counter a).map Output.cv))
    (hd : Layer m.node ds
      ((m.chunks (counter + UInt64.ofNat (2 ^ k)) b).map Output.cv)) :
    Layer m.node (cvs ++ ds) ((m.chunks counter input).map Output.cv) := by
  have hcountb := h.count_right
  have hhalf := h.le
  rw [← h.append, Mode.chunks_append m counter h.left, List.map_append]
  refine hc.append (k := k) hd hcs hds hle ?_ ?_ ?_
  · rw [List.length_map, Mode.length_chunks]
    exact h.count_left
  · simpa using Mode.chunks_ne_nil m _ h.right_ne
  · rw [List.length_map, Mode.length_chunks]
    show chunkCount b.length ≤ 2 ^ k
    omega

end Parts

/-- The two halves of the recursion, where the left one fills its part of `cv_array`. -/
theorem compressSubtreeWide_of_parts (hlong : p.simdDegree * 1024 < input.length)
    (hcvs : compressSubtreeWide p m.key m.flags (input.take (leftLen input.length)) counter =
      some cvs)
    (hds : compressSubtreeWide p m.key m.flags (input.drop (leftLen input.length))
      (counter + UInt64.ofNat (leftLen input.length / 1024)) = some ds)
    (hdegree : (if leftLen input.length > 1024 ∧ p.simdDegree = 1 then 2 else p.simdDegree) =
      cvs.length)
    (hfit : cvs.length + ds.length ≤ 32) :
    ∃ rest, compressSubtreeWide p m.key m.flags input counter =
      if cvs.length = 1 then some ((cvs ++ ds ++ rest).take 2)
      else compressParentsParallel p m.key m.flags (cvs ++ ds) := by
  have hroom : cvs.length + ds.length ≤ p.memory.toList.length := by rwa [Vector.length_toList]
  obtain ⟨rest, hstore⟩ := storeCvs_two hroom
  rw [Option.bind_eq_some_iff] at hstore
  obtain ⟨array, hfirst, hsecond⟩ := hstore
  refine ⟨rest, ?_⟩
  have hread : (cvs ++ ds ++ rest).take (cvs.length + ds.length) = cvs ++ ds :=
    List.take_left' (List.length_append ..)
  rw [compressSubtreeWide, if_neg (Nat.not_le.mpr hlong)]
  simp only [hcvs, hds, hdegree, Option.bind_eq_bind, Option.bind_some, hfirst, hsecond, hread]

/-- `cvs` is what the recursion gives for `input`: a layer of the tree over its chunks, as wide
    as the processor makes it. -/
structure Wide (p : Platform) (m : Mode) (counter : UInt64) (input : List UInt8)
    (cvs : List (List UInt8)) : Prop where
  result : compressSubtreeWide p m.key m.flags input counter = some cvs
  layer : Layer m.node cvs ((m.chunks counter input).map Output.cv)
  wide : Width p (chunkCount input.length) cvs.length

/-- So few chunks that they are compressed at once. -/
theorem Wide.of_short (hshort : input.length ≤ p.simdDegree * 1024) :
    Wide p m counter input ((m.chunks counter input).map Output.cv) := by
  obtain ⟨j, hj, hj16, -⟩ := width_cases p
  have hle : p.simdDegree ≤ width p := Nat.le_max_left _ _
  have hfits : input.length ≤ 16 * 1024 :=
    Nat.le_trans hshort (Nat.mul_le_mul_right _ (Nat.le_trans hle hj16))
  refine ⟨?_, .inl rfl, ?_⟩
  · rw [compressSubtreeWide, if_pos hshort]
    exact compressChunksParallel_eq hfits
  · rw [List.length_map, Mode.length_chunks]
    exact Width.chunks (by rw [chunkCount]; omega)

/-- A left half of more than one chunk is at least as long as the vectors are wide. -/
theorem width_le_left {k n : Nat} (hk : k ≠ 0) (hlt : p.simdDegree < n) (hle : n ≤ 2 * 2 ^ k) :
    width p ≤ 2 ^ k := by
  obtain ⟨j, hj, -, hcases⟩ := width_cases p
  have hpow := Nat.pow_le_pow_right (show 0 < 2 by decide) (show 1 ≤ k by omega)
  rcases hcases with ⟨-, hw⟩ | ⟨-, hw⟩
  · omega
  · have hlog : 2 ^ (j + 1) < 2 ^ (k + 1) := by
      rw [← hj, Nat.pow_succ]
      omega
    have hjk : j + 1 < k + 1 := (Nat.pow_lt_pow_iff_right (by decide)).mp hlog
    rw [hj]
    exact Nat.pow_le_pow_right (by decide) (Nat.lt_succ_iff.mp hjk)

section Halves

variable {k : Nat} (hlong : p.simdDegree * 1024 < input.length)
  (hleft : leftLen input.length = 1024 * 2 ^ k)
  (hparts : Parts input (input.take (leftLen input.length)) (input.drop (leftLen input.length)) k)
  (hc : Wide p m counter (input.take (leftLen input.length)) cvs)
  (hd : Wide p m (counter + UInt64.ofNat (leftLen input.length / 1024))
    (input.drop (leftLen input.length)) ds)

include hlong hleft hparts hc hd

/-- One chunk on each side, computed one at a time. -/
theorem Wide.of_two_chunks (hk : k = 0) : Wide p m counter input (cvs ++ ds) := by
  subst hk
  have hcw := hc.wide
  have hdw := hd.wide
  rw [hparts.count_left] at hcw
  rw [hparts.count_right] at hdw
  have hhalf := hparts.le
  have hlt := hparts.lt
  have hdegree := p.simdDegree_pos
  have hwidth : 2 ≤ width p := Nat.le_max_right _ _
  have hdl := hd.layer
  rw [show leftLen input.length / 1024 = 2 ^ 0 by omega] at hdl
  rw [Nat.pow_zero] at hleft hcw hdw hlt hhalf
  have hcount : p.simdDegree < chunkCount input.length := by
    rw [chunkCount]
    omega
  have hcone := hcw.small (by omega)
  have hdone := hdw.small (by omega)
  obtain ⟨rest, hwide⟩ := compressSubtreeWide_of_parts hlong hc.result hd.result
    (by rw [if_neg (by omega)]; omega) (by omega)
  -- the left side gave one chaining value: no parents are computed here
  rw [if_pos hcone, List.take_left' (by rw [List.length_append]; omega)] at hwide
  refine ⟨hwide, hparts.layer (j := 0) hcone (List.length_pos_iff.mp (by omega)) (by omega)
    hc.layer hdl, ?_⟩
  rw [List.length_append, hcone, hdone]
  exact ⟨by omega, fun _ => by omega, fun h hn hw => by omega, fun _ => by omega⟩

/-- Two halves, the left one with all the chaining values it can have: their parents. -/
theorem Wide.of_halves (hk : k ≠ 0) :
    Wide p m counter input (pairUp m.node (cvs ++ ds)) := by
  obtain ⟨j, hj, hj16, hcases⟩ := width_cases p
  have hcw := hc.wide
  have hdw := hd.wide
  rw [hparts.count_left] at hcw
  rw [hparts.count_right] at hdw
  have hhalf := hparts.le
  have hlt := hparts.lt
  have hcount : p.simdDegree < chunkCount input.length := by
    rw [chunkCount]
    omega
  have hwide := width_le_left hk hcount hhalf
  have hcfull := hcw.full k rfl hwide
  have hdpos := hdw.pos (by omega)
  have hdle := hdw.le
  have htwo : 2 ≤ 2 ^ k := by
    have hle : 2 ≤ width p := Nat.le_max_right _ _
    omega
  -- `degree` is the number the left half gives, so the right half follows it in `cv_array`
  have hdegree : (if leftLen input.length > 1024 ∧ p.simdDegree = 1 then 2
      else p.simdDegree) = cvs.length := by
    rcases hcases with ⟨hd, hw⟩ | ⟨hd, hw⟩
    · rw [if_pos ⟨by omega, hd⟩, hcfull, hw]
    · rw [if_neg (by omega), hcfull, hw]
  have hdl := hd.layer
  rw [show leftLen input.length / 1024 = 2 ^ k by omega] at hdl
  obtain ⟨rest, hresult⟩ := compressSubtreeWide_of_parts hlong hc.result hd.result hdegree
    (by omega)
  rw [if_neg (by omega), compressParentsParallel_eq p m (by rw [List.length_append]; omega)]
    at hresult
  have hlayer := hparts.layer (hcfull.trans hj) (List.length_pos_iff.mp hdpos)
    (by rw [← hj]; exact hdle) hc.layer hdl
  refine ⟨hresult, hlayer.pairUp (by rw [List.length_append]; omega), ?_⟩
  rw [length_pairUp, List.length_append, hcfull]
  exact Width.parents hlt hhalf hwide hdw

end Halves

/-- **The subtree**: what `blake3_compress_subtree_wide` gives is a layer of the tree over
    the chunks, on every processor; its arrays suffice, and the chaining values of the
    left and the right half are next to each other in them. -/
theorem compressSubtreeWide_spec (p : Platform) (m : Mode) (counter : UInt64)
    (input : List UInt8) (h : input ≠ []) :
    ∃ cvs, compressSubtreeWide p m.key m.flags input counter = some cvs ∧
      Layer m.node cvs ((m.chunks counter input).map Output.cv) ∧
      Width p (chunkCount input.length) cvs.length := by
  suffices hw : ∃ cvs, Wide p m counter input cvs by
    obtain ⟨cvs, hw⟩ := hw
    exact ⟨cvs, hw.result, hw.layer, hw.wide⟩
  have hdegree := p.simdDegree_pos
  induction hlen : input.length using Nat.strong_induction_on generalizing input counter with
  | _ len ih =>
      subst hlen
      by_cases hshort : input.length ≤ p.simdDegree * 1024
      · exact ⟨_, .of_short hshort⟩
      · obtain ⟨k, hleft, hparts⟩ := parts_of_long (show 1024 < input.length by omega)
        have hapos := List.length_pos_iff.mpr hparts.left_ne
        have hbpos := List.length_pos_iff.mpr hparts.right_ne
        have hsum := congrArg List.length hparts.append
        rw [List.length_append] at hsum
        obtain ⟨cvs, hc⟩ := ih _ (by omega) counter _ hparts.left_ne rfl
        obtain ⟨ds, hd⟩ := ih _ (by omega)
          (counter + UInt64.ofNat (leftLen input.length / 1024)) _ hparts.right_ne rfl
        by_cases hk : k = 0
        · exact ⟨_, .of_two_chunks (by omega) hleft hparts hc hd hk⟩
        · exact ⟨_, .of_halves (by omega) hleft hparts hc hd hk⟩

-- ============================================================================
-- The parent node
-- ============================================================================

theorem length_of_parents (h : cvs.length ≤ 2 * 16)
    (hout : compressParentsParallel p m.key m.flags cvs = some ds) :
    ds.length = (cvs.length + 1) / 2 := by
  rw [compressParentsParallel_eq p m h] at hout
  cases hout
  exact length_pairUp _ _

/-- The loop of `compress_subtree_to_parent_node`, with the bound of `out_array`. -/
def condense (p : Platform) (key : Vector UInt32 8) (flags : UInt8) (cvArray : List (List UInt8)) :
    Option (List (List UInt8)) :=
  if cvArray.length > 2 ∧ cvArray.length ≤ Platform.maxSimdDegree then
    match _hout : compressParentsParallel p key flags cvArray with
    | none => none
    | some outArray =>
        if outArray.length > Platform.maxSimdDegree / 2 then none
        else condense p key flags outArray
  else some cvArray
termination_by cvArray.length
decreasing_by
  rename_i hloop _
  have hle : cvArray.length ≤ 16 := hloop.2
  have hlen := length_of_parents (m := ⟨key, flags⟩) (by omega) _hout
  omega

/-- `compress_subtree_to_parent_node`; the result is the two halves of `out`. -/
def compressSubtreeToParentNode (p : Platform) (key : Vector UInt32 8) (flags : UInt8)
    (input : List UInt8) (chunkCounter : UInt64) : Option (List UInt8 × List UInt8) := do
  let cvArray ← compressSubtreeWide p key flags input chunkCounter
  if cvArray.length ≤ Platform.maxSimdDegree then
    match ← condense p key flags cvArray with
    | l :: r :: _ => some (l, r)
    | _ => none
  else none

/-- The loop leaves the roots of the two subtrees. -/
theorem condense_spec {l : List (List UInt8)} (h : Layer m.node cvs l) (htwo : 2 ≤ cvs.length)
    (hle : cvs.length ≤ 16) :
    condense p m.key m.flags cvs = some [(halves m.node l).1, (halves m.node l).2] := by
  induction hlen : cvs.length using Nat.strong_induction_on generalizing cvs with
  | _ len ih =>
      subst hlen
      rw [condense]
      -- a round makes parents of pairs, until two chaining values are left
      by_cases hmore : cvs.length > 2
      · have hparents := compressParentsParallel_eq p m (show cvs.length ≤ 2 * 16 by omega)
        have hlen := length_pairUp m.node cvs
        have hbound : ¬ (pairUp m.node cvs).length > Platform.maxSimdDegree / 2 := by
          rw [hlen, Platform.maxSimdDegree]
          omega
        rw [if_pos ⟨hmore, hle⟩]
        split
        · rename_i hnone
          rw [hparents] at hnone
          cases hnone
        · rename_i out hsome
          rw [hparents] at hsome
          cases hsome
          rw [if_neg hbound]
          exact ih _ (by omega) (h.pairUp hmore) (by omega) (by omega) rfl
      · rw [if_neg (by omega)]
        obtain ⟨x, y, rfl⟩ := List.length_eq_two.mp (show cvs.length = 2 by omega)
        have hhalves := h.halves
        rw [← List.singleton_append, halves_append (k := 0) rfl (List.cons_ne_nil y [])
          (Nat.le_refl 1), root_singleton, root_singleton] at hhalves
        rw [← hhalves]

/-- **The parent node** of a subtree: the roots of its two halves, on every processor. -/
theorem compressSubtreeToParentNode_spec (p : Platform) (m : Mode) (counter : UInt64)
    (input : List UInt8) (h : 1024 < input.length) :
    compressSubtreeToParentNode p m.key m.flags input counter =
      some (halves m.node ((m.chunks counter input).map Output.cv)) := by
  obtain ⟨j, -, hj16, -⟩ := width_cases p
  obtain ⟨cvs, hcvs, hlayer, hwidth⟩ :=
    compressSubtreeWide_spec p m counter input (List.length_pos_iff.mp (by omega))
  have hle := Nat.le_trans hwidth.le hj16
  have htwo := hwidth.two (by rw [chunkCount]; omega)
  have hcondense := condense_spec (p := p) hlayer htwo hle
  have hassert : cvs.length ≤ Platform.maxSimdDegree := hle
  simp only [compressSubtreeToParentNode, hcvs, Option.bind_eq_bind, Option.bind_some,
    if_pos hassert, hcondense]

/-- **Any processor**: the chaining values of a subtree are at most as many as can be computed
    at once, at least two if there is more than one chunk, and the root of the tree over
    them is that of the tree over all chunks; and the parent node of the subtree is made of the
    roots of its two halves. -/
theorem subtree_on_any_processor (p : Platform) (m : Mode) (counter : UInt64)
    (input : List UInt8) (h : input ≠ []) :
    (∃ cvs, compressSubtreeWide p m.key m.flags input counter = some cvs ∧
      cvs.length ≤ max p.simdDegree 2 ∧ (1024 < input.length → 2 ≤ cvs.length) ∧
      root m.node cvs = root m.node ((m.chunks counter input).map Output.cv)) ∧
    (1024 < input.length → compressSubtreeToParentNode p m.key m.flags input counter =
      some (halves m.node ((m.chunks counter input).map Output.cv))) := by
  obtain ⟨cvs, hcvs, hlayer, hwidth⟩ := compressSubtreeWide_spec p m counter input h
  refine ⟨⟨cvs, hcvs, hwidth.le, fun hlong => hwidth.two ?_, hlayer.root⟩,
    compressSubtreeToParentNode_spec p m counter input⟩
  rw [chunkCount]
  omega

/-- A processor with SSE2 and nothing better. -/
def Platform.sse2 : Platform :=
  { (default : Platform) with cpu := { (default : Cpu) with amd64 := true } }

/-- Seven chunks, four at once: the subtree is split, and its halves are joined by parents. -/
theorem subtree_on_any_processor_seven :
    (∃ cvs, compressSubtreeWide .sse2 IV 0 (List.replicate 7000 1) 0 = some cvs ∧
      cvs.length ≤ 4 ∧ 2 ≤ cvs.length ∧
      root (Mode.node ⟨IV, 0⟩) cvs = root (Mode.node ⟨IV, 0⟩)
        ((Mode.chunks ⟨IV, 0⟩ 0 (List.replicate 7000 1)).map Output.cv)) ∧
    compressSubtreeToParentNode .sse2 IV 0 (List.replicate 7000 1) 0 =
      some (halves (Mode.node ⟨IV, 0⟩)
        ((Mode.chunks ⟨IV, 0⟩ 0 (List.replicate 7000 1)).map Output.cv)) := by
  have hlong : 1024 < (List.replicate 7000 (1 : UInt8)).length := by
    rw [List.length_replicate]
    decide
  have hdegree : Platform.sse2.simdDegree = 4 := by decide
  obtain ⟨⟨cvs, hcvs, hmost, hleast, hroot⟩, hparent⟩ :=
    subtree_on_any_processor .sse2 ⟨IV, 0⟩ 0 (List.replicate 7000 1)
      (List.length_pos_iff.mp (Nat.lt_trans (by decide) hlong))
  rw [hdegree] at hmost
  exact ⟨⟨cvs, hcvs, hmost, hleast hlong, hroot⟩, hparent hlong⟩

end Blake3
end Fredlib
