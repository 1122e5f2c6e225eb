/-
  Fredlib.Hash.Blake3.Tree

  What a BLAKE3 hash is: the tree over the chunks of an input, and the bytes that its
  root gives out.

  `Output` is `output_t` of hashes/b3/blake3.c, a compression that has not been done
  yet: it gives a chaining value, or as the root as many bytes as are asked for.  The
  rest of this module is the meaning of the hash, in terms of the whole input; that the
  hasher computes it is proved in the modules after this one.
-/

import Fredlib.Lib.Blocks
import Fredlib.Lib.LeftTree
import Fredlib.Hash.Blake3.Dispatch

namespace Fredlib
namespace Blake3

open Lib

-- ============================================================================
-- Compressions to be done
-- ============================================================================

/-- `output_t` -/
structure Output where
  inputCv : Vector UInt32 8
  counter : UInt64
  block : List UInt8
  blockLen : UInt8
  flags : UInt8
  deriving Inhabited

/-- `make_output` -/
def makeOutput (inputCv : Vector UInt32 8) (block : List UInt8) (blockLen : UInt8)
    (counter : UInt64) (flags : UInt8) : Output :=
  { inputCv, block, blockLen, counter, flags }

/-- `parent_output` -/
def parentOutput (block : List UInt8) (key : Vector UInt32 8) (flags : UInt8) : Output :=
  makeOutput key block 64 0 (flags ||| PARENT)

/-- `output_chaining_value` -/
def outputChainingValue (p : Platform) (self : Output) : List UInt8 :=
  storeCvWords (p.compressInPlace self.inputCv self.block self.blockLen self.counter self.flags)

/-- The chaining value of a node. -/
def Output.cv (o : Output) : List UInt8 :=
  storeCvWords (compressInPlacePortable o.inputCv o.block o.blockLen o.counter o.flags)

@[simp] theorem outputChainingValue_eq (p : Platform) (o : Output) :
    outputChainingValue p o = o.cv := by
  rw [outputChainingValue, p.compressInPlace_eq, Output.cv]

@[simp] theorem Output.length_cv (o : Output) : o.cv.length = 32 := length_storeCvWords _

/-- A block of what the root gives out. -/
def Output.rootBlock (o : Output) (counter : UInt64) : List UInt8 :=
  compressXofPortable o.inputCv o.block o.blockLen counter (o.flags ||| ROOT)

@[simp] theorem Output.length_rootBlock (o : Output) (counter : UInt64) :
    (o.rootBlock counter).length = 64 := length_compressXofPortable _ _ _ _ _

/-- The byte `i` of what the root gives out. -/
def Output.rootByte (o : Output) (i : Nat) : UInt8 :=
  (o.rootBlock (UInt64.ofNat (i / 64))).getD (i % 64) 0

-- ============================================================================
-- Chunks
-- ============================================================================

/-- The flag of the first block of a chunk. -/
def startFlag (blocksCompressed : Nat) : UInt8 := if blocksCompressed = 0 then CHUNK_START else 0

/-- A block of a chunk, other than the last, on top of those before it. -/
def blockStep (counter : UInt64) (flags : UInt8) (s : Vector UInt32 8 × Nat) (block : List UInt8) :
    Vector UInt32 8 × Nat :=
  (compressInPlacePortable s.1 block 64 counter (flags ||| startFlag s.2), s.2 + 1)

/-- A block filled up with zeros. -/
def padded (bytes : List UInt8) : List UInt8 := bytes ++ List.replicate (64 - bytes.length) 0

/-- How an input is hashed: the key and the flags of all its nodes. -/
structure Mode where
  key : Vector UInt32 8
  flags : UInt8

namespace Mode

variable (m : Mode)

/-- The blocks of a chunk but the last, and the last. -/
def blocks (counter : UInt64) (chunk : List UInt8) : (Vector UInt32 8 × Nat) × List UInt8 :=
  consumeLazy 64 (blockStep counter m.flags) (m.key, 0) chunk

/-- A chunk. -/
def chunk (counter : UInt64) (chunk : List UInt8) : Output :=
  let s := m.blocks counter chunk
  makeOutput s.1.1 (padded s.2) (UInt8.ofNat s.2.length) counter
    (m.flags ||| startFlag s.1.2 ||| CHUNK_END)

/-- The chunks of an input, the first with this counter. -/
def chunks (counter : UInt64) (input : List UInt8) : List Output :=
  if input = [] then []
  else m.chunk counter (input.take 1024) :: chunks (counter + 1) (input.drop 1024)
termination_by input.length
decreasing_by
  have hpos := List.length_pos_iff.mpr (by assumption)
  rw [List.length_drop]
  omega

-- ============================================================================
-- The tree
-- ============================================================================

/-- The parent of two nodes. -/
def join (l r : Output) : Output := parentOutput (l.cv ++ r.cv) m.key m.flags

/-- Its chaining value, from theirs. -/
def node (l r : List UInt8) : List UInt8 := (parentOutput (l ++ r) m.key m.flags).cv

/-- The root. -/
def rootOutput (input : List UInt8) : Output :=
  if input = [] then m.chunk 0 [] else root m.join (m.chunks 0 input)

/-- **The hash**: `len` bytes of what the root gives out, from the byte `seek` on. -/
def digest (input : List UInt8) (seek len : Nat) : List UInt8 :=
  (List.range len).map fun i => (m.rootOutput input).rootByte (seek + i)

variable {m} {counter : UInt64} {a b : List UInt8}

theorem cv_join (l r : Output) : (m.join l r).cv = m.node l.cv r.cv := rfl

@[simp] theorem chunks_nil : m.chunks counter [] = [] := by rw [chunks, if_pos rfl]

theorem chunks_of_ne_nil (h : a ≠ []) :
    m.chunks counter a = m.chunk counter (a.take 1024) :: m.chunks (counter + 1) (a.drop 1024) := by
  rw [chunks, if_neg h]

variable (m counter) in
theorem chunks_of_short (h : a ≠ []) (hle : a.length ≤ 1024) :
    m.chunks counter a = [m.chunk counter a] := by
  rw [chunks_of_ne_nil h, List.take_of_length_le hle, List.drop_eq_nil_of_le hle, chunks_nil]

variable (m counter) in
/-- An input may be cut between two chunks. -/
theorem chunks_append {k : Nat} (ha : a.length = 1024 * k) (b : List UInt8) :
    m.chunks counter (a ++ b) = m.chunks counter a ++ m.chunks (counter + UInt64.ofNat k) b := by
  induction k generalizing a counter with
  | zero =>
      rw [List.length_eq_zero_iff.mp ha, chunks_nil]
      simp
  | succ k ih =>
      have hne : a ≠ [] := List.length_pos_iff.mp (by omega)
      have hcut : 1024 ≤ a.length := by omega
      have hdrop : (a.drop 1024).length = 1024 * k := by
        rw [List.length_drop]
        omega
      have hcounter : counter + 1 + UInt64.ofNat k = counter + UInt64.ofNat (k + 1) := by
        rw [UInt64.ofNat_add, UInt64.add_assoc]
        congr 1
        exact UInt64.add_comm _ _
      rw [chunks_of_ne_nil (List.append_ne_nil_of_left_ne_nil hne b), chunks_of_ne_nil hne,
        List.take_append_of_le_length hcut, List.drop_append_of_le_length hcut, ih _ hdrop, hcounter,
        List.cons_append]

theorem length_chunks (counter : UInt64) (a : List UInt8) :
    (m.chunks counter a).length = (a.length + 1023) / 1024 := by
  induction counter, a using chunks.induct with
  | case1 counter => rw [chunks_nil]; simp
  | case2 counter a h ih =>
      have hpos := List.length_pos_iff.mpr h
      rw [chunks_of_ne_nil h, List.length_cons, ih, List.length_drop]
      omega

variable (m counter) in
theorem chunks_ne_nil (h : a ≠ []) : m.chunks counter a ≠ [] := by
  rw [chunks_of_ne_nil h]
  exact List.cons_ne_nil _ _

@[simp] theorem length_digest (input : List UInt8) (seek len : Nat) :
    (m.digest input seek len).length = len := by
  simp [digest]

/-- The bytes asked for may be asked for in pieces. -/
theorem digest_add (input : List UInt8) (seek len len' : Nat) :
    m.digest input seek (len + len') =
      m.digest input seek len ++ m.digest input (seek + len) len' := by
  simp [digest, List.range_add, Nat.add_assoc]

/-- A shorter digest is a prefix. -/
theorem digest_take (input : List UInt8) (seek : Nat) {len len' : Nat} (h : len ≤ len') :
    (m.digest input seek len').take len = m.digest input seek len := by
  obtain ⟨k, rfl⟩ := Nat.exists_eq_add_of_le h
  rw [digest_add, List.take_append_of_le_length (by simp), List.take_of_length_le (by simp)]

end Mode
end Blake3
end Fredlib
