/-
  Fredlib.Hash.Blake3.Compress

  The compression function of hashes/b3/blake3_portable.c, and the words and flags
  of hashes/b3/blake3_impl.h.

  A pointer with a length is the list of the bytes it spans; a block is 64 bytes, a
  chaining value eight words or their 32 bytes.
-/

import Mathlib.Data.Vector.Basic
import Mathlib.Data.List.Basic
import Mathlib.Data.List.TakeDrop

namespace Fredlib
namespace Blake3

-- ============================================================================
-- Constants
-- ============================================================================

def CHUNK_START : UInt8 := (1 : UInt8) <<< 0
def CHUNK_END : UInt8 := (1 : UInt8) <<< 1
def PARENT : UInt8 := (1 : UInt8) <<< 2
def ROOT : UInt8 := (1 : UInt8) <<< 3
def KEYED_HASH : UInt8 := (1 : UInt8) <<< 4
def DERIVE_KEY_CONTEXT : UInt8 := (1 : UInt8) <<< 5
def DERIVE_KEY_MATERIAL : UInt8 := (1 : UInt8) <<< 6

/-- `IV` -/
def IV : Vector UInt32 8 :=
  #v[0x6A09E667, 0xBB67AE85, 0x3C6EF372, 0xA54FF53A, 0x510E527F, 0x9B05688C, 0x1F83D9AB, 0x5BE0CD19]

/-- `MSG_SCHEDULE` -/
def MSG_SCHEDULE : Vector (Vector (Fin 16) 16) 7 := #v[
  #v[0, 1, 2, 3, 4, 5, 6, 7, 8, 9, 10, 11, 12, 13, 14, 15],
  #v[2, 6, 3, 10, 7, 0, 4, 13, 1, 11, 12, 5, 9, 14, 15, 8],
  #v[3, 4, 10, 12, 13, 2, 7, 14, 6, 5, 9, 0, 11, 15, 8, 1],
  #v[10, 7, 12, 9, 14, 3, 13, 15, 4, 0, 11, 2, 5, 8, 1, 6],
  #v[12, 13, 9, 11, 15, 10, 14, 8, 7, 2, 5, 3, 0, 1, 6, 4],
  #v[9, 14, 11, 5, 8, 12, 15, 1, 13, 3, 0, 10, 2, 6, 4, 7],
  #v[11, 15, 5, 0, 1, 9, 8, 6, 14, 10, 2, 12, 3, 4, 7, 13]]

-- ============================================================================
-- Words in memory
-- ============================================================================

/-- `load32` -/
def load32 (src : List UInt8) : UInt32 :=
  (src.getD 0 0).toUInt32 <<< 0 ||| (src.getD 1 0).toUInt32 <<< 8 |||
    (src.getD 2 0).toUInt32 <<< 16 ||| (src.getD 3 0).toUInt32 <<< 24

/-- `store32` -/
def store32 (w : UInt32) : List UInt8 :=
  [(w >>> 0).toUInt8, (w >>> 8).toUInt8, (w >>> 16).toUInt8, (w >>> 24).toUInt8]

/-- `load_key_words` -/
def loadKeyWords (key : List UInt8) : Vector UInt32 8 :=
  Vector.ofFn fun i => load32 (key.drop (4 * i.1))

/-- `store_cv_words` -/
def storeCvWords (cvWords : Vector UInt32 8) : List UInt8 := cvWords.toList.flatMap store32

/-- The words of a block. -/
def blockWords (block : List UInt8) : Vector UInt32 16 :=
  Vector.ofFn fun i => load32 (block.drop (4 * i.1))

/-- `counter_low` -/
def counterLow (counter : UInt64) : UInt32 := counter.toUInt32

/-- `counter_high` -/
def counterHigh (counter : UInt64) : UInt32 := (counter >>> 32).toUInt32

-- ============================================================================
-- The rounds
-- ============================================================================

/-- `rotr32` -/
def rotr32 (w c : UInt32) : UInt32 := (w >>> c) ||| (w <<< (32 - c))

/-- `g` -/
def g (state : Vector UInt32 16) (a b c d : Fin 16) (x y : UInt32) : Vector UInt32 16 :=
  let state := state.set a (state[a] + state[b] + x)
  let state := state.set d (rotr32 (state[d] ^^^ state[a]) 16)
  let state := state.set c (state[c] + state[d])
  let state := state.set b (rotr32 (state[b] ^^^ state[c]) 12)
  let state := state.set a (state[a] + state[b] + y)
  let state := state.set d (rotr32 (state[d] ^^^ state[a]) 8)
  let state := state.set c (state[c] + state[d])
  state.set b (rotr32 (state[b] ^^^ state[c]) 7)

/-- `round_fn` -/
def roundFn (msg : Vector UInt32 16) (state : Vector UInt32 16) (round : Fin 7) :
    Vector UInt32 16 :=
  let schedule := MSG_SCHEDULE[round]
  -- the columns
  let state := g state 0 4 8 12 msg[schedule[0]] msg[schedule[1]]
  let state := g state 1 5 9 13 msg[schedule[2]] msg[schedule[3]]
  let state := g state 2 6 10 14 msg[schedule[4]] msg[schedule[5]]
  let state := g state 3 7 11 15 msg[schedule[6]] msg[schedule[7]]
  -- the rows
  let state := g state 0 5 10 15 msg[schedule[8]] msg[schedule[9]]
  let state := g state 1 6 11 12 msg[schedule[10]] msg[schedule[11]]
  let state := g state 2 7 8 13 msg[schedule[12]] msg[schedule[13]]
  g state 3 4 9 14 msg[schedule[14]] msg[schedule[15]]

/-- The seven rounds of `compress_pre`. -/
def rounds (msg : Vector UInt32 16) (state : Vector UInt32 16) : Vector UInt32 16 :=
  [0, 1, 2, 3, 4, 5, 6].foldl (roundFn msg) state

/-- `compress_pre` -/
def compressPre (cv : Vector UInt32 8) (block : List UInt8) (blockLen : UInt8) (counter : UInt64)
    (flags : UInt8) : Vector UInt32 16 :=
  rounds (blockWords block)
    #v[cv[0], cv[1], cv[2], cv[3], cv[4], cv[5], cv[6], cv[7], IV[0], IV[1], IV[2], IV[3],
      counterLow counter, counterHigh counter, blockLen.toUInt32, flags.toUInt32]

/-- The words that `blake3_compress_in_place_portable` makes of the state. -/
def halfState (state : Vector UInt32 16) : Vector UInt32 8 :=
  #v[state[0] ^^^ state[8], state[1] ^^^ state[9], state[2] ^^^ state[10], state[3] ^^^ state[11],
    state[4] ^^^ state[12], state[5] ^^^ state[13], state[6] ^^^ state[14], state[7] ^^^ state[15]]

/-- `blake3_compress_in_place_portable` -/
def compressInPlacePortable (cv : Vector UInt32 8) (block : List UInt8) (blockLen : UInt8)
    (counter : UInt64) (flags : UInt8) : Vector UInt32 8 :=
  halfState (compressPre cv block blockLen counter flags)

/-- `blake3_compress_xof_portable` -/
def compressXofPortable (cv : Vector UInt32 8) (block : List UInt8) (blockLen : UInt8)
    (counter : UInt64) (flags : UInt8) : List UInt8 :=
  let state := compressPre cv block blockLen counter flags
  [state[0] ^^^ state[8], state[1] ^^^ state[9], state[2] ^^^ state[10], state[3] ^^^ state[11],
    state[4] ^^^ state[12], state[5] ^^^ state[13], state[6] ^^^ state[14], state[7] ^^^ state[15],
    state[8] ^^^ cv[0], state[9] ^^^ cv[1], state[10] ^^^ cv[2], state[11] ^^^ cv[3],
    state[12] ^^^ cv[4], state[13] ^^^ cv[5], state[14] ^^^ cv[6],
    state[15] ^^^ cv[7]].flatMap store32

-- ============================================================================
-- Many inputs
-- ============================================================================

/-- The loop of `hash_one_portable`. -/
def hashOneLoop (counter : UInt64) (flags flagsEnd : UInt8) :
    Nat → Vector UInt32 8 → List UInt8 → UInt8 → Vector UInt32 8
  | 0, cv, _, _ => cv
  | blocks + 1, cv, input, blockFlags =>
      let blockFlags := if blocks = 0 then blockFlags ||| flagsEnd else blockFlags
      let cv := compressInPlacePortable cv (input.take 64) 64 counter blockFlags
      hashOneLoop counter flags flagsEnd blocks cv (input.drop 64) flags

/-- `hash_one_portable` -/
def hashOnePortable (input : List UInt8) (blocks : Nat) (key : Vector UInt32 8) (counter : UInt64)
    (flags flagsStart flagsEnd : UInt8) : List UInt8 :=
  storeCvWords (hashOneLoop counter flags flagsEnd blocks key input (flags ||| flagsStart))

/-- `blake3_hash_many_portable`; the result is what it writes to `out`, one chaining
    value after another. -/
def hashManyPortable (inputs : List (List UInt8)) (blocks : Nat) (key : Vector UInt32 8)
    (counter : UInt64) (incrementCounter : Bool) (flags flagsStart flagsEnd : UInt8) :
    List (List UInt8) :=
  match inputs with
  | [] => []
  | input :: inputs =>
      hashOnePortable input blocks key counter flags flagsStart flagsEnd ::
        hashManyPortable inputs blocks key (if incrementCounter then counter + 1 else counter)
          incrementCounter flags flagsStart flagsEnd

-- ============================================================================
-- Lengths
-- ============================================================================

theorem length_flatMap_store32 (ws : List UInt32) : (ws.flatMap store32).length = 4 * ws.length := by
  induction ws with
  | nil => rfl
  | cons w ws ih =>
      rw [List.flatMap_cons, List.length_append, ih, List.length_cons]
      show 4 + _ = _
      omega

@[simp] theorem length_storeCvWords (cv : Vector UInt32 8) : (storeCvWords cv).length = 32 := by
  rw [storeCvWords, length_flatMap_store32, Vector.length_toList]

@[simp] theorem length_compressXofPortable (cv : Vector UInt32 8) (block : List UInt8)
    (blockLen : UInt8) (counter : UInt64) (flags : UInt8) :
    (compressXofPortable cv block blockLen counter flags).length = 64 :=
  length_flatMap_store32 _

/-- A block is 64 bytes, whatever follows them in memory. -/
theorem blockWords_take (block : List UInt8) : blockWords (block.take 64) = blockWords block := by
  have hget : ∀ i : Fin 16, ∀ j < 4,
      ((block.take 64).drop (4 * i.1)).getD j 0 = (block.drop (4 * i.1)).getD j 0 := by
    intro i j hj
    have hi := i.isLt
    rw [List.getD_eq_getElem?_getD, List.getD_eq_getElem?_getD, List.getElem?_drop,
      List.getElem?_drop, List.getElem?_take_of_lt (by omega)]
  unfold blockWords load32
  congr 1
  funext i
  rw [hget i 0 (by decide), hget i 1 (by decide), hget i 2 (by decide), hget i 3 (by decide)]

theorem compressInPlacePortable_take (cv : Vector UInt32 8) (block : List UInt8)
    (blockLen : UInt8) (counter : UInt64) (flags : UInt8) :
    compressInPlacePortable cv (block.take 64) blockLen counter flags =
      compressInPlacePortable cv block blockLen counter flags := by
  unfold compressInPlacePortable compressPre
  rw [blockWords_take]

/-- The first half of the extended output is the chaining value. -/
theorem take_compressXofPortable (cv : Vector UInt32 8) (block : List UInt8)
    (blockLen : UInt8) (counter : UInt64) (flags : UInt8) :
    (compressXofPortable cv block blockLen counter flags).take 32 =
      storeCvWords (compressInPlacePortable cv block blockLen counter flags) := rfl

end Blake3
end Fredlib
