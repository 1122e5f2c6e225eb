/-
  Fredlib.Hash.XXhash64Engine

  `XXhash64Engine` of include/hash.hpp.

  `hash` gives the input to an `XXHash64` in chunks of `update_len` bytes, which
  makes no difference (`chunked_eq_hashOnce`).  A digest of eight bytes or more
  then gets the value; a shorter one gets the front of a static variable, which
  is initialized with the value of the first call that comes there and never
  assigned again (`short_digests_iff`).

  The loop is run for a bounded number of rounds, and `none` says that it has not
  ended by then.
-/

import Fredlib.Hash.XXHash64

namespace Fredlib

open Lib

namespace XXhash64Engine

/-- `MB` of include/micros.hpp. -/
def MB : Nat := 1 <<< 20

/-- `update_len` -/
def updateLen : UInt64 := UInt64.ofNat (64 * MB)

/-- The length in the loop: `i + update_len >= len ? len - i : update_len`. -/
def chunkLen (i len : UInt64) : UInt64 := if i + updateLen ≥ len then len - i else updateLen

/-- The bytes of `input` that a call of `XXHash64::add` is given. -/
def span (input : List UInt8) (chunk : UInt64 × UInt64) : List UInt8 :=
  (input.drop chunk.1.toNat).take chunk.2.toNat

/-- The loop of `hash`, from `i` on. -/
def update (input : List UInt8) (len : UInt64) : Nat → UInt64 → XXHash64 → Option XXHash64
  | 0, _, _ => none
  | rounds + 1, i, myhash =>
      if i < len then
        update input len rounds (i + updateLen) (myhash.add (span input (i, chunkLen i len))).2
      else some myhash

/-- The chunks that the loop passes to `XXHash64::add`, each a position and a length. -/
def chunks (len : UInt64) : Nat → UInt64 → Option (List (UInt64 × UInt64))
  | 0, _ => none
  | rounds + 1, i =>
      if i < len then (chunks len rounds (i + updateLen)).map ((i, chunkLen i len) :: ·)
      else some []

/-- `hash`: what it writes from `digest` on, and the static variable `result`
    afterwards.  `buffer` is what the memory of `myhash.buffer` holds before. -/
def hash (rounds : Nat) (buffer : Vector UInt8 32) (result : Option UInt64) (input : List UInt8)
    (digestLen : UInt32) : Option (List UInt8 × Option UInt64) :=
  (update input (UInt64.ofNat input.length) rounds 0 (XXHash64.create 0 buffer)).map fun myhash =>
    if digestLen ≥ 8 then (bytes myhash.hash, result)
    else
      let value := result.getD myhash.hash
      ((bytes value).take digestLen.toNat, some value)

-- ============================================================================
-- The loop
-- ============================================================================

variable {input : List UInt8} {len i : UInt64} {rounds : Nat} {myhash : XXHash64}

/-- The loop adds its chunks, one after another. -/
theorem update_eq : update input len rounds i myhash =
    (chunks len rounds i).map fun cs => cs.foldl (fun h c => (h.add (span input c)).2) myhash := by
  induction rounds generalizing i myhash with
  | zero => rfl
  | succ rounds ih =>
      rw [update, chunks]
      by_cases hi : i < len
      · rw [if_pos hi, if_pos hi, ih, Option.map_map]
        rfl
      · rw [if_neg hi, if_neg hi]
        rfl

theorem updateLen_toNat : updateLen.toNat = 2 ^ 26 := by decide +kernel

/-- A chunk as positions in the input. -/
def place (c : UInt64 × UInt64) : Nat × Nat := (c.1.toNat, c.2.toNat)

/-- The loop ends, and its chunks cover what is left of the input. -/
theorem chunks_tile (hlen : len.toNat + 2 ^ 26 ≤ 2 ^ 64) (hi : i ≤ len)
    (hrounds : (len.toNat - i.toNat) / 2 ^ 26 + 2 ≤ rounds) :
    ∃ cs, chunks len rounds i = some cs ∧ Tiles i.toNat len.toNat (cs.map place) := by
  induction rounds generalizing i with
  | zero => omega
  | succ rounds ih =>
      have hi' : i.toNat ≤ len.toNat := UInt64.le_iff_toNat_le.mp hi
      rw [chunks]
      by_cases hlt : i < len
      · have hlt' : i.toNat < len.toNat := UInt64.lt_iff_toNat_lt.mp hlt
        have hsum : (i + updateLen).toNat = i.toNat + 2 ^ 26 := by
          rw [UInt64.toNat_add, updateLen_toNat, Nat.mod_eq_of_lt (by omega)]
        rw [if_pos hlt]
        by_cases hlast : i + updateLen ≥ len
        · -- the last chunk goes up to the end
          have hend : chunks len rounds (i + updateLen) = some [] := by
            obtain ⟨rounds, rfl⟩ : ∃ r, rounds = r + 1 := ⟨rounds - 1, by omega⟩
            rw [chunks, if_neg (UInt64.not_lt.mpr hlast)]
          have hdiff : (len - i).toNat = len.toNat - i.toNat := UInt64.toNat_sub_of_le _ _ hi
          refine ⟨[(i, chunkLen i len)], by rw [hend]; rfl, ?_⟩
          simp only [place, List.map_cons, List.map_nil, Tiles, chunkLen, if_pos hlast, hdiff]
          exact ⟨trivial, by omega, by omega, by omega⟩
        · have hle : i + updateLen ≤ len := UInt64.le_of_lt (UInt64.not_le.mp hlast)
          have hle' := UInt64.le_iff_toNat_le.mp hle
          obtain ⟨cs, hcs, htiles⟩ := ih hle (by omega)
          refine ⟨(i, chunkLen i len) :: cs, by rw [hcs]; rfl, ?_⟩
          rw [hsum] at htiles
          simp only [place, List.map_cons, Tiles, chunkLen, if_neg hlast, updateLen_toNat]
          exact ⟨trivial, by omega, by omega, htiles⟩
      · rw [if_neg hlt]
        have heq : i.toNat = len.toNat := by
          have hge := UInt64.le_iff_toNat_le.mp (UInt64.not_lt.mp hlt)
          omega
        exact ⟨[], rfl, heq⟩

-- ============================================================================
-- In one piece
-- ============================================================================

/-- What the loop has left in the hasher is what one call of `add` would have. -/
theorem update_streams (seed : UInt64) (buffer : Vector UInt8 32)
    (hlen : input.length + 2 ^ 26 ≤ 2 ^ 64) (hrounds : input.length / 2 ^ 26 + 2 ≤ rounds) :
    ∃ cs myhash, chunks (UInt64.ofNat input.length) rounds 0 = some cs ∧
      Tiles 0 input.length (cs.map place) ∧ (cs.map (span input)).flatten = input ∧
      update input (UInt64.ofNat input.length) rounds 0 (XXHash64.create seed buffer) =
        some myhash ∧ XXHash64.Streams (XXHash64.seeded seed) input myhash := by
  have hsize : (UInt64.ofNat input.length).toNat = input.length := by
    rw [UInt64.toNat_ofNat', Nat.mod_eq_of_lt (by omega)]
  have hloop : ∃ cs, chunks (UInt64.ofNat input.length) rounds 0 = some cs ∧
      Tiles (UInt64.toNat 0) (UInt64.ofNat input.length).toNat (cs.map place) :=
    chunks_tile (by omega) UInt64.zero_le (by rw [hsize]; exact hrounds)
  obtain ⟨cs, hcs, htiles⟩ := hloop
  rw [hsize] at htiles
  have hwhole : (input.drop (UInt64.toNat 0)).take (input.length - UInt64.toNat 0) = input :=
    List.take_length
  have hflat := htiles.flatten (l := input)
  have hstream := htiles.foldl (l := input) (f := fun h piece => (XXHash64.add h piece).2)
    (R := XXHash64.Streams (XXHash64.seeded seed)) (s := XXHash64.create seed buffer)
    (fun seen s i k _ hle hs => hs.add (by rw [List.length_take]; omega)) []
    (XXHash64.streams_create seed buffer)
  rw [hwhole, List.map_map] at hflat
  rw [hwhole, List.nil_append, List.foldl_map] at hstream
  exact ⟨cs, _, hcs, htiles, hflat, by rw [update_eq, hcs]; rfl, hstream⟩

/-- The value that `XXHash64` computes for an input in one piece, whatever the
    memory of its buffer holds before. -/
theorem hash_eq_hashOnce {h : XXHash64} {seed : UInt64} (buffer : Vector UInt8 32)
    (hfits : input.length + 32 ≤ 2 ^ 64) (hs : XXHash64.Streams (XXHash64.seeded seed) input h) :
    h.hash = XXHash64.hashOnce buffer input seed := by
  have honce : XXHash64.Streams (XXHash64.seeded seed) ([] ++ input)
      ((XXHash64.create seed buffer).add input).2 := (XXHash64.streams_create seed buffer).add hfits
  rw [List.nil_append] at honce
  exact hs.hash_eq honce

/-- **Chunks make no difference**: for every input and every digest of at least
    eight bytes the loop ends; its chunks are not empty and cover the input once,
    in order; and the digest gets the value that `XXHash64` computes for the input
    in one piece. -/
theorem chunked_eq_hashOnce (input : List UInt8) (hlen : input.length < 2 ^ 63)
    (digestLen : UInt32) (hdigest : 8 ≤ digestLen) (buffer buffer' : Vector UInt8 32)
    (result : Option UInt64) :
    ∃ rounds₀, ∀ rounds, rounds₀ ≤ rounds → ∃ cs,
      chunks (UInt64.ofNat input.length) rounds 0 = some cs ∧
      Tiles 0 input.length (cs.map place) ∧ (cs.map (span input)).flatten = input ∧
      (∀ h, update input (UInt64.ofNat input.length) rounds 0 h =
        some (cs.foldl (fun h c => (h.add (span input c)).2) h)) ∧
      hash rounds buffer result input digestLen =
        some (bytes (XXHash64.hashOnce buffer' input 0), result) := by
  refine ⟨input.length / 2 ^ 26 + 2, fun rounds hrounds => ?_⟩
  obtain ⟨cs, myhash, hcs, htiles, hflat, hupdate, hstream⟩ :=
    update_streams 0 buffer (by omega) hrounds
  refine ⟨cs, hcs, htiles, hflat, fun h => by rw [update_eq, hcs]; rfl, ?_⟩
  rw [hash, hupdate, Option.map_some, if_pos hdigest,
    hash_eq_hashOnce buffer' (by omega) hstream]

/-- One byte more than a chunk has: two chunks. -/
theorem chunked_eq_hashOnce_two :
    ∃ rounds, chunks 67108865 rounds 0 = some [(0, updateLen), (updateLen, 1)] ∧
      hash rounds (Vector.replicate 32 0) none (List.replicate 67108865 97) 8 =
        some (bytes (XXHash64.hashOnce (Vector.replicate 32 0) (List.replicate 67108865 97) 0),
          none) := by
  have hlen : (List.replicate 67108865 (97 : UInt8)).length < 2 ^ 63 := by
    rw [List.length_replicate]
    decide
  obtain ⟨rounds₀, h⟩ := chunked_eq_hashOnce (List.replicate 67108865 97) hlen 8 (by decide)
    (Vector.replicate 32 0) (Vector.replicate 32 0) none
  obtain ⟨cs, -, -, -, -, hhash⟩ := h (rounds₀ + 3) (Nat.le_add_right _ _)
  have hfirst : (0 : UInt64) < 67108865 := by decide
  have hsecond : 0 + updateLen < 67108865 := by decide
  have hend : ¬ 0 + updateLen + updateLen < 67108865 := by decide
  refine ⟨rounds₀ + 3, ?_, hhash⟩
  rw [chunks, if_pos hfirst, chunks, if_pos hsecond, chunks, if_neg hend]
  decide

/-- The value for "a". -/
example : bytes (XXHash64.hashOnce (Vector.replicate 32 0) [97] 0) =
    [91, 110, 140, 169, 241, 196, 78, 210] := by decide +kernel

-- ============================================================================
-- Calls one after another
-- ============================================================================

/-- A call of `hash`.  An object in memory has less than 2^63 bytes. -/
structure Call where
  input : List UInt8
  size : input.length < 2 ^ 63
  digestLen : UInt32
  buffer : Vector UInt8 32

/-- The digest is too short for the value. -/
def Call.IsShort (c : Call) : Prop := c.digestLen < 8

instance (c : Call) : Decidable c.IsShort := inferInstanceAs (Decidable (c.digestLen < 8))

/-- The value that `XXHash64` computes for the input with seed 0. -/
def Call.value (c : Call) : UInt64 := XXHash64.hashOnce (Vector.replicate 32 0) c.input 0

/-- The front of a value that a digest of this length can hold. -/
def Call.front (c : Call) (value : UInt64) : List UInt8 :=
  (bytes value).take (min 8 c.digestLen.toNat)

/-- The calls `cs` in one process: what each of them writes. -/
def hashAll (rounds : Nat) : Option UInt64 → List Call → Option (List (List UInt8))
  | _, [] => some []
  | result, c :: cs =>
      (hash rounds c.buffer result c.input c.digestLen).bind fun r =>
        (hashAll rounds r.2 cs).map (r.1 :: ·)

/-- Every call writes the front of its own value: with enough rounds for their
    loops, the calls return, and that is what they have written. -/
def EachItsOwn (cs : List Call) : Prop :=
  ∃ rounds₀, ∀ rounds, rounds₀ ≤ rounds →
    hashAll rounds none cs = some (cs.map fun c => c.front c.value)

/-- All short calls agree with the first one, as far as their digests go. -/
def ShortAgree (cs : List Call) : Prop :=
  ∀ f ∈ cs.find? (fun c => decide c.IsShort), ∀ c ∈ cs, c.IsShort → c.front f.value = c.front c.value

variable {c : Call} {cs : List Call} {result : Option UInt64}

/-- What a call writes, by the length of its digest. -/
theorem hash_spec (c : Call) (result : Option UInt64)
    (hrounds : c.input.length / 2 ^ 26 + 2 ≤ rounds) :
    hash rounds c.buffer result c.input c.digestLen =
      if c.IsShort then some (c.front (result.getD c.value), some (result.getD c.value))
      else some (c.front c.value, result) := by
  have hsize := c.size
  obtain ⟨cs, myhash, -, -, -, hupdate, hstream⟩ :=
    update_streams 0 c.buffer (by omega) hrounds
  have hvalue : myhash.hash = c.value := hash_eq_hashOnce _ (by omega) hstream
  rw [hash, hupdate, Option.map_some, hvalue]
  by_cases hshort : c.IsShort
  · have hlt : c.digestLen.toNat < 8 := UInt32.lt_iff_toNat_lt.mp hshort
    have hnot : ¬ c.digestLen ≥ 8 := UInt32.not_le.mpr hshort
    rw [if_neg hnot, if_pos hshort, Call.front, Nat.min_eq_right (by omega)]
  · have hge : c.digestLen ≥ 8 := UInt32.not_lt.mp hshort
    have hge' : 8 ≤ c.digestLen.toNat := UInt32.le_iff_toNat_le.mp hge
    rw [if_pos hge, if_neg hshort, Call.front, Nat.min_eq_left hge', List.take_of_length_le]
    rw [length_bytes]

/-- The value whose front the short calls among `cs` are given. -/
def decides (result : Option UInt64) (cs : List Call) : Option UInt64 :=
  result <|> (cs.find? (fun c => decide c.IsShort)).map Call.value

/-- What the calls write: each its own value, but the short ones the value that
    the first of them has left. -/
theorem hashAll_spec (result : Option UInt64) (cs : List Call)
    (hrounds : ∀ c ∈ cs, c.input.length / 2 ^ 26 + 2 ≤ rounds) :
    hashAll rounds result cs = some (cs.map fun c =>
      c.front (if c.IsShort then (decides result cs).getD c.value else c.value)) := by
  induction cs generalizing result with
  | nil => rfl
  | cons c cs ih =>
      have hrest := fun r => ih r fun d hd => hrounds d (List.mem_cons_of_mem _ hd)
      rw [hashAll, hash_spec c result (hrounds c (List.mem_cons_self ..))]
      by_cases hshort : c.IsShort
      · have hdecides : decides result (c :: cs) = some (result.getD c.value) := by
          cases result <;> simp [decides, hshort]
        have hkept : decides (some (result.getD c.value)) cs = some (result.getD c.value) := rfl
        rw [if_pos hshort, Option.bind_some, hrest, hkept, Option.map_some, List.map_cons,
          hdecides, if_pos hshort, Option.getD_some]
      · have hdecides : decides result (c :: cs) = decides result cs := by
          cases result <;> simp [decides, hshort]
        rw [if_neg hshort, Option.bind_some, hrest, Option.map_some, List.map_cons, hdecides,
          if_neg hshort]

theorem exists_rounds (cs : List Call) :
    ∃ rounds, ∀ c ∈ cs, c.input.length / 2 ^ 26 + 2 ≤ rounds := by
  induction cs with
  | nil => exact ⟨0, fun c hc => by cases hc⟩
  | cons c cs ih =>
      obtain ⟨rounds, hrounds⟩ := ih
      refine ⟨c.input.length / 2 ^ 26 + 2 + rounds, fun d hd => ?_⟩
      rcases List.mem_cons.mp hd with rfl | hd
      · omega
      · have hle := hrounds d hd
        omega

/-- The calls write their own values if the value kept is as good as theirs. -/
theorem map_front_eq_iff : (cs.map fun c =>
      c.front (if c.IsShort then (decides none cs).getD c.value else c.value)) =
        (cs.map fun c => c.front c.value) ↔ ShortAgree cs := by
  have hnone : decides none cs = (cs.find? (fun c => decide c.IsShort)).map Call.value := rfl
  rw [List.map_inj_left, hnone]
  constructor
  · intro h f hf c hc hshort
    have hcall := h c hc
    rw [if_pos hshort, hf, Option.map_some, Option.getD_some] at hcall
    exact hcall
  · intro h c hc
    by_cases hshort : c.IsShort
    · rw [if_pos hshort]
      cases hf : cs.find? (fun c => decide c.IsShort) with
      | none => rfl
      | some f => exact h f hf c hc hshort
    · rw [if_neg hshort]

/-- The own value's front of a shorter digest is a prefix of that of a longer one. -/
theorem front_prefix {d : Call} (hinput : c.input = d.input) (h : c.digestLen ≤ d.digestLen) :
    c.front c.value <+: d.front d.value := by
  have hvalue : c.value = d.value := by rw [Call.value, Call.value, hinput]
  have hle := UInt32.le_iff_toNat_le.mp h
  rw [hvalue]
  exact List.take_prefix_take_left (by omega)

/-- **Short digests**: in a process that makes the calls `cs` every call writes the
    front of the value of its own input if and only if all short calls agree in
    the bytes they take with the first short call.  (Where they do, the shorter
    keys of an input are prefixes of the longer ones.) -/
theorem short_digests_iff (cs : List Call) :
    (EachItsOwn cs ↔ ShortAgree cs) ∧
      ∀ c d : Call, c.input = d.input → c.digestLen ≤ d.digestLen →
        c.front c.value <+: d.front d.value := by
  refine ⟨?_, fun c d hinput hle => front_prefix hinput hle⟩
  obtain ⟨rounds₁, hrounds₁⟩ := exists_rounds cs
  rw [← map_front_eq_iff]
  constructor
  · rintro ⟨rounds₀, h⟩
    have hown := h (rounds₀ + rounds₁) (by omega)
    rw [hashAll_spec none cs fun c hc => Nat.le_trans (hrounds₁ c hc) (by omega)] at hown
    exact Option.some.inj hown
  · intro hown
    refine ⟨rounds₁, fun rounds hrounds => ?_⟩
    rw [hashAll_spec none cs fun c hc => Nat.le_trans (hrounds₁ c hc) hrounds, hown]

/-- A key of one byte of an input of one byte. -/
def oneByteKey (x : UInt8) : Call where
  input := [x]
  size := by simp
  digestLen := 1
  buffer := Vector.replicate 32 0

/-- The keys of "a" and of "b", in this order: the second is that of "a" again. -/
theorem short_digest_of_other_input :
    (∀ rounds, hashAll (rounds + 2) none [oneByteKey 97, oneByteKey 98] =
      some [[0x5b], [0x5b]]) ∧
    (oneByteKey 98).front (oneByteKey 98).value = [0x9b] ∧
    ¬ EachItsOwn [oneByteKey 97, oneByteKey 98] := by
  have hwritten : ∀ rounds, hashAll (rounds + 2) none [oneByteKey 97, oneByteKey 98] =
      some [[0x5b], [0x5b]] := by
    intro rounds
    rw [hashAll_spec none [oneByteKey 97, oneByteKey 98] fun c hc => ?_]
    · decide +kernel
    · rcases List.mem_pair.mp hc with rfl | rfl <;> exact Nat.le_add_left _ _
  refine ⟨hwritten, by decide +kernel, fun h => ?_⟩
  obtain ⟨rounds₀, hown⟩ := h
  have hsecond := (hwritten rounds₀).symm.trans (hown (rounds₀ + 2) (by omega))
  revert hsecond
  decide +kernel

end XXhash64Engine
end Fredlib
