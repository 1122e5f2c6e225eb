/-
  Fredlib.Hash.XXHash64Digest

  `XXHash64` over whole runs, and changes of an input that it never misses.

  `digest` is the value in terms of the whole input.  In any sequence of calls of one
  hasher, `hash` returns it for the bytes added so far (`run_eq_answers`).

  The bytes behind the last whole block are taken in words of eight bytes, one of four,
  and single bytes.  Each of them goes into the value through operations that lose
  nothing, so that inputs that differ in one of them only have different values
  (`hashOnce_unit_iff`); and so have different seeds, for an input without a whole block.
-/

import Mathlib.Data.UInt
import Fredlib.Lib.Words
import Fredlib.Hash.XXhash64Engine

namespace Fredlib

open Lib

-- ============================================================================
-- Words in memory
-- ============================================================================

theorem load_cons_toNat {n : Nat} {x : UInt8} {data : List UInt8}
    (hlt : (load n data).toNat < 2 ^ 56) :
    (load (n + 1) (x :: data)).toNat = x.toNat + 256 * (load n data).toNat := by
  have hx : x.toNat < 2 ^ 8 := x.toNat_lt
  have hshift : (load n data <<< 8).toNat = (load n data).toNat <<< 8 := by
    rw [UInt64.toNat_shiftLeft]
    simp only [UInt64.reduceToNat, Nat.reduceMod, Nat.shiftLeft_eq]
    omega
  rw [load, UInt64.toNat_or, hshift, Nat.or_comm, UInt8.toNat_toUInt64,
    ← Nat.shiftLeft_add_eq_or_of_lt hx, Nat.shiftLeft_eq]
  omega

theorem load_toNat_lt {n : Nat} (hn : n ≤ 7) (data : List UInt8) :
    (load n data).toNat < 256 ^ n := by
  induction n generalizing data with
  | zero => exact Nat.one_pos
  | succ n ih =>
      cases data with
      | nil => exact Nat.pow_pos (by decide)
      | cons x data =>
          have hlt := ih (by omega) data
          have hpow : 256 ^ n ≤ 256 ^ 7 := Nat.pow_le_pow_right (by decide) (by omega)
          have hx : x.toNat < 256 := x.toNat_lt
          rw [load_cons_toNat (by omega), Nat.pow_succ]
          omega

/-- A word tells the bytes that it was loaded from. -/
theorem load_inj {n : Nat} (hn : n ≤ 8) {u v : List UInt8} (hu : u.length = n) (hv : v.length = n)
    (h : load n u = load n v) : u = v := by
  induction n generalizing u v with
  | zero => rw [List.length_eq_zero_iff.mp hu, List.length_eq_zero_iff.mp hv]
  | succ n ih =>
      obtain ⟨x, u, rfl⟩ := List.exists_cons_of_length_eq_add_one hu
      obtain ⟨y, v, rfl⟩ := List.exists_cons_of_length_eq_add_one hv
      have hpow : 256 ^ n ≤ 256 ^ 7 := Nat.pow_le_pow_right (by decide) (by omega)
      have hlu := load_toNat_lt (n := n) (by omega) u
      have hlv := load_toNat_lt (n := n) (by omega) v
      have hx : x.toNat < 256 := x.toNat_lt
      have hy : y.toNat < 256 := y.toNat_lt
      have hnat := congrArg UInt64.toNat h
      rw [load_cons_toNat (by omega), load_cons_toNat (by omega)] at hnat
      have hrest : load n u = load n v := UInt64.toNat_inj.mp (by omega)
      rw [UInt8.toNat_inj.mp (show x.toNat = y.toNat by omega),
        ih (by omega) (Nat.succ.inj hu) (Nat.succ.inj hv) hrest]

namespace XXHash64

-- ============================================================================
-- The value of an input
-- ============================================================================

/-- The end of `hash`, from the bytes left over. -/
def finish (result : UInt64) (rest : List UInt8) : UInt64 :=
  let (result, data) := eat8 result rest
  let (result, data) := eat4 result data
  mix (eat1 result data)

/-- The value of an input. -/
def digest (seed : UInt64) (input : List UInt8) : UInt64 :=
  let (lanes, rest) := consume 32 process (seeded seed) input
  finish ((if 32 ≤ input.length then fold lanes else seed + Prime5) + UInt64.ofNat input.length) rest

variable {h : XXHash64} {seed : UInt64} {input seen : List UInt8}

theorem Streams.hash_eq_digest (hs : Streams (seeded seed) input h) (hlt : input.length < 2 ^ 64) :
    h.hash = digest seed input := by
  have htotal : h.totalLength.toNat = input.length := by
    rw [hs.total, UInt64.toNat_ofNat_of_lt' hlt]
  have hlong : h.totalLength ≥ MaxBufferSize ↔ 32 ≤ input.length := by
    rw [ge_iff_le, UInt64.le_iff_toNat_le, htotal]
    rfl
  rw [hash, digest, ← hs.total]
  simp only [← hs.buffered, ← hs.state, finish]
  by_cases h32 : 32 ≤ input.length
  · rw [if_pos (hlong.mpr h32), if_pos h32]
  · have hseed : h.state.state2 = seed := by
      rw [hs.state, consume_of_short (by omega)]
      rfl
    rw [if_neg (hlong.not.mpr h32), if_neg h32, hseed]

/-- A call of a hasher. -/
inductive Call
  | add (data : List UInt8)
  | hash

/-- What a call returns. -/
inductive Answer
  | added (ok : Bool)
  | value (value : UInt64)

/-- One call. -/
def call (h : XXHash64) : Call → Answer × XXHash64
  | .add data => let (ok, h) := h.add data; (.added ok, h)
  | .hash => (.value h.hash, h)

/-- One call after another. -/
def run (h : XXHash64) : List Call → List Answer × XXHash64
  | [] => ([], h)
  | c :: calls =>
      let (answer, h) := h.call c
      let (answers, h) := h.run calls
      (answer :: answers, h)

/-- The bytes that calls add. -/
def bytesOf : List Call → List UInt8
  | [] => []
  | .add data :: calls => data ++ bytesOf calls
  | .hash :: calls => bytesOf calls

/-- What they return, by the bytes so far. -/
def answers (seed : UInt64) (seen : List UInt8) : List Call → List Answer
  | [] => []
  | .add data :: calls => .added (data ≠ []) :: answers seed (seen ++ data) calls
  | .hash :: calls => .value (digest seed seen) :: answers seed seen calls

theorem add_ok (h : XXHash64) {data : List UInt8} (hlt : data.length < 2 ^ 64) :
    (h.add data).1 = decide (data ≠ []) := by
  have hzero : UInt64.ofNat data.length = 0 ↔ data = [] := by
    rw [← UInt64.toNat_inj, UInt64.toNat_ofNat_of_lt' hlt, ← List.length_eq_zero_iff]
    rfl
  unfold XXHash64.add
  by_cases hnil : data = []
  · simp [hnil]
  · simp only [hzero, hnil, if_false]
    split <;> simp [hnil]

theorem Streams.run (hs : Streams (seeded seed) seen h) {calls : List Call}
    (hfits : (seen ++ bytesOf calls).length + 32 ≤ 2 ^ 64) :
    (h.run calls).1 = answers seed seen calls ∧
      Streams (seeded seed) (seen ++ bytesOf calls) (h.run calls).2 := by
  -- induction on the calls: `hash` leaves the state, `add` extends what has been seen
  induction calls generalizing seen h with
  | nil => exact ⟨rfl, by rwa [bytesOf, List.append_nil]⟩
  | cons c calls ih =>
      cases c with
      | add data =>
          rw [bytesOf, ← List.append_assoc] at hfits ⊢
          have hlen : data.length + 32 ≤ 2 ^ 64 := by
            simp only [List.length_append] at hfits
            omega
          obtain ⟨hanswers, hstream⟩ := ih (hs.add hlen) hfits
          refine ⟨?_, hstream⟩
          show Answer.added (h.add data).1 :: _ = _
          rw [add_ok h (by omega), answers]
          exact congrArg _ hanswers
      | hash =>
          rw [bytesOf] at hfits ⊢
          obtain ⟨hanswers, hstream⟩ := ih hs hfits
          refine ⟨?_, hstream⟩
          have hlt : seen.length < 2 ^ 64 := by
            rw [List.length_append] at hfits
            omega
          show Answer.value h.hash :: _ = _
          rw [hs.hash_eq_digest hlt, answers]
          exact congrArg _ hanswers

/-- **A hasher** in any sequence of calls: `add` says whether there was anything to add, and
    `hash` returns the value of all bytes added before, however they came and whatever the
    memory of the buffer held, and changes nothing. -/
theorem run_eq_answers (seed : UInt64) (buffer : Vector UInt8 32) (calls : List Call)
    (hfits : (bytesOf calls).length + 32 ≤ 2 ^ 64) :
    ((create seed buffer).run calls).1 = answers seed [] calls :=
  ((streams_create seed buffer).run hfits).1

/-- An input in two pieces, with a value between them. -/
theorem run_eq_answers_pieces :
    ((create 0 (Vector.replicate 32 7)).run [.add [1], .hash, .add [], .add [2, 3], .hash]).1 =
      [.added true, .value (digest 0 [1]), .added false, .added true, .value (digest 0 [1, 2, 3])] :=
  run_eq_answers 0 (Vector.replicate 32 7) _ (by decide)

-- ============================================================================
-- Operations that lose nothing
-- ============================================================================

theorem mul_injective {p q : UInt64} (hpq : p * q = 1) : Function.Injective fun x : UInt64 => x * p :=
  Function.LeftInverse.injective (g := fun x => x * q) fun x => by
    show x * p * q = x
    rw [UInt64.mul_assoc, hpq, UInt64.mul_one]

theorem mul_Prime1_injective : Function.Injective fun x => x * Prime1 :=
  mul_injective (q := 614540362697595703) (by decide)

theorem mul_Prime2_injective : Function.Injective fun x => x * Prime2 :=
  mul_injective (q := 839798700976720815) (by decide)

theorem mul_Prime3_injective : Function.Injective fun x => x * Prime3 :=
  mul_injective (q := 16855272203555305545) (by decide)

theorem mul_Prime5_injective : Function.Injective fun x => x * Prime5 :=
  mul_injective (q := 14236653164957433613) (by decide)

theorem xor_injective (v : UInt64) : Function.Injective fun x => x ^^^ v :=
  fun _ _ => (UInt64.xor_left_inj v).mp

theorem xor_injective_right (v : UInt64) : Function.Injective fun x => v ^^^ x :=
  fun _ _ => (UInt64.xor_right_inj v).mp

theorem toBitVec_rotateLeft (x : UInt64) {bits : UInt64} (hpos : 0 < bits.toNat)
    (hlt : bits.toNat < 64) :
    (rotateLeft x bits).toBitVec = x.toBitVec.rotateRight (64 - bits.toNat) := by
  have hback : (64 - bits).toNat = 64 - bits.toNat := by
    rw [UInt64.toNat_sub_of_le _ _ (UInt64.le_iff_toNat_le.mpr (Nat.le_of_lt hlt))]
    rfl
  rw [rotateLeft, BitVec.rotateRight_def, UInt64.toBitVec_or, UInt64.toBitVec_shiftLeft,
    UInt64.toBitVec_shiftRight, BitVec.or_comm, BitVec.ushiftRight_eq', BitVec.shiftLeft_eq']
  congr 2
  · show (64 - bits).toNat % 64 = (64 - bits.toNat) % 64
    rw [hback]
  · show bits.toNat % 64 = 64 - (64 - bits.toNat) % 64
    omega

theorem rotateLeft_injective (bits : UInt64) (hpos : 0 < bits.toNat) (hlt : bits.toNat < 64) :
    Function.Injective fun x => rotateLeft x bits := by
  intro x y h
  have hbits := congrArg UInt64.toBitVec h
  rw [toBitVec_rotateLeft x hpos hlt, toBitVec_rotateLeft y hpos hlt] at hbits
  exact UInt64.eq_of_toBitVec_eq (rotateRight_injective (by omega) (by omega) hbits)

theorem xorShift_injective {s : UInt64} (hpos : 0 < s.toNat) (hlt : s.toNat < 64) :
    Function.Injective fun x : UInt64 => x ^^^ (x >>> s) := by
  intro x y h
  have hbits := congrArg UInt64.toBitVec h
  have hshift : ∀ z : UInt64, (z ^^^ (z >>> s)).toBitVec = z.toBitVec ^^^ (z.toBitVec >>> s.toNat) := by
    intro z
    rw [UInt64.toBitVec_xor, UInt64.toBitVec_shiftRight, BitVec.ushiftRight_eq']
    congr 2
    exact Nat.mod_eq_of_lt hlt
  simp only [hshift] at hbits
  exact UInt64.eq_of_toBitVec_eq (Lib.xorShift_injective hpos hbits)

-- ============================================================================
-- The bytes left over
-- ============================================================================

/-- A word of eight bytes. -/
def eatWord (result : UInt64) (block : List UInt8) : UInt64 :=
  rotateLeft (result ^^^ processSingle 0 (load 8 block)) 27 * Prime1 + Prime4

/-- A word of four bytes. -/
def eatHalf (result : UInt64) (block : List UInt8) : UInt64 :=
  rotateLeft (result ^^^ load 4 block * Prime1) 23 * Prime2 + Prime3

/-- A single byte. -/
def eatByte (result : UInt64) (x : UInt8) : UInt64 :=
  rotateLeft (result ^^^ x.toUInt64 * Prime5) 11 * Prime1

theorem processSingle_injective : Function.Injective (processSingle 0) :=
  mul_Prime1_injective.comp <| (rotateLeft_injective 31 (by decide) (by decide)).comp <|
    (add_right_injective 0).comp mul_Prime2_injective

theorem eatWord_injective (block : List UInt8) : Function.Injective fun result => eatWord result block :=
  (add_left_injective Prime4).comp <| mul_Prime1_injective.comp <|
    (rotateLeft_injective 27 (by decide) (by decide)).comp (xor_injective _)

theorem eatWord_inj (result : UInt64) {u v : List UInt8} (hu : u.length = 8) (hv : v.length = 8)
    (h : eatWord result u = eatWord result v) : u = v := by
  have hword := (add_left_injective Prime4).comp <| mul_Prime1_injective.comp <|
    (rotateLeft_injective 27 (by decide) (by decide)).comp <|
    (xor_injective_right result).comp processSingle_injective
  exact load_inj (Nat.le_refl 8) hu hv (hword h)

theorem eatHalf_injective (block : List UInt8) : Function.Injective fun result => eatHalf result block :=
  (add_left_injective Prime3).comp <| mul_Prime2_injective.comp <|
    (rotateLeft_injective 23 (by decide) (by decide)).comp (xor_injective _)

theorem eatHalf_inj (result : UInt64) {u v : List UInt8} (hu : u.length = 4) (hv : v.length = 4)
    (h : eatHalf result u = eatHalf result v) : u = v := by
  have hhalf := (add_left_injective Prime3).comp <| mul_Prime2_injective.comp <|
    (rotateLeft_injective 23 (by decide) (by decide)).comp <|
    (xor_injective_right result).comp mul_Prime1_injective
  exact load_inj (by decide) hu hv (hhalf h)

theorem eatByte_injective (x : UInt8) : Function.Injective fun result => eatByte result x :=
  mul_Prime1_injective.comp <|
    (rotateLeft_injective 11 (by decide) (by decide)).comp (xor_injective _)

theorem eatByte_inj (result : UInt64) {x y : UInt8} (h : eatByte result x = eatByte result y) :
    x = y := by
  have hbyte := mul_Prime1_injective.comp <|
    (rotateLeft_injective 11 (by decide) (by decide)).comp <|
    (xor_injective_right result).comp mul_Prime5_injective
  exact UInt8.toUInt64_inj.mp (hbyte h)

theorem mix_injective : Function.Injective mix :=
  (xorShift_injective (s := 32) (by decide) (by decide)).comp <| mul_Prime3_injective.comp <|
    (xorShift_injective (s := 29) (by decide) (by decide)).comp <| mul_Prime2_injective.comp <|
    xorShift_injective (s := 33) (by decide) (by decide)

theorem eat1_eq (result : UInt64) (data : List UInt8) : eat1 result data = data.foldl eatByte result := by
  induction data generalizing result with
  | nil => rfl
  | cons x data ih => exact ih _

theorem eat1_injective (data : List UInt8) : Function.Injective fun result => eat1 result data := by
  simp only [eat1_eq]
  induction data with
  | nil => exact Function.injective_id
  | cons x data ih => exact ih.comp (eatByte_injective x)

theorem eat8_of_short (result : UInt64) {data : List UInt8} (h : data.length < 8) :
    eat8 result data = (result, data) := by
  rw [eat8.eq_def]
  split
  · simp only [List.length_cons] at h
    omega
  · rfl

theorem eat8_eq (result : UInt64) (data : List UInt8) :
    eat8 result data = consume 8 eatWord result data := by
  induction result, data using consume.induct 8 eatWord with
  | case1 result data h ih =>
      rw [consume_of_block h.1 h.2, ← ih]
      rcases data with _ | ⟨x₀, _ | ⟨x₁, _ | ⟨x₂, _ | ⟨x₃, _ | ⟨x₄, _ | ⟨x₅, _ | ⟨x₆, _ | ⟨x₇, data⟩⟩⟩⟩⟩⟩⟩⟩
      iterate 8 exact absurd h.2 (by simp)
      rw [eat8.eq_def]
      rfl
  | case2 result data h =>
      have hshort : data.length < 8 := by omega
      rw [consume_of_short hshort, eat8_of_short result hshort]

theorem finish_eq (result : UInt64) (rest : List UInt8) :
    finish result rest = finish (consume 8 eatWord result rest).1 (consume 8 eatWord result rest).2 := by
  have hshort : (consume 8 eatWord result rest).2.length < 8 := length_consume_lt (by decide) _ _
  rw [finish, finish, eat8_eq, eat8_of_short _ hshort]

/-- Whole words in front. -/
theorem finish_append (result : UInt64) {words : List UInt8} (hwords : 8 ∣ words.length)
    (rest : List UInt8) :
    finish result (words ++ rest) = finish (consume 8 eatWord result words).1 rest := by
  rw [finish_eq, consume_append_of_dvd (by decide) hwords, ← finish_eq]

theorem finish_word (result : UInt64) {word : List UInt8} (hword : word.length = 8) (rest : List UInt8) :
    finish result (word ++ rest) = finish (eatWord result word) rest := by
  rw [finish_append result (by rw [hword]) rest, consume_of_block (by decide) (Nat.le_of_eq hword.symm),
    List.take_of_length_le (Nat.le_of_eq hword), List.drop_of_length_le (Nat.le_of_eq hword),
    consume_of_short (by decide)]

/-- Less than a word, but four bytes. -/
theorem finish_half (result : UInt64) {half rest : List UInt8} (hhalf : half.length = 4)
    (hrest : rest.length < 4) :
    finish result (half ++ rest) = mix (eat1 (eatHalf result half) rest) := by
  have hload : load 4 (half ++ rest) = load 4 half := by
    rw [← load_take (Nat.le_refl 4), ← hhalf, List.take_left]
  have hdrop : (half ++ rest).drop 4 = rest := by rw [← hhalf, List.drop_left]
  have hlen : (half ++ rest).length = 4 + rest.length := by rw [List.length_append, hhalf]
  rw [finish, eat8_of_short _ (by omega)]
  simp only [eat4, if_pos (show 4 ≤ (half ++ rest).length by omega), hload, hdrop]
  rfl

theorem finish_short (result : UInt64) {rest : List UInt8} (hrest : rest.length < 4) :
    finish result rest = mix (eat1 result rest) := by
  rw [finish, eat8_of_short _ (by omega)]
  simp only [eat4, if_neg (show ¬ 4 ≤ rest.length by omega)]

/-- Bytes that are no whole word: the four of them that are taken at once, if there are so
    many, and those behind. -/
theorem finish_small (result : UInt64) {rest : List UInt8} (hrest : rest.length < 8) :
    finish result rest = if 4 ≤ rest.length then mix (eat1 (eatHalf result (rest.take 4)) (rest.drop 4))
      else mix (eat1 result rest) := by
  split
  · have hhalf : (rest.take 4).length = 4 := List.length_take_of_le (by assumption)
    have hmore : (rest.drop 4).length < 4 := by
      rw [List.length_drop]
      omega
    rw [← finish_half result hhalf hmore, List.take_append_drop]
  · exact finish_short result (by omega)

theorem finish_injective (rest : List UInt8) : Function.Injective fun result => finish result rest := by
  intro result result' h
  have hlast : ∀ {rest : List UInt8}, rest.length < 8 → Function.Injective fun result => finish result rest := by
    intro rest hrest
    simp only [finish_small _ hrest]
    split
    · exact mix_injective.comp ((eat1_injective _).comp (eatHalf_injective _))
    · exact mix_injective.comp (eat1_injective _)
  obtain ⟨hinj, hsame⟩ : ((consume 8 eatWord result rest).1 = (consume 8 eatWord result' rest).1 →
      result = result') ∧ (consume 8 eatWord result rest).2 = (consume 8 eatWord result' rest).2 :=
    consume_inj eatWord_injective result result' rest
  simp only [finish_eq _ rest, hsame] at h
  exact hinj (hlast (length_consume_lt (by decide) _ _) h)

-- ============================================================================
-- Changes of one unit
-- ============================================================================

/-- In the bytes left over of an input of `len` bytes, `size` bytes from `pos` on are taken at
    once. -/
def IsUnit (pos size len : Nat) : Prop :=
  pos + size ≤ len ∧
    (size = 8 ∧ 8 ∣ pos ∨ size = 4 ∧ pos = 8 * (len / 8) ∨ size = 1 ∧ 4 * (len / 4) ≤ pos)

theorem finish_unit_inj (result : UInt64) {front u v back : List UInt8} (huv : u.length = v.length)
    (hunit : IsUnit front.length u.length (front ++ (u ++ back)).length)
    (h : finish result (front ++ (u ++ back)) = finish result (front ++ (v ++ back))) : u = v := by
  simp only [IsUnit, List.length_append] at hunit
  obtain ⟨-, ⟨hsize, hpos⟩ | ⟨hsize, hpos⟩ | ⟨hsize, hpos⟩⟩ := hunit
  · -- a word of eight bytes
    rw [finish_append result hpos, finish_append result hpos, finish_word _ hsize,
      finish_word _ (huv ▸ hsize)] at h
    exact eatWord_inj _ hsize (huv ▸ hsize) (finish_injective back h)
  · -- a word of four bytes, with less than four behind it
    have hdvd : 8 ∣ front.length := by omega
    rw [finish_append result hdvd, finish_append result hdvd, finish_half _ hsize (by omega),
      finish_half _ (huv ▸ hsize) (by omega)] at h
    exact eatHalf_inj _ hsize (huv ▸ hsize) (eat1_injective back (mix_injective h))
  · -- a single byte, behind all the words
    obtain ⟨x, rfl⟩ := List.length_eq_one_iff.mp hsize
    obtain ⟨y, rfl⟩ := List.length_eq_one_iff.mp (huv ▸ hsize)
    have hbyte : ∀ result (l : List UInt8), mix (eat1 result (l ++ ([x] ++ back))) =
        mix (eat1 result (l ++ ([y] ++ back))) → [x] = [y] := by
      intro result l heq
      have hdata := mix_injective heq
      simp only [eat1_eq, List.foldl_append, List.foldl_cons, List.foldl_nil] at hdata
      simp only [← eat1_eq] at hdata
      rw [eatByte_inj _ (eat1_injective back hdata)]
    have hwords : 8 ∣ (front.take (8 * (front.length / 8))).length := by
      rw [List.length_take_of_le (by omega)]
      exact Nat.dvd_mul_right _ _
    have hcut : ∀ z : UInt8, front ++ ([z] ++ back) = front.take (8 * (front.length / 8)) ++
        (front.drop (8 * (front.length / 8)) ++ ([z] ++ back)) := by
      intro z
      conv_lhs => rw [← List.take_append_drop (8 * (front.length / 8)) front, List.append_assoc]
    have hlen : ∀ z : UInt8, (front.drop (8 * (front.length / 8)) ++ ([z] ++ back)).length =
        front.length % 8 + (1 + back.length) := by
      intro z
      simp only [List.length_append, List.length_drop, List.length_singleton]
      omega
    rw [List.length_singleton] at hpos
    rw [hcut x, hcut y, finish_append result hwords, finish_append result hwords,
      finish_small _ (by rw [hlen]; omega), finish_small _ (by rw [hlen]; omega), hlen, hlen] at h
    split at h
    · have hfour : 4 ≤ (front.drop (8 * (front.length / 8))).length := by
        rw [List.length_drop]
        omega
      rw [List.take_append_of_le_length hfour, List.take_append_of_le_length hfour,
        List.drop_append_of_le_length hfour, List.drop_append_of_le_length hfour] at h
      exact hbyte _ _ h
    · exact hbyte _ _ h

/-- The whole blocks of an input that is cut behind them. -/
theorem digest_append (seed : UInt64) {front back : List UInt8}
    (h : 32 * ((front ++ back).length / 32) ≤ front.length) :
    digest seed (front ++ back) =
      finish ((if 32 ≤ (front ++ back).length then fold (consume 32 process (seeded seed) front).1
        else seed + Prime5) + UInt64.ofNat (front ++ back).length)
        ((consume 32 process (seeded seed) front).2 ++ back) := by
  have hshort : ((consume 32 process (seeded seed) front).2 ++ back).length < 32 := by
    rw [List.length_append] at h
    rw [List.length_append, length_consume (by decide)]
    omega
  have hcut : consume 32 process (seeded seed) (front ++ back) =
      ((consume 32 process (seeded seed) front).1,
        (consume 32 process (seeded seed) front).2 ++ back) := by
    rw [consume_append, consume_of_short hshort]
  rw [digest, hcut]

theorem hashOnce_eq_digest (buffer : Vector UInt8 32) (hfits : input.length + 32 ≤ 2 ^ 64) :
    hashOnce buffer input seed = digest seed input := by
  have honce : Streams (seeded seed) ([] ++ input) ((create seed buffer).add input).2 :=
    (streams_create seed buffer).add hfits
  rw [List.nil_append] at honce
  exact honce.hash_eq_digest (by omega)

/-- **Small changes are never missed**: inputs that differ behind the last whole block, in one word
    of eight bytes, in the one of four or in a single byte behind the words, have different
    values; and an input without a whole block has different values for different seeds. -/
theorem hashOnce_unit_iff (buffer buffer' : Vector UInt8 32) (seed : UInt64) :
    (∀ front u v back : List UInt8, u.length = v.length →
      32 * ((front ++ (u ++ back)).length / 32) ≤ front.length →
      IsUnit front.length u.length (front ++ (u ++ back)).length →
      (front ++ (u ++ back)).length + 32 ≤ 2 ^ 64 →
      (hashOnce buffer (front ++ (u ++ back)) seed = hashOnce buffer' (front ++ (v ++ back)) seed ↔
        u = v)) ∧
    ∀ (input : List UInt8) (seed' : UInt64), input.length < 32 →
      (hashOnce buffer input seed = hashOnce buffer' input seed' ↔ seed = seed') := by
  constructor
  · intro front u v back huv hblocks hunit hfits
    have hlen : (front ++ (v ++ back)).length = (front ++ (u ++ back)).length := by
      simp only [List.length_append, huv]
    rw [hashOnce_eq_digest buffer hfits, hashOnce_eq_digest buffer' (by rwa [hlen])]
    constructor
    · intro h
      rw [digest_append seed hblocks, digest_append seed (by rwa [hlen]), hlen] at h
      -- both have consumed the same whole blocks, so only the unit differs
      refine finish_unit_inj _ huv ?_ h
      simp only [IsUnit, List.length_append] at hunit hblocks ⊢
      rw [length_consume (by decide)]
      omega
    · rintro rfl
      rfl
  · intro input seed' hshort
    rw [hashOnce_eq_digest buffer (by omega), hashOnce_eq_digest buffer' (by omega)]
    constructor
    · intro h
      -- below 32 bytes nothing is consumed, and the seed goes in by an addition
      have hcut : ∀ seed, digest seed ([] ++ input) =
          finish (seed + Prime5 + UInt64.ofNat input.length) input := by
        intro seed
        have hnil : consume 32 process (seeded seed) [] = (seeded seed, []) :=
          consume_of_short (by decide)
        rw [digest_append seed (by rw [List.nil_append]; simp; omega), hnil,
          if_neg (by rw [List.nil_append]; omega)]
        rfl
      rw [List.nil_append] at hcut
      rw [hcut, hcut] at h
      exact add_left_injective _ (add_left_injective _ (finish_injective input h))
    · rintro rfl
      rfl

/-- Nine bytes that differ in the last one. -/
theorem hashOnce_unit_last :
    hashOnce (Vector.replicate 32 0) [1, 2, 3, 4, 5, 6, 7, 8, 9] 0 ≠
      hashOnce (Vector.replicate 32 0) [1, 2, 3, 4, 5, 6, 7, 8, 10] 0 := by
  intro h
  have hunit := (hashOnce_unit_iff (Vector.replicate 32 0) (Vector.replicate 32 0) 0).1
    [1, 2, 3, 4, 5, 6, 7, 8] [9] [10] [] rfl (by decide) ⟨by decide, .inr (.inr ⟨rfl, by decide⟩)⟩
    (by decide)
  exact absurd (hunit.mp h) (by decide)

end XXHash64
end Fredlib
