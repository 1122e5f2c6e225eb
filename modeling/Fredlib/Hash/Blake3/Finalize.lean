/-
  Fredlib.Hash.Blake3.Finalize

  What a hasher gives out, and whole runs of calls of one hasher.

  `finalize_seek` computes the root from the stack without changing the hasher, and
  gives out any part of its bytes.  Over a run of calls a hasher is its mode and the
  bytes it has been given since the last `reset`, and nothing else shows
  (`Hasher.run_eq_results`).
-/

import Fredlib.Hash.Blake3.Hasher

namespace Fredlib
namespace Blake3

open Lib

namespace Hasher

variable {p : Platform} {m : Mode} {h : Hasher} {ts : List (Full Output)} {seen input : List UInt8}

-- ============================================================================
-- The bytes of the root
-- ============================================================================

/-- The bytes of one block. -/
theorem rootByte_block (o : Output) (k : Nat) {offset n : Nat} (h : offset + n ≤ 64) :
    ((o.rootBlock (UInt64.ofNat k)).drop offset).take n =
      (List.range n).map fun i => o.rootByte (64 * k + offset + i) := by
  have hlen := o.length_rootBlock (UInt64.ofNat k)
  refine List.ext_getElem (by simp; omega) fun i hi _ => ?_
  have hin : i < n := Nat.lt_of_lt_of_le hi (List.length_take_le _ _)
  have hblock : (64 * k + offset + i) / 64 = k := by omega
  have hplace : (64 * k + offset + i) % 64 = offset + i := by omega
  rw [List.getElem_take, List.getElem_drop, List.getElem_map, List.getElem_range, Output.rootByte,
    hblock, hplace, List.getD_eq_getElem?_getD, List.getElem?_eq_getElem (by omega),
      Option.getD_some]

theorem outputRootLoop_eq (o : Output) (k : Nat) (offset : Fin 64) (len : Nat) :
    outputRootLoop p o (UInt64.ofNat k) offset len =
      (List.range len).map fun i => o.rootByte (64 * k + offset.1 + i) := by
  induction hn : len using Nat.strong_induction_on generalizing k offset len with
  | _ n ih =>
      subst hn
      have hoffset := offset.isLt
      have hwide : p.compressXof o.inputCv o.block o.blockLen (UInt64.ofNat k) (o.flags ||| ROOT) =
          o.rootBlock (UInt64.ofNat k) := by rw [p.compressXof_eq, Output.rootBlock]
      rw [outputRootLoop]
      by_cases hpos : 0 < len
      · rw [if_pos hpos]
        simp only [hwide]
        by_cases hmore : len > 64 - offset.1
        · -- the rest of this block, and the blocks after it
          have hnext : UInt64.ofNat k + 1 = UInt64.ofNat (k + 1) := (UInt64.ofNat_add k 1).symm
          have hsplit : len = (64 - offset.1) + (len - (64 - offset.1)) := by omega
          have hrest : (List.range (len - (64 - offset.1))).map
                (fun i => o.rootByte (64 * (k + 1) + (0 : Fin 64).1 + i)) =
              ((List.range (len - (64 - offset.1))).map (64 - offset.1 + ·)).map
                fun i => o.rootByte (64 * k + offset.1 + i) := by
            rw [List.map_map]
            refine List.map_congr_left fun i _ => congrArg o.rootByte ?_
            show 64 * (k + 1) + 0 + i = 64 * k + offset.1 + (64 - offset.1 + i)
            omega
          rw [if_pos hmore, rootByte_block o k (by omega), hnext,
            ih (len - (64 - offset.1)) (by omega) (k + 1) 0 _ rfl, hrest]
          conv_rhs => rw [hsplit, List.range_add, List.map_append]
        · rw [if_neg hmore, rootByte_block o k (by omega), Nat.sub_self, outputRootLoop,
            if_neg (by simp), List.append_nil]
      · rw [if_neg hpos, show len = 0 by omega]
        rfl

theorem outputRootBytes_eq (o : Output) (seek : UInt64) (len : Nat) :
    outputRootBytes p o seek len = (List.range len).map fun i => o.rootByte (seek.toNat + i) := by
  have hcounter : seek / 64 = UInt64.ofNat (seek.toNat / 64) := by
    rw [← UInt64.toNat_inj, UInt64.toNat_div, UInt64.toNat_ofNat_of_lt']
    · rfl
    · have hlt := seek.toNat_lt
      rw [UInt64.size]
      omega
  have hoffset : (seek % 64).toNat = seek.toNat % 64 := UInt64.toNat_mod ..
  rw [outputRootBytes, hcounter, outputRootLoop_eq]
  refine List.map_congr_left fun i _ => ?_
  simp only [hoffset]
  congr 1
  omega

-- ============================================================================
-- The root
-- ============================================================================

/-- Rolled up from the top, a stack is the left part of the tree. -/
theorem rollUp_eq (hkey : h.key = m.key) (hflags : h.chunk.flags = m.flags) (o : Output) :
    h.rollUp p o (entries m.join Output.cv ts) =
      ts.foldl (fun acc t => m.join (root m.join t.leaves) acc) o := by
  induction ts generalizing o with
  | nil => rfl
  | cons t ts ih =>
      rw [entries_cons, rollUp, List.foldl_cons, outputChainingValue_eq, hkey, hflags]
      exact ih _

/-- **`finalize_seek`**: the bytes asked for, of the hash of all that was given. -/
theorem Absorbed.finalizeSeek (ha : Absorbed m input h) (seek : UInt64) (len : Nat) :
    h.finalizeSeek p seek len = some (m.digest input seek.toNat len) := by
  obtain ⟨full, rest, ts, rfl, hs⟩ := ha
  have hflags := hs.chunk.flags
  have hlen := hs.chunk.len
  have hstack : h.cvStack.length = ts.length := by rw [hs.stack, length_entries]
  by_cases hzero : len = 0
  · rw [Hasher.finalizeSeek, if_pos hzero, hzero]
    rfl
  · -- it is enough that the root is the one of the tree
    have hroot : ∀ o, o = m.rootOutput (full ++ rest) →
        some (outputRootBytes p o seek len) = some (m.digest (full ++ rest) seek.toNat len) := by
      rintro o rfl
      rw [outputRootBytes_eq, Mode.digest]
    rw [Hasher.finalizeSeek, if_neg hzero]
    cases ts with
    | nil =>
        have hnone : full = [] := List.length_eq_zero_iff.mp (by rw [hs.length]; rfl)
        subst hnone
        rw [if_pos (show h.cvStack.length = 0 from hstack)]
        refine hroot _ ?_
        have hout := hs.chunk.output
        rw [hout, List.nil_append, Mode.rootOutput]
        split
        · rename_i hempty
          rw [hempty]
          rfl
        · rename_i hne
          rw [Mode.chunks_of_short m _ hne hs.short, root_singleton]
          rfl
    | cons t ts =>
        have hne : full ++ rest ≠ [] := by
          have hpos := List.length_pos_iff.mpr t.ne_nil
          have hfull := hs.length
          rw [stackLeaves_cons, List.length_append] at hfull
          exact List.append_ne_nil_of_left_ne_nil (List.length_pos_iff.mp (by omega)) _
        rw [if_neg (by rw [hstack, List.length_cons]; omega)]
        by_cases hempty : rest = []
        · subst hempty
          obtain ⟨u, ts, rfl⟩ : ∃ u ts', ts = u :: ts' := by
            have htwo := hs.two rfl (List.cons_ne_nil t ts)
            cases ts with
            | nil => simp at htwo
            | cons u ts => exact ⟨u, ts, rfl⟩
          rw [if_neg (by rw [hlen]; simp), hs.stack, entries_cons, entries_cons]
          refine hroot _ ?_
          have htree := hs.pending.root_append m.join
          rw [hs.leaves] at htree
          rw [Mode.rootOutput, if_neg hne, List.append_nil, htree, rollUp_eq hs.key hflags, hs.key,
            hflags]
          rfl
        · have hpos := List.length_pos_iff.mpr hempty
          rw [if_pos (by rw [hlen]; exact hpos), hs.stack]
          refine hroot _ ?_
          have htree := (hs.merged hempty).root_append m.join
            (b := [m.chunk (UInt64.ofNat (stackLeaves (t :: ts)).length) rest])
              (List.cons_ne_nil _ _)
            (fun u _ => Nat.one_le_two_pow)
          rw [root_singleton] at htree
          rw [Mode.rootOutput, if_neg hne, Mode.chunks_append m 0 hs.length, UInt64.zero_add,
            Mode.chunks_of_short m _ hempty hs.short, ← hs.leaves, htree, rollUp_eq hs.key hflags,
            hs.chunk.output]

-- ============================================================================
-- Runs
-- ============================================================================

/-- The calls of one hasher. -/
inductive Call
  | update (input : List UInt8)
  | finalizeSeek (seek : UInt64) (outLen : Nat)
  | reset

/-- One call, with what it gives out. -/
def call (p : Platform) (h : Hasher) : Call → Option (Hasher × List (List UInt8))
  | .update input => (h.update p input).map fun h => (h, [])
  | .finalizeSeek seek outLen => (h.finalizeSeek p seek outLen).map fun out => (h, [out])
  | .reset => some (h.reset, [])

/-- One call after another, with all that they give out. -/
def run (p : Platform) (h : Hasher) : List Call → Option (Hasher × List (List UInt8))
  | [] => some (h, [])
  | c :: calls => do
      let (h, out) ← h.call p c
      let (h, outs) ← h.run p calls
      some (h, out ++ outs)

/-- The input after a call. -/
def given (seen : List UInt8) : Call → List UInt8
  | .update input => seen ++ input
  | .finalizeSeek _ _ => seen
  | .reset => []

/-- What a call gives out, by the input so far. -/
def gives (m : Mode) (seen : List UInt8) : Call → List (List UInt8)
  | .finalizeSeek seek outLen => [m.digest seen seek.toNat outLen]
  | _ => []

/-- What a run gives out, by the input so far. -/
def results (m : Mode) (seen : List UInt8) : List Call → List (List UInt8)
  | [] => []
  | c :: calls => gives m seen c ++ results m (given seen c) calls

/-- No input of the run is too long. -/
def Fits (seen : List UInt8) : List Call → Prop
  | [] => True
  | c :: calls => (given seen c).length < 2 ^ 64 ∧ Fits (given seen c) calls

theorem Absorbed.call (ha : Absorbed m seen h) (c : Call) (hfits : (given seen c).length < 2 ^ 64) :
    ∃ h', h.call p c = some (h', gives m seen c) ∧ Absorbed m (given seen c) h' := by
  cases c with
  | update input =>
      obtain ⟨h', hupdate, ha'⟩ := ha.update (p := p) (by rwa [given, List.length_append] at hfits)
      exact ⟨h', by rw [Hasher.call, hupdate]; rfl, ha'⟩
  | finalizeSeek seek outLen => exact ⟨h, by rw [Hasher.call, ha.finalizeSeek]; rfl, ha⟩
  | reset => exact ⟨h.reset, rfl, ha.reset⟩

theorem Absorbed.run {calls : List Call} (ha : Absorbed m seen h) (hfits : Fits seen calls) :
    ∃ h', h.run p calls = some (h', results m seen calls) ∧
      Absorbed m (calls.foldl given seen) h' := by
  induction calls generalizing seen h with
  | nil => exact ⟨h, rfl, ha⟩
  | cons c calls ih =>
      obtain ⟨h₁, hcall, ha₁⟩ := ha.call (p := p) c hfits.1
      obtain ⟨h₂, hrun, ha₂⟩ := ih ha₁ hfits.2
      refine ⟨h₂, ?_, ha₂⟩
      rw [Hasher.run, hcall]
      simp only [Option.bind_eq_bind, Option.bind_some, hrun, results]

/-- **A hasher**: in any run of calls, on any processor and with any key and flags,
    `finalize_seek` gives the bytes asked for of the hash of all that `update` was given since
    the last `reset`; and no call reads or writes outside of an array. -/
theorem run_eq_results (p : Platform) (m : Mode) (calls : List Call) (hfits : Fits [] calls) :
    ((initBase m.key m.flags).run p calls).map Prod.snd = some (results m [] calls) := by
  obtain ⟨h', hrun, -⟩ := (Absorbed.initBase m).run (p := p) hfits
  rw [hrun]
  rfl

/-- An input in two pieces, and another one. -/
theorem run_eq_results_pieces :
    ((initBase IV 0).run default [.update [1, 2], .update [3], .finalizeSeek 0 4, .reset, .update [4],
      .finalizeSeek 7 5]).map Prod.snd =
      some [Mode.digest ⟨IV, 0⟩ [1, 2, 3] 0 4, Mode.digest ⟨IV, 0⟩ [4] 7 5] :=
  run_eq_results default ⟨IV, 0⟩ _ (by simp [Fits, given])

-- ============================================================================
-- The fields of a hasher
-- ============================================================================

/-- What the fields of a hasher are after `len` bytes. -/
structure Sizes (len : Nat) (h : Hasher) : Prop where
  bytes : 1024 * h.chunk.chunkCounter.toNat + h.chunk.len = len
  chunk : h.chunk.len ≤ 1024
  buf : h.chunk.buf.length = 64
  bufLen : h.chunk.bufLen ≤ 64
  blocksCompressed : h.chunk.blocksCompressed ≤ 15
  stack : h.cvStack.length ≤ 54 + 1
  merged : 0 < h.chunk.len → h.cvStack.length = popcnt h.chunk.chunkCounter
  two : h.chunk.len = 0 → len = 0 ∨ 2 ≤ h.cvStack.length
  cvs : ∀ cv ∈ h.cvStack, cv.length = 32

theorem Absorbed.sizes (ha : Absorbed m seen h) (hlt : seen.length < 2 ^ 64) :
    Sizes seen.length h := by
  obtain ⟨full, rest, ts, rfl, hs⟩ := ha
  have hfull := hs.length
  have hlen := hs.chunk.len
  have hshort := hs.short
  have hblocks := ChunkState.length_blocks (m := m) (UInt64.ofNat (stackLeaves ts).length) rest
  have hlast := length_consumeLazy (blockStep (UInt64.ofNat (stackLeaves ts).length) m.flags)
    (show 0 < 64 by decide) (m.key, 0) rest
  rw [List.length_append] at hlt ⊢
  have hcounter : h.chunk.chunkCounter.toNat = (stackLeaves ts).length := by
    rw [hs.chunk.chunkCounter, UInt64.toNat_ofNat_of_lt' (by rw [UInt64.size]; omega)]
  refine ⟨by omega, by omega, ?_, ?_, ?_, ?_, fun hpos => ?_, fun hzero => ?_, fun cv hcv => ?_⟩
  · rw [hs.chunk.buf, ChunkState.length_padded hs.chunk.fits]
  · rw [hs.chunk.bufLen]
    exact hs.chunk.fits
  · rw [hs.chunk.blocksCompressed]
    by_cases hempty : rest = []
    · rw [hempty, List.length_nil] at hblocks
      rw [hempty]
      omega
    · have hpos := List.length_pos_iff.mpr (hlast.2 hempty)
      rw [Mode.blocks] at hblocks ⊢
      omega
  · rw [hs.stack, length_entries]
    exact hs.pending.length_le (by omega)
  · -- with bytes after it the stack is merged: one entry for each bit of the counter
    have hne : rest ≠ [] := List.length_pos_iff.mp (by omega)
    rw [hs.stack, length_entries, popcnt, hcounter, (hs.merged hne).ones]
  · have hempty : rest = [] := List.length_eq_zero_iff.mp (by omega)
    rw [hs.stack, length_entries]
    by_cases hnone : ts = []
    · subst hnone
      exact .inl (by rw [hfull, hempty]; rfl)
    · exact .inr (hs.two hempty hnone)
  · rw [hs.stack] at hcv
    obtain ⟨t, -, rfl⟩ := List.mem_map.mp hcv
    exact Output.length_cv _

theorem Fits.length_lt {calls : List Call} (hfits : Fits seen calls) (hlt : seen.length < 2 ^ 64) :
    (calls.foldl given seen).length < 2 ^ 64 := by
  induction calls generalizing seen with
  | nil => exact hlt
  | cons c calls ih => exact ih hfits.2 hfits.1

/-- **The fields**: in any run of calls, the counter and the chunk state account for all bytes,
    the stack has room for every chaining value, it has one for each 1 bit of the number of
    chunks if bytes follow them, and two at least if none do. -/
theorem sizes_of_run (p : Platform) (m : Mode) (calls : List Call) (hfits : Fits [] calls)
    {outs : List (List UInt8)}
    (hrun : (initBase m.key m.flags).run p calls = some (h, outs)) :
    Sizes (calls.foldl given []).length h := by
  obtain ⟨h', hrun', ha⟩ := (Absorbed.initBase m).run (p := p) hfits
  rw [hrun'] at hrun
  cases hrun
  exact ha.sizes (hfits.length_lt (by simp))

/-- After three chunks and 28 bytes, the stack holds two chaining values. -/
theorem sizes_of_run_chunks :
    ∃ h outs, (initBase IV 0).run default
        [.update (List.replicate 3000 1), .update (List.replicate 100 2)] = some (h, outs) ∧
      Sizes 3100 h ∧ h.cvStack.length = 2 := by
  have hfits : Fits [] [.update (List.replicate 3000 1), .update (List.replicate 100 2)] := by
    simp only [Fits, given, List.nil_append, List.length_append, List.length_replicate]
    decide
  obtain ⟨h', hrun, -⟩ := (Absorbed.initBase ⟨IV, 0⟩).run (p := default) hfits
  have hsizes := sizes_of_run default ⟨IV, 0⟩ _ hfits hrun
  simp only [List.foldl_cons, List.foldl_nil, given, List.nil_append, List.length_append,
    List.length_replicate] at hsizes
  have hbytes := hsizes.bytes
  have hchunk := hsizes.chunk
  have hcounter : h'.chunk.chunkCounter = 3 := UInt64.toNat_inj.mp (by
    show h'.chunk.chunkCounter.toNat = 3
    omega)
  have hmerged := hsizes.merged (by omega)
  rw [hcounter] at hmerged
  exact ⟨h', _, hrun, hsizes, hmerged⟩

/-- **Extended output** is one stream of bytes: in any state that a run of calls reaches, and
    on any processors, `finalize_seek` for two parts, one behind the other, gives what it gives
    for both at once. -/
theorem finalize_in_parts (p p' : Platform) (m : Mode) (calls : List Call) (hfits : Fits [] calls)
    {outs : List (List UInt8)} (hrun : (initBase m.key m.flags).run p calls = some (h, outs))
    (seek : UInt64) (a b : Nat) (hseek : seek.toNat + a < 2 ^ 64) :
    h.finalizeSeek p seek (a + b) = (h.finalizeSeek p' seek a).bind fun out =>
      (h.finalizeSeek p (seek + UInt64.ofNat a) b).map (out ++ ·) := by
  obtain ⟨h', hrun', ha⟩ := (Absorbed.initBase m).run (p := p) hfits
  rw [hrun'] at hrun
  cases hrun
  have hnext : (seek + UInt64.ofNat a).toNat = seek.toNat + a := by
    rw [UInt64.toNat_add, UInt64.toNat_ofNat_of_lt' (by rw [UInt64.size]; omega),
      Nat.mod_eq_of_lt hseek]
  rw [ha.finalizeSeek, ha.finalizeSeek, ha.finalizeSeek, hnext, Mode.digest_add]
  rfl

/-- The first 40 bytes for a byte, in two parts. -/
theorem finalize_in_parts_forty :
    ∃ h outs, (initBase IV 0).run default [.update [1]] = some (h, outs) ∧
      h.finalizeSeek default 0 40 = (h.finalizeSeek default 0 30).bind fun out =>
        (h.finalizeSeek default 30 10).map (out ++ ·) := by
  have hfits : Fits [] [.update [1]] := by simp [Fits, given]
  obtain ⟨h', hrun, -⟩ := (Absorbed.initBase ⟨IV, 0⟩).run (p := default) hfits
  exact ⟨h', _, hrun, finalize_in_parts default default ⟨IV, 0⟩ _ hfits hrun 0 30 10 (by decide)⟩

-- ============================================================================
-- Keys
-- ============================================================================

/-- A hasher with a key hashes in the mode of this key. -/
theorem initKeyed_results (p : Platform) (key : List UInt8) {calls : List Call}
    (hcalls : Fits [] calls) :
    ((initKeyed key).run p calls).map Prod.snd =
      some (results ⟨loadKeyWords key, KEYED_HASH⟩ [] calls) := by
  obtain ⟨h', hrun, -⟩ := (Absorbed.initBase ⟨loadKeyWords key, KEYED_HASH⟩).run (p := p) hcalls
  rw [initKeyed, hrun]
  rfl

/-- The key derived from a context is its hash. -/
theorem initDeriveKeyRaw_eq (p : Platform) {context : List UInt8}
    (hcontext : context.length < 2 ^ 64) :
    initDeriveKeyRaw p context =
      some (initBase (loadKeyWords (Mode.digest ⟨IV, DERIVE_KEY_CONTEXT⟩ context 0 32))
        DERIVE_KEY_MATERIAL) := by
  have hfits : ([] : List UInt8).length + context.length < 2 ^ 64 := by simpa using hcontext
  obtain ⟨contextHasher, hupdate, hseen⟩ :=
    (Absorbed.initBase ⟨IV, DERIVE_KEY_CONTEXT⟩).update (p := p) hfits
  rw [List.nil_append] at hseen
  simp only [initDeriveKeyRaw, hupdate, Option.bind_eq_bind, Option.bind_some, Hasher.finalize,
    hseen.finalizeSeek]
  rfl

/-- A context given as a string ends before its first zero. -/
theorem initDeriveKey_eq (p : Platform) {context : List UInt8} (hcontext : ∀ x ∈ context, x ≠ 0)
    (rest : List UInt8) :
    initDeriveKey p (context ++ 0 :: rest) = initDeriveKeyRaw p context := by
  have hstring : (context ++ 0 :: rest).takeWhile (· ≠ 0) = context := by
    rw [List.takeWhile_append_of_pos fun x hx => decide_eq_true (hcontext x hx)]
    simp
  rw [initDeriveKey, hstring]

/-- **Key derivation**: a hasher with a key derived from a context hashes in the mode whose key
    is the hash of the context. -/
theorem derived_key_results (p : Platform) (context : List UInt8)
    (hcontext : context.length < 2 ^ 64)
    (calls : List Call) (hcalls : Fits [] calls) :
    (initDeriveKeyRaw p context).bind (fun h => (h.run p calls).map Prod.snd) =
      some (results ⟨loadKeyWords (Mode.digest ⟨IV, DERIVE_KEY_CONTEXT⟩ context 0 32),
        DERIVE_KEY_MATERIAL⟩ [] calls) := by
  obtain ⟨h', hrun, -⟩ := (Absorbed.initBase
    ⟨loadKeyWords (Mode.digest ⟨IV, DERIVE_KEY_CONTEXT⟩ context 0 32), DERIVE_KEY_MATERIAL⟩).run
    (p := p) hcalls
  rw [initDeriveKeyRaw_eq p hcontext, Option.bind_some, hrun]
  rfl

/-- The key comes from the context "a", and two updates follow. -/
theorem derived_key_results_updates :
    (initDeriveKeyRaw default [97]).bind (fun h => (h.run default
        [.update [1, 2], .update [3], .finalizeSeek 0 32]).map Prod.snd) =
      some [Mode.digest ⟨loadKeyWords (Mode.digest ⟨IV, DERIVE_KEY_CONTEXT⟩ [97] 0 32),
        DERIVE_KEY_MATERIAL⟩ [1, 2, 3] 0 32] :=
  derived_key_results default [97] (by decide) [.update [1, 2], .update [3], .finalizeSeek 0 32]
    (by simp [Fits, given])

end Hasher
end Blake3
end Fredlib
