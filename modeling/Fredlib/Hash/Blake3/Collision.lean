/-
  Fredlib.Hash.Blake3.Collision

  Collisions of the hash are collisions of its compressions.

  `Mode.compressions` are all the compressions that the hash of an input is made of: of
  the blocks of its chunks, of the nodes of its tree, and of the root.  The flags keep
  them apart, and each contains what those before it have given.  So if two inputs have
  the same hash, in the same mode or in two of them, then two of these compressions
  collide (`Hasher.collision_of_finalize`): nothing is lost by the way in which
  hashes/b3/blake3.c puts compressions together.
-/

import Fredlib.Lib.Collide
import Fredlib.Hash.Blake3.Finalize

namespace Fredlib
namespace Blake3

open Lib

-- ============================================================================
-- Flags
-- ============================================================================

/-- The flags of a mode are none of those that say what a node is. -/
def Mode.Apart (m : Mode) : Prop := m.flags &&& (CHUNK_START ||| CHUNK_END ||| PARENT ||| ROOT) = 0

instance (m : Mode) : Decidable m.Apart := inferInstanceAs (Decidable (_ = _))

theorem flags_and (x y mask : UInt8) : (x ||| y) &&& mask = x &&& mask ||| y &&& mask := by
  rw [← UInt8.toBitVec_inj]
  exact BitVec.and_or_distrib_right

/-- What a node is shows in its flags. -/
theorem Mode.Apart.none {m : Mode} (h : m.Apart) (mask : UInt8) (hmask : 15 &&& mask = mask) :
    m.flags &&& mask = 0 := by
  have hnone : m.flags &&& 15 = 0 := h
  rw [← hmask, ← UInt8.and_assoc, hnone, UInt8.zero_and]

/-- And the mode does. -/
theorem Mode.Apart.mode {m : Mode} (h : m.Apart) {t : UInt8} (ht : t &&& 240 = 0) :
    (m.flags ||| t) &&& 240 = m.flags := by
  have hsplit : ∀ flags : BitVec 8, flags &&& 15 = 0 → flags &&& 240 = flags := by decide
  have hflags : m.flags &&& 240 = m.flags := by
    have hnone : m.flags &&& 15 = 0 := h
    rw [← UInt8.toBitVec_inj] at hnone ⊢
    exact hsplit _ hnone
  rw [flags_and, ht, hflags, UInt8.or_zero]

theorem Mode.Apart.flags_eq {m m' : Mode} (hm : m.Apart) (hm' : m'.Apart) {t t' : UInt8}
    (ht : t &&& 240 = 0) (ht' : t' &&& 240 = 0) (h : m.flags ||| t = m'.flags ||| t') :
    m.flags = m'.flags := by
  rw [← hm.mode ht, h, hm'.mode ht']

/-- The first compression of a chunk shows in its flags. -/
theorem Mode.Apart.start {m : Mode} (h : m.Apart) (n : Nat) (t : UInt8) (ht : t &&& CHUNK_START = 0) :
    (m.flags ||| startFlag n ||| t) &&& CHUNK_START = startFlag n := by
  rw [flags_and, flags_and, h.none _ (by decide), ht, UInt8.zero_or, UInt8.or_zero, startFlag]
  split <;> rfl

-- ============================================================================
-- The compressions of a chunk
-- ============================================================================

/-- The compression that `blockStep` makes. -/
def blockOutput (counter : UInt64) (flags : UInt8) (s : Vector UInt32 8 × Nat) (block : List UInt8) :
    Output :=
  makeOutput s.1 block 64 counter (flags ||| startFlag s.2)

/-- `blockStep` with the compressions so far, the last one first. -/
def blockTrace (counter : UInt64) (flags : UInt8) (s : (Vector UInt32 8 × Nat) × List Output)
    (block : List UInt8) : (Vector UInt32 8 × Nat) × List Output :=
  (blockStep counter flags s.1 block, blockOutput counter flags s.1 block :: s.2)

namespace Mode

variable (m : Mode)

/-- The blocks of a chunk but the last, with their compressions. -/
def trace (counter : UInt64) (chunk : List UInt8) :
    ((Vector UInt32 8 × Nat) × List Output) × List UInt8 :=
  consumeLazy 64 (blockTrace counter m.flags) ((m.key, 0), []) chunk

/-- The compressions of a chunk but the last. -/
def made (counter : UInt64) (chunk : List UInt8) : List Output := (m.trace counter chunk).1.2

/-- The compressions of the chunks of an input but the last ones. -/
def madeAll (counter : UInt64) (input : List UInt8) : List Output :=
  if input = [] then []
  else m.made counter (input.take 1024) ++ madeAll (counter + 1) (input.drop 1024)
termination_by input.length
decreasing_by
  have hpos := List.length_pos_iff.mpr (by assumption)
  rw [List.length_drop]
  omega

/-- The chunks of an input; the empty input has one, too. -/
def leaves (input : List UInt8) : List Output :=
  m.chunk 0 (input.take 1024) :: m.chunks 1 (input.drop 1024)

end Mode

/-- The compression that is made of the root, for the first block that it gives out. -/
def Output.asRoot (o : Output) : Output := { o with counter := 0, flags := o.flags ||| ROOT }

/-- All compressions for an input. -/
def Mode.compressions (m : Mode) (input : List UInt8) : List Output :=
  (m.rootOutput input).asRoot ::
    (below m.join (m.leaves input) ++ (m.made 0 (input.take 1024) ++ m.madeAll 1 (input.drop 1024)))

/-- What a compression in a chunk contains of the one before it. -/
def previous (o : Output) : Option (List UInt8) :=
  if o.flags &&& CHUNK_START = 0 then some (storeCvWords o.inputCv) else none

/-- The compressions `s.2` for the bytes `fed`, and what they have given. -/
structure Made (m : Mode) (fed : List UInt8) (s : (Vector UInt32 8 × Nat) × List Output) : Prop where
  fed : s.2.reverse.flatMap Output.block = fed
  count : s.1.2 = s.2.length
  chain : Chain Output.cv previous s.2
  cv : ∀ o ∈ s.2.head?, storeCvWords s.1.1 = o.cv
  first : s.2 = [] → s.1.1 = m.key
  key : ∀ o ∈ s.2.getLast?, o.inputCv = m.key
  blocks : ∀ o ∈ s.2, o.block.length = 64

section Made

variable {m m' : Mode} {counter counter' : UInt64} {fed a b : List UInt8}
  {s : (Vector UInt32 8 × Nat) × List Output} {o : Output}

/-- One more compression on top of them. -/
theorem Made.chain_cons (h : Made m fed s) (hcv : o.inputCv = s.1.1)
    (hflag : o.flags &&& CHUNK_START = startFlag s.1.2) : Chain Output.cv previous (o :: s.2) := by
  obtain ⟨⟨cv, n⟩, outs⟩ := s
  have hcount : n = outs.length := h.count
  subst hcount
  cases outs with
  | nil =>
      have hset : o.flags &&& CHUNK_START ≠ 0 := by
        rw [hflag]
        show startFlag 0 ≠ 0
        decide
      exact if_neg hset
  | cons o' outs =>
      have hzero : o.flags &&& CHUNK_START = 0 := hflag
      refine ⟨?_, h.chain⟩
      rw [previous, if_pos hzero, hcv, h.cv o' rfl]

theorem Made.step (hm : m.Apart) (h : Made m fed s) {block : List UInt8} (hblock : block.length = 64) :
    Made m (fed ++ block) (blockTrace counter m.flags s block) := by
  have hflag : (blockOutput counter m.flags s.1 block).flags &&& CHUNK_START = startFlag s.1.2 := by
    have hstart := hm.start s.1.2 0 (by decide)
    rwa [UInt8.or_zero] at hstart
  refine ⟨?_, congrArg (· + 1) h.count, h.chain_cons rfl hflag, ?_, ?_, ?_, ?_⟩
  · show (blockOutput counter m.flags s.1 block :: s.2).reverse.flatMap _ = _
    rw [List.reverse_cons, List.flatMap_append, h.fed]
    simp [blockOutput, makeOutput]
  · rintro o ⟨⟩
    rfl
  · intro hnil
    cases hnil
  · intro o ho
    by_cases hnone : s.2 = []
    · rw [blockTrace, hnone] at ho
      cases ho
      exact h.first hnone
    · obtain ⟨o', outs, hs⟩ := List.exists_cons_of_ne_nil hnone
      refine h.key o ?_
      rw [hs]
      rw [blockTrace, hs] at ho
      exact ho
  · exact List.forall_mem_cons.mpr ⟨hblock, h.blocks⟩

/-- The compressions of a chunk. -/
theorem made_trace (hm : m.Apart) (counter : UInt64) (a : List UInt8) :
    ∃ fed, fed ++ (m.trace counter a).2 = a ∧ Made m fed (m.trace counter a).1 := by
  have hstart : Made m [] ((m.key, 0), []) := by
    refine ⟨rfl, rfl, trivial, ?_, fun _ => rfl, ?_, ?_⟩ <;> simp
  exact consumeLazy_rule (R := Made m) (fun _ _ _ hblock h => h.step hm hblock) hstart a

theorem blocks_eq_trace (counter : UInt64) (a : List UInt8) :
    m.blocks counter a = ((m.trace counter a).1.1, (m.trace counter a).2) :=
  consumeLazy_map (g := Prod.fst) (fun _ _ => rfl) ((m.key, 0), []) a

theorem length_trace (counter : UInt64) (a : List UInt8) : (m.trace counter a).2.length ≤ 64 :=
  (length_consumeLazy _ (by decide) _ _).1

theorem chunk_eq_trace (counter : UInt64) (a : List UInt8) :
    m.chunk counter a = makeOutput (m.trace counter a).1.1.1 (padded (m.trace counter a).2)
      (UInt8.ofNat (m.trace counter a).2.length) counter
      (m.flags ||| startFlag (m.trace counter a).1.1.2 ||| CHUNK_END) := by
  rw [Mode.chunk, blocks_eq_trace]

theorem made_chain (hm : m.Apart) (counter : UInt64) (a : List UInt8) :
    Chain Output.cv previous (m.chunk counter a :: m.made counter a) := by
  obtain ⟨fed, -, hmade⟩ := made_trace hm counter a
  rw [chunk_eq_trace]
  exact hmade.chain_cons rfl (hm.start _ _ (by decide))

/-- The flags of a chunk are its own. -/
theorem chunk_flags (hm : m.Apart) (counter : UInt64) (a : List UInt8) {mask : UInt8}
    (hmask : 15 &&& mask = mask) (hstart : CHUNK_START &&& mask = 0) (hend : CHUNK_END &&& mask = 0) :
    (m.chunk counter a).flags &&& mask = 0 := by
  rw [chunk_eq_trace]
  show (m.flags ||| startFlag _ ||| CHUNK_END) &&& mask = 0
  rw [flags_and, flags_and, hm.none mask hmask, hend, startFlag]
  split
  · rw [hstart]
    rfl
  · rw [UInt8.zero_and]
    rfl

/-- Two chunks that end in the same compression. -/
theorem chunk_eq_or_collide (hm : m.Apart) (hm' : m'.Apart)
    (h : m.chunk counter a = m'.chunk counter' b) :
    (m = m' ∧ a = b) ∨ Collide Output.cv (m.made counter a) (m'.made counter' b) := by
  have hchain := made_chain hm counter a
  rw [h] at hchain
  refine (hchain.eq_or_collide (made_chain hm' counter' b)).imp_left fun hsame => ?_
  obtain ⟨fed, hfed, hmade⟩ := made_trace hm counter a
  obtain ⟨fed', hfed', hmade'⟩ := made_trace hm' counter' b
  have hlen := length_trace (m := m) counter a
  have hlen' := length_trace (m := m') counter' b
  have houts : (m.trace counter a).1.2 = (m'.trace counter' b).1.2 := hsame
  rw [chunk_eq_trace, chunk_eq_trace, makeOutput, makeOutput, Output.mk.injEq] at h
  obtain ⟨hcv, -, hblock, hblockLen, hflags⟩ := h
  -- the blocks before the last one, and the last one, are the same
  have hblocks : fed = fed' := by rw [← hmade.fed, ← hmade'.fed, houts]
  have hrest : (m.trace counter a).2 = (m'.trace counter' b).2 := by
    have hcount : (m.trace counter a).2.length = (m'.trace counter' b).2.length := by
      have hnat := congrArg UInt8.toNat hblockLen
      rwa [UInt8.toNat_ofNat', UInt8.toNat_ofNat', Nat.mod_eq_of_lt (by omega),
        Nat.mod_eq_of_lt (by omega)] at hnat
    exact List.append_inj_left hblock hcount
  -- and so is the mode
  have hkey : m.key = m'.key := by
    cases hlast : (m.trace counter a).1.2.getLast? with
    | none =>
        have hnil := List.getLast?_eq_none_iff.mp hlast
        rw [← hmade.first hnil, hcv, hmade'.first (houts ▸ hnil)]
    | some o => rw [← hmade.key o hlast, hmade'.key o (houts ▸ hlast)]
  have hmode : m.flags = m'.flags := by
    rw [UInt8.or_assoc, UInt8.or_assoc] at hflags
    refine hm.flags_eq hm' ?_ ?_ hflags <;> (rw [startFlag]; split <;> rfl)
  refine ⟨?_, by rw [← hfed, ← hfed', hblocks, hrest]⟩
  cases m
  cases m'
  rw [Mode.mk.injEq]
  exact ⟨hkey, hmode⟩

theorem madeAll_of_ne_nil (h : a ≠ []) :
    m.madeAll counter a =
      m.made counter (a.take 1024) ++ m.madeAll (counter + 1) (a.drop 1024) := by
  rw [Mode.madeAll, if_neg h]

/-- All the chunks of two inputs. -/
theorem chunks_eq_or_collide (hm : m.Apart) (hm' : m'.Apart)
    (h : m.chunks counter a = m'.chunks counter' b) :
    a = b ∨ Collide Output.cv (m.madeAll counter a) (m'.madeAll counter' b) := by
  induction counter, a using Mode.madeAll.induct generalizing counter' b with
  | case1 counter =>
      by_cases hb : b = []
      · exact .inl hb.symm
      · rw [Mode.chunks_nil] at h
        exact absurd h.symm (Mode.chunks_ne_nil _ _ hb)
  | case2 counter a ha ih =>
      by_cases hb : b = []
      · rw [hb, Mode.chunks_nil] at h
        exact absurd h (Mode.chunks_ne_nil _ _ ha)
      · rw [Mode.chunks_of_ne_nil ha, Mode.chunks_of_ne_nil hb, List.cons.injEq] at h
        rw [madeAll_of_ne_nil ha, madeAll_of_ne_nil hb]
        rcases chunk_eq_or_collide hm hm' h.1 with ⟨-, htake⟩ | hcollide
        · rcases ih h.2 with hdrop | hcollide
          · left
            rw [← List.take_append_drop 1024 a, htake, hdrop, List.take_append_drop]
          · exact .inr (hcollide.mono (List.subset_append_right _ _) (List.subset_append_right _ _))
        · exact .inr (hcollide.mono (List.subset_append_left _ _) (List.subset_append_left _ _))

-- ============================================================================
-- The tree
-- ============================================================================

theorem mem_chunks {o : Output} (h : o ∈ m.chunks counter a) : ∃ counter a, o = m.chunk counter a := by
  induction counter, a using Mode.chunks.induct with
  | case1 counter =>
      rw [Mode.chunks_nil] at h
      cases h
  | case2 counter a ha ih =>
      rw [Mode.chunks_of_ne_nil ha] at h
      rcases List.mem_cons.mp h with rfl | h
      · exact ⟨_, _, rfl⟩
      · exact ih h

theorem mem_leaves {o : Output} (h : o ∈ m.leaves a) : ∃ counter a, o = m.chunk counter a := by
  rcases List.mem_cons.mp h with rfl | h
  · exact ⟨_, _, rfl⟩
  · exact mem_chunks h

theorem leaves_ne_nil (m : Mode) (a : List UInt8) : m.leaves a ≠ [] := List.cons_ne_nil _ _

theorem rootOutput_eq_root (m : Mode) (a : List UInt8) : m.rootOutput a = root m.join (m.leaves a) := by
  rw [Mode.rootOutput, Mode.leaves]
  split
  · rename_i hnil
    rw [hnil, List.take_nil, List.drop_nil, Mode.chunks_nil, root_singleton]
  · rename_i hne
    rw [Mode.chunks_of_ne_nil hne, UInt64.zero_add]

/-- The root is a parent or the only chunk. -/
theorem rootOutput_cases (m : Mode) (a : List UInt8) :
    (∃ l r, m.rootOutput a = m.join l r) ∨ ∃ chunk, m.rootOutput a = m.chunk 0 chunk := by
  rw [rootOutput_eq_root]
  by_cases htwo : 2 ≤ (m.leaves a).length
  · exact .inl ⟨_, _, root_eq_halves htwo⟩
  · rw [root, if_neg htwo]
    exact .inr ⟨_, rfl⟩

/-- A compression of a root is that of one root only. -/
theorem asRoot_inj (hm : m.Apart) (hm' : m'.Apart)
    (h : (m.rootOutput a).asRoot = (m'.rootOutput b).asRoot) : m.rootOutput a = m'.rootOutput b := by
  have hcounter : ∀ (m : Mode) a, (m.rootOutput a).counter = 0 := by
    intro m a
    rcases rootOutput_cases m a with ⟨l, r, h⟩ | ⟨chunk, h⟩ <;> rw [h]
    · rfl
    · rw [chunk_eq_trace]
      rfl
  have hroot : ∀ {m : Mode}, m.Apart → ∀ a, (m.rootOutput a).flags &&& 247 = (m.rootOutput a).flags := by
    intro m hm a
    have hflags : (m.rootOutput a).flags &&& ROOT = 0 := by
      rcases rootOutput_cases m a with ⟨l, r, h⟩ | ⟨chunk, h⟩ <;> rw [h]
      · show (m.flags ||| PARENT) &&& ROOT = 0
        rw [flags_and, hm.none ROOT (by decide)]
        rfl
      · exact chunk_flags hm _ _ (by decide) (by decide) (by decide)
    -- the bit of `ROOT` is 8, so clearing it changes nothing here
    have hsplit : ∀ flags : BitVec 8, flags &&& 8 = 0 → flags &&& 247 = flags := by decide
    rw [← UInt8.toBitVec_inj] at hflags ⊢
    exact hsplit _ hflags
  have hflags : (m.rootOutput a).flags = (m'.rootOutput b).flags := by
    have hor := congrArg (fun o => o.flags &&& 247) h
    have hclear : ROOT &&& 247 = 0 := by decide
    simp only [Output.asRoot, flags_and, hclear, UInt8.or_zero] at hor
    rwa [hroot hm, hroot hm'] at hor
  -- all other fields stand in both as they are
  have hfields := h
  rw [Output.asRoot, Output.asRoot, Output.mk.injEq] at hfields
  obtain ⟨hcv, -, hblock, hblockLen, -⟩ := hfields
  have hcounters := (hcounter m a).trans (hcounter m' b).symm
  cases hx : m.rootOutput a
  cases hy : m'.rootOutput b
  rw [hx, hy] at hcv hblock hblockLen hflags hcounters
  rw [Output.mk.injEq]
  exact ⟨hcv, hcounters, hblock, hblockLen, hflags⟩

theorem join_eq_join {x y x' y' : Output} (h : m.join x y = m'.join x' y') :
    x.cv = x'.cv ∧ y.cv = y'.cv := by
  have hblock := congrArg Output.block h
  exact List.append_inj hblock (by rw [Output.length_cv, Output.length_cv])

theorem chunk_ne_join (hm : m.Apart) (counter : UInt64) (a : List UInt8) (x y : Output) :
    m.chunk counter a ≠ m'.join x y := by
  intro h
  have hchunk : (m.chunk counter a).flags &&& PARENT = 0 :=
    chunk_flags hm counter a (by decide) (by decide) (by decide)
  have hjoin : ∀ flags : BitVec 8, (flags ||| 4) &&& 4 ≠ 0 := by decide
  rw [h, ← UInt8.toBitVec_inj] at hchunk
  exact hjoin _ hchunk

/-- The first 32 bytes of a hash are a chaining value, too. -/
theorem digest_eq_cv (m : Mode) (a : List UInt8) : m.digest a 0 32 = (m.rootOutput a).asRoot.cv := by
  have hblock := Hasher.rootByte_block (m.rootOutput a) 0 (show 0 + 32 ≤ 64 by decide)
  rw [List.drop_zero, Output.rootBlock, take_compressXofPortable] at hblock
  rw [Mode.digest]
  exact hblock.symm

/-- Two inputs with the same hash. -/
theorem digest_eq_or_collide (hm : m.Apart) (hm' : m'.Apart) (h : m.digest a 0 32 = m'.digest b 0 32) :
    (m = m' ∧ a = b) ∨ Collide Output.cv (m.compressions a) (m'.compressions b) := by
  rw [digest_eq_cv, digest_eq_cv] at h
  refine or_collide_cons h fun hroot => ?_
  have hroots := asRoot_inj hm hm' hroot
  rw [rootOutput_eq_root, rootOutput_eq_root] at hroots
  have hleaves := root_eq_or_collide (f := Output.cv) (fun x y x' y' => join_eq_join)
    (leaves_ne_nil m a) (leaves_ne_nil m' b)
    (fun x hx y z => by
      obtain ⟨counter, a, rfl⟩ := mem_leaves hx
      exact chunk_ne_join hm counter a y z)
    (fun x hx y z => by
      obtain ⟨counter, a, rfl⟩ := mem_leaves hx
      exact (chunk_ne_join hm' counter a y z).symm) hroots
  rcases hleaves with hleaves | hcollide
  · -- the same chunks
    rw [Mode.leaves, Mode.leaves, List.cons.injEq] at hleaves
    rcases chunk_eq_or_collide hm hm' hleaves.1 with ⟨hmode, htake⟩ | hcollide
    · rcases chunks_eq_or_collide hm hm' hleaves.2 with hdrop | hcollide
      · left
        refine ⟨hmode, ?_⟩
        rw [← List.take_append_drop 1024 a, htake, hdrop, List.take_append_drop]
      · exact .inr ((hcollide.mono (List.subset_append_right _ _)
          (List.subset_append_right _ _)).mono (List.subset_append_right _ _)
          (List.subset_append_right _ _))
    · exact .inr ((hcollide.mono (List.subset_append_left _ _)
        (List.subset_append_left _ _)).mono (List.subset_append_right _ _)
        (List.subset_append_right _ _))
  · exact .inr (hcollide.mono (List.subset_append_left _ _) (List.subset_append_left _ _))

/-- Every compression is one of a whole block. -/
theorem length_block (hm : m.Apart) {o : Output} (h : o ∈ m.compressions a) : o.block.length = 64 := by
  have hchunk : ∀ counter chunk, (m.chunk counter chunk).block.length = 64 := by
    intro counter chunk
    rw [chunk_eq_trace]
    exact ChunkState.length_padded (length_trace counter chunk)
  have hmade : ∀ counter chunk, ∀ o ∈ m.made counter chunk, o.block.length = 64 := by
    intro counter chunk
    obtain ⟨fed, -, hmade⟩ := made_trace hm counter chunk
    exact hmade.blocks
  have hmadeAll : ∀ counter input, ∀ o ∈ m.madeAll counter input, o.block.length = 64 := by
    intro counter input
    induction counter, input using Mode.madeAll.induct with
    | case1 counter =>
        rw [Mode.madeAll, if_pos rfl]
        simp
    | case2 counter input hne ih =>
        rw [madeAll_of_ne_nil hne, List.forall_mem_append]
        exact ⟨hmade _ _, ih⟩
  have hjoin : ∀ x y, (m.join x y).block.length = 64 := by
    intro x y
    show (x.cv ++ y.cv).length = 64
    rw [List.length_append, Output.length_cv, Output.length_cv]
  have hleaf : ∀ o ∈ m.leaves a, o.block.length = 64 := by
    intro o ho
    obtain ⟨counter, chunk, rfl⟩ := mem_leaves ho
    exact hchunk counter chunk
  -- the root, the parents, the chunks' own blocks
  rcases List.mem_cons.mp h with rfl | h
  · rw [rootOutput_eq_root]
    exact root_forall hjoin (leaves_ne_nil m a) hleaf
  · rcases List.mem_append.mp h with h | h
    · exact below_forall hjoin (leaves_ne_nil m a) hleaf o h
    · rcases List.mem_append.mp h with h | h
      · exact hmade _ _ o h
      · exact hmadeAll _ _ o h

end Made

namespace Hasher

/-- **Collisions**: where two runs of calls, on any processors, with keys and flags of their own,
    end in the same 32 bytes or more, they have hashed the same bytes in the same mode, or a
    compression of the one and another compression of the other give the same value. -/
theorem collision_of_finalize (p p' : Platform) {m m' : Mode} (hm : m.Apart) (hm' : m'.Apart)
    {calls calls' : List Call} (hfits : Fits [] calls) (hfits' : Fits [] calls') {h h' : Hasher}
    {outs outs' : List (List UInt8)} (hrun : (initBase m.key m.flags).run p calls = some (h, outs))
    (hrun' : (initBase m'.key m'.flags).run p' calls' = some (h', outs')) {len : Nat}
    (hlen : 32 ≤ len) (hout : h.finalize p len = h'.finalize p' len) :
    (m = m' ∧ calls.foldl given [] = calls'.foldl given []) ∨
      ∃ x ∈ m.compressions (calls.foldl given []), ∃ y ∈ m'.compressions (calls'.foldl given []),
        x ≠ y ∧ x.cv = y.cv ∧ x.block.length = 64 ∧ y.block.length = 64 := by
  obtain ⟨h₁, hrun₁, ha⟩ := (Absorbed.initBase m).run (p := p) hfits
  obtain ⟨h₂, hrun₂, ha'⟩ := (Absorbed.initBase m').run (p := p') hfits'
  rw [hrun₁] at hrun
  rw [hrun₂] at hrun'
  cases hrun
  cases hrun'
  rw [Hasher.finalize, Hasher.finalize, ha.finalizeSeek, ha'.finalizeSeek, Option.some.injEq] at hout
  have hfront : m.digest (calls.foldl given []) 0 32 = m'.digest (calls'.foldl given []) 0 32 := by
    rw [← Mode.digest_take (m := m) _ 0 hlen, ← Mode.digest_take (m := m') _ 0 hlen]
    exact congrArg (List.take 32) hout
  refine (digest_eq_or_collide hm hm' hfront).imp_right ?_
  rintro ⟨x, hx, y, hy, hne, hcv⟩
  exact ⟨x, hx, y, hy, hne, hcv, length_block hm hx, length_block hm' hy⟩

/-- Three bytes in two ways. -/
theorem collision_of_finalize_pieces :
    ([1, 2] ++ [3] : List UInt8) = [1, 2, 3] ∨
      ∃ x ∈ Mode.compressions ⟨IV, 0⟩ [1, 2, 3], ∃ y ∈ Mode.compressions ⟨IV, 0⟩ [1, 2, 3],
        x ≠ y ∧ x.cv = y.cv ∧ x.block.length = 64 ∧ y.block.length = 64 := by
  have hfits : Fits [] [.update [1, 2], .update [3]] := by simp [Fits, given]
  have hfits' : Fits [] [.update [1, 2, 3]] := by simp [Fits, given]
  obtain ⟨h, hrun, ha⟩ := (Absorbed.initBase ⟨IV, 0⟩).run (p := default) hfits
  obtain ⟨h', hrun', ha'⟩ := (Absorbed.initBase ⟨IV, 0⟩).run (p := default) hfits'
  have hout : h.finalize default 32 = h'.finalize default 32 := by
    rw [Hasher.finalize, Hasher.finalize, ha.finalizeSeek, ha'.finalizeSeek]
    rfl
  have hmode : Mode.Apart ⟨IV, 0⟩ := by decide
  have hboth := collision_of_finalize default default hmode hmode hfits hfits' hrun hrun'
    (Nat.le_refl 32) hout
  exact hboth.imp (fun h => h.2) fun h => h

end Hasher
end Blake3
end Fredlib
