/-
  Fredlib.Hash.ThreadLocalEngines

  `Blake3Engine` and `SHAEngine` of include/hash.hpp, called by any number of threads.

  Both keep what they work with in variables that are `static thread_local`: a hasher, and
  a context with a buffer.  A call finds there what the last call of its thread has left.
  Unlike the static variables of the other two engines, they make no difference to what a
  call delivers, in any interleaving of the steps of any threads.

  The algorithms behind `SHAEngine` are not part of this program.  Of a context it is only
  known what `EVP_DigestInit_ex`, `EVP_DigestUpdate` and `EVP_DigestFinal_ex` are for:
  whatever a context has been used for, it hashes what it is given after the next
  initialization.
-/

import Fredlib.Lib.Scratch
import Fredlib.Hash.Engines
import Fredlib.Hash.Blake3.Collision

namespace Fredlib

open Lib

-- ============================================================================
-- Keys
-- ============================================================================

/-- Bytes at the front of a key; those behind them stay zero. -/
theorem HashKey.create_front {n : Nat} {data : List UInt8} (h : data.length ≤ n) :
    ∃ key : HashKey n, HashKey.create n [⟨0, data⟩] = some key ∧
      key.mDigest.toList = data ++ List.replicate (n - data.length) 0 := by
  have hfits : 0 + data.length ≤ n := by omega
  refine ⟨⟨Vector.ofFn fun i => (data[i.1]?).getD 0⟩, ?_, ?_⟩
  · simp only [create, writeAll, write, if_pos hfits, Option.bind_some]
    congr 2
    refine Vector.ext fun i hi => ?_
    have hzero : (Vector.replicate n (0 : UInt8)).get ⟨i, hi⟩ = 0 := Vector.getElem_replicate hi
    simp only [Vector.getElem_ofFn, Nat.zero_le, if_true, Nat.sub_zero, hzero]
  · refine List.ext_getElem (by simp; omega) fun i hi _ => ?_
    simp only [Vector.length_toList] at hi
    simp only [Vector.getElem_toList, Vector.getElem_ofFn]
    by_cases hlt : i < data.length
    · rw [List.getElem?_eq_getElem hlt, Option.getD_some, List.getElem_append_left hlt]
    · rw [List.getElem?_eq_none (by omega), Option.getD_none, List.getElem_append_right (by omega),
        List.getElem_replicate]

/-- A call of `hash`: `len` is a `size_t`. -/
structure Request where
  input : List UInt8
  size : input.length < 2 ^ 64
  digestLen : UInt32

/-- The key that a call of this length fills is `bytes`. -/
def Fills (req : Request) (out bytes : List UInt8) : Prop :=
  ∃ key : HashKey req.digestLen.toNat,
    HashKey.create req.digestLen.toNat [⟨0, out⟩] = some key ∧ key.mDigest.toList = bytes

-- ============================================================================
-- `Blake3Engine`
-- ============================================================================

namespace Blake3Engine

open Blake3

/-- What a thread works with: its hasher, and the digest of the call it is in.  `none`
    stands for a read or a write outside of an array. -/
structure Memory where
  hasher : Option Hasher
  digest : Option (List UInt8)

/-- `hash` -/
def hash (p : Platform) : Routine Memory Request (Option (List UInt8)) where
  steps req := [
    fun s => { s with hasher := some Hasher.init },
    fun s => { s with hasher := s.hasher.bind fun h => h.update p req.input },
    fun s => { s with digest := s.hasher.bind fun h => h.finalize p req.digestLen.toNat }]
  out := Memory.digest

theorem hash_computes (p : Platform) :
    (hash p).Computes fun req => some (Mode.digest ⟨IV, 0⟩ req.input 0 req.digestLen.toNat) := by
  intro req s
  have hsize : ([] : List UInt8).length + req.input.length < 2 ^ 64 := by simpa using req.size
  obtain ⟨h, hupdate, hseen⟩ := (Hasher.Absorbed.initBase ⟨IV, 0⟩).update (p := p) hsize
  rw [List.nil_append] at hseen
  have hupdate' : Hasher.update p Hasher.init req.input = some h := hupdate
  simp only [hash, Routine.after, List.foldl_cons, List.foldl_nil, Option.bind_some, hupdate',
    Hasher.finalize, hseen.finalizeSeek]
  rfl

/-- **`Blake3Engine`**: in any interleaving of any threads, every call delivers the BLAKE3 hash
    of its own input, as many bytes of it as its digest has, and these are the key. -/
theorem keys_of_run (p : Platform) {T : Type*} [DecidableEq T]
    {log : List (Routine.Delivered T Request (Option (List UInt8)))}
    {s : T → Routine.Thread Memory Request}
    (h : ((hash p).system T).Traced (fun _ _ => True) (hash p).obs log s) :
    ∀ o ∈ log, ∃ digest, o.out = some digest ∧
      digest = Mode.digest ⟨IV, 0⟩ o.input.input 0 o.input.digestLen.toNat ∧
      Fills o.input digest digest := by
  intro o ho
  have hlen : (Mode.digest ⟨IV, 0⟩ o.input.input 0 o.input.digestLen.toNat).length =
      o.input.digestLen.toNat := Mode.length_digest _ _ _
  obtain ⟨key, hcreate, hkey⟩ := HashKey.create_front (Nat.le_of_eq hlen)
  refine ⟨_, Routine.delivers (hash_computes p) h o ho, rfl, key, hcreate, ?_⟩
  rw [hkey, hlen, Nat.sub_self, List.replicate_zero, List.append_nil]

/-- Two threads at a time, with keys of one byte and of 32 bytes. -/
theorem keys_of_run_two :
    ∃ log s, ((hash default).system Bool).Traced (fun _ _ => True) (hash default).obs log s ∧
      log.length = 2 ∧ ∀ o ∈ log, ∃ digest, o.out = some digest ∧
        digest = Mode.digest ⟨IV, 0⟩ o.input.input 0 o.input.digestLen.toNat ∧
        Fills o.input digest digest := by
  have hinit : ((hash default).system Bool).init fun _ => ⟨⟨none, none⟩, none⟩ := fun _ => rfl
  have hrun : ∃ log s, ((hash default).system Bool).Traced (fun _ _ => True) (hash default).obs log s ∧
      log.length = 2 := by
    refine ⟨_, _, ((((((((((System.Traced.init hinit).step
      (e := .call false ⟨[97], by decide, 1⟩) trivial rfl).step
      (e := .call true ⟨[98], by decide, 32⟩) trivial rfl).step
      (e := .step false) trivial rfl).step (e := .step true) trivial rfl).step
      (e := .step true) trivial rfl).step (e := .step false) trivial rfl).step
      (e := .step false) trivial rfl).step (e := .step true) trivial rfl).step
      (e := .ret true) trivial rfl).step (e := .ret false) trivial rfl, rfl⟩
  obtain ⟨log, s, htraced, hlen⟩ := hrun
  exact ⟨log, s, htraced, hlen, keys_of_run default htraced⟩

/-- `key` is what the constructor makes of what a call has delivered. -/
def Stores {T : Type*} (o : Routine.Delivered T Request (Option (List UInt8))) {n : Nat}
    (key : HashKey n) : Prop :=
  o.input.digestLen.toNat = n ∧ ∃ out, o.out = some out ∧ HashKey.create n [⟨0, out⟩] = some key

variable {p : Platform} {T : Type*} [DecidableEq T]
  {log : List (Routine.Delivered T Request (Option (List UInt8)))}
  {s : T → Routine.Thread Memory Request} {o : Routine.Delivered T Request (Option (List UInt8))}

theorem exists_stores (h : ((hash p).system T).Traced (fun _ _ => True) (hash p).obs log s)
    (ho : o ∈ log) : ∃ key : HashKey o.input.digestLen.toNat, Stores o key := by
  have hlen : (Mode.digest ⟨IV, 0⟩ o.input.input 0 o.input.digestLen.toNat).length =
      o.input.digestLen.toNat := Mode.length_digest _ _ _
  obtain ⟨key, hcreate, -⟩ := HashKey.create_front (Nat.le_of_eq hlen)
  exact ⟨key, rfl, _, Routine.delivers (hash_computes p) h o ho, hcreate⟩

/-- A key is the front of the digest, byte by byte. -/
theorem stores_digest (h : ((hash p).system T).Traced (fun _ _ => True) (hash p).obs log s)
    (ho : o ∈ log) {n : Nat} {key : HashKey n} (hkey : Stores o key) :
    key.mDigest.toList = Mode.digest ⟨IV, 0⟩ o.input.input 0 n := by
  obtain ⟨rfl, out, hout, hcreate⟩ := hkey
  rw [Routine.delivers (hash_computes p) h o ho, Option.some.injEq] at hout
  subst hout
  have hlen : (Mode.digest ⟨IV, 0⟩ o.input.input 0 o.input.digestLen.toNat).length =
      o.input.digestLen.toNat := Mode.length_digest _ _ _
  obtain ⟨key', hcreate', hkey'⟩ := HashKey.create_front (Nat.le_of_eq hlen)
  rw [hcreate] at hcreate'
  cases hcreate'
  rw [hkey', hlen, Nat.sub_self, List.replicate_zero, List.append_nil]

/-- **Equal keys**: of the keys of 32 bytes or more that threads make in any interleaving, two are
    equal if their inputs are; and only if, unless a compression for the one input and another
    one for the other give the same value. -/
theorem equal_keys_of_run
    (h : ((hash p).system T).Traced (fun _ _ => True) (hash p).obs log s)
    (ho : o ∈ log) {o' : Routine.Delivered T Request (Option (List UInt8))} (ho' : o' ∈ log)
    {n : Nat} (hn : 32 ≤ n) {key key' : HashKey n} (hkey : Stores o key) (hkey' : Stores o' key') :
    (o.input.input = o'.input.input → key.eq key' = true) ∧
    (key.eq key' = true → o.input.input = o'.input.input ∨
      ∃ x ∈ Mode.compressions ⟨IV, 0⟩ o.input.input,
        ∃ y ∈ Mode.compressions ⟨IV, 0⟩ o'.input.input,
          x ≠ y ∧ x.cv = y.cv ∧ x.block.length = 64 ∧ y.block.length = 64) := by
  have hdigest := stores_digest h ho hkey
  have hdigest' := stores_digest h ho' hkey'
  constructor
  · intro hinput
    rw [HashKey.eq_iff]
    rw [hinput, ← hdigest', Vector.toList_inj] at hdigest
    cases key
    cases key'
    exact congrArg HashKey.mk hdigest
  · intro heq
    rw [HashKey.eq_iff] at heq
    have hfront : Mode.digest ⟨IV, 0⟩ o.input.input 0 32 = Mode.digest ⟨IV, 0⟩ o'.input.input 0 32 := by
      rw [← Mode.digest_take _ 0 hn, ← Mode.digest_take _ 0 hn, ← hdigest, ← hdigest', heq]
    have hapart : Mode.Apart ⟨IV, 0⟩ := by decide
    rcases digest_eq_or_collide hapart hapart hfront with ⟨-, hinput⟩ | ⟨x, hx, y, hy, hne, hcv⟩
    · exact .inl hinput
    · exact .inr ⟨x, hx, y, hy, hne, hcv, length_block hapart hx, length_block hapart hy⟩

/-- Two threads that hash "a". -/
theorem equal_keys_of_run_two :
    ∃ log s, ((hash default).system Bool).Traced (fun _ _ => True) (hash default).obs log s ∧
      ∃ o ∈ log, ∃ o' ∈ log, o.thread ≠ o'.thread ∧
        ∃ key key' : HashKey 32, Stores o key ∧ Stores o' key' ∧ key.eq key' = true := by
  have hinit : ((hash default).system Bool).init fun _ => ⟨⟨none, none⟩, none⟩ := fun _ => rfl
  have hrun : ∃ out out' s, ((hash default).system Bool).Traced (fun _ _ => True)
      (hash default).obs [⟨true, ⟨[97], by decide, 32⟩, out⟩, ⟨false, ⟨[97], by decide, 32⟩, out'⟩]
      s := by
    refine ⟨_, _, _, ((((((((((System.Traced.init hinit).step
      (e := .call false ⟨[97], by decide, 32⟩) trivial rfl).step
      (e := .call true ⟨[97], by decide, 32⟩) trivial rfl).step
      (e := .step false) trivial rfl).step (e := .step true) trivial rfl).step
      (e := .step true) trivial rfl).step (e := .step false) trivial rfl).step
      (e := .step false) trivial rfl).step (e := .step true) trivial rfl).step
      (e := .ret true) trivial rfl).step (e := .ret false) trivial rfl⟩
  obtain ⟨out, out', s, htraced⟩ := hrun
  have ho := List.mem_cons_self (a := (⟨true, ⟨[97], by decide, 32⟩, out⟩ :
    Routine.Delivered Bool Request _)) (l := [⟨false, ⟨[97], by decide, 32⟩, out'⟩])
  have ho' := List.mem_cons_of_mem (⟨true, ⟨[97], by decide, 32⟩, out⟩ :
    Routine.Delivered Bool Request _) (List.mem_singleton_self ⟨false, ⟨[97], by decide, 32⟩, out'⟩)
  obtain ⟨key, hkey⟩ := exists_stores htraced ho
  obtain ⟨key', hkey'⟩ := exists_stores htraced ho'
  have hequal := equal_keys_of_run htraced ho ho' (Nat.le_refl 32) hkey hkey'
  exact ⟨_, s, htraced, _, ho, _, ho', by simp, key, key', hkey, hkey', hequal.1 rfl⟩

end Blake3Engine

-- ============================================================================
-- `SHAEngine`
-- ============================================================================

namespace SHAEngine

/-- `EVP_MD_CTX`: `EVP_DigestInit_ex`, `EVP_DigestUpdate`, and `EVP_DigestFinal_ex`, which
    writes the digest of all the pieces since the initialization. -/
structure EvpContext (evp : EvpMd) (Ctx : Type*) where
  digestInit : Ctx → Ctx
  digestUpdate : Ctx → List UInt8 → Ctx
  digestFinal : Ctx → Ctx × List UInt8
  final_updates : ∀ (c : Ctx) (pieces : List (List UInt8)),
    (digestFinal (pieces.foldl digestUpdate (digestInit c))).2 = evp.digest pieces.flatten

/-- What a thread works with: its context, the buffer `_digest`, and the digest of the call it
    is in. -/
structure Memory (Ctx : Type*) where
  mdctx : Ctx
  buffer : List UInt8
  digest : List UInt8

variable {evp : EvpMd} {Ctx : Type*}

/-- `hash` in steps. -/
def calls (ctx : EvpContext evp Ctx) : Routine (Memory Ctx) Request (List UInt8) where
  steps req := [
    fun s => { s with mdctx := ctx.digestInit s.mdctx },
    fun s => { s with mdctx := ctx.digestUpdate s.mdctx req.input }] ++
    if evp.size ≤ req.digestLen.toNat then
      [fun s =>
        let (mdctx, digest) := ctx.digestFinal s.mdctx
        { s with mdctx, digest }]
    else [
      fun s =>
        let (mdctx, buffer) := ctx.digestFinal s.mdctx
        { s with mdctx, buffer },
      fun s => { s with digest := s.buffer.take req.digestLen.toNat }]
  out := Memory.digest

theorem calls_compute (ctx : EvpContext evp Ctx) :
    (calls ctx).Computes fun req => (evp.digest req.input).take req.digestLen.toNat := by
  intro req s
  have hfinal : (ctx.digestFinal (ctx.digestUpdate (ctx.digestInit s.mdctx) req.input)).2 =
      evp.digest req.input := by
    have hone := ctx.final_updates s.mdctx [req.input]
    rwa [List.flatten_singleton] at hone
  by_cases hfits : evp.size ≤ req.digestLen.toNat
  · have hlen : (evp.digest req.input).length ≤ req.digestLen.toNat := by rwa [evp.length_digest]
    simp only [calls, if_pos hfits, Routine.after, List.cons_append, List.nil_append,
      List.foldl_cons, List.foldl_nil, hfinal]
    rw [List.take_of_length_le hlen]
  · simp only [calls, if_neg hfits, Routine.after, List.cons_append, List.nil_append,
      List.foldl_cons, List.foldl_nil, hfinal]

/-- **`SHAEngine`**: in any interleaving of any threads, every call delivers the front of the
    digest of its own input, which is what a call alone stores; the key is filled up with
    zeros if it is longer than the digest. -/
theorem keys_of_calls (ctx : EvpContext evp Ctx) {T : Type*} [DecidableEq T]
    {log : List (Routine.Delivered T Request (List UInt8))}
    {s : T → Routine.Thread (Memory Ctx) Request}
    (h : ((calls ctx).system T).Traced (fun _ _ => True) (calls ctx).obs log s) :
    ∀ o ∈ log, o.out = (evp.digest o.input.input).take o.input.digestLen.toNat ∧
      hash evp o.input.input o.input.digestLen = [⟨0, o.out⟩] ∧
      Fills o.input o.out
        (o.out ++ List.replicate (o.input.digestLen.toNat - evp.size) 0) := by
  intro o ho
  have hout := Routine.delivers (calls_compute ctx) h o ho
  have hlen : o.out.length = min o.input.digestLen.toNat evp.size := by
    rw [hout, List.length_take, evp.length_digest]
  have hfits : o.out.length ≤ o.input.digestLen.toNat := by omega
  obtain ⟨key, hcreate, hkey⟩ := HashKey.create_front hfits
  refine ⟨hout, ?_, key, hcreate, ?_⟩
  · rw [hash, hout]
    split
    · rename_i hfits
      rw [List.take_of_length_le (by rwa [evp.length_digest])]
    · rfl
  · rw [hkey, hlen]
    congr 2
    omega

/-- SHA-1, as far as "a". -/
def sha1OfA : EvpMd where
  size := 20
  digest input :=
    if input = [97] then
      [134, 247, 228, 55, 250, 165, 167, 252, 225, 93, 29, 220, 185, 234, 234, 234, 55, 118, 103, 184]
    else List.replicate 20 0
  length_digest input := by split <;> rfl

/-- A context that keeps all the pieces. -/
def collecting (evp : EvpMd) : EvpContext evp (List UInt8) where
  digestInit _ := []
  digestUpdate c piece := c ++ piece
  digestFinal c := (c, evp.digest c)
  final_updates _ pieces := by rw [List.foldl_append_eq_append, List.map_id']; rfl

/-- Two threads at a time, with keys of 4 bytes and of 20 bytes. -/
theorem keys_of_calls_two :
    ∃ log s, ((calls (collecting sha1OfA)).system Bool).Traced (fun _ _ => True)
        (calls (collecting sha1OfA)).obs log s ∧ log.length = 2 ∧
      ∀ o ∈ log, o.out = (sha1OfA.digest o.input.input).take o.input.digestLen.toNat ∧
        hash sha1OfA o.input.input o.input.digestLen = [⟨0, o.out⟩] ∧
        Fills o.input o.out (o.out ++ List.replicate (o.input.digestLen.toNat - 20) 0) := by
  have hinit : ((calls (collecting sha1OfA)).system Bool).init fun _ => ⟨⟨[], [], []⟩, none⟩ :=
    fun _ => rfl
  have hrun : ∃ log s, ((calls (collecting sha1OfA)).system Bool).Traced (fun _ _ => True)
      (calls (collecting sha1OfA)).obs log s ∧ log.length = 2 := by
    refine ⟨_, _, (((((((((((System.Traced.init hinit).step
      (e := .call false ⟨[97], by decide, 4⟩) trivial rfl).step
      (e := .call true ⟨[97], by decide, 20⟩) trivial rfl).step
      (e := .step false) trivial rfl).step (e := .step true) trivial rfl).step
      (e := .step false) trivial rfl).step (e := .step false) trivial rfl).step
      (e := .step true) trivial rfl).step (e := .step true) trivial rfl).step
      (e := .ret true) trivial rfl).step (e := .step false) trivial rfl).step
      (e := .ret false) trivial rfl, rfl⟩
  obtain ⟨log, s, htraced, hlen⟩ := hrun
  exact ⟨log, s, htraced, hlen, keys_of_calls (collecting sha1OfA) htraced⟩

end SHAEngine
end Fredlib
