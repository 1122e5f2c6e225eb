/-
  Fredlib.Hash.Blake3.Dispatch

  hashes/b3/blake3_dispatch.c: which kernel computes, on which processor.

  The kernels in assembly are parameters.  All that is known of them is what they are
  for: each computes what the portable one computes.
-/

import Fredlib.Hash.Blake3.Compress
import Mathlib.Tactic.SplitIfs

namespace Fredlib
namespace Blake3

/-- What `cpuid` and `xgetbv` return, and what the program was compiled for. -/
structure Cpu where
  amd64 : Bool
  /-- `eax` of leaf 0 -/
  maxId : Int32
  /-- `ecx` and `edx` of leaf 1 -/
  ecx : UInt32
  edx : UInt32
  /-- `ebx` of leaf 7 -/
  ebx : UInt32
  mask : UInt64
  deriving Inhabited

/-- The members of `cpu_feature`. -/
structure CpuFeatures where
  SSE2 : Bool
  SSSE3 : Bool
  SSE41 : Bool
  AVX : Bool
  AVX2 : Bool
  AVX512F : Bool
  AVX512VL : Bool

/-- The bit `i` of a register is set. -/
def bit (r : UInt32) (i : UInt32) : Bool := r &&& (1 <<< i) ≠ 0

/-- The processor says that the system saves its registers, and it saves those that the
    mask `m` stands for. -/
def Cpu.saves (cpu : Cpu) (m : UInt64) : Bool := bit cpu.ecx 27 && cpu.mask &&& m == m

/-- `get_cpu_features` -/
def getCpuFeatures (cpu : Cpu) : CpuFeatures where
  SSE2 := cpu.amd64 || bit cpu.edx 26
  SSSE3 := bit cpu.ecx 0
  SSE41 := bit cpu.ecx 19
  AVX := cpu.saves 6 && bit cpu.ecx 28
  AVX2 := cpu.saves 6 && decide (cpu.maxId ≥ 7) && bit cpu.ebx 5
  AVX512F := cpu.saves 6 && decide (cpu.maxId ≥ 7) && cpu.saves 224 && bit cpu.ebx 16
  AVX512VL := cpu.saves 6 && decide (cpu.maxId ≥ 7) && cpu.saves 224 && bit cpu.ebx 31

/-- The instruction sets that there are kernels for. -/
inductive Isa
  | sse2
  | sse41
  | avx2
  | avx512
  deriving DecidableEq

/-- The kernels in assembly. -/
structure Assembly where
  compressInPlace : Isa → Vector UInt32 8 → List UInt8 → UInt8 → UInt64 → UInt8 → Vector UInt32 8
  compressXof : Isa → Vector UInt32 8 → List UInt8 → UInt8 → UInt64 → UInt8 → List UInt8
  hashMany : Isa → List (List UInt8) → Nat → Vector UInt32 8 → UInt64 → Bool → UInt8 → UInt8 →
    UInt8 → List (List UInt8)
  compressInPlace_eq : ∀ isa, compressInPlace isa = compressInPlacePortable
  compressXof_eq : ∀ isa, compressXof isa = compressXofPortable
  hashMany_eq : ∀ isa, hashMany isa = hashManyPortable

instance : Inhabited Assembly :=
  ⟨⟨fun _ => compressInPlacePortable, fun _ => compressXofPortable, fun _ => hashManyPortable,
    fun _ => rfl, fun _ => rfl, fun _ => rfl⟩⟩

/-- What the program runs on; `memory` is what an array of 32 chaining values holds
    before it is written. -/
structure Platform where
  cpu : Cpu
  assembly : Assembly
  memory : Vector (List UInt8) 32
  deriving Inhabited

namespace Platform

variable (p : Platform)

/-- The kernel that `blake3_compress_in_place` and `blake3_compress_xof` call; `none` is
    the portable one. -/
def compressKernel : Option Isa :=
  let features := getCpuFeatures p.cpu
  if features.AVX512VL then some .avx512
  else if features.SSE41 then some .sse41
  else if features.SSE2 then some .sse2
  else none

/-- The kernel that `blake3_hash_many` calls. -/
def hashManyKernel : Option Isa :=
  let features := getCpuFeatures p.cpu
  if features.AVX512F && features.AVX512VL then some .avx512
  else if features.AVX2 then some .avx2
  else if features.SSE41 then some .sse41
  else if features.SSE2 then some .sse2
  else none

/-- `blake3_compress_in_place` -/
def compressInPlace : Vector UInt32 8 → List UInt8 → UInt8 → UInt64 → UInt8 → Vector UInt32 8 :=
  match p.compressKernel with
  | some isa => p.assembly.compressInPlace isa
  | none => compressInPlacePortable

/-- `blake3_compress_xof` -/
def compressXof : Vector UInt32 8 → List UInt8 → UInt8 → UInt64 → UInt8 → List UInt8 :=
  match p.compressKernel with
  | some isa => p.assembly.compressXof isa
  | none => compressXofPortable

/-- `blake3_hash_many` -/
def hashMany : List (List UInt8) → Nat → Vector UInt32 8 → UInt64 → Bool → UInt8 → UInt8 → UInt8 →
    List (List UInt8) :=
  match p.hashManyKernel with
  | some isa => p.assembly.hashMany isa
  | none => hashManyPortable

/-- `blake3_simd_degree` -/
def simdDegree : Nat :=
  let features := getCpuFeatures p.cpu
  if features.AVX512F && features.AVX512VL then 16
  else if features.AVX2 then 8
  else if features.SSE41 then 4
  else if features.SSE2 then 4
  else 1

/-- `MAX_SIMD_DEGREE` of x86 -/
def maxSimdDegree : Nat := 16

@[simp] theorem compressInPlace_eq : p.compressInPlace = compressInPlacePortable := by
  unfold compressInPlace
  split
  · exact p.assembly.compressInPlace_eq _
  · rfl

@[simp] theorem compressXof_eq : p.compressXof = compressXofPortable := by
  unfold compressXof
  split
  · exact p.assembly.compressXof_eq _
  · rfl

@[simp] theorem hashMany_eq : p.hashMany = hashManyPortable := by
  unfold hashMany
  split
  · exact p.assembly.hashMany_eq _
  · rfl

theorem simdDegree_pos : 0 < p.simdDegree := by
  simp only [simdDegree]
  split_ifs <;> simp

theorem simdDegree_cases :
    p.simdDegree = 1 ∨ p.simdDegree = 4 ∨ p.simdDegree = 8 ∨ p.simdDegree = 16 := by
  simp only [simdDegree]
  split_ifs <;> simp

end Platform
end Blake3
end Fredlib
