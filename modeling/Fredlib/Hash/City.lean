/-
  Fredlib.Hash.City

  `CityHashCrc256` of hashes/city/city.cc: a hash of four words.

  `s` in the source is a pointer into the input, here a position in it.  The two
  macros are functions on the local variables; the two loops are run as often as
  their conditions say.  `_mm_crc32_u64` is the instruction of the processor.
-/

import Fredlib.Hash.Memory

namespace Fredlib
namespace City

def k0 : UInt64 := 0xc3a5c85c97cb3127

/-- `Fetch64` -/
def fetch64 (input : List UInt8) (p : Nat) : UInt64 := load 8 (input.drop p)

/-- `Rotate` -/
def rotate (val shift : UInt64) : UInt64 :=
  if shift = 0 then val else (val >>> shift) ||| (val <<< (64 - shift))

/-- `ShiftMix` -/
def shiftMix (val : UInt64) : UInt64 := val ^^^ (val >>> 47)

/-- `HashLen16`, by `Hash128to64`. -/
def hashLen16 (u v : UInt64) : UInt64 :=
  let kMul : UInt64 := 0x9ddfea08eb382d69
  let a := (u ^^^ v) * kMul
  let a := a ^^^ (a >>> 47)
  let b := (v ^^^ a) * kMul
  let b := b ^^^ (b >>> 47)
  b * kMul

/-- One bit after another, the least significant first. -/
def crcBits : Nat → UInt64 → UInt64
  | 0, crc => crc
  | n + 1, crc => crcBits n ((crc >>> 1) ^^^ (if crc &&& 1 = 1 then 0x82f63b78 else 0))

/-- `_mm_crc32_u64`: the polynomial of CRC-32C. -/
def crc32 (crc data : UInt64) : UInt64 := crcBits 64 ((crc &&& 0xffffffff) ^^^ data)

/-- The local variables of `CityHashCrc256Long`. -/
structure Locals where
  a : UInt64
  b : UInt64
  c : UInt64
  d : UInt64
  e : UInt64
  f : UInt64
  g : UInt64
  h : UInt64
  x : UInt64
  y : UInt64
  z : UInt64
  s : Nat

/-- `CHUNK` -/
def chunk (input : List UInt8) (r : UInt64) (v : Locals) : Locals :=
  -- PERMUTE3(x, z, y)
  let x := v.y
  let y := v.z
  let z := v.x
  let b := v.b + fetch64 input v.s
  let c := v.c + fetch64 input (v.s + 8)
  let d := v.d + fetch64 input (v.s + 16)
  let e := v.e + fetch64 input (v.s + 24)
  let f := v.f + fetch64 input (v.s + 32)
  let a := v.a + b
  let h := v.h + f
  let b := b + c
  let f := f + d
  let g := v.g + e
  let e := e + z
  let g := g + x
  let z := crc32 z (b + g)
  let y := crc32 y (e + h)
  let x := crc32 x (f + a)
  let e := rotate e r
  let c := c + e
  { a, b, c, d, e, f, g, h, x, y, z, s := v.s + 40 }

/-- The loop over 240 bytes. -/
def bigLoop (input : List UInt8) : Nat → Locals → Locals
  | 0, v => v
  | iters + 1, v =>
      let v := chunk input 0 v
      let v := chunk input 33 { v with a := v.c, h := v.a, c := v.h }
      let v := chunk input 0 { v with a := v.f, h := v.a, f := v.h }
      let v := chunk input 42 { v with b := v.f, h := v.b, f := v.h }
      let v := chunk input 0 { v with b := v.d, h := v.b, d := v.h }
      let v := chunk input 33 { v with b := v.e, h := v.b, e := v.h }
      bigLoop input iters { v with a := v.e, h := v.a, e := v.h }

/-- The loop over 40 bytes. -/
def smallLoop (input : List UInt8) : Nat → Locals → Locals
  | 0, v => v
  | n + 1, v =>
      let v := chunk input 29 v
      let v := { v with
        e := v.e ^^^ rotate v.a 20
        h := v.h + rotate v.b 30
        g := v.g ^^^ rotate v.c 40
        f := v.f + rotate v.d 34 }
      smallLoop input n { v with c := v.g, h := v.c, g := v.h }

/-- The last bytes, with some of those before them. -/
def lastBytes (input : List UInt8) (len : Nat) (v : Locals) : Locals :=
  if len > 0 then
    let v := chunk input 33 { v with s := v.s + len - 40 }
    { v with
      e := v.e ^^^ rotate v.a 43
      h := v.h + rotate v.b 42
      g := v.g ^^^ rotate v.c 41
      f := v.f + rotate v.d 40 }
  else v

/-- The array `result`. -/
structure Words where
  w0 : UInt64
  w1 : UInt64
  w2 : UInt64
  w3 : UInt64
  deriving DecidableEq

/-- The last lines of `CityHashCrc256Long`. -/
def finish (result0 result1 : UInt64) (v : Locals) : Words :=
  let result0 := result0 ^^^ v.h
  let result1 := result1 ^^^ v.g
  let g := v.g + v.h
  let a := hashLen16 v.a (g + v.z)
  let x := v.x + (v.y <<< 32)
  let b := v.b + x
  let c := hashLen16 v.c v.z + v.h
  let d := hashLen16 v.d (v.e + result0)
  let g := g + v.e
  let h := v.h + hashLen16 x v.f
  let e := hashLen16 a d + g
  let z := hashLen16 b c + a
  let y := hashLen16 g h + c
  let result0 := e + z + y + x
  let a := shiftMix ((a + y) * k0) * k0 + b
  let result1 := result1 + (a + result0)
  let a := shiftMix (a * k0) * k0 + c
  let result2 := a + result1
  let a := shiftMix ((a + e) * k0) * k0
  { w0 := result0, w1 := result1, w2 := result2, w3 := a + result2 }

/-- `CityHashCrc256Long` -/
def cityHashCrc256Long (input : List UInt8) (seed : UInt32) : Words :=
  let len := UInt64.ofNat input.length
  let a := fetch64 input 56 + k0
  let b := fetch64 input 96 + k0
  let c := hashLen16 b len
  let d := fetch64 input 120 * k0 + len
  let e := fetch64 input 184 + seed.toUInt64
  let v : Locals :=
    { a, b, c, d, e, f := 0, g := 0, h := c + d, x := seed.toUInt64, y := 0, z := 0, s := 0 }
  let v := bigLoop input (input.length / 240) v
  let v := smallLoop input (input.length % 240 / 40) v
  finish c d (lastBytes input (input.length % 240 % 40) v)

/-- `CityHashCrc256` -/
def cityHashCrc256 (input : List UInt8) : Words :=
  if input.length ≥ 240 then cityHashCrc256Long input 0
  else
    -- CityHashCrc256Short
    let buf := input ++ List.replicate (240 - input.length) 0
    cityHashCrc256Long buf (~~~ UInt32.ofNat input.length)

end City
end Fredlib
