/-
  Fredlib.Hash.HashKeyText

  How a `HashKey` is printed: `operator<<` of include/hash.hpp.

  The operator sets what it needs of the stream before every byte, so that the text of a
  key does not depend on what was set before, but for `std::showbase` and
  `std::uppercase`.  Keys printed one after another can be read again, and their texts
  are in the order of the numbers that the keys stand for (`print_keys`), which
  `operator<` of the keys is not.
-/

import Fredlib.Hash.HashKey

namespace Fredlib

open Lib

-- ============================================================================
-- Streams
-- ============================================================================

/-- `std::dec`, `std::hex` and `std::oct`. -/
inductive BaseField
  | dec
  | hex
  | oct

/-- `std::left`, `std::right` and `std::internal`. -/
inductive AdjustField
  | left
  | right
  | internal

/-- `std::ostream`: its format, and what has been written to it. -/
structure Ostream where
  fill : Char
  width : Nat
  adjust : AdjustField
  base : BaseField
  uppercase : Bool
  showbase : Bool
  text : List Char

/-- The digits of a number, in capitals if asked for. -/
def digits (uppercase : Bool) (base n : Nat) : List Char :=
  if uppercase then (Nat.toDigits base n).map Char.toUpper else Nat.toDigits base n

namespace Ostream

/-- What `std::showbase` puts before a number. -/
def baseMark (out : Ostream) (n : Nat) : List Char :=
  if out.showbase ∧ n ≠ 0 then
    match out.base with
    | .dec => []
    | .oct => ['0']
    | .hex => if out.uppercase then ['0', 'X'] else ['0', 'x']
  else []

/-- The digits of a number in the base of the stream. -/
def number (out : Ostream) (n : Nat) : List Char :=
  match out.base with
  | .dec => digits out.uppercase 10 n
  | .oct => digits out.uppercase 8 n
  | .hex => digits out.uppercase 16 n

/-- `out << n`, for an `int` that is not negative. -/
def putInt (out : Ostream) (n : Nat) : Ostream :=
  let mark := out.baseMark n
  let number := out.number n
  let pad := List.replicate (out.width - (mark.length + number.length)) out.fill
  let field :=
    match out.adjust, out.base with
    | .left, _ => mark ++ number ++ pad
    | .internal, .hex => mark ++ pad ++ number
    | _, _ => pad ++ mark ++ number
  { out with width := 0, text := out.text ++ field }

/-- `out << std::endl` -/
def endl (out : Ostream) : Ostream := { out with text := out.text ++ ['\n'] }

end Ostream

namespace HashKey

variable {n : Nat}

/-- The body of the loop of `operator<<`. -/
def printByte (out : Ostream) (c : UInt8) : Ostream :=
  { out with fill := '0', width := 2, adjust := .right, base := .hex }.putInt c.toNat

/-- `operator<<` -/
def print (out : Ostream) (key : HashKey n) : Ostream :=
  (key.mDigest.toList.foldl printByte out).endl

-- ============================================================================
-- The texts
-- ============================================================================

/-- The digit of four bits. -/
def hexChar (uppercase : Bool) (d : Nat) : Char :=
  if uppercase then (Nat.digitChar d).toUpper else Nat.digitChar d

/-- The two digits of a byte. -/
def hexByte (uppercase : Bool) (c : UInt8) : List Char :=
  [hexChar uppercase (c.toNat / 16), hexChar uppercase (c.toNat % 16)]

/-- The text of a key. -/
def text (uppercase : Bool) (key : HashKey n) : List Char :=
  key.mDigest.toList.flatMap (hexByte uppercase)

/-- The value of a digit. -/
def hexValue (c : Char) : Option Nat :=
  if '0' ≤ c ∧ c ≤ '9' then some (c.toNat - '0'.toNat)
  else if 'a' ≤ c ∧ c ≤ 'f' then some (c.toNat - 'a'.toNat + 10)
  else if 'A' ≤ c ∧ c ≤ 'F' then some (c.toNat - 'A'.toNat + 10)
  else none

/-- Read bytes of two digits each. -/
def readBytes : Nat → List Char → Option (List UInt8 × List Char)
  | 0, text => some ([], text)
  | k + 1, hi :: lo :: text => do
      let hi ← hexValue hi
      let lo ← hexValue lo
      let (bytes, text) ← readBytes k text
      some (UInt8.ofNat (16 * hi + lo) :: bytes, text)
  | _, _ => none

/-- Read a key and the end of its line. -/
def readKey (n : Nat) (text : List Char) : Option (HashKey n × List Char) :=
  match readBytes n text with
  | some (bytes, '\n' :: text) => some (⟨Vector.ofFn fun i => bytes.getD i.1 0⟩, text)
  | _ => none

/-- Read keys. -/
def readKeys (n : Nat) : Nat → List Char → Option (List (HashKey n) × List Char)
  | 0, text => some ([], text)
  | k + 1, text => do
      let (key, text) ← readKey n text
      let (keys, text) ← readKeys n k text
      some (key :: keys, text)

-- ============================================================================
-- What is printed
-- ============================================================================

variable {out : Ostream} {uppercase : Bool}

theorem digits_byte (uppercase : Bool) (c : UInt8) :
    List.replicate (2 - (digits uppercase 16 c.toNat).length) '0' ++ digits uppercase 16 c.toNat =
      hexByte uppercase c := by
  have hlt : c.toNat < 256 := c.toNat_lt
  have hzero : hexChar uppercase 0 = '0' := by cases uppercase <;> rfl
  by_cases hsmall : c.toNat < 16
  · have hhi : c.toNat / 16 = 0 := by omega
    have hlo : c.toNat % 16 = c.toNat := by omega
    rw [hexByte, hhi, hlo, hzero, digits, Nat.toDigits_of_lt_base hsmall]
    cases uppercase <;> rfl
  · have hhi : c.toNat / 16 < 16 := by omega
    rw [hexByte, digits, Nat.toDigits_of_base_le (by decide) (by omega),
      Nat.toDigits_of_lt_base hhi]
    cases uppercase <;> simp [hexChar]

/-- What a stream is after a byte. -/
theorem printByte_eq (hout : out.showbase = false) (c : UInt8) :
    printByte out c = { out with
      fill := '0', width := 0, adjust := .right, base := .hex
      text := out.text ++ hexByte out.uppercase c } := by
  have hmark : ({ out with fill := '0', width := 2, adjust := .right, base := .hex } :
      Ostream).baseMark c.toNat = [] := by
    rw [Ostream.baseMark, if_neg (by simp [hout])]
  rw [printByte, Ostream.putInt]
  simp only [hmark, Ostream.number, List.length_nil, Nat.zero_add, List.append_nil, digits_byte]

theorem printBytes_text (hout : out.showbase = false) (bytes : List UInt8) :
    (bytes.foldl printByte out).text = out.text ++ bytes.flatMap (hexByte out.uppercase) ∧
      (bytes.foldl printByte out).showbase = false ∧
      (bytes.foldl printByte out).uppercase = out.uppercase := by
  induction bytes generalizing out with
  | nil => exact ⟨(List.append_nil _).symm, hout, rfl⟩
  | cons c bytes ih =>
      have hnext := printByte_eq hout c
      have hshow : (printByte out c).showbase = false := by rw [hnext]; exact hout
      obtain ⟨htext, hshow, hupper⟩ := ih hshow
      rw [hnext] at htext hupper
      rw [List.foldl_cons]
      refine ⟨?_, hshow, ?_⟩
      · rw [List.flatMap_cons, ← List.append_assoc, ← htext, hnext]
      · rw [hnext]
        exact hupper

theorem print_text (hout : out.showbase = false) (key : HashKey n) :
    (print out key).text = out.text ++ (key.text out.uppercase ++ ['\n']) ∧
      (print out key).showbase = false ∧ (print out key).uppercase = out.uppercase := by
  obtain ⟨htext, hshow, hupper⟩ := printBytes_text hout key.mDigest.toList
  refine ⟨?_, hshow, hupper⟩
  rw [print, Ostream.endl, htext, List.append_assoc]
  rfl

-- ============================================================================
-- Reading it again
-- ============================================================================

theorem hexValue_hexChar {d : Nat} (h : d < 16) : hexValue (hexChar uppercase d) = some d := by
  have hall : ∀ (uppercase : Bool) (d : Fin 16), hexValue (hexChar uppercase d.1) = some d.1 := by
    decide
  exact hall uppercase ⟨d, h⟩

variable (uppercase) in
theorem readBytes_text (bytes : List UInt8) (rest : List Char) :
    readBytes bytes.length (bytes.flatMap (hexByte uppercase) ++ rest) = some (bytes, rest) := by
  induction bytes with
  | nil => rfl
  | cons c bytes ih =>
      have hlt : c.toNat < 256 := c.toNat_lt
      have hbyte : UInt8.ofNat (16 * (c.toNat / 16) + c.toNat % 16) = c := by
        rw [Nat.div_add_mod, UInt8.ofNat_toNat]
      rw [List.flatMap_cons, List.append_assoc, hexByte, List.length_cons]
      simp only [List.cons_append, List.nil_append, readBytes,
        hexValue_hexChar (show c.toNat / 16 < 16 by omega),
        hexValue_hexChar (show c.toNat % 16 < 16 by omega), Option.bind_eq_bind, Option.bind_some,
        ih, hbyte]

theorem readKey_text (key : HashKey n) (rest : List Char) :
    readKey n (key.text uppercase ++ ['\n'] ++ rest) = some (key, rest) := by
  have hlen : key.mDigest.toList.length = n := Vector.length_toList
  have hread := readBytes_text uppercase key.mDigest.toList ('\n' :: rest)
  rw [hlen] at hread
  rw [readKey, text, List.append_assoc, List.singleton_append, hread]
  obtain ⟨digest⟩ := key
  simp only [Option.some.injEq, Prod.mk.injEq, and_true, HashKey.mk.injEq]
  refine Vector.ext fun i hi => ?_
  simp [List.getD_eq_getElem?_getD]

theorem readKeys_text (keys : List (HashKey n)) (rest : List Char) :
    readKeys n keys.length (keys.flatMap (fun key => key.text uppercase ++ ['\n']) ++ rest) =
      some (keys, rest) := by
  induction keys with
  | nil => rfl
  | cons key keys ih =>
      rw [List.flatMap_cons, List.append_assoc, List.length_cons, readKeys, readKey_text]
      simp only [Option.bind_eq_bind, Option.bind_some, ih]

-- ============================================================================
-- The order of the texts
-- ============================================================================

theorem hexByte_lt_iff {a b : UInt8} {l m : List Char} :
    hexByte uppercase a ++ l < hexByte uppercase b ++ m ↔ a < b ∨ a = b ∧ l < m := by
  have hall : ∀ (uppercase : Bool) (d e : Fin 16),
      (hexChar uppercase d.1 < hexChar uppercase e.1 ↔ d.1 < e.1) ∧
        (hexChar uppercase d.1 = hexChar uppercase e.1 ↔ d.1 = e.1) := by decide
  have ha : a.toNat < 256 := a.toNat_lt
  have hb : b.toNat < 256 := b.toNat_lt
  have hhi := hall uppercase ⟨a.toNat / 16, by omega⟩ ⟨b.toNat / 16, by omega⟩
  have hlo := hall uppercase ⟨a.toNat % 16, by omega⟩ ⟨b.toNat % 16, by omega⟩
  simp only [hexByte, List.cons_append, List.nil_append, List.cons_lt_cons_iff, hhi, hlo,
    UInt8.lt_iff_toNat_lt, ← UInt8.toNat_inj]
  by_cases hlm : l < m
  · simp only [hlm, and_true]
    omega
  · simp only [hlm, and_false, or_false]
    omega

theorem text_lt_iff (a b : HashKey n) : a.text uppercase < b.text uppercase ↔ a.be < b.be := by
  have hbyte : ∀ (k : HashKey n), ∀ d ∈ k.mDigest.toList.map UInt8.toNat, d < 256 := by
    intro k d hd
    obtain ⟨c, -, rfl⟩ := List.mem_map.mp hd
    exact c.toNat_lt
  have hbytes : ∀ l m : List UInt8, l.length = m.length →
      (l.flatMap (hexByte uppercase) < m.flatMap (hexByte uppercase) ↔
        l.map UInt8.toNat < m.map UInt8.toNat) := by
    intro l
    induction l with
    | nil =>
        intro m hlen
        rw [List.length_nil, eq_comm, List.length_eq_zero_iff] at hlen
        simp [hlen]
    | cons c l ih =>
        intro m hlen
        cases m with
        | nil => cases hlen
        | cons d m =>
            rw [List.flatMap_cons, List.flatMap_cons, hexByte_lt_iff, ih m (Nat.succ.inj hlen),
              List.map_cons, List.map_cons, List.cons_lt_cons_iff, UInt8.lt_iff_toNat_lt,
              ← UInt8.toNat_inj]
  rw [text, text, hbytes _ _ (length_digest a b), be, be,
    beNat_lt_iff (by simp) (hbyte a) (hbyte b)]

/-- **Keys printed** to a stream of any format but `std::showbase`: the text is that of each key
    on a line of its own, the keys can be read from it, whatever follows, and two keys are in the
    order of their numbers exactly if their texts are in the order of a dictionary. -/
theorem print_keys (out : Ostream) (hout : out.showbase = false) (keys : List (HashKey n)) :
    (keys.foldl print out).text =
        out.text ++ keys.flatMap (fun key => key.text out.uppercase ++ ['\n']) ∧
      (∀ rest, readKeys n keys.length
        (keys.flatMap (fun key => key.text out.uppercase ++ ['\n']) ++ rest) = some (keys, rest)) ∧
      ∀ a b : HashKey n, a.text out.uppercase < b.text out.uppercase ↔ a.be < b.be := by
  refine ⟨?_, readKeys_text keys, text_lt_iff⟩
  induction keys generalizing out with
  | nil => exact (List.append_nil _).symm
  | cons key keys ih =>
      obtain ⟨htext, hshow, hupper⟩ := print_text hout key
      rw [List.foldl_cons, ih _ hshow, htext, hupper, List.flatMap_cons, List.append_assoc]

/-- Two keys of two bytes, on a stream that writes capitals in decimal. -/
theorem print_keys_two :
    ([HashKey.mk #v[2, 1], HashKey.mk #v[1, 171]].foldl print
        ⟨' ', 0, .left, .dec, true, false, []⟩).text = "0201\n01AB\n".toList :=
  (print_keys ⟨' ', 0, .left, .dec, true, false, []⟩ rfl _).1

end HashKey
end Fredlib
