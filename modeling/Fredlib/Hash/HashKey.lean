/-
  Fredlib.Hash.HashKey

  `HashKey` of include/hash.hpp: a digest of `nbytes` bytes with comparison
  operators, meant to order digests as big-endian numbers.

  `operator<` answers true at the first byte of the left key that is below the
  byte of the right key, and goes on when it is above.  So it is not the order
  of the numbers: `operators_big_endian_iff` says for which pairs of keys the
  operators agree with it, and for which digest lengths they do on all pairs.
-/

import Fredlib.Lib.BigEndian

namespace Fredlib

open Lib

/-- `HashKey<HashEngine, nbytes>`. -/
structure HashKey (nbytes : Nat) where
  mDigest : Vector UInt8 nbytes
  deriving DecidableEq

namespace HashKey

variable {nbytes : Nat}

/-- The loop of `operator==`, over the bytes that are left. -/
def eqLoop : List UInt8 → List UInt8 → Bool
  | l :: lhs, r :: rhs => if l ≠ r then false else eqLoop lhs rhs
  | _, _ => true

/-- The loop of `operator<`, over the bytes that are left. -/
def ltLoop : List UInt8 → List UInt8 → Bool
  | l :: lhs, r :: rhs => if l < r then true else ltLoop lhs rhs
  | _, _ => false

/-- `operator==` -/
def eq (lhs rhs : HashKey nbytes) : Bool := eqLoop lhs.mDigest.toList rhs.mDigest.toList

/-- `operator!=` -/
def ne (lhs rhs : HashKey nbytes) : Bool := !(eq rhs lhs)

/-- `operator<` -/
def lt (lhs rhs : HashKey nbytes) : Bool := ltLoop lhs.mDigest.toList rhs.mDigest.toList

/-- `operator>` -/
def gt (lhs rhs : HashKey nbytes) : Bool := lt rhs lhs

/-- `operator<=` -/
def le (lhs rhs : HashKey nbytes) : Bool := !(lt rhs lhs)

/-- `operator>=` -/
def ge (lhs rhs : HashKey nbytes) : Bool := !(lt lhs rhs)

-- ============================================================================
-- What the operators are meant to be
-- ============================================================================

/-- The number whose big-endian bytes are the digest. -/
def be (k : HashKey nbytes) : Nat := beNat 256 (k.mDigest.toList.map UInt8.toNat)

/-- The operators compare `a` and `b` as big-endian numbers. -/
structure ComparesAsNumbers (a b : HashKey nbytes) : Prop where
  lt : a.lt b = true ↔ a.be < b.be
  gt : a.gt b = true ↔ a.be > b.be
  le : a.le b = true ↔ a.be ≤ b.be
  ge : a.ge b = true ↔ a.be ≥ b.be
  eq : a.eq b = true ↔ a.be = b.be

/-- Exactly one of the three. -/
def ExactlyOne (p q r : Prop) : Prop :=
  (p ∧ ¬ q ∧ ¬ r) ∨ (¬ p ∧ q ∧ ¬ r) ∨ (¬ p ∧ ¬ q ∧ r)

/-- `operator<` is a strict total order on the keys of this length. -/
structure StrictTotalOrder (nbytes : Nat) : Prop where
  irrefl : ∀ a : HashKey nbytes, a.lt a = false
  asymm : ∀ a b : HashKey nbytes, a.lt b = true → b.lt a = false
  trans : ∀ a b c : HashKey nbytes, a.lt b = true → b.lt c = true → a.lt c = true
  total : ∀ a b : HashKey nbytes, ExactlyOne (a.lt b = true) (a.eq b = true) (b.lt a = true)

/-- Byte by byte, `a` is at most `b`. -/
def Below (a b : HashKey nbytes) : Prop := ∀ i : Fin nbytes, a.mDigest[i] ≤ b.mDigest[i]

instance (a b : HashKey nbytes) : Decidable (Below a b) :=
  inferInstanceAs (Decidable (∀ i : Fin nbytes, a.mDigest[i] ≤ b.mDigest[i]))

-- ============================================================================
-- The loops
-- ============================================================================

theorem eqLoop_iff {lhs rhs : List UInt8} (hlen : lhs.length = rhs.length) :
    eqLoop lhs rhs = true ↔ lhs = rhs := by
  induction lhs generalizing rhs with
  | nil =>
      rw [List.length_nil, eq_comm, List.length_eq_zero_iff] at hlen
      simp [hlen, eqLoop]
  | cons l lhs ih =>
      cases rhs with
      | nil => cases hlen
      | cons r rhs =>
          have htail := ih (Nat.succ.inj hlen)
          by_cases hlr : l = r <;> simp [eqLoop, hlr, htail]

/-- The loop of `operator<` runs through if no byte is below its counterpart. -/
theorem ltLoop_eq_false_iff {lhs rhs : List UInt8} (hlen : lhs.length = rhs.length) :
    ltLoop lhs rhs = false ↔ List.Forall₂ (· ≤ ·) rhs lhs := by
  induction lhs generalizing rhs with
  | nil =>
      rw [List.length_nil, eq_comm, List.length_eq_zero_iff] at hlen
      simp [hlen, ltLoop]
  | cons l lhs ih =>
      cases rhs with
      | nil => cases hlen
      | cons r rhs =>
          have htail := ih (Nat.succ.inj hlen)
          by_cases hlr : l < r
          · simp [ltLoop, hlr]
          · have hle : r ≤ l := by simpa using hlr
            simp [ltLoop, hlr, htail, hle]

theorem length_digest (a b : HashKey nbytes) :
    a.mDigest.toList.length = b.mDigest.toList.length := by simp

theorem below_iff_forall₂ {a b : HashKey nbytes} :
    Below a b ↔ List.Forall₂ (· ≤ ·) a.mDigest.toList b.mDigest.toList := by
  rw [List.forall₂_iff_get]
  simp only [Vector.length_toList, List.get_eq_getElem, Vector.getElem_toList, true_and]
  exact ⟨fun h i hi _ => h ⟨i, hi⟩, fun h i => h i i.2 i.2⟩

/-- `a < b` is false exactly when `b` is below `a` byte by byte. -/
theorem lt_eq_false_iff {a b : HashKey nbytes} : a.lt b = false ↔ Below b a := by
  rw [below_iff_forall₂]
  exact ltLoop_eq_false_iff (length_digest a b)

theorem lt_iff {a b : HashKey nbytes} : a.lt b = true ↔ ¬ Below b a := by
  rw [← lt_eq_false_iff, Bool.not_eq_false]

theorem eq_iff {a b : HashKey nbytes} : a.eq b = true ↔ a = b := by
  obtain ⟨a⟩ := a
  obtain ⟨b⟩ := b
  rw [eq, eqLoop_iff (by simp), Vector.toList_inj, HashKey.mk.injEq]

-- ============================================================================
-- The operators against the numbers
-- ============================================================================

theorem Below.be_le {a b : HashKey nbytes} (h : Below a b) : a.be ≤ b.be := by
  refine beNat_le_of_forall₂ ?_
  rw [List.forall₂_map_left_iff, List.forall₂_map_right_iff]
  exact (below_iff_forall₂.mp h).imp fun _ _ => UInt8.le_iff_toNat_le.mp

theorem be_inj {a b : HashKey nbytes} : a.be = b.be ↔ a = b := by
  have hbyte : ∀ (k : HashKey nbytes), ∀ d ∈ k.mDigest.toList.map UInt8.toNat, d < 256 := by
    intro k d hd
    obtain ⟨x, -, rfl⟩ := List.mem_map.mp hd
    exact x.toNat_lt
  have hinj : Function.Injective UInt8.toNat := fun x y h => UInt8.toNat_inj.mp h
  obtain ⟨a⟩ := a
  obtain ⟨b⟩ := b
  rw [be, be, beNat_inj (by decide) (by simp) (hbyte _) (hbyte _), hinj.list_map.eq_iff,
    Vector.toList_inj, HashKey.mk.injEq]

theorem ComparesAsNumbers.symm {a b : HashKey nbytes} (h : ComparesAsNumbers a b) :
    ComparesAsNumbers b a :=
  ⟨h.gt, h.lt, h.ge, h.le, by rw [eq_iff, eq_comm, ← eq_iff, h.eq, eq_comm]⟩

/-- Keys that are ordered byte by byte are compared as numbers. -/
theorem Below.comparesAsNumbers {a b : HashKey nbytes} (h : Below a b) :
    ComparesAsNumbers a b := by
  have hle := h.be_le
  have hback : b.lt a = false := lt_eq_false_iff.mpr h
  have hlt : a.lt b = true ↔ a.be < b.be := by
    rw [lt_iff]
    constructor
    · intro hnot
      refine lt_of_le_of_ne hle fun heq => hnot ?_
      rw [be_inj.mp heq]
      exact fun i => UInt8.le_refl _
    · intro hnum hba
      exact absurd hba.be_le (by omega)
  refine ⟨hlt, ?_, ?_, ?_, ?_⟩
  · simp only [gt, hback, Bool.false_eq_true, false_iff]
    omega
  · simp only [le, hback, Bool.not_false, true_iff]
    exact hle
  · rw [ge, Bool.not_eq_true', ← Bool.not_eq_true, hlt]
    omega
  · rw [eq_iff, be_inj]

/-- Keys that are not ordered byte by byte are each below the other. -/
theorem lt_both {a b : HashKey nbytes} (hab : ¬ Below a b) (hba : ¬ Below b a) :
    a.lt b = true ∧ b.lt a = true :=
  ⟨lt_iff.mpr hba, lt_iff.mpr hab⟩

theorem comparesAsNumbers_iff {a b : HashKey nbytes} :
    ComparesAsNumbers a b ↔ Below a b ∨ Below b a := by
  constructor
  · intro h
    by_contra hnone
    rw [not_or] at hnone
    obtain ⟨hab, hba⟩ := lt_both hnone.1 hnone.2
    have h1 := h.lt.mp hab
    have h2 := h.gt.mp hba
    omega
  · rintro (h | h)
    · exact h.comparesAsNumbers
    · exact h.comparesAsNumbers.symm

/-- Where all keys are compared as numbers, `operator<` is a strict total order. -/
theorem strictTotalOrder_of_forall (h : ∀ a b : HashKey nbytes, ComparesAsNumbers a b) :
    StrictTotalOrder nbytes := by
  have hlt : ∀ a b : HashKey nbytes, a.lt b = true ↔ a.be < b.be := fun a b => (h a b).lt
  refine ⟨?_, ?_, ?_, ?_⟩
  · intro a
    rw [← Bool.not_eq_true, hlt]
    omega
  · intro a b hab
    rw [hlt] at hab
    rw [← Bool.not_eq_true, hlt]
    omega
  · intro a b c hab hbc
    rw [hlt] at hab hbc ⊢
    omega
  · intro a b
    unfold ExactlyOne
    rw [hlt, hlt, (h a b).eq]
    omega

/-- From two bytes on there are keys that are not ordered byte by byte. -/
theorem exists_incomparable (hn : 1 < nbytes) :
    ∃ a b : HashKey nbytes, ¬ Below a b ∧ ¬ Below b a := by
  let key (p : Nat) : HashKey nbytes := ⟨Vector.ofFn fun i => if i.val = p then 1 else 0⟩
  have hkey : ∀ p q, p < nbytes → p ≠ q → ¬ Below (key p) (key q) := by
    intro p q hp hpq hbelow
    have hat := hbelow ⟨p, hp⟩
    simp [key, hpq] at hat
  exact ⟨key 0, key 1, hkey 0 1 (by omega) (by decide), hkey 1 0 hn (by decide)⟩

theorem below_total (hn : nbytes ≤ 1) (a b : HashKey nbytes) : Below a b ∨ Below b a := by
  by_cases hzero : nbytes = 0
  · subst hzero
    exact .inl fun i => i.elim0
  · have hone : nbytes = 1 := by omega
    subst hone
    rcases UInt8.le_total a.mDigest[0] b.mDigest[0] with h | h
    · exact .inl fun i => by simpa [Subsingleton.elim i 0] using h
    · exact .inr fun i => by simpa [Subsingleton.elim i 0] using h

/-- **The operators and the big-endian order.**  Two keys are compared as
    numbers exactly when one of them is below the other byte by byte; and all
    pairs of a length are, with `operator<` a strict total order, exactly up to
    one byte. -/
theorem operators_big_endian_iff (nbytes : Nat) :
    (∀ a b : HashKey nbytes, ComparesAsNumbers a b ↔ Below a b ∨ Below b a) ∧
    ((∀ a b : HashKey nbytes, ComparesAsNumbers a b) ↔ nbytes ≤ 1) ∧
    (StrictTotalOrder nbytes ↔ nbytes ≤ 1) := by
  have hsmall : nbytes ≤ 1 → ∀ a b : HashKey nbytes, ComparesAsNumbers a b :=
    fun hn a b => comparesAsNumbers_iff.mpr (below_total hn a b)
  refine ⟨fun _ _ => comparesAsNumbers_iff, ⟨fun hall => ?_, hsmall⟩, ⟨fun hord => ?_, fun hn =>
    strictTotalOrder_of_forall (hsmall hn)⟩⟩
  · by_contra hn
    have hlong : 1 < nbytes := by omega
    obtain ⟨a, b, hab, hba⟩ := exists_incomparable hlong
    exact (comparesAsNumbers_iff.mp (hall a b)).elim hab hba
  · by_contra hn
    have hlong : 1 < nbytes := by omega
    obtain ⟨a, b, hab, hba⟩ := exists_incomparable hlong
    obtain ⟨hlt, hgt⟩ := lt_both hab hba
    rw [hord.asymm a b hlt] at hgt
    cases hgt

/-- Two bytes, `02 01` and `01 02`: each key is less than the other. -/
theorem operator_lt_not_big_endian :
    ¬ ∀ (nbytes : Nat) (a b : HashKey nbytes), ComparesAsNumbers a b := by
  intro h
  have hlt : (HashKey.mk #v[2, 1]).be < (HashKey.mk #v[1, 2]).be := (h 2 _ _).lt.mp (by decide)
  revert hlt
  decide

end HashKey
end Fredlib
