/-
  Fredlib.Lib.Reading

  Computations together with the places of memory that they read.

  A place is where a word of `w` units begins.  `Reading.Covers w a b` says that a
  computation reads nothing but what is between `a` and `b`, and all of that; one that
  goes on where the last one has ended covers what they both cover.
-/

import Mathlib.Data.List.Basic

namespace Fredlib
namespace Lib

universe u

/-- What a computation reads, in order, and its result. -/
structure Reading (α : Type u) where
  places : List Nat
  value : α

namespace Reading

variable {α β : Type u}

/-- Read the word at a place. -/
def read (fetch : Nat → α) (p : Nat) : Reading α := ⟨[p], fetch p⟩

instance : Monad Reading where
  pure x := ⟨[], x⟩
  bind m f := ⟨m.places ++ (f m.value).places, (f m.value).value⟩

@[simp] theorem pure_value (x : α) : (pure x : Reading α).value = x := rfl

@[simp] theorem pure_places (x : α) : (pure x : Reading α).places = [] := rfl

@[simp] theorem bind_value (m : Reading α) (f : α → Reading β) :
    (m >>= f).value = (f m.value).value := rfl

@[simp] theorem bind_places (m : Reading α) (f : α → Reading β) :
    (m >>= f).places = m.places ++ (f m.value).places := rfl

/-- Every word read is between `a` and `b`. -/
def Inside (m : Reading α) (w a b : Nat) : Prop := ∀ p ∈ m.places, a ≤ p ∧ p + w ≤ b

/-- And every unit between them is read. -/
structure Covers (m : Reading α) (w a b : Nat) : Prop where
  inside : m.Inside w a b
  covered : ∀ i, a ≤ i → i < b → ∃ p ∈ m.places, p ≤ i ∧ i < p + w

variable {m : Reading α} {f : α → Reading β} {w a b c : Nat}

theorem Inside.mono {a' b' : Nat} (h : m.Inside w a b) (ha : a' ≤ a) (hb : b ≤ b') :
    m.Inside w a' b' := by
  intro p hp
  obtain ⟨hle, hend⟩ := h p hp
  exact ⟨by omega, by omega⟩

theorem Inside.bind (hm : m.Inside w a b) (hf : (f m.value).Inside w a b) :
    (m >>= f).Inside w a b := by
  intro p hp
  rw [bind_places] at hp
  exact (List.mem_append.mp hp).elim (hm p) (hf p)

theorem covers_pure (x : α) : (pure x : Reading α).Covers w a a :=
  ⟨by simp [Inside], fun i hle hlt => absurd hlt (by omega)⟩

theorem Covers.of_places {m' : Reading β} (h : m.Covers w a b) (hplaces : m'.places = m.places) :
    m'.Covers w a b :=
  ⟨fun p hp => h.inside p (hplaces ▸ hp), fun i hle hlt => hplaces ▸ h.covered i hle hlt⟩

/-- A second computation may begin before the first one has ended. -/
theorem Covers.bind {a' : Nat} (hm : m.Covers w a b) (hf : (f m.value).Covers w a' c) (haa : a ≤ a')
    (hab : a' ≤ b) (hbc : b ≤ c) : (m >>= f).Covers w a c := by
  refine ⟨(hm.inside.mono (Nat.le_refl a) hbc).bind (hf.inside.mono haa (Nat.le_refl c)),
    fun i hle hlt => ?_⟩
  rw [bind_places]
  by_cases hi : i < b
  · obtain ⟨p, hp, hat⟩ := hm.covered i hle hi
    exact ⟨p, List.mem_append_left _ hp, hat⟩
  · obtain ⟨p, hp, hat⟩ := hf.covered i (by omega) hlt
    exact ⟨p, List.mem_append_right _ hp, hat⟩

/-- Reads that come first, anywhere inside. -/
theorem Covers.after (hm : m.Inside w a b) (hf : (f m.value).Covers w a b) :
    (m >>= f).Covers w a b := by
  refine ⟨hm.bind hf.inside, fun i hle hlt => ?_⟩
  rw [bind_places]
  obtain ⟨p, hp, hat⟩ := hf.covered i hle hlt
  exact ⟨p, List.mem_append_right _ hp, hat⟩

end Reading

end Lib
end Fredlib
