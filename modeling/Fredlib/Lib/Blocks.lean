/-
  Fredlib.Lib.Blocks

  Streams taken in blocks of a fixed size.

  `consume n step s l` feeds the whole blocks of `n` elements at the front of `l`
  to `step`, and returns what is left over: fewer than `n` elements.  A consumer
  that keeps the rest and puts it before its next input does not notice where a
  stream was cut (`consume_append`).  `consumeLazy` is the same for a consumer that keeps
  a whole block as well, until it knows that more follows.

  `Tiles a b ps`: the pieces `ps`, each a position and a length, are non-empty
  and cover the positions from `a` to `b` one after another.
-/

import Mathlib.Data.List.Basic
import Mathlib.Data.List.TakeDrop

namespace Fredlib
namespace Lib

variable {σ α : Type*} {n : Nat} {step : σ → List α → σ} {s : σ} {l m : List α}

-- ============================================================================
-- Blocks
-- ============================================================================

/-- Feed the blocks of `n` elements to `step`, as long as there is a whole one. -/
def consume (n : Nat) (step : σ → List α → σ) (s : σ) (l : List α) : σ × List α :=
  if 0 < n ∧ n ≤ l.length then consume n step (step s (l.take n)) (l.drop n) else (s, l)
termination_by l.length
decreasing_by
  rw [List.length_drop]
  omega

theorem consume_of_short (h : l.length < n) : consume n step s l = (s, l) := by
  rw [consume, if_neg (by omega)]

theorem consume_of_block (hn : 0 < n) (h : n ≤ l.length) :
    consume n step s l = consume n step (step s (l.take n)) (l.drop n) := by
  rw [consume, if_pos ⟨hn, h⟩]

/-- What is left over is shorter than a block. -/
theorem length_consume_lt (hn : 0 < n) (s : σ) (l : List α) :
    (consume n step s l).2.length < n := by
  induction s, l using consume.induct n step with
  | case1 s l h ih =>
      rw [consume_of_block hn h.2]
      exact ih
  | case2 s l h =>
      have hshort : l.length < n := by omega
      rw [consume_of_short hshort]
      exact hshort

theorem length_consume (hn : 0 < n) (s : σ) (l : List α) :
    (consume n step s l).2.length = l.length % n := by
  induction s, l using consume.induct n step with
  | case1 s l h ih =>
      rw [consume_of_block hn h.2, ih, List.length_drop, Nat.mod_eq_sub_mod h.2]
  | case2 s l h =>
      have hshort : l.length < n := by omega
      rw [consume_of_short hshort, Nat.mod_eq_of_lt hshort]

/-- A stream may be cut anywhere, if what is left over goes before the rest. -/
theorem consume_append (s : σ) (l m : List α) :
    consume n step s (l ++ m) =
      consume n step (consume n step s l).1 ((consume n step s l).2 ++ m) := by
  induction s, l using consume.induct n step with
  | case1 s l h ih =>
      have hlen : n ≤ (l ++ m).length := by
        rw [List.length_append]
        omega
      rw [consume_of_block h.1 hlen, List.take_append_of_le_length h.2,
        List.drop_append_of_le_length h.2, ih, consume_of_block h.1 h.2]
  | case2 s l h => rw [consume.eq_def n step s l, if_neg h]

theorem consume_append_of_dvd (hn : 0 < n) (h : n ∣ l.length) (s : σ) (m : List α) :
    consume n step s (l ++ m) = consume n step (consume n step s l).1 m := by
  have hnone : (consume n step s l).2 = [] := by
    rw [← List.length_eq_zero_iff, length_consume hn, Nat.mod_eq_zero_of_dvd h]
  rw [consume_append, hnone, List.nil_append]

/-- Steps that lose nothing of the state: blocks do not, and what is left over does not
    depend on it. -/
theorem consume_inj (hstep : ∀ block, Function.Injective fun s => step s block) (s s' : σ)
    (l : List α) :
    ((consume n step s l).1 = (consume n step s' l).1 → s = s') ∧
      (consume n step s l).2 = (consume n step s' l).2 := by
  induction s, l using consume.induct n step generalizing s' with
  | case1 s l h ih =>
      rw [consume_of_block h.1 h.2, consume_of_block h.1 h.2]
      obtain ⟨hinj, hrest⟩ := @ih (step s' (l.take n))
      exact ⟨fun heq => hstep _ (hinj heq), hrest⟩
  | case2 s l h =>
      rw [consume, if_neg h, consume, if_neg h]
      exact ⟨id, rfl⟩

-- ============================================================================
-- All blocks but the last
-- ============================================================================

/-- Feed blocks of `n` elements to `step`, as long as there is more than one. -/
def consumeLazy (n : Nat) (step : σ → List α → σ) (s : σ) (l : List α) : σ × List α :=
  if 0 < n ∧ n < l.length then consumeLazy n step (step s (l.take n)) (l.drop n) else (s, l)
termination_by l.length
decreasing_by
  rw [List.length_drop]
  omega

theorem consumeLazy_of_short (h : l.length ≤ n) : consumeLazy n step s l = (s, l) := by
  rw [consumeLazy, if_neg (by omega)]

theorem consumeLazy_of_block (hn : 0 < n) (h : n < l.length) :
    consumeLazy n step s l = consumeLazy n step (step s (l.take n)) (l.drop n) := by
  rw [consumeLazy, if_pos ⟨hn, h⟩]

variable (step) in
/-- What is left over is no longer than a block, and is not empty unless nothing was
    there. -/
theorem length_consumeLazy (hn : 0 < n) (s : σ) (l : List α) :
    (consumeLazy n step s l).2.length ≤ n ∧ (l ≠ [] → (consumeLazy n step s l).2 ≠ []) := by
  induction s, l using consumeLazy.induct n step with
  | case1 s l h ih =>
      rw [consumeLazy_of_block hn h.2]
      refine ⟨ih.1, fun _ => ih.2 ?_⟩
      rw [ne_eq, List.drop_eq_nil_iff]
      omega
  | case2 s l h =>
      have hshort : l.length ≤ n := by omega
      rw [consumeLazy_of_short hshort]
      exact ⟨hshort, id⟩

/-- A stream may be cut anywhere, if what is left over goes before the rest. -/
theorem consumeLazy_append (s : σ) (l m : List α) :
    consumeLazy n step s (l ++ m) =
      consumeLazy n step (consumeLazy n step s l).1 ((consumeLazy n step s l).2 ++ m) := by
  induction s, l using consumeLazy.induct n step with
  | case1 s l h ih =>
      have hlen : n < (l ++ m).length := by
        rw [List.length_append]
        omega
      rw [consumeLazy_of_block h.1 hlen, List.take_append_of_le_length (Nat.le_of_lt h.2),
        List.drop_append_of_le_length (Nat.le_of_lt h.2), ih, consumeLazy_of_block h.1 h.2]
  | case2 s l h => rw [consumeLazy.eq_def n step s l, if_neg h]

/-- What holds of the start, and of every block on top of what it holds of, holds of what
    has been fed. -/
theorem consumeLazy_rule {R : List α → σ → Prop}
    (hstep : ∀ seen s block, block.length = n → R seen s → R (seen ++ block) (step s block))
    {seen : List α} (h : R seen s) (l : List α) :
    ∃ fed, fed ++ (consumeLazy n step s l).2 = seen ++ l ∧ R fed (consumeLazy n step s l).1 := by
  induction s, l using consumeLazy.induct n step generalizing seen with
  | case1 s l hlen ih =>
      have hblock := hstep seen s (l.take n) (List.length_take_of_le (Nat.le_of_lt hlen.2)) h
      obtain ⟨fed, hfed, hR⟩ := ih hblock
      rw [consumeLazy_of_block hlen.1 hlen.2]
      refine ⟨fed, ?_, hR⟩
      rw [hfed, List.append_assoc, List.take_append_drop]
  | case2 s l hlen =>
      rw [consumeLazy, if_neg hlen]
      exact ⟨seen, rfl, h⟩

/-- A part of the state that is stepped on its own. -/
theorem consumeLazy_map {τ : Type*} {g : σ → τ} {step' : τ → List α → τ}
    (hg : ∀ s block, g (step s block) = step' (g s) block) (s : σ) (l : List α) :
    consumeLazy n step' (g s) l = (consumeLazy n step s l).map g id := by
  induction s, l using consumeLazy.induct n step with
  | case1 s l hlen ih =>
      rw [consumeLazy_of_block hlen.1 hlen.2, consumeLazy_of_block hlen.1 hlen.2, ← hg, ih]
  | case2 s l hlen =>
      rw [consumeLazy, if_neg hlen, consumeLazy, if_neg hlen]
      rfl

-- ============================================================================
-- Pieces
-- ============================================================================

/-- The pieces cover the positions from `a` to `b`, in order, without a gap or an
    overlap, and none of them is empty. -/
def Tiles (a b : Nat) : List (Nat × Nat) → Prop
  | [] => a = b
  | (i, k) :: ps => i = a ∧ 0 < k ∧ i + k ≤ b ∧ Tiles (i + k) b ps

variable {a b : Nat} {ps : List (Nat × Nat)}

/-- A stream consumed piece by piece is consumed as a whole. -/
theorem Tiles.foldl {f : σ → List α → σ} {R : List α → σ → Prop} (h : Tiles a b ps)
    (hstep : ∀ seen s i k, 0 < k → i + k ≤ b → R seen s →
      R (seen ++ (l.drop i).take k) (f s ((l.drop i).take k)))
    (seen : List α) (hR : R seen s) :
    R (seen ++ (l.drop a).take (b - a)) (ps.foldl (fun s p => f s ((l.drop p.1).take p.2)) s) := by
  induction ps generalizing a s seen with
  | nil =>
      have hab : a = b := h
      rw [hab, Nat.sub_self, List.take_zero, List.append_nil]
      exact hR
  | cons p ps ih =>
      obtain ⟨i, k⟩ := p
      obtain ⟨rfl, hk, hle, hrest⟩ := h
      have hcut : (l.drop i).take (b - i) =
          (l.drop i).take k ++ (l.drop (i + k)).take (b - (i + k)) := by
        rw [show b - i = k + (b - (i + k)) by omega, List.take_add, List.drop_drop]
      rw [hcut, ← List.append_assoc]
      exact ih hrest _ (hstep seen s i k hk hle hR)

/-- The pieces put together are the stream. -/
theorem Tiles.flatten (h : Tiles a b ps) :
    (ps.map fun p => (l.drop p.1).take p.2).flatten = (l.drop a).take (b - a) := by
  have hfold := h.foldl (l := l) (f := fun (seen : List α) piece => seen ++ piece)
    (R := fun seen s => s = seen) (s := []) (fun seen s i k _ _ hs => by rw [hs]) [] rfl
  rwa [List.foldl_append_eq_append, List.nil_append, List.nil_append] at hfold

end Lib
end Fredlib
