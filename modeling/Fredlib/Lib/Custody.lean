/-
  Fredlib.Lib.Custody

  Objects that go from hand to hand.

  Objects sit at addresses and each one, while it lives, carries an item; items
  are numbered in the order of their creation and never reused, addresses are.
  A place is somewhere an object can be, and `due` says what a log must show of
  an item whose object is at a place.  `Custody` is the invariant: every living
  object is at exactly one place, and the log shows of its item exactly what is
  due there.  It survives a step that moves one object to another place and logs
  the difference (`Custody.move`), the birth of an object (`Custody.allocate`)
  and its end (`Custody.release`).
-/

import Mathlib.Logic.Function.Basic
import Mathlib.Data.List.Basic

namespace Fredlib
namespace Lib

variable {P A O : Type*} {item : O → Option Nat} {due : P → A → Nat → List O}
  {ended : Nat → List O → Prop}

/-- What the log shows of the item `k`. -/
def history (item : O → Option Nat) (log : List O) (k : Nat) : List O :=
  log.filter fun o => item o = some k

/-- Every living object is at one place, and its item has the history due there. -/
structure Custody (item : O → Option Nat) (due : P → A → Nat → List O)
    (ended : Nat → List O → Prop) (sits : P → A → Prop) (live : A → Option Nat) (next : Nat)
    (log : List O) : Prop where
  history : ∀ p a, sits p a → ∃ k, live a = some k ∧ history item log k = due p a k
  unique : ∀ p q a, sits p a → sits q a → p = q
  owned : ∀ a k, live a = some k → ∃ p, sits p a
  fresh : ∀ a k, live a = some k → k < next
  distinct : ∀ a b k, live a = some k → live b = some k → a = b
  gone : ∀ k, k < next → (∀ a, live a ≠ some k) → ended k (Lib.history item log k)
  unborn : ∀ k, next ≤ k → Lib.history item log k = []

namespace Custody

variable {sits sits' : P → A → Prop} {live : A → Option Nat} {next : Nat} {log : List O}
  {p p' : P} {a : A} {k : Nat} {o : O}

theorem history_snoc_self (ho : item o = some k) :
    Lib.history item (log ++ [o]) k = Lib.history item log k ++ [o] := by
  simp [Lib.history, ho]

theorem history_snoc_of_ne {k' : Nat} (ho : item o = some k) (hne : k' ≠ k) :
    Lib.history item (log ++ [o]) k' = Lib.history item log k' := by
  have hne' : ¬ k = k' := fun h => hne h.symm
  simp [Lib.history, ho, hne']

/-- Nothing has been created and nothing is anywhere. -/
theorem init (hsits : ∀ p a, ¬ sits p a) (hlive : ∀ a, live a = none) :
    Custody item due ended sits live 0 [] := by
  refine ⟨fun p a h => absurd h (hsits p a), fun p q a h => absurd h (hsits p a), ?_, ?_, ?_,
    fun k h => absurd h (Nat.not_lt_zero k), fun k _ => rfl⟩
  · intro a k h
    rw [hlive a] at h
    cases h
  · intro a k h
    rw [hlive a] at h
    cases h
  · intro a b k h
    rw [hlive a] at h
    cases h

/-- Steps that move no object and log nothing about items. -/
theorem quiet (h : Custody item due ended sits live next log)
    (hsits : ∀ p a, sits' p a ↔ sits p a) {obs : List O} (hobs : ∀ o ∈ obs, item o = none) :
    Custody item due ended sits' live next (log ++ obs) := by
  have hhist : ∀ k, Lib.history item (log ++ obs) k = Lib.history item log k := by
    intro k
    have hnil : obs.filter (fun o => item o = some k) = [] := by
      rw [List.filter_eq_nil_iff]
      intro o ho
      simp [hobs o ho]
    rw [Lib.history, List.filter_append, hnil, List.append_nil]
    rfl
  refine ⟨?_, ?_, ?_, h.fresh, h.distinct, ?_, ?_⟩
  · intro p a hp
    obtain ⟨k, hk, hdue⟩ := h.history p a ((hsits p a).mp hp)
    exact ⟨k, hk, by rw [hhist, hdue]⟩
  · exact fun p q a hp hq => h.unique p q a ((hsits p a).mp hp) ((hsits q a).mp hq)
  · intro a k hk
    obtain ⟨p, hp⟩ := h.owned a k hk
    exact ⟨p, (hsits p a).mpr hp⟩
  · intro k hk hgone
    rw [hhist]
    exact h.gone k hk hgone
  · intro k hk
    rw [hhist]
    exact h.unborn k hk

/-- What sits at another place is another object. -/
theorem ne_of_sits (h : Custody item due ended sits live next log) (hp : sits p a) {q : P} {b : A}
    (hqp : q ≠ p) (hb : sits q b) : b ≠ a := by
  rintro rfl
  exact hqp (h.unique _ _ _ hb hp)

/-- Who sits where after `a` has gone from `p` to `p'`, from what has changed there. -/
theorem moved_iff (h : Custody item due ended sits live next log) (hp : sits p a) (hne : p' ≠ p)
    (hto : ∀ b, sits' p' b ↔ b = a ∨ sits p' b) (hfrom : ∀ b, sits' p b ↔ b ≠ a ∧ sits p b)
    (helse : ∀ q b, q ≠ p → q ≠ p' → (sits' q b ↔ sits q b)) (q : P) (b : A) :
    sits' q b ↔ (q = p' ∧ b = a) ∨ (b ≠ a ∧ sits q b) := by
  by_cases hq' : q = p'
  · subst hq'
    rw [hto]
    constructor
    · rintro (rfl | hb)
      · exact .inl ⟨rfl, rfl⟩
      · exact .inr ⟨h.ne_of_sits hp hne hb, hb⟩
    · rintro (⟨-, rfl⟩ | ⟨-, hb⟩)
      · exact .inl rfl
      · exact .inr hb
  · rw [or_iff_right fun hl => hq' hl.1]
    by_cases hq : q = p
    · rw [hq, hfrom]
    · rw [helse q b hq hq']
      exact ⟨fun hb => ⟨h.ne_of_sits hp hq hb, hb⟩, fun hb => hb.2⟩

/-- One object goes from `p` to `p'`, and the log gets what that adds to its due. -/
theorem move (h : Custody item due ended sits live next log) (hp : sits p a)
    (hlive : live a = some k) (hsits : ∀ q b, sits' q b ↔ (q = p' ∧ b = a) ∨ (b ≠ a ∧ sits q b))
    (ho : item o = some k) (hdue : due p' a k = due p a k ++ [o]) :
    Custody item due ended sits' live next (log ++ [o]) := by
  have hother : ∀ b k', b ≠ a → live b = some k' → k' ≠ k := by
    rintro b k' hne hb rfl
    exact hne (h.distinct b a k' hb hlive)
  -- only `a` moves, and only the history of `k` gets longer
  refine ⟨?_, ?_, ?_, h.fresh, h.distinct, ?_, ?_⟩
  · intro q b hq
    rcases (hsits q b).mp hq with ⟨rfl, rfl⟩ | ⟨hne, hold⟩
    · obtain ⟨k', hk', hhist⟩ := h.history p b hp
      rw [hlive] at hk'
      cases hk'
      exact ⟨k, hlive, by rw [history_snoc_self ho, hhist, hdue]⟩
    · obtain ⟨k', hk', hhist⟩ := h.history q b hold
      exact ⟨k', hk', by rw [history_snoc_of_ne ho (hother b k' hne hk'), hhist]⟩
  · intro q q' b hq hq'
    rcases (hsits q b).mp hq with ⟨rfl, rfl⟩ | ⟨hne, hold⟩ <;>
      rcases (hsits q' b).mp hq' with ⟨rfl, heq⟩ | ⟨hne', hold'⟩
    · rfl
    · exact absurd rfl hne'
    · exact absurd heq hne
    · exact h.unique q q' b hold hold'
  · intro b k' hb
    by_cases hba : b = a
    · exact ⟨p', (hsits p' b).mpr (.inl ⟨rfl, hba⟩)⟩
    · obtain ⟨q, hq⟩ := h.owned b k' hb
      exact ⟨q, (hsits q b).mpr (.inr ⟨hba, hq⟩)⟩
  · intro k' hk' hgone
    have hne : k' ≠ k := by
      rintro rfl
      exact hgone a hlive
    rw [history_snoc_of_ne ho hne]
    exact h.gone k' hk' hgone
  · intro k' hk'
    have hlt := h.fresh a k hlive
    rw [history_snoc_of_ne ho (by omega)]
    exact h.unborn k' hk'

variable [DecidableEq A]

/-- A new object, at a place where nothing is due yet. -/
theorem allocate (h : Custody item due ended sits live next log) (hfree : live a = none)
    (hsits : ∀ q b, sits' q b ↔ (q = p ∧ b = a) ∨ (b ≠ a ∧ sits q b)) (hdue : due p a next = []) :
    Custody item due ended sits' (Function.update live a (some next)) (next + 1) log := by
  have hlive : ∀ b k', Function.update live a (some next) b = some k' →
      (b = a ∧ k' = next) ∨ (b ≠ a ∧ live b = some k') := by
    intro b k' hb
    by_cases hba : b = a
    · subst hba
      rw [Function.update_self, Option.some.injEq] at hb
      exact .inl ⟨rfl, hb.symm⟩
    · rw [Function.update_of_ne hba] at hb
      exact .inr ⟨hba, hb⟩
  -- what is new sits at `p`, and everything else is as before
  refine ⟨?_, ?_, ?_, ?_, ?_, ?_, ?_⟩
  · intro q b hq
    rcases (hsits q b).mp hq with ⟨rfl, rfl⟩ | ⟨hne, hold⟩
    · exact ⟨next, by simp, by rw [h.unborn next (Nat.le_refl _), hdue]⟩
    · obtain ⟨k', hk', hhist⟩ := h.history q b hold
      exact ⟨k', by rw [Function.update_of_ne hne, hk'], hhist⟩
  · intro q q' b hq hq'
    rcases (hsits q b).mp hq with ⟨rfl, rfl⟩ | ⟨hne, hold⟩ <;>
      rcases (hsits q' b).mp hq' with ⟨rfl, heq⟩ | ⟨hne', hold'⟩
    · rfl
    · exact absurd rfl hne'
    · exact absurd heq hne
    · exact h.unique q q' b hold hold'
  · intro b k' hb
    rcases hlive b k' hb with ⟨rfl, -⟩ | ⟨hne, hold⟩
    · exact ⟨p, (hsits p b).mpr (.inl ⟨rfl, rfl⟩)⟩
    · obtain ⟨q, hq⟩ := h.owned b k' hold
      exact ⟨q, (hsits q b).mpr (.inr ⟨hne, hq⟩)⟩
  · intro b k' hb
    rcases hlive b k' hb with ⟨-, rfl⟩ | ⟨-, hold⟩
    · omega
    · have := h.fresh b k' hold
      omega
  · intro b b' k' hb hb'
    rcases hlive b k' hb with ⟨rfl, rfl⟩ | ⟨-, hold⟩ <;>
      rcases hlive b' k' hb' with ⟨rfl, heq⟩ | ⟨-, hold'⟩
    · rfl
    · exact absurd (h.fresh b' _ hold') (Nat.lt_irrefl _)
    · exact absurd (heq ▸ h.fresh b k' hold) (Nat.lt_irrefl _)
    · exact h.distinct b b' k' hold hold'
  · intro k' hk' hgone
    have hne : k' ≠ next := by
      rintro rfl
      exact hgone a (by simp)
    refine h.gone k' (by omega) fun b hb => hgone b ?_
    have hba : b ≠ a := by
      rintro rfl
      rw [hfree] at hb
      cases hb
    rw [Function.update_of_ne hba, hb]
  · exact fun k' hk' => h.unborn k' (by omega)

/-- The end of an object: the log gets what completes its history. -/
theorem release (h : Custody item due ended sits live next log) (hp : sits p a)
    (hlive : live a = some k) (hsits : ∀ q b, sits' q b ↔ b ≠ a ∧ sits q b)
    (ho : item o = some k) (hended : ended k (due p a k ++ [o])) :
    Custody item due ended sits' (Function.update live a none) next (log ++ [o]) := by
  have hother : ∀ b k', b ≠ a → live b = some k' → k' ≠ k := by
    rintro b k' hne hb rfl
    exact hne (h.distinct b a k' hb hlive)
  have hold : ∀ b k', Function.update live a none b = some k' → b ≠ a ∧ live b = some k' := by
    intro b k' hb
    by_cases hba : b = a
    · subst hba
      simp at hb
    · rw [Function.update_of_ne hba] at hb
      exact ⟨hba, hb⟩
  -- nobody holds `k` any more, and its history is complete
  refine ⟨?_, ?_, ?_, ?_, ?_, ?_, ?_⟩
  · intro q b hq
    obtain ⟨hne, hq'⟩ := (hsits q b).mp hq
    obtain ⟨k', hk', hhist⟩ := h.history q b hq'
    refine ⟨k', by rw [Function.update_of_ne hne, hk'], ?_⟩
    rw [history_snoc_of_ne ho (hother b k' hne hk'), hhist]
  · exact fun q q' b hq hq' => h.unique q q' b ((hsits q b).mp hq).2 ((hsits q' b).mp hq').2
  · intro b k' hb
    obtain ⟨hne, hb'⟩ := hold b k' hb
    obtain ⟨q, hq⟩ := h.owned b k' hb'
    exact ⟨q, (hsits q b).mpr ⟨hne, hq⟩⟩
  · exact fun b k' hb => h.fresh b k' (hold b k' hb).2
  · exact fun b b' k' hb hb' => h.distinct b b' k' (hold b k' hb).2 (hold b' k' hb').2
  · intro k' hk' hgone
    by_cases hkk : k' = k
    · subst hkk
      obtain ⟨k'', hk'', hhist⟩ := h.history p a hp
      rw [hlive] at hk''
      cases hk''
      rw [history_snoc_self ho, hhist]
      exact hended
    · rw [history_snoc_of_ne ho hkk]
      refine h.gone k' hk' fun b hb => hgone b ?_
      have hba : b ≠ a := by
        rintro rfl
        rw [hlive] at hb
        exact hkk (Option.some.inj hb).symm
      rw [Function.update_of_ne hba, hb]
  · intro k' hk'
    have hlt := h.fresh a k hlive
    rw [history_snoc_of_ne ho (by omega)]
    exact h.unborn k' hk'

omit [DecidableEq A] in
/-- Any item: it has no history yet, or its object is at a place, or its history is complete. -/
theorem located (h : Custody item due ended sits live next log) (k : Nat) :
    Lib.history item log k = [] ∨
      (∃ p a, sits p a ∧ live a = some k ∧ Lib.history item log k = due p a k) ∨
      ended k (Lib.history item log k) := by
  by_cases hk : k < next
  · by_cases hgone : ∀ a, live a ≠ some k
    · exact .inr (.inr (h.gone k hk hgone))
    · push Not at hgone
      obtain ⟨a, ha⟩ := hgone
      obtain ⟨p, hp⟩ := h.owned a k ha
      obtain ⟨k', hk', hhist⟩ := h.history p a hp
      rw [ha] at hk'
      cases hk'
      exact .inr (.inl ⟨p, a, hp, ha, hhist⟩)
  · exact .inl (h.unborn k (by omega))

omit [DecidableEq A] in
/-- The history of any item: none yet, that of a place, or complete. -/
theorem stages (h : Custody item due ended sits live next log) (k : Nat) :
    Lib.history item log k = [] ∨ (∃ p a, Lib.history item log k = due p a k) ∨
      ended k (Lib.history item log k) := by
  rcases h.located k with hnil | ⟨p, a, -, -, hdue⟩ | hended
  · exact .inl hnil
  · exact .inr (.inl ⟨p, a, hdue⟩)
  · exact .inr (.inr hended)

end Custody
end Lib
end Fredlib
