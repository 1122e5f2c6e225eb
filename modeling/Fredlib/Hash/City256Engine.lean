/-
  Fredlib.Hash.City256Engine

  `City256Engine` of include/hash.hpp, called by any number of threads.

  A digest of 32 bytes or more is where `CityHashCrc256` puts its words.  For a
  shorter one they go into a static array that all callers share, and from there
  into the digest: a call takes what the last call has left there
  (`delivers_own_iff`).

  The two are one step each.  Nothing but that it is a function is used of
  `CityHashCrc256`, which is the argument `crc` here.
-/

import Fredlib.Lib.System
import Fredlib.Hash.City

namespace Fredlib

open Lib City

namespace City256Engine

/-- Where a thread is: outside, in `hash`, or between its two steps. -/
inductive Pc
  | out
  | called (input : List UInt8) (digestLen : UInt32)
  | computed (input : List UInt8) (digestLen : UInt32)

/-- What can happen: `t` calls `hash`, `CityHashCrc256` returns, `memcpy` returns. -/
inductive Ev (T : Type*)
  | call (t : T) (input : List UInt8) (digestLen : UInt32)
  | compute (t : T)
  | copy (t : T)

/-- What a run shows: an input whose words are in the static array now, and what a
    call has written to its digest. -/
inductive Obs (T : Type*)
  | computed (input : List UInt8)
  | delivered (t : T) (input : List UInt8) (digestLen : UInt32) (digest : List UInt8)

end City256Engine

open City256Engine

/-- `City256Engine`: the static array `result`, and the threads. -/
structure City256Engine (T : Type*) where
  result : Words
  threads : T → Pc

namespace City256Engine

variable {T : Type*} [DecidableEq T]

/-- The bytes of `result`. -/
def memory (w : Words) : List UInt8 := bytes w.w0 ++ bytes w.w1 ++ bytes w.w2 ++ bytes w.w3

/-- The thread `t` is at `pc` now. -/
def setThread (t : T) (pc : Pc) (s : City256Engine T) : City256Engine T :=
  { s with threads := Function.update s.threads t pc }

/-- One step of `hash`. -/
def step (crc : List UInt8 → Words) (s : City256Engine T) : Ev T → Option (City256Engine T)
  | .call t input digestLen =>
      match s.threads t with
      | .out => some (s.setThread t (.called input digestLen))
      | _ => none
  | .compute t =>
      match s.threads t with
      | .called input digestLen =>
          if digestLen ≥ 32 then some (s.setThread t .out)
          else some ({ s with result := crc input }.setThread t (.computed input digestLen))
      | _ => none
  | .copy t =>
      match s.threads t with
      | .computed _ _ => some (s.setThread t .out)
      | _ => none

/-- What a step shows. -/
def obs (crc : List UInt8 → Words) (s : City256Engine T) : Ev T → List (Obs T)
  | .call _ _ _ => []
  | .compute t =>
      match s.threads t with
      | .called input digestLen =>
          if digestLen ≥ 32 then [.delivered t input digestLen (memory (crc input))]
          else [.computed input]
      | _ => []
  | .copy t =>
      match s.threads t with
      | .computed input digestLen =>
          [.delivered t input digestLen ((memory s.result).take digestLen.toNat)]
      | _ => []

/-- A process in which nobody has called `hash` yet. -/
def system (T : Type*) [DecidableEq T] (crc : List UInt8 → Words) :
    System (City256Engine T) (Ev T) where
  init s := s = { result := ⟨0, 0, 0, 0⟩, threads := fun _ => .out }
  step := step crc

/-- The same, with what its runs have shown. -/
abbrev recorded (T : Type*) [DecidableEq T] (crc : List UInt8 → Words) :
    System (List (Obs T) × City256Engine T) (Ev T) :=
  (system T crc).recorded (obs crc)

/-- The front of the words of `input` that a digest of this length can hold. -/
def front (crc : List UInt8 → Words) (input : List UInt8) (digestLen : UInt32) : List UInt8 :=
  (memory (crc input)).take (min 32 digestLen.toNat)

/-- A call has written the front of the words of its own input. -/
def Obs.Own (crc : List UInt8 → Words) : Obs T → Prop
  | .computed _ => True
  | .delivered _ input digestLen digest => digest = front crc input digestLen

/-- The input whose words are in the static array. -/
def last (log : List (Obs T)) : Option (List UInt8) :=
  log.foldl (fun last o => match o with
    | .computed input => some input
    | .delivered _ _ _ _ => last) none

/-- A call that copies finds words there that agree with those of its own input,
    as far as its digest goes. -/
def FindsOwn (crc : List UInt8 → Words) (p : List (Obs T) × City256Engine T) : Ev T → Prop
  | .copy t =>
      match p.2.threads t with
      | .computed input digestLen =>
          ∀ found ∈ last p.1, front crc found digestLen = front crc input digestLen
      | _ => True
  | _ => True

-- ============================================================================
-- The static array
-- ============================================================================

variable {crc : List UInt8 → Words} {s s' : City256Engine T} {t : T} {log : List (Obs T)} {e : Ev T}

/-- The static array holds the words of the last input computed, and there is one
    if a thread is between its two steps, where only short calls are. -/
structure Holds (crc : List UInt8 → Words) (p : List (Obs T) × City256Engine T) : Prop where
  result : ∀ input ∈ last p.1, p.2.result = crc input
  between : ∀ t input digestLen, p.2.threads t = .computed input digestLen →
    digestLen < 32 ∧ last p.1 ≠ none

omit [DecidableEq T] in
theorem last_append_of_computed {input : List UInt8} :
    last (log ++ [.computed input]) = some input := by
  simp [last]

omit [DecidableEq T] in
theorem last_append_of_delivered {input digest : List UInt8} {digestLen : UInt32} :
    last (log ++ [.delivered t input digestLen digest]) = last log := by
  simp [last]

@[simp] theorem length_memory (w : Words) : (memory w).length = 32 := by simp [memory]

/-- The steps, one by one, with what they show. -/
inductive Move (crc : List UInt8 → Words) (s : City256Engine T) :
    Ev T → List (Obs T) → City256Engine T → Prop
  | call {t : T} {input : List UInt8} {digestLen : UInt32} : s.threads t = .out →
      Move crc s (.call t input digestLen) [] (s.setThread t (.called input digestLen))
  | whole {t : T} {input : List UInt8} {digestLen : UInt32} :
      s.threads t = .called input digestLen → digestLen ≥ 32 →
      Move crc s (.compute t) [.delivered t input digestLen (memory (crc input))]
        (s.setThread t .out)
  | compute {t : T} {input : List UInt8} {digestLen : UInt32} :
      s.threads t = .called input digestLen → digestLen < 32 →
      Move crc s (.compute t) [.computed input]
        ({ s with result := crc input }.setThread t (.computed input digestLen))
  | copy {t : T} {input : List UInt8} {digestLen : UInt32} :
      s.threads t = .computed input digestLen →
      Move crc s (.copy t) [.delivered t input digestLen ((memory s.result).take digestLen.toNat)]
        (s.setThread t .out)

theorem move_of_step (h : step crc s e = some s') : Move crc s e (obs crc s e) s' := by
  cases e with
  | call t input digestLen =>
      simp only [step] at h
      split at h
      · rename_i hpc
        cases h
        exact .call hpc
      · cases h
  | compute t =>
      simp only [step] at h
      split at h
      · rename_i input digestLen hpc
        simp only [obs, hpc]
        split at h
        · rename_i hlong
          cases h
          rw [if_pos hlong]
          exact .whole hpc hlong
        · rename_i hshort
          cases h
          rw [if_neg hshort]
          exact .compute hpc (UInt32.not_le.mp hshort)
      · cases h
  | copy t =>
      simp only [step] at h
      split at h
      · rename_i input digestLen hpc
        cases h
        simp only [obs, hpc]
        exact .copy hpc
      · cases h

theorem threads_setThread {pc : Pc} {u : T} {pc' : Pc} (h : (s.setThread t pc).threads u = pc') :
    (u = t ∧ pc = pc') ∨ s.threads u = pc' := by
  by_cases hut : u = t
  · subst hut
    simp only [setThread, Function.update_self] at h
    exact .inl ⟨rfl, h⟩
  · simp only [setThread, Function.update_of_ne hut] at h
    exact .inr h

theorem Holds.step {p p' : List (Obs T) × City256Engine T} (h : Holds crc p)
    (hs : (recorded T crc).step p e = some p') : Holds crc p' := by
  obtain ⟨s', hs', rfl⟩ := System.recorded_some hs
  have hmove := move_of_step hs'
  generalize obs crc p.2 e = o at hmove ⊢
  -- a thread that is not between its two steps promises nothing
  have houtside : ∀ {t pc}, (∀ input digestLen, pc ≠ .computed input digestLen) →
      ∀ u input digestLen, (p.2.setThread t pc).threads u = .computed input digestLen →
        digestLen < 32 ∧ last p.1 ≠ none := by
    intro t pc hpc u input digestLen hu
    rcases threads_setThread hu with ⟨-, heq⟩ | hold
    · exact absurd heq (hpc input digestLen)
    · exact h.between u input digestLen hold
  cases hmove with
  | call hpc =>
      rw [List.append_nil]
      exact ⟨h.result, houtside (by simp)⟩
  | whole hpc hlong =>
      refine ⟨fun input hin => ?_, fun u input digestLen hu => ?_⟩
      · rw [last_append_of_delivered] at hin
        exact h.result input hin
      · rw [last_append_of_delivered]
        exact houtside (by simp) u input digestLen hu
  | compute hpc hshort =>
      refine ⟨fun input hin => ?_, fun u input digestLen hu => ?_⟩
      · rw [last_append_of_computed] at hin
        cases hin
        rfl
      · rw [last_append_of_computed]
        rcases threads_setThread hu with ⟨-, heq⟩ | hold
        · cases heq
          exact ⟨hshort, by simp⟩
        · exact ⟨(h.between u input digestLen hold).1, by simp⟩
  | copy hpc =>
      refine ⟨fun input hin => ?_, fun u input digestLen hu => ?_⟩
      · rw [last_append_of_delivered] at hin
        exact h.result input hin
      · rw [last_append_of_delivered]
        exact houtside (by simp) u input digestLen hu

/-- What one step delivers. -/
theorem Holds.own_iff {p : List (Obs T) × City256Engine T} (h : Holds crc p)
    (hs : (system T crc).step p.2 e = some s') :
    (∀ o ∈ obs crc p.2 e, o.Own crc) ↔ FindsOwn crc p e := by
  have hmove := move_of_step hs
  generalize obs crc p.2 e = o at hmove ⊢
  cases hmove with
  | call hpc => simp [FindsOwn]
  | @whole t input digestLen hpc hlong =>
      have hle := UInt32.le_iff_toNat_le.mp hlong
      simp only [FindsOwn, iff_true, List.mem_singleton, forall_eq, Obs.Own, front]
      rw [List.take_of_length_le]
      rw [length_memory]
      exact Nat.le_min.mpr ⟨Nat.le_refl _, hle⟩
  | compute hpc hshort => simp [FindsOwn, Obs.Own]
  | @copy t input digestLen hpc =>
      obtain ⟨hshort, hsome⟩ := h.between t input digestLen hpc
      have hlt := UInt32.lt_iff_toNat_lt.mp hshort
      have hmin : min 32 digestLen.toNat = digestLen.toNat := Nat.min_eq_right (Nat.le_of_lt hlt)
      obtain ⟨found, hfound⟩ := Option.ne_none_iff_exists'.mp hsome
      simp only [List.mem_singleton, forall_eq, Obs.Own, FindsOwn, hpc, hfound, Option.mem_def,
        Option.some.injEq, forall_eq', front, hmin, h.result found hfound]

/-- **Short digests**: in a run of any threads that call `hash` on any inputs, every
    call delivers the front of the words of its own input if and only if every
    short call that copies finds words in the static array that agree with those
    of its own input, as far as its digest goes. -/
theorem delivers_own_iff {p p' : List (Obs T) × City256Engine T} {evs : List (Ev T)}
    (h0 : (recorded T crc).init p) (hrun : (recorded T crc).Run (fun _ _ => True) p evs p') :
    (∀ o ∈ p'.1, o.Own crc) ↔ (recorded T crc).Run (FindsOwn crc) p evs p' := by
  obtain ⟨hlog, hinit⟩ := h0
  have hholds : Holds crc p := by
    have hstate : p.2 = { result := ⟨0, 0, 0, 0⟩, threads := fun _ => .out } := hinit
    refine ⟨fun input hin => ?_, fun t input digestLen ht => ?_⟩
    · rw [hlog] at hin
      cases hin
    · rw [hstate] at ht
      cases ht
  rw [hrun.recorded_good_iff hholds (fun p e p' hp hs => hp.step hs)
    (fun p e s' hp hs => hp.own_iff hs), hlog]
  simp

/-- Two threads take keys of one byte, one after the other. -/
theorem delivers_own_of_turns :
    ∃ p : List (Obs Bool) × City256Engine Bool,
      (∃ evs, (recorded Bool cityHashCrc256).Run (fun _ _ => True)
        ([], { result := ⟨0, 0, 0, 0⟩, threads := fun _ => .out }) evs p) ∧
      p.1.length = 4 ∧ ∀ o ∈ p.1, o.Own cityHashCrc256 := by
  have hrun : ∃ p : List (Obs Bool) × City256Engine Bool,
      (recorded Bool cityHashCrc256).Run (fun _ _ => True)
        ([], { result := ⟨0, 0, 0, 0⟩, threads := fun _ => .out })
        [.call false [97] 1, .compute false, .copy false, .call true [98] 1, .compute true,
          .copy true] p ∧
      (recorded Bool cityHashCrc256).Run (FindsOwn cityHashCrc256)
        ([], { result := ⟨0, 0, 0, 0⟩, threads := fun _ => .out })
        [.call false [97] 1, .compute false, .copy false, .call true [98] 1, .compute true,
          .copy true] p ∧ p.1.length = 4 := by
    have hown : ∀ {input : List UInt8} {found}, found ∈ some input →
        front cityHashCrc256 found 1 = front cityHashCrc256 input 1 := by
      rintro input found ⟨⟩
      rfl
    exact ⟨_, .cons trivial rfl <| .cons trivial rfl <| .cons trivial rfl <| .cons trivial rfl <|
      .cons trivial rfl <| .cons trivial rfl .nil, .cons trivial rfl <| .cons trivial rfl <|
      .cons (fun _ => hown) rfl <| .cons trivial rfl <| .cons trivial rfl <|
      .cons (fun _ => hown) rfl .nil, rfl⟩
  obtain ⟨p, hrun, hfinds, hlen⟩ := hrun
  have hinit : (recorded Bool cityHashCrc256).init
      ([], { result := ⟨0, 0, 0, 0⟩, threads := fun _ => .out }) := ⟨rfl, rfl⟩
  exact ⟨p, ⟨_, hrun⟩, hlen, (delivers_own_iff hinit hrun).mpr hfinds⟩

/-- Two threads take keys of one byte, of "a" and of "b", at a time: the first is
    given the key of "b". -/
theorem short_digest_of_other_thread :
    ∃ p : List (Obs Bool) × City256Engine Bool,
      (recorded Bool cityHashCrc256).Run (fun _ _ => True)
        ([], { result := ⟨0, 0, 0, 0⟩, threads := fun _ => .out })
        [.call false [97] 1, .call true [98] 1, .compute false, .compute true, .copy false] p ∧
      .delivered false [97] 1 [0xec] ∈ p.1 ∧ front cityHashCrc256 [97] 1 = [0xff] ∧
      ¬ ∀ o ∈ p.1, o.Own cityHashCrc256 := by
  have hrun : ∃ p : List (Obs Bool) × City256Engine Bool,
      (recorded Bool cityHashCrc256).Run (fun _ _ => True)
        ([], { result := ⟨0, 0, 0, 0⟩, threads := fun _ => .out })
        [.call false [97] 1, .call true [98] 1, .compute false, .compute true, .copy false] p ∧
      p.1 = [.computed [97], .computed [98],
        .delivered false [97] 1 ((memory (cityHashCrc256 [98])).take 1)] :=
    ⟨_, .cons trivial rfl <| .cons trivial rfl <| .cons trivial rfl <| .cons trivial rfl <|
      .cons trivial rfl .nil, rfl⟩
  obtain ⟨p, hrun, hlog⟩ := hrun
  have hfirst : front cityHashCrc256 [97] 1 = [0xff] := by decide +kernel
  have hother : (memory (cityHashCrc256 [98])).take 1 = [0xec] := by decide +kernel
  rw [hother] at hlog
  have hin : .delivered false [97] 1 [0xec] ∈ p.1 := by simp [hlog]
  refine ⟨p, hrun, hin, hfirst, fun hall => ?_⟩
  have hown : [0xec] = front cityHashCrc256 [97] 1 := hall _ hin
  rw [hfirst] at hown
  revert hown
  decide

end City256Engine
end Fredlib
