import Mathlib.Data.List.Basic
import Mathlib.Data.List.Find

/-!
# Scanning the bits of a mask

The loop of a vectorised search: take the lowest bit that is set, test the candidate
at its position, clear the bit, until a candidate passes or the mask is empty. It
finds the first position that is set and passes (`scanBits_eq`), in at most as many
rounds as there are bits set.
-/

namespace Epli.Lib

variable {w : Nat} {mask : BitVec w} {test : Nat → Bool}

/-- The position of the lowest bit that is set, counted from `1`, and `0` if there is
none. -/
def ffs (mask : BitVec w) : Nat :=
  match (List.range w).find? mask.getLsbD with
  | some j => j + 1
  | none => 0

/-- Test the positions of the mask, lowest first. `none` is a loop that is not done
after the given number of rounds. -/
def scanBits (test : Nat → Bool) : Nat → BitVec w → Option (Option Nat)
  | 0, mask => if mask = 0 then some none else none
  | rounds + 1, mask =>
    if mask = 0 then some none
    else
      let j := ffs mask - 1
      if test j then some (some j)
      else scanBits test rounds (mask &&& ~~~(1#w <<< j))

/-- The lowest bit that is set. -/
theorem ffs_spec (h : mask ≠ 0) : ∃ j < w, ffs mask - 1 = j ∧ mask.getLsbD j = true ∧
    ∀ i < j, mask.getLsbD i = false := by
  cases hf : (List.range w).find? mask.getLsbD with
  | none =>
    refine absurd (BitVec.eq_of_getLsbD_eq fun i hi => ?_) h
    rw [List.find?_range_eq_none] at hf
    simpa using hf i hi
  | some j =>
    obtain ⟨hset, hj, hbelow⟩ := List.find?_range_eq_some.mp hf
    exact ⟨j, List.mem_range.mp hj, by simp [ffs, hf], hset, fun i hi => by simpa using hbelow i hi⟩

theorem getLsbD_clear (mask : BitVec w) {i : Nat} (j : Nat) (hi : i < w) :
    (mask &&& ~~~(1#w <<< j)).getLsbD i = (mask.getLsbD i && decide (i ≠ j)) := by
  rw [← BitVec.twoPow_eq, BitVec.getLsbD_and, BitVec.getLsbD_not, BitVec.getLsbD_twoPow]
  by_cases hij : i = j
  · simp [hij, hij ▸ hi]
  · simp [hij, hi, Ne.symm hij]

/-- Each round starts above the bits cleared before. -/
theorem scanBits_above (test : Nat → Bool) : ∀ {rounds : Nat} {mask : BitVec w} (low : Nat),
    (∀ i < low, mask.getLsbD i = false) → w ≤ low + rounds → scanBits test rounds mask =
      some ((List.range w).find? fun i => mask.getLsbD i && test i) := by
  have hempty : none = (List.range w).find? fun i => (0 : BitVec w).getLsbD i && test i := by
    rw [eq_comm, List.find?_range_eq_none]
    simp
  intro rounds
  induction rounds with
  | zero =>
    intro mask low hlow hle
    have hzero : mask = 0 := BitVec.eq_of_getLsbD_eq fun i hi => by
      rw [hlow i (by omega)]
      simp
    rw [scanBits, if_pos hzero, hzero, ← hempty]
  | succ rounds ih =>
    intro mask low hlow hle
    by_cases hzero : mask = 0
    · rw [scanBits, if_pos hzero, hzero, ← hempty]
    obtain ⟨j, hj, hffs, hset, hbelow⟩ := ffs_spec hzero
    simp only [scanBits, if_neg hzero, hffs]
    cases htest : test j with
    | true =>
      -- no position below `j` is set
      have hfound : (List.range w).find? (fun i => mask.getLsbD i && test i) = some j := by
        rw [List.find?_range_eq_some]
        refine ⟨by rw [hset, htest]; rfl, List.mem_range.mpr hj, ?_⟩
        intro i hi
        rw [hbelow i hi]
        rfl
      simp [hfound]
    | false =>
      -- the position of the cleared bit does not pass anyway
      have hclear : ∀ i < w, (mask &&& ~~~(1#w <<< j)).getLsbD i =
          (mask.getLsbD i && decide (i ≠ j)) :=
        fun i hi => getLsbD_clear mask j hi
      have hlow' : ∀ i < j + 1, (mask &&& ~~~(1#w <<< j)).getLsbD i = false := by
        intro i hi
        rw [hclear i (by omega)]
        rcases Nat.lt_succ_iff_lt_or_eq.mp hi with hi | rfl
        · rw [hbelow i hi]
          rfl
        · simp
      have hjlow : low ≤ j := by
        by_contra hlt
        rw [hlow j (by omega)] at hset
        cases hset
      rw [if_neg (by simp), ih (j + 1) hlow' (by omega)]
      refine congrArg some (List.find?_congr fun i hi => ?_)
      rw [hclear i (List.mem_range.mp hi)]
      by_cases hij : i = j
      · rw [hij, htest]
        simp
      · simp [hij]

/-- The loop finds the first position that is set and passes the test. -/
theorem scanBits_eq (test : Nat → Bool) (mask : BitVec w) : scanBits test w mask =
    some ((List.range w).find? fun i => mask.getLsbD i && test i) :=
  scanBits_above test 0 (by simp) (by omega)

end Epli.Lib
