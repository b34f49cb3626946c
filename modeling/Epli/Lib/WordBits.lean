import Mathlib.Algebra.Group.Nat.Defs
import Mathlib.Algebra.GroupWithZero.Nat
import Mathlib.Data.Nat.Init
import Mathlib.Order.Lattice
import Epli.Lib.Pmem

/-!
# Bits in an array of words

A bitmap in words of 64 bits: bit `i` is bit `i % 64` of word `i / 64`. The lowest and the
highest set bit of a word come from counting zeros, or from `v & -v`. `nextWord` finds the
next word that is not zero, and with it the next set bit (`Pending.next`).
-/

namespace Epli.Lib

variable {b : Nat → BitVec 64} {v : BitVec 64} {pos i n r q : Nat}

/-- Bit `pos` of the bitmap. -/
def bitAt (b : Nat → BitVec 64) (pos : Nat) : Bool := (b (pos / 64)).getLsbD (pos % 64)

theorem bitAt_word (hr : r < 64) : bitAt b (64 * q + r) = (b q).getLsbD r := by
  unfold bitAt
  rw [show (64 * q + r) / 64 = q by omega, show (64 * q + r) % 64 = r by omega]

/-! ## Single bits -/

theorem getLsbD_one_shift (hi : i < 64) : (1#64 <<< r).getLsbD i = decide (i = r) := by
  rw [← BitVec.twoPow_eq, BitVec.getLsbD_twoPow]
  by_cases h : i = r
  · subst h
    simp [hi]
  · simp [h, Ne.symm h]

theorem and_shift_ne_zero (hr : r < 64) :
    decide (v &&& 1#64 <<< r ≠ 0#64) = v.getLsbD r := by
  cases hv : v.getLsbD r with
  | true =>
    rw [decide_eq_true_iff]
    intro hzero
    have hbit : (v &&& 1#64 <<< r).getLsbD r = false := by
      rw [hzero, BitVec.getLsbD_zero]
    rw [BitVec.getLsbD_and, getLsbD_one_shift hr, hv, decide_eq_true rfl] at hbit
    cases hbit
  | false =>
    rw [decide_eq_false_iff_not, not_not]
    refine BitVec.eq_of_getLsbD_eq fun i hi => ?_
    rw [BitVec.getLsbD_and, getLsbD_one_shift hi]
    by_cases h : i = r
    · subst h
      simp [hv]
    · simp [h]

/-- Set bit `pos`. -/
def setBit (b : Nat → BitVec 64) (pos : Nat) : Nat → BitVec 64 :=
  setLoc b (pos / 64) (b (pos / 64) ||| 1#64 <<< (pos % 64))

/-- Clear bit `pos`. -/
def unsetBit (b : Nat → BitVec 64) (pos : Nat) : Nat → BitVec 64 :=
  setLoc b (pos / 64) (b (pos / 64) &&& ~~~(1#64 <<< (pos % 64)))

theorem bitAt_setBit (b : Nat → BitVec 64) (pos i : Nat) :
    bitAt (setBit b pos) i = if i = pos then true else bitAt b i := by
  unfold setBit bitAt
  have hi : i % 64 < 64 := Nat.mod_lt i (by decide)
  by_cases hq : i / 64 = pos / 64
  · rw [hq, setLoc_self, BitVec.getLsbD_or, getLsbD_one_shift hi]
    by_cases h : i = pos
    · simp [h]
    · rw [if_neg h, decide_eq_false (by omega), Bool.or_false]
  · rw [setLoc_ne _ _ hq, if_neg (by rintro rfl; exact hq rfl)]

theorem bitAt_unsetBit (b : Nat → BitVec 64) (pos i : Nat) :
    bitAt (unsetBit b pos) i = if i = pos then false else bitAt b i := by
  unfold unsetBit bitAt
  have hi : i % 64 < 64 := Nat.mod_lt i (by decide)
  by_cases hq : i / 64 = pos / 64
  · rw [hq, setLoc_self, BitVec.getLsbD_and, BitVec.getLsbD_not, getLsbD_one_shift hi]
    by_cases h : i = pos
    · simp [h]
    · have hne : ¬i % 64 = pos % 64 := by omega
      rw [if_neg h, decide_eq_false hne, decide_eq_true hi, Bool.not_false,
        Bool.and_true, Bool.and_true]
  · rw [setLoc_ne _ _ hq, if_neg (by rintro rfl; exact hq rfl)]

/-! ## Masks -/

/-- The mask of the bits below `r`. -/
theorem getLsbD_mask (hr : r < 64) (i : Nat) :
    (1#64 <<< r - 1#64).getLsbD i = decide (i < r) := by
  have hpow : 2 ^ r < 2 ^ 64 := Nat.pow_lt_pow_right (by decide) hr
  have hone := Nat.one_le_two_pow (n := r)
  have hnat : (1#64 <<< r - 1#64).toNat = 2 ^ r - 1 := by
    rw [← BitVec.twoPow_eq, BitVec.toNat_sub, BitVec.toNat_twoPow_of_lt hr]
    simp only [BitVec.toNat_ofNat, Nat.reducePow, Nat.reduceMod] at hpow ⊢
    omega
  rw [BitVec.getLsbD, hnat, Nat.testBit_two_pow_sub_one]

/-! ## Counting ones -/

theorem cpop_eq_iff (hhigh : ∀ i, n ≤ i → i < 64 → v.getLsbD i = false) (hn : n ≤ 64) :
    v.cpop.toNat = n ↔ ∀ i < n, v.getLsbD i = true := by
  -- all of the lower `m` bits are counted exactly when all are set
  have hall : ∀ m, v.cpopNatRec m 0 = m ↔ ∀ i < m, v.getLsbD i = true := by
    intro m
    induction m with
    | zero => simp
    | succ m ih =>
      rw [BitVec.cpopNatRec_succ, BitVec.cpopNatRec_eq]
      have hle : v.cpopNatRec m 0 ≤ 0 + m := BitVec.cpopNatRec_le m
      constructor
      · intro heq i hi
        cases hm : v.getLsbD m with
        | false =>
          rw [hm] at heq
          simp only [Bool.toNat_false] at heq
          omega
        | true =>
          rw [hm] at heq
          simp only [Bool.toNat_true] at heq
          rcases Nat.lt_succ_iff_lt_or_eq.mp hi with hlt | heq'
          · exact ih.mp (by omega) i hlt
          · rw [heq']
            exact hm
      · intro hset
        have hm := hset m (Nat.lt_succ_self m)
        have hrec := ih.mpr fun i hi => hset i (Nat.lt_succ_of_lt hi)
        rw [hm]
        simp only [Bool.toNat_true]
        omega
  -- the bits from `n` on are clear and add nothing
  have hdrop : ∀ k, n + k ≤ 64 → v.cpopNatRec (n + k) 0 = v.cpopNatRec n 0 := by
    intro k
    induction k with
    | zero => exact fun _ => rfl
    | succ k ih =>
      intro hle
      rw [← Nat.add_assoc, BitVec.cpopNatRec_succ, hhigh (n + k) (by omega) (by omega)]
      exact ih (by omega)
  have hcount := hdrop (64 - n) (by omega)
  rw [show n + (64 - n) = 64 by omega] at hcount
  rw [BitVec.toNat_cpop, hcount, hall n]

/-! ## The lowest and the highest bit of a word -/

/-- `r` is the lowest set bit. -/
structure Lowest (v : BitVec 64) (r : Nat) : Prop where
  lt : r < 64
  set : v.getLsbD r = true
  below : ∀ i < r, v.getLsbD i = false

theorem lowest_ctz (h : v ≠ 0#64) : Lowest v v.ctz.toNat := by
  refine ⟨?_, BitVec.getLsbD_true_ctz_of_ne_zero h, fun i hi =>
    BitVec.getLsbD_false_of_lt_ctz hi⟩
  exact BitVec.lt_def.mp (BitVec.ctz_lt_iff_ne_zero.mpr h)

/-- What counting zeros from below tells: `64` if there is no set bit. -/
theorem ctz_spec (v : BitVec 64) : (∀ i < v.ctz.toNat, v.getLsbD i = false) ∧
    (v.ctz.toNat < 64 → v.getLsbD v.ctz.toNat = true) := by
  refine ⟨fun i hi => BitVec.getLsbD_false_of_lt_ctz hi, fun hlt => ?_⟩
  exact BitVec.getLsbD_true_ctz_of_ne_zero (BitVec.ctz_lt_iff_ne_zero.mp (BitVec.lt_def.mpr hlt))

/-- What counting zeros from above tells. -/
theorem clz_spec (v : BitVec 64) : (∀ i < 64, 63 < i + v.clz.toNat → v.getLsbD i = false) ∧
    (v.clz.toNat < 64 → v.getLsbD (63 - v.clz.toNat) = true) := by
  constructor
  · intro i hi hi'
    have hbound := BitVec.toNat_lt_two_pow_sub_clz (x := v)
    refine Nat.testBit_lt_two_pow (hbound.trans_le ?_)
    exact Nat.pow_le_pow_right (by decide) (by omega)
  · intro hlt
    exact BitVec.getLsbD_true_clz_of_ne_zero (by decide)
      (BitVec.clz_lt_iff_ne_zero.mp (BitVec.lt_def.mpr hlt))

theorem toNat_clz_le (v : BitVec 64) : v.clz.toNat ≤ 64 := by
  have hle := BitVec.le_def.mp (BitVec.clz_le (x := v))
  simpa using hle

theorem toNat_ctz_le (v : BitVec 64) : v.ctz.toNat ≤ 64 := by
  rw [BitVec.ctz_eq_reverse_clz]
  exact toNat_clz_le v.reverse

theorem getLsbD_not_word (hi : i < 64) : (~~~v).getLsbD i = !v.getLsbD i := by
  rw [BitVec.getLsbD_not, decide_eq_true hi, Bool.true_and]

/-- Some bit below `i` is set if and only if the lowest one is. -/
theorem Lowest.exists_iff (h : Lowest v r) : (∃ j < i, v.getLsbD j = true) ↔ r < i := by
  constructor
  · rintro ⟨j, hj, hset⟩
    by_contra hle
    rw [h.below j (by omega)] at hset
    cases hset
  · exact fun hr => ⟨r, hr, h.set⟩

/-- `v & -v` is the lowest bit. -/
theorem Lowest.and_neg (h : Lowest v r) : v &&& -v = 1#64 <<< r := by
  refine BitVec.eq_of_getLsbD_eq fun i hi => ?_
  rw [BitVec.getLsbD_and, BitVec.getLsbD_neg, getLsbD_one_shift hi, decide_eq_true hi,
    Bool.true_and, decide_eq_decide.mpr h.exists_iff]
  rcases Nat.lt_trichotomy i r with hlt | heq | hgt
  · rw [h.below i hlt, decide_eq_false (by omega)]
    simp only [Bool.false_and]
    rw [eq_comm, decide_eq_false (by omega)]
  · rw [heq, h.set, decide_eq_false (by omega), decide_eq_true rfl]
    rfl
  · rw [decide_eq_true hgt, decide_eq_false (by omega)]
    cases v.getLsbD i <;> rfl

/-- `v & (v - 1)` is what is above the lowest bit. -/
theorem Lowest.and_sub_one (h : Lowest v r) (hi : i < 64) :
    (v &&& (v - 1#64)).getLsbD i = (v.getLsbD i && decide (r < i)) := by
  rw [← BitVec.not_neg, BitVec.getLsbD_and, BitVec.getLsbD_not, BitVec.getLsbD_neg,
    decide_eq_true hi, Bool.true_and, Bool.true_and, decide_eq_decide.mpr h.exists_iff]
  by_cases hr : r < i
  · rw [decide_eq_true hr]
    cases v.getLsbD i <;> rfl
  · rw [decide_eq_false hr]
    cases v.getLsbD i <;> rfl

/-- The ones below the lowest bit count its position. -/
theorem Lowest.cpop (h : Lowest v r) : ((v &&& -v) - 1#64).cpop.toNat = r := by
  have hr := h.lt
  rw [h.and_neg, cpop_eq_iff _ hr.le]
  · intro i hi
    rw [getLsbD_mask hr i, decide_eq_true hi]
  · intro i hi hi'
    rw [getLsbD_mask hr i, decide_eq_false (by omega)]

/-! ## The next set bit -/

/-- The first word that is not zero, from `data` in place of word `idx` on, where `n` more
words follow. -/
def nextWord (b : Nat → BitVec 64) : Nat → Nat → BitVec 64 → Option (Nat × BitVec 64)
  | 0, idx, data => if data = 0#64 then none else some (idx, data)
  | n + 1, idx, data => if data = 0#64 then nextWord b n (idx + 1) (b (idx + 1))
    else some (idx, data)

/-- `data` holds the bits of word `idx` from `pos` on, and those of the words before are below
`pos`. -/
structure Pending (b : Nat → BitVec 64) (idx : Nat) (data : BitVec 64) (pos : Nat) : Prop where
  bits : ∀ r < 64, data.getLsbD r = (bitAt b (64 * idx + r) && decide (pos ≤ 64 * idx + r))
  from_word : 64 * idx ≤ pos
  in_word : pos ≤ 64 * (idx + 1)

variable {idx : Nat} {data : BitVec 64}

/-- The word of `pos`, without the bits below it. -/
theorem pending_word (b : Nat → BitVec 64) (pos : Nat) :
    Pending b (pos / 64) (b (pos / 64) &&& ~~~(1#64 <<< (pos % 64) - 1#64)) pos := by
  refine ⟨?_, by omega, by omega⟩
  intro r hr
  rw [BitVec.getLsbD_and, BitVec.getLsbD_not, getLsbD_mask (Nat.mod_lt pos (by decide)) r,
    bitAt_word hr, decide_eq_true hr, Bool.true_and]
  congr 1
  rw [← decide_not, decide_eq_decide]
  omega

/-- A whole word. -/
theorem pending_start (b : Nat → BitVec 64) (idx : Nat) : Pending b idx (b idx) (64 * idx) := by
  refine ⟨?_, le_rfl, by omega⟩
  intro r hr
  rw [bitAt_word hr, decide_eq_true (by omega), Bool.and_true]

/-- What is pending after the lowest bit has been taken. -/
theorem Pending.rest (h : Pending b idx data pos) (hr : Lowest data r) :
    Pending b idx (data &&& (data - 1#64)) (64 * idx + r + 1) := by
  have hlt := hr.lt
  refine ⟨?_, by omega, by omega⟩
  intro i hi
  rw [hr.and_sub_one hi, h.bits i hi, Bool.and_assoc]
  congr 1
  have hset := hr.set
  rw [h.bits r hlt, Bool.and_eq_true, decide_eq_true_eq] at hset
  rw [← Bool.decide_and, decide_eq_decide]
  omega

/-- The lowest bit of what is pending is the next set bit. -/
theorem Pending.lowest (h : Pending b idx data pos) (hr : Lowest data r) :
    pos ≤ 64 * idx + r ∧ bitAt b (64 * idx + r) = true ∧
      ∀ i, pos ≤ i → i < 64 * idx + r → bitAt b i = false := by
  have hset := hr.set
  rw [h.bits r hr.lt, Bool.and_eq_true, decide_eq_true_eq] at hset
  refine ⟨hset.2, hset.1, ?_⟩
  intro i hlo hhi
  have hfrom := h.from_word
  have hbelow := hr.below (i - 64 * idx) (by omega)
  rw [h.bits _ (by have := hr.lt; omega), show 64 * idx + (i - 64 * idx) = i by omega,
    decide_eq_true hlo, Bool.and_true] at hbelow
  exact hbelow

/-- Nothing is pending in this word. -/
theorem Pending.next_word (h : Pending b idx 0#64 pos) :
    ∀ i, pos ≤ i → i < 64 * (idx + 1) → bitAt b i = false := by
  intro i hlo hhi
  have hfrom := h.from_word
  have hbit := h.bits (i - 64 * idx) (by omega)
  rw [show 64 * idx + (i - 64 * idx) = i by omega, decide_eq_true hlo, Bool.and_true] at hbit
  rw [← hbit]
  simp

/-- The next set bit, if there is one in the words up to `idx + n`. -/
theorem Pending.next : ∀ {n idx pos : Nat} {data : BitVec 64}, Pending b idx data pos →
    match nextWord b n idx data with
    | some (idx', data') => ∃ pos', pos ≤ pos' ∧ Pending b idx' data' pos' ∧ data' ≠ 0#64 ∧
        ∀ i, pos ≤ i → i < pos' → bitAt b i = false
    | none => ∀ i, pos ≤ i → i < 64 * (idx + n + 1) → bitAt b i = false := by
  intro n
  induction n with
  | zero =>
    intro idx pos data h
    unfold nextWord
    split
    · rename_i heq
      split at heq
      · cases heq
      · rename_i hne
        cases heq
        exact ⟨pos, le_rfl, h, hne, fun i hi hi' => absurd hi' (by omega)⟩
    · rename_i heq
      split at heq
      · rename_i hzero
        subst hzero
        exact h.next_word
      · cases heq
  | succ n ih =>
    intro idx pos data h
    -- a word without a bit is passed, and the next one is loaded
    by_cases hzero : data = 0#64
    · subst hzero
      have hgap := h.next_word
      have hpos := h.in_word
      have hrec := ih (pending_start b (idx + 1))
      rw [nextWord, if_pos rfl]
      split
      · rename_i heq
        rw [heq] at hrec
        obtain ⟨pos', hle, hpend, hne, hbetween⟩ := hrec
        refine ⟨pos', by omega, hpend, hne, ?_⟩
        intro i hlo hhi
        by_cases hi : i < 64 * (idx + 1)
        · exact hgap i hlo hi
        · exact hbetween i (by omega) hhi
      · rename_i heq
        rw [heq] at hrec
        intro i hlo hhi
        by_cases hi : i < 64 * (idx + 1)
        · exact hgap i hlo hi
        · exact hrec i (by omega) (by omega)
    · rw [nextWord, if_neg hzero]
      exact ⟨pos, le_rfl, h, hzero, fun i hi hi' => absurd hi' (by omega)⟩

/-! ## Counting the bits of a range -/

/-- The number of bits set from `lo` up to `hi`. -/
def countBits (b : Nat → BitVec 64) (lo hi : Nat) : Nat :=
  (List.range' lo (hi - lo)).countP (bitAt b)

theorem countBits_append {lo mid hi : Nat} (h : lo ≤ mid) (h' : mid ≤ hi) :
    countBits b lo hi = countBits b lo mid + countBits b mid hi := by
  unfold countBits
  rw [← List.countP_append, show hi - lo = mid - lo + (hi - mid) by omega,
    ← List.range'_append_1, show lo + (mid - lo) = mid by omega]

/-- The ones of a word that has the bits of word `q` between two positions. -/
theorem cpop_eq_countBits {lo hi : Nat} (hlo : 64 * q ≤ lo) (hhi : hi ≤ 64 * (q + 1))
    (hbits : ∀ r < 64, v.getLsbD r =
      (bitAt b (64 * q + r) && decide (lo ≤ 64 * q + r ∧ 64 * q + r < hi))) :
    v.cpop.toNat = countBits b lo hi := by
  have hcount : ∀ n ≤ 64, v.cpopNatRec n 0 = countBits b lo (min hi (64 * q + n)) := by
    intro n
    induction n with
    | zero =>
      intro _
      unfold countBits
      rw [show min hi (64 * q + 0) - lo = 0 by omega]
      rfl
    | succ n ih =>
      intro hn
      rw [BitVec.cpopNatRec_succ, BitVec.cpopNatRec_eq, ih (by omega), hbits n (by omega)]
      by_cases hin : lo ≤ 64 * q + n ∧ 64 * q + n < hi
      · rw [decide_eq_true hin, Bool.and_true, show min hi (64 * q + n) = 64 * q + n by omega,
          show min hi (64 * q + (n + 1)) = 64 * q + n + 1 by omega,
          countBits_append hin.1 (Nat.le_succ (64 * q + n)), Nat.zero_add]
        congr 1
        unfold countBits
        rw [show 64 * q + n + 1 - (64 * q + n) = 1 by omega]
        cases hbit : bitAt b (64 * q + n) with
        | false => simp [hbit]
        | true => simp [hbit]
      · rw [decide_eq_false hin, Bool.and_false]
        simp only [Bool.toNat_false, Nat.add_zero]
        unfold countBits
        congr 2
        omega
  rw [BitVec.toNat_cpop, hcount 64 le_rfl]
  congr 1
  omega

/-- The ones of a row of words. -/
theorem sum_cpop (b : Nat → BitVec 64) (lo n : Nat) :
    ((List.range' lo n).map fun i => (b i).cpop.toNat).sum =
      countBits b (64 * lo) (64 * (lo + n)) := by
  induction n with
  | zero =>
    unfold countBits
    rw [show 64 * (lo + 0) - 64 * lo = 0 by omega]
    rfl
  | succ n ih =>
    have hword : (b (lo + n)).cpop.toNat = countBits b (64 * (lo + n)) (64 * (lo + n + 1)) := by
      refine cpop_eq_countBits le_rfl le_rfl fun r hr => ?_
      rw [bitAt_word hr, decide_eq_true (by omega), Bool.and_true]
    rw [List.range'_concat, List.map_append, List.sum_append, ih, Nat.one_mul,
      countBits_append (show 64 * lo ≤ 64 * (lo + n) by omega)
        (show 64 * (lo + n) ≤ 64 * (lo + (n + 1)) by omega)]
    simp only [List.map_cons, List.map_nil, List.sum_cons, List.sum_nil, Nat.add_zero]
    rw [hword]
    rfl

end Epli.Lib
