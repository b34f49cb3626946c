import Mathlib.Order.Fin.Basic
import Epli.AlexNode

/-!
# Searches in a data node

What the searches of a node find, whatever its model predicts: the bounds of a key, the next
entry, the closest gap. The search for the closest gap with counts of zeros over whole words
and the one that looks at one position after the other find the same (`closestGap_eq_slow`).
-/

namespace Epli.Alex

open Lib

variable {K P : Type} [LinearOrder K] [OrderTop K]

namespace DataNode

/-- The entries of a node, in order of their positions. -/
def entries (d : DataNode K P) : List (K × P) :=
  Lib.entries d.checkExists (fun i => (d.keySlots i, d.payloadSlots i)) 0 d.dataCapacity

/-- The bitmap and the capacity. -/
structure Bits (d : DataNode K P) : Prop where
  size : d.bitmapSize = bitmapWords d.dataCapacity
  pos : 0 < d.dataCapacity
  clear : ∀ i, d.dataCapacity ≤ i → i < 64 * d.bitmapSize → d.checkExists i = false

variable {d : DataNode K P} {pos i r q g : Nat} {key : K}

omit [LinearOrder K] [OrderTop K] in
/-- `check_exists` is one bit of the bitmap. -/
theorem checkExists_eq (pos : Nat) : d.checkExists pos = bitAt d.bitmap pos := by
  unfold checkExists bitAt
  exact and_shift_ne_zero (Nat.mod_lt pos (by decide))

omit [LinearOrder K] [OrderTop K] in
/-- The position within its word is the bit's number. -/
theorem checkExists_word (hr : r < 64) :
    d.checkExists (64 * q + r) = (d.bitmap q).getLsbD r := by
  rw [checkExists_eq, bitAt_word hr]

omit [LinearOrder K] [OrderTop K] in
/-- The last word of the bitmap is the one with the last position. -/
theorem Bits.bounds (h : d.Bits) : 64 * (d.bitmapSize - 1) < d.dataCapacity ∧
    d.dataCapacity ≤ 64 * d.bitmapSize ∧ (d.dataCapacity - 1) / 64 = d.bitmapSize - 1 := by
  have hsize := h.size
  have hpos := h.pos
  unfold bitmapWords at hsize
  omega

/-! ## Bounds of a key -/

omit [LinearOrder K] [OrderTop K] in
/-- A prediction is clamped to the capacity. -/
theorem predictPosition_lt (h : 0 < d.dataCapacity) (key : K) :
    d.predictPosition key < d.dataCapacity := by
  unfold predictPosition
  omega

/-- `upper_bound` is the first position with a key above. -/
theorem upperBound_first (h : Gapped d.dataCapacity d.checkExists d.keySlots)
    (hpos : 0 < d.dataCapacity) (key : K) :
    First (above d.keySlots key) d.dataCapacity (d.upperBound key) :=
  expSearch_first (h.rising_above key) (predictPosition_lt hpos key)

/-- `lower_bound` is the first position with a key not below. -/
theorem lowerBound_first (h : Gapped d.dataCapacity d.checkExists d.keySlots)
    (hpos : 0 < d.dataCapacity) (key : K) :
    First (atLeast d.keySlots key) d.dataCapacity (d.lowerBound key) :=
  expSearch_first (h.rising_atLeast key) (predictPosition_lt hpos key)

/-! ## The next entry -/

/-- The position of the lowest bit of a word. -/
theorem getOffset_lowest {idx : Nat} {data : BitVec 64} (h : Lowest data r) :
    getOffset idx (extractRightmostOne data) = 64 * idx + r := by
  unfold getOffset extractRightmostOne countOnes
  rw [h.cpop]

/-- `r` is the first entry from `pos` on, or behind all positions if there is none. -/
structure NextFilled (d : DataNode K P) (pos r : Nat) : Prop where
  le : pos ≤ r
  filled : r < d.dataCapacity → d.checkExists r = true
  between : ∀ i, pos ≤ i → i < r → i < d.dataCapacity → d.checkExists i = false

omit [LinearOrder K] [OrderTop K] in
/-- `get_next_filled_position` finds the next entry from `pos` on. -/
theorem Bits.nextFilled (h : d.Bits) (hpos : pos ≤ d.dataCapacity) :
    NextFilled d pos (d.getNextFilledPosition pos false) := by
  obtain ⟨hlow, hcap, _⟩ := h.bounds
  unfold getNextFilledPosition wordFrom
  simp only [Bool.false_eq_true, if_false, false_and]
  have hnext := (pending_word d.bitmap pos).next (n := d.bitmapSize - 1 - pos / 64)
  split
  · rename_i heq
    rw [heq] at hnext
    -- no word from here on has a bit left
    refine ⟨hpos, fun hlt => absurd hlt (Nat.lt_irrefl _), ?_⟩
    intro i hi _ hlt
    rw [checkExists_eq]
    exact hnext i hi (by omega)
  · rename_i idx data heq
    rw [heq] at hnext
    -- the lowest bit of the first word that has one; the words before it are empty
    obtain ⟨pos', hle, hpend, hne, hbetween⟩ := hnext
    have hlowest := lowest_ctz hne
    obtain ⟨hfrom, hset, hgaps⟩ := hpend.lowest hlowest
    rw [getOffset_lowest hlowest]
    refine ⟨hle.trans hfrom, fun _ => ?_, ?_⟩
    · rw [checkExists_eq]
      exact hset
    · intro i hi hi' _
      rw [checkExists_eq]
      by_cases hlt : i < pos'
      · exact hbetween i hi hlt
      · exact hgaps i (by omega) hi'

omit [LinearOrder K] [OrderTop K] in
/-- Called exclusively, it finds the next one behind `pos`. -/
theorem Bits.nextFilled_exclusive (h : d.Bits) (hpos : pos < d.dataCapacity) :
    NextFilled d (pos + 1) (d.getNextFilledPosition pos true) := by
  by_cases heq : pos + 1 = d.dataCapacity
  · have hcap : d.getNextFilledPosition pos true = d.dataCapacity := by
      unfold getNextFilledPosition
      simp only [if_true, true_and]
      rw [if_pos heq]
    rw [hcap]
    exact ⟨by omega, fun hlt => absurd hlt (Nat.lt_irrefl _), fun i _ _ _ => by omega⟩
  · have hsame : d.getNextFilledPosition pos true = d.getNextFilledPosition (pos + 1) false := by
      unfold getNextFilledPosition
      simp only [if_true, true_and, Bool.false_eq_true, if_false, false_and]
      rw [if_neg heq]
    rw [hsame]
    exact h.nextFilled (by omega)

/-! ## The iterator -/

/-- The iterator stands at the first entry from `pos` on. -/
structure Iterator.At (d : DataNode K P) (pos : Nat) (it : Iterator) : Prop where
  gaps : it.curIdx = none → ∀ i, pos ≤ i → i < d.dataCapacity → d.checkExists i = false
  here : ∀ j, it.curIdx = some j → NextFilled d pos j ∧
    Pending d.bitmap it.curBitmapIdx it.curBitmapData (j + 1)

omit [LinearOrder K] [OrderTop K] in
/-- The iterator moves on to the next entry. -/
theorem Bits.iterator_next (h : d.Bits) {it : Iterator}
    (hp : Pending d.bitmap it.curBitmapIdx it.curBitmapData pos) :
    (it.next d).At d pos := by
  obtain ⟨_, hcap, _⟩ := h.bounds
  have hnext := hp.next (n := d.bitmapSize - 1 - it.curBitmapIdx)
  unfold Iterator.next
  split
  · rename_i heq
    rw [heq] at hnext
    -- the bitmap is exhausted: there is no entry from `pos` on
    refine ⟨fun _ i hi hlt => ?_, fun j hj => by cases hj⟩
    rw [checkExists_eq]
    exact hnext i hi (by omega)
  · rename_i idx data heq
    rw [heq] at hnext
    obtain ⟨pos', hle, hpend, hne, hbetween⟩ := hnext
    have hlowest := lowest_ctz hne
    obtain ⟨hfrom, hset, hgaps⟩ := hpend.lowest hlowest
    rw [getOffset_lowest hlowest]
    refine ⟨fun hnone => absurd hnone (by simp), ?_⟩
    intro j hj
    cases hj
    refine ⟨⟨hle.trans hfrom, fun _ => ?_, ?_⟩, hpend.rest hlowest⟩
    · rw [checkExists_eq]
      exact hset
    · intro i hi hi' _
      rw [checkExists_eq]
      by_cases hlt : i < pos'
      · exact hbetween i hi hlt
      · exact hgaps i (by omega) hi'

omit [LinearOrder K] [OrderTop K] in
/-- Iterating collects the entries in order, up to `right`. -/
theorem Bits.valuesFrom_eq (h : d.Bits) {right : Nat} (hright : right ≤ d.dataCapacity) :
    ∀ {n pos : Nat} {it : Iterator}, it.At d pos → right ≤ pos + n →
      d.valuesFrom right n it =
        Lib.entries d.checkExists (fun i => (d.keySlots i, d.payloadSlots i)) pos right := by
  intro n
  induction n with
  | zero =>
    intro pos it _ hle
    rw [valuesFrom, entries_gaps fun i hi hi' => absurd hi' (by omega)]
  | succ n ih =>
    intro pos it hat hle
    rw [valuesFrom]
    split
    · rename_i hnone
      exact (entries_gaps fun i hi hi' => hat.gaps hnone i hi (by omega)).symm
    · rename_i j hj
      obtain ⟨hnext, hpend⟩ := hat.here j hj
      have hge := hnext.le
      split
      · rename_i hlt
        have hgaps : Lib.entries d.checkExists (fun i => (d.keySlots i, d.payloadSlots i)) pos j =
            [] := entries_gaps fun i hi hi' => hnext.between i hi hi' (by omega)
        rw [ih (h.iterator_next hpend) (by omega),
          entries_split (hnext.filled (by omega)) hge hlt, hgaps, List.nil_append]
      · refine (entries_gaps fun i hi hi' => hnext.between i hi (by omega) (by omega)).symm

omit [LinearOrder K] [OrderTop K] in
/-- The iterator goes through the entries in order. -/
theorem Bits.values_eq (h : d.Bits) {left right : Nat} (hright : right ≤ d.dataCapacity) :
    d.values left right =
      Lib.entries d.checkExists (fun i => (d.keySlots i, d.payloadSlots i)) left right := by
  have hat : (d.iteratorAt left).At d left := h.iterator_next (pending_word d.bitmap left)
  exact h.valuesFrom_eq hright hat (by omega)

/-! ## Gaps of a word -/

omit [LinearOrder K] [OrderTop K] in
/-- A full word has no gap. -/
theorem full_word (hfull : d.bitmap q = BitVec.allOnes 64) (hi : 64 * q ≤ i)
    (hi' : i < 64 * (q + 1)) : d.checkExists i = true := by
  have hword := checkExists_word (d := d) (q := q) (show i - 64 * q < 64 by omega)
  rw [show 64 * q + (i - 64 * q) = i by omega] at hword
  rw [hword, hfull]
  simp only [BitVec.getLsbD_allOnes, decide_eq_true_eq]
  omega

omit [LinearOrder K] [OrderTop K] in
/-- The gaps of a word, counted from below: none up to the number of ones there. -/
theorem right_gap (q : Nat) :
    (∀ i, 64 * q ≤ i → i < 64 * (q + 1) → i < d.rightGapPos q → d.checkExists i = true) ∧
      (d.rightGapPos q < 64 * (q + 1) → d.checkExists (d.rightGapPos q) = false) := by
  obtain ⟨hbelow, hset⟩ := ctz_spec (~~~d.bitmap q)
  unfold rightGapPos
  constructor
  · intro i hi hi' hlt
    have hword := checkExists_word (d := d) (q := q) (show i - 64 * q < 64 by omega)
    have hzero := hbelow (i - 64 * q) (by omega)
    rw [getLsbD_not_word (by omega)] at hzero
    rw [show 64 * q + (i - 64 * q) = i by omega] at hword
    rw [hword]
    simpa using hzero
  · intro hlt
    have hone := hset (by omega)
    rw [getLsbD_not_word (by omega)] at hone
    rw [checkExists_word (by omega)]
    simpa using hone

omit [LinearOrder K] [OrderTop K] in
/-- A word that is not full has gaps. -/
theorem gaps_ne_zero (hfull : d.bitmap q ≠ BitVec.allOnes 64) : ~~~d.bitmap q ≠ 0#64 := by
  intro hzero
  apply hfull
  apply BitVec.eq_of_getLsbD_eq
  intro i hi
  have hbit := getLsbD_not_word (v := d.bitmap q) hi
  rw [hzero, BitVec.getLsbD_zero] at hbit
  rw [BitVec.getLsbD_allOnes, decide_eq_true hi]
  simpa using hbit.symm

omit [LinearOrder K] [OrderTop K] in
/-- A word that is not full has a gap; the lowest one is in the word. -/
theorem rightGapPos_lt (hfull : d.bitmap q ≠ BitVec.allOnes 64) :
    64 * q ≤ d.rightGapPos q ∧ d.rightGapPos q < 64 * (q + 1) := by
  have hlt := (lowest_ctz (gaps_ne_zero hfull)).lt
  unfold rightGapPos
  omega

omit [LinearOrder K] [OrderTop K] in
/-- The highest one is in the word as well. -/
theorem leftGapPos_lt (hfull : d.bitmap q ≠ BitVec.allOnes 64) :
    (~~~d.bitmap q).clz.toNat < 64 ∧ 64 * q ≤ d.leftGapPos q ∧ d.leftGapPos q < 64 * (q + 1) := by
  have hlt : (~~~d.bitmap q).clz.toNat < 64 :=
    BitVec.lt_def.mp (BitVec.clz_lt_iff_ne_zero.mpr (gaps_ne_zero hfull))
  unfold leftGapPos
  omega

omit [LinearOrder K] [OrderTop K] in
/-- The gaps of a word, counted from above. -/
theorem left_gap (q : Nat) :
    (∀ i, 64 * q ≤ i → i < 64 * (q + 1) → d.leftGapPos q < i → d.checkExists i = true) ∧
      ((~~~d.bitmap q).clz.toNat < 64 → d.checkExists (d.leftGapPos q) = false) := by
  obtain ⟨habove, hset⟩ := clz_spec (~~~d.bitmap q)
  unfold leftGapPos
  constructor
  · intro i hi hi' hlt
    have hword := checkExists_word (d := d) (q := q) (show i - 64 * q < 64 by omega)
    have hzero := habove (i - 64 * q) (by omega) (by omega)
    rw [getLsbD_not_word (by omega)] at hzero
    rw [show 64 * q + (i - 64 * q) = i by omega] at hword
    rw [hword]
    simpa using hzero
  · intro hlt
    have hone := hset hlt
    rw [getLsbD_not_word (by omega)] at hone
    rw [show 64 * (q + 1) - (~~~d.bitmap q).clz.toNat - 1 =
      64 * q + (63 - (~~~d.bitmap q).clz.toNat) by omega, checkExists_word (by omega)]
    simpa using hone

/-! ## The closest gap -/

omit [LinearOrder K] [OrderTop K] in
/-- The closer one of two gaps with entries between them. -/
theorem nearest_closer {l : Nat} (hl : l ≤ pos) (hpos : pos < d.dataCapacity) (hr : pos ≤ r)
    (hgl : d.checkExists l = false) (hgr : r < d.dataCapacity → d.checkExists r = false)
    (hb : ∀ i < d.dataCapacity, l < i → i < r → d.checkExists i = true) :
    Nearest d.checkExists d.dataCapacity pos (d.closerGap pos l r) := by
  unfold closerGap
  split
  · exact nearest_left hl hpos hgl fun i hi hlo hhi => hb i hi hlo (by omega)
  · exact nearest_right hr (by omega) (hgr (by omega)) fun i hi hlo hhi => hb i hi (by omega) hlo

/-- What a search for the closest gap answers. -/
def GapFound (d : DataNode K P) (pos : Nat) : Option Nat → Prop
  | some g => Nearest d.checkExists d.dataCapacity pos g
  | none => ∀ i < d.dataCapacity, d.checkExists i = true

omit [LinearOrder K] [OrderTop K] in
/-- The scan to the left stops at the first gap, if there is one. -/
theorem scanLeft_spec (m : Nat) : match d.scanLeft m with
    | some g => g < 64 * m ∧ d.checkExists g = false ∧
        ∀ i, g < i → i < 64 * m → d.checkExists i = true
    | none => ∀ i < 64 * m, d.checkExists i = true := by
  induction m with
  | zero => exact fun i hi => absurd hi (by omega)
  | succ m ih =>
    unfold scanLeft
    by_cases hfull : d.bitmap m = BitVec.allOnes 64
    · rw [if_neg (not_not.mpr hfull)]
      split
      · rename_i g heq
        rw [heq] at ih
        obtain ⟨hlt, hgap, hb⟩ := ih
        refine ⟨by omega, hgap, fun i hi hi' => ?_⟩
        by_cases hm : i < 64 * m
        · exact hb i hi hm
        · exact full_word hfull (by omega) hi'
      · rename_i heq
        rw [heq] at ih
        intro i hi
        by_cases hm : i < 64 * m
        · exact ih i hm
        · exact full_word hfull (by omega) hi
    · rw [if_pos hfull]
      obtain ⟨hclz, hle, hlt⟩ := leftGapPos_lt hfull
      obtain ⟨habove, hgap⟩ := left_gap (d := d) m
      exact ⟨hlt, hgap hclz, fun i hi hi' => habove i (by omega) hi' hi⟩

omit [LinearOrder K] [OrderTop K] in
/-- The scan to the right stops at the first gap, if there is one. -/
theorem scanRight_spec : ∀ (n q : Nat), d.dataCapacity ≤ 64 * (q + n) →
    match d.scanRight n q with
    | some g => 64 * q ≤ g ∧ g < d.dataCapacity ∧ d.checkExists g = false ∧
        ∀ i, 64 * q ≤ i → i < g → d.checkExists i = true
    | none => ∀ i, 64 * q ≤ i → i < d.dataCapacity → d.checkExists i = true := by
  intro n
  induction n with
  | zero => exact fun q hcap i hi hi' => absurd hi' (by omega)
  | succ n ih =>
    intro q hcap
    unfold scanRight
    by_cases hfull : d.bitmap q = BitVec.allOnes 64
    · rw [if_neg (not_not.mpr hfull)]
      have hrec := ih (q + 1) (by omega)
      split
      · rename_i g heq
        rw [heq] at hrec
        obtain ⟨hle, hlt, hgap, hb⟩ := hrec
        refine ⟨by omega, hlt, hgap, fun i hi hi' => ?_⟩
        by_cases hq : i < 64 * (q + 1)
        · exact full_word hfull hi hq
        · exact hb i (by omega) hi'
      · rename_i heq
        rw [heq] at hrec
        intro i hi hi'
        by_cases hq : i < 64 * (q + 1)
        · exact full_word hfull hi hq
        · exact hrec i (by omega) hi'
    · rw [if_pos hfull]
      obtain ⟨hle, hlt⟩ := rightGapPos_lt hfull
      obtain ⟨hbelow, hgap⟩ := right_gap (d := d) q
      by_cases hcap' : d.dataCapacity ≤ d.rightGapPos q
      · rw [if_pos hcap']
        exact fun i hi hi' => hbelow i hi (by omega) (by omega)
      · rw [if_neg hcap']
        exact ⟨hle, by omega, hgap hlt, fun i hi hi' => hbelow i hi (by omega) hi'⟩

/-- The blocks less than `distance` blocks away from the one of `pos` are full. -/
def FullAround (d : DataNode K P) (pos distance : Nat) : Prop :=
  ∀ i < d.dataCapacity, pos / 64 < i / 64 + distance → i / 64 < pos / 64 + distance →
    d.checkExists i = true

omit [LinearOrder K] [OrderTop K] in
/-- One side has come to its end. -/
theorem Bits.scanSide (h : d.Bits) (hpos : pos < d.dataCapacity) {distance : Nat}
    (hdist : distance = min (pos / 64) ((d.dataCapacity - 1) / 64 - pos / 64) + 1)
    (hfull : FullAround d pos distance) : GapFound d pos (d.scanBoth pos 0 distance) := by
  have hcap := h.pos
  unfold scanBoth
  simp only
  split
  · -- everything to the right is full
    have hscan := scanLeft_spec (d := d) (pos / 64 + 1 - distance)
    have hside : ∀ i < d.dataCapacity, 64 * (pos / 64 + 1 - distance) ≤ i →
        d.checkExists i = true := fun i hi hle => hfull i hi (by omega) (by omega)
    split at hscan
    · rename_i g heq
      rw [heq]
      obtain ⟨hlt, hgap, hb⟩ := hscan
      refine nearest_left (by omega) hpos hgap fun i hi hlo _ => ?_
      by_cases hblock : i < 64 * (pos / 64 + 1 - distance)
      · exact hb i hlo hblock
      · exact hside i hi (by omega)
    · rename_i heq
      rw [heq]
      intro i hi
      by_cases hblock : i < 64 * (pos / 64 + 1 - distance)
      · exact hscan i hblock
      · exact hside i hi (by omega)
  · -- everything to the left is full
    have hscan := scanRight_spec (d := d) ((d.dataCapacity - 1) / 64 + 1 - (pos / 64 + distance))
      (pos / 64 + distance) (by omega)
    have hside : ∀ i < d.dataCapacity, i < 64 * (pos / 64 + distance) →
        d.checkExists i = true := fun i hi hlt => hfull i hi (by omega) (by omega)
    split at hscan
    · rename_i g heq
      rw [heq]
      obtain ⟨hle, hlt, hgap, hb⟩ := hscan
      refine nearest_right (by omega) hlt hgap fun i hi hlo _ => ?_
      by_cases hblock : i < 64 * (pos / 64 + distance)
      · exact hside i hi hblock
      · exact hb i (by omega) hlo
    · rename_i heq
      rw [heq]
      intro i hi
      by_cases hblock : i < 64 * (pos / 64 + distance)
      · exact hside i hi hblock
      · exact hscan i (by omega) hi

omit [LinearOrder K] [OrderTop K] in
/-- The words strictly between the two of a round, the word of `pos` among them, are full. -/
theorem FullAround.words {distance : Nat} (hfull : FullAround d pos distance)
    (hdist : distance ≤ pos / 64) : ∀ i < d.dataCapacity,
    64 * (pos / 64 - distance + 1) ≤ i → i < 64 * (pos / 64 + distance) →
      d.checkExists i = true :=
  fun i hi hlo hhi => hfull i hi (by omega) (by omega)

omit [LinearOrder K] [OrderTop K] in
/-- A round with a full word to the left: the gap is in the word to the right, unless the
next word to the left has a closer one, or the round ends without a gap. -/
theorem Bits.scanRound_full (h : d.Bits) (hpos : pos < d.dataCapacity) {n distance : Nat}
    (hdist : distance ≤ pos / 64) (hpos' : 0 < distance) (hfull : FullAround d pos distance)
    (hl : d.bitmap (pos / 64 - distance) = BitVec.allOnes 64) :
    GapFound d pos (d.scanBoth pos (n + 1) distance) ∨
      d.scanBoth pos (n + 1) distance = d.scanBoth pos n (distance + 1) ∧
        FullAround d pos (distance + 1) := by
  obtain ⟨_, hcap, _⟩ := h.bounds
  obtain ⟨hbelow, hgapr⟩ := right_gap (d := d) (pos / 64 + distance)
  have hfull' := hfull.words hdist
  generalize hrest : d.scanBoth pos n (distance + 1) = rest
  unfold scanBoth
  simp only [hrest]
  have hleft : ∀ i < d.dataCapacity, 64 * (pos / 64 - distance) ≤ i →
      i < 64 * (pos / 64 + distance) → d.checkExists i = true := by
    intro i hi hlo hhi
    by_cases hblock : i < 64 * (pos / 64 - distance + 1)
    · exact full_word hl hlo hblock
    · exact hfull' i hi (by omega) hhi
  -- the left word is full: what counts is the right one
  rw [if_neg (fun hc => hc.1 hl), if_neg (not_not.mpr hl)]
  by_cases hr : d.bitmap (pos / 64 + distance) ≠ BitVec.allOnes 64 ∧
      d.rightGapPos (pos / 64 + distance) < d.dataCapacity
  · obtain ⟨hge, hlt⟩ := rightGapPos_lt hr.1
    rw [if_pos hr]
    have hright : ∀ i < d.dataCapacity, 64 * (pos / 64 - distance) ≤ i →
        i < d.rightGapPos (pos / 64 + distance) → d.checkExists i = true := by
      intro i hi hlo hhi
      by_cases hblock : i < 64 * (pos / 64 + distance)
      · exact hleft i hi hlo hblock
      · exact hbelow i (by omega) (by omega) hhi
    by_cases hmore : pos % 64 < 32 ∧ pos / 64 - distance > 0 ∧
        d.bitmap (pos / 64 - distance - 1) ≠ BitVec.allOnes 64
    · rw [if_pos hmore]
      -- in the lower half of a word the next word to the left may be nearer
      obtain ⟨hclz, hge', hlt'⟩ := leftGapPos_lt hmore.2.2
      obtain ⟨habove', hgap'⟩ := left_gap (d := d) (pos / 64 - distance - 1)
      refine Or.inl (nearest_closer (by omega) hpos (by omega) (hgap' hclz)
        (fun _ => hgapr hlt) fun i hi hlo hhi => ?_)
      by_cases hblock : i < 64 * (pos / 64 - distance)
      · exact habove' i (by omega) (by omega) hlo
      · exact hright i hi (by omega) hhi
    · -- the block further to the left is full, missing, or too far away
      rw [if_neg hmore]
      refine Or.inl (nearest_right (by omega) hr.2 (hgapr hlt) fun i hi hlo hhi => ?_)
      by_cases hblock : i < 64 * (pos / 64 - distance)
      · have hword : d.bitmap (pos / 64 - distance - 1) = BitVec.allOnes 64 := by
          by_contra hne
          exact hmore ⟨by omega, by omega, hne⟩
        exact full_word hword (by omega) (by omega)
      · exact hright i hi (by omega) hlo
  · rw [if_neg hr]
    -- neither word has a gap within the capacity: one round more
    refine Or.inr ⟨rfl, fun i hi hlo hhi => ?_⟩
    by_cases hblock : i < 64 * (pos / 64 + distance)
    · exact hleft i hi (by omega) hblock
    · by_cases hr' : d.bitmap (pos / 64 + distance) = BitVec.allOnes 64
      · exact full_word hr' (by omega) (by omega)
      · have hout : d.dataCapacity ≤ d.rightGapPos (pos / 64 + distance) :=
          Nat.not_lt.mp fun hlt => hr ⟨hr', hlt⟩
        exact hbelow i (by omega) (by omega) (by omega)

omit [LinearOrder K] [OrderTop K] in
/-- A round with a gap in the word to the left: only one that is as near on the right can
beat it. -/
theorem Bits.scanRound_gap (h : d.Bits) (hpos : pos < d.dataCapacity) {n distance : Nat}
    (hdist : distance ≤ pos / 64) (hpos' : 0 < distance) (hfull : FullAround d pos distance)
    (hl : d.bitmap (pos / 64 - distance) ≠ BitVec.allOnes 64) :
    GapFound d pos (d.scanBoth pos (n + 1) distance) := by
  obtain ⟨_, hcap, _⟩ := h.bounds
  obtain ⟨habove, hgapl⟩ := left_gap (d := d) (pos / 64 - distance)
  obtain ⟨hbelow, hgapr⟩ := right_gap (d := d) (pos / 64 + distance)
  have hfull' := hfull.words hdist
  generalize hrest : d.scanBoth pos n (distance + 1) = rest
  unfold scanBoth
  simp only [hrest]
  obtain ⟨hclz, hge, hlt⟩ := leftGapPos_lt hl
  have hleft : ∀ i < d.dataCapacity, d.leftGapPos (pos / 64 - distance) < i →
      i < 64 * (pos / 64 + distance) → d.checkExists i = true := by
    intro i hi hlo hhi
    by_cases hblock : i < 64 * (pos / 64 - distance + 1)
    · exact habove i (by omega) hblock hlo
    · exact hfull' i hi (by omega) hhi
  by_cases hr : d.bitmap (pos / 64 + distance) = BitVec.allOnes 64
  · have hright : ∀ i < d.dataCapacity, d.leftGapPos (pos / 64 - distance) < i →
        i < 64 * (pos / 64 + distance + 1) → d.checkExists i = true := by
      intro i hi hlo hhi
      by_cases hblock : i < 64 * (pos / 64 + distance)
      · exact hleft i hi hlo hblock
      · exact full_word hr (by omega) hhi
    rw [if_neg (fun hc => hc.2 hr), if_pos hl]
    -- in the upper half of a word the next word to the right may be nearer
    by_cases hmore : pos % 64 > 32 ∧ pos / 64 + distance + 1 < d.bitmapSize ∧
        d.bitmap (pos / 64 + distance + 1) ≠ BitVec.allOnes 64
    · rw [if_pos hmore]
      obtain ⟨hge', hlt'⟩ := rightGapPos_lt hmore.2.2
      obtain ⟨hbelow', hgap'⟩ := right_gap (d := d) (pos / 64 + distance + 1)
      refine nearest_closer (by omega) hpos (by omega) (hgapl hclz) (fun _ => hgap' hlt')
        fun i hi hlo hhi => ?_
      by_cases hblock : i < 64 * (pos / 64 + distance + 1)
      · exact hright i hi hlo hblock
      · exact hbelow' i (by omega) (by omega) hhi
    · -- the block further to the right is full, missing, or too far away
      rw [if_neg hmore]
      refine nearest_left (by omega) hpos (hgapl hclz) fun i hi hlo hhi => ?_
      by_cases hblock : i < 64 * (pos / 64 + distance + 1)
      · exact hright i hi hlo hblock
      · have hword : d.bitmap (pos / 64 + distance + 1) = BitVec.allOnes 64 := by
          by_contra hne
          exact hmore ⟨by omega, by omega, hne⟩
        exact full_word hword (by omega) (by omega)
  · obtain ⟨hge', hlt'⟩ := rightGapPos_lt hr
    -- both words have a gap, and the nearer one is taken
    rw [if_pos ⟨hl, hr⟩]
    refine nearest_closer (by omega) hpos (by omega) (hgapl hclz) (fun _ => hgapr hlt')
      fun i hi hlo hhi => ?_
    by_cases hblock : i < 64 * (pos / 64 + distance)
    · exact hleft i hi hlo hblock
    · exact hbelow i (by omega) (by omega) hhi

omit [LinearOrder K] [OrderTop K] in
/-- One round: both blocks at the distance are full, or the closest gap is found. -/
theorem Bits.scanRound (h : d.Bits) (hpos : pos < d.dataCapacity) {n distance : Nat}
    (hdist : distance ≤ pos / 64) (hpos' : 0 < distance) (hfull : FullAround d pos distance) :
    GapFound d pos (d.scanBoth pos (n + 1) distance) ∨
      d.scanBoth pos (n + 1) distance = d.scanBoth pos n (distance + 1) ∧
        FullAround d pos (distance + 1) := by
  by_cases hl : d.bitmap (pos / 64 - distance) = BitVec.allOnes 64
  · exact h.scanRound_full hpos hdist hpos' hfull hl
  · exact Or.inl (h.scanRound_gap hpos hdist hpos' hfull hl)

omit [LinearOrder K] [OrderTop K] in
/-- Going out word by word on both sides, the scan finds a gap on the side that has one first.
-/
theorem Bits.scanBoth_found (h : d.Bits) (hpos : pos < d.dataCapacity) :
    ∀ {n distance : Nat}, 0 < distance →
      n + distance = min (pos / 64) ((d.dataCapacity - 1) / 64 - pos / 64) + 1 →
      FullAround d pos distance → GapFound d pos (d.scanBoth pos n distance) := by
  intro n
  induction n with
  | zero =>
    intro distance _ hdist hfull
    exact h.scanSide hpos (by omega) hfull
  | succ n ih =>
    intro distance hpos' hdist hfull
    rcases h.scanRound hpos (n := n) (by omega) hpos' hfull with hfound | ⟨hnext, hfull'⟩
    · exact hfound
    · rw [hnext]
      exact ih (by omega) (by omega) hfull'

/-- The distance to the closest gap to the right, in the block of `pos` or the next one. -/
def closestRightGapDistance (d : DataNode K P) (pos : Nat) : Nat :=
  let gaps := ~~~(d.bitmap (pos / 64) ||| (1#64 <<< (pos % 64) - 1#64))
  if gaps ≠ 0#64 then gaps.ctz.toNat - pos % 64
  else if pos / 64 + 1 < d.bitmapSize then
    64 + (~~~d.bitmap (pos / 64 + 1)).ctz.toNat - pos % 64
  else 64

/-- The distance to the closest gap to the left. -/
def closestLeftGapDistance (d : DataNode K P) (pos : Nat) : Nat :=
  let gaps := ~~~d.bitmap (pos / 64) &&& (1#64 <<< (pos % 64) - 1#64)
  if gaps ≠ 0#64 then pos % 64 - (63 - gaps.clz.toNat)
  else if 0 < pos / 64 then pos % 64 + (~~~d.bitmap (pos / 64 - 1)).clz.toNat + 1
  else 64

omit [LinearOrder K] [OrderTop K] in
/-- No gap is closer to the right, and there is one at that distance if it is below `64`. -/
theorem Bits.right_distance (h : d.Bits) (pos : Nat) :
    (∀ i < d.dataCapacity, pos ≤ i → i < pos + d.closestRightGapDistance pos →
      d.checkExists i = true) ∧
      (d.closestRightGapDistance pos < 64 → pos + d.closestRightGapDistance pos < d.dataCapacity →
        d.checkExists (pos + d.closestRightGapDistance pos) = false) := by
  obtain ⟨_, hcap, _⟩ := h.bounds
  unfold closestRightGapDistance
  simp only
  generalize hgaps : ~~~(d.bitmap (pos / 64) ||| (1#64 <<< (pos % 64) - 1#64)) = gaps
  -- the mask leaves the gaps from `pos` on
  have hbits : ∀ r < 64, gaps.getLsbD r =
      (decide (pos ≤ 64 * (pos / 64) + r) && !d.checkExists (64 * (pos / 64) + r)) := by
    intro r hr
    rw [← hgaps, getLsbD_not_word hr, BitVec.getLsbD_or,
      getLsbD_mask (Nat.mod_lt pos (by decide)) r, checkExists_word hr, Bool.not_or,
      Bool.and_comm, ← decide_not]
    congr 1
    rw [decide_eq_decide]
    omega
  have hfilled : ∀ i, pos ≤ i → i < 64 * (pos / 64 + 1) →
      gaps.getLsbD (i - 64 * (pos / 64)) = false → d.checkExists i = true := by
    intro i hi hi' hbit
    rw [hbits _ (by omega), show 64 * (pos / 64) + (i - 64 * (pos / 64)) = i by omega,
      decide_eq_true hi, Bool.true_and] at hbit
    simpa using hbit
  by_cases hne : gaps ≠ 0#64
  · rw [if_pos hne]
    have hlow := lowest_ctz hne
    have hlt := hlow.lt
    have hset := hlow.set
    rw [hbits _ hlt, Bool.and_eq_true, decide_eq_true_eq] at hset
    constructor
    · intro i _ hi hi'
      exact hfilled i hi (by omega) (hlow.below _ (by omega))
    · intro _ _
      rw [show pos + (gaps.ctz.toNat - pos % 64) = 64 * (pos / 64) + gaps.ctz.toNat by omega]
      simpa using hset.2
  · have hzero : gaps = 0#64 := not_not.mp hne
    have hblock : ∀ i, pos ≤ i → i < 64 * (pos / 64 + 1) → d.checkExists i = true :=
      fun i hi hi' => hfilled i hi hi' (by rw [hzero, BitVec.getLsbD_zero])
    rw [if_neg hne]
    -- the rest of the word is full, so the next word is looked at
    by_cases hnext : pos / 64 + 1 < d.bitmapSize
    · rw [if_pos hnext]
      obtain ⟨hbelow, hgap⟩ := right_gap (d := d) (pos / 64 + 1)
      have hle := toNat_ctz_le (~~~d.bitmap (pos / 64 + 1))
      have hright : pos + (64 + (~~~d.bitmap (pos / 64 + 1)).ctz.toNat - pos % 64) =
          d.rightGapPos (pos / 64 + 1) := by
        unfold rightGapPos
        omega
      rw [hright]
      constructor
      · intro i _ hi hi'
        by_cases hin : i < 64 * (pos / 64 + 1)
        · exact hblock i hi hin
        · exact hbelow i (by omega) (by omega) hi'
      · intro hlt _
        exact hgap (by omega)
    · rw [if_neg hnext]
      refine ⟨fun i hi hlo _ => hblock i hlo (by omega), fun hlt => absurd hlt (by decide)⟩

omit [LinearOrder K] [OrderTop K] in
/-- No gap is closer to the left, and there is one at that distance if it is below `64`. -/
theorem left_distance (d : DataNode K P) (pos : Nat) :
    (∀ i < pos, pos < i + d.closestLeftGapDistance pos → d.checkExists i = true) ∧
      (d.closestLeftGapDistance pos < 64 → d.closestLeftGapDistance pos ≤ pos ∧
        0 < d.closestLeftGapDistance pos ∧
        d.checkExists (pos - d.closestLeftGapDistance pos) = false) := by
  unfold closestLeftGapDistance
  simp only
  generalize hgaps : ~~~d.bitmap (pos / 64) &&& (1#64 <<< (pos % 64) - 1#64) = gaps
  -- the mask leaves the gaps before `pos`
  have hbits : ∀ r < 64, gaps.getLsbD r =
      (!d.checkExists (64 * (pos / 64) + r) && decide (64 * (pos / 64) + r < pos)) := by
    intro r hr
    rw [← hgaps, BitVec.getLsbD_and, getLsbD_not_word hr,
      getLsbD_mask (Nat.mod_lt pos (by decide)) r, checkExists_word hr]
    congr 1
    rw [decide_eq_decide]
    omega
  have hfilled : ∀ i < pos, 64 * (pos / 64) ≤ i →
      gaps.getLsbD (i - 64 * (pos / 64)) = false → d.checkExists i = true := by
    intro i hi hi' hbit
    rw [hbits _ (by omega), show 64 * (pos / 64) + (i - 64 * (pos / 64)) = i by omega,
      decide_eq_true hi, Bool.and_true] at hbit
    simpa using hbit
  by_cases hne : gaps ≠ 0#64
  · rw [if_pos hne]
    obtain ⟨habove, hset⟩ := clz_spec gaps
    have hclz : gaps.clz.toNat < 64 := BitVec.lt_def.mp (BitVec.clz_lt_iff_ne_zero.mpr hne)
    have hbit := hset hclz
    rw [hbits _ (by omega), Bool.and_eq_true, decide_eq_true_eq] at hbit
    constructor
    · intro i hi hi'
      exact hfilled i hi (by omega) (habove _ (by omega) (by omega))
    · intro _
      rw [show pos - (pos % 64 - (63 - gaps.clz.toNat)) =
        64 * (pos / 64) + (63 - gaps.clz.toNat) by omega]
      exact ⟨by omega, by omega, by simpa using hbit.1⟩
  · have hzero : gaps = 0#64 := not_not.mp hne
    have hblock : ∀ i < pos, 64 * (pos / 64) ≤ i → d.checkExists i = true :=
      fun i hi hi' => hfilled i hi hi' (by rw [hzero, BitVec.getLsbD_zero])
    rw [if_neg hne]
    -- the word is full up to `pos`, so the word before it is looked at
    by_cases hprev : 0 < pos / 64
    · rw [if_pos hprev]
      obtain ⟨habove, hgap⟩ := left_gap (d := d) (pos / 64 - 1)
      constructor
      · intro i hi hi'
        by_cases hin : 64 * (pos / 64) ≤ i
        · exact hblock i hi hin
        · have hle := toNat_clz_le (~~~d.bitmap (pos / 64 - 1))
          by_cases hclz : (~~~d.bitmap (pos / 64 - 1)).clz.toNat < 64
          · refine habove i (by omega) (by omega) ?_
            unfold leftGapPos
            omega
          · refine full_word (q := pos / 64 - 1) ?_ (by omega) (by omega)
            by_contra hfull
            exact hclz (leftGapPos_lt hfull).1
      · intro hlt
        have hleft : pos - (pos % 64 + (~~~d.bitmap (pos / 64 - 1)).clz.toNat + 1) =
            d.leftGapPos (pos / 64 - 1) := by
          unfold leftGapPos
          omega
        rw [hleft]
        exact ⟨by omega, by omega, hgap (by omega)⟩
    · rw [if_neg hprev]
      refine ⟨fun i hi _ => hblock i hi (by omega), fun hlt => absurd hlt (by decide)⟩

omit [LinearOrder K] [OrderTop K] in
/-- A block with a gap has the closest gap, or the next to it has. -/
theorem Bits.scanBlock_found (h : d.Bits) (hpos : pos < d.dataCapacity)
    (hgap : ∃ i < d.dataCapacity, i / 64 = pos / 64 ∧ d.checkExists i = false) :
    GapFound d pos (d.scanBlock pos) := by
  obtain ⟨hrfull, hrgap⟩ := h.right_distance pos
  obtain ⟨hlfull, hlgap⟩ := left_distance d pos
  have hunfold : d.scanBlock pos =
      if d.closestRightGapDistance pos < d.closestLeftGapDistance pos ∧
          pos + d.closestRightGapDistance pos < d.dataCapacity then
        some (pos + d.closestRightGapDistance pos)
      else if d.closestLeftGapDistance pos ≤ pos then some (pos - d.closestLeftGapDistance pos)
      else none := rfl
  rw [hunfold]
  generalize d.closestRightGapDistance pos = dr at hrfull hrgap
  generalize d.closestLeftGapDistance pos = dl at hlfull hlgap
  -- the word of `pos` has a gap, so at least one of the distances is short
  have hnear : dr < 64 ∧ pos + dr < d.dataCapacity ∨ dl < 64 := by
    obtain ⟨i, hi, hblock, hf⟩ := hgap
    by_contra hfar
    have hfilled : d.checkExists i = true := by
      by_cases hside : pos ≤ i
      · exact hrfull i hi hside (by omega)
      · exact hlfull i (by omega) (by omega)
    rw [hfilled] at hf
    cases hf
  split
  · refine nearest_right (by omega) (by omega) (hrgap (by omega) (by omega)) ?_
    intro i hi hlo hhi
    by_cases hside : pos ≤ i
    · exact hrfull i hi hside hlo
    · exact hlfull i (by omega) (by omega)
  · rename_i hleft
    obtain ⟨hle, hpos', hf⟩ := hlgap (by omega)
    rw [if_pos hle]
    refine nearest_left (by omega) hpos hf fun i hi hlo hhi => ?_
    by_cases hside : pos ≤ i
    · exact hrfull i hi hside (by omega)
    · exact hlfull i (by omega) (by omega)

omit [LinearOrder K] [OrderTop K] in
/-- The test that `closest_gap` starts with: whether the block of `pos` is full. -/
theorem Bits.block_full_iff (h : d.Bits) (hpos : pos < d.dataCapacity) :
    (d.bitmap (pos / 64) = BitVec.allOnes 64 ∨ pos / 64 = d.bitmapSize - 1 ∧
      (d.bitmap (pos / 64)).cpop.toNat = d.dataCapacity - 64 * (d.bitmapSize - 1)) ↔
      ∀ i < d.dataCapacity, i / 64 = pos / 64 → d.checkExists i = true := by
  obtain ⟨hlow, hcap, _⟩ := h.bounds
  constructor
  · rintro (hfull | ⟨hlast, hcount⟩) i hi hblock
    · exact full_word hfull (by omega) (by omega)
    -- the last word is full when it has as many bits as there are positions
    · rw [cpop_eq_iff _ (by omega)] at hcount
      · have hbit := hcount (i - 64 * (pos / 64)) (by omega)
        rw [← checkExists_word (by omega)] at hbit
        rwa [show 64 * (pos / 64) + (i - 64 * (pos / 64)) = i by omega] at hbit
      · intro r hr hr'
        rw [← checkExists_word hr']
        exact h.clear _ (by omega) (by omega)
  · intro hfull
    by_cases hlast : pos / 64 = d.bitmapSize - 1
    · refine Or.inr ⟨hlast, (cpop_eq_iff ?_ (by omega)).mpr ?_⟩
      · intro r hr hr'
        rw [← checkExists_word hr']
        exact h.clear _ (by omega) (by omega)
      · intro r hr
        rw [← checkExists_word (by omega)]
        exact hfull _ (by omega) (by omega)
    -- a word before the last one is full bit by bit
    · left
      refine BitVec.eq_of_getLsbD_eq fun r hr => ?_
      rw [BitVec.getLsbD_allOnes, decide_eq_true hr, ← checkExists_word hr]
      exact hfull _ (by omega) (by omega)

omit [LinearOrder K] [OrderTop K] in
/-- `closest_gap` finds the closest gap, the left one of two that are as close. -/
theorem Bits.closestGap_found (h : d.Bits) (pos : Nat) :
    GapFound d (min pos (d.dataCapacity - 1)) (d.closestGap pos) := by
  have hcap := h.pos
  have hpos : min pos (d.dataCapacity - 1) < d.dataCapacity := by omega
  unfold closestGap
  simp only
  generalize min pos (d.dataCapacity - 1) = q at hpos
  split
  · rename_i hfull
    rw [h.block_full_iff hpos] at hfull
    refine h.scanBoth_found hpos (by decide) rfl ?_
    intro i hi hlo hhi
    exact hfull i hi (by omega)
  · rename_i hgap
    refine h.scanBlock_found hpos ?_
    by_contra hno
    rw [h.block_full_iff hpos] at hgap
    refine hgap fun i hi hblock => ?_
    by_contra hf
    exact hno ⟨i, hi, hblock, by simpa using hf⟩

/-! ## The slower search for the closest gap -/

omit [LinearOrder K] [OrderTop K] in
/-- The last loop to the left, where everything to the right is full. -/
theorem slowLeft_found {distance : Nat} (hpos : pos ≤ d.dataCapacity)
    (hend : d.dataCapacity ≤ pos + distance) (hdist : distance ≤ pos + 1) (hone : 0 < distance)
    (hcap : 0 < d.dataCapacity)
    (hfull : ∀ i < d.dataCapacity, pos < i + distance → i < pos + distance →
      d.checkExists i = true) :
    GapFound d (min pos (d.dataCapacity - 1))
      (scanDown (fun i => !d.checkExists i) (pos + 1 - distance)) := by
  have hscan := scanDown_spec (fun i => !d.checkExists i) (pos + 1 - distance)
  split at hscan
  · rename_i g heq
    rw [heq]
    obtain ⟨hlt, hgap, hb⟩ := hscan
    refine nearest_left (by omega) (by omega) (by simpa using hgap) fun i hi hlo _ => ?_
    by_cases hin : i < pos + 1 - distance
    · simpa using hb i hlo hin
    · exact hfull i hi (by omega) (by omega)
  · rename_i heq
    rw [heq]
    intro i hi
    by_cases hin : i < pos + 1 - distance
    · simpa using hscan i hin
    · exact hfull i hi (by omega) (by omega)

omit [LinearOrder K] [OrderTop K] in
/-- The last loop to the right, where everything to the left is full. -/
theorem slowRight_found {distance : Nat} (hend : pos < distance)
    (hdist : pos + distance ≤ d.dataCapacity)
    (hfull : ∀ i < d.dataCapacity, pos < i + distance → i < pos + distance →
      d.checkExists i = true) :
    GapFound d (min pos (d.dataCapacity - 1)) (scanUp (fun i => !d.checkExists i)
      (d.dataCapacity - (pos + distance)) (pos + distance)) := by
  have hscan := scanUp_spec (fun i => !d.checkExists i) (d.dataCapacity - (pos + distance))
    (pos + distance)
  split at hscan
  · rename_i g heq
    rw [heq]
    obtain ⟨hle, hlt, hgap, hb⟩ := hscan
    refine nearest_right (by omega) (by omega) (by simpa using hgap) fun i hi hlo _ => ?_
    by_cases hin : pos + distance ≤ i
    · simpa using hb i hin hlo
    · exact hfull i hi (by omega) (by omega)
  · rename_i heq
    rw [heq]
    intro i hi
    by_cases hin : pos + distance ≤ i
    · simpa using hscan i hin (by omega)
    · exact hfull i hi (by omega) (by omega)

omit [LinearOrder K] [OrderTop K] in
/-- Both loops, while nothing closer than `distance` is a gap. The induction is on the number of
distances that fit on both sides. -/
theorem slowBoth_found (hpos : pos ≤ d.dataCapacity) (hcap : 0 < d.dataCapacity) :
    ∀ {n distance : Nat}, 0 < distance →
      n + distance = min pos (d.dataCapacity - pos - 1) + 1 →
      (∀ i < d.dataCapacity, pos < i + distance → i < pos + distance → d.checkExists i = true) →
      GapFound d (min pos (d.dataCapacity - 1)) (d.slowBoth pos n distance) := by
  intro n
  induction n with
  | zero =>
    intro distance hpos' hdist hfull
    unfold slowBoth
    split
    · exact slowLeft_found hpos (by omega) (by omega) hpos' hcap hfull
    · exact slowRight_found (by omega) (by omega) hfull
  | succ n ih =>
    intro distance hpos' hdist hfull
    unfold slowBoth
    split
    · -- a gap to the left wins, also over one as far to the right
      rename_i hl
      refine nearest_left (by omega) (by omega) hl fun i hi hlo hhi => hfull i hi ?_ ?_
      · omega
      · omega
    · rename_i hl
      split
      · -- the position as far to the left is known to be full
        rename_i hr
        refine nearest_right (by omega) (by omega) hr fun i hi hlo hhi => ?_
        by_cases heq : i = pos - distance
        · rw [heq]
          simpa using hl
        · exact hfull i hi (by omega) (by omega)
      · -- neither is one, so nothing closer than `distance + 1` is
        rename_i hr
        refine ih (by omega) (by omega) fun i hi hlo hhi => ?_
        by_cases heq : i = pos - distance
        · rw [heq]
          simpa using hl
        · by_cases heq' : i = pos + distance
          · rw [heq']
            simpa using hr
          · exact hfull i hi (by omega) (by omega)

omit [LinearOrder K] [OrderTop K] in
/-- The slower search finds the same, where `pos` itself is no gap. -/
theorem closestGapSlow_found (hcap : 0 < d.dataCapacity) (hpos : pos ≤ d.dataCapacity)
    (hfull : pos < d.dataCapacity → d.checkExists pos = true) :
    GapFound d (min pos (d.dataCapacity - 1)) (d.closestGapSlow pos) := by
  refine slowBoth_found hpos hcap (by decide) rfl fun i hi hlo hhi => ?_
  rw [show i = pos by omega]
  exact hfull (by omega)

omit [LinearOrder K] [OrderTop K] in
/-- There is one right answer, so two correct searches agree. -/
theorem GapFound.unique {a b : Option Nat} (ha : GapFound d pos a) (hb : GapFound d pos b) :
    a = b := by
  cases a with
  | none =>
    cases b with
    | none => rfl
    | some g =>
      have hf := ha g hb.lt
      rw [hb.gap] at hf
      cases hf
  | some g =>
    cases b with
    | none =>
      have hf := hb g ha.lt
      rw [ha.gap] at hf
      cases hf
    | some g' => rw [Nearest.unique ha hb]

omit [LinearOrder K] [OrderTop K] in
/-- The two versions of `closest_gap` agree on every bitmap, where `pos` is no gap. -/
theorem closestGap_eq_slow (h : d.Bits) (hpos : pos ≤ d.dataCapacity)
    (hfull : pos < d.dataCapacity → d.checkExists pos = true) :
    d.closestGap pos = d.closestGapSlow pos :=
  (h.closestGap_found pos).unique (closestGapSlow_found h.pos hpos hfull)

/-- The keys of the examples. -/
scoped instance eight_pos : NeZero 8 := ⟨by decide⟩

/-- A node of three words. Two are full, and the last one has its first gap at position 149. -/
def fullWords : DataNode (Fin 8) Nat where
  keySlots := fun i => if i < 149 then 3 else ⊤
  payloadSlots := fun i => i
  dataCapacity := 150
  numKeys := 149
  bitmap := fun i => if i < 2 then BitVec.allOnes 64 else 0x1fffff#64
  bitmapSize := 3
  expansionThreshold := 150
  contractionThreshold := 0
  predict := fun _ => 0

/-- Both versions on words that are full, where the scan leaves the first one. -/
theorem closestGap_eq_slow_words : fullWords.closestGap 20 = fullWords.closestGapSlow 20 :=
  closestGap_eq_slow ⟨by decide, by decide, by decide +kernel⟩ (by decide) fun _ => by decide

/-! ## Counting entries -/

omit [LinearOrder K] [OrderTop K] in
/-- The bits counted are the entries. -/
theorem countBits_eq (d : DataNode K P) (lo hi : Nat) : countBits d.bitmap lo hi =
    (Lib.entries d.checkExists (fun i => (d.keySlots i, d.payloadSlots i)) lo hi).length := by
  rw [length_entries]
  unfold countBits
  congr 1
  funext i
  exact (checkExists_eq i).symm

omit [LinearOrder K] [OrderTop K] in
/-- `num_keys_in_range` counts the entries between two positions. -/
theorem Bits.numKeysInRange_eq (h : d.Bits) {left right : Nat} (hle : left ≤ right)
    (hright : right ≤ d.dataCapacity) : d.numKeysInRange left right =
      (Lib.entries d.checkExists (fun i => (d.keySlots i, d.payloadSlots i)) left
        right).length := by
  obtain ⟨_, hcap, _⟩ := h.bounds
  have hl : left % 64 < 64 := Nat.mod_lt left (by decide)
  have hr : right % 64 < 64 := Nat.mod_lt right (by decide)
  have hleft : ∀ r < 64, (~~~(1#64 <<< (left % 64) - 1#64)).getLsbD r =
      decide (left ≤ 64 * (left / 64) + r) := by
    intro r hr'
    rw [getLsbD_not_word hr', getLsbD_mask hl, ← decide_not, decide_eq_decide]
    omega
  have hright' : ∀ r < 64, (1#64 <<< (right % 64) - 1#64).getLsbD r =
      decide (64 * (right / 64) + r < right) := by
    intro r _
    rw [getLsbD_mask hr, decide_eq_decide]
    omega
  rw [← countBits_eq]
  unfold numKeysInRange countOnes
  simp only
  split
  · rename_i heq
    -- both ends are in one word: the two masks together
    refine cpop_eq_countBits (q := right / 64) (by omega) (by omega) fun r hr' => ?_
    rw [BitVec.getLsbD_and, BitVec.getLsbD_and, hleft r hr', hright' r hr', heq, bitAt_word hr',
      Bool.and_assoc, ← Bool.decide_and]
  -- the first word from `left` on, whole words, and the last word up to `right`
  · have hfirst : (d.bitmap (left / 64) &&& ~~~(1#64 <<< (left % 64) - 1#64)).cpop.toNat =
        countBits d.bitmap left (64 * (left / 64 + 1)) := by
      refine cpop_eq_countBits (by omega) le_rfl fun r hr' => ?_
      rw [BitVec.getLsbD_and, hleft r hr', bitAt_word hr']
      congr 1
      rw [decide_eq_decide]
      omega
    have hlast : (if right / 64 ≠ d.bitmapSize then
        (d.bitmap (right / 64) &&& (1#64 <<< (right % 64) - 1#64)).cpop.toNat else 0) =
        countBits d.bitmap (64 * (right / 64)) right := by
      split
      · refine cpop_eq_countBits le_rfl (by omega) fun r hr' => ?_
        rw [BitVec.getLsbD_and, hright' r hr', bitAt_word hr']
        congr 1
        rw [decide_eq_decide]
        omega
      · unfold countBits
        rw [show right - 64 * (right / 64) = 0 by omega]
        rfl
    rw [hfirst, sum_cpop, hlast,
      show left / 64 + 1 + (right / 64 - (left / 64 + 1)) = right / 64 by omega,
      ← countBits_append (by omega) (by omega), ← countBits_append (by omega) (by omega)]

end DataNode

end Epli.Alex
