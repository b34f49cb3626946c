import Mathlib.Order.BoundedOrder.Basic
import Mathlib.Data.List.Range
import Epli.Lib.ExpSearch
import Epli.Lib.Multimap
import Epli.Lib.Pmem

/-!
# Gapped arrays

An array with gaps between its entries, so that an insertion does not have to move all
that follows. A gap holds the key of the position behind it, and the last one the greatest
key. The keys of all positions are then in order, a search need not know which positions
are gaps, and the last position whose key is at most `k` holds an entry (`filled_before`).

`entries` lists the entries between two positions. An operation is proved about it by
cutting the array where the operation works.
-/

namespace Epli.Lib

variable {α : Type}

/-! ## Entries -/

/-- What the positions from `lo` up to `hi` hold, without the gaps. -/
def entries (filled : Nat → Bool) (f : Nat → α) (lo hi : Nat) : List α :=
  (List.range' lo (hi - lo)).filterMap fun i => if filled i then some (f i) else none

variable {filled filled' : Nat → Bool} {f f' : Nat → α} {lo mid hi pos : Nat}

/-- An entry between `lo` and `hi` is at a filled position. -/
theorem mem_entries {x : α} : x ∈ entries filled f lo hi ↔
    ∃ i, lo ≤ i ∧ i < hi ∧ filled i = true ∧ f i = x := by
  unfold entries
  rw [List.mem_filterMap]
  constructor
  · rintro ⟨i, hi, hx⟩
    rw [List.mem_range'_1] at hi
    split at hx
    · rename_i hf
      cases hx
      exact ⟨i, hi.1, by omega, hf, rfl⟩
    · cases hx
  · rintro ⟨i, hlo, hhi, hf, rfl⟩
    exact ⟨i, List.mem_range'_1.mpr ⟨hlo, by omega⟩, by rw [if_pos hf]⟩

/-- The entries up to `mid` come before those from `mid` on. -/
theorem entries_append (h : lo ≤ mid) (h' : mid ≤ hi) :
    entries filled f lo hi = entries filled f lo mid ++ entries filled f mid hi := by
  unfold entries
  rw [← List.filterMap_append, show hi - lo = mid - lo + (hi - mid) by omega,
    ← List.range'_append_1, show lo + (mid - lo) = mid by omega]

/-- The entries are read off the filled positions only. -/
theorem entries_congr (h : ∀ i, lo ≤ i → i < hi → filled' i = filled i)
    (h' : ∀ i, lo ≤ i → i < hi → filled i = true → f' i = f i) :
    entries filled' f' lo hi = entries filled f lo hi := by
  unfold entries
  refine List.filterMap_congr fun i hi => ?_
  rw [List.mem_range'_1] at hi
  rw [h i hi.1 (by omega)]
  split
  · rename_i hf
    rw [h' i hi.1 (by omega) hf]
  · rfl

/-- Between gaps there are no entries. -/
theorem entries_gaps (h : ∀ i, lo ≤ i → i < hi → filled i = false) :
    entries filled f lo hi = [] := by
  rw [List.eq_nil_iff_forall_not_mem]
  intro x hx
  rcases mem_entries.mp hx with ⟨i, hlo, hhi, hf, _⟩
  rw [h i hlo hhi] at hf
  cases hf

theorem entries_single (h : filled pos = true) : entries filled f pos (pos + 1) = [f pos] := by
  simp [entries, h]

/-- The entry at `pos`, between what is before and what is behind it. -/
theorem entries_split (h : filled pos = true) (hlo : lo ≤ pos) (hhi : pos < hi) :
    entries filled f lo hi =
      entries filled f lo pos ++ f pos :: entries filled f (pos + 1) hi := by
  rw [entries_append hlo (Nat.le_of_lt hhi), entries_append (Nat.le_succ pos) hhi,
    entries_single h, List.singleton_append]

/-- Entries that have moved one position to the right. -/
theorem entries_shift (h : ∀ i, lo ≤ i → i < hi → filled' (i + 1) = filled i)
    (h' : ∀ i, lo ≤ i → i < hi → f' (i + 1) = f i) :
    entries filled' f' (lo + 1) (hi + 1) = entries filled f lo hi := by
  unfold entries
  rw [show hi + 1 - (lo + 1) = hi - lo by omega, List.range'_eq_map_range,
    List.range'_eq_map_range, List.filterMap_map, List.filterMap_map]
  refine List.filterMap_congr fun i hi => ?_
  rw [List.mem_range] at hi
  show (if filled' (lo + 1 + i) then some (f' (lo + 1 + i)) else none) =
    if filled (lo + i) then some (f (lo + i)) else none
  rw [show lo + 1 + i = lo + i + 1 by omega, h (lo + i) (by omega) (by omega),
    h' (lo + i) (by omega) (by omega)]

/-- There are as many entries as filled positions. -/
theorem length_entries : (entries filled f lo hi).length =
    (List.range' lo (hi - lo)).countP filled := by
  unfold entries
  induction List.range' lo (hi - lo) with
  | nil => rfl
  | cons i l ih =>
    cases hf : filled i with
    | false => simpa [hf] using ih
    | true => simpa [hf] using ih

/-- There is a gap if there are fewer entries than positions. -/
theorem exists_gap (h : (entries filled f lo hi).length < hi - lo) :
    ∃ i, lo ≤ i ∧ i < hi ∧ filled i = false := by
  by_contra hno
  have hfull : ∀ i, lo ≤ i → i < hi → filled i = true := by
    intro i hlo hhi
    by_contra hf
    exact hno ⟨i, hlo, hhi, by simpa using hf⟩
  have hmap : entries filled f lo hi = (List.range' lo (hi - lo)).map f := by
    unfold entries
    rw [← List.filterMap_eq_map]
    refine List.filterMap_congr fun i hi => ?_
    rw [List.mem_range'_1] at hi
    rw [if_pos (hfull i hi.1 (by omega))]
    rfl
  rw [hmap, List.length_map, List.length_range'] at h
  exact absurd h (Nat.lt_irrefl _)

/-! ## The nearest gap -/

/-- `i` is closer to `pos` than `g`, or as close and to the left of it. -/
def Closer (pos i g : Nat) : Prop :=
  i - pos + (pos - i) < g - pos + (pos - g) ∨
    i - pos + (pos - i) = g - pos + (pos - g) ∧ i < g

/-- `g` is the gap that is closest to `pos`. -/
structure Nearest (filled : Nat → Bool) (cap pos g : Nat) : Prop where
  lt : g < cap
  gap : filled g = false
  closest : ∀ i < cap, Closer pos i g → filled i = true

variable {cap g g' : Nat}

/-- There is one nearest gap: of two as close, the left one. -/
theorem Nearest.unique (h : Nearest filled cap pos g) (h' : Nearest filled cap pos g') :
    g = g' := by
  by_contra hne
  -- two positions are never at the same place in this order
  have hcloser : Closer pos g g' ∨ Closer pos g' g := by
    unfold Closer
    omega
  rcases hcloser with hc | hc
  · have hf := h'.closest g h.lt hc
    rw [h.gap] at hf
    cases hf
  · have hf := h.closest g' h'.lt hc
    rw [h'.gap] at hf
    cases hf

/-- Everything between `pos` and the gap holds an entry. -/
theorem Nearest.between (h : Nearest filled cap pos g) (hpos : pos < cap) {i : Nat}
    (hi : g < i ∧ i ≤ pos ∨ pos ≤ i ∧ i < g) : filled i = true := by
  have hlt := h.lt
  refine h.closest i (by omega) ?_
  unfold Closer
  omega

/-- A gap to the left is nearest when everything closer, on both sides, is filled. -/
theorem nearest_left (hg : g ≤ pos) (hpos : pos < cap) (hgap : filled g = false)
    (hfull : ∀ i < cap, g < i → i < pos + (pos - g) → filled i = true) :
    Nearest filled cap pos g := by
  refine ⟨by omega, hgap, fun i hi hc => hfull i hi ?_ ?_⟩
  · unfold Closer at hc
    omega
  · unfold Closer at hc
    omega

/-- A gap to the right is nearest when everything as close on the left is filled too. -/
theorem nearest_right (hg : pos ≤ g) (hcap : g < cap) (hgap : filled g = false)
    (hfull : ∀ i < cap, i < g → 2 * pos ≤ i + g → filled i = true) :
    Nearest filled cap pos g := by
  refine ⟨hcap, hgap, fun i hi hc => hfull i hi ?_ ?_⟩
  · unfold Closer at hc
    omega
  · unfold Closer at hc
    omega

/-! ## The keys of a gapped array -/

variable {K P : Type} [LinearOrder K] [OrderTop K] {ub : Nat} {key key' : Nat → K} {k : K}

/-- The key behind position `i`. -/
def nextKey (cap : Nat) (key : Nat → K) (i : Nat) : K := if i + 1 < cap then key (i + 1) else ⊤

structure Gapped (cap : Nat) (filled : Nat → Bool) (key : Nat → K) : Prop where
  sorted : ∀ i j, i ≤ j → j < cap → key i ≤ key j
  gap : ∀ i < cap, filled i = false → key i = nextKey cap key i

/-- `key > k`, in order of the positions. -/
def above (key : Nat → K) (k : K) (i : Nat) : Bool := decide (k < key i)

/-- `key ≥ k`. -/
def atLeast (key : Nat → K) (k : K) (i : Nat) : Bool := decide (k ≤ key i)

/-- In an ordered array the keys above `k` are the last ones. -/
theorem Gapped.rising_above (h : Gapped cap filled key) (k : K) : Rising (above key k) cap := by
  intro i j hij hj hi
  simp only [above, decide_eq_true_eq] at hi ⊢
  exact hi.trans_le (h.sorted i j hij hj)

/-- In an ordered array the keys not below `k` are the last ones. -/
theorem Gapped.rising_atLeast (h : Gapped cap filled key) (k : K) :
    Rising (atLeast key k) cap := by
  intro i j hij hj hi
  simp only [atLeast, decide_eq_true_eq] at hi ⊢
  exact hi.trans (h.sorted i j hij hj)

/-- Gaps have the key of the position that they lead up to. -/
theorem Gapped.key_of_gaps (h : Gapped cap filled key) : ∀ {n i : Nat}, i + n < cap →
    (∀ j, i ≤ j → j < i + n → filled j = false) → key i = key (i + n) := by
  intro n
  induction n with
  | zero => exact fun _ _ => rfl
  | succ n ih =>
    intro i hi hgaps
    have hgap := h.gap i (by omega) (hgaps i le_rfl (by omega))
    unfold nextKey at hgap
    rw [if_pos (by omega)] at hgap
    rw [hgap, show i + (n + 1) = i + 1 + n by omega]
    exact ih (by omega) fun j hj hj' => hgaps j (by omega) (by omega)

omit [OrderTop K] in
/-- Before the upper bound no key is above `k`. -/
theorem First.le_of_lt {i : Nat} (h : First (above key k) cap ub) (hi : i < ub) : key i ≤ k := by
  have hb := h.below i hi
  simpa [above] using hb

/-- From the upper bound on every key is. -/
theorem First.lt_of_le {i : Nat} (h : First (above key k) cap ub) (hg : Gapped cap filled key)
    (hi : ub ≤ i) (hcap : i < cap) : k < key i := by
  have hh := h.here (by omega)
  simp only [above, decide_eq_true_eq] at hh
  exact hh.trans_le (hg.sorted ub i hi hcap)

/-- The last position whose key is at most `k` holds an entry. -/
theorem Gapped.filled_before (h : Gapped cap filled key) (hu : First (above key k) cap ub)
    (hpos : 0 < ub) (hk : k < ⊤) : filled (ub - 1) = true := by
  by_contra hf
  have hle := hu.le
  have hgap := h.gap (ub - 1) (by omega) (by simpa using hf)
  have hlow : key (ub - 1) ≤ k := hu.le_of_lt (by omega)
  rw [hgap] at hlow
  refine absurd hlow (not_le.mpr ?_)
  unfold nextKey
  split
  · rename_i hlt
    exact hu.lt_of_le h (by omega) hlt
  · exact hk

/-! ## Writing a key over the gaps before a position -/

/-- `k` is written to `pos` and to the gaps that lead up to it. -/
structure Written (filled : Nat → Bool) (key key' : Nat → K) (k : K) (pos : Nat) : Prop where
  run : ∀ j ≤ pos, (∀ i, j ≤ i → i < pos → filled i = false) → key' j = k
  rest : ∀ j, (pos < j ∨ ∃ i, j ≤ i ∧ i < pos ∧ filled i = true) → key' j = key j

/-- The array is in order, but for `pos` and the gaps that lead up to it. -/
structure Vacant (cap : Nat) (filled : Nat → Bool) (key : Nat → K) (pos : Nat) : Prop where
  sorted : ∀ i j, i ≤ j → j < cap → i ≠ pos → j ≠ pos → key i ≤ key j
  gap : ∀ i < cap, i ≠ pos → i + 1 ≠ pos → filled i = false → key i = nextKey cap key i

/-- An array in order is in order but for any position. -/
theorem Gapped.vacant (h : Gapped cap filled key) (pos : Nat) : Vacant cap filled key pos :=
  ⟨fun i j hij hj _ _ => h.sorted i j hij hj, fun i hi _ _ hf => h.gap i hi hf⟩

omit [LinearOrder K] [OrderTop K] in
/-- After the write a position has the key `k` or the one that it had. -/
theorem Written.cases (h : Written filled key key' k pos) (j : Nat) :
    (j ≤ pos ∧ (∀ i, j ≤ i → i < pos → filled i = false) ∧ key' j = k) ∨
      ((pos < j ∨ ∃ i, j ≤ i ∧ i < pos ∧ filled i = true) ∧ key' j = key j) := by
  by_cases hj : pos < j
  · exact Or.inr ⟨Or.inl hj, h.rest j (Or.inl hj)⟩
  · by_cases hrun : ∃ i, j ≤ i ∧ i < pos ∧ filled i = true
    · exact Or.inr ⟨Or.inr hrun, h.rest j (Or.inr hrun)⟩
    · have hgaps : ∀ i, j ≤ i → i < pos → filled i = false := by
        intro i hji hi
        by_contra hf
        exact hrun ⟨i, hji, hi, by simpa using hf⟩
      exact Or.inl ⟨Nat.not_lt.mp hj, hgaps, h.run j (Nat.not_lt.mp hj) hgaps⟩

/-- Writing a key that fits between what is before and what is behind `pos`. -/
theorem Vacant.sorted_write (h : Vacant cap filled key pos)
    (hbelow : ∀ j < pos, filled j = true → key j ≤ k)
    (habove : ∀ j, pos < j → j < cap → k ≤ key j) (hw : Written filled key key' k pos)
    (hcap : pos < cap) : ∀ i j, i ≤ j → j < cap → key' i ≤ key' j := by
  intro i j hij hj
  -- either position has the new key or its old one
  rcases hw.cases i with ⟨hi, hgaps, hki⟩ | ⟨hi, hki⟩
  · rw [hki]
    rcases hw.cases j with ⟨_, _, hkj⟩ | ⟨hj' | ⟨t, hjt, ht, hft⟩, hkj⟩
    · rw [hkj]
    · rw [hkj]
      exact habove j hj' hj
    · rw [hgaps t (by omega) ht] at hft
      cases hft
  · rw [hki]
    have hne : i ≠ pos := by
      rcases hi with hi | ⟨t, _, ht, _⟩ <;> omega
    rcases hw.cases j with ⟨hjp, _, hkj⟩ | ⟨hj', hkj⟩
    · rw [hkj]
      rcases hi with hi | ⟨t, hit, ht, hft⟩
      · omega
      -- an entry lies between `i` and the run, and the new key is not below it
      · exact (h.sorted i t hit (by omega) hne (by omega)).trans (hbelow t ht hft)
    · rw [hkj]
      refine h.sorted i j hij hj hne ?_
      rcases hj' with hj' | ⟨t, _, ht, _⟩ <;> omega

/-- The rule for gaps, away from `pos`. -/
theorem Vacant.gap_write (h : Vacant cap filled key pos) (hw : Written filled key key' k pos)
    (hcap : pos < cap) {i : Nat} (hi : i < cap) (hne : i ≠ pos) (hf : filled i = false) :
    key' i = nextKey cap key' i := by
  rcases hw.cases i with ⟨hip, hgaps, hki⟩ | ⟨hi', hki⟩
  · -- the position behind is part of the run
    have hnext := hw.run (i + 1) (by omega) fun t ht ht' => hgaps t (by omega) ht'
    unfold nextKey
    rw [if_pos (by omega), hnext, hki]
  · have hrest : pos < i + 1 ∨ ∃ t, i + 1 ≤ t ∧ t < pos ∧ filled t = true := by
      rcases hi' with hi' | ⟨t, hit, ht, hft⟩
      · exact Or.inl (by omega)
      · refine Or.inr ⟨t, ?_, ht, hft⟩
        rcases Nat.lt_or_eq_of_le hit with hlt | rfl
        · exact hlt
        · rw [hf] at hft
          cases hft
    have hold := h.gap i hi hne (by rcases hrest with h | ⟨t, _, ht, _⟩ <;> omega) hf
    rw [hki, hold]
    unfold nextKey
    rw [hw.rest (i + 1) hrest]

/-- Store an entry in a vacant position. -/
theorem Vacant.insert (h : Vacant cap filled key pos)
    (hbelow : ∀ j < pos, filled j = true → key j ≤ k)
    (habove : ∀ j, pos < j → j < cap → k ≤ key j) (hw : Written filled key key' k pos)
    (hcap : pos < cap) (hset : ∀ i, filled' i = if i = pos then true else filled i) :
    Gapped cap filled' key' := by
  -- `pos` is filled now, so the rule for gaps is about the others
  refine ⟨h.sorted_write hbelow habove hw hcap, ?_⟩
  intro i hi hf
  rw [hset] at hf
  split at hf
  · cases hf
  · rename_i hne
    exact h.gap_write hw hcap hi hne hf

variable {pay pay' : Nat → P} {p : P}

omit [LinearOrder K] [OrderTop K] in
/-- The entries after an entry is stored in a vacant position. -/
theorem Written.entries_insert (hw : Written filled key key' k pos) (hcap : pos < cap)
    (hset : ∀ i, filled' i = if i = pos then true else filled i)
    (hpay : ∀ i, pay' i = if i = pos then p else pay i) :
    entries filled' (fun i => (key' i, pay' i)) 0 cap =
      entries filled (fun i => (key i, pay i)) 0 pos ++
        (k, p) :: entries filled (fun i => (key i, pay i)) (pos + 1) cap := by
  have hne : ∀ i, i ≠ pos → filled' i = filled i ∧ pay' i = pay i := by
    intro i hi
    rw [hset, if_neg hi, hpay, if_neg hi]
    exact ⟨rfl, rfl⟩
  rw [entries_split (by rw [hset, if_pos rfl]) (Nat.zero_le pos) hcap]
  congr 1
  · refine entries_congr (fun i _ hi => (hne i (by omega)).1) fun i _ hi hf => ?_
    simp only [Prod.mk.injEq]
    exact ⟨hw.rest i (Or.inr ⟨i, le_refl _, hi, hf⟩), (hne i (by omega)).2⟩
  · congr 1
    · rw [hw.run pos (le_refl _) fun t ht ht' => absurd ht' (by omega), hpay, if_pos rfl]
    · refine entries_congr (fun i hi _ => (hne i (by omega)).1) fun i hi _ _ => ?_
      simp only [Prod.mk.injEq]
      exact ⟨hw.rest i (Or.inl hi), (hne i (by omega)).2⟩

omit [OrderTop K] in
/-- An insertion behind all keys that are at most `k`. -/
theorem insertList_entries {u : Nat} (hu : u ≤ cap)
    (hbelow : ∀ j < u, filled j = true → key j ≤ k)
    (habove : ∀ j, u ≤ j → j < cap → filled j = true → k < key j) :
    Multimap.insertList k p (entries filled (fun i => (key i, pay i)) 0 cap) =
      entries filled (fun i => (key i, pay i)) 0 u ++
        (k, p) :: entries filled (fun i => (key i, pay i)) u cap := by
  rw [entries_append (Nat.zero_le u) hu, Multimap.insertList_append, Multimap.insertList_of_lt]
  · intro x hx
    rcases mem_entries.mp hx with ⟨i, hlo, hhi, hf, rfl⟩
    exact habove i hlo hhi hf
  · intro x hx
    rcases mem_entries.mp hx with ⟨i, _, hhi, hf, rfl⟩
    exact hbelow i hhi hf

/-! ## Moving entries into a gap -/

variable {q : Nat} {a : Nat → α}

/-- Move what is at `pos` up to `g` one position to the right. -/
def shiftRight (a : Nat → α) (pos g : Nat) : Nat → α :=
  fun i => if pos < i ∧ i ≤ g then a (i - 1) else a i

/-- Move what is behind `g` up to `q` one position to the left. -/
def shiftLeft (a : Nat → α) (g q : Nat) : Nat → α :=
  fun i => if g ≤ i ∧ i < q then a (i + 1) else a i

/-- The gap at `g` is now at `pos`. -/
def moveGap (filled : Nat → Bool) (g pos : Nat) : Nat → Bool :=
  fun i => if i = pos then false else if i = g then true else filled i

theorem shiftRight_before {i : Nat} (h : i ≤ pos) : shiftRight a pos g i = a i :=
  if_neg (by omega)

theorem shiftRight_behind {i : Nat} (h : g < i) : shiftRight a pos g i = a i :=
  if_neg (by omega)

theorem shiftRight_succ {i : Nat} (h : pos ≤ i) (h' : i < g) :
    shiftRight a pos g (i + 1) = a i := by
  unfold shiftRight
  rw [if_pos (by omega), Nat.add_sub_cancel]

theorem shiftLeft_before {i : Nat} (h : i < g) : shiftLeft a g q i = a i := if_neg (by omega)

theorem shiftLeft_behind {i : Nat} (h : q ≤ i) : shiftLeft a g q i = a i := if_neg (by omega)

theorem shiftLeft_mid {i : Nat} (h : g ≤ i) (h' : i < q) : shiftLeft a g q i = a (i + 1) :=
  if_pos ⟨h, h'⟩

/-- Shifting a run of entries to the right over the gap makes room at `pos`. -/
theorem Gapped.vacant_shiftRight (h : Gapped cap filled key)
    (hfull : ∀ i, pos ≤ i → i < g → filled i = true) :
    Vacant cap (moveGap filled g pos) (shiftRight key pos g) pos := by
  constructor
  · intro i j hij hj hi hj'
    unfold shiftRight
    split
    · split
      · exact h.sorted _ _ (by omega) (by omega)
      · exact h.sorted _ _ (by omega) hj
    · split
      · exact h.sorted _ _ (by omega) (by omega)
      · exact h.sorted _ _ hij hj
  · intro i hi hne hne' hf
    unfold moveGap at hf
    rw [if_neg hne] at hf
    split at hf
    · cases hf
    -- the run is full, so any other gap is outside of it, where nothing moved
    · have hrule := h.gap i hi hf
      have hout : i < pos ∨ g < i := by
        by_contra hin
        rw [hfull i (by omega) (by omega)] at hf
        cases hf
      rcases hout with hlt | hlt
      · rw [shiftRight_before hlt.le, hrule]
        unfold nextKey
        rw [shiftRight_before (by omega)]
      · rw [shiftRight_behind hlt, hrule]
        unfold nextKey
        rw [shiftRight_behind (by omega)]

/-- Shifting a run of entries to the left over the gap makes room at `q`. -/
theorem Gapped.vacant_shiftLeft (h : Gapped cap filled key) (hgq : g ≤ q) (hq : q < cap)
    (hg : filled g = false) (hfull : ∀ i, g < i → i ≤ q → filled i = true) :
    Vacant cap (moveGap filled g q) (shiftLeft key g q) q := by
  constructor
  · intro i j hij hj hi hj'
    unfold shiftLeft
    split
    · split
      · exact h.sorted _ _ (by omega) (by omega)
      · exact h.sorted _ _ (by omega) hj
    · split
      · exact h.sorted _ _ (by omega) (by omega)
      · exact h.sorted _ _ hij hj
  · intro i hi hne hne' hf
    unfold moveGap at hf
    rw [if_neg hne] at hf
    split at hf
    · cases hf
    · rename_i hig
      -- any other gap is outside of the run; only the one just before it sees a change
      have hrule := h.gap i hi hf
      have hout : i < g ∨ q < i := by
        by_contra hin
        rw [hfull i (by omega) (by omega)] at hf
        cases hf
      rcases hout with hlt | hlt
      · rw [shiftLeft_before hlt, hrule]
        unfold nextKey
        rw [if_pos (by omega), if_pos (by omega)]
        rcases Nat.lt_or_eq_of_le (Nat.succ_le_of_lt hlt) with hlt' | heq
        · rw [shiftLeft_before hlt']
        · -- the gap that has moved had the key of the entry that comes to it
          have hmoved := h.gap g (by omega) hg
          unfold nextKey at hmoved
          rw [if_pos (by omega)] at hmoved
          rw [show i + 1 = g from heq, shiftLeft_mid (le_refl g) (by omega), hmoved]
      · rw [shiftLeft_behind hlt.le, hrule]
        unfold nextKey
        rw [shiftLeft_behind (by omega)]

/-- The shift to the right keeps the entries on both sides of `pos`. -/
theorem entries_shiftRight (hfull : ∀ i, pos ≤ i → i < g → filled i = true) (hpos : pos ≤ g)
    (hcap : g < cap) (hg : filled g = false) :
    entries (moveGap filled g pos) (shiftRight a pos g) 0 pos = entries filled a 0 pos ∧
      entries (moveGap filled g pos) (shiftRight a pos g) (pos + 1) cap =
        entries filled a pos cap := by
  constructor
  · refine entries_congr (fun i _ hi => ?_) fun i _ hi _ => shiftRight_before hi.le
    unfold moveGap
    rw [if_neg (by omega), if_neg (by omega)]
  -- behind `pos` come the shifted entries and then those behind the gap
  · have hmoved : entries (moveGap filled g pos) (shiftRight a pos g) (pos + 1) (g + 1) =
        entries filled a pos g := by
      refine entries_shift (fun i hi hi' => ?_) fun i hi hi' => shiftRight_succ hi hi'
      unfold moveGap
      rw [if_neg (by omega), hfull i hi hi']
      split
      · rfl
      · exact hfull (i + 1) (by omega) (by omega)
    have hgap : entries filled a g (g + 1) = [] := by
      refine entries_gaps fun i hi hi' => ?_
      rw [show i = g by omega]
      exact hg
    rw [entries_append (show pos + 1 ≤ g + 1 by omega) hcap, hmoved,
      entries_append hpos hcap.le, entries_append (Nat.le_succ g) hcap, hgap, List.nil_append]
    congr 1
    refine entries_congr (fun i hi _ => ?_) fun i hi _ _ => shiftRight_behind (by omega)
    unfold moveGap
    rw [if_neg (by omega), if_neg (by omega)]

/-- The shift to the left keeps the entries on both sides of `q`. -/
theorem entries_shiftLeft (cap : Nat) (hfull : ∀ i, g < i → i ≤ q → filled i = true) (hgq : g ≤ q)
    (hg : filled g = false) :
    entries (moveGap filled g q) (shiftLeft a g q) 0 q = entries filled a 0 (q + 1) ∧
      entries (moveGap filled g q) (shiftLeft a g q) (q + 1) cap =
        entries filled a (q + 1) cap := by
  constructor
  -- before `q` come those before the gap and then the shifted entries
  · have hmoved : entries filled a (g + 1) (q + 1) =
        entries (moveGap filled g q) (shiftLeft a g q) g q := by
      refine entries_shift (fun i hi hi' => ?_) fun i hi hi' => (shiftLeft_mid hi hi').symm
      unfold moveGap
      rw [if_neg (by omega), hfull (i + 1) (by omega) (by omega)]
      split
      · rfl
      · exact (hfull i (by omega) (by omega)).symm
    have hgap : entries filled a g (g + 1) = [] := by
      refine entries_gaps fun i hi hi' => ?_
      rw [show i = g by omega]
      exact hg
    rw [entries_append (Nat.zero_le g) hgq,
      entries_append (Nat.zero_le g) (show g ≤ q + 1 by omega),
      entries_append (Nat.le_succ g) (show g + 1 ≤ q + 1 by omega),
      hgap, List.nil_append, hmoved]
    congr 1
    refine entries_congr (fun i _ hi => ?_) fun i _ hi _ => shiftLeft_before hi
    unfold moveGap
    rw [if_neg (by omega), if_neg (by omega)]
  · refine entries_congr (fun i hi _ => ?_) fun i hi _ _ => shiftLeft_behind (by omega)
    unfold moveGap
    rw [if_neg (by omega), if_neg (by omega)]

/-! ## Writing over a range -/

/-- Write `x` to the `n` positions from `lo` on. -/
def fillFrom (a : Nat → α) (lo : Nat) (x : α) : Nat → Nat → α
  | 0 => a
  | n + 1 => setLoc (fillFrom a lo x n) (lo + n) x

/-- The fill loop writes the `n` positions from `lo` on. -/
theorem fillFrom_apply (a : Nat → α) (lo : Nat) (x : α) (n i : Nat) :
    fillFrom a lo x n i = if lo ≤ i ∧ i < lo + n then x else a i := by
  induction n with
  | zero =>
    rw [if_neg (by omega)]
    rfl
  | succ n ih =>
    by_cases hi : i = lo + n
    · rw [hi, fillFrom, setLoc_self, if_pos (by omega)]
    · rw [fillFrom, setLoc_ne _ _ hi, ih]
      by_cases hin : lo ≤ i ∧ i < lo + n
      · rw [if_pos hin, if_pos (by omega)]
      · rw [if_neg hin, if_neg (by omega)]

/-! ## Erasing a range of keys -/

/-- The positions from `lo` up to `u` become gaps, where what is before `lo` is smaller
than what is erased. -/
theorem Gapped.eraseRange {lo u : Nat} (h : Gapped cap filled key)
    (hu : u ≤ cap) (hlow : ∀ i, i + 1 = lo → lo < u → key i < key lo)
    (hkey : ∀ i, key' i = if lo ≤ i ∧ i < u then (if u < cap then key u else ⊤) else key i)
    (hset : ∀ i, filled' i = if lo ≤ i ∧ i < u then false else filled i) :
    Gapped cap filled' key' := by
  -- keys only go up, to the one behind the range
  have hle : ∀ i < cap, key i ≤ key' i := by
    intro i hi
    rw [hkey]
    split
    · split
      · exact h.sorted i u (by omega) ‹_›
      · exact le_top
    · exact le_rfl
  constructor
  · intro i j hij hj
    by_cases hi : lo ≤ i ∧ i < u
    · by_cases hj' : lo ≤ j ∧ j < u
      · rw [hkey, hkey, if_pos hi, if_pos hj']
      · rw [hkey, hkey, if_pos hi, if_neg hj', if_pos (by omega)]
        exact h.sorted u j (by omega) hj
    · rw [hkey i, if_neg hi]
      exact (h.sorted i j hij hj).trans (hle j hj)
  · intro i hi hf
    rw [hset] at hf
    rw [hkey]
    by_cases hin : lo ≤ i ∧ i < u
    · rw [if_pos hin]
      unfold nextKey
      -- a new gap has the key of its successor, which is a new gap or position `u`
      by_cases hlt : i + 1 < cap
      · rw [if_pos hlt, hkey]
        by_cases hnext : i + 1 < u
        · rw [if_pos (show lo ≤ i + 1 ∧ i + 1 < u by omega)]
        · rw [if_neg (show ¬(lo ≤ i + 1 ∧ i + 1 < u) by omega), if_pos (show u < cap by omega),
            show u = i + 1 by omega]
      · rw [if_neg hlt, if_neg (show ¬u < cap by omega)]
    · rw [if_neg hin] at hf ⊢
      have hold := h.gap i hi hf
      unfold nextKey at hold ⊢
      split
      · rename_i hlt
        rw [if_pos hlt] at hold
        rw [hkey, if_neg]
        · exact hold
        · -- a gap has the key behind it, and what is before `lo` is smaller
          intro hin'
          have heq : i + 1 = lo := by omega
          have hless := hlow i heq (by omega)
          rw [← heq] at hless
          exact absurd hold (ne_of_lt hless)
      · rename_i hlt
        rw [if_neg hlt] at hold
        exact hold

omit [LinearOrder K] [OrderTop K] in
/-- Emptying a range of positions takes out the entries of that range. -/
theorem entries_eraseRange {lo u : Nat} (hlo : lo ≤ u) (hu : u ≤ cap)
    (hkey : ∀ i, i < lo ∨ u ≤ i → key' i = key i)
    (hset : ∀ i, filled' i = if lo ≤ i ∧ i < u then false else filled i) :
    entries filled' (fun i => (key' i, pay i)) 0 cap =
      entries filled (fun i => (key i, pay i)) 0 lo ++
        entries filled (fun i => (key i, pay i)) u cap := by
  have hout : ∀ i, i < lo ∨ u ≤ i → filled' i = filled i := by
    intro i hi
    rw [hset, if_neg (by omega)]
  have hgap : entries filled' (fun i => (key' i, pay i)) lo u = [] := by
    refine entries_gaps fun i hi hi' => ?_
    rw [hset, if_pos ⟨hi, hi'⟩]
  rw [entries_append (Nat.zero_le lo) (hlo.trans hu), entries_append hlo hu, hgap,
    List.nil_append]
  congr 1
  · refine entries_congr (fun i _ hi => hout i (Or.inl hi)) fun i _ hi _ => ?_
    rw [hkey i (Or.inl hi)]
  · refine entries_congr (fun i hi _ => hout i (Or.inr hi)) fun i hi _ _ => ?_
    rw [hkey i (Or.inr hi)]

/-! ## Laying out entries in order -/

/-- The first `n` positions have been laid out, and the others up to `size` are gaps yet to be
written. -/
structure Laid (size : Nat) (filled : Nat → Bool) (key : Nat → K) (n : Nat) : Prop where
  sorted : ∀ i j, i ≤ j → j < n → key i ≤ key j
  gap : ∀ i < n, filled i = false → i + 1 < n ∧ key i = key (i + 1)
  rest : ∀ i, n ≤ i → i < size → filled i = false

variable {size n : Nat}

omit [OrderTop K] in
theorem Laid.zero (hf : ∀ i < size, filled i = false) : Laid size filled key 0 :=
  ⟨fun _ _ _ h => absurd h (by omega), fun _ h => absurd h (by omega), fun i _ => hf i⟩

omit [OrderTop K] in
/-- Every position has the key of an entry. -/
theorem Laid.filled_of (h : Laid size filled key n) : ∀ {m i : Nat}, i + m + 1 = n →
    ∃ j < n, filled j = true ∧ key i = key j := by
  intro m
  induction m with
  | zero =>
    intro i hi
    by_cases hf : filled i = true
    · exact ⟨i, by omega, hf, rfl⟩
    · have hgap := h.gap i (by omega) (by simpa using hf)
      omega
  | succ m ih =>
    intro i hi
    by_cases hf : filled i = true
    · exact ⟨i, by omega, hf, rfl⟩
    · obtain ⟨_, heq⟩ := h.gap i (by omega) (by simpa using hf)
      obtain ⟨j, hj, hfj, hkey⟩ := ih (i := i + 1) (by omega)
      exact ⟨j, hj, hfj, heq.trans hkey⟩

omit [OrderTop K] in
/-- The next entry goes to `pos`, and the gaps before it get its key. -/
theorem Laid.step (h : Laid size filled key n) (hn : n ≤ pos)
    (hle : ∀ i < n, filled i = true → key i ≤ k)
    (hkey : ∀ i, key' i = if n ≤ i ∧ i ≤ pos then k else key i)
    (hset : ∀ i, filled' i = if i = pos then true else filled i) :
    Laid size filled' key' (pos + 1) := by
  constructor
  · intro i j hij hj
    rw [hkey, hkey]
    split
    · rw [if_pos (by omega)]
    · split
      · obtain ⟨t, ht, hft, heq⟩ := h.filled_of (m := n - i - 1) (i := i) (by omega)
        rw [heq]
        exact hle t ht hft
      · exact h.sorted i j hij (by omega)
  · intro i hi hf
    rw [hset] at hf
    split at hf
    · cases hf
    · refine ⟨by omega, ?_⟩
      rw [hkey, hkey]
      split
      · rw [if_pos (by omega)]
      · obtain ⟨hlt, heq⟩ := h.gap i (by omega) hf
        rw [if_neg (by omega), heq]
  · intro i hi hi'
    rw [hset, if_neg (by omega)]
    exact h.rest i (by omega) hi'

omit [OrderTop K] in
/-- Laying one more key, with the gaps before it, adds one entry. -/
theorem Laid.entries_step (h : Laid size filled key n) (hn : n ≤ pos) (hpos : pos < size)
    (hkey : ∀ i, key' i = if n ≤ i ∧ i ≤ pos then k else key i)
    (hset : ∀ i, filled' i = if i = pos then true else filled i)
    (hpay : ∀ i, pay' i = if i = pos then p else pay i) :
    entries filled' (fun i => (key' i, pay' i)) 0 (pos + 1) =
      entries filled (fun i => (key i, pay i)) 0 n ++ [(k, p)] := by
  have hgaps : entries filled' (fun i => (key' i, pay' i)) n pos = [] := by
    refine entries_gaps fun i hi hi' => ?_
    rw [hset, if_neg (by omega)]
    exact h.rest i hi (by omega)
  rw [entries_append (Nat.zero_le pos) (Nat.le_succ pos), entries_append (Nat.zero_le n) hn,
    hgaps, List.append_nil, entries_single (by rw [hset, if_pos rfl])]
  congr 1
  · refine entries_congr (fun i _ hi => ?_) fun i _ hi _ => ?_
    · rw [hset, if_neg (by omega)]
    · rw [hkey, if_neg (by omega), hpay, if_neg (by omega)]
  · rw [hkey, if_pos ⟨hn, le_rfl⟩, hpay, if_pos rfl]

/-- The positions behind the last entry get the greatest key. -/
theorem Laid.gapped (h : Laid size filled key n) (hn : n ≤ cap)
    (hkey : ∀ i, key' i = if n ≤ i ∧ i < cap then ⊤ else key i) : Gapped cap filled key' := by
  constructor
  · intro i j hij hj
    rw [hkey, hkey]
    split
    · rw [if_pos (by omega)]
    · split
      · exact le_top
      · exact h.sorted i j hij (by omega)
  · intro i hi hf
    unfold nextKey
    rw [hkey]
    split
    · split
      · rw [hkey, if_pos (by omega)]
      · rfl
    · obtain ⟨hlt, heq⟩ := h.gap i (by omega) hf
      rw [if_pos (by omega), hkey, if_neg (by omega), heq]

/-- Filling up the rest with the largest key adds none. -/
theorem Laid.entries_gapped (h : Laid size filled key n) (hn : n ≤ cap) (hcap : cap ≤ size)
    (hkey : ∀ i, key' i = if n ≤ i ∧ i < cap then ⊤ else key i) :
    entries filled (fun i => (key' i, pay i)) 0 cap =
      entries filled (fun i => (key i, pay i)) 0 n := by
  have hgaps : entries filled (fun i => (key' i, pay i)) n cap = [] :=
    entries_gaps fun i hi hi' => h.rest i hi (by omega)
  rw [entries_append (Nat.zero_le n) hn, hgaps, List.append_nil]
  refine entries_congr (fun i _ _ => rfl) fun i _ hi _ => ?_
  rw [hkey, if_neg (by omega)]

end Epli.Lib
