import Mathlib.Data.List.Find
import Epli.Entry

/-!
# What an entry holds

The set of pairs in the slots of an entry, and how each method changes it. The
methods find a slot by scanning for a key, so the results about `Get`, `Update`
and `Remove` rest on `Distinct`: no key in two slots.
-/

namespace Epli.Entry

open Lib

/-! ## Pairs and keys of an entry -/

/-- Some slot of `p` has the key `k`. -/
def HasKey (m : Mem) (p k : Nat) : Prop :=
  ∃ i < kvsPerEntry, m (p, .key i) = k

/-- Some slot of `p` holds the pair `(k, v)`. -/
def Holds (m : Mem) (p k v : Nat) : Prop :=
  ∃ i < kvsPerEntry, m (p, .key i) = k ∧ m (p, .val i) = v

/-- No slot of `p` is empty. -/
def Full (m : Mem) (p : Nat) : Prop :=
  ∀ i < kvsPerEntry, m (p, .key i) ≠ invalidKey

/-- No key occurs in two slots of `p`. -/
def Distinct (m : Mem) (p : Nat) : Prop :=
  ∀ i < kvsPerEntry, ∀ j < kvsPerEntry, m (p, .key i) = m (p, .key j) →
    m (p, .key i) ≠ invalidKey → i = j

instance (m : Mem) (p k : Nat) : Decidable (HasKey m p k) :=
  inferInstanceAs (Decidable (∃ i < kvsPerEntry, m (p, .key i) = k))

instance (m : Mem) (p : Nat) : Decidable (Full m p) :=
  inferInstanceAs (Decidable (∀ i < kvsPerEntry, m (p, .key i) ≠ invalidKey))

variable {m m' : Mem} {p q k v k' v' i : Nat}

theorem Holds.hasKey (h : Holds m p k v) : HasKey m p k := by
  rcases h with ⟨i, hi, hk, _⟩
  exact ⟨i, hi, hk⟩

theorem HasKey.exists_holds (h : HasKey m p k) : ∃ v, Holds m p k v := by
  rcases h with ⟨i, hi, hk⟩
  exact ⟨_, i, hi, hk, rfl⟩

/-- The slots, read as a list of pairs. -/
theorem mem_kvs {x : KV} : x ∈ kvs m p ↔ Holds m p x.1 x.2 := by
  rcases x with ⟨k, v⟩
  simp [kvs, Holds]

/-- A full entry has no slot with `INVALID_KEY`. -/
theorem Full.ne_invalid (hf : Full m p) (h : HasKey m p k) : k ≠ invalidKey := by
  rcases h with ⟨i, hi, hk⟩
  rw [← hk]
  exact hf i hi

/-- In an entry without repeated keys a key has one value. -/
theorem Holds.unique (hd : Distinct m p) (hk : k ≠ invalidKey) (h : Holds m p k v)
    (h' : Holds m p k v') : v = v' := by
  rcases h with ⟨i, hi, hki, rfl⟩
  rcases h' with ⟨j, hj, hkj, rfl⟩
  rw [hd i hi j hj (hki.trans hkj.symm) (by rwa [hki])]

theorem holds_congr (hk : ∀ i, m' (p, .key i) = m (p, .key i))
    (hv : ∀ i, m' (p, .val i) = m (p, .val i)) : Holds m' p k v ↔ Holds m p k v := by
  simp only [Holds, hk, hv]

theorem distinct_congr (hk : ∀ i, m' (p, .key i) = m (p, .key i)) :
    Distinct m' p ↔ Distinct m p := by
  simp only [Distinct, hk]

/-! ## The slot scan -/

/-- The scan stops at the first slot with the key. -/
theorem findSlot_some (h : findSlot m p k = some i) :
    i < kvsPerEntry ∧ m (p, .key i) = k ∧ ∀ j < i, m (p, .key j) ≠ k := by
  unfold findSlot at h
  rw [List.find?_range_eq_some] at h
  rcases h with ⟨hk, hi, hlt⟩
  refine ⟨List.mem_range.mp hi, by simpa using hk, ?_⟩
  intro j hj
  simpa using hlt j hj

theorem findSlot_eq_none : findSlot m p k = none ↔ ¬ HasKey m p k := by
  simp [findSlot, HasKey]

/-- The scan finds every key that is there. -/
theorem findSlot_isSome (h : HasKey m p k) : ∃ i, findSlot m p k = some i := by
  cases hf : findSlot m p k with
  | none => exact absurd h (findSlot_eq_none.mp hf)
  | some i => exact ⟨i, rfl⟩

/-- An entry has room when some slot has `INVALID_KEY`. -/
theorem not_full_iff : ¬ Full m p ↔ HasKey m p invalidKey := by
  simp only [Full, HasKey, ne_eq, not_forall, not_not]
  constructor
  · rintro ⟨i, hi, h⟩
    exact ⟨i, hi, h⟩
  · rintro ⟨i, hi, h⟩
    exact ⟨i, hi, h⟩

/-- `Get` finds exactly the pairs an entry holds. -/
theorem get_eq_some (hd : Distinct m p) (hk : k ≠ invalidKey) :
    get m p k = some v ↔ Holds m p k v := by
  constructor
  · intro h
    rw [get, Option.map_eq_some_iff] at h
    rcases h with ⟨i, hf, hv⟩
    rcases findSlot_some hf with ⟨hi, hki, _⟩
    exact ⟨i, hi, hki, hv⟩
  · intro h
    rcases findSlot_isSome h.hasKey with ⟨i, hf⟩
    rcases findSlot_some hf with ⟨hi, hki, _⟩
    have hv : Holds m p k (m (p, .val i)) := ⟨i, hi, hki, rfl⟩
    rw [get, hf, Option.map_some, Holds.unique hd hk hv h]

theorem get_eq_none : get m p k = none ↔ ¬ HasKey m p k := by
  rw [get, Option.map_eq_none_iff, findSlot_eq_none]

/-! ## Writing one slot -/

/-- `MaybePut` on an entry with room puts at the first empty slot. -/
theorem maybePut_room (k v : Nat) (h : ¬ Full m p) :
    ∃ i, findSlot m p invalidKey = some i ∧ maybePut m p k v = (.ok, putAtPos p i k v) := by
  rcases findSlot_isSome (not_full_iff.mp h) with ⟨i, hf⟩
  exact ⟨i, hf, by simp [maybePut, hf]⟩

/-- A full entry refuses the pair and writes nothing. -/
theorem maybePut_full (k v : Nat) (h : Full m p) : maybePut m p k v = (.overflow, []) := by
  have hf : findSlot m p invalidKey = none := by
    rw [findSlot_eq_none, ← not_full_iff, not_not]
    exact h
  simp [maybePut, hf]

/-- The memory with the pair `(k, v)` written to slot `i` of `p`. -/
def putSlot (m : Mem) (p i k v : Nat) : Mem :=
  setLoc (setLoc m (p, .val i) v) (p, .key i) k

@[simp] theorem exec_putAtPos (m : Mem) (p i k v : Nat) :
    exec m (putAtPos p i k v) = putSlot m p i k v := by
  simp [putAtPos, putSlot]

@[simp] theorem putSlot_key (j : Nat) :
    putSlot m p i k v (q, .key j) = if q = p ∧ j = i then k else m (q, .key j) := by
  simp [putSlot, setLoc]

@[simp] theorem putSlot_val (j : Nat) :
    putSlot m p i k v (q, .val j) = if q = p ∧ j = i then v else m (q, .val j) := by
  simp [putSlot, setLoc]

@[simp] theorem putSlot_next : putSlot m p i k v (q, .next) = m (q, .next) := by
  simp [putSlot, setLoc]

@[simp] theorem putSlot_minKey : putSlot m p i k v (q, .minKey) = m (q, .minKey) := by
  simp [putSlot, setLoc]

/-- Filling an empty slot adds one pair and keeps the others. -/
theorem holds_putSlot (hi : i < kvsPerEntry) (he : m (p, .key i) = invalidKey)
    (hk' : k' ≠ invalidKey) :
    Holds (putSlot m p i k v) p k' v' ↔ Holds m p k' v' ∨ (k' = k ∧ v' = v) := by
  constructor
  · rintro ⟨j, hj, hkj, hvj⟩
    by_cases hji : j = i
    -- the slot that was filled
    · subst hji
      right
      simp only [putSlot_key, putSlot_val, and_self, if_true] at hkj hvj
      exact ⟨hkj.symm, hvj.symm⟩
    · left
      simp only [putSlot_key, putSlot_val, hji, and_false, if_false] at hkj hvj
      exact ⟨j, hj, hkj, hvj⟩
  · rintro (⟨j, hj, hkj, hvj⟩ | ⟨rfl, rfl⟩)
    · have hji : j ≠ i := by
        rintro rfl
        -- the slot filled was empty, so no pair with a proper key was lost
        exact hk' (hkj.symm.trans he)
      exact ⟨j, hj, by simp [hji, hkj], by simp [hji, hvj]⟩
    · exact ⟨i, hi, by simp, by simp⟩

/-- A put at an empty slot does not change what is found for other keys. -/
theorem get_putSlot (he : m (p, .key i) = invalidKey) (hne : k' ≠ k) (hk' : k' ≠ invalidKey) :
    get (putSlot m p i k v) q k' = get m q k' := by
  have hfind : findSlot (putSlot m p i k v) q k' = findSlot m q k' := by
    unfold findSlot
    refine List.find?_congr fun j _ => ?_
    rw [putSlot_key]
    split
    case isTrue h =>
      -- neither the empty slot nor the one filled with `k` is a slot of `k'`
      rw [h.1, h.2, he, beq_eq_false_iff_ne.mpr (Ne.symm hne), beq_eq_false_iff_ne.mpr hk'.symm]
    case isFalse => rfl
  rw [get, get, hfind]
  cases hf : findSlot m q k' with
  | none => rfl
  | some j =>
    obtain ⟨_, hkj, _⟩ := findSlot_some hf
    have hji : ¬ (q = p ∧ j = i) := by
      rintro ⟨rfl, rfl⟩
      exact hk' (hkj.symm.trans he)
    rw [Option.map_some, Option.map_some, putSlot_val, if_neg hji]

/-- A key that no slot has repeats none, whatever slot it is put into. -/
theorem distinct_putSlot (hd : Distinct m p) (hnew : ¬ HasKey m p k) :
    Distinct (putSlot m p i k v) p := by
  intro a ha b hb hab hne
  by_cases hai : a = i <;> by_cases hbi : b = i
  · rw [hai, hbi]
  · simp only [putSlot_key, hai, hbi, and_self, if_true, and_false, if_false] at hab
    exact absurd ⟨b, hb, hab.symm⟩ hnew
  · simp only [putSlot_key, hai, hbi, and_self, if_true, and_false, if_false] at hab
    exact absurd ⟨a, ha, hab⟩ hnew
  · simp only [putSlot_key, hai, hbi, and_false, if_false] at hab hne
    exact hd a ha b hb hab hne

/-- Overwriting the value of the slot of `k`. -/
theorem holds_setVal (hd : Distinct m p) (hi : i < kvsPerEntry) (hki : m (p, .key i) = k)
    (hk : k ≠ invalidKey) :
    Holds (setLoc m (p, .val i) v) p k' v' ↔
      (k' ≠ k ∧ Holds m p k' v') ∨ (k' = k ∧ v' = v) := by
  constructor
  · rintro ⟨j, hj, hkj, hvj⟩
    rw [setLoc_ne _ _ (by simp)] at hkj
    by_cases hji : j = i
    · subst hji
      right
      rw [setLoc_self] at hvj
      exact ⟨hkj.symm.trans hki, hvj.symm⟩
    · left
      rw [setLoc_ne _ _ (by simp [hji])] at hvj
      refine ⟨?_, j, hj, hkj, hvj⟩
      rintro rfl
      -- a second slot with this key would contradict `Distinct`
      exact hji (hd j hj i hi (hkj.trans hki.symm) (by rwa [hkj]))
  · rintro (⟨hne, j, hj, hkj, hvj⟩ | ⟨rfl, rfl⟩)
    · have hji : j ≠ i := by
        rintro rfl
        exact hne (hkj.symm.trans hki)
      refine ⟨j, hj, ?_, ?_⟩
      · rw [setLoc_ne _ _ (by simp), hkj]
      · rw [setLoc_ne _ _ (by simp [hji]), hvj]
    · exact ⟨i, hi, by rw [setLoc_ne _ _ (by simp), hki], by simp⟩

/-- Clearing the key of the slot of `k`. -/
theorem holds_clearKey (hd : Distinct m p) (hi : i < kvsPerEntry) (hki : m (p, .key i) = k)
    (hk : k ≠ invalidKey) (hk' : k' ≠ invalidKey) :
    Holds (setLoc m (p, .key i) invalidKey) p k' v' ↔ k' ≠ k ∧ Holds m p k' v' := by
  constructor
  · rintro ⟨j, hj, hkj, hvj⟩
    rw [setLoc_ne _ _ (by simp)] at hvj
    by_cases hji : j = i
    · subst hji
      rw [setLoc_self] at hkj
      exact absurd hkj.symm hk'
    · rw [setLoc_ne _ _ (by simp [hji])] at hkj
      refine ⟨?_, j, hj, hkj, hvj⟩
      rintro rfl
      exact hji (hd j hj i hi (hkj.trans hki.symm) (by rwa [hkj]))
  · rintro ⟨hne, j, hj, hkj, hvj⟩
    have hji : j ≠ i := by
      rintro rfl
      exact hne (hkj.symm.trans hki)
    exact ⟨j, hj, by rw [setLoc_ne _ _ (by simp [hji]), hkj],
      by rw [setLoc_ne _ _ (by simp), hvj]⟩

/-- Clearing a key repeats none. -/
theorem distinct_clearKey (hd : Distinct m p) :
    Distinct (setLoc m (p, .key i) invalidKey) p := by
  intro a ha b hb hab hne
  by_cases hai : a = i
  · rw [hai, setLoc_self] at hne
    exact absurd rfl hne
  · by_cases hbi : b = i
    · rw [hab, hbi, setLoc_self] at hne
      exact absurd rfl hne
    · rw [setLoc_ne _ _ (by simp [hai]), setLoc_ne _ _ (by simp [hbi])] at hab
      rw [setLoc_ne _ _ (by simp [hai])] at hne
      exact hd a ha b hb hab hne

/-- `Update` changes no key. -/
theorem exec_update_key (m : Mem) (p k v a i : Nat) :
    exec m (update m p k v).2 (a, .key i) = m (a, .key i) := by
  unfold update
  cases findSlot m p k with
  | none => rfl
  | some j => simp [setLoc]

/-- `Remove` changes no key but to `INVALID_KEY`. -/
theorem exec_remove_key (m : Mem) (p k a i : Nat) :
    exec m (remove m p k).2 (a, .key i) = m (a, .key i) ∨
      exec m (remove m p k).2 (a, .key i) = invalidKey := by
  unfold remove
  cases findSlot m p k with
  | none => exact Or.inl rfl
  | some j =>
    by_cases h : a = p ∧ i = j
    · exact Or.inr (by simp [setLoc, h])
    · exact Or.inl (by simp [setLoc, h])

/-! ## The sorted copy -/

/-- The sorted copy has the pairs of the slots. -/
theorem sortedKVs_perm (m : Mem) (p : Nat) : (sortedKVs m p).Perm (kvs m p) := by
  rw [sortedKVs]
  exact List.perm_insertionSort _ _

@[simp] theorem length_sortedKVs (m : Mem) (p : Nat) :
    (sortedKVs m p).length = kvsPerEntry := by
  rw [(sortedKVs_perm m p).length_eq]
  simp [kvs]

/-- A pair is in the sorted copy when some slot holds it. -/
theorem mem_sortedKVs {x : KV} : x ∈ sortedKVs m p ↔ Holds m p x.1 x.2 := by
  rw [(sortedKVs_perm m p).mem_iff, mem_kvs]

/-- The copy is in key order. -/
theorem sortedKVs_sorted (m : Mem) (p : Nat) :
    (sortedKVs m p).Pairwise fun a b => a.1 ≤ b.1 := by
  -- `insertionSort` asks for a total and transitive order on the pairs
  have : Std.Total (fun a b : KV => a.1 ≤ b.1) := ⟨fun a b => le_total a.1 b.1⟩
  have : IsTrans KV (fun a b => a.1 ≤ b.1) := ⟨fun a b c hab hbc => le_trans hab hbc⟩
  rw [sortedKVs]
  exact List.pairwise_insertionSort _ _

/-- In the sorted copy every proper key is below all later ones. -/
theorem sortedKVs_proper (hd : Distinct m p) :
    (sortedKVs m p).Pairwise fun a b => a.1 ≠ invalidKey → a.1 < b.1 := by
  -- only `INVALID_KEY` occurs twice, so between proper keys `≤` is `<`
  have hkvs : (kvs m p).Pairwise fun a b => a.1 = b.1 → a.1 = invalidKey := by
    rw [kvs, List.pairwise_map]
    refine List.pairwise_lt_range.imp_of_mem ?_
    intro i j hi hj hij heq
    by_contra hne
    exact absurd (hd i (List.mem_range.mp hi) j (List.mem_range.mp hj) heq hne) (Nat.ne_of_lt hij)
  have hsorted := (sortedKVs_perm m p).symm.pairwise hkvs fun h heq => heq.trans (h heq.symm)
  refine List.Pairwise.imp₂ ?_ (sortedKVs_sorted m p) hsorted
  intro a b hle heq hne
  exact lt_of_le_of_ne hle fun h => hne (heq h)

/-- The sort is stable: of the pairs of one key the first stays the first. -/
theorem lookup_orderedInsert (k : Nat) (x : KV) : ∀ l : List KV,
    (l.orderedInsert (fun a b => a.1 ≤ b.1) x).lookup k = (x :: l).lookup k
  | [] => rfl
  | y :: l => by
    rw [List.orderedInsert_cons]
    by_cases hxy : x.1 ≤ y.1
    · rw [if_pos hxy]
    · -- `y` has a smaller key than `x`, so at most one of the two is found
      rw [if_neg hxy, List.lookup_cons, lookup_orderedInsert k x l, List.lookup_cons,
        List.lookup_cons, List.lookup_cons]
      by_cases hky : k = y.1
      · have hkx : k ≠ x.1 := by omega
        simp [beq_eq_false_iff_ne.mpr hkx, beq_iff_eq.mpr hky]
      · simp [beq_eq_false_iff_ne.mpr hky]

/-- Sorting does not change what a key is mapped to. -/
theorem lookup_sortedKVs (m : Mem) (p k : Nat) :
    (sortedKVs m p).lookup k = (kvs m p).lookup k := by
  rw [sortedKVs]
  induction kvs m p with
  | nil => rfl
  | cons x l ih => rw [List.insertionSort_cons, lookup_orderedInsert, List.lookup_cons, ih,
      List.lookup_cons]

/-- `Get` finds the first pair of the key. -/
theorem get_eq_lookup (m : Mem) (p k : Nat) : get m p k = (kvs m p).lookup k := by
  rw [get, findSlot, kvs]
  induction List.range kvsPerEntry with
  | nil => rfl
  | cons i l ih =>
    rw [List.find?_cons, List.map_cons, List.lookup_cons]
    by_cases hk : m (p, .key i) = k
    · simp [hk]
    · simp only [beq_eq_false_iff_ne.mpr hk, beq_eq_false_iff_ne.mpr (Ne.symm hk)]
      exact ih

/-- The pairs that stay in the old entry. -/
def lowerKVs (m : Mem) (p : Nat) : List KV := (sortedKVs m p).take (kvsPerEntry / 2)

/-- The pairs that move to the new entry. -/
def upperKVs (m : Mem) (p : Nat) : List KV := (sortedKVs m p).drop (kvsPerEntry / 2)

@[simp] theorem length_lowerKVs (m : Mem) (p : Nat) :
    (lowerKVs m p).length = kvsPerEntry / 2 := by
  rw [lowerKVs, List.length_take, length_sortedKVs]
  rfl

@[simp] theorem length_upperKVs (m : Mem) (p : Nat) :
    (upperKVs m p).length = kvsPerEntry / 2 := by
  rw [upperKVs, List.length_drop, length_sortedKVs]
  rfl

/-- The two halves make up the sorted copy. -/
theorem lower_append_upper (m : Mem) (p : Nat) :
    lowerKVs m p ++ upperKVs m p = sortedKVs m p :=
  List.take_append_drop _ _

/-- The value that goes with the median. -/
def medianVal (m : Mem) (p : Nat) : Nat := ((sortedKVs m p).getD (kvsPerEntry / 2) (0, 0)).2

/-- The upper half starts with the median. -/
theorem upperKVs_eq_cons (m : Mem) (p : Nat) :
    ∃ rest, upperKVs m p = (medianKey m p, medianVal m p) :: rest := by
  have hlen : kvsPerEntry / 2 < (sortedKVs m p).length := by
    rw [length_sortedKVs]
    decide
  refine ⟨(sortedKVs m p).drop (kvsPerEntry / 2 + 1), ?_⟩
  rw [upperKVs, List.drop_eq_getElem_cons hlen, medianKey, medianVal,
    List.getD_eq_getElem _ _ hlen]

/-- What moves is at or above the median. -/
theorem median_le_of_mem_upper {x : KV} (hx : x ∈ upperKVs m p) : medianKey m p ≤ x.1 := by
  rcases upperKVs_eq_cons m p with ⟨rest, hu⟩
  have hs : (upperKVs m p).Pairwise fun a b => a.1 ≤ b.1 := (sortedKVs_sorted m p).drop
  rw [hu, List.pairwise_cons] at hs
  rw [hu] at hx
  rcases List.mem_cons.mp hx with rfl | hx
  · exact le_rfl
  · exact hs.1 x hx

/-- What stays is at or below the median. -/
theorem le_median_of_mem_lower {x : KV} (hx : x ∈ lowerKVs m p) : x.1 ≤ medianKey m p := by
  rcases upperKVs_eq_cons m p with ⟨rest, hu⟩
  have hs := sortedKVs_sorted m p
  rw [← lower_append_upper, List.pairwise_append, hu] at hs
  exact hs.2.2 x hx (medianKey m p, medianVal m p) List.mem_cons_self

/-- A proper key of the lower half is below the median. -/
theorem lt_median_of_mem_lower (hd : Distinct m p) {x : KV} (hx : x ∈ lowerKVs m p)
    (hne : x.1 ≠ invalidKey) : x.1 < medianKey m p := by
  rcases upperKVs_eq_cons m p with ⟨rest, hu⟩
  have hs := sortedKVs_proper hd
  rw [← lower_append_upper, List.pairwise_append, hu] at hs
  exact hs.2.2 x hx (medianKey m p, medianVal m p) List.mem_cons_self hne

/-- The lower half is not empty: it starts with the smallest key. -/
theorem lowerKVs_ne_nil (m : Mem) (p : Nat) : lowerKVs m p ≠ [] := by
  intro h
  have hlen : (lowerKVs m p).length = kvsPerEntry / 2 := length_lowerKVs m p
  rw [h] at hlen
  exact absurd hlen (by decide)

/-- The separator is a key of the entry, `INVALID_KEY` included. -/
theorem medianKey_hasKey (m : Mem) (p : Nat) : HasKey m p (medianKey m p) := by
  rcases upperKVs_eq_cons m p with ⟨rest, hu⟩
  have hmem : (medianKey m p, medianVal m p) ∈ sortedKVs m p := by
    rw [← lower_append_upper, hu]
    exact List.mem_append_right _ List.mem_cons_self
  exact (mem_sortedKVs.mp hmem).hasKey

/-! ## Entries written as a whole -/

section Filled

variable {l : List KV} {n : Nat}

/-- An entry filled with `n` pairs holds those. -/
theorem holds_of_filled (h : Filled m p l n) (hn : n ≤ kvsPerEntry) (hlen : n ≤ l.length)
    (hk : k ≠ invalidKey) : Holds m p k v ↔ (k, v) ∈ l.take n := by
  constructor
  · rintro ⟨i, hi, hki, hvi⟩
    rcases h i hi with ⟨h1, h2⟩
    by_cases hin : i < n
    · rw [if_pos hin] at h1 h2
      rw [List.mem_take_iff_getElem]
      refine ⟨i, by omega, ?_⟩
      rw [List.getD_eq_getElem _ _ (by omega)] at h1 h2
      exact Prod.ext (h1.symm.trans hki) (h2.symm.trans hvi)
    · rw [if_neg hin] at h1
      exact absurd (hki.symm.trans h1) hk
  · intro hmem
    rw [List.mem_take_iff_getElem] at hmem
    rcases hmem with ⟨i, hi, hx⟩
    have hin : i < n := by omega
    rcases h i (by omega) with ⟨h1, h2⟩
    rw [if_pos hin, List.getD_eq_getElem _ _ (by omega), hx] at h1 h2
    exact ⟨i, by omega, h1, h2⟩

/-- Behind the pairs that were written the slots are empty. -/
theorem kvs_of_filled (h : Filled m p l n) (hn : n ≤ kvsPerEntry) (hlen : n ≤ l.length) :
    kvs m p = l.take n ++ List.replicate (kvsPerEntry - n) (0, 0) := by
  refine List.ext_getElem ?_ ?_
  · simp only [kvs, List.length_map, List.length_range, List.length_append, List.length_take,
      List.length_replicate]
    omega
  · intro i hi _
    have hi' : i < kvsPerEntry := by simpa [kvs] using hi
    rcases h i hi' with ⟨hkey, hval⟩
    rw [List.getElem_append]
    by_cases hin : i < n
    · rw [if_pos hin, List.getD_eq_getElem _ _ (by omega)] at hkey hval
      simp [kvs, hkey, hval, hin, lt_of_lt_of_le hin hlen]
    · rw [if_neg hin] at hkey hval
      simp [kvs, hkey, hval, hin]

/-- `Get` on a filled entry looks the key up in the pairs written. -/
theorem get_of_filled (h : Filled m p l n) (hn : n ≤ kvsPerEntry) (hlen : n ≤ l.length)
    (hk : k ≠ invalidKey) : get m p k = (l.take n).lookup k := by
  have hnone : (List.replicate (kvsPerEntry - n) ((0, 0) : KV)).lookup k = none := by
    rw [List.lookup_eq_none_iff]
    intro x hx
    rw [(List.mem_replicate.mp hx).2]
    simpa using hk
  rw [get_eq_lookup, kvs_of_filled h hn hlen, List.lookup_append, hnone, Option.or_none]

/-- Filled from a strictly ascending list, an entry repeats no key. -/
theorem distinct_of_filled (h : Filled m p l n) (hlen : n ≤ l.length)
    (hl : l.Pairwise fun a b => a.1 ≠ invalidKey → a.1 < b.1) : Distinct m p := by
  -- two slots that were written have keys in the order of the list
  have hlt : ∀ i j, i < j → j < n → m (p, .key i) = m (p, .key j) →
      m (p, .key i) ≠ invalidKey → i < kvsPerEntry → j < kvsPerEntry → False := by
    intro i j hij hj heq hne hi' hj'
    have h1 := (h i hi').1
    have h2 := (h j hj').1
    rw [if_pos (by omega), List.getD_eq_getElem _ _ (by omega)] at h1
    rw [if_pos hj, List.getD_eq_getElem _ _ (by omega)] at h2
    have := List.pairwise_iff_getElem.mp hl i j (by omega) (by omega) hij
    rw [← h1, ← h2, heq] at this
    exact lt_irrefl _ (this (heq ▸ hne))
  -- and a slot with a proper key was written
  have hocc : ∀ i < kvsPerEntry, m (p, .key i) ≠ invalidKey → i < n := by
    intro i hi hne
    by_contra hin
    exact hne (by rw [(h i hi).1, if_neg hin])
  intro i hi j hj heq hne
  rcases lt_trichotomy i j with hij | hij | hij
  · exact absurd heq fun heq => hlt i j hij (hocc j hj (by rwa [← heq])) heq hne hi hj
  · exact hij
  · exact absurd heq fun heq => hlt j i hij (hocc i hi hne) heq.symm (heq ▸ hne) hj hi

/-- An entry filled with fewer than fourteen pairs has room. -/
theorem not_full_of_filled (h : Filled m p l n) (hn : n < kvsPerEntry) : ¬ Full m p := by
  intro hf
  refine hf n hn ?_
  rw [(h n hn).1, if_neg (lt_irrefl n)]

/-- Slots filled with proper keys are occupied. -/
theorem ne_invalid_of_filled (h : Filled m p l n) (hn : n ≤ kvsPerEntry) (hlen : n ≤ l.length)
    (hl : ∀ x ∈ l, x.1 ≠ invalidKey) (hi : i < n) : m (p, .key i) ≠ invalidKey := by
  rw [(h i (by omega)).1, if_pos hi, List.getD_eq_getElem _ _ (by omega)]
  exact hl _ (List.getElem_mem _)

/-- In an entry filled with proper keys the first empty slot is the first one
that was not written. -/
theorem findSlot_of_filled (h : Filled m p l n) (hn : n < kvsPerEntry) (hlen : n ≤ l.length)
    (hl : ∀ x ∈ l, x.1 ≠ invalidKey) : findSlot m p invalidKey = some n := by
  rcases findSlot_isSome (not_full_iff.mp (not_full_of_filled h hn)) with ⟨i, hf⟩
  rcases findSlot_some hf with ⟨hi, hki, hfirst⟩
  rcases lt_trichotomy i n with hin | hin | hin
  -- before `n` every slot has a proper key
  · have h1 := (h i hi).1
    rw [if_pos hin, List.getD_eq_getElem _ _ (by omega), hki] at h1
    exact absurd h1.symm (hl _ (List.getElem_mem _))
  · rw [hf, hin]
  · refine absurd ?_ (hfirst n hin)
    rw [(h n hn).1, if_neg (lt_irrefl n)]

end Filled

/-! ## Counting keys below a separator -/

/-- How many slots of `p` have a key below `s`. -/
def countBelow (m : Mem) (p s : Nat) : Nat :=
  (List.range kvsPerEntry).countP fun i => m (p, .key i) < s

/-- Counting over the slots or over the sorted copy is the same. -/
theorem countBelow_eq (m : Mem) (p s : Nat) :
    countBelow m p s = (sortedKVs m p).countP fun x => x.1 < s := by
  rw [(sortedKVs_perm m p).countP_eq, kvs, List.countP_map]
  rfl

/-- The median is at or above `s` exactly when at most half of the keys are
below `s`. -/
theorem le_medianKey_iff (m : Mem) (p s : Nat) :
    s ≤ medianKey m p ↔ countBelow m p s ≤ kvsPerEntry / 2 := by
  have hsplit : countBelow m p s = (lowerKVs m p).countP (fun x => x.1 < s)
      + (upperKVs m p).countP (fun x => x.1 < s) := by
    rw [countBelow_eq, ← lower_append_upper, List.countP_append]
  have hlen := length_lowerKVs m p
  constructor
  -- only pairs of the lower half can be below `s`
  · intro hle
    have hup : (upperKVs m p).countP (fun x => decide (x.1 < s)) = 0 := by
      rw [List.countP_eq_zero]
      intro x hx
      have := median_le_of_mem_upper hx
      simp only [decide_eq_true_eq]
      omega
    have hlow := List.countP_le_length (p := fun x : KV => decide (x.1 < s)) (l := lowerKVs m p)
    omega
  -- otherwise the whole lower half and the median itself are below `s`
  · intro hcount
    by_contra hlt
    have hlow : (lowerKVs m p).countP (fun x => decide (x.1 < s)) = (lowerKVs m p).length := by
      rw [List.countP_eq_length]
      intro x hx
      have := le_median_of_mem_lower hx
      simp only [decide_eq_true_eq]
      omega
    have hup : 0 < (upperKVs m p).countP (fun x => decide (x.1 < s)) := by
      rw [List.countP_pos_iff]
      rcases upperKVs_eq_cons m p with ⟨rest, hu⟩
      refine ⟨_, by rw [hu]; exact List.mem_cons_self, ?_⟩
      simp only [decide_eq_true_eq]
      omega
    omega

end Epli.Entry
