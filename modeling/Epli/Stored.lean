import Epli.Shape

/-!
# The pairs stored in the list

`Stored` reads the pairs off the list alone, so that it also applies to the
image a crash leaves behind. As long as a client inserts only keys that are not
stored, no key is ever stored twice (`Unique`), and `Insert` adds exactly one
pair: this does not depend on the separators, and holds even in states where
the index routes keys to the wrong entry.
-/

namespace Epli

open Lib Entry

/-- The pair `(k, v)` is in an entry reachable from `head` through `next`. -/
def Stored (m : Mem) (head k v : Nat) : Prop :=
  ∃ a, Reaches (nextOf m) null head a ∧ Holds m a k v

/-- No key is stored twice in the entries `as`. -/
structure Unique (m : Mem) (as : List Nat) : Prop where
  distinct : ∀ a ∈ as, Distinct m a
  disjoint : ∀ a ∈ as, ∀ b ∈ as, a ≠ b → ∀ k, k ≠ invalidKey → HasKey m a k → ¬ HasKey m b k

variable {m m' : Mem} {as : List Nat} {head p q a k v k' v' i : Nat}

/-- What is stored is what the entries of the list hold. -/
theorem stored_iff (h : Walk (nextOf m) null head as) :
    Stored m head k v ↔ ∃ a ∈ as, Holds m a k v := by
  constructor
  · rintro ⟨a, hr, hh⟩
    exact ⟨a, (reaches_iff_mem h).mp hr, hh⟩
  · rintro ⟨a, ha, hh⟩
    exact ⟨a, (reaches_iff_mem h).mpr ha, hh⟩

/-! ## Changing one entry -/

/-- `m'` differs from `m` at most in the slots of the entry `p`. -/
structure SlotsOnly (m m' : Mem) (p : Nat) : Prop where
  other : ∀ a fld, a ≠ p → m' (a, fld) = m (a, fld)
  own_next : m' (p, .next) = m (p, .next)
  own_minKey : m' (p, .minKey) = m (p, .minKey)

theorem SlotsOnly.next (h : SlotsOnly m m' p) (a : Nat) : m' (a, .next) = m (a, .next) := by
  by_cases hap : a = p
  · rw [hap, h.own_next]
  · exact h.other a .next hap

theorem SlotsOnly.minKey (h : SlotsOnly m m' p) (a : Nat) :
    m' (a, .minKey) = m (a, .minKey) := by
  by_cases hap : a = p
  · rw [hap, h.own_minKey]
  · exact h.other a .minKey hap

/-- The list is the same before and after a change of slots. -/
theorem SlotsOnly.walk (h : SlotsOnly m m' p) (hw : Walk (nextOf m) null head as) :
    Walk (nextOf m') null head as :=
  walk_congr (fun a _ => h.next a) hw

/-- Other entries hold what they held. -/
theorem SlotsOnly.holds (h : SlotsOnly m m' p) (ha : a ≠ p) :
    Holds m' a k v ↔ Holds m a k v :=
  holds_congr (fun _ => h.other a _ ha) (fun _ => h.other a _ ha)

/-- Other entries have the keys they had. -/
theorem SlotsOnly.hasKey (h : SlotsOnly m m' p) (ha : a ≠ p) :
    HasKey m' a k ↔ HasKey m a k := by
  simp only [HasKey, h.other a _ ha]

/-- `put_at_pos` changes slots of one entry only. -/
theorem slotsOnly_putSlot : SlotsOnly m (putSlot m p i k v) p := by
  refine ⟨?_, by simp, by simp⟩
  intro a fld ha
  simp [putSlot, setLoc, ha]

theorem slotsOnly_setVal : SlotsOnly m (setLoc m (p, .val i) v) p := by
  refine ⟨?_, by simp [setLoc], by simp [setLoc]⟩
  intro a fld ha
  simp [setLoc, ha]

theorem slotsOnly_clearKey : SlotsOnly m (setLoc m (p, .key i) v) p := by
  refine ⟨?_, by simp [setLoc], by simp [setLoc]⟩
  intro a fld ha
  simp [setLoc, ha]

/-- `Update` moves no entry in the list. -/
theorem exec_update_next (m : Mem) (p k v a : Nat) :
    exec m (update m p k v).2 (a, .next) = m (a, .next) := by
  unfold update
  cases findSlot m p k with
  | none => rfl
  | some i => exact slotsOnly_setVal.next a

theorem exec_remove_next (m : Mem) (p k a : Nat) :
    exec m (remove m p k).2 (a, .next) = m (a, .next) := by
  unfold remove
  cases findSlot m p k with
  | none => rfl
  | some i => exact slotsOnly_clearKey.next a

/-- Uniqueness survives a change of one entry that adds no key of another. -/
theorem Unique.slotsOnly (hu : Unique m as) (h : SlotsOnly m m' p)
    (hd : p ∈ as → Distinct m' p)
    (hkeys : ∀ k, k ≠ invalidKey → HasKey m' p k →
      HasKey m p k ∨ ∀ a ∈ as, a ≠ p → ¬ HasKey m a k) : Unique m' as := by
  constructor
  · intro a ha
    by_cases hap : a = p
    · subst hap
      exact hd ha
    · rw [distinct_congr (fun _ => h.other a _ hap)]
      exact hu.distinct a ha
  · intro a ha b hb hab k hk hka hkb
    -- two entries with a common key: at most one of them is `p`
    by_cases hap : a = p
    · subst hap
      have hba : b ≠ a := fun e => hab e.symm
      rw [h.hasKey hba] at hkb
      rcases hkeys k hk hka with hold | hnew
      · exact hu.disjoint a ha b hb hab k hk hold hkb
      · exact hnew b hb hba hkb
    · rw [h.hasKey hap] at hka
      by_cases hbp : b = p
      · subst hbp
        rcases hkeys k hk hkb with hold | hnew
        · exact hu.disjoint a ha b hb hab k hk hka hold
        · exact hnew a ha hap hka
      · rw [h.hasKey hbp] at hkb
        exact hu.disjoint a ha b hb hab k hk hka hkb

/-- The stored pairs after a change of one entry. -/
theorem stored_slotsOnly (hw : Walk (nextOf m) null head as) (h : SlotsOnly m m' p)
    (hp : p ∈ as) : Stored m' head k v ↔
      (∃ a ∈ as, a ≠ p ∧ Holds m a k v) ∨ Holds m' p k v := by
  rw [stored_iff (h.walk hw)]
  constructor
  · rintro ⟨a, ha, hh⟩
    by_cases hap : a = p
    · subst hap
      exact Or.inr hh
    · exact Or.inl ⟨a, ha, hap, (h.holds hap).mp hh⟩
  · rintro (⟨a, ha, hap, hh⟩ | hh)
    · exact ⟨a, ha, (h.holds hap).mpr hh⟩
    · exact ⟨p, hp, hh⟩

/-- Filling an empty slot stores one more pair. -/
theorem stored_putSlot (hw : Walk (nextOf m) null head as) (hp : p ∈ as)
    (hi : i < kvsPerEntry) (he : m (p, .key i) = invalidKey) (hk' : k' ≠ invalidKey) :
    Stored (putSlot m p i k v) head k' v' ↔ Stored m head k' v' ∨ (k' = k ∧ v' = v) := by
  rw [stored_slotsOnly hw slotsOnly_putSlot hp, holds_putSlot hi he hk', stored_iff hw]
  constructor
  · rintro (⟨a, ha, _, hh⟩ | hh | hnew)
    · exact Or.inl ⟨a, ha, hh⟩
    · exact Or.inl ⟨p, hp, hh⟩
    · exact Or.inr hnew
  · rintro (⟨a, ha, hh⟩ | hnew)
    · by_cases hap : a = p
      · subst hap
        exact Or.inr (Or.inl hh)
      · exact Or.inl ⟨a, ha, hap, hh⟩
    · exact Or.inr (Or.inr hnew)

/-- A put brings in no key but its own. -/
theorem hasKey_putSlot (h : HasKey (putSlot m p i k v) p k') : HasKey m p k' ∨ k' = k := by
  rcases h with ⟨j, hj, hkj⟩
  rw [putSlot_key] at hkj
  split at hkj
  · exact Or.inr hkj.symm
  · exact Or.inl ⟨j, hj, hkj⟩

/-- A key that is not stored may go to any slot, empty or not. -/
theorem unique_putSlot (hu : Unique m as) (hw : Walk (nextOf m) null head as) (hp : p ∈ as)
    (hnew : ∀ v, ¬ Stored m head k v) : Unique (putSlot m p i k v) as := by
  have hfresh : ∀ a ∈ as, ¬ HasKey m a k := by
    intro a ha hk
    rcases hk.exists_holds with ⟨w, hw'⟩
    exact hnew w ((stored_iff hw).mpr ⟨a, ha, hw'⟩)
  refine hu.slotsOnly slotsOnly_putSlot (fun _ => distinct_putSlot (hu.distinct p hp)
    (hfresh p hp)) ?_
  intro k' _ hhas
  rcases hasKey_putSlot hhas with hold | rfl
  · exact Or.inl hold
  · exact Or.inr fun a ha _ => hfresh a ha

/-- Overwriting the value of a stored key rebinds it. -/
theorem stored_setVal (hu : Unique m as) (hw : Walk (nextOf m) null head as) (hp : p ∈ as)
    (hi : i < kvsPerEntry) (hki : m (p, .key i) = k) (hk : k ≠ invalidKey) :
    Stored (setLoc m (p, .val i) v) head k' v' ↔
      (k' ≠ k ∧ Stored m head k' v') ∨ (k' = k ∧ v' = v) := by
  have hhas : HasKey m p k := ⟨i, hi, hki⟩
  rw [stored_slotsOnly hw slotsOnly_setVal hp, holds_setVal (hu.distinct p hp) hi hki hk,
    stored_iff hw]
  constructor
  · rintro (⟨a, ha, hap, hh⟩ | ⟨hne, hh⟩ | hnew)
    · refine Or.inl ⟨?_, a, ha, hh⟩
      rintro rfl
      exact hu.disjoint a ha p hp hap k' hk hh.hasKey hhas
    · exact Or.inl ⟨hne, p, hp, hh⟩
    · exact Or.inr hnew
  · rintro (⟨hne, a, ha, hh⟩ | hnew)
    · by_cases hap : a = p
      · subst hap
        exact Or.inr (Or.inl ⟨hne, hh⟩)
      · exact Or.inl ⟨a, ha, hap, hh⟩
    · exact Or.inr (Or.inr hnew)

/-- Storing a value keeps every key in one entry. -/
theorem unique_setVal (hu : Unique m as) : Unique (setLoc m (p, .val i) v) as := by
  have hkey : ∀ j, setLoc m (p, .val i) v (p, .key j) = m (p, .key j) := fun j => by simp [setLoc]
  refine hu.slotsOnly slotsOnly_setVal ?_ ?_
  · intro hp
    rw [distinct_congr hkey]
    exact hu.distinct p hp
  · rintro k' _ ⟨j, hj, hkj⟩
    exact Or.inl ⟨j, hj, by rw [← hkj, hkey]⟩

/-- Clearing the key of a stored pair unbinds it. -/
theorem stored_clearKey (hu : Unique m as) (hw : Walk (nextOf m) null head as) (hp : p ∈ as)
    (hi : i < kvsPerEntry) (hki : m (p, .key i) = k) (hk : k ≠ invalidKey)
    (hk' : k' ≠ invalidKey) :
    Stored (setLoc m (p, .key i) invalidKey) head k' v' ↔ k' ≠ k ∧ Stored m head k' v' := by
  have hhas : HasKey m p k := ⟨i, hi, hki⟩
  rw [stored_slotsOnly hw slotsOnly_clearKey hp,
    holds_clearKey (hu.distinct p hp) hi hki hk hk', stored_iff hw]
  constructor
  · rintro (⟨a, ha, hap, hh⟩ | ⟨hne, hh⟩)
    · refine ⟨?_, a, ha, hh⟩
      rintro rfl
      exact hu.disjoint a ha p hp hap k' hk hh.hasKey hhas
    · exact ⟨hne, p, hp, hh⟩
  · rintro ⟨hne, a, ha, hh⟩
    by_cases hap : a = p
    · subst hap
      exact Or.inr ⟨hne, hh⟩
    · exact Or.inl ⟨a, ha, hap, hh⟩

/-- Clearing a key brings none in. -/
theorem hasKey_clearKey (hk' : k' ≠ invalidKey)
    (h : HasKey (setLoc m (p, .key i) invalidKey) p k') : HasKey m p k' := by
  rcases h with ⟨j, hj, hkj⟩
  by_cases hji : j = i
  · subst hji
    rw [setLoc_self] at hkj
    exact absurd hkj.symm hk'
  · rw [setLoc_ne _ _ (by simp [hji])] at hkj
    exact ⟨j, hj, hkj⟩

/-- Clearing a key leaves every other one in one entry. -/
theorem unique_clearKey (hu : Unique m as) : Unique (setLoc m (p, .key i) invalidKey) as :=
  hu.slotsOnly slotsOnly_clearKey (fun hp => distinct_clearKey (hu.distinct p hp))
    fun _ hk' h => Or.inl (hasKey_clearKey hk' h)

/-! ## Splitting an entry -/

namespace Tree.SplitEffect

/-- After a split the old entry holds the lower half. -/
theorem holds_old (h : SplitEffect m m' p q) (hk : k ≠ invalidKey) :
    Holds m' p k v ↔ (k, v) ∈ lowerKVs m p :=
  holds_of_filled h.old_filled (by decide) (by rw [length_sortedKVs]; decide) hk

/-- After a split the new entry holds the upper half. -/
theorem holds_new (h : SplitEffect m m' p q) (hk : k ≠ invalidKey) :
    Holds m' q k v ↔ (k, v) ∈ upperKVs m p := by
  rw [holds_of_filled h.new_filled (by decide) (by rw [length_upperKVs]) hk,
    List.take_of_length_le (by rw [length_upperKVs])]

/-- The two halves hold what the full entry held. -/
theorem holds_or (h : SplitEffect m m' p q) (hk : k ≠ invalidKey) :
    Holds m' p k v ∨ Holds m' q k v ↔ Holds m p k v := by
  rw [h.holds_old hk, h.holds_new hk, ← List.mem_append, lower_append_upper, mem_sortedKVs]

/-- The keys of the old entry were its own before the split. -/
theorem hasKey_old (h : SplitEffect m m' p q) (hk : k ≠ invalidKey) (hh : HasKey m' p k) :
    HasKey m p k := by
  rcases hh.exists_holds with ⟨w, hw⟩
  exact ((h.holds_or hk).mp (Or.inl hw)).hasKey

/-- The keys of the new entry came from the old one. -/
theorem hasKey_new (h : SplitEffect m m' p q) (hk : k ≠ invalidKey) (hh : HasKey m' q k) :
    HasKey m p k := by
  rcases hh.exists_holds with ⟨w, hw⟩
  exact ((h.holds_or hk).mp (Or.inr hw)).hasKey

/-- The keys left in the old entry are below the median. -/
theorem lt_median (h : SplitEffect m m' p q) (hd : Distinct m p)
    (hk : k ≠ invalidKey) (hh : HasKey m' p k) : k < medianKey m p := by
  rcases hh.exists_holds with ⟨w, hw⟩
  exact lt_median_of_mem_lower hd ((h.holds_old hk).mp hw) hk

/-- With copies of one key, the old entry may keep the median itself. -/
theorem le_median (h : SplitEffect m m' p q) (hk : k ≠ invalidKey) (hh : HasKey m' p k) :
    k ≤ medianKey m p := by
  rcases hh.exists_holds with ⟨w, hw⟩
  exact le_median_of_mem_lower ((h.holds_old hk).mp hw)

/-- The keys moved to the new entry are at or above the median. -/
theorem median_le (h : SplitEffect m m' p q) (hk : k ≠ invalidKey) (hh : HasKey m' q k) :
    medianKey m p ≤ k := by
  rcases hh.exists_holds with ⟨w, hw⟩
  exact median_le_of_mem_upper ((h.holds_new hk).mp hw)

/-- The lower half repeats no key when the entry did not. -/
theorem distinct_old (h : SplitEffect m m' p q) (hd : Distinct m p) : Distinct m' p :=
  distinct_of_filled h.old_filled (by rw [length_sortedKVs]; decide) (sortedKVs_proper hd)

/-- The upper half repeats no key when the entry did not. -/
theorem distinct_new (h : SplitEffect m m' p q) (hd : Distinct m p) : Distinct m' q :=
  distinct_of_filled h.new_filled (by rw [length_upperKVs]) (sortedKVs_proper hd).drop

/-- Seven slots of the old entry are empty after a split. -/
theorem room_old (h : SplitEffect m m' p q) : ¬ Full m' p :=
  not_full_of_filled h.old_filled (by decide)

/-- Seven slots of the new entry are empty after a split. -/
theorem room_new (h : SplitEffect m m' p q) : ¬ Full m' q :=
  not_full_of_filled h.new_filled (by decide)

/-- A split leaves what the other entries hold. -/
theorem holds_other (h : SplitEffect m m' p q) (hap : a ≠ p) (haq : a ≠ q) :
    Holds m' a k v ↔ Holds m a k v :=
  holds_congr (fun _ => h.other a _ hap haq) (fun _ => h.other a _ hap haq)

theorem hasKey_other (h : SplitEffect m m' p q) (hap : a ≠ p) (haq : a ≠ q) :
    HasKey m' a k ↔ HasKey m a k := by
  simp only [HasKey, h.other a _ hap haq]

/-- Each key of an entry of the list after the split was a key of an entry
before it: of the entry `p` for the two halves, of the entry itself elsewhere. -/
theorem hasKey_origin (h : SplitEffect m m' p q) (hk : k ≠ invalidKey) (hh : HasKey m' a k) :
    HasKey m (if a = q then p else a) k := by
  by_cases haq : a = q
  · rw [if_pos haq]
    exact h.hasKey_new hk (haq ▸ hh)
  · rw [if_neg haq]
    by_cases hap : a = p
    · rw [hap]
      exact h.hasKey_old hk (hap ▸ hh)
    · exact (h.hasKey_other hap haq).mp hh

variable {pre post : List Nat}

/-- A split stores the same pairs. -/
theorem stored_iff (h : SplitEffect m m' p q)
    (hw : Walk (nextOf m) null head (pre ++ p :: post))
    (hw' : Walk (nextOf m') null head (pre ++ p :: q :: post))
    (hfresh : q ∉ pre ++ p :: post) (hk : k ≠ invalidKey) :
    Stored m' head k v ↔ Stored m head k v := by
  rw [Epli.stored_iff hw, Epli.stored_iff hw']
  have hne : ∀ a ∈ pre ++ p :: post, a ≠ q := by
    rintro a ha rfl
    exact hfresh ha
  constructor
  · rintro ⟨a, ha, hh⟩
    -- a pair of the new entry was in the old one before
    by_cases haq : a = q
    · subst haq
      exact ⟨p, by simp, (h.holds_or hk).mp (Or.inr hh)⟩
    · have ha' : a ∈ pre ++ p :: post := mem_of_mem_link ha haq
      by_cases hap : a = p
      · subst hap
        exact ⟨a, ha', (h.holds_or hk).mp (Or.inl hh)⟩
      · exact ⟨a, ha', (h.holds_other hap haq).mp hh⟩
  · rintro ⟨a, ha, hh⟩
    by_cases hap : a = p
    · subst hap
      -- and a pair of the old entry is in one of the halves
      rcases (h.holds_or hk).mpr hh with hh | hh
      · exact ⟨a, by simp, hh⟩
      · exact ⟨q, by simp, hh⟩
    · refine ⟨a, ?_, (h.holds_other hap (hne a ha)).mpr hh⟩
      simp only [List.mem_append, List.mem_cons] at ha ⊢
      tauto

/-- A split does not store any key twice. -/
theorem unique (h : SplitEffect m m' p q) (hu : Unique m (pre ++ p :: post))
    (hfresh : q ∉ pre ++ p :: post) : Unique m' (pre ++ p :: q :: post) := by
  have hp : p ∈ pre ++ p :: post := by simp
  have hd := hu.distinct p hp
  have hmem : ∀ a ∈ pre ++ p :: q :: post, (if a = q then p else a) ∈ pre ++ p :: post := by
    intro a ha
    by_cases haq : a = q
    · rw [if_pos haq]
      exact hp
    · rw [if_neg haq]
      exact mem_of_mem_link ha haq
  constructor
  · intro a ha
    by_cases haq : a = q
    · subst haq
      exact h.distinct_new hd
    · by_cases hap : a = p
      · subst hap
        exact h.distinct_old hd
      · rw [distinct_congr (fun _ => h.other a _ hap haq)]
        have := hmem a ha
        rw [if_neg haq] at this
        exact hu.distinct a this
  · intro a ha b hb hab k hk hka hkb
    have hka' := h.hasKey_origin hk hka
    have hkb' := h.hasKey_origin hk hkb
    by_cases horig : (if a = q then p else a) = (if b = q then p else b)
    · -- both keys come from `p`: the halves are separated by the median
      by_cases haq : a = q <;> by_cases hbq : b = q
      · exact hab (haq.trans hbq.symm)
      · rw [if_pos haq, if_neg hbq] at horig
        have hlt := h.lt_median hd hk (horig ▸ hkb)
        have hle := h.median_le hk (haq ▸ hka)
        omega
      · rw [if_neg haq, if_pos hbq] at horig
        have hlt := h.lt_median hd hk (horig ▸ hka)
        have hle := h.median_le hk (hbq ▸ hkb)
        omega
      · rw [if_neg haq, if_neg hbq] at horig
        exact hab horig
    · exact hu.disjoint _ (hmem a ha) _ (hmem b hb) horig k hk hka' hkb'

end Tree.SplitEffect

end Epli
