import Mathlib.Data.Fintype.Defs
import Epli.Client

/-!
# Inserting live keys again

`Insert` does not look for its key, so a client that inserts a live key stores a second
pair of it, and copies of one key may end up on both sides of a split. A later split can
then choose a separator that the index already holds. Its entry is found instead of the
one under the old separator, together with everything that was in it.

What every tree built by `Insert`s still has is `Ranged`: an entry that the index leads
to has keys from its separator up to and including the next one.
-/

namespace Epli

open Lib Entry

/-! ## What `Get` finds in the halves -/

variable {m m' : Mem} {p q i k k' v : Nat}

namespace Tree.SplitEffect

/-- The keys below the median are found in the old entry as before. -/
theorem get_old (h : SplitEffect m m' p q) (hk : k ≠ invalidKey) (hlt : k < medianKey m p) :
    Entry.get m' p k = Entry.get m p k := by
  have hnone : (upperKVs m p).lookup k = none := by
    rw [List.lookup_eq_none_iff]
    intro x hx
    have := median_le_of_mem_upper hx
    exact bne_iff_ne.mpr (by omega)
  have hlower : Entry.get m' p k = (lowerKVs m p).lookup k :=
    get_of_filled h.old_filled (by decide) (by rw [length_sortedKVs]; decide) hk
  rw [hlower, get_eq_lookup m, ← lookup_sortedKVs, ← lower_append_upper, List.lookup_append,
    hnone, Option.or_none]

/-- The keys above the median are found in the new entry as before. -/
theorem get_new (h : SplitEffect m m' p q) (hk : k ≠ invalidKey) (hlt : medianKey m p < k) :
    Entry.get m' q k = Entry.get m p k := by
  have hnone : (lowerKVs m p).lookup k = none := by
    rw [List.lookup_eq_none_iff]
    intro x hx
    have := le_median_of_mem_lower hx
    exact bne_iff_ne.mpr (by omega)
  rw [get_of_filled h.new_filled (by decide) (by rw [length_upperKVs]) hk,
    List.take_of_length_le (by rw [length_upperKVs]), get_eq_lookup m, ← lookup_sortedKVs,
    ← lower_append_upper, List.lookup_append, hnone, Option.none_or]

/-- The median is found with the value it is sorted with, which need not be the one that
was found before. -/
theorem get_median (h : SplitEffect m m' p q) (hk : medianKey m p ≠ invalidKey) :
    Entry.get m' q (medianKey m p) = some (medianVal m p) := by
  obtain ⟨rest, hu⟩ := upperKVs_eq_cons m p
  rw [get_of_filled h.new_filled (by decide) (by rw [length_upperKVs]) hk,
    List.take_of_length_le (by rw [length_upperKVs]), hu, List.lookup_cons_self]

end Tree.SplitEffect

namespace Tree

variable {t t' : Tree} {s : Nat}

/-! ## The ranges of the entries -/

/-- `INVALID_KEY` is a separator, and an entry that the index leads to has keys from its
separator up to and including the next one. -/
structure Ranged (t : Tree) : Prop where
  shape : ∃ as, Shape t as
  zero : ∃ p, (0, p) ∈ t.index.kvs
  range : ∀ k s p, t.index.floor k = some (s, p) → ∀ y, ProperKey t.mem p y →
    ValidKey y ∧ s ≤ y ∧ ∀ x ∈ t.index.kvs, s < x.1 → y ≤ x.1

theorem ranged_create (f : Mapping) (pm : Pmem Loc Nat) : Ranged (create false f pm) := by
  have h := sound_create f pm
  have hhead : (create false f pm).head = f.addr := by rw [create_eq]
  refine ⟨⟨_, h.shape⟩, ⟨_, by rw [h.index]; exact List.mem_singleton_self _⟩, ?_⟩
  intro k s p hfl y hy
  -- the head is the only entry, and it is empty
  have hmem := Multimap.floor_mem hfl
  rw [h.index, List.mem_singleton, hhead] at hmem
  cases hmem
  exact absurd hy (create_not_proper f pm y)

namespace Ranged

theorem index_ne (h : Ranged t) : t.index.kvs ≠ [] := by
  obtain ⟨p, hz⟩ := h.zero
  exact List.ne_nil_of_mem hz

theorem sep_le (h : Ranged t) (hfl : t.index.floor k = some (s, p)) : s ≤ k := by
  obtain ⟨p₀, hz⟩ := h.zero
  exact (Multimap.le_floor_of_mem hfl hz (Nat.zero_le k)).2

/-- Of the entries under one separator the index leads to the last one. -/
theorem floor_unique (h : Ranged t) (hfl : t.index.floor k = some (s, p))
    (hfl' : t.index.floor k' = some (s, q)) : p = q := by
  have h₁ := Multimap.floor_floor hfl (h.sep_le hfl)
  have h₂ := Multimap.floor_floor hfl' (h.sep_le hfl')
  cases h₁.symm.trans h₂
  rfl

/-- A put of a key where it is looked up. -/
theorem put (h : Ranged t) (hk : ValidKey k) (hfl : t.index.floor k = some (s, p)) (i v : Nat) :
    Ranged (t.run (putAtPos p i k v)) := by
  obtain ⟨as, hsh⟩ := h.shape
  refine ⟨⟨as, hsh.run _ ?_⟩, h.zero, ?_⟩
  · intro a _
    rw [exec_putAtPos]
    exact slotsOnly_putSlot.next a
  · intro k' s' p' hfl' y hy
    rw [run_mem, exec_putAtPos] at hy
    by_cases hpp : p' = p
    · cases hsh.payload_inj (Multimap.floor_mem hfl') (Multimap.floor_mem hfl) hpp
      rcases hasKey_putSlot hy.2 with hold | rfl
      · exact h.range k' s p hfl' y ⟨hy.1, hold⟩
      · exact ⟨hk, h.sep_le hfl, fun x hx hlt => (Multimap.lt_of_floor_lt hfl hx hlt).le⟩
    · exact h.range k' s' p' hfl' y ⟨hy.1, (slotsOnly_putSlot.hasKey hpp).mp hy.2⟩

/-- The median of a full entry that the index leads to. -/
theorem median (h : Ranged t) (hfl : t.index.floor k = some (s, p)) (hf : Full t.mem p) :
    ValidKey (medianKey t.mem p) ∧ s ≤ medianKey t.mem p ∧
      ∀ x ∈ t.index.kvs, s < x.1 → medianKey t.mem p ≤ x.1 :=
  h.range k s p hfl _ ⟨hf.ne_invalid (medianKey_hasKey t.mem p), medianKey_hasKey t.mem p⟩

/-- The separators keys are looked up under after a split. -/
theorem floor_split (h : Ranged t) (p : Nat) {a pa : Nat}
    (hfl : t.index.floor k = some (a, pa)) : (t.splitEntry p).2.index.floor k =
      if a ≤ medianKey t.mem p ∧ medianKey t.mem p ≤ k
      then some (medianKey t.mem p, t.alloc.currentAddr) else some (a, pa) := by
  obtain ⟨as, hsh⟩ := h.shape
  have hle := h.sep_le hfl
  rw [splitEntry_index hsh, Multimap.floor_insert hfl]
  have hiff : (a ≤ medianKey t.mem p ∧ medianKey t.mem p ≤ k ∨
      k < a ∧ medianKey t.mem p < a) ↔ a ≤ medianKey t.mem p ∧ medianKey t.mem p ≤ k := by
    omega
  exact if_congr hiff rfl rfl

/-- An entry other than the one that is split is found under a separator that is below
the one of the split, or not below the median. -/
theorem sep_cases (h : Ranged t) (hfl : t.index.floor k = some (s, p)) (hf : Full t.mem p)
    {a pa : Nat} (hfl' : t.index.floor k' = some (a, pa)) (hne : pa ≠ p) :
    a < s ∨ medianKey t.mem p ≤ a := by
  rcases lt_trichotomy a s with hlt | rfl | hlt
  · exact Or.inl hlt
  · exact absurd (h.floor_unique hfl' hfl) hne
  · exact Or.inr ((h.median hfl hf).2.2 _ (Multimap.floor_mem hfl') hlt)

theorem split (h : Ranged t) (hfl : t.index.floor k = some (s, p)) (hf : Full t.mem p) :
    Ranged (t.splitEntry p).2 := by
  obtain ⟨as, hsh⟩ := h.shape
  have hp : p ∈ as := hsh.lookup_mem (lookup_of_floor hfl)
  have heff := splitEntry_mem hsh hp
  obtain ⟨hvalid, hsm, hnext⟩ := h.median hfl hf
  have hindex : ∀ x ∈ (t.splitEntry p).2.index.kvs,
      x = (medianKey t.mem p, t.alloc.currentAddr) ∨ x ∈ t.index.kvs := by
    rw [splitEntry_index hsh]
    exact fun x hx => Multimap.mem_insert.mp hx
  refine ⟨?_, ?_, ?_⟩
  · obtain ⟨pre, post, rfl⟩ := List.append_of_mem hp
    exact ⟨_, shape_splitEntry hsh⟩
  · obtain ⟨p₀, hz⟩ := h.zero
    refine ⟨p₀, ?_⟩
    rw [splitEntry_index hsh]
    exact Multimap.mem_insert.mpr (Or.inr hz)
  · intro k' s' p' hfl' y hy
    obtain ⟨a, pa, hold, hpa⟩ := hsh.exists_floor h.index_ne k'
    rw [h.floor_split p hold] at hfl'
    split at hfl'
    case isTrue =>
      -- the new entry: its keys come from the entry that is split
      cases hfl'
      obtain ⟨hvy, _, hny⟩ := h.range k s p hfl y ⟨hy.1, heff.hasKey_new hy.1 hy.2⟩
      refine ⟨hvy, heff.median_le hy.1 hy.2, ?_⟩
      intro x hx hlt
      rcases hindex x hx with rfl | hx
      · exact absurd hlt (lt_irrefl _)
      · exact hny x hx (lt_of_le_of_lt hsm hlt)
    case isFalse hcond =>
      cases hfl'
      by_cases hpp : p' = p
      · -- the old entry keeps keys up to the median
        cases hsh.payload_inj (Multimap.floor_mem hold) (Multimap.floor_mem hfl) hpp
        obtain ⟨hvy, hsy, hny⟩ := h.range k' s p hold y ⟨hy.1, heff.hasKey_old hy.1 hy.2⟩
        refine ⟨hvy, hsy, ?_⟩
        intro x hx hlt
        rcases hindex x hx with rfl | hx
        · exact heff.le_median hy.1 hy.2
        · exact hny x hx hlt
      · -- another entry: the median is not below the keys of entries to the left
        have hpq : p' ≠ t.alloc.currentAddr := fun heq => hsh.cursor_fresh (heq ▸ hpa)
        obtain ⟨hvy, hsy, hny⟩ :=
          h.range k' s' p' hold y ⟨hy.1, (heff.hasKey_other hpp hpq).mp hy.2⟩
        refine ⟨hvy, hsy, ?_⟩
        intro x hx hlt
        rcases hindex x hx with rfl | hx
        · rcases h.sep_cases hfl hf hold hpp with has | hma
          · exact (hny _ (Multimap.floor_mem hfl) has).trans hsm
          · exact absurd hlt (not_lt.mpr hma)
        · exact hny x hx hlt

/-! ## What a split does to `Get` -/

/-- The median is found with its own value. -/
theorem get_median (h : Ranged t) (hfl : t.index.floor k = some (s, p)) (hf : Full t.mem p) :
    (t.splitEntry p).2.get (medianKey t.mem p) = some (.ok, medianVal t.mem p) := by
  obtain ⟨as, hsh⟩ := h.shape
  have heff := splitEntry_mem hsh (hsh.lookup_mem (lookup_of_floor hfl))
  obtain ⟨a, pa, hfl', _⟩ := hsh.exists_floor h.index_ne (medianKey t.mem p)
  have hnew := h.floor_split p hfl'
  rw [if_pos ⟨h.sep_le hfl', le_rfl⟩] at hnew
  rw [get_eq_ok_iff (lookup_of_floor hnew)]
  exact heff.get_median (Nat.pos_iff_ne_zero.mp (h.median hfl hf).1.1)

/-- A key whose entry is shadowed by the new one: it was found under the separator that
is inserted again. -/
theorem shadowed (h : Ranged t) (hfl : t.index.floor k = some (s, p)) (hf : Full t.mem p)
    {a pa : Nat} (hfl' : t.index.floor k' = some (a, pa)) (hne : pa ≠ p)
    (hle : medianKey t.mem p ≤ k') (ham : a ≤ medianKey t.mem p) :
    a = medianKey t.mem p ∧ s < a := by
  have hsm := (h.median hfl hf).2.1
  have hsa : s ≤ a := (Multimap.le_floor_of_mem hfl' (Multimap.floor_mem hfl) (hsm.trans hle)).1
  have hsne : s ≠ a := by
    rintro rfl
    exact hne (h.floor_unique hfl' hfl)
  rcases h.sep_cases hfl hf hfl' hne with has | hma
  · omega
  · exact ⟨le_antisymm ham hma, by omega⟩

/-- Every other key of a shadowed entry is lost. -/
theorem get_shadowed (h : Ranged t) (hfl : t.index.floor k = some (s, p)) (hf : Full t.mem p)
    (hk' : k' ≠ invalidKey) {a pa : Nat} (hfl' : t.index.floor k' = some (a, pa)) (hne : pa ≠ p)
    (hlt : medianKey t.mem p < k') (ham : a ≤ medianKey t.mem p) :
    (t.splitEntry p).2.get k' = some (.fail, 0) := by
  obtain ⟨as, hsh⟩ := h.shape
  have heff := splitEntry_mem hsh (hsh.lookup_mem (lookup_of_floor hfl))
  obtain ⟨heq, hsa⟩ := h.shadowed hfl hf hfl' hne hlt.le ham
  have hnew := h.floor_split p hfl'
  rw [if_pos ⟨ham, hlt.le⟩] at hnew
  -- the new entry has only copies of the median
  rw [get_eq_fail_iff (lookup_of_floor hnew), get_eq_none]
  intro hhas
  have hle := (h.range k s p hfl k' ⟨hk', heff.hasKey_new hk' hhas⟩).2.2 _
    (Multimap.floor_mem hfl') hsa
  simp only at hle
  omega

/-- The keys of the entry that is split, apart from the median, and the keys whose
separator stays are found as before. -/
theorem get_split (h : Ranged t) (hfl : t.index.floor k = some (s, p)) (hf : Full t.mem p)
    (hk' : k' ≠ invalidKey) {a pa : Nat} (hfl' : t.index.floor k' = some (a, pa))
    (hwhere : (pa = p ∧ k' ≠ medianKey t.mem p) ∨
      (pa ≠ p ∧ ¬ (a ≤ medianKey t.mem p ∧ medianKey t.mem p ≤ k'))) :
    (t.splitEntry p).2.get k' = t.get k' := by
  obtain ⟨as, hsh⟩ := h.shape
  have hpa := hsh.lookup_mem (lookup_of_floor hfl')
  have heff := splitEntry_mem hsh (hsh.lookup_mem (lookup_of_floor hfl))
  have hnew := h.floor_split p hfl'
  rcases hwhere with ⟨hpp, hkm⟩ | ⟨hpp, hstay⟩
  -- the key is routed to the split entry: it follows its half
  · cases hsh.payload_inj (Multimap.floor_mem hfl') (Multimap.floor_mem hfl) hpp
    by_cases hle : medianKey t.mem p ≤ k'
    · rw [if_pos ⟨(h.median hfl hf).2.1, hle⟩] at hnew
      rw [get_eq_get_iff (lookup_of_floor hfl') (lookup_of_floor hnew)]
      exact heff.get_new hk' (lt_of_le_of_ne hle (Ne.symm hkm))
    · rw [if_neg (fun hc => hle hc.2)] at hnew
      rw [get_eq_get_iff (lookup_of_floor hfl') (lookup_of_floor hnew)]
      exact heff.get_old hk' (not_le.mp hle)
  -- another entry: neither its slots nor its route changes
  · have hpq : pa ≠ t.alloc.currentAddr := fun heq => hsh.cursor_fresh (heq ▸ hpa)
    rw [if_neg hstay] at hnew
    rw [get_eq_get_iff (lookup_of_floor hfl') (lookup_of_floor hnew), get_eq_lookup,
      get_eq_lookup]
    unfold kvs
    simp only [heff.other _ _ hpp hpq]

end Ranged

/-- What an `Insert` of `k` has to find if it splits: the median is `k`, or is found with
the value it will move with; and if the median is looked up in another entry, that
entry has no other keys that are looked up in it. -/
def MedianClean (t : Tree) (k : Nat) : Prop :=
  ∀ s p, t.index.floor k = some (s, p) → Full t.mem p →
    (medianKey t.mem p = k ∨ t.get (medianKey t.mem p) = some (.ok, medianVal t.mem p)) ∧
    ∀ r, t.lookup (medianKey t.mem p) = some r → r ≠ p → ∀ i < kvsPerEntry,
      t.mem (r, .key i) ≠ invalidKey → t.lookup (t.mem (r, .key i)) = some r →
      t.mem (r, .key i) = medianKey t.mem p

instance (t : Tree) (k : Nat) : Decidable (MedianClean t k) :=
  decidable_of_iff (∀ x ∈ t.index.floor k, Full t.mem x.2 →
    (medianKey t.mem x.2 = k ∨
      t.get (medianKey t.mem x.2) = some (.ok, medianVal t.mem x.2)) ∧
    ∀ r ∈ t.lookup (medianKey t.mem x.2), r ≠ x.2 → ∀ i < kvsPerEntry,
      t.mem (r, .key i) ≠ invalidKey → t.lookup (t.mem (r, .key i)) = some r →
      t.mem (r, .key i) = medianKey t.mem x.2) (by simp [MedianClean])

namespace Ranged

/-- A split changes the answer for no key but `k` exactly under the guard. -/
theorem split_frame_iff (h : Ranged t) (hfl : t.index.floor k = some (s, p))
    (hf : Full t.mem p) :
    (∀ k', ValidKey k' → k' ≠ k → (t.splitEntry p).2.get k' = t.get k') ↔
      MedianClean t k := by
  obtain ⟨as, hsh⟩ := h.shape
  have hmed := h.get_median hfl hf
  have hvalid := (h.median hfl hf).1
  constructor
  · intro hframe s' p' hfl' _
    cases hfl.symm.trans hfl'
    constructor
    · by_cases hmk : medianKey t.mem p = k
      · exact Or.inl hmk
      · exact Or.inr ((hframe _ hvalid hmk).symm.trans hmed)
    · intro r hr hne i hi hocc hlookup
      by_contra hym
      obtain ⟨a, pa, hfa, _⟩ := hsh.exists_floor h.index_ne (medianKey t.mem p)
      cases (lookup_of_floor hfa).symm.trans hr
      obtain ⟨ham, hsa⟩ := h.shadowed hfl hf hfa hne le_rfl (h.sep_le hfa)
      -- the key is looked up under the same separator
      obtain ⟨b, pb, hfb, _⟩ := hsh.exists_floor h.index_ne (t.mem (r, .key i))
      cases (lookup_of_floor hfb).symm.trans hlookup
      cases hsh.payload_inj (Multimap.floor_mem hfb) (Multimap.floor_mem hfa) rfl
      have hlt : medianKey t.mem p < t.mem (r, .key i) :=
        lt_of_le_of_ne (ham ▸ h.sep_le hfb) (Ne.symm hym)
      have hlost := h.get_shadowed hfl hf hocc hfb hne hlt ham.le
      have hyk : t.mem (r, .key i) ≠ k := by
        intro heq
        rw [heq, lookup_of_floor hfl] at hlookup
        exact hne (Option.some.inj hlookup).symm
      have hproper : ProperKey t.mem r (t.mem (r, .key i)) := ⟨hocc, i, hi, rfl⟩
      have hsame := hframe _ (h.range _ _ _ hfb _ hproper).1 hyk
      rw [hlost] at hsame
      have hsome := get_eq_none.not.mpr (not_not.mpr hproper.2)
      obtain ⟨w, hw⟩ := Option.ne_none_iff_exists'.mp hsome
      rw [(get_eq_ok_iff hlookup).mpr hw] at hsame
      cases hsame
  · intro hguard k' hk' hne
    have hk0 : k' ≠ invalidKey := Nat.pos_iff_ne_zero.mp hk'.1
    obtain ⟨hval, hclean⟩ := hguard s p hfl hf
    obtain ⟨a, pa, hfl', _⟩ := hsh.exists_floor h.index_ne k'
    by_cases hkm : k' = medianKey t.mem p
    · rw [hkm] at hne ⊢
      exact hmed.trans (hval.resolve_left hne).symm
    · by_cases hpp : pa = p
      · exact h.get_split hfl hf hk0 hfl' (Or.inl ⟨hpp, hkm⟩)
      · by_cases hcond : a ≤ medianKey t.mem p ∧ medianKey t.mem p ≤ k'
        · -- the entry is shadowed, and `k'` was not in it
          obtain ⟨ham, _⟩ := h.shadowed hfl hf hfl' hpp hcond.2 hcond.1
          have hlost := h.get_shadowed hfl hf hk0 hfl' hpp
            (lt_of_le_of_ne hcond.2 (Ne.symm hkm)) hcond.1
          have hfm := Multimap.floor_floor hfl' (h.sep_le hfl')
          simp only [ham] at hfm
          rw [hlost, eq_comm, get_eq_fail_iff (lookup_of_floor hfl'), get_eq_none]
          rintro ⟨i, hi, rfl⟩
          exact hkm (hclean pa (lookup_of_floor hfm) hpp i hi hk0 (lookup_of_floor hfl'))
        · exact h.get_split hfl hf hk0 hfl' (Or.inr ⟨hpp, hcond⟩)

/-- The put at the end of an `Insert` changes the answer for its own key only. -/
theorem get_put (h : Ranged t) (hslot : findSlot t.mem p invalidKey = some i)
    (hk' : k' ≠ invalidKey) (hne : k' ≠ k) (v : Nat) :
    (t.run (putAtPos p i k v)).get k' = t.get k' := by
  obtain ⟨as, hsh⟩ := h.shape
  obtain ⟨a, ha, _⟩ := hsh.exists_lookup k'
  have ha' : (t.run (putAtPos p i k v)).lookup k' = some a := ha
  obtain ⟨_, hempty, _⟩ := findSlot_some hslot
  rw [get_eq_get_iff ha ha', run_mem, exec_putAtPos]
  exact get_putSlot hempty hne hk'

/-- `Insert` in such a tree. -/
theorem insert (h : Ranged t) (hk : ValidKey k) (calls v : Nat) :
    ∃ evs t', t.insert (calls + 2) k v = some (.ok, evs, t') ∧ Ranged t' ∧
      ((∀ k', ValidKey k' → k' ≠ k → t'.get k' = t.get k') ↔ MedianClean t k) := by
  obtain ⟨as, hsh⟩ := h.shape
  obtain ⟨s, p, hfl, _⟩ := hsh.exists_floor h.index_ne k
  obtain ⟨p', i, hp', hslot, hins⟩ := insert_eq hsh (lookup_of_floor hfl) calls v
  refine ⟨_, _, hins, ?_⟩
  -- the tree in which the pair is put, and the answers up to there
  have hroom : Ranged (t.makeRoom p).2 ∧
      ((∀ k', ValidKey k' → k' ≠ k → (t.makeRoom p).2.get k' = t.get k') ↔ MedianClean t k) := by
    by_cases hf : Full t.mem p
    · rw [makeRoom_full hf]
      exact ⟨h.split hfl hf, h.split_frame_iff hfl hf⟩
    · rw [makeRoom_room hf]
      refine ⟨h, iff_of_true (fun _ _ _ => rfl) ?_⟩
      intro s' p' hfl' hf'
      cases hfl.symm.trans hfl'
      exact absurd hf' hf
  obtain ⟨hranged, hiff⟩ := hroom
  obtain ⟨s', hfl'⟩ := floor_of_lookup hranged.index_ne hp'
  refine ⟨hranged.put hk hfl' i v, ?_⟩
  rw [← hiff]
  refine forall_congr' fun k' => forall_congr' fun hk' => forall_congr' fun hne => ?_
  rw [hranged.get_put hslot (Nat.pos_iff_ne_zero.mp hk'.1) hne]

end Ranged

/-! ## Runs of `Insert`s -/

/-- The client inserts keys, live or not. -/
def InsertsOnly : Op → Prop
  | .insert k _ => ValidKey k
  | _ => False

/-- An `Insert` leaves the answer of `Get` for every other key as it is. -/
def LeavesOthers (calls : Nat) (t : Tree) : Op → Prop
  | .insert k v => ∃ evs t', t.insert (calls + 2) k v = some (.ok, evs, t') ∧
      ∀ k', ValidKey k' → k' ≠ k → t'.get k' = t.get k'
  | _ => True

def ReinsertGuard (t : Tree) : Op → Prop
  | .insert k _ => MedianClean t k
  | _ => True

instance : ∀ op, Decidable (InsertsOnly op)
  | .insert k _ => inferInstanceAs (Decidable (ValidKey k))
  | .update _ _ => .isFalse id
  | .remove _ => .isFalse id
  | .get _ => .isFalse id

instance (t : Tree) : ∀ op, Decidable (ReinsertGuard t op)
  | .insert k _ => inferInstanceAs (Decidable (MedianClean t k))
  | .update _ _ => .isTrue trivial
  | .remove _ => .isTrue trivial
  | .get _ => .isTrue trivial

theorem Ranged.step {op : Op} (h : Ranged t) (hop : InsertsOnly op) (calls : Nat) :
    (LeavesOthers calls t op ↔ ReinsertGuard t op) ∧
      ∃ ans t', t.step (calls + 2) op = some (ans, t') ∧ Ranged t' := by
  cases op with
  | insert k v =>
    obtain ⟨evs, t', hins, hranged, hiff⟩ := h.insert hop calls v
    refine ⟨?_, _, t', by rw [Tree.step, hins]; rfl, hranged⟩
    show _ ↔ MedianClean t k
    rw [← hiff]
    constructor
    · rintro ⟨_, _, hins', hframe⟩
      cases hins.symm.trans hins'
      exact hframe
    · intro hframe
      exact ⟨evs, t', hins, hframe⟩
  | update k v => exact absurd hop id
  | remove k => exact absurd hop id
  | get k => exact absurd hop id

/-- In a run of `Insert`s from a fresh tree every call comes back, and the `Insert`s
leave the answers for other keys alone exactly when their splits meet the guard. -/
theorem reinsert_frame_iff (f : Mapping) (pm : Pmem Loc Nat) (calls : Nat) {ops : List Op}
    (hops : ∀ op ∈ ops, InsertsOnly op) :
    (∃ answers t', runOps (step (calls + 2)) (create false f pm) ops = some (answers, t')) ∧
    (Along (step (calls + 2)) (LeavesOthers calls) (create false f pm) ops ↔
      Along (step (calls + 2)) ReinsertGuard (create false f pm) ops) := by
  have h₀ := ranged_create f pm
  have hc : Along (step (calls + 2)) (fun _ op => InsertsOnly op) (create false f pm) ops :=
    along_of_mem hops _
  constructor
  · obtain ⟨answers, t', hrun, _⟩ := hc.total Ranged (fun t op h hop => (h.step hop calls).2) h₀
    exact ⟨answers, t', hrun⟩
  · refine Along.iff_along Ranged (fun t op h hop => (h.step hop calls).1) ?_ h₀ hc
    intro t op ans t' h hop _ hstep
    obtain ⟨_, _, hstep', h'⟩ := (h.step hop calls).2
    cases hstep.symm.trans hstep'
    exact h'

/-- Keys `3` and `8` are inserted again, the first time into a full entry. -/
def twice : List Op :=
  fillBelow 14 ++ [.insert 3 30, .insert 8 80, .insert 20 20]

set_option maxRecDepth 100000 in
theorem twice_leaves_others :
    Along (step 2) (LeavesOthers 0) (create false sampleFile blank) twice := by
  have hops : ∀ op ∈ twice, InsertsOnly op := by decide
  have hguard : Along (step 2) ReinsertGuard (create false sampleFile blank) twice := by
    decide +kernel
  exact (reinsert_frame_iff sampleFile blank 0 hops).2.mpr hguard

/-- Fourteen copies of `100` are split over two entries, `200` goes to the second of them,
and the first one is filled again. -/
def copies : List Op :=
  List.replicate 14 (.insert 100 1) ++ [.insert 200 2] ++ fillBelow 7

set_option maxRecDepth 100000 in
/-- The next `Insert` splits the first entry at `100` again, and `200` is lost. -/
theorem reinsert_loses_key : (∀ op ∈ copies ++ [.insert 8 8], InsertsOnly op) ∧
    ∃ answers t evs t', runOps (step 2) (create false sampleFile blank) copies =
        some (answers, t) ∧
      t.insert 2 8 8 = some (.ok, evs, t') ∧ t.get 200 = some (.ok, 2) ∧
      t'.get 200 = some (.fail, 0) ∧ ¬ LeavesOthers 0 t (.insert 8 8) := by
  have hsome : (runOps (step 2) (create false sampleFile blank) copies).isSome := by
    decide +kernel
  have heval : ∀ r ∈ runOps (step 2) (create false sampleFile blank) copies,
      r.2.get 200 = some (.ok, 2) ∧ (r.2.insert 2 8 8).map (fun x => (x.1, x.2.2.get 200)) =
        some (.ok, some (.fail, 0)) := by
    decide +kernel
  obtain ⟨⟨answers, t⟩, hrun⟩ := Option.isSome_iff_exists.mp hsome
  obtain ⟨hlive, hlost⟩ := heval _ hrun
  obtain ⟨⟨ret, evs, t'⟩, hins, hget⟩ := Option.map_eq_some_iff.mp hlost
  simp only [Prod.mk.injEq] at hget
  obtain ⟨rfl, hget⟩ := hget
  refine ⟨by decide, answers, t, evs, t', hrun, hins, hlive, hget, ?_⟩
  rintro ⟨_, _, hins', hframe⟩
  cases hins.symm.trans hins'
  have := hframe 200 (by decide) (by decide)
  rw [hlive, hget] at this
  cases this

end Tree

end Epli
