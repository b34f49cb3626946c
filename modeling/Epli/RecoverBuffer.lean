import Mathlib.Algebra.BigOperators.Group.List.Basic
import Mathlib.Algebra.GroupWithZero.Nat
import Mathlib.Data.Finset.Card
import Epli.Recover

/-!
# The buffer of Recover

`Recover(load_size)` writes one element of `index_kvs` for each entry of the list
and has room for `load_size / KVS_PER_ENTRY + 1` of them, as if every entry but
one were full. `Insert` keeps no such promise: a split leaves two halves.

After `n` keys have been put into a list of `e` entries, `KVS_PER_ENTRY * e - n`
slots are empty. So a split overruns the buffer exactly when more than one slot
was empty before it.
-/

namespace Epli

open Lib Entry

namespace Tree

variable {f : Mapping} {pm : Pmem Loc Nat} {calls : Nat} {t t' : Tree} {as : List Nat}
  {m m' : Mem} {p q i k v n : Nat} {l : List KV}

/-! ## Empty slots -/

/-- The number of empty slots of an entry. -/
def emptySlots (m : Mem) (a : Nat) : Nat :=
  ((Finset.range kvsPerEntry).filter fun i => m (a, .key i) = invalidKey).card

theorem emptySlots_congr {a : Nat} (h : ∀ i, m' (a, .key i) = m (a, .key i)) :
    emptySlots m' a = emptySlots m a := by
  simp only [emptySlots, h]

theorem emptySlots_full (h : Full m p) : emptySlots m p = 0 := by
  rw [emptySlots, Finset.card_eq_zero, Finset.filter_eq_empty_iff]
  intro i hi
  exact h i (Finset.mem_range.mp hi)

/-- Half of an entry is empty after it was filled with the other half. -/
theorem emptySlots_filled (h : Filled m p l (kvsPerEntry / 2)) (hlen : kvsPerEntry / 2 ≤ l.length)
    (hl : ∀ x ∈ l, x.1 ≠ invalidKey) : emptySlots m p = kvsPerEntry / 2 := by
  have hiff : (Finset.range kvsPerEntry).filter (fun i => m (p, .key i) = invalidKey) =
      (Finset.range kvsPerEntry).filter fun i => kvsPerEntry / 2 ≤ i := by
    apply Finset.filter_congr
    intro i hi
    constructor
    · intro he
      by_contra hlt
      exact ne_invalid_of_filled h (by decide) hlen hl (not_le.mp hlt) he
    · intro hle
      rw [(h i (Finset.mem_range.mp hi)).1, if_neg (not_lt.mpr hle)]
  rw [emptySlots, hiff]
  decide

/-- Putting a key takes one empty slot. -/
theorem emptySlots_putSlot (hi : i < kvsPerEntry) (he : m (p, .key i) = invalidKey)
    (hk : k ≠ invalidKey) : emptySlots (putSlot m p i k v) p + 1 = emptySlots m p := by
  have herase : (Finset.range kvsPerEntry).filter
      (fun j => putSlot m p i k v (p, .key j) = invalidKey) =
        ((Finset.range kvsPerEntry).filter fun j => m (p, .key j) = invalidKey).erase i := by
    ext j
    rw [Finset.mem_filter, Finset.mem_erase, Finset.mem_filter, putSlot_key]
    by_cases hji : j = i
    · simp [hji, hk]
    · simp [hji]
  have hmem : i ∈ (Finset.range kvsPerEntry).filter fun j => m (p, .key j) = invalidKey :=
    Finset.mem_filter.mpr ⟨Finset.mem_range.mpr hi, he⟩
  rw [emptySlots, emptySlots, herase, Finset.card_erase_add_one hmem]

/-- The number of empty slots of a list of entries. -/
def emptyIn (m : Mem) (as : List Nat) : Nat := (as.map (emptySlots m)).sum

theorem emptyIn_split (m : Mem) (pre : List Nat) (p : Nat) (post : List Nat) :
    emptyIn m (pre ++ p :: post) = emptyIn m pre + emptyIn m post + emptySlots m p := by
  simp only [emptyIn, List.map_append, List.sum_append, List.map_cons, List.sum_cons]
  omega

theorem emptyIn_congr (h : ∀ a ∈ as, ∀ i, m' (a, .key i) = m (a, .key i)) :
    emptyIn m' as = emptyIn m as := by
  unfold emptyIn
  congr 1
  apply List.map_congr_left
  intro a ha
  exact emptySlots_congr (h a ha)

/-! ## Insert -/

/-- A split adds an entry, and as many empty slots as an entry has. -/
theorem emptyIn_splitEntry {pre post : List Nat} (h : Shape t (pre ++ p :: post))
    (hf : Full t.mem p) : emptyIn (t.splitEntry p).2.mem (pre ++ p :: t.alloc.currentAddr :: post) =
      emptyIn t.mem (pre ++ p :: post) + kvsPerEntry := by
  have heff := splitEntry_mem h (p := p) (by simp)
  have hproper : ∀ x ∈ sortedKVs t.mem p, x.1 ≠ invalidKey := by
    intro x hx
    exact hf.ne_invalid (mem_sortedKVs.mp hx).hasKey
  have hold := emptySlots_filled heff.old_filled (by rw [length_sortedKVs]; decide) hproper
  have hnew := emptySlots_filled heff.new_filled (by rw [length_upperKVs])
    fun x hx => hproper x (List.mem_of_mem_drop hx)
  have hnd := h.nodup
  have hfresh := h.cursor_fresh
  -- the entries around the split one are not touched
  have hother : ∀ a ∈ pre ++ post, ∀ i, (t.splitEntry p).2.mem (a, .key i) = t.mem (a, .key i) := by
    intro a ha i
    have hmem : a ∈ pre ++ p :: post := by
      rcases List.mem_append.mp ha with ha | ha
      · exact List.mem_append_left _ ha
      · exact List.mem_append_right _ (List.mem_cons_of_mem _ ha)
    refine heff.other a _ ?_ ?_
    · rintro rfl
      rw [List.nodup_middle, List.nodup_cons] at hnd
      exact hnd.1 ha
    · rintro rfl
      exact hfresh hmem
  have hpre := emptyIn_congr fun a ha => hother a (List.mem_append_left _ ha)
  have hpost := emptyIn_congr fun a ha => hother a (List.mem_append_right _ ha)
  have hsplit := emptyIn_split (t.splitEntry p).2.mem (pre ++ [p]) t.alloc.currentAddr post
  rw [List.append_assoc, List.singleton_append] at hsplit
  rw [hsplit, emptyIn_split, emptyIn_split, hpre, hpost, hold, hnew, emptySlots_full hf,
    kvsPerEntry_eq]
  simp only [emptyIn, List.map_nil, List.sum_nil]
  omega

/-- Putting into an entry of the list takes one empty slot. -/
theorem emptyIn_putSlot (h : Shape t as) (hp : p ∈ as) (hi : i < kvsPerEntry)
    (he : t.mem (p, .key i) = invalidKey) (hk : k ≠ invalidKey) :
    emptyIn (putSlot t.mem p i k v) as + 1 = emptyIn t.mem as := by
  have hnd := h.nodup
  rcases List.append_of_mem hp with ⟨pre, post, rfl⟩
  have hother : ∀ a ∈ pre ++ post, ∀ j,
      putSlot t.mem p i k v (a, .key j) = t.mem (a, .key j) := by
    intro a ha j
    rw [List.nodup_middle, List.nodup_cons] at hnd
    have hap : a ≠ p := by
      rintro rfl
      exact hnd.1 ha
    simp [hap]
  have hpre := emptyIn_congr fun a ha => hother a (List.mem_append_left _ ha)
  have hpost := emptyIn_congr fun a ha => hother a (List.mem_append_right _ ha)
  have hslot := emptySlots_putSlot (v := v) hi he hk
  rw [emptyIn_split, emptyIn_split, hpre, hpost]
  omega

/-- The list after `n` keys were put into it. -/
structure Filling (t : Tree) (n : Nat) (as : List Nat) : Prop where
  shape : Shape t as
  vacated : t.vacated = none
  slots : emptyIn t.mem as + n = kvsPerEntry * as.length

/-- `Insert` puts one key, and adds an entry if it found its entry full. -/
theorem Filling.insert (h : Filling t n as) (hp : t.lookup k = some p) (hk : k ≠ invalidKey)
    (calls v : Nat) : ∃ evs t' as', t.insert (calls + 2) k v = some (.ok, evs, t') ∧
      Filling t' (n + 1) as' ∧
      as'.length = as.length + if Full t.mem p then 1 else 0 := by
  rcases insert_eq h.shape hp calls v with ⟨p', i, hp', hf, hins⟩
  rcases findSlot_some hf with ⟨hi, he, _⟩
  -- a split adds one entry and as many empty slots as an entry has, so the sum is kept
  obtain ⟨as', hsh, hempty, hlen⟩ : ∃ as', Shape (t.makeRoom p).2 as' ∧
      emptyIn (t.makeRoom p).2.mem as' + n = kvsPerEntry * as'.length ∧
      as'.length = as.length + if Full t.mem p then 1 else 0 := by
    have hslots := h.slots
    by_cases hfull : Full t.mem p
    · rcases List.append_of_mem (h.shape.lookup_mem hp) with ⟨pre, post, rfl⟩
      have hsplit := emptyIn_splitEntry h.shape hfull
      rw [makeRoom_full hfull]
      refine ⟨_, shape_splitEntry h.shape, ?_, ?_⟩
      · rw [hsplit]
        simp only [List.length_append, List.length_cons, kvsPerEntry_eq] at hslots ⊢
        omega
      · rw [if_pos hfull]
        simp only [List.length_append, List.length_cons]
        omega
    · rw [makeRoom_room hfull, if_neg hfull]
      exact ⟨as, h.shape, hslots, rfl⟩
  have hput := emptyIn_putSlot (v := v) hsh (hsh.lookup_mem hp') hi he hk
  refine ⟨_, _, as', hins, ⟨?_, ?_, ?_⟩, hlen⟩
  · refine hsh.run _ fun a _ => ?_
    rw [exec_putAtPos]
    exact slotsOnly_putSlot.next a
  · rw [run_vacated, makeRoom_vacated, h.vacated]
  · rw [run_mem, exec_putAtPos]
    omega

/-! ## Runs of Insert -/

/-- `Insert`, counting the keys put: the `load_size` `Recover` is called with. -/
def putStep (calls : Nat) (s : Tree × Nat) (x : KV) : Option (Status × Tree × Nat) :=
  (s.1.insert calls x.1 x.2).map fun r => (r.1, r.2.2, s.2 + 1)

/-- `Recover`, called with the number of keys put, stays within `index_kvs`. -/
def Fits (s : Tree × Nat) : Prop :=
  (recoverLoop s.1.mem (s.2 / kvsPerEntry + 1) s.1.head).isSome

/-- `Recover` stays within `index_kvs` when the `Insert` returns. -/
def FitsAfter (calls : Nat) (s : Tree × Nat) (x : KV) : Prop :=
  ∀ st s', putStep (calls + 2) s x = some (st, s') → Fits s'

/-- If the key is looked up in a full entry, at most one slot of all entries is
empty. -/
def PackedGuard (s : Tree × Nat) (x : KV) : Prop :=
  ∀ p, s.1.lookup x.1 = some p → Full s.1.mem p →
    emptyIn s.1.mem (s.1.index.kvs.map Prod.snd) ≤ 1

instance (s : Tree × Nat) (x : KV) : Decidable (PackedGuard s x) :=
  decidable_of_iff (∀ p ∈ s.1.lookup x.1, Full s.1.mem p →
    emptyIn s.1.mem (s.1.index.kvs.map Prod.snd) ≤ 1) (by simp [PackedGuard])

theorem Filling.fits_iff (h : Filling t n as) : Fits (t, n) ↔ as.length ≤ n / kvsPerEntry + 1 := by
  rw [Fits, recoverLoop_eq t.mem as _ t.head h.shape.walk]
  by_cases hlen : as.length ≤ n / kvsPerEntry + 1
  · simp [hlen]
  · simp [hlen]

/-- The list after `n` keys, with `Recover(n)` within its buffer. -/
def InBuffer (s : Tree × Nat) : Prop := ∃ as, Filling s.1 s.2 as ∧ as.length ≤ s.2 / kvsPerEntry + 1

/-- What one `Insert` does to the buffer. -/
theorem InBuffer.put {s : Tree × Nat} (h : InBuffer s) {x : KV} (hx : ValidKey x.1)
    (calls : Nat) : ∃ st s', putStep (calls + 2) s x = some (st, s') ∧
      (Fits s' ↔ PackedGuard s x) ∧ (Fits s' → InBuffer s') := by
  rcases h with ⟨as, hfill, hle⟩
  rcases hfill.shape.exists_lookup x.1 with ⟨p, hp, _⟩
  rcases hfill.insert hp (Nat.pos_iff_ne_zero.mp hx.1) calls x.2 with
    ⟨evs, t', as', hins, hfill', hlen⟩
  have hslots := hfill.slots
  have hpay := hfill.shape.payloads
  rw [hfill.vacated, Option.toList_none, List.nil_append] at hpay
  have hentries : emptyIn s.1.mem (s.1.index.kvs.map Prod.snd) = emptyIn s.1.mem as :=
    (hpay.map _).sum_eq
  refine ⟨.ok, (t', s.2 + 1), by simp [putStep, hins], ?_, ?_⟩
  · rw [hfill'.fits_iff]
    constructor
    · -- the new entry fits: the others had no room left
      intro hfit q hq hfull
      cases hp.symm.trans hq
      rw [hentries]
      rw [hlen, if_pos hfull, kvsPerEntry_eq] at hfit
      rw [kvsPerEntry_eq] at hslots
      omega
    · intro hguard
      by_cases hfull : Full s.1.mem p
      · have hone := hguard p hp hfull
        rw [hentries] at hone
        rw [hlen, if_pos hfull, kvsPerEntry_eq]
        rw [kvsPerEntry_eq] at hslots
        omega
      · rw [hlen, if_neg hfull]
        rw [kvsPerEntry_eq] at hle ⊢
        omega
  · intro hfit
    exact ⟨as', hfill', hfill'.fits_iff.mp hfit⟩

theorem inBuffer_create (f : Mapping) (pm : Pmem Loc Nat) : InBuffer (create false f pm, 0) := by
  have hs := sound_create f pm
  have hno := create_not_proper f pm
  have hhead : (create false f pm).head = f.addr := by rw [create_eq]
  refine ⟨_, ⟨hs.shape, hs.routed.vacated, ?_⟩, by simp⟩
  -- every slot of the head is empty
  have hall : (Finset.range kvsPerEntry).filter
      (fun i => (create false f pm).mem (f.addr, .key i) = invalidKey) =
      Finset.range kvsPerEntry := by
    rw [Finset.filter_eq_self]
    intro i hi
    by_contra hne
    exact hno _ ⟨hne, i, Finset.mem_range.mp hi, rfl⟩
  rw [hhead]
  simp [emptyIn, emptySlots, hall]

/-- In a run of `Insert`s from a fresh tree every call comes back, and `Recover`
stays within its buffer in every state if and only if no `Insert` splits while
more than one slot of the list is empty. -/
theorem recover_fits_iff (f : Mapping) (pm : Pmem Loc Nat) (calls : Nat) {kvs : List KV}
    (hvalid : ∀ x ∈ kvs, ValidKey x.1) :
    (∃ sts s, runOps (putStep (calls + 2)) (create false f pm, 0) kvs = some (sts, s)) ∧
      Fits (create false f pm, 0) ∧
      (Along (putStep (calls + 2)) (FitsAfter calls) (create false f pm, 0) kvs ↔
        Along (putStep (calls + 2)) PackedGuard (create false f pm, 0) kvs) := by
  have hinit := inBuffer_create f pm
  have hc : Along (putStep (calls + 2)) (fun _ x => ValidKey x.1) (create false f pm, 0) kvs :=
    along_of_mem hvalid _
  refine ⟨?_, ?_, ?_⟩
  -- every put succeeds, whatever the buffer would need
  · have hstep : ∀ (s : Tree × Nat) (x : KV), (∃ as, Filling s.1 s.2 as) → ValidKey x.1 →
        ∃ st s', putStep (calls + 2) s x = some (st, s') ∧ ∃ as, Filling s'.1 s'.2 as := by
      rintro s x ⟨as, hfill⟩ hx
      rcases hfill.shape.exists_lookup x.1 with ⟨p, hp, _⟩
      rcases hfill.insert hp (Nat.pos_iff_ne_zero.mp hx.1) calls x.2 with
        ⟨evs, t', as', hins, hfill', _⟩
      exact ⟨.ok, (t', s.2 + 1), by simp [putStep, hins], as', hfill'⟩
    rcases hinit with ⟨as, hfill, _⟩
    rcases hc.total _ hstep ⟨as, hfill⟩ with ⟨sts, s, hrun, _⟩
    exact ⟨sts, s, hrun⟩
  · rcases hinit with ⟨as, hfill, hle⟩
    exact hfill.fits_iff.mpr hle
  -- as long as the list fits, a put keeps it so exactly when the guard holds
  · refine Along.iff_along InBuffer ?_ ?_ hinit hc
    · intro s x hs hx
      rcases hs.put hx calls with ⟨st, s', hstep, hiff, _⟩
      rw [← hiff]
      constructor
      · intro h
        exact h st s' hstep
      · intro h st₁ s₁ hstep₁
        cases hstep.symm.trans hstep₁
        exact h
    · intro s x st s' hs hx hguard hstep
      rcases hs.put hx calls with ⟨st₁, s₁, hstep₁, hiff, hin⟩
      cases hstep.symm.trans hstep₁
      exact hin (hiff.mpr hguard)

/-- The keys `1 .. n`, each with itself. -/
def upTo (n : Nat) : List KV := (List.range n).map fun i => (i + 1, i + 1)

set_option maxRecDepth 100000 in
/-- The fifteenth ascending key splits a head without an empty slot. -/
theorem fifteen_keys_fit :
    Along (putStep 2) (FitsAfter 0) (create false sampleFile blank, 0) (upTo 15) := by
  have hguard : Along (putStep 2) PackedGuard (create false sampleFile blank, 0) (upTo 15) := by
    decide +kernel
  have hvalid : ∀ x ∈ upTo 15, ValidKey x.1 := by decide
  exact (recover_fits_iff sampleFile blank 0 hvalid).2.2.mpr hguard

set_option maxRecDepth 100000 in
/-- The twenty-second ascending key makes a third entry, with room for two. -/
theorem ascending_keys_overrun : ((upTo 22).map Prod.fst).Nodup ∧
    ∃ sts s, runOps (putStep 2) (create false sampleFile blank, 0) (upTo 22) = some (sts, s) ∧
      s.2 = 22 ∧ ¬ Fits s := by
  have hrun : (runOps (putStep 2) (create false sampleFile blank, 0) (upTo 22)).map
      (fun x => (x.2.2, (recoverLoop x.2.1.mem (x.2.2 / kvsPerEntry + 1) x.2.1.head).isSome)) =
        some (22, false) := by
    decide +kernel
  rcases Option.map_eq_some_iff.mp hrun with ⟨⟨sts, s⟩, hrun, heq⟩
  rcases Prod.mk.inj heq with ⟨hn, hfits⟩
  refine ⟨by decide, sts, s, hrun, hn, ?_⟩
  rw [Fits, hfits]
  decide

end Tree

end Epli
