import Epli.ClhtPairs
import Epli.ClhtLocks

/-!
# The slots of a CLHT chain

The threads of `ClhtLocks` address the slots of a bin by their place in the chain. A store
to a slot, or a bucket linked to the end, is one store to the list of slots, and an edit of
the pairs of the bin; the pairs are the slots that are not free. So the invariant `Wf` of
the table gives every bin as a slot array with unique keys.
-/

namespace Epli.Clht

open Lib Lib.SlotArray

variable {c : Chain} {h : Hashtable} {p q k v w bin : Nat} {s s' : Nat × Nat}

/-! ## Stores -/

/-- A store to one of several blocks of equal length. -/
theorem flatMap_modify {α β : Type} {g : α → List β} {f : α → α} {n j : Nat} {x : β}
    (hf : ∀ a, g (f a) = (g a).set j x) (hj : j < n) : ∀ {l : List α} {i : Nat},
    (∀ a ∈ l, (g a).length = n) → (l.modify i f).flatMap g = (l.flatMap g).set (n * i + j) x := by
  intro l
  induction l with
  | nil =>
    intro i _
    simp
  | cons a l ih =>
    intro i hlen
    rw [List.forall_mem_cons] at hlen
    cases i with
    | zero =>
      rw [List.modify_zero_cons, List.flatMap_cons, List.flatMap_cons, hf, Nat.mul_zero,
        Nat.zero_add, List.set_append_left _ _ (by omega)]
    | succ i =>
      rw [List.modify_succ_cons, List.flatMap_cons, List.flatMap_cons, ih hlen.2,
        List.set_append_right _ _ (by rw [hlen.1, Nat.mul_succ]; omega), hlen.1, Nat.mul_succ]
      congr 2
      omega

namespace Chain

theorem slots_setSlot (c : Chain) (p : Nat) (s : Nat × Nat) :
    (c.setSlot p s).slots = c.slots.set p s := by
  unfold setSlot slots buckets
  split
  · rename_i hlt
    simp only [List.flatMap_cons]
    rw [List.set_append_left _ _ (by rw [c.head.three]; exact hlt)]
    rfl
  · rename_i hge
    have hpos : 0 < entriesPerBucket := by decide
    rw [Nat.not_lt] at hge
    simp only [List.flatMap_cons]
    rw [flatMap_modify (n := entriesPerBucket) (j := p % entriesPerBucket) (x := s)
      (fun b => rfl) (Nat.mod_lt _ hpos) (fun b _ => b.three),
      List.set_append_right _ _ (by rw [c.head.three]; exact hge), c.head.three]
    congr 2
    have hdiv := Nat.div_add_mod p entriesPerBucket
    have hone : 1 ≤ p / entriesPerBucket := (Nat.one_le_div_iff hpos).mpr hge
    rw [Nat.mul_sub, Nat.mul_one]
    have hmul : entriesPerBucket * 1 ≤ entriesPerBucket * (p / entriesPerBucket) :=
      Nat.mul_le_mul_left _ hone
    omega

theorem slots_expand (c : Chain) (raw : Raw) (k v : Nat) :
    (c.expand raw k v).slots = c.slots ++ [(k, v), (0, raw.val1), (0, raw.val2)] := by
  simp [slots, expand, buckets]

theorem length_slots (c : Chain) : c.slots.length = entriesPerBucket * c.buckets.length := by
  unfold slots
  induction c.buckets with
  | nil => rfl
  | cons b bs ih => rw [List.flatMap_cons, List.length_append, b.three, ih, List.length_cons,
      Nat.mul_succ, Nat.add_comm]

theorem pairs_eq_slots (c : Chain) : c.pairs = c.slots.flatMap occupied := by
  unfold pairs slots Bucket.pairs
  rw [List.flatMap_assoc]

theorem mem_pairs_iff : (k, v) ∈ c.pairs ↔ k ≠ 0 ∧ ∃ p : Nat, c.slots[p]? = some (k, v) := by
  rw [mem_pairs, ← List.mem_iff_getElem?]
  unfold slots
  rw [List.mem_flatMap]
  constructor
  · rintro ⟨b, hb, hs, hne⟩
    exact ⟨hne, b, hb, hs⟩
  · rintro ⟨hne, b, hb, hs⟩
    exact ⟨b, hb, hs, hne⟩

/-- A store to a slot exchanges the pair in it. -/
theorem replaces_setSlot (s' : Nat × Nat) (hp : c.slots[p]? = some s) :
    Replaces (occupied s) (occupied s') c.pairs (c.setSlot p s').pairs := by
  rcases List.getElem?_eq_some_iff.mp hp with ⟨hlt, hs⟩
  have hsplit : c.slots = c.slots.take p ++ s :: c.slots.drop (p + 1) := by
    rw [← hs, ← List.drop_eq_getElem_cons, List.take_append_drop]
  rw [pairs_eq_slots, pairs_eq_slots, slots_setSlot, List.set_eq_take_append_cons_drop,
    if_pos hlt]
  nth_rewrite 1 [hsplit]
  refine Replaces.flatMap ⟨[], ?_, ?_⟩ _ _
  · rw [List.append_nil]
  · rw [List.append_nil]

end Chain

/-! ## Bins as slot arrays -/

namespace Hashtable

/-- The value of a key. -/
def lookup (h : Hashtable) (key : Nat) : Option Nat :=
  SlotArray.lookup (h.table (h.clhtHash key)).slots key

/-- The pairs of a bin are some of the pairs of the table. -/
theorem bin_sublist (hbin : bin < h.numBuckets) : (h.table bin).pairs.Sublist h.pairs := by
  rcases List.append_of_mem (List.mem_range.mpr hbin) with ⟨pre, post, hsplit⟩
  unfold pairs
  rw [hsplit, List.flatMap_append, List.flatMap_cons]
  exact (List.sublist_append_left _ _).trans (List.sublist_append_right _ _)

/-- Pairs with different keys sit in slots with unique keys. -/
theorem uniq_of_nodup : ∀ {l : List (Nat × Nat)},
    ((l.flatMap occupied).map Prod.fst).Nodup → Uniq 0 l := by
  intro l
  induction l with
  | nil =>
    intro _ p q k v w _ hp
    simp at hp
  | cons s l ih =>
    intro hnd
    rw [List.flatMap_cons, List.map_append, List.nodup_append] at hnd
    -- the key of the first slot is in no other one
    have hfirst : ∀ (q k v w : Nat), k ≠ 0 → s = (k, v) → l[q]? ≠ some (k, w) := by
      rintro q k v w hk rfl hq
      refine hnd.2.2 k ?_ k ?_ rfl
      · rw [occupied_of_ne hk]
        exact List.mem_singleton_self _
      · refine List.mem_map_of_mem (f := Prod.fst) (a := (k, w)) ?_
        refine List.mem_flatMap.mpr ⟨(k, w), List.mem_of_getElem? hq, ?_⟩
        rw [occupied_of_ne hk]
        exact List.mem_singleton_self _
    intro p q k v w hk hp hq
    cases p with
    | zero =>
      rw [List.getElem?_cons_zero, Option.some.injEq] at hp
      cases q with
      | zero => rfl
      | succ q => exact absurd hq (hfirst q k v w hk hp)
    | succ p =>
      cases q with
      | zero =>
        rw [List.getElem?_cons_zero, Option.some.injEq] at hq
        exact absurd hp (hfirst p k w v hk hq)
      | succ q => rw [ih hnd.2.1 p q k v w hk hp hq]

theorem Wf.uniq (hw : Wf h) (hbin : bin < h.numBuckets) : Uniq 0 (h.table bin).slots := by
  refine uniq_of_nodup ?_
  rw [← Chain.pairs_eq_slots]
  exact hw.nodup.sublist ((bin_sublist hbin).map _)

theorem Wf.keyed_slot (hw : Wf h) (hbin : bin < h.numBuckets) (hk : k ≠ 0)
    (hp : (h.table bin).slots[p]? = some (k, v)) : h.clhtHash k = bin :=
  hw.keyed bin hbin (k, v) (Chain.mem_pairs_iff.mpr ⟨hk, p, hp⟩)

theorem Wf.lookup_iff (hw : Wf h) (hk : k ≠ 0) : h.lookup k = some v ↔ (k, v) ∈ h.pairs := by
  unfold lookup
  rw [(hw.uniq (hw.hash_lt k)).lookup_iff hk, hw.mem_iff, Chain.mem_pairs_iff]
  simp [hk]

/-- A key that is in no slot of its bin has no pair in the table. -/
theorem Wf.absent (hw : Wf h)
    (hno : ∀ p v : Nat, (h.table (h.clhtHash k)).slots[p]? ≠ some (k, v)) :
    ∀ v, (k, v) ∉ h.pairs := by
  intro v hmem
  rcases Chain.mem_pairs_iff.mp (hw.mem_iff.mp hmem) with ⟨_, p, hp⟩
  exact hno p v hp

/-- A store that puts the free key, the old key or a new one into a slot. -/
theorem Wf.setSlot (hw : Wf h) (hbin : bin < h.numBuckets)
    (hp : (h.table bin).slots[p]? = some (k, v)) (ha : Admits 0 (h.table bin).slots k q)
    (hkey : q ≠ 0 → h.clhtHash q = bin) : Wf (h.setBin bin ((h.table bin).setSlot p (q, w))) := by
  have hrep := Chain.replaces_setSlot (q, w) hp
  have hnew : ∀ x ∈ occupied (q, w), h.clhtHash x.1 = bin := by
    intro x hx
    by_cases hq : q = 0
    · rw [hq, occupied_zero] at hx
      cases hx
    · rw [occupied_of_ne hq, List.mem_singleton] at hx
      rw [hx]
      exact hkey hq
  -- the slot loses its key, keeps it or gets one that is nowhere in the bin
  by_cases hqk : q = 0 ∨ q = k
  · refine hw.setBin_of_sublist hbin hrep ?_ hnew
    rcases hqk with rfl | rfl
    · rw [occupied_zero]
      exact List.nil_sublist _
    · unfold occupied
      split
      · exact List.Sublist.refl _
      · exact List.Sublist.refl _
  · -- a key that the table does not have
    rw [not_or] at hqk
    refine hw.setBin hrep hnew ?_
    have hno : ∀ w', (q, w') ∉ h.pairs := by
      refine hw.absent ?_
      rw [hkey hqk.1]
      exact (ha.resolve_left hqk.1).resolve_left hqk.2
    rcases pairs_setBin hbin hrep with ⟨rest, hold, hnew'⟩
    rw [occupied_of_ne hqk.1] at hnew'
    rw [(hnew'.map Prod.fst).nodup_iff]
    rw [List.singleton_append, List.map_cons, List.nodup_cons]
    refine ⟨?_, (((hold.map Prod.fst).nodup_iff.mp hw.nodup).sublist ?_)⟩
    · intro hmem
      rcases List.mem_map.mp hmem with ⟨⟨q', w'⟩, hx, heq⟩
      simp only at heq
      subst heq
      exact hno w' (hold.mem_iff.mpr (List.mem_append_right _ hx))
    · rw [List.map_append]
      exact List.sublist_append_right _ _

end Hashtable

end Epli.Clht
