import Epli.Clht

/-!
# The pairs of a CLHT table

Every operation on the current table edits one slot of one bucket of one bin. The
lemmas follow the edit from the slot to the bucket, the bin and the table, as what
it does to the list of all pairs. `Wf` is the invariant: a power of two of bins, every
key in its own bin, and no key twice.
-/

namespace Epli.Clht

open Lib

variable {β : Type} {b b' : Bucket} {c c' : Chain} {h : Hashtable} {k v w bin : Nat} {a : β}
  {lt : UInt32} {old new : List (Nat × Nat)}

/-- The pair in a slot, if there is one. -/
def occupied (s : Nat × Nat) : List (Nat × Nat) := if s.1 = 0 then [] else [s]

def Bucket.pairs (b : Bucket) : List (Nat × Nat) := b.slots.flatMap occupied

def Chain.pairs (c : Chain) : List (Nat × Nat) := c.buckets.flatMap Bucket.pairs

/-- All pairs of a table, slot by slot. -/
def Hashtable.pairs (h : Hashtable) : List (Nat × Nat) :=
  (List.range h.numBuckets).flatMap fun bin => (h.table bin).pairs

theorem occupied_of_ne {s : Nat × Nat} (hs : s.1 ≠ 0) : occupied s = [s] := if_neg hs

theorem occupied_zero (v : Nat) : occupied (0, v) = [] := rfl

/-! ## Buckets -/

namespace Bucket

variable {f : Nat × Nat → Option (β × (Nat × Nat))}

/-- The pairs of a bucket are its slots with a key. -/
theorem mem_pairs {x : Nat × Nat} : x ∈ b.pairs ↔ x ∈ b.slots ∧ x.1 ≠ 0 := by
  unfold pairs
  rw [List.mem_flatMap]
  constructor
  · rintro ⟨s, hs, hx⟩
    unfold occupied at hx
    split at hx
    · simp at hx
    · rw [List.mem_singleton] at hx
      subst hx
      exact ⟨hs, ‹_›⟩
  · rintro ⟨hx, hne⟩
    exact ⟨x, hx, by rw [occupied_of_ne hne]; exact List.mem_singleton_self x⟩

/-- An edit of a slot changes neither time nor heat. -/
theorem editSlot_fields (h : b.editSlot f = some (a, b')) : b'.t = b.t ∧ b'.hops = b.hops := by
  unfold editSlot at h
  split at h
  · cases h
  · cases h
    exact ⟨rfl, rfl⟩

/-- When no slot is edited, none qualified. -/
theorem editSlot_none (h : b.editSlot f = none) : ∀ s ∈ b.slots, f s = none := by
  unfold editSlot at h
  split at h
  · exact modifyFirst_none ‹_›
  · simp at h

/-- An edit of a slot is an edit of the bucket's pairs. -/
theorem editSlot_some (h : b.editSlot f = some (a, b')) : ∃ s s', s ∈ b.slots ∧
    f s = some (a, s') ∧ ∀ {old new : List (Nat × Nat)},
      Replaces old new (occupied s) (occupied s') → Replaces old new b.pairs b'.pairs := by
  unfold editSlot at h
  split at h
  · simp at h
  · rename_i a' slots hm
    cases h
    rcases modifyFirst_some hm with ⟨pre, s, s', post, hb, rfl, hs⟩
    refine ⟨s, s', by simp [hb], hs, ?_⟩
    intro old new hrep
    have hflat := hrep.flatMap pre post
    rw [← hb] at hflat
    exact hflat

/-- `clht_get` changes no pair. -/
theorem get_some (hk : k ≠ 0) (h : b.get k lt = some (v, b')) :
    (k, v) ∈ b.pairs ∧ b'.pairs = b.pairs := by
  rcases Option.map_eq_some_iff.mp h with ⟨s, hs, heq⟩
  cases heq
  have hkey : s.1 = k := by simpa using List.find?_some hs
  subst hkey
  exact ⟨mem_pairs.mpr ⟨List.mem_of_find?_eq_some hs, hk⟩, rfl⟩

/-- `clht_update` replaces the value of a pair with this key. -/
theorem update_some (hk : k ≠ 0) {u : Unit} (h : b.update k v = some (u, b')) :
    ∃ w, Replaces [(k, w)] [(k, v)] b.pairs b'.pairs := by
  rcases editSlot_some h with ⟨⟨k', w⟩, s', _, hf, hrep⟩
  rw [Option.ite_none_right_eq_some] at hf
  rcases hf with ⟨rfl, hf⟩
  cases hf
  refine ⟨w, hrep ⟨[], ?_, ?_⟩⟩
  · rw [occupied_of_ne hk]
    exact .refl _
  · rw [occupied_of_ne (s := (k', v)) hk]
    exact .refl _

/-- `clht_remove` takes the pair out and returns its value. -/
theorem remove_some (hk : k ≠ 0) (h : b.remove k = some (w, b')) :
    Replaces [(k, w)] [] b.pairs b'.pairs := by
  rcases editSlot_some h with ⟨⟨k', w'⟩, s', _, hf, hrep⟩
  rw [Option.ite_none_right_eq_some] at hf
  rcases hf with ⟨rfl, hf⟩
  cases hf
  refine hrep ⟨[], ?_, .refl _⟩
  rw [occupied_of_ne hk]
  exact .refl _

/-- Filling a free slot adds one pair. -/
theorem fill_some (hk : k ≠ 0) {u : Unit} (h : b.fill k v = some (u, b')) :
    Replaces [] [(k, v)] b.pairs b'.pairs := by
  rcases editSlot_some h with ⟨⟨k', w⟩, s', _, hf, hrep⟩
  rw [Option.ite_none_right_eq_some] at hf
  rcases hf with ⟨hk', hf⟩
  cases hf
  -- the slot had key 0, so it was no pair before
  simp only at hk'
  subst hk'
  refine hrep ⟨[], .refl _, ?_⟩
  rw [occupied_of_ne hk]
  exact .refl _

/-- A bucket without an empty slot has three pairs. -/
theorem fill_none (h : b.fill k v = none) : b.pairs.length = entriesPerBucket := by
  have hall : ∀ s ∈ b.slots, occupied s = [s] := by
    intro s hs
    have hf := editSlot_none h s hs
    rw [ite_eq_right_iff] at hf
    exact occupied_of_ne fun h0 => by simpa using hf h0
  unfold pairs
  rw [List.flatMap_congr hall, List.flatMap_singleton', b.three]

/-- A cleared bucket holds no pair. -/
theorem clear_pairs (b : Bucket) : b.clear.pairs = [] := by
  unfold pairs clear
  rw [List.flatMap_map]
  exact List.flatMap_eq_nil_iff.mpr fun s _ => occupied_zero s.2

/-- The size loop counts the pairs. -/
theorem size_eq (b : Bucket) : b.size = b.pairs.length := by
  unfold size pairs
  induction b.slots with
  | nil => rfl
  | cons s ss ih =>
    rw [List.countP_cons, ih, List.flatMap_cons, List.length_append, Nat.add_comm]
    by_cases hs : s.1 = 0
    · simp [occupied, hs]
    · rw [occupied_of_ne hs]
      simp [Nat.pos_of_ne_zero hs]

end Bucket

/-! ## Chains -/

namespace Chain

variable {f : Bucket → Option (β × Bucket)}

/-- The pairs of a chain are those of its buckets. -/
theorem mem_pairs {x : Nat × Nat} : x ∈ c.pairs ↔ ∃ b ∈ c.buckets, x ∈ b.slots ∧ x.1 ≠ 0 := by
  unfold pairs
  simp only [List.mem_flatMap, Bucket.mem_pairs]

/-- The head is edited like the other buckets. -/
theorem editBucket_buckets (c : Chain) (f : Bucket → Option (β × Bucket)) :
    (c.editBucket f).map (fun r => (r.1, r.2.buckets)) = modifyFirst f c.buckets := by
  rw [editBucket, buckets, modifyFirst]
  cases f c.head with
  | some r => rfl
  | none =>
    simp only [Option.map_map]
    rfl

/-- A field of the buckets that an edit leaves alone. -/
theorem editBucket_map {γ : Type} {g : Bucket → γ}
    (hg : ∀ b a b', f b = some (a, b') → g b' = g b) (h : c.editBucket f = some (a, c')) :
    c'.buckets.map g = c.buckets.map g := by
  have hmod := editBucket_buckets c f
  rw [h] at hmod
  exact modifyFirst_map hg hmod.symm

/-- When no bucket is edited, none qualified. -/
theorem editBucket_none (h : c.editBucket f = none) : ∀ b ∈ c.buckets, f b = none := by
  unfold editBucket at h
  cases hhead : f c.head with
  | some r => simp [hhead] at h
  | none =>
    simp only [hhead, Option.map_eq_none_iff] at h
    intro b hb
    rcases List.mem_cons.mp hb with rfl | hb
    · exact hhead
    · exact modifyFirst_none h b hb

/-- An edit of a bucket is an edit of the chain's pairs. -/
theorem editBucket_some (h : c.editBucket f = some (a, c')) :
    c'.overflow.length = c.overflow.length ∧ ∃ b b', b ∈ c.buckets ∧ f b = some (a, b') ∧
      ∀ {old new : List (Nat × Nat)}, Replaces old new b.pairs b'.pairs →
        Replaces old new c.pairs c'.pairs := by
  unfold editBucket at h
  cases hhead : f c.head with
  | some r =>
    simp only [hhead, Option.some.injEq, Prod.mk.injEq] at h
    -- the first bucket of the bin is in the table itself, the others are linked to it
    rcases h with ⟨rfl, rfl⟩
    refine ⟨rfl, c.head, r.2, List.mem_cons_self, hhead, ?_⟩
    intro old new hrep
    exact hrep.flatMap [] c.overflow
  | none =>
    simp only [hhead, Option.map_eq_some_iff, Prod.mk.injEq, Prod.exists] at h
    rcases h with ⟨a', bs, hm, rfl, rfl⟩
    rcases modifyFirst_some hm with ⟨pre, b, b', post, hover, rfl, hb⟩
    refine ⟨modifyFirst_length hm, b, b', by simp [buckets, hover], hb, ?_⟩
    intro old new hrep
    unfold pairs buckets
    rw [hover]
    exact hrep.flatMap (c.head :: pre) post

/-- A key in no slot is in no pair. -/
theorem not_mem_pairs (hno : ∀ b ∈ c.buckets, ∀ s ∈ b.slots, s.1 ≠ k) : (k, v) ∉ c.pairs := by
  intro hmem
  rcases mem_pairs.mp hmem with ⟨b, hb, hs, _⟩
  exact hno b hb _ hs rfl

/-- A key that `bucket_exists` does not find is not in the chain. -/
theorem bucketExists_eq_false (h : c.bucketExists k = false) : (k, v) ∉ c.pairs := by
  refine not_mem_pairs fun b hb s hs => ?_
  simp only [bucketExists, List.any_eq_false, List.any_eq_true, not_exists, not_and] at h
  exact fun heq => h b hb s hs (beq_iff_eq.mpr heq)

/-- A key that `bucket_exists` finds is in a pair. -/
theorem bucketExists_eq_true (hk : k ≠ 0) (h : c.bucketExists k = true) :
    ∃ v, (k, v) ∈ c.pairs := by
  simp only [bucketExists, List.any_eq_true, beq_iff_eq] at h
  rcases h with ⟨b, hb, s, hs, rfl⟩
  exact ⟨s.2, mem_pairs.mpr ⟨b, hb, hs, hk⟩⟩

/-- When the update finds no slot, the key is not in the chain. -/
theorem update_none (h : c.editBucket (Bucket.update k v) = none) : (k, w) ∉ c.pairs := by
  refine not_mem_pairs fun b hb s hs heq => ?_
  have hf := Bucket.editSlot_none (editBucket_none h b hb) s hs
  simp [heq] at hf

/-- When the removal finds no slot, the key is not in the chain. -/
theorem remove_none (h : c.editBucket (Bucket.remove k) = none) : (k, w) ∉ c.pairs := by
  refine not_mem_pairs fun b hb s hs heq => ?_
  have hf := Bucket.editSlot_none (editBucket_none h b hb) s hs
  simp [heq] at hf

/-- No slot of the chain is empty. -/
def Full (c : Chain) : Prop := ∀ b ∈ c.buckets, ∀ s ∈ b.slots, s.1 ≠ 0

instance (c : Chain) : Decidable c.Full :=
  inferInstanceAs (Decidable (∀ b ∈ c.buckets, ∀ s ∈ b.slots, s.1 ≠ 0))

/-- A chain is full when there is no slot to fill. -/
theorem full_iff : c.Full ↔ c.editBucket (Bucket.fill k v) = none := by
  constructor
  · intro hfull
    rw [Option.eq_none_iff_forall_ne_some]
    rintro ⟨u, c'⟩ hedit
    rcases editBucket_some hedit with ⟨_, b, b', hb, hfill, _⟩
    rcases Bucket.editSlot_some hfill with ⟨s, s', hs, hf, _⟩
    rw [Option.ite_none_right_eq_some] at hf
    exact hfull b hb s hs hf.1
  · intro hnone b hb s hs h0
    have hf := Bucket.editSlot_none (editBucket_none hnone b hb) s hs
    simp [h0] at hf

/-- A bucket of such a chain has three pairs. -/
theorem Full.length_bucket {b : Bucket} (hfull : c.Full) (hb : b ∈ c.buckets) :
    b.pairs.length = entriesPerBucket :=
  Bucket.fill_none (editBucket_none ((full_iff (k := 1) (v := 0)).mp hfull) b hb)

/-- A new bucket comes with the one pair that it was linked for. -/
theorem expand_pairs (hk : k ≠ 0) (c : Chain) (raw : Raw) :
    (c.expand raw k v).pairs = c.pairs ++ [(k, v)] := by
  have hnew : ∀ b : Bucket, b.slots = [(k, v), (0, raw.val1), (0, raw.val2)] →
      b.pairs = [(k, v)] := by
    intro b hb
    unfold Bucket.pairs
    rw [hb]
    simp [occupied, hk]
  show (c.head :: (c.overflow ++ [_])).flatMap Bucket.pairs = _
  rw [← List.cons_append, List.flatMap_append, List.flatMap_singleton, hnew _ rfl]
  rfl

/-- Passive elimination only drops pairs. -/
theorem eliminate_pairs (c : Chain) : c.eliminate.pairs.Sublist c.pairs := by
  unfold eliminate
  split
  · rename_i i _
    have hdrop : ∀ b : Bucket, b.clear.pairs.Sublist b.pairs := by
      intro b
      rw [Bucket.clear_pairs]
      exact List.nil_sublist _
    -- emptying the bucket at position `i` of the overflow drops its pairs only
    have hmodify : ∀ (bs : List Bucket) (i : Nat),
        ((bs.modify i Bucket.clear).flatMap Bucket.pairs).Sublist (bs.flatMap Bucket.pairs) := by
      intro bs
      induction bs with
      | nil => simp
      | cons b bs ih =>
        intro i
        cases i with
        | zero =>
          rw [List.modify_zero_cons, List.flatMap_cons, List.flatMap_cons]
          exact (hdrop b).append_right _
        | succ i =>
          rw [List.modify_succ_cons, List.flatMap_cons, List.flatMap_cons]
          exact (ih i).append_left _
    cases i with
    | zero => exact (hdrop c.head).append_right _
    | succ i => exact (hmodify c.overflow i).append_left _
  · exact List.Sublist.refl _

end Chain

/-! ## Tables -/

namespace Hashtable

/-- The pairs of a table are those of its bins. -/
theorem mem_pairs {x : Nat × Nat} :
    x ∈ h.pairs ↔ ∃ bin < h.numBuckets, x ∈ (h.table bin).pairs := by
  unfold pairs
  simp only [List.mem_flatMap, List.mem_range]

/-- No pair has key 0. -/
theorem ne_zero_of_mem {x : Nat × Nat} (hx : x ∈ h.pairs) : x.1 ≠ 0 := by
  rcases mem_pairs.mp hx with ⟨bin, _, hx⟩
  rcases Chain.mem_pairs.mp hx with ⟨b, _, _, hne⟩
  exact hne

/-- `clht_size` counts the pairs of the table. -/
theorem size_eq (h : Hashtable) : h.size = h.pairs.length := by
  have hsize : Bucket.size = fun b => b.pairs.length := funext Bucket.size_eq
  unfold size pairs Chain.pairs
  simp only [List.length_flatMap, hsize]

theorem setBin_table (h : Hashtable) (bin : Nat) (c : Chain) : (h.setBin bin c).table bin = c :=
  setLoc_self _ _ _

/-- An edit of a bin is an edit of the table's pairs. -/
theorem pairs_setBin (hbin : bin < h.numBuckets)
    (hrep : Replaces old new (h.table bin).pairs c.pairs) :
    Replaces old new h.pairs (h.setBin bin c).pairs := by
  refine Replaces.update List.nodup_range (List.mem_range.mpr hbin) ?_ ?_
  · show Replaces old new _ (setLoc h.table bin c bin).pairs
    rw [setLoc_self]
    exact hrep
  · intro bin' hne
    show (setLoc h.table bin c bin').pairs = _
    rw [setLoc_ne _ _ hne]

/-- The invariant. There are no more bins than the `int32_t` index of the copy loop
counts. -/
structure Wf (h : Hashtable) : Prop where
  pow : ∃ n, h.numBuckets = 2 ^ n
  bound : h.numBuckets ≤ 2 ^ 31
  hash : h.hash = h.numBuckets - 1
  keyed : ∀ bin < h.numBuckets, ∀ x ∈ (h.table bin).pairs, h.clhtHash x.1 = bin
  nodup : (h.pairs.map Prod.fst).Nodup

/-- With a power of two of bins, the masked hash is one of them. -/
theorem hash_lt (hpos : 0 < h.numBuckets) (hhash : h.hash = h.numBuckets - 1) (k : Nat) :
    h.clhtHash k < h.numBuckets := by
  have hle : k &&& h.hash ≤ h.hash := Nat.and_le_right
  unfold clhtHash
  omega

/-- A table has at least one bin. -/
theorem Wf.pos (hw : Wf h) : 0 < h.numBuckets := by
  rcases hw.pow with ⟨n, hn⟩
  rw [hn]
  exact Nat.two_pow_pos n

/-- Every key hashes to a bin of the table. -/
theorem Wf.hash_lt (hw : Wf h) (k : Nat) : h.clhtHash k < h.numBuckets :=
  Hashtable.hash_lt hw.pos hw.hash k

/-- A key that is not in its own bin is not in the table. -/
theorem Wf.not_mem (hw : Wf h) (hno : (k, v) ∉ (h.table (h.clhtHash k)).pairs) :
    (k, v) ∉ h.pairs := by
  intro hmem
  rcases mem_pairs.mp hmem with ⟨bin, hbin, hx⟩
  have hkey := hw.keyed bin hbin _ hx
  simp only at hkey
  rw [hkey] at hno
  exact hno hx

/-- A key without a pair is not in its bin. -/
theorem not_bucketExists (hlt : h.clhtHash k < h.numBuckets) (hk : k ≠ 0)
    (hno : ∀ w, (k, w) ∉ h.pairs) : (h.table (h.clhtHash k)).bucketExists k = false := by
  rw [Bool.eq_false_iff]
  intro hex
  rcases Chain.bucketExists_eq_true hk hex with ⟨w, hmem⟩
  exact hno w (mem_pairs.mpr ⟨_, hlt, hmem⟩)

/-- A pair of the table is in the bin that its key hashes to. -/
theorem Wf.mem_iff (hw : Wf h) :
    (k, v) ∈ h.pairs ↔ (k, v) ∈ (h.table (h.clhtHash k)).pairs :=
  ⟨fun hmem => Classical.byContradiction fun hno => hw.not_mem hno hmem,
    fun hmem => mem_pairs.mpr ⟨_, hw.hash_lt k, hmem⟩⟩

/-- An edit of a bin that keeps keys unique and in their own bin. -/
theorem Wf.setBin (hw : Wf h) (hrep : Replaces old new (h.table bin).pairs c.pairs)
    (hnew : ∀ x ∈ new, h.clhtHash x.1 = bin) (hnd : ((h.setBin bin c).pairs.map Prod.fst).Nodup) :
    Wf (h.setBin bin c) := by
  refine ⟨hw.pow, hw.bound, hw.hash, ?_, hnd⟩
  intro bin' hbin' x hx
  show h.clhtHash x.1 = bin'
  change x ∈ (setLoc h.table bin c bin').pairs at hx
  by_cases hne : bin' = bin
  · subst hne
    rw [setLoc_self] at hx
    rcases hrep.mem_of_mem hx with hx | hx
    · exact hnew x hx
    · exact hw.keyed bin' hbin' x hx
  · rw [setLoc_ne _ _ hne] at hx
    exact hw.keyed bin' hbin' x hx

/-- An edit that brings no new key. -/
theorem Wf.setBin_of_sublist (hw : Wf h) (hbin : bin < h.numBuckets)
    (hrep : Replaces old new (h.table bin).pairs c.pairs)
    (hsub : (new.map Prod.fst).Sublist (old.map Prod.fst))
    (hnew : ∀ x ∈ new, h.clhtHash x.1 = bin) : Wf (h.setBin bin c) :=
  hw.setBin hrep hnew ((pairs_setBin hbin hrep).nodup_map Prod.fst hsub hw.nodup)

/-! ### The operations that do not resize -/

/-- `clht_get` returns `0` or a value of the key, and changes no pair. -/
theorem get_spec (hw : Wf h) (hk : k ≠ 0) (lt : UInt32) :
    Wf (h.clhtGet k lt).2 ∧ (h.clhtGet k lt).2.pairs.Perm h.pairs ∧
      ((h.clhtGet k lt).1 = 0 ∨ (k, (h.clhtGet k lt).1) ∈ h.pairs) := by
  unfold clhtGet
  simp only
  split
  · rename_i v c hedit
    rcases Chain.editBucket_some hedit with ⟨_, b, b', hb, hget, hrep⟩
    rcases Bucket.get_some hk hget with ⟨hmem, hpairs⟩
    have hsame : Replaces [] [] (h.table (h.clhtHash k)).pairs c.pairs :=
      hrep ⟨b.pairs, .refl _, by rw [hpairs]; exact .refl _⟩
    refine ⟨hw.setBin_of_sublist (hw.hash_lt k) hsame (List.Sublist.refl _) (by simp), ?_, ?_⟩
    · exact (pairs_setBin (hw.hash_lt k) hsame).perm
    · right
      exact mem_pairs.mpr ⟨_, hw.hash_lt k, List.mem_flatMap.mpr ⟨b, hb, hmem⟩⟩
  · exact ⟨hw, .refl _, Or.inl rfl⟩

/-- `clht_get` returns the value of a key that is there. -/
theorem get_of_mem (hw : Wf h) (hmem : (k, v) ∈ h.pairs) (lt : UInt32) :
    (h.clhtGet k lt).1 = v := by
  have hk : k ≠ 0 := ne_zero_of_mem hmem
  have hbin := hw.mem_iff.mp hmem
  have hfound : (k, (h.clhtGet k lt).1) ∈ h.pairs := by
    unfold clhtGet
    simp only
    split
    · rename_i w c hedit
      rcases Chain.editBucket_some hedit with ⟨_, b, b', hb, hget, _⟩
      exact hw.mem_iff.mpr (List.mem_flatMap.mpr ⟨b, hb, (Bucket.get_some hk hget).1⟩)
    · rename_i hedit
      rcases Chain.mem_pairs.mp hbin with ⟨b, hb, hs, _⟩
      have hnone := Chain.editBucket_none hedit b hb
      rw [Bucket.get, Option.map_eq_none_iff, List.find?_eq_none] at hnone
      exact absurd (beq_self_eq_true k) (hnone _ hs)
  exact congrArg Prod.snd (List.inj_on_of_nodup_map hw.nodup hfound hmem rfl)

/-- `clht_get` returns 0 for a key that is not there. -/
theorem get_of_not_mem (hw : Wf h) (hk : k ≠ 0) (hno : ∀ w, (k, w) ∉ h.pairs) (lt : UInt32) :
    (h.clhtGet k lt).1 = 0 :=
  (get_spec hw hk lt).2.2.resolve_right (hno _)

/-- What is left beside the one pair of a key has other keys. -/
theorem Wf.mem_of_replaces {items : List (Nat × Nat)} (hw : Wf h)
    (hrep : Replaces [(k, w)] new h.pairs items) :
    (k, w) ∈ h.pairs ∧ ∀ x ∈ items, x ∈ new ∨ (x ∈ h.pairs ∧ x.1 ≠ k) := by
  rcases hrep with ⟨rest, hold, hitems⟩
  have hnd := hw.nodup
  rw [(hold.map Prod.fst).nodup_iff, List.singleton_append, List.map_cons, List.nodup_cons] at hnd
  refine ⟨hold.mem_iff.mpr List.mem_cons_self, ?_⟩
  intro x hx
  rw [hitems.mem_iff, List.mem_append] at hx
  refine hx.imp_right fun hx => ⟨hold.mem_iff.mpr (List.mem_cons_of_mem _ hx), ?_⟩
  intro heq
  exact hnd.1 (List.mem_map.mpr ⟨x, hx, heq⟩)

/-- `clht_update` exchanges the value of a key that is there. -/
theorem update_spec (hw : Wf h) (hk : k ≠ 0) (v : Nat) :
    Wf (h.clhtUpdate k v).2 ∧ ∀ x ∈ (h.clhtUpdate k v).2.pairs,
      (x = (k, v) ∧ ∃ w, (k, w) ∈ h.pairs) ∨ (x ∈ h.pairs ∧ x.1 ≠ k) := by
  unfold clhtUpdate
  simp only
  split
  · rename_i u c hedit
    rcases Chain.editBucket_some hedit with ⟨_, b, b', _, hupd, hrep⟩
    rcases Bucket.update_some hk hupd with ⟨w, hb⟩
    refine ⟨hw.setBin_of_sublist (hw.hash_lt k) (hrep hb) (List.Sublist.refl _) (by simp), ?_⟩
    rcases hw.mem_of_replaces (pairs_setBin (hw.hash_lt k) (hrep hb)) with ⟨hmem, hother⟩
    intro x hx
    exact (hother x hx).imp_left fun hx => ⟨List.mem_singleton.mp hx, w, hmem⟩
  · rename_i hedit
    refine ⟨hw, fun x hx => Or.inr ⟨hx, ?_⟩⟩
    rintro rfl
    exact hw.not_mem (Chain.update_none hedit) hx

/-- `clht_remove` leaves no pair of the key. -/
theorem remove_spec (hw : Wf h) (hk : k ≠ 0) :
    Wf (h.clhtRemove k).2 ∧ ∀ x ∈ (h.clhtRemove k).2.pairs, x ∈ h.pairs ∧ x.1 ≠ k := by
  unfold clhtRemove
  simp only
  split
  · split
    -- found and cleared; `k` was in one slot only
    · rename_i w c hedit
      rcases Chain.editBucket_some hedit with ⟨_, b, b', _, hrem, hrep⟩
      have hb := hrep (Bucket.remove_some hk hrem)
      refine ⟨hw.setBin_of_sublist (hw.hash_lt k) hb (List.nil_sublist _) (by simp), ?_⟩
      intro x hx
      rcases (hw.mem_of_replaces (pairs_setBin (hw.hash_lt k) hb)).2 x hx with hx | hx
      · simp at hx
      · exact hx
    · rename_i hedit
      refine ⟨hw, fun x hx => ⟨hx, ?_⟩⟩
      rintro rfl
      exact hw.not_mem (Chain.remove_none hedit) hx
  -- `bucketExists` has already answered no
  · rename_i hex
    refine ⟨hw, fun x hx => ⟨hx, ?_⟩⟩
    rintro rfl
    exact hw.not_mem (Chain.bucketExists_eq_false (Bool.eq_false_iff.mpr hex)) hx

end Hashtable

end Epli.Clht
