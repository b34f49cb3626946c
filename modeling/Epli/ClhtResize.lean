import Mathlib.Algebra.BigOperators.Ring.Finset
import Mathlib.Algebra.Order.BigOperators.Group.Finset
import Mathlib.Algebra.Order.Floor.Semiring
import Mathlib.Tactic.Linarith
import Epli.ClhtPairs

/-!
# Resizing a CLHT table

The new table is filled by `clht_put_seq` alone, so only the last bucket of a chain
can have an empty slot, and a table of `S` pairs has at most `S / 3` overflow
buckets (`Copied`). With that many, and with the sizes `ht_status` chooses, the new
table never asks to be resized again: `ht_status` comes back after one resize.
-/

namespace Epli.Clht

open Lib

/-! ## Rounding up -/

/-- Rounding up gives the least power of two that is not below `x`. -/
theorem pow2roundup_spec {x : Nat} (hx : x < 2 ^ 64) :
    (∃ n, pow2roundup x = 2 ^ n) ∧ x ≤ pow2roundup x ∧ (2 ≤ x → pow2roundup x < 2 * x) := by
  rcases Nat.lt_or_ge x 2 with hlt | hge
  · -- `0` and `1` are rounded to `1`
    have hone : pow2roundup x = 1 := by
      rcases Nat.le_one_iff_eq_zero_or_eq_one.mp (Nat.le_of_lt_succ hlt) with rfl | rfl
      · rfl
      · rfl
    exact ⟨⟨0, hone⟩, by omega, by omega⟩
  · have hne : x - 1 ≠ 0 := by omega
    have hlog : Nat.log2 (x - 1) < 64 := (Nat.log2_lt hne).mpr (by omega)
    -- six shifts smear the top bit of `x - 1` over the bits below it
    have hsm : Smeared (x - 1) 64
        (smear 32 (smear 16 (smear 8 (smear 4 (smear 2 (smear 1 (x - 1))))))) :=
      (smeared_self hne).smear.smear.smear.smear.smear.smear
    have hpow : pow2roundup x = 2 ^ (Nat.log2 (x - 1) + 1) := by
      rw [← hsm.eq hlog, pow2roundup, if_neg (by omega)]
    have hupper : x - 1 < 2 ^ (Nat.log2 (x - 1) + 1) := Nat.lt_log2_self
    have hlower : 2 ^ Nat.log2 (x - 1) ≤ x - 1 := Nat.log2_self_le hne
    refine ⟨⟨_, hpow⟩, by omega, ?_⟩
    intro _
    rw [hpow, Nat.pow_succ]
    omega

/-! ## Filling a new table -/

variable {c : Chain} {h htNew : Hashtable} {k v bin nb : Nat} {thr : UInt32}
  {xs ys : List (Nat × Nat)}

/-- A bin without an empty slot. -/
theorem Chain.Full.length_pairs (hfull : c.Full) :
    c.pairs.length = entriesPerBucket * c.buckets.length := by
  unfold Chain.pairs
  rw [List.length_flatMap, List.map_congr_left fun b hb => hfull.length_bucket hb,
    List.map_const', List.sum_replicate, nsmul_eq_mul, Nat.cast_id, Nat.mul_comm]

namespace Hashtable

/-- Number of overflow buckets. -/
def overflowCount (h : Hashtable) : Nat :=
  ∑ bin ∈ Finset.range h.numBuckets, (h.table bin).overflow.length

/-- The pairs of a table, counted bin by bin. -/
theorem length_pairs (h : Hashtable) :
    h.pairs.length = ∑ bin ∈ Finset.range h.numBuckets, (h.table bin).pairs.length := by
  unfold pairs
  rw [List.length_flatMap]
  rfl

/-- Setting a bin changes the count of linked buckets by that bin's. -/
theorem overflowCount_setBin (hbin : bin < h.numBuckets) (c : Chain) :
    (h.setBin bin c).overflowCount + (h.table bin).overflow.length =
      h.overflowCount + c.overflow.length := by
  have hmem : bin ∈ Finset.range h.numBuckets := Finset.mem_range.mpr hbin
  have hrest : ∀ bin' ∈ (Finset.range h.numBuckets).erase bin,
      (setLoc h.table bin c bin').overflow.length = (h.table bin').overflow.length := by
    intro bin' hbin'
    rw [setLoc_ne _ _ (Finset.ne_of_mem_erase hbin')]
  have hnew := Finset.add_sum_erase _ (fun bin' => (setLoc h.table bin c bin').overflow.length) hmem
  have hold := Finset.add_sum_erase _ (fun bin' => (h.table bin').overflow.length) hmem
  rw [Finset.sum_congr rfl hrest] at hnew
  simp only [setLoc_self] at hnew
  unfold overflowCount
  show ∑ bin' ∈ Finset.range h.numBuckets, (setLoc h.table bin c bin').overflow.length + _ = _
  omega

/-- A table of `nb` bins that `clht_put_seq` has filled with the pairs `xs`. -/
structure Copied (nb : Nat) (thr : UInt32) (h : Hashtable) (xs : List (Nat × Nat)) : Prop where
  buckets : h.numBuckets = nb
  threshold : h.numExpandsThreshold = thr
  hash : h.hash = h.numBuckets - 1
  keyed : ∀ bin < h.numBuckets, ∀ x ∈ (h.table bin).pairs, h.clhtHash x.1 = bin
  perm : h.pairs.Perm xs
  packed : ∀ bin < h.numBuckets,
    entriesPerBucket * (h.table bin).overflow.length ≤ (h.table bin).pairs.length
  expands : h.numExpands.toNat ≤ h.overflowCount

/-- Three pairs for each overflow bucket. -/
theorem Copied.overflow_le (hc : Copied nb thr h xs) :
    entriesPerBucket * h.overflowCount ≤ xs.length := by
  rw [← hc.perm.length_eq, length_pairs, overflowCount, Finset.mul_sum]
  exact Finset.sum_le_sum fun bin hbin => hc.packed bin (Finset.mem_range.mp hbin)

/-- A copy counts at most one expansion for every three pairs. -/
theorem Copied.expands_le (hc : Copied nb thr h xs) :
    entriesPerBucket * h.numExpands.toNat ≤ xs.length :=
  le_trans (Nat.mul_le_mul_left _ hc.expands) hc.overflow_le

/-- A bin of the new table takes one more pair. -/
theorem Copied.setBin (hc : Copied nb thr h xs) (hbin : h.clhtHash k < h.numBuckets)
    (hrep : Replaces [] [(k, v)] (h.table (h.clhtHash k)).pairs c.pairs)
    (hpacked : entriesPerBucket * c.overflow.length ≤ c.pairs.length)
    (expands : UInt32) (hexp : expands.toNat + (h.table (h.clhtHash k)).overflow.length ≤
      h.overflowCount + c.overflow.length) :
    Copied nb thr { h.setBin (h.clhtHash k) c with numExpands := expands } ((k, v) :: xs) := by
  have hsum := overflowCount_setBin hbin c
  -- only the bin of `k` changes
  have htable : ∀ bin, (setLoc h.table (h.clhtHash k) c bin) =
      if bin = h.clhtHash k then c else h.table bin := by
    intro bin
    by_cases hb : bin = h.clhtHash k
    · rw [if_pos hb, hb, setLoc_self]
    · rw [if_neg hb, setLoc_ne _ _ hb]
  refine ⟨hc.buckets, hc.threshold, hc.hash, ?_, ?_, ?_, ?_⟩
  · intro bin hbin' x hx
    show h.clhtHash x.1 = bin
    change x ∈ (setLoc h.table (h.clhtHash k) c bin).pairs at hx
    rw [htable] at hx
    split at hx
    · rename_i heq
      subst heq
      rcases hrep.mem_of_mem hx with hx | hx
      · rw [List.mem_singleton.mp hx]
      · exact hc.keyed _ hbin' x hx
    · exact hc.keyed bin hbin' x hx
  · exact (pairs_setBin hbin hrep).perm.trans (hc.perm.cons (k, v))
  · intro bin hbin'
    show entriesPerBucket * (setLoc h.table (h.clhtHash k) c bin).overflow.length ≤
      (setLoc h.table (h.clhtHash k) c bin).pairs.length
    rw [htable]
    split
    · exact hpacked
    · exact hc.packed bin hbin'
  · show expands.toNat ≤ (h.setBin (h.clhtHash k) c).overflowCount
    omega

variable (raw : Nat → Nat → Nat → Raw)

/-- `clht_put_seq` with the bin of the key. -/
def putPair (h : Hashtable) (x : Nat × Nat) : Hashtable :=
  h.clhtPutSeq raw x.1 x.2 (h.clhtHash x.1)

/-- Putting one pair into the copy adds it. -/
theorem Copied.putPair (hc : Copied nb thr h xs) (hpos : 0 < nb) (hk : k ≠ 0) :
    Copied nb thr (h.putPair raw (k, v)) ((k, v) :: xs) := by
  have hbin : h.clhtHash k < h.numBuckets := by
    refine hash_lt ?_ hc.hash k
    rw [hc.buckets]
    exact hpos
  unfold Hashtable.putPair clhtPutSeq
  simp only
  split
  · -- an empty slot
    rename_i u c hedit
    rcases Chain.editBucket_some hedit with ⟨hlen, b, b', _, hfill, hrep⟩
    have hpairs := hrep (Bucket.fill_some hk hfill)
    have hmore := hpairs.perm.length_eq
    simp only [List.length_append, List.length_singleton] at hmore
    refine hc.setBin hbin hpairs ?_ h.numExpands ?_
    · have := hc.packed _ hbin
      rw [hlen]
      omega
    · rw [hlen]
      exact Nat.add_le_add_right hc.expands _
  · -- the chain is full, and gets one more bucket
    rename_i hedit
    have hfull := (Chain.full_iff.mpr hedit).length_pairs
    refine hc.setBin hbin ?_ ?_ _ ?_
    · rw [Chain.expand_pairs hk]
      exact ⟨_, .refl _, List.perm_append_singleton _ _⟩
    · rw [Chain.expand_pairs hk, List.length_append, hfull]
      simp [Chain.expand, Chain.buckets]
    -- the count is a lower bound also when it wraps
    · have hwrap : (h.numExpands + 1).toNat ≤ h.numExpands.toNat + 1 := by
        rw [UInt32.toNat_add]
        exact Nat.mod_le _ _
      have hexp := hc.expands
      simp only [Chain.expand, List.length_append, List.length_singleton]
      omega

/-- Putting pairs into the copy one after the other adds them all. -/
theorem Copied.foldl (hpos : 0 < nb) : ∀ {ys : List (Nat × Nat)} {h : Hashtable}
    {xs : List (Nat × Nat)}, Copied nb thr h xs → (∀ x ∈ ys, x.1 ≠ 0) →
    Copied nb thr (ys.foldl (Hashtable.putPair raw) h) (ys.reverse ++ xs) := by
  intro ys
  induction ys with
  | nil =>
    intro h xs hc _
    exact hc
  | cons y ys ih =>
    intro h xs hc hne
    rw [List.forall_mem_cons] at hne
    rw [List.foldl_cons, List.reverse_cons, List.append_assoc]
    exact ih (hc.putPair raw hpos hne.1) hne.2

/-- A table that was just created is the copy of nothing. -/
theorem copied_create (hpos : 0 < nb) : ∃ h, create nb = some h ∧
    ∀ version, Copied nb h.numExpandsThreshold { h with version := version } [] := by
  refine ⟨_, if_neg (by omega), ?_⟩
  intro version
  have hempty : (⟨Bucket.zero, []⟩ : Chain).pairs = [] := rfl
  refine ⟨rfl, rfl, rfl, ?_, ?_, ?_, Nat.zero_le _⟩
  · intro bin _ x hx
    simp [hempty] at hx
  · unfold pairs
    simp [hempty]
  · intro bin _
    exact Nat.zero_le _

/-- The threshold of a new table is its number of bins. -/
theorem create_threshold (hpos : 0 < nb) (hlt : nb < 2 ^ 32) (hcreate : create nb = some h) :
    h.numExpandsThreshold.toNat = nb := by
  have hnat : (UInt32.ofNat (clhtPercExpansions * nb)).toNat = nb := by
    rw [clhtPercExpansions, Nat.one_mul, UInt32.toNat_ofNat']
    exact Nat.mod_eq_of_lt hlt
  have hne : UInt32.ofNat (clhtPercExpansions * nb) ≠ 0 := by
    intro h0
    rw [h0] at hnat
    simp at hnat
    omega
  rw [create, if_neg (by omega)] at hcreate
  cases hcreate
  simp only [if_neg hne]
  exact hnat

/-- The counter agrees with the chains, as far as 32 bits go. -/
def Tallied (h : Hashtable) : Prop := h.numExpands = UInt32.ofNat h.overflowCount

/-- A new table has no linked bucket, and its count is 0. -/
theorem tallied_create (hcreate : create nb = some h) (version : Nat) :
    Tallied { h with version := version } := by
  unfold create at hcreate
  split at hcreate
  · cases hcreate
  · cases hcreate
    simp [Tallied, overflowCount]

/-- An edit that links no bucket keeps the count right. -/
theorem Tallied.setBin (ht : Tallied h) (hbin : bin < h.numBuckets)
    (hlen : c.overflow.length = (h.table bin).overflow.length) : Tallied (h.setBin bin c) := by
  have hsum := overflowCount_setBin hbin c
  have hcount : (h.setBin bin c).overflowCount = h.overflowCount := by omega
  unfold Tallied
  rw [hcount]
  exact ht

/-- Expanding a bin links one bucket. -/
theorem overflowCount_expandBin (hbin : bin < h.numBuckets) (k v : Nat) :
    (h.expandBin raw bin k v).overflowCount = h.overflowCount + 1 := by
  have hsum := overflowCount_setBin hbin
    ((h.table bin).expand (raw h.version bin (h.table bin).buckets.length) k v)
  simp only [Chain.expand, List.length_append, List.length_singleton] at hsum
  show (h.setBin bin _).overflowCount = _
  simp only [Chain.expand]
  omega

/-- An expansion counts itself. -/
theorem Tallied.expandBin (ht : Tallied h) (hbin : bin < h.numBuckets) (k v : Nat) :
    Tallied (h.expandBin raw bin k v) := by
  unfold Tallied
  rw [overflowCount_expandBin raw hbin, UInt32.ofNat_add, ← ht]
  rfl

/-- Putting a pair leaves the table's size, hash mask and version. -/
theorem putPair_fields (h : Hashtable) (x : Nat × Nat) :
    (h.putPair raw x).numBuckets = h.numBuckets ∧ (h.putPair raw x).hash = h.hash ∧
      (h.putPair raw x).version = h.version := by
  unfold putPair clhtPutSeq
  split
  · exact ⟨rfl, rfl, rfl⟩
  · exact ⟨rfl, rfl, rfl⟩

/-- Putting a pair keeps the count right, whether it expands the bin or not. -/
theorem Tallied.putPair (ht : Tallied h) (hpos : 0 < h.numBuckets)
    (hhash : h.hash = h.numBuckets - 1) (x : Nat × Nat) : Tallied (h.putPair raw x) := by
  have hbin := hash_lt hpos hhash x.1
  unfold Hashtable.putPair clhtPutSeq
  split
  · rename_i u c hedit
    exact ht.setBin hbin (Chain.editBucket_some hedit).1
  · exact ht.expandBin raw hbin _ _

/-- Any number of puts keeps the count right. -/
theorem Tallied.foldl : ∀ (ys : List (Nat × Nat)) {h : Hashtable}, Tallied h →
    0 < h.numBuckets → h.hash = h.numBuckets - 1 →
    Tallied (ys.foldl (Hashtable.putPair raw) h) ∧
      (ys.foldl (Hashtable.putPair raw) h).version = h.version := by
  intro ys
  induction ys with
  | nil =>
    intro h ht _ _
    exact ⟨ht, rfl⟩
  | cons y ys ih =>
    intro h ht hpos hhash
    rcases putPair_fields raw h y with ⟨hnb, hh, hversion⟩
    rcases ih (ht.putPair raw hpos hhash y) (by rwa [hnb]) (by rw [hh, hnb, hhash]) with
      ⟨ht', hversion'⟩
    exact ⟨ht', hversion'.trans hversion⟩

/-! ## Copying -/

/-- The loop over a bucket's slots puts the bucket's pairs. -/
theorem copySlots_eq (b : Bucket) (htNew : Hashtable) :
    copySlots raw b htNew = b.pairs.foldl (putPair raw) htNew := by
  unfold copySlots Bucket.pairs
  rw [List.foldl_flatMap]
  refine List.foldl_ext _ _ _ fun acc s _ => ?_
  unfold occupied
  by_cases hs : s.1 = 0
  · simp [hs]
  · simp [hs, putPair]

/-- The pairs of a bin that active elimination keeps. -/
def keptPairs (lt : UInt32) (c : Chain) : List (Nat × Nat) :=
  (c.buckets.filter fun b => lt.toNat < b.t.toNat + maxActiveEliminationTime ∨
    (b.slots.countP fun s => s.1 ≠ 0) < 2).flatMap Bucket.pairs

/-- `bucket_cpy` puts the pairs of the chain. -/
theorem bucketCpy_eq (c : Chain) (htNew : Hashtable) :
    bucketCpy raw c htNew = c.pairs.foldl (putPair raw) htNew := by
  unfold bucketCpy Chain.pairs
  rw [List.foldl_flatMap]
  exact List.foldl_ext _ _ _ fun acc b _ => copySlots_eq raw b acc

/-- `bucket_cpy_active` puts those that it has not left behind. -/
theorem bucketCpyActive_eq (lt : UInt32) (c : Chain) (htNew : Hashtable) :
    bucketCpyActive raw lt c htNew = (keptPairs lt c).foldl (putPair raw) htNew := by
  unfold bucketCpyActive keptPairs
  rw [List.foldl_flatMap, List.foldl_filter]
  refine List.foldl_ext _ _ _ fun acc b _ => ?_
  simp only [copySlots_eq, decide_eq_true_eq]

/-- What a resize copies from a bin. -/
def copiedPairs (isIncrease : Bool) (lt : UInt32) (c : Chain) : List (Nat × Nat) :=
  if isIncrease then c.pairs else keptPairs lt c

/-- What is copied of a chain was in the chain. -/
theorem copiedPairs_sublist (isIncrease : Bool) (lt : UInt32) (c : Chain) :
    (copiedPairs isIncrease lt c).Sublist c.pairs := by
  unfold copiedPairs
  split
  · exact List.Sublist.refl _
  · exact List.filter_sublist.flatMap _

/-- What a resize copies, in the order of the loops. -/
def copiedTable (isIncrease : Bool) (lt : UInt32) (h : Hashtable) : List (Nat × Nat) :=
  (List.range h.numBuckets).flatMap fun bin => copiedPairs isIncrease lt (h.table bin)

/-- What is copied of a table was in the table. -/
theorem copiedTable_sublist (isIncrease : Bool) (lt : UInt32) (h : Hashtable) :
    (copiedTable isIncrease lt h).Sublist h.pairs :=
  List.Sublist.flatMap_right _ fun bin _ => copiedPairs_sublist isIncrease lt (h.table bin)

/-- The copy loops together are one pass over the copied pairs. -/
theorem copyTable_eq (h : Hashtable) (isIncrease : Bool) (lt : UInt32) (htNew : Hashtable) :
    copyTable raw h isIncrease lt htNew =
      (copiedTable isIncrease lt h).foldl (putPair raw) htNew := by
  unfold copyTable copiedTable
  rw [List.foldl_flatMap]
  refine List.foldl_ext _ _ _ fun acc b _ => ?_
  unfold copiedPairs
  split
  · rw [bucketCpy_eq]
  · rw [bucketCpyActive_eq]

/-- `ht_resize_pes` into a table with room for three pairs in each bin: no second
resize is asked for. -/
theorem htResizePes_eq (again : Hashtable → Option (Nat × Hashtable))
    (isIncrease : Bool) (times : Nat) (lt : UInt32)
    (hnb : nb = if isIncrease then times * h.numBuckets else h.numBuckets / clhtRatioHalve)
    (hpos : 0 < nb) (hlt : nb < 2 ^ 32) (hroom : h.pairs.length < entriesPerBucket * nb) :
    ∃ htNew, create nb = some htNew ∧ htResizePes raw again h isIncrease times lt =
      some ((copiedTable isIncrease lt h).foldl (putPair raw)
        { htNew with version := h.version + 1 }) ∧
      Copied nb htNew.numExpandsThreshold ((copiedTable isIncrease lt h).foldl (putPair raw)
        { htNew with version := h.version + 1 }) (copiedTable isIncrease lt h).reverse := by
  rcases copied_create hpos with ⟨htNew, hcreate, hempty⟩
  have hsub := copiedTable_sublist isIncrease lt h
  have hc := Copied.foldl raw hpos (hempty (h.version + 1)) fun x hx =>
    ne_zero_of_mem (hsub.subset hx)
  rw [List.append_nil] at hc
  refine ⟨htNew, hcreate, ?_, hc⟩
  unfold htResizePes
  simp only [← hnb, hcreate, Option.bind_eq_bind, Option.bind_some, copyTable_eq]
  rw [if_neg]
  · rfl
  -- the copy adds too few overflow buckets to reach the threshold, so no second resize starts
  · have hbelow := hc.expands_le
    have hlen := hsub.length_le
    rw [List.length_reverse] at hbelow
    rw [hc.threshold, UInt32.le_iff_toNat_le, create_threshold hpos hlt hcreate, Nat.not_le]
    unfold entriesPerBucket at hbelow hroom
    omega

/-- What a resize of `h` to `nb` bins leaves. -/
structure Resized (isIncrease : Bool) (lt : UInt32) (h : Hashtable) (nb : Nat)
    (h' : Hashtable) : Prop where
  wf : Wf h'
  buckets : h'.numBuckets = nb
  threshold : h'.numExpandsThreshold.toNat = nb
  version : h'.version = h.version + 1
  tallied : Tallied h'
  few : h'.overflowCount < nb
  perm : h'.pairs.Perm (copiedTable isIncrease lt h)

/-- A resize brings no new pair. -/
theorem Resized.mem {isIncrease : Bool} {lt : UInt32} {h' : Hashtable} {x : Nat × Nat}
    (hres : Resized isIncrease lt h nb h') (hx : x ∈ h'.pairs) : x ∈ h.pairs :=
  (copiedTable_sublist isIncrease lt h).subset (hres.perm.mem_iff.mp hx)

/-- The new table is well formed and has the copied pairs. -/
theorem htResizePes_spec (again : Hashtable → Option (Nat × Hashtable)) (hw : Wf h)
    (isIncrease : Bool) (times : Nat) (lt : UInt32)
    (hnb : nb = if isIncrease then times * h.numBuckets else h.numBuckets / clhtRatioHalve)
    (hpow : ∃ n, nb = 2 ^ n) (hle : nb ≤ 2 ^ 31)
    (hroom : h.pairs.length < entriesPerBucket * nb) :
    ∃ h', htResizePes raw again h isIncrease times lt = some h' ∧
      Resized isIncrease lt h nb h' := by
  have hpos : 0 < nb := by
    rcases hpow with ⟨n, rfl⟩
    exact Nat.two_pow_pos n
  have hlt : nb < 2 ^ 32 := by omega
  rcases htResizePes_eq raw again isIncrease times lt hnb hpos hlt hroom with
    ⟨htNew, hcreate, hres, hc⟩
  -- the same loop from the same empty table: the counts are followed by `Tallied`
  have hperm := hc.perm.trans (List.reverse_perm _)
  rcases copied_create hpos with ⟨ht₀, hcreate₀, hempty⟩
  cases hcreate.symm.trans hcreate₀
  have hc₀ := hempty (h.version + 1)
  have hpos₀ : 0 < ({ htNew with version := h.version + 1 } : Hashtable).numBuckets := by
    rw [hc₀.buckets]
    exact hpos
  rcases (tallied_create hcreate (h.version + 1)).foldl raw (copiedTable isIncrease lt h) hpos₀
    hc₀.hash with ⟨ht, hversion⟩
  refine ⟨_, hres, ⟨⟨?_, ?_, hc.hash, hc.keyed, ?_⟩, hc.buckets, ?_, hversion, ht, ?_, hperm⟩⟩
  · rw [hc.buckets]
    exact hpow
  · rw [hc.buckets]
    exact hle
  -- the pairs copied are some of those of the old table, so no key is twice there
  · rw [(hperm.map Prod.fst).nodup_iff]
    exact hw.nodup.sublist ((copiedTable_sublist isIncrease lt h).map Prod.fst)
  · rw [hc.threshold]
    exact create_threshold hpos hlt hcreate
  · -- three pairs for each overflow bucket, so there are too few of them for a second resize
    have hle := hc.overflow_le
    have hlen := (copiedTable_sublist isIncrease lt h).length_le
    rw [List.length_reverse] at hle
    unfold entriesPerBucket at hle hroom
    omega

/-! ## `ht_status` -/

/-- The rounded ratio is below `n` when the exact one is. -/
theorem fullRatio_lt_iff (hpos : 0 < h.numBuckets) (n : Nat) :
    h.fullRatio < n ↔ 100 * h.size < n * (h.numBuckets * entriesPerBucket) := by
  have hden : (0 : ℚ) < (h.numBuckets * entriesPerBucket : Nat) := by
    exact_mod_cast Nat.mul_pos hpos (by decide)
  unfold fullRatio
  rw [div_lt_iff₀ hden]
  exact_mod_cast Iff.rfl

/-- The ratio is never negative. -/
theorem fullRatio_nonneg (h : Hashtable) : 0 ≤ h.fullRatio :=
  div_nonneg (by positivity) (by positivity)

/-- With one pair in the table the ratio is above 0. -/
theorem fullRatio_pos (hpos : 0 < h.numBuckets) (hsize : 0 < h.size) : 0 < h.fullRatio := by
  have hden : (0 : ℚ) < (h.numBuckets * entriesPerBucket : Nat) := by
    exact_mod_cast Nat.mul_pos hpos (by decide)
  have hnum : (0 : ℚ) < 100 * h.size := by
    exact_mod_cast Nat.mul_pos (by decide) hsize
  exact div_pos hnum hden

/-- `inc_by` is the quotient, rounded down. -/
theorem incBy_spec (hpos : 0 < h.numBuckets) {q : Nat}
    (hq : q = ⌊h.fullRatio / clhtOccupAfterRes⌋₊) :
    6 * (q * h.numBuckets) ≤ 5 * h.size ∧ 5 * h.size < 6 * ((q + 1) * h.numBuckets) := by
  have hocc : (0 : ℚ) < (clhtOccupAfterRes : Nat) := by
    exact_mod_cast (by decide : 0 < clhtOccupAfterRes)
  constructor
  -- the two bounds of the floor, each cleared of its denominators
  · have hle : (q : ℚ) ≤ h.fullRatio / clhtOccupAfterRes := by
      rw [hq]
      exact Nat.floor_le (div_nonneg h.fullRatio_nonneg hocc.le)
    rw [le_div_iff₀ hocc] at hle
    have hcast : ((q * clhtOccupAfterRes : Nat) : ℚ) ≤ h.fullRatio := by
      exact_mod_cast hle
    have hnat := mt (fullRatio_lt_iff hpos (q * clhtOccupAfterRes)).mpr (not_lt.mpr hcast)
    unfold clhtOccupAfterRes entriesPerBucket at hnat
    nlinarith [hnat]
  · have hlt : h.fullRatio / clhtOccupAfterRes < (q : ℚ) + 1 := by
      rw [hq]
      exact Nat.lt_floor_add_one _
    rw [div_lt_iff₀ hocc] at hlt
    have hcast : h.fullRatio < (((q + 1) * clhtOccupAfterRes : Nat) : ℚ) := by
      exact_mod_cast hlt
    have hnat := (fullRatio_lt_iff hpos ((q + 1) * clhtOccupAfterRes)).mp hcast
    unfold clhtOccupAfterRes entriesPerBucket at hnat
    nlinarith [hnat]

/-- The factor by which `ht_status` increases a table. -/
theorem incByPow2_spec {q p : Nat} (hq : q < 2 ^ 64)
    (hp : p = if pow2roundup q = 1 then 2 else pow2roundup q) :
    (∃ n, p = 2 ^ n) ∧ 2 ≤ p ∧ q ≤ p ∧ (p = 2 ∨ p < 2 * q) := by
  rcases pow2roundup_spec hq with ⟨⟨n, hn⟩, hle, hlt⟩
  split at hp
  -- `inc_by_pow2 == 1` is replaced by 2
  · exact ⟨⟨1, hp⟩, by omega, by omega, Or.inl hp⟩
  · rename_i hne
    have htwo : 2 ≤ p := by
      cases n with
      | zero => exact absurd hn hne
      | succ n =>
        have hpos := Nat.two_pow_pos n
        rw [Nat.pow_succ] at hn
        omega
    refine ⟨⟨n, hp.trans hn⟩, htwo, by omega, ?_⟩
    by_cases hq2 : 2 ≤ q
    · exact Or.inr (hp ▸ hlt hq2)
    -- a rounded-up 0 or 1 is 1, which the other branch takes
    · exfalso
      have hsmall : pow2roundup q = 1 := by
        rcases Nat.le_one_iff_eq_zero_or_eq_one.mp (by omega : q ≤ 1) with rfl | rfl
        · rfl
        · rfl
      exact hne hsmall

/-- `ht_status` makes the table smaller. -/
def Sparse (h : Hashtable) : Prop :=
  100 * h.size < clhtPercFullHalve * (h.numBuckets * entriesPerBucket)

instance (h : Hashtable) : Decidable (Sparse h) := inferInstanceAs (Decidable (_ < _))

/-- `ht_status` neither shrinks the table nor lets it grow. -/
def Stops (h : Hashtable) : Prop :=
  clhtPercFullHalve * (h.numBuckets * entriesPerBucket) ≤ 100 * h.size ∧ maxBucketSize ≤ h.size

instance (h : Hashtable) : Decidable (Stops h) := inferInstanceAs (Decidable (_ ∧ _))

/-- `ht_status` on a table with a pair, as `clht_put` calls it: it stops, or resizes
once. -/
theorem statusWith_spec (stop : Hashtable → Hashtable)
    (again : Hashtable → Option (Nat × Hashtable)) (hw : Wf h) (hsize : 0 < h.size)
    (lt : UInt32) :
    ∃ n h', statusWith raw stop again h true false lt = some (n, h') ∧
      ((Stops h ∧ h' = stop h) ∨
        (Sparse h ∧ Resized false lt h (h.numBuckets / clhtRatioHalve) h') ∨
        (¬ Sparse h ∧ h.size < maxBucketSize ∧ ∃ p, 2 ≤ p ∧ p * h.numBuckets ≤ 2 ^ 23 ∧
          Resized true 0 h (p * h.numBuckets) h')) := by
  have hratio := fullRatio_pos hw.pos hsize
  have hlen := h.size_eq
  unfold statusWith
  simp only [Bool.false_eq_true, if_false, or_true, if_true, hratio, true_and]
  by_cases hhalve : h.fullRatio < clhtPercFullHalve
  · -- a sparse table is made smaller; it has eight bins at least
    rw [if_pos hhalve]
    rw [fullRatio_lt_iff hw.pos] at hhalve
    have hsparse : Sparse h := hhalve
    unfold clhtPercFullHalve entriesPerBucket at hhalve
    rcases hw.pow with ⟨n, hn⟩
    have hbig : 3 ≤ n := by
      by_contra hlt
      have hle : h.numBuckets ≤ 2 ^ 2 := hn ▸ Nat.pow_le_pow_right (by decide) (by omega)
      omega
    have heighth : h.numBuckets = 8 * 2 ^ (n - 3) := by
      rw [hn, show 8 = 2 ^ 3 from rfl, ← Nat.pow_add, Nat.add_sub_cancel' hbig]
    have hbound := hw.bound
    have hnb : h.numBuckets / clhtRatioHalve = 2 ^ (n - 3) := by
      rw [heighth]
      exact Nat.mul_div_cancel_left _ (by decide)
    rcases htResizePes_spec raw again hw false 33 lt rfl ⟨n - 3, hnb⟩
      (by simp only [Bool.false_eq_true, if_false]; omega)
      (by simp only [Bool.false_eq_true, if_false, entriesPerBucket]; omega) with
      ⟨h', hres, hresized⟩
    exact ⟨_, h', by rw [hres]; rfl, Or.inr (Or.inl ⟨hsparse, hresized⟩)⟩
  · rw [if_neg hhalve]
    rw [fullRatio_lt_iff hw.pos] at hhalve
    have hsparse : ¬ Sparse h := hhalve
    rw [Nat.not_lt] at hhalve
    by_cases hmax : maxBucketSize ≤ h.size
    · rw [if_pos hmax]
      exact ⟨_, _, rfl, Or.inl ⟨⟨hhalve, hmax⟩, rfl⟩⟩
    · -- it grows, by a factor that leaves room for every pair
      rw [if_neg hmax]
      have hbelow : h.size < maxBucketSize := Nat.not_le.mp hmax
      unfold clhtPercFullHalve entriesPerBucket at hhalve
      unfold maxBucketSize at hmax
      rcases incBy_spec hw.pos rfl with ⟨hlower, hupper⟩
      generalize hq : ⌊h.fullRatio / clhtOccupAfterRes⌋₊ = q at hlower hupper ⊢
      have hpos := hw.pos
      have hq64 : q < 2 ^ 64 := by
        have := Nat.le_mul_of_pos_right q hpos
        omega
      rcases incByPow2_spec hq64 rfl with ⟨⟨m, hm⟩, htwo, hqp, hcase⟩
      generalize (if pow2roundup q = 1 then 2 else pow2roundup q) = p at hm htwo hqp hcase ⊢
      rcases hw.pow with ⟨n, hn⟩
      have hroom : h.pairs.length < entriesPerBucket * (p * h.numBuckets) := by
        unfold entriesPerBucket
        nlinarith
      -- a table that is not sparse has at most `2^22` bins
      have hn22 : n ≤ 22 := by
        by_contra hgt
        have hge : 2 ^ 23 ≤ 2 ^ n := Nat.pow_le_pow_right (by decide) (by omega)
        omega
      have hnb22 : h.numBuckets ≤ 2 ^ 22 := hn ▸ Nat.pow_le_pow_right (by decide) hn22
      have hbound : p * h.numBuckets ≤ 2 ^ 23 := by
        rcases hcase with rfl | hlt
        · omega
        · have hle : p * h.numBuckets ≤ 2 * q * h.numBuckets :=
            Nat.mul_le_mul_right _ hlt.le
          rw [Nat.mul_assoc] at hle
          omega
      rcases htResizePes_spec raw again hw true p 0 rfl
        ⟨m + n, by simp only [if_true]; rw [hm, hn, Nat.pow_add]⟩
        (by simp only [if_true]; omega) hroom with ⟨h', hres, hresized⟩
      exact ⟨_, h', by rw [hres]; rfl,
        Or.inr (Or.inr ⟨hsparse, hbelow, p, htwo, hbound, hresized⟩)⟩

/-! ## `clht_put` -/

/-- A pair of a key that was not there joins the table. -/
theorem Wf.put (hw : Wf h) (hno : ∀ w, (k, w) ∉ h.pairs)
    (hrep : Replaces [] [(k, v)] (h.table (h.clhtHash k)).pairs c.pairs) :
    Wf (h.setBin (h.clhtHash k) c) ∧
      (h.setBin (h.clhtHash k) c).pairs.Perm ((k, v) :: h.pairs) := by
  have hperm := (pairs_setBin (hw.hash_lt k) hrep).perm
  refine ⟨hw.setBin hrep (by simp) ?_, hperm⟩
  rw [(hperm.map Prod.fst).nodup_iff]
  refine List.nodup_cons.mpr ⟨?_, hw.nodup⟩
  intro hmem
  rcases List.mem_map.mp hmem with ⟨⟨k', w⟩, hx, rfl⟩
  exact hno w hx

/-- Passive elimination keeps the invariant and only drops pairs. -/
theorem Wf.eliminate (hw : Wf h) (hbin : bin < h.numBuckets) :
    Wf (h.setBin bin (h.table bin).eliminate) ∧
      ∀ x ∈ (h.setBin bin (h.table bin).eliminate).pairs, x ∈ h.pairs := by
  rcases (Chain.eliminate_pairs (h.table bin)).exists_perm_append with ⟨dropped, hperm⟩
  have hrep : Replaces dropped [] (h.table bin).pairs (h.table bin).eliminate.pairs :=
    ⟨_, hperm.trans List.perm_append_comm, .refl _⟩
  refine ⟨hw.setBin_of_sublist hbin hrep (List.nil_sublist _) (by simp), ?_⟩
  intro x hx
  rcases (pairs_setBin hbin hrep).mem_of_mem hx with hx | hx
  · simp at hx
  · exact hx

/-- The table with one more bucket. -/
theorem Wf.expandBin (hw : Wf h) (hk : k ≠ 0) (hno : ∀ w, (k, w) ∉ h.pairs) (v : Nat) :
    Wf (h.expandBin raw (h.clhtHash k) k v) ∧
      (h.expandBin raw (h.clhtHash k) k v).pairs.Perm ((k, v) :: h.pairs) := by
  have hrep : Replaces [] [(k, v)] (h.table (h.clhtHash k)).pairs
      ((h.table (h.clhtHash k)).expand (raw h.version (h.clhtHash k)
        (h.table (h.clhtHash k)).buckets.length) k v).pairs := by
    rw [Chain.expand_pairs hk]
    exact ⟨_, .refl _, List.perm_append_singleton _ _⟩
  rcases hw.put hno hrep with ⟨hw', hperm⟩
  exact ⟨⟨hw'.pow, hw'.bound, hw'.hash, hw'.keyed, hw'.nodup⟩, hperm⟩

/-- What `clht_put` of a key that is not there can do to the table. -/
inductive PutStep (h : Hashtable) (k v : Nat) (lt : UInt32) : Hashtable → Prop where
  | fill {u : Unit} {c : Chain} :
      (h.table (h.clhtHash k)).editBucket (Bucket.fill k v) = some (u, c) →
      PutStep h k v lt (h.setBin (h.clhtHash k) c)
  | expand : (h.table (h.clhtHash k)).editBucket (Bucket.fill k v) = none →
      h.numExpands + 1 ≠ h.numExpandsThreshold →
      PutStep h k v lt (h.expandBin raw (h.clhtHash k) k v)
  | eliminate : (h.table (h.clhtHash k)).editBucket (Bucket.fill k v) = none →
      h.numExpands + 1 = h.numExpandsThreshold → Stops (h.expandBin raw (h.clhtHash k) k v) →
      PutStep h k v lt ((h.expandBin raw (h.clhtHash k) k v).setBin (h.clhtHash k)
        ((h.expandBin raw (h.clhtHash k) k v).table (h.clhtHash k)).eliminate)
  | shrink {h' : Hashtable} :
      (h.table (h.clhtHash k)).editBucket (Bucket.fill k v) = none →
      h.numExpands + 1 = h.numExpandsThreshold → Sparse (h.expandBin raw (h.clhtHash k) k v) →
      Resized false lt (h.expandBin raw (h.clhtHash k) k v) (h.numBuckets / clhtRatioHalve) h' →
      PutStep h k v lt h'
  | grow {h' : Hashtable} {p : Nat} :
      (h.table (h.clhtHash k)).editBucket (Bucket.fill k v) = none →
      h.numExpands + 1 = h.numExpandsThreshold →
      ¬ Sparse (h.expandBin raw (h.clhtHash k) k v) →
      (h.expandBin raw (h.clhtHash k) k v).size < maxBucketSize → 2 ≤ p →
      p * h.numBuckets ≤ 2 ^ 23 →
      Resized true 0 (h.expandBin raw (h.clhtHash k) k v) (p * h.numBuckets) h' →
      PutStep h k v lt h'

/-- `clht_put` of a key that is not there comes back, and takes one of these steps. -/
theorem put_cases (calls : Nat) (hw : Wf h) (hk : k ≠ 0) (hno : ∀ w, (k, w) ∉ h.pairs) (v : Nat)
    (lt : UInt32) :
    ∃ h', clhtPut raw calls h k v lt = some (true, h') ∧ Wf h' ∧ PutStep raw h k v lt h' := by
  have hex := not_bucketExists (hw.hash_lt k) hk hno
  unfold clhtPut
  simp only [hex, Bool.false_eq_true, if_false]
  split
  · -- an empty slot
    rename_i u c hedit
    rcases Chain.editBucket_some hedit with ⟨_, b, b', _, hfill, hrep⟩
    exact ⟨_, rfl, (hw.put hno (hrep (Bucket.fill_some hk hfill))).1, .fill hedit⟩
  · -- one more bucket
    rename_i hedit
    rcases hw.expandBin raw hk hno v with ⟨hw', hperm⟩
    split
    -- `num_expands` has reached the threshold, and `ht_status` decides
    · rename_i hthr
      have hsize : 0 < (h.expandBin raw (h.clhtHash k) k v).size := by
        rw [size_eq, hperm.length_eq]
        exact Nat.succ_pos _
      rcases statusWith_spec raw
        (fun ht => ht.setBin (h.clhtHash k) (ht.table (h.clhtHash k)).eliminate)
        (fun ht => htStatus raw calls ht true false 0) hw' hsize lt with
        ⟨n, h', hst, ⟨hstop, rfl⟩ | ⟨hsparse, hres⟩ | ⟨hsparse, hbelow, p, htwo, hbound, hres⟩⟩
      · exact ⟨_, by rw [htStatusBin, hst]; rfl, (hw'.eliminate (hw.hash_lt k)).1,
          .eliminate hedit hthr hstop⟩
      · exact ⟨_, by rw [htStatusBin, hst]; rfl, hres.wf, .shrink hedit hthr hsparse hres⟩
      · exact ⟨_, by rw [htStatusBin, hst]; rfl, hres.wf,
          .grow hedit hthr hsparse hbelow htwo hbound hres⟩
    · rename_i hthr
      exact ⟨_, rfl, hw', .expand hedit hthr⟩

/-- `clht_put` refuses a key that is there, and takes a step for any other. -/
theorem put_total (calls : Nat) (hw : Wf h) (hk : k ≠ 0) (v : Nat) (lt : UInt32) :
    ((h.table (h.clhtHash k)).bucketExists k = true ∧
        clhtPut raw calls h k v lt = some (false, h)) ∨
      ((h.table (h.clhtHash k)).bucketExists k = false ∧ (∀ w, (k, w) ∉ h.pairs) ∧
        ∃ h', clhtPut raw calls h k v lt = some (true, h') ∧ Wf h' ∧ PutStep raw h k v lt h') := by
  by_cases hex : (h.table (h.clhtHash k)).bucketExists k = true
  · exact Or.inl ⟨hex, by simp [clhtPut, hex]⟩
  · rw [Bool.not_eq_true] at hex
    have hno : ∀ w, (k, w) ∉ h.pairs := fun w => hw.not_mem (Chain.bucketExists_eq_false hex)
    exact Or.inr ⟨hex, hno, put_cases raw calls hw hk hno v lt⟩

/-- `clht_put` comes back; it refuses a key that is there, and otherwise the table
has no pairs but the new one and some of the old ones. -/
theorem put_spec (calls : Nat) (hw : Wf h) (hk : k ≠ 0) (v : Nat) (lt : UInt32) :
    ∃ ans h', clhtPut raw calls h k v lt = some (ans, h') ∧ Wf h' ∧
      (ans = false → h' = h) ∧
      (ans = true → (∀ w, (k, w) ∉ h.pairs) ∧ ∀ x ∈ h'.pairs, x = (k, v) ∨ x ∈ h.pairs) := by
  rcases put_total raw calls hw hk v lt with ⟨_, hput⟩ | ⟨_, hno, h', hput, hw', hstep⟩
  · exact ⟨false, h, hput, hw, fun _ => rfl, by simp⟩
  · refine ⟨true, h', hput, hw', by simp, fun _ => ⟨hno, fun x hx => ?_⟩⟩
    rcases hw.expandBin raw hk hno v with ⟨hwe, hperm⟩
    rw [← List.mem_cons]
    cases hstep with
    | fill hedit =>
      rcases Chain.editBucket_some hedit with ⟨_, b, b', _, hfill, hrep⟩
      exact (hw.put hno (hrep (Bucket.fill_some hk hfill))).2.mem_iff.mp hx
    | expand => exact hperm.mem_iff.mp hx
    | eliminate => exact hperm.mem_iff.mp ((hwe.eliminate (hw.hash_lt k)).2 x hx)
    | shrink _ _ _ hres => exact hperm.mem_iff.mp (hres.mem hx)
    | grow _ _ _ _ _ _ hres => exact hperm.mem_iff.mp (hres.mem hx)

end Hashtable

end Epli.Clht
