import Epli.SWTable

/-!
# Passive elimination of a new pair

`clht_put` may add a bucket to a chain and call `ht_status`, which then empties the least
hot bucket of that chain. The heat of the new bucket is what `memalign` has left there:
where it is below that of every other bucket of the chain, the pair just put is the one
that goes. In every other case the pair is found.
-/

namespace Epli.Clht

open Lib

variable {c : Chain} {h : Hashtable} {k v : Nat}

/-! ## The least hot bucket -/

/-- The order of passive elimination: first the time, then the heat. -/
def Colder (time hops time' hops' : Nat) : Prop := time < time' ∨ (time = time' ∧ hops < hops')

/-- One bucket comes before another in passive elimination. -/
def Bucket.Colder (b b' : Bucket) : Prop :=
  Clht.Colder b.t.toNat b.hops.toNat b'.t.toNat b'.hops.toNat

/-- The bucket is colder than those before it, and none is colder. -/
def FirstColdest (bs : List Bucket) (i : Nat) : Prop :=
  ∃ b, bs[i]? = some b ∧ ∀ (j : Nat) (b' : Bucket), bs[j]? = some b' →
    ¬ b'.Colder b ∧ (j < i → b.Colder b')

/-- There is one first coldest bucket. -/
theorem FirstColdest.unique {bs : List Bucket} {i j : Nat} (hi : FirstColdest bs i)
    (hj : FirstColdest bs j) : i = j := by
  rcases hi with ⟨b, hb, hmin⟩
  rcases hj with ⟨b', hb', hmin'⟩
  rcases Nat.lt_trichotomy i j with hlt | heq | hgt
  · exact absurd ((hmin' i b hb).2 hlt) (hmin j b' hb').1
  · exact heq
  · exact absurd ((hmin j b' hb').2 hgt) (hmin' i b hb).1

/-- What is left in a bucket to be created is colder than every bucket of the chain. -/
def Chain.Hotter (c : Chain) (raw : Raw) : Prop :=
  ∀ b ∈ c.buckets, Colder raw.t.toNat raw.hops.toNat b.t.toNat b.hops.toNat

namespace Chain

/-- The last bucket is chosen iff it is colder than the others. -/
theorem leastHot_last (last : Bucket) : ∀ (bs : List Bucket) (i : Nat) (cur : Option Nat)
    (time hops : Nat), (∀ j ∈ cur, j < i) →
    (leastHot (bs ++ [last]) i cur time hops = some (i + bs.length) ↔
      Colder last.t.toNat last.hops.toNat time hops ∧
        ∀ b ∈ bs, Colder last.t.toNat last.hops.toNat b.t.toNat b.hops.toNat) := by
  intro bs
  induction bs with
  | nil =>
    intro i cur time hops hcur
    simp only [List.nil_append, leastHot, List.length_nil, Nat.add_zero]
    split
    · rename_i hcold
      exact ⟨fun _ => ⟨hcold, by simp⟩, fun _ => rfl⟩
    · rename_i hcold
      refine ⟨fun hsome => ?_, fun hc => absurd hc.1 hcold⟩
      exact absurd (hcur i hsome) (Nat.lt_irrefl i)
  | cons b bs ih =>
    intro i cur time hops hcur
    rw [List.cons_append, leastHot, List.length_cons, List.forall_mem_cons,
      show i + (bs.length + 1) = i + 1 + bs.length by omega]
    unfold Colder at ih ⊢
    split
    · -- `b` is the least hot so far
      rw [ih (i + 1) (some i) _ _ (by simp)]
      constructor
      · rintro ⟨hlast, hbs⟩
        exact ⟨by omega, hlast, hbs⟩
      · rintro ⟨_, hlast, hbs⟩
        exact ⟨hlast, hbs⟩
    · rw [ih (i + 1) cur time hops fun j hj => Nat.lt_succ_of_lt (hcur j hj)]
      constructor
      · rintro ⟨hlast, hbs⟩
        exact ⟨hlast, by omega, hbs⟩
      · rintro ⟨hlast, _, hbs⟩
        exact ⟨hlast, hbs⟩

/-- The loop ends with the first of the coldest buckets, or with what it began with if no
bucket is colder. -/
theorem leastHot_spec : ∀ (bs : List Bucket) (i : Nat) (cur : Option Nat) (time hops : Nat),
    (leastHot bs i cur time hops = cur ∧
      ∀ b ∈ bs, ¬ Colder b.t.toNat b.hops.toNat time hops) ∨
    ∃ (j : Nat) (b : Bucket), leastHot bs i cur time hops = some (i + j) ∧ bs[j]? = some b ∧
      Colder b.t.toNat b.hops.toNat time hops ∧
      ∀ (j' : Nat) (b' : Bucket), bs[j']? = some b' →
        ¬ b'.Colder b ∧ (j' < j → b.Colder b') := by
  intro bs
  induction bs with
  | nil =>
    intro i cur time hops
    exact Or.inl ⟨rfl, by simp⟩
  | cons b bs ih =>
    intro i cur time hops
    rw [leastHot]
    split
    · rename_i hcold
      rcases ih (i + 1) (some i) b.t.toNat b.hops.toNat with
        ⟨heq, hmin⟩ | ⟨j, b₁, heq, hget, hcold₁, hmin⟩
      · -- `b` stays the coldest
        refine Or.inr ⟨0, b, heq, rfl, hcold, ?_⟩
        intro j' b' hb'
        cases j' with
        | zero =>
          cases hb'
          refine ⟨?_, fun hlt => absurd hlt (Nat.lt_irrefl 0)⟩
          unfold Bucket.Colder Clht.Colder
          omega
        | succ j' => exact ⟨hmin b' (List.mem_of_getElem? hb'), fun hlt => absurd hlt (by omega)⟩
      -- a later bucket is colder than `b`, so than the minimum before it
      · refine Or.inr ⟨j + 1, b₁, by rw [heq]; congr 1; omega, hget, ?_, ?_⟩
        · unfold Clht.Colder at hcold₁ ⊢
          omega
        · intro j' b' hb'
          cases j' with
          | zero =>
            cases hb'
            refine ⟨?_, fun _ => hcold₁⟩
            unfold Bucket.Colder
            unfold Clht.Colder at hcold₁ ⊢
            omega
          | succ j' => exact ⟨(hmin j' b' hb').1, fun hlt => (hmin j' b' hb').2 (by omega)⟩
    -- `b` is not colder than the minimum so far, and the loop goes on without it
    · rename_i hwarm
      rcases ih (i + 1) cur time hops with ⟨heq, hmin⟩ | ⟨j, b₁, heq, hget, hcold₁, hmin⟩
      · refine Or.inl ⟨heq, List.forall_mem_cons.mpr ⟨hwarm, hmin⟩⟩
      · refine Or.inr ⟨j + 1, b₁, by rw [heq]; congr 1; omega, hget, hcold₁, ?_⟩
        intro j' b' hb'
        cases j' with
        | zero =>
          cases hb'
          have hlast : b₁.Colder b := by
            unfold Bucket.Colder
            unfold Clht.Colder at hcold₁ ⊢
            omega
          refine ⟨?_, fun _ => hlast⟩
          unfold Bucket.Colder Clht.Colder at hlast ⊢
          omega
        | succ j' => exact ⟨(hmin j' b' hb').1, fun hlt => (hmin j' b' hb').2 (by omega)⟩

/-- Clearing a bucket by its place modifies the list of buckets there. -/
theorem clearBucket_buckets (c : Chain) (i : Nat) :
    (c.clearBucket i).buckets = c.buckets.modify i Bucket.clear := by
  cases i with
  | zero => rfl
  | succ i => rfl

/-- Passive elimination clears the first of the coldest buckets of the chain. -/
theorem eliminate_spec (c : Chain) : ∃ i, FirstColdest c.buckets i ∧
    c.eliminate.buckets = c.buckets.modify i Bucket.clear := by
  unfold eliminate
  rcases leastHot_spec c.buckets 0 none (2 ^ 32 - 1) (2 ^ 32 - 1) with
    ⟨_, hmin⟩ | ⟨i, b, heq, hget, _, hmin⟩
  · -- times have 24 bits, so the first bucket is colder than the start of the loop
    have hhead := hmin c.head List.mem_cons_self
    have hlt := c.head.t.isLt
    unfold Clht.Colder at hhead
    omega
  · rw [Nat.zero_add] at heq
    refine ⟨i, ⟨b, hget, hmin⟩, ?_⟩
    rw [heq]
    exact clearBucket_buckets c i

/-- The new bucket of a chain. -/
theorem expand_eq (c : Chain) (raw : Raw) (k v : Nat) : ∃ last : Bucket,
    c.expand raw k v = ⟨c.head, c.overflow ++ [last]⟩ ∧ last.t = raw.t ∧ last.hops = raw.hops ∧
      last.slots = [(k, v), (0, raw.val1), (0, raw.val2)] :=
  ⟨_, rfl, rfl, rfl, rfl⟩

/-- Emptying another bucket keeps the last one. -/
theorem mem_buckets_clearBucket {last : Bucket} {i : Nat} (head : Bucket) (overflow : List Bucket)
    (hi : i ≠ overflow.length + 1) :
    last ∈ (clearBucket ⟨head, overflow ++ [last]⟩ i).buckets := by
  cases i with
  | zero => simp [clearBucket, buckets]
  | succ i =>
    have hget : ((overflow ++ [last]).modify i Bucket.clear)[overflow.length]? = some last := by
      rw [List.getElem?_modify_ne _ _ (by omega)]
      exact List.getElem?_concat_length
    exact List.mem_cons_of_mem _ (List.mem_of_getElem? hget)

/-- Emptying the last bucket leaves the pairs of the others. -/
theorem clearBucket_last_pairs (head last : Bucket) (overflow : List Bucket) :
    (clearBucket ⟨head, overflow ++ [last]⟩ (overflow.length + 1)).pairs =
      (Chain.mk head overflow).pairs := by
  have hmodify : (overflow ++ [last]).modify overflow.length Bucket.clear =
      overflow ++ [last.clear] := by
    rw [List.modify_eq_take_cons_drop (by simp)]
    simp
  unfold pairs buckets clearBucket
  simp [hmodify, Bucket.clear_pairs]

/-- A pair in a new bucket survives passive elimination unless the bucket is the
coldest of its chain. -/
theorem mem_eliminate_expand (hk : k ≠ 0) (hno : (k, v) ∉ c.pairs) (raw : Raw) :
    (k, v) ∈ (c.expand raw k v).eliminate.pairs ↔ ¬ c.Hotter raw := by
  rcases expand_eq c raw k v with ⟨last, hexp, ht, hhops, hslots⟩
  have hpick : leastHot (c.expand raw k v).buckets 0 none (2 ^ 32 - 1) (2 ^ 32 - 1) =
      some (c.overflow.length + 1) ↔ c.Hotter raw := by
    have hlast := leastHot_last last c.buckets 0 none (2 ^ 32 - 1) (2 ^ 32 - 1) (by simp)
    rw [ht, hhops] at hlast
    -- times have 24 bits, so the first bucket is always chosen at first
    have hmax : Colder raw.t.toNat raw.hops.toNat (2 ^ 32 - 1) (2 ^ 32 - 1) := by
      have := raw.t.isLt
      exact Or.inl (by omega)
    rw [hexp, Nat.zero_add] at *
    exact hlast.trans ⟨fun h => h.2, fun h => ⟨hmax, h⟩⟩
  rw [← hpick]
  unfold eliminate
  split
  · rename_i i hi
    rw [hi, Option.some.injEq, hexp]
    by_cases heq : i = c.overflow.length + 1
    · -- the new bucket is emptied, and the old ones do not have the key
      rw [heq, clearBucket_last_pairs]
      simp only [not_true_eq_false, iff_false]
      exact hno
    · simp only [heq, not_false_eq_true, iff_true]
      exact mem_pairs.mpr ⟨last, mem_buckets_clearBucket _ _ heq, by simp [hslots], hk⟩
  · rename_i hi
    rw [hi, expand_pairs hk]
    simp

/-- Active elimination copies the bucket of a new pair: it has one key. -/
theorem mem_keptPairs_expand (hk : k ≠ 0) (c : Chain) (raw : Raw) (lt : UInt32) :
    (k, v) ∈ Hashtable.keptPairs lt (c.expand raw k v) := by
  rcases expand_eq c raw k v with ⟨last, hexp, _, _, hslots⟩
  unfold Hashtable.keptPairs
  rw [List.mem_flatMap]
  refine ⟨last, List.mem_filter.mpr ⟨by simp [hexp, buckets], ?_⟩, ?_⟩
  · simp [hslots, hk]
  · exact Bucket.mem_pairs.mpr ⟨by simp [hslots], hk⟩

end Chain

/-! ## What `clht_put` keeps -/

namespace Hashtable

/-- `clht_put` of the key adds a bucket, starts passive elimination, and the new
bucket is the coldest of its chain. -/
def Evicts (raw : Nat → Nat → Nat → Raw) (h : Hashtable) (key : Nat) : Prop :=
  let bin := h.clhtHash key
  (h.table bin).Full ∧ h.numExpands + 1 = h.numExpandsThreshold ∧
    clhtPercFullHalve * (h.numBuckets * entriesPerBucket) ≤ 100 * (h.size + 1) ∧
    maxBucketSize ≤ h.size + 1 ∧
    (h.table bin).Hotter (raw h.version bin (h.table bin).buckets.length)

variable (raw : Nat → Nat → Nat → Raw)

/-- Expanding a bin links one bucket at its end. -/
theorem expandBin_table (h : Hashtable) (bin k v : Nat) :
    (h.expandBin raw bin k v).table bin =
      (h.table bin).expand (raw h.version bin (h.table bin).buckets.length) k v := by
  show setLoc h.table bin _ bin = _
  rw [setLoc_self]

/-- Both kinds of resize copy the new pair. -/
theorem mem_copiedTable_expandBin (hw : Wf h) (hk : k ≠ 0) (isIncrease : Bool) (lt : UInt32) :
    (k, v) ∈ copiedTable isIncrease lt (h.expandBin raw (h.clhtHash k) k v) := by
  refine List.mem_flatMap.mpr ⟨h.clhtHash k, List.mem_range.mpr (hw.hash_lt k), ?_⟩
  rw [expandBin_table]
  cases isIncrease with
  | true =>
    show (k, v) ∈ (Chain.expand _ _ k v).pairs
    rw [Chain.expand_pairs hk]
    simp
  | false => exact Chain.mem_keptPairs_expand hk _ _ lt

/-- Whether `ht_status` stops the expansion, told by the table before the put. -/
theorem stops_expandBin (hw : Wf h) (hk : k ≠ 0) (hno : ∀ w, (k, w) ∉ h.pairs) (v : Nat) :
    Stops (h.expandBin raw (h.clhtHash k) k v) ↔
      clhtPercFullHalve * (h.numBuckets * entriesPerBucket) ≤ 100 * (h.size + 1) ∧
        maxBucketSize ≤ h.size + 1 := by
  have hsize : (h.expandBin raw (h.clhtHash k) k v).size = h.size + 1 := by
    rw [size_eq, (hw.expandBin raw hk hno v).2.length_eq, size_eq]
    rfl
  unfold Stops
  rw [hsize]
  rfl

/-- A new pair is in the table when `clht_put` returns, unless it is evicted. -/
theorem mem_of_putStep {h' : Hashtable} {lt : UInt32} (hw : Wf h) (hk : k ≠ 0)
    (hno : ∀ w, (k, w) ∉ h.pairs) (hstep : PutStep raw h k v lt h') :
    (k, v) ∈ h'.pairs ↔ ¬ Evicts raw h k := by
  have hbin : (k, v) ∉ (h.table (h.clhtHash k)).pairs := fun hmem => hno v (hw.mem_iff.mpr hmem)
  cases hstep with
  | fill hedit =>
    rcases Chain.editBucket_some hedit with ⟨_, b, b', _, hfill, hrep⟩
    have hperm := (hw.put hno (hrep (Bucket.fill_some hk hfill))).2
    have hkeep : ¬ Evicts raw h k := by
      intro hev
      rw [Chain.full_iff.mp hev.1] at hedit
      cases hedit
    exact iff_of_true (hperm.mem_iff.mpr List.mem_cons_self) hkeep
  | expand _ hthr =>
    have hperm := (hw.expandBin raw hk hno v).2
    exact iff_of_true (hperm.mem_iff.mpr List.mem_cons_self) fun hev => hthr hev.2.1
  | eliminate hedit hthr hstop =>
    rw [stops_expandBin raw hw hk hno] at hstop
    have hev : Evicts raw h k ↔ (h.table (h.clhtHash k)).Hotter
        (raw h.version (h.clhtHash k) (h.table (h.clhtHash k)).buckets.length) :=
      ⟨fun hev => hev.2.2.2.2, fun hhot => ⟨Chain.full_iff.mpr hedit, hthr, hstop.1, hstop.2, hhot⟩⟩
    have hw' := ((hw.expandBin raw hk hno v).1.eliminate (hw.hash_lt k)).1
    rw [hev, ← Chain.mem_eliminate_expand hk hbin, ← expandBin_table, hw'.mem_iff]
    -- the bin of the key is the one that has been emptied
    exact iff_of_eq (congrArg _ (congrArg Chain.pairs (setBin_table _ _ _)))
  | shrink _ _ hsparse hres =>
    refine iff_of_true (hres.perm.mem_iff.mpr (mem_copiedTable_expandBin raw hw hk _ _)) ?_
    intro hev
    exact hsparse.not_ge ((stops_expandBin raw hw hk hno v).mpr ⟨hev.2.2.1, hev.2.2.2.1⟩).1
  | grow _ _ _ hbelow _ _ hres =>
    refine iff_of_true (hres.perm.mem_iff.mpr (mem_copiedTable_expandBin raw hw hk _ _)) ?_
    intro hev
    exact hbelow.not_ge ((stops_expandBin raw hw hk hno v).mpr ⟨hev.2.2.1, hev.2.2.2.1⟩).2

/-- `clht_put` of a new key answers `true`, and `clht_get` then finds the pair, unless
it is evicted. -/
theorem put_effective (calls : Nat) (hw : Wf h) (hk : k ≠ 0) (hno : ∀ w, (k, w) ∉ h.pairs)
    (v : Nat) (lt lt' : UInt32) :
    ∃ h', clhtPut raw calls h k v lt = some (true, h') ∧
      ((h'.clhtGet k lt').1 = v ↔ v = 0 ∨ ¬ Evicts raw h k) := by
  rcases put_cases raw calls hw hk hno v lt with ⟨h', hput, hw', hstep⟩
  refine ⟨h', hput, ?_⟩
  rw [← mem_of_putStep raw hw hk hno hstep]
  by_cases hmem : (k, v) ∈ h'.pairs
  · exact iff_of_true (get_of_mem hw' hmem lt') (Or.inr hmem)
  · have hgone : ∀ w, (k, w) ∉ h'.pairs := by
      intro w hw₂
      rcases put_spec raw calls hw hk v lt with ⟨ans, h₂, hput₂, _, _, htrue⟩
      cases hput.symm.trans hput₂
      rcases (htrue rfl).2 _ hw₂ with heq | hold
      · cases heq
        exact hmem hw₂
      · exact hno w hold
    rw [get_of_not_mem hw' hk hgone]
    simp [hmem, eq_comm]

end Hashtable

/-! ## One long chain -/

theorem Bucket.length_pairs_le (b : Bucket) : b.pairs.length ≤ entriesPerBucket := by
  rw [← b.three, ← b.size_eq]
  exact List.countP_le_length

/-- A chain holds at most three pairs for each bucket. -/
theorem Chain.length_pairs_le (c : Chain) :
    c.pairs.length ≤ entriesPerBucket * (c.overflow.length + 1) := by
  have hsum := List.sum_le_card_nsmul (c.buckets.map fun b => b.pairs.length) entriesPerBucket ?_
  · unfold Chain.pairs
    rw [List.length_flatMap]
    simpa [Chain.buckets, Nat.mul_comm] using hsum
  · intro n hn
    rcases List.mem_map.mp hn with ⟨b, _, rfl⟩
    exact b.length_pairs_le

/-- A chain with three pairs for each bucket has no empty slot. -/
theorem Chain.full_of_length
    (hlen : c.pairs.length = entriesPerBucket * (c.overflow.length + 1)) : c.Full := by
  refine (Chain.full_iff (k := 1) (v := 0)).mpr ?_
  rw [Option.eq_none_iff_forall_ne_some]
  rintro ⟨u, c'⟩ hedit
  -- an empty slot would take one pair more than the buckets have slots
  rcases Chain.editBucket_some hedit with ⟨hsame, b, b', _, hfill, hrep⟩
  have hmore := (hrep (Bucket.fill_some (by decide) hfill)).perm.length_eq
  have hle := Chain.length_pairs_le c'
  rw [hsame, hmore, List.length_append, hlen] at hle
  simp only [List.length_singleton] at hle
  omega

/-- A pair in an empty slot changes no time. -/
theorem Chain.fill_times {u : Unit} {c' : Chain}
    (hedit : c.editBucket (Bucket.fill k v) = some (u, c')) :
    c'.overflow.map Bucket.t = c.overflow.map Bucket.t := by
  have hmap := editBucket_map (g := Bucket.t) (fun b a b' hb => (Bucket.editSlot_fields hb).1) hedit
  exact (List.cons.inj hmap).2

namespace Hashtable

/-- Memory that is cold from the `2^19`-th bucket of a chain on. -/
def lateCold : Nat → Nat → Nat → Raw :=
  fun _ _ place => ⟨if place < 2 ^ 19 then 1 else 0, 0, 0, 0, 0⟩

/-- Memory with the time `1` in the first `2^19` buckets of a chain. -/
def Warm (raw : Nat → Nat → Nat → Raw) : Prop :=
  ∀ version bin place, place < 2 ^ 19 → (raw version bin place).t = 1

theorem warm_lateCold : Warm lateCold := by
  intro version bin place hplace
  rw [lateCold, if_pos hplace]

/-- A table of `2^m` bins with all its pairs in the first one, put there one after the
other. -/
structure OneBin (m : Nat) (h : Hashtable) (xs : List (Nat × Nat)) : Prop where
  copied : Copied (2 ^ m) (UInt32.ofNat (2 ^ m)) h xs
  multiple : ∀ x ∈ xs, x.1 ≠ 0 ∧ 2 ^ 24 ∣ x.1
  expands : h.numExpands.toNat = (h.table 0).overflow.length
  tight : (h.table 0).overflow.length = 0 ∨
    entriesPerBucket * (h.table 0).overflow.length < xs.length
  hot : ∀ b ∈ (h.table 0).overflow, b.t = 1

variable {raw : Nat → Nat → Nat → Raw} {m calls : Nat} {xs ys : List (Nat × Nat)} {lt : UInt32}
  {x : Nat × Nat}

/-- A multiple of `2^24` falls into bin 0. -/
theorem OneBin.clhtHash (ho : OneBin m h xs) (hm : m ≤ 24) (hk : 2 ^ 24 ∣ k) :
    h.clhtHash k = 0 := by
  unfold Hashtable.clhtHash
  rw [ho.copied.hash, ho.copied.buckets, Nat.and_two_pow_sub_one_eq_mod]
  exact Nat.mod_eq_zero_of_dvd ((Nat.pow_dvd_pow 2 hm).trans hk)

/-- All the pairs are in bin 0. -/
theorem OneBin.length_eq (ho : OneBin m h xs) (hm : m ≤ 24) :
    (h.table 0).pairs.length = xs.length := by
  have hpos : 0 < h.numBuckets := by
    rw [ho.copied.buckets]
    exact Nat.two_pow_pos m
  rw [← ho.copied.perm.length_eq, length_pairs]
  symm
  refine Finset.sum_eq_single_of_mem 0 (Finset.mem_range.mpr hpos) ?_
  intro bin hbin hne
  rw [List.length_eq_zero_iff, List.eq_nil_iff_forall_not_mem]
  intro x hx
  have hlt := Finset.mem_range.mp hbin
  have hmem := ho.copied.perm.mem_iff.mp (mem_pairs.mpr ⟨bin, hlt, hx⟩)
  have hzero := ho.clhtHash hm (ho.multiple x hmem).2
  exact hne (ho.copied.keyed bin hlt x hx ▸ hzero)

/-- One more pair, while the chain is in warm memory. -/
theorem OneBin.putPair (hraw : Warm raw) (ho : OneBin m h xs) (hm : m ≤ 24)
    (hx : x.1 ≠ 0 ∧ 2 ^ 24 ∣ x.1) (hlen : xs.length < entriesPerBucket * 2 ^ 19) :
    OneBin m (h.putPair raw x) (x :: xs) := by
  have hbin := ho.clhtHash hm hx.2
  have hcopied := ho.copied.putPair raw (v := x.2) (Nat.two_pow_pos m) hx.1
  have hmult : ∀ y ∈ x :: xs, y.1 ≠ 0 ∧ 2 ^ 24 ∣ y.1 := List.forall_mem_cons.mpr ⟨hx, ho.multiple⟩
  have htight := ho.tight
  unfold entriesPerBucket at htight hlen
  unfold Hashtable.putPair clhtPutSeq at hcopied ⊢
  simp only [hbin] at hcopied ⊢
  cases hedit : (h.table 0).editBucket (Bucket.fill x.1 x.2) with
  | some r =>
    rcases r with ⟨u, c⟩
    simp only [hedit] at hcopied ⊢
    -- a free slot: no bucket is added
    have hcount := (Chain.editBucket_some hedit).1
    refine ⟨hcopied, hmult, ?_, ?_, ?_⟩
    · rw [setBin_table, hcount]
      exact ho.expands
    · rw [setBin_table, hcount, List.length_cons]
      unfold entriesPerBucket
      omega
    · intro b hb
      rw [setBin_table] at hb
      have htime : b.t ∈ (h.table 0).overflow.map Bucket.t := by
        rw [← Chain.fill_times hedit]
        exact List.mem_map_of_mem hb
      rcases List.mem_map.mp htime with ⟨b₀, hb₀, heq⟩
      rw [← heq]
      exact ho.hot b₀ hb₀
  | none =>
    simp only [hedit] at hcopied ⊢
    -- every bucket is full: one more is chained, and it is hot, as its place is below `2 ^ 19`
    have hfull := (Chain.full_iff.mpr hedit).length_pairs
    rw [ho.length_eq hm] at hfull
    unfold entriesPerBucket at hfull
    have hcount : (h.table 0).buckets.length = (h.table 0).overflow.length + 1 := rfl
    have hexp := ho.expands
    have htable := expandBin_table raw h 0 x.1 x.2
    rcases Chain.expand_eq (h.table 0) (raw h.version 0 (h.table 0).buckets.length) x.1 x.2
      with ⟨last, hlast, ht, _, _⟩
    rw [hlast] at htable
    refine ⟨hcopied, hmult, ?_, ?_, ?_⟩
    · rw [htable]
      show (h.numExpands + 1).toNat = _
      rw [UInt32.toNat_add, UInt32.toNat_one, List.length_append, List.length_singleton,
        Nat.mod_eq_of_lt (by omega), hexp]
    · rw [htable, List.length_cons]
      unfold entriesPerBucket
      simp only [List.length_append, List.length_singleton]
      omega
    · intro b hb
      rw [htable, List.mem_append, List.mem_singleton] at hb
      rcases hb with hb | rfl
      · exact ho.hot b hb
      · rw [ht, hraw _ _ _ (by omega)]

/-- Putting such keys one after the other keeps them in the one bin. -/
theorem OneBin.foldl (hraw : Warm raw) (hm : m ≤ 24) : ∀ {ys : List (Nat × Nat)} {h : Hashtable}
    {xs : List (Nat × Nat)}, OneBin m h xs → (∀ x ∈ ys, x.1 ≠ 0 ∧ 2 ^ 24 ∣ x.1) →
    xs.length + ys.length ≤ entriesPerBucket * 2 ^ 19 →
    OneBin m (ys.foldl (Hashtable.putPair raw) h) (ys.reverse ++ xs) := by
  intro ys
  induction ys with
  | nil =>
    intro h xs ho _ _
    exact ho
  | cons y ys ih =>
    intro h xs ho hmult hlen
    rw [List.forall_mem_cons] at hmult
    rw [List.length_cons] at hlen
    rw [List.foldl_cons, List.reverse_cons, List.append_assoc]
    have hnext := ho.putPair hraw hm hmult.1 (by omega)
    refine ih hnext hmult.2 ?_
    rw [List.singleton_append, List.length_cons]
    omega

/-- A fresh table has no pair in any other bin. -/
theorem oneBin_create (hm : m ≤ 24) : ∃ h, create (2 ^ m) = some h ∧
    ∀ version, OneBin m { h with version := version } [] := by
  have hpos := Nat.two_pow_pos m
  have hle : 2 ^ m ≤ 2 ^ 24 := Nat.pow_le_pow_right (by decide) hm
  rcases copied_create hpos with ⟨h, hcreate, hcopied⟩
  have hthr : h.numExpandsThreshold = UInt32.ofNat (2 ^ m) := by
    rw [← create_threshold hpos (by omega) hcreate, UInt32.ofNat_toNat]
  refine ⟨h, hcreate, fun version => ⟨hthr ▸ hcopied version, by simp, ?_, ?_, ?_⟩⟩
  · rw [create, if_neg (by omega)] at hcreate
    cases hcreate
    rfl
  · rw [create, if_neg (by omega)] at hcreate
    cases hcreate
    exact Or.inl rfl
  · rw [create, if_neg (by omega)] at hcreate
    cases hcreate
    exact fun b hb => absurd hb List.not_mem_nil

/-- The chain has no empty slot when its last bucket has three pairs. -/
theorem OneBin.full (ho : OneBin m h xs) (hm : m ≤ 24)
    (hlen : xs.length = entriesPerBucket * 2 ^ m) :
    (h.table 0).overflow.length + 1 = 2 ^ m ∧ (h.table 0).Full := by
  have hpos := Nat.two_pow_pos m
  have hle := Chain.length_pairs_le (h.table 0)
  have htight := ho.tight
  have heq := ho.length_eq hm
  rw [heq, hlen] at hle
  rw [hlen] at htight
  unfold entriesPerBucket at hle htight
  have hcount : (h.table 0).overflow.length + 1 = 2 ^ m := by omega
  exact ⟨hcount, Chain.full_of_length (by rw [heq, hlen, hcount])⟩

/-- The put that links the `2^m`-th bucket of the chain reaches the threshold. -/
theorem OneBin.threshold_iff (ho : OneBin m h xs) (hm : m ≤ 24)
    (hlt : (h.table 0).overflow.length < 2 ^ 24) :
    h.numExpands + 1 = h.numExpandsThreshold ↔ (h.table 0).overflow.length + 1 = 2 ^ m := by
  have hle : 2 ^ m ≤ 2 ^ 24 := Nat.pow_le_pow_right (by decide) hm
  have hexp := ho.expands
  rw [ho.copied.threshold, ← UInt32.toNat_inj, UInt32.toNat_add, UInt32.toNat_one,
    UInt32.toNat_ofNat', Nat.mod_eq_of_lt (by omega), Nat.mod_eq_of_lt (by omega), hexp]

/-- A key that was not put is not found. -/
theorem OneBin.not_exists (ho : OneBin m h xs) (hk : k ≠ 0) (hno : ∀ w, (k, w) ∉ xs) :
    (h.table (h.clhtHash k)).bucketExists k = false := by
  refine not_bucketExists (hash_lt ?_ ho.copied.hash k) hk fun w hmem => ?_
  · rw [ho.copied.buckets]
    exact Nat.two_pow_pos m
  · exact hno w (ho.copied.perm.mem_iff.mp hmem)

/-- `clht_put` before the number of overflow buckets reaches the threshold. -/
theorem OneBin.put (raw : Nat → Nat → Nat → Raw) (calls v : Nat) (lt : UInt32)
    (ho : OneBin m h xs) (hm : m ≤ 24) (hk : k ≠ 0 ∧ 2 ^ 24 ∣ k)
    (hno : ∀ w, (k, w) ∉ xs) (hlen : xs.length < entriesPerBucket * 2 ^ m) :
    clhtPut raw calls h k v lt = some (true, h.putPair raw (k, v)) := by
  have hbin := ho.clhtHash hm hk.2
  have hle : 2 ^ m ≤ 2 ^ 24 := Nat.pow_le_pow_right (by decide) hm
  have hex := ho.not_exists hk.1 hno
  rw [hbin] at hex
  unfold clhtPut Hashtable.putPair clhtPutSeq
  simp only [hbin, hex, Bool.false_eq_true, if_false]
  cases hedit : (h.table 0).editBucket (Bucket.fill k v) with
  | some r => rfl
  | none =>
    have hfull := (Chain.full_iff.mpr hedit).length_pairs
    have hcount : (h.table 0).buckets.length = (h.table 0).overflow.length + 1 := rfl
    rw [ho.length_eq hm, hcount] at hfull
    unfold entriesPerBucket at hfull hlen
    refine if_neg ?_
    show ¬ h.numExpands + 1 = h.numExpandsThreshold
    rw [ho.threshold_iff hm (by omega)]
    omega

/-- `clht_put` of the pair that fills the last overflow bucket doubles the table. -/
theorem OneBin.grow (hraw : Warm raw) (calls v : Nat) (lt : UInt32) (ho : OneBin m h xs)
    (hm₁ : 1 ≤ m) (hm : m ≤ 18) (hk : k ≠ 0 ∧ 2 ^ 24 ∣ k) (hno : ∀ w, (k, w) ∉ xs)
    (hlen : xs.length = entriesPerBucket * 2 ^ m) :
    ∃ h' ys, clhtPut raw calls h k v lt = some (true, h') ∧ OneBin (m + 1) h' ys ∧
      ys.Perm ((k, v) :: xs) := by
  have htwo : 2 ^ 1 ≤ 2 ^ m := Nat.pow_le_pow_right (by decide) hm₁
  have hle : 2 ^ m ≤ 2 ^ 18 := Nat.pow_le_pow_right (by decide) hm
  have hbin := ho.clhtHash (by omega) hk.2
  have hex := ho.not_exists hk.1 hno
  rw [hbin] at hex
  rcases ho.full (by omega) hlen with ⟨hcount, hfull⟩
  have hedit := (Chain.full_iff (k := k) (v := v)).mp hfull
  unfold entriesPerBucket at hlen
  -- the table with the new bucket
  have hoE : OneBin m (h.expandBin raw 0 k v) ((k, v) :: xs) := by
    have hput := ho.putPair hraw (x := (k, v)) (by omega) hk (by unfold entriesPerBucket; omega)
    unfold Hashtable.putPair clhtPutSeq at hput
    simp only [hbin, hedit] at hput
    exact hput
  have hthr : (h.expandBin raw 0 k v).numExpands =
      (h.expandBin raw 0 k v).numExpandsThreshold := by
    exact (ho.threshold_iff (by omega) (by omega)).mpr hcount
  have hunfold : clhtPut raw calls h k v lt =
      (htStatusBin raw calls (h.expandBin raw 0 k v) true false 0 lt).map
        fun r => (true, r.2) := by
    unfold clhtPut
    simp only [hbin, hex, hedit, Bool.false_eq_true, if_false, if_pos hthr]
  rw [hunfold]
  generalize h.expandBin raw 0 k v = hE at hoE hthr
  have hnb := hoE.copied.buckets
  have hlenE : hE.pairs.length = 3 * 2 ^ m + 1 := by
    rw [hoE.copied.perm.length_eq, List.length_cons, hlen]
  have hsize : hE.size = 3 * 2 ^ m + 1 := by rw [size_eq, hlenE]
  have hposE : 0 < hE.numBuckets := by omega
  -- more than `5%` full, fewer pairs than the maximum, and the factor is two
  have hratio := fullRatio_pos hposE (by omega)
  have hhalve : ¬ hE.fullRatio < clhtPercFullHalve := by
    rw [fullRatio_lt_iff hposE, hsize, hnb]
    unfold clhtPercFullHalve entriesPerBucket
    omega
  have hmax : ¬ maxBucketSize ≤ hE.size := by
    unfold maxBucketSize
    omega
  have hinc : ⌊hE.fullRatio / clhtOccupAfterRes⌋₊ = 2 := by
    rcases incBy_spec hposE rfl with ⟨hlower, hupper⟩
    rw [hsize, hnb] at hlower hupper
    generalize ⌊hE.fullRatio / clhtOccupAfterRes⌋₊ = q at hlower hupper ⊢
    have hq₁ : q < 3 := by nlinarith
    have hq₂ : 1 < q := by nlinarith
    omega
  have hnew : 2 * hE.numBuckets = 2 ^ (m + 1) := by
    rw [hnb, Nat.pow_succ, Nat.mul_comm]
  rcases htResizePes_eq raw (fun ht => htStatus raw calls ht true false 0) true 2 0
    (h := hE) hnew.symm (Nat.two_pow_pos _)
    (by rw [Nat.pow_succ]; omega)
    (by rw [hlenE, ← hnew, hnb]; unfold entriesPerBucket; omega) with ⟨htNew, hcreate, hres, _⟩
  have hall : copiedTable true 0 hE = hE.pairs := by simp [copiedTable, copiedPairs, pairs]
  rw [hall] at hres
  rcases oneBin_create (m := m + 1) (by omega) with ⟨ht₀, hcreate₀, hempty⟩
  cases hcreate.symm.trans hcreate₀
  have hfold := OneBin.foldl hraw (by omega) (hempty (hE.version + 1))
    (fun x hx => hoE.multiple x (hoE.copied.perm.mem_iff.mp hx))
    (by rw [hlenE]; unfold entriesPerBucket; simp only [List.length_nil]; omega)
  refine ⟨_, _, ?_, hfold, ?_⟩
  · have hpow : (if pow2roundup 2 = 1 then 2 else pow2roundup 2) = 2 := by decide
    unfold htStatusBin statusWith
    simp only [Bool.false_eq_true, if_false, or_true, if_true, hratio, true_and, if_neg hhalve,
      if_neg hmax, hinc, hpow, hres]
    rfl
  · rw [List.append_nil]
    exact (List.reverse_perm _).trans hoE.copied.perm

end Hashtable

end Epli.Clht

namespace Epli.SWTable

open Lib Clht Hashtable

variable (raw : Nat → Nat → Nat → Raw) (calls : Nat) {s : SWTable}

/-- The states of an `SWTable` that is used by one thread. -/
def Reachable : SWTable → Prop :=
  Reach (fun s => ∃ lt, init lt = some s) (step raw calls) fun _ op => op.key ≠ 0

variable {raw calls}

/-- Every table that the calls reach is well formed. -/
theorem Reachable.wf (hr : Reachable raw calls s) : s.hashtable.Wf := by
  have htracks : ∃ ref, Tracks s ref := by
    refine Reach.invariant (fun s => ∃ ref, Tracks s ref) ?_ ?_ hr
    · rintro s ⟨lt, hinit⟩
      rcases init_wf lt with ⟨s₀, hinit₀, hw, hempty⟩
      cases hinit.symm.trans hinit₀
      refine ⟨fun _ => none, hw, ?_⟩
      rw [hempty]
      simp
    · rintro s op ans s' ⟨ref, h⟩ hk hstep
      rcases tracks_step raw calls h hk with ⟨ans₁, s₁, hstep₁, _, h₁⟩
      cases hstep.symm.trans hstep₁
      exact ⟨_, h₁⟩
  rcases htracks with ⟨ref, hw, _⟩
  exact hw

/-- A put of a new key answers `true`, and the value is there when it returns iff it is
`0` or the pair is not evicted at once. -/
theorem put_effective_iff (hr : Reachable raw calls s) {key : Nat} (hk : key ≠ 0)
    (hno : ∀ w, (key, w) ∉ s.hashtable.pairs) (val : Nat) (lt lt' : UInt32) :
    ∃ h', s.hashtable.clhtPut raw calls key val lt = some (true, h') ∧
      ((h'.clhtGet key lt').1 = val ↔ val = 0 ∨ ¬ Evicts raw s.hashtable key) :=
  put_effective raw calls hr.wf hk hno val lt lt'

/-- Keys that fall into the first bin of every table with `2^24` bins at most. -/
def binKey (n : Nat) : Nat := n * 2 ^ 24

theorem binKey_succ (n : Nat) : binKey n < binKey (n + 1) :=
  Nat.mul_lt_mul_of_pos_right (Nat.lt_succ_self n) (Nat.two_pow_pos 24)

/-- None of these keys is zero, and each is a multiple of `2^24`. -/
theorem binKey_spec (n : Nat) : binKey (n + 1) ≠ 0 ∧ 2 ^ 24 ∣ binKey (n + 1) :=
  ⟨Nat.ne_of_gt (Nat.lt_of_le_of_lt (Nat.zero_le _) (binKey_succ n)), Nat.dvd_mul_left _ _⟩

/-- Puts of the first `n` of these keys. -/
def fillOps (n : Nat) : List SWOp := (List.range n).map fun i => .put (binKey (i + 1)) 1

/-- The state they leave. -/
def Filled (raw : Nat → Nat → Nat → Raw) (calls n : Nat) (s : SWTable) : Prop :=
  ∃ s₀ rs, init 0 = some s₀ ∧ runOps (step raw calls) s₀ (fillOps n) = some (rs, s)

/-- One more put of the run. -/
theorem Filled.succ {n : Nat} {h' : Hashtable} (hf : Filled raw calls n s)
    (hput : clhtPut raw calls s.hashtable (binKey (n + 1)) 1 s.lt = some (true, h')) :
    Filled raw calls (n + 1) { s with hashtable := h' } := by
  rcases hf with ⟨s₀, rs, hinit, hrun⟩
  have hops : fillOps (n + 1) = fillOps n ++ [.put (binKey (n + 1)) 1] := by
    simp [fillOps, List.range_succ]
  refine ⟨s₀, rs ++ [.done true], hinit, ?_⟩
  rw [hops, runOps_append hrun]
  simp [runOps, step, put, hput]

/-- The run keeps to the contract, so its states are reachable. -/
theorem Filled.reachable {n : Nat} (hf : Filled raw calls n s) : Reachable raw calls s := by
  rcases hf with ⟨s₀, rs, hinit, hrun⟩
  refine Reach.run (.init ⟨0, hinit⟩) (along_of_mem ?_ s₀) hrun
  intro op hop
  rcases List.mem_map.mp hop with ⟨i, _, rfl⟩
  exact (binKey_spec i).1

/-- So many keys can be put into the first bin, one after the other. -/
theorem exists_oneBin (hraw : Warm raw) (calls : Nat) : ∀ n ≤ 3 * 2 ^ 19, ∃ s m xs,
    Filled raw calls n s ∧ s.lt = 0 ∧ 14 ≤ m ∧ m ≤ 19 ∧ OneBin m s.hashtable xs ∧ xs.length = n ∧
    n ≤ entriesPerBucket * 2 ^ m ∧ (m = 14 ∨ entriesPerBucket * 2 ^ (m - 1) < n) ∧
    ∀ x ∈ xs, x.1 ≤ binKey n := by
  intro n
  induction n with
  | zero =>
    intro _
    rcases oneBin_create (m := 14) (by decide) with ⟨ht, hcreate, hempty⟩
    have hinit : init 0 = some ⟨ht, 0⟩ := by
      unfold init numBuckets
      rw [show 16384 = 2 ^ 14 from rfl, hcreate]
      rfl
    exact ⟨⟨ht, 0⟩, 14, [], ⟨⟨ht, 0⟩, [], hinit, rfl⟩, rfl, by decide, by decide,
      hempty ht.version, rfl, Nat.zero_le _, Or.inl rfl, by simp⟩
  | succ n ih =>
    intro hn
    rcases ih (by omega) with ⟨s, m, xs, hf, hlt, hm₁, hm₂, ho, hlen, hle, hleast, hkeys⟩
    have hk := binKey_spec n
    have hlast := binKey_succ n
    have hno : ∀ w, (binKey (n + 1), w) ∉ xs := fun w hmem =>
      Nat.not_le.mpr hlast (hkeys _ hmem)
    have hgrown : ∀ x ∈ (binKey (n + 1), 1) :: xs, x.1 ≤ binKey (n + 1) :=
      List.forall_mem_cons.mpr ⟨le_refl _, fun x hx => (hkeys x hx).trans hlast.le⟩
    -- there is room in the first bin of this table
    rcases Nat.lt_or_eq_of_le hle with hroom | hfull
    · have hput := ho.put raw calls 1 s.lt (by omega) hk hno
        (by rw [hlen]; exact hroom)
      refine ⟨_, m, _, hf.succ hput, hlt, hm₁, hm₂, ho.putPair hraw (by omega) hk ?_, ?_, hroom,
        hleast.imp_right fun hlt => Nat.lt_succ_of_lt hlt, hgrown⟩
      · unfold entriesPerBucket
        omega
      · rw [List.length_cons, hlen]
    · -- the next table
      have hm : m ≤ 18 := by
        by_contra hgt
        have hnine : m = 19 := by omega
        subst hnine
        unfold entriesPerBucket at hfull
        omega
      rcases ho.grow hraw calls 1 s.lt (by omega) hm hk hno
        (by rw [hlen]; exact hfull) with ⟨h', ys, hput, ho', hperm⟩
      refine ⟨_, m + 1, ys, hf.succ hput, hlt, by omega, by omega, ho', ?_, ?_, Or.inr ?_, ?_⟩
      · rw [hperm.length_eq, List.length_cons, hlen]
      · have hpos := Nat.two_pow_pos m
        rw [hfull, Nat.pow_succ]
        unfold entriesPerBucket
        omega
      · rw [Nat.add_sub_cancel, hfull]
        exact Nat.lt_succ_self _
      · exact fun x hx => hgrown x (hperm.mem_iff.mp hx)

/-- The full first bin of a table of `2^m` bins: the next put reaches the threshold. -/
theorem exists_fullBin (hraw : Warm raw) (calls : Nat) {m : Nat} (hm₁ : 14 ≤ m) (hm : m ≤ 19) :
    ∃ s xs, Filled raw calls (3 * 2 ^ m) s ∧ s.lt = 0 ∧ OneBin m s.hashtable xs ∧
      xs.length = 3 * 2 ^ m ∧ ∀ x ∈ xs, x.1 ≤ binKey (3 * 2 ^ m) := by
  have hle : 2 ^ m ≤ 2 ^ 19 := Nat.pow_le_pow_right (by decide) hm
  rcases exists_oneBin hraw calls (3 * 2 ^ m) (by omega) with
    ⟨s, m', xs, hf, hlt, _, _, ho, hlen, hroom, hleast, hkeys⟩
  unfold entriesPerBucket at hroom hleast
  have hsame : m' = m := by
    have hpow : 2 ^ m ≤ 2 ^ m' := by omega
    refine Nat.le_antisymm ?_ ((Nat.pow_le_pow_iff_right (by decide)).mp hpow)
    rcases hleast with rfl | hlt'
    · exact hm₁
    · have hbelow := (Nat.pow_lt_pow_iff_right (by decide)).mp
        (by omega : 2 ^ (m' - 1) < 2 ^ m)
      omega
  subst hsame
  exact ⟨s, xs, hf, hlt, ho, hlen, hkeys⟩

/-- `clht_get` of a key of the first bucket of its bin warms that bucket and nothing else. -/
theorem get_head {h : Hashtable} {k v : Nat}
    (hmem : (k, v) ∈ (h.table (h.clhtHash k)).head.pairs) (lt : UInt32) :
    ∃ head : Bucket, (h.clhtGet k lt).2 =
        h.setBin (h.clhtHash k) { h.table (h.clhtHash k) with head := head } ∧
      head.t = BitVec.ofNat 24 lt.toNat ∧ head.slots = (h.table (h.clhtHash k)).head.slots := by
  rcases Bucket.mem_pairs.mp hmem with ⟨hs, _⟩
  have hsome : ((h.table (h.clhtHash k)).head.slots.find? fun s => s.1 == k).isSome := by
    rw [List.find?_isSome]
    exact ⟨_, hs, beq_self_eq_true k⟩
  rcases Option.isSome_iff_exists.mp hsome with ⟨s, hfind⟩
  have hget : (h.table (h.clhtHash k)).head.get k lt = some (s.2, ⟨BitVec.ofNat 24 lt.toNat,
      (h.table (h.clhtHash k)).head.hops + 1, (h.table (h.clhtHash k)).head.slots,
      (h.table (h.clhtHash k)).head.three⟩) := by
    rw [Bucket.get, hfind]
    rfl
  refine ⟨⟨BitVec.ofNat 24 lt.toNat, (h.table (h.clhtHash k)).head.hops + 1, _,
    (h.table (h.clhtHash k)).head.three⟩, ?_, rfl, rfl⟩
  simp only [clhtGet, Chain.editBucket, hget]

/-- After a `Get` of a key of the first bucket of this bin, the next put is lost. -/
theorem exists_evicts (calls : Nat) : ∃ s, Reachable lateCold calls s ∧
    (∀ w, (binKey (3 * 2 ^ 19 + 1), w) ∉ s.hashtable.pairs) ∧
    Evicts lateCold s.hashtable (binKey (3 * 2 ^ 19 + 1)) := by
  rcases exists_fullBin warm_lateCold calls (m := 19) (by decide) (by decide) with
    ⟨s, xs, hf, hlt, ho, hlen, hkeys⟩
  have hr := hf.reachable
  have hw := hr.wf
  rcases ho.full (by decide) hlen with ⟨hcount, hfull⟩
  -- some key of the first bucket
  have hhead : (s.hashtable.table 0).head.pairs.length = entriesPerBucket :=
    hfull.length_bucket List.mem_cons_self
  rcases List.exists_mem_of_length_pos (by rw [hhead]; decide) with ⟨⟨k, v⟩, hmem⟩
  have hmem' : (k, v) ∈ (s.hashtable.table 0).pairs :=
    List.mem_flatMap.mpr ⟨_, List.mem_cons_self, hmem⟩
  have hk : s.hashtable.clhtHash k = 0 := hw.keyed 0 hw.pos _ hmem'
  have hne : k ≠ 0 := (Bucket.mem_pairs.mp hmem).2
  rcases get_head (by rw [hk]; exact hmem) (s.lt + 1) with ⟨head, hget, htime, hslots⟩
  rw [hk] at hget hslots
  have hperm := (get_spec hw hne (s.lt + 1)).2.1
  rw [hget] at hperm
  have hr' : Reachable lateCold calls (s.get k).2 := .step hr (a := .get k) hne rfl
  have htable : (s.get k).2.hashtable =
      s.hashtable.setBin 0 { s.hashtable.table 0 with head := head } := hget
  refine ⟨(s.get k).2, hr', ?_, ?_⟩
  · intro w hw'
    rw [htable, hperm.mem_iff, ho.copied.perm.mem_iff] at hw'
    exact Nat.not_le.mpr (binKey_succ _) (hkeys _ hw')
  · have hbin : s.hashtable.clhtHash (binKey (3 * 2 ^ 19 + 1)) = 0 :=
      ho.clhtHash (by decide) (binKey_spec _).2
    have hsize : (s.hashtable.setBin 0 { s.hashtable.table 0 with head := head }).size =
        3 * 2 ^ 19 := by
      rw [size_eq, hperm.length_eq, ho.copied.perm.length_eq, hlen]
    rw [htable]
    unfold Evicts
    simp only
    rw [show (s.hashtable.setBin 0 _).clhtHash (binKey (3 * 2 ^ 19 + 1)) = 0 from hbin,
      setBin_table, hsize]
    refine ⟨?_, ?_, ?_, by decide, ?_⟩
    · intro b hb
      rcases List.mem_cons.mp hb with rfl | hb
      · rw [hslots]
        exact hfull _ List.mem_cons_self
      · exact hfull b (List.mem_cons_of_mem _ hb)
    · exact (ho.threshold_iff (by decide) (by omega)).mpr hcount
    · show clhtPercFullHalve * (s.hashtable.numBuckets * entriesPerBucket) ≤ _
      rw [ho.copied.buckets]
      decide
    · -- every bucket has the time `1`, the memory of the next one the time `0`
      have hplace : (Chain.buckets { s.hashtable.table 0 with head := head }).length =
          2 ^ 19 := hcount
      intro b hb
      have hone : b.t = 1 := by
        rcases List.mem_cons.mp hb with rfl | hb
        · rw [htime, hlt]
          rfl
        · exact ho.hot b hb
      rw [hplace, hone, lateCold, if_neg (by decide)]
      exact Or.inl (by decide)

/-- Puts into a full chain: the one that makes the first table grow is kept, the one that
starts passive elimination is not. -/
theorem full_bin_put_effective : ∃ s s' h h',
    Reachable lateCold 0 s ∧ (s.hashtable.table 0).Full ∧
    s.hashtable.clhtPut lateCold 0 (binKey (3 * 2 ^ 14 + 1)) 7 s.lt = some (true, h) ∧
    (h.clhtGet (binKey (3 * 2 ^ 14 + 1)) 0).1 = 7 ∧
    Reachable lateCold 0 s' ∧ Evicts lateCold s'.hashtable (binKey (3 * 2 ^ 19 + 1)) ∧
    s'.hashtable.clhtPut lateCold 0 (binKey (3 * 2 ^ 19 + 1)) 7 s'.lt = some (true, h') ∧
    (h'.clhtGet (binKey (3 * 2 ^ 19 + 1)) 0).1 ≠ 7 := by
  rcases exists_fullBin warm_lateCold 0 (m := 14) (by decide) (by decide) with
    ⟨s, xs, hf, _, ho, hlen, hkeys⟩
  -- one table with a full bin that grows, and one that evicts
  rcases exists_evicts 0 with ⟨s', hr', hno', hev⟩
  have hno : ∀ w, (binKey (3 * 2 ^ 14 + 1), w) ∉ s.hashtable.pairs := by
    intro w hw
    rw [ho.copied.perm.mem_iff] at hw
    exact Nat.not_le.mpr (binKey_succ _) (hkeys _ hw)
  rcases put_effective_iff hf.reachable (binKey_spec (3 * 2 ^ 14)).1 hno 7 s.lt 0 with
    ⟨h, hput, hiff⟩
  rcases put_effective_iff hr' (binKey_spec (3 * 2 ^ 19)).1 hno' 7 s'.lt 0 with
    ⟨h', hput', hiff'⟩
  refine ⟨s, s', h, h', hf.reachable, (ho.full (by decide) hlen).2, hput, ?_, hr', hev, hput', ?_⟩
  · -- the table is far below the size where elimination starts
    rw [hiff]
    right
    intro hev
    have hsize : maxBucketSize ≤ s.hashtable.size + 1 := hev.2.2.2.1
    rw [size_eq, ho.copied.perm.length_eq, hlen] at hsize
    exact absurd hsize (by decide)
  · rw [Ne, hiff']
    rintro (h0 | hkeep)
    · cases h0
    · exact hkeep hev

/-- A put that answers `true` and after which the key is not there. -/
theorem put_lost : ∃ (s : SWTable) (h' : Hashtable), Reachable lateCold 0 s ∧
    binKey (3 * 2 ^ 19 + 1) ≠ 0 ∧ (∀ w, (binKey (3 * 2 ^ 19 + 1), w) ∉ s.hashtable.pairs) ∧
    s.hashtable.clhtPut lateCold 0 (binKey (3 * 2 ^ 19 + 1)) 7 s.lt = some (true, h') ∧
    (h'.clhtGet (binKey (3 * 2 ^ 19 + 1)) 0).1 ≠ 7 := by
  rcases exists_evicts 0 with ⟨s, hr, hno, hev⟩
  have hk := (binKey_spec (3 * 2 ^ 19)).1
  rcases put_effective lateCold 0 hr.wf hk hno 7 s.lt 0 with ⟨h', hput, hiff⟩
  refine ⟨s, h', hr, hk, hno, hput, ?_⟩
  rw [Ne, hiff]
  rintro (h0 | hkeep)
  · cases h0
  · exact hkeep hev

end Epli.SWTable
