import Epli.Lib.Machine
import Epli.ClhtResize

/-!
# The shape of a CLHT table

A table that `clht_create` makes is changed by `clht_put`, `clht_update`, `clht_get` and
`clht_remove` alone. Whatever they resize, it keeps between `4` and `2^23` bins: a put that
asks `ht_status` has a full bin, so a table with fewer than `32` bins is not sparse, and one
with `2^23` bins that is not sparse holds more than `MAX_BUCKET_SIZE` keys.

The counter of overflow buckets has 32 bits and is never checked.
-/

namespace Epli.Clht

open Lib

variable {h h' : Hashtable} {k v : Nat} {lt : UInt32}

/-- Calls of the CLHT interface. -/
inductive Call where
  | put (key val : Nat) (lt : UInt32)
  | update (key val : Nat)
  | get (key : Nat) (lt : UInt32)
  | remove (key : Nat)
deriving DecidableEq, Repr

/-- The key of a call. -/
def Call.key : Call → Nat
  | put key _ _ => key
  | update key _ => key
  | get key _ => key
  | remove key => key

namespace Hashtable

/-- One call, with its answer as a number. -/
def step (raw : Nat → Nat → Nat → Raw) (calls : Nat) (h : Hashtable) :
    Call → Option (Nat × Hashtable)
  | .put key val lt => (h.clhtPut raw calls key val lt).map fun r => (r.1.toNat, r.2)
  | .update key val => some ((h.clhtUpdate key val).1.toNat, (h.clhtUpdate key val).2)
  | .get key lt => some (h.clhtGet key lt)
  | .remove key => some (h.clhtRemove key)

/-- The bins of a table, and its counter as far as 32 bits go. -/
structure InBounds (h : Hashtable) : Prop where
  wf : Wf h
  four : 4 ≤ h.numBuckets
  bound : h.numBuckets ≤ 2 ^ 23
  threshold : h.numExpandsThreshold.toNat = h.numBuckets
  tallied : Tallied h

/-- `num_expands` is the number of overflow buckets. -/
def Counted (h : Hashtable) : Prop := h.numExpands.toNat = h.overflowCount

/-- The shape that a table should always have. -/
structure Shape (h : Hashtable) : Prop extends InBounds h where
  counted : Counted h

/-- `clht_put` of the key has to link another bucket. -/
def Allocates (h : Hashtable) (key : Nat) : Prop :=
  (h.table (h.clhtHash key)).bucketExists key = false ∧ (h.table (h.clhtHash key)).Full

instance (h : Hashtable) (key : Nat) : Decidable (Allocates h key) :=
  inferInstanceAs (Decidable (_ ∧ _))

/-- A call that links another bucket finds room in the counter. -/
def NoWrap (h : Hashtable) : Call → Prop
  | .put key _ _ => Allocates h key → h.numExpands.toNat + 1 < 2 ^ 32
  | _ => True

instance (h : Hashtable) : DecidablePred (NoWrap h)
  | .put key _ _ => inferInstanceAs (Decidable (Allocates h key → _))
  | .update _ _ => .isTrue trivial
  | .get _ _ => .isTrue trivial
  | .remove _ => .isTrue trivial

/-- The counter is right as long as fewer than `2^32` buckets are linked. -/
theorem counted_iff (ht : Tallied h) : Counted h ↔ h.overflowCount < 2 ^ 32 := by
  unfold Counted
  rw [ht, UInt32.toNat_ofNat']
  constructor
  · intro heq
    rw [← heq]
    exact Nat.mod_lt _ (by decide)
  · exact Nat.mod_eq_of_lt

/-! ## Calls that link no bucket -/

/-- The same table, with the same counts. -/
structure SameCounts (h h' : Hashtable) : Prop where
  buckets : h'.numBuckets = h.numBuckets
  threshold : h'.numExpandsThreshold = h.numExpandsThreshold
  expands : h'.numExpands = h.numExpands
  overflow : h'.overflowCount = h.overflowCount
  version : h'.version = h.version

theorem SameCounts.refl (h : Hashtable) : SameCounts h h := ⟨rfl, rfl, rfl, rfl, rfl⟩

/-- An edit that links no bucket changes no count. -/
theorem sameCounts_setBin {bin : Nat} {c : Chain} (hbin : bin < h.numBuckets)
    (hlen : c.overflow.length = (h.table bin).overflow.length) :
    SameCounts h (h.setBin bin c) := by
  have hsum := overflowCount_setBin hbin c
  exact ⟨rfl, rfl, rfl, by omega, rfl⟩

/-- Bounds that are about the counts carry over. -/
theorem SameCounts.inBounds (hs : SameCounts h h') (hi : InBounds h) (hw : Wf h') :
    InBounds h' := by
  refine ⟨hw, ?_, ?_, ?_, ?_⟩
  · rw [hs.buckets]
    exact hi.four
  · rw [hs.buckets]
    exact hi.bound
  · rw [hs.threshold, hs.buckets]
    exact hi.threshold
  · unfold Tallied
    rw [hs.expands, hs.overflow]
    exact hi.tallied

theorem SameCounts.counted (hs : SameCounts h h') : Counted h' ↔ Counted h := by
  unfold Counted
  rw [hs.expands, hs.overflow]

/-- `clht_get` writes a time and links nothing. -/
theorem sameCounts_get (hw : Wf h) (k : Nat) (lt : UInt32) : SameCounts h (h.clhtGet k lt).2 := by
  unfold clhtGet
  simp only
  split
  · exact sameCounts_setBin (hw.hash_lt k) (Chain.editBucket_some ‹_›).1
  · exact .refl h

/-- `clht_update` links nothing. -/
theorem sameCounts_update (hw : Wf h) (k v : Nat) : SameCounts h (h.clhtUpdate k v).2 := by
  unfold clhtUpdate
  simp only
  split
  · exact sameCounts_setBin (hw.hash_lt k) (Chain.editBucket_some ‹_›).1
  · exact .refl h

/-- `clht_remove` unlinks nothing: the bucket stays, empty or not. -/
theorem sameCounts_remove (hw : Wf h) (k : Nat) : SameCounts h (h.clhtRemove k).2 := by
  unfold clhtRemove
  simp only
  split
  · split
    · exact sameCounts_setBin (hw.hash_lt k) (Chain.editBucket_some ‹_›).1
    · exact .refl h
  · exact .refl h

/-! ## `clht_put` -/

variable (raw : Nat → Nat → Nat → Raw)

/-- A new table of at most `2^23` bins has few enough linked buckets for its counter to be
right. -/
theorem Resized.counted {isIncrease : Bool} {nb : Nat} (hres : Resized isIncrease lt h nb h')
    (hnb : nb ≤ 2 ^ 23) : Counted h' := by
  have hfew := hres.few
  exact (counted_iff hres.tallied).mpr (by omega)

/-- A resize to a size within the bounds stays within the bounds. -/
theorem Resized.inBounds {isIncrease : Bool} {nb : Nat} (hres : Resized isIncrease lt h nb h')
    (hfour : 4 ≤ nb) (hnb : nb ≤ 2 ^ 23) : InBounds h' := by
  refine ⟨hres.wf, ?_, ?_, ?_, hres.tallied⟩
  · rw [hres.buckets]
    exact hfour
  · rw [hres.buckets]
    exact hnb
  · rw [hres.threshold, hres.buckets]

/-- The table that a put which links a bucket hands to `ht_status`. -/
theorem InBounds.expandBin (hi : InBounds h) (hk : k ≠ 0) (hno : ∀ w, (k, w) ∉ h.pairs)
    (v : Nat) : InBounds (h.expandBin raw (h.clhtHash k) k v) :=
  ⟨(hi.wf.expandBin raw hk hno v).1, hi.four, hi.bound, hi.threshold,
    hi.tallied.expandBin raw (hi.wf.hash_lt k) k v⟩

/-- A full bin has three pairs at least, and the new one makes four. -/
theorem four_le_size (hw : Wf h) (hk : k ≠ 0) (hno : ∀ w, (k, w) ∉ h.pairs)
    (hfull : (h.table (h.clhtHash k)).Full) (v : Nat) :
    4 ≤ (h.expandBin raw (h.clhtHash k) k v).size := by
  have hbin := hfull.length_pairs
  have hsub : (h.table (h.clhtHash k)).pairs.length ≤ h.pairs.length := by
    rw [length_pairs]
    exact Finset.single_le_sum (f := fun bin => (h.table bin).pairs.length)
      (fun _ _ => Nat.zero_le _) (Finset.mem_range.mpr (hw.hash_lt k))
  rw [size_eq, (hw.expandBin raw hk hno v).2.length_eq, List.length_cons]
  unfold entriesPerBucket at hbin
  have hlen : (h.table (h.clhtHash k)).buckets.length =
      (h.table (h.clhtHash k)).overflow.length + 1 := rfl
  omega

/-- A sparse table with four pairs has `32` bins at least. -/
theorem Sparse.thirtyTwo_le (hsparse : Sparse h) (hw : Wf h) (hsize : 4 ≤ h.size) :
    32 ≤ h.numBuckets := by
  rcases hw.pow with ⟨n, hn⟩
  have hfive : 5 ≤ n := by
    by_contra hlt
    have hle : h.numBuckets ≤ 2 ^ 4 := hn ▸ Nat.pow_le_pow_right (by decide) (by omega)
    unfold Sparse clhtPercFullHalve entriesPerBucket at hsparse
    omega
  have hle : 2 ^ 5 ≤ 2 ^ n := Nat.pow_le_pow_right (by decide) hfive
  omega

/-- Passive elimination clears buckets and unlinks none. -/
theorem eliminate_overflow (c : Chain) : c.eliminate.overflow.length = c.overflow.length := by
  unfold Chain.eliminate
  split
  · rename_i i _
    cases i with
    | zero => rfl
    | succ i => exact List.length_modify _ _ _
  · rfl

/-- What a put of a key that is not there does to the shape. -/
theorem InBounds.putStep (hi : InBounds h) (hk : k ≠ 0) (hno : ∀ w, (k, w) ∉ h.pairs)
    (hstep : PutStep raw h k v lt h') (hw : Wf h') :
    InBounds h' ∧ (Counted h → (Counted h' ↔
      ((h.table (h.clhtHash k)).Full → h.numExpands.toNat + 1 < 2 ^ 32))) := by
  have hbin := hi.wf.hash_lt k
  -- at the threshold the counter is far from its end
  have hroom : h.numExpands + 1 = h.numExpandsThreshold → h.numExpands.toNat + 1 < 2 ^ 32 := by
    intro hthr
    have hbound := hi.bound
    have hlt := h.numExpands.toNat_lt
    by_contra hge
    have hmax : h.numExpands.toNat = 2 ^ 32 - 1 := by omega
    have hzero : (h.numExpands + 1).toNat = 0 := by
      rw [UInt32.toNat_add, hmax]
      rfl
    have hfour := hi.four
    rw [hthr, hi.threshold] at hzero
    omega
  have hcount := overflowCount_expandBin raw hbin k v
  cases hstep with
  | fill hedit =>
    have hs := sameCounts_setBin hbin (Chain.editBucket_some hedit).1
    refine ⟨hs.inBounds hi hw, fun hc => iff_of_true (hs.counted.mpr hc) ?_⟩
    intro hfull
    rw [Chain.full_iff.mp hfull] at hedit
    cases hedit
  | expand hedit hthr =>
    have hi' := hi.expandBin raw hk hno v
    refine ⟨hi', fun hc => ?_⟩
    rw [counted_iff hi'.tallied, hcount, ← hc]
    exact ⟨fun hlt _ => hlt, fun hlt => hlt (Chain.full_iff.mpr hedit)⟩
  | eliminate hedit hthr =>
    have hi' := hi.expandBin raw hk hno v
    have hs := sameCounts_setBin (h := h.expandBin raw (h.clhtHash k) k v) hbin
      (eliminate_overflow ((h.expandBin raw (h.clhtHash k) k v).table (h.clhtHash k)))
    refine ⟨hs.inBounds hi' hw, fun hc => iff_of_true ?_ fun _ => hroom hthr⟩
    rw [hs.counted, counted_iff hi'.tallied, hcount, ← hc]
    exact hroom hthr
  | shrink hedit hthr hsparse hres =>
    have hbound := hi.bound
    have hbig := hsparse.thirtyTwo_le (hi.expandBin raw hk hno v).wf
      (four_le_size raw hi.wf hk hno (Chain.full_iff.mpr hedit) v)
    change 32 ≤ h.numBuckets at hbig
    unfold clhtRatioHalve at hres
    exact ⟨hres.inBounds (by omega) (by omega),
      fun _ => iff_of_true (hres.counted (by omega)) fun _ => hroom hthr⟩
  | @grow _ p _ hthr _ _ htwo hbound hres =>
    have hfour : 4 ≤ p * h.numBuckets :=
      le_trans hi.four (Nat.le_mul_of_pos_left _ (by omega))
    exact ⟨hres.inBounds hfour hbound,
      fun _ => iff_of_true (hres.counted hbound) fun _ => hroom hthr⟩

/-! ## Runs -/

variable {raw} {calls : Nat} {call : Call}

/-- One call: the bins stay in bounds, and the counter stays right iff it has room. -/
theorem InBounds.step (raw : Nat → Nat → Nat → Raw) (calls : Nat) (hi : InBounds h)
    (hk : call.key ≠ 0) :
    ∃ r h', h.step raw calls call = some (r, h') ∧ InBounds h' ∧
      (Counted h → (Counted h' ↔ NoWrap h call)) := by
  cases call with
  | put k v lt =>
    change k ≠ 0 at hk
    rcases put_total raw calls hi.wf hk v lt with ⟨hex, hput⟩ | ⟨hex, hno, h', hput, hw, hstep⟩
    -- a put that is refused links nothing
    · refine ⟨0, h, by simp [Hashtable.step, hput], hi, fun hc => iff_of_true hc ?_⟩
      intro hall
      exact absurd (hall.1.symm.trans hex) (by decide)
    · rcases hi.putStep raw hk hno hstep hw with ⟨hi', hcounted⟩
      refine ⟨1, h', by simp [Hashtable.step, hput], hi', fun hc => (hcounted hc).trans ?_⟩
      exact ⟨fun hlt hall => hlt hall.2, fun hlt hfull => hlt ⟨hex, hfull⟩⟩
  | update k v =>
    have hs := sameCounts_update hi.wf k v
    exact ⟨_, _, rfl, hs.inBounds hi (update_spec hi.wf hk v).1,
      fun hc => iff_of_true (hs.counted.mpr hc) trivial⟩
  | get k lt =>
    have hs := sameCounts_get hi.wf k lt
    exact ⟨_, _, rfl, hs.inBounds hi (get_spec hi.wf hk lt).1,
      fun hc => iff_of_true (hs.counted.mpr hc) trivial⟩
  | remove k =>
    have hs := sameCounts_remove hi.wf k
    exact ⟨_, _, rfl, hs.inBounds hi (remove_spec hi.wf hk).1,
      fun hc => iff_of_true (hs.counted.mpr hc) trivial⟩

/-- The bounds hold after every call. -/
theorem InBounds.after (hi : InBounds h) (hk : call.key ≠ 0) :
    After (Hashtable.step raw calls) InBounds h call := by
  intro r h' hrun
  rcases hi.step raw calls hk with ⟨r₁, h₁, hrun₁, hi₁, _⟩
  cases hrun.symm.trans hrun₁
  exact hi₁

/-- A call keeps the shape exactly when the counter does not wrap. -/
theorem Shape.after_iff (hs : Shape h) (hk : call.key ≠ 0) :
    After (Hashtable.step raw calls) Shape h call ↔ NoWrap h call := by
  rcases hs.toInBounds.step raw calls hk with ⟨r₁, h₁, hrun₁, hi₁, hiff⟩
  rw [← hiff hs.counted]
  constructor
  · intro hafter
    exact (hafter r₁ h₁ hrun₁).counted
  · intro hc r h' hrun
    cases hrun.symm.trans hrun₁
    exact ⟨hi₁, hc⟩

/-- `clht_create`, as the SW-Table calls it. -/
theorem shape_create : ∃ h, create 16384 = some h ∧ Shape h := by
  have hpos : 0 < 16384 := by decide
  rcases copied_create hpos with ⟨h, hcreate, hcopied⟩
  have hc := hcopied h.version
  have ht : Tallied h := tallied_create hcreate h.version
  have hthr := create_threshold hpos (by decide) hcreate
  have hcounted : Counted h := by
    have hle := hc.overflow_le
    rw [counted_iff ht]
    change entriesPerBucket * h.overflowCount ≤ 0 at hle
    unfold entriesPerBucket at hle
    omega
  have hnb : h.numBuckets = 16384 := hc.buckets
  refine ⟨h, hcreate, ⟨⟨⟨⟨14, hnb⟩, by omega, hc.hash, hc.keyed, ?_⟩, by omega, by omega, ?_, ht⟩,
    hcounted⟩⟩
  · have hempty : h.pairs = [] := hc.perm.eq_nil
    rw [hempty]
    exact List.nodup_nil
  · rw [hthr, hnb]

/-- Every run comes back, with every table in bounds; the tables all have the right
shape iff no call finds the counter of overflow buckets at its end. -/
theorem shape_iff (raw : Nat → Nat → Nat → Raw) (nested : Nat) (calls : List Call)
    (hk : ∀ call ∈ calls, call.key ≠ 0) :
    ∃ h₀ rs h, create 16384 = some h₀ ∧ Shape h₀ ∧
      runOps (step raw nested) h₀ calls = some (rs, h) ∧
      Along (step raw nested) (After (step raw nested) InBounds) h₀ calls ∧
      (Along (step raw nested) (After (step raw nested) Shape) h₀ calls ↔
        Along (step raw nested) NoWrap h₀ calls) := by
  rcases shape_create with ⟨h₀, hcreate, hshape⟩
  have hkeys : Along (step raw nested) (fun _ call => call.key ≠ 0) h₀ calls :=
    along_of_mem (p := fun call : Call => call.key ≠ 0) hk h₀
  have htotal : ∀ h (call : Call), InBounds h → call.key ≠ 0 →
      ∃ r h', step raw nested h call = some (r, h') ∧ InBounds h' := by
    intro h call hi hne
    rcases hi.step raw nested hne with ⟨r, h', hrun, hi', _⟩
    exact ⟨r, h', hrun, hi'⟩
  rcases hkeys.total InBounds htotal hshape.toInBounds with ⟨rs, h, hrun, _⟩
  refine ⟨h₀, rs, h, hcreate, hshape, hrun, ?_, ?_⟩
  · exact hkeys.invariant InBounds (fun h call r h' hi hne hrun => hi.after hne r h' hrun)
      (fun h call hi hne => hi.after hne) hshape.toInBounds
  · exact Along.iff_along Shape (fun h call hs hne => hs.after_iff hne)
      (fun h call r h' hs hne hroom hrun => (hs.after_iff hne).mpr hroom r h' hrun) hshape hkeys

/-- Memory that has been cleared. -/
def cleared : Nat → Nat → Nat → Raw := fun _ _ _ => ⟨0, 0, 0, 0, 0⟩

/-- Four keys of one bin, the last in an overflow bucket. -/
def chainCalls : List Call :=
  [.put 5 7 0, .put 16389 8 0, .put 32773 9 0, .put 49157 10 0, .get 49157 1, .update 16389 11,
    .remove 5]

/-- A run that links buckets, with the counter right throughout. -/
theorem chain_calls_shape : ∃ h₀ rs h, create 16384 = some h₀ ∧
    runOps (step cleared 0) h₀ chainCalls = some (rs, h) ∧
    Along (step cleared 0) (After (step cleared 0) Shape) h₀ chainCalls := by
  rcases shape_iff cleared 0 chainCalls (by decide) with
    ⟨h₀, rs, h, hcreate, _, hrun, _, hiff⟩
  refine ⟨h₀, rs, h, hcreate, hrun, hiff.mpr ?_⟩
  cases hcreate
  decide +kernel

/-! ## The resize that a put starts -/

/-- The table that `clht_put` hands to `ht_status`: the pair is in a bucket of its own. -/
def linked (raw : Nat → Nat → Nat → Raw) (h : Hashtable) (key val : Nat) : Hashtable :=
  h.expandBin raw (h.clhtHash key) key val

/-- `bucket_cpy` keeps a bucket in active elimination. -/
def Spared (lt : UInt32) (b : Bucket) : Prop :=
  b.size < 2 ∨ lt.toNat < b.t.toNat + maxActiveEliminationTime

instance (lt : UInt32) (b : Bucket) : Decidable (Spared lt b) :=
  inferInstanceAs (Decidable (_ ∨ _))

/-- A shrink copies the pairs of the buckets that active elimination spares. -/
theorem mem_copiedTable_shrink {x : Nat × Nat} : x ∈ copiedTable false lt h ↔
    ∃ bin < h.numBuckets, ∃ b ∈ (h.table bin).buckets, Spared lt b ∧ x ∈ b.pairs := by
  have hcount : ∀ b : Bucket, (b.slots.countP fun s => s.1 ≠ 0) = b.size := by
    intro b
    unfold Bucket.size
    exact List.countP_congr fun s _ => by simp [Nat.pos_iff_ne_zero]
  simp only [copiedTable, copiedPairs, keptPairs, Bool.false_eq_true, if_false, List.mem_flatMap,
    List.mem_range, List.mem_filter, decide_eq_true_eq, hcount, Spared, and_assoc, Or.comm]

/-- A growth copies every pair. -/
theorem copiedTable_grow (lt : UInt32) (h : Hashtable) : copiedTable true lt h = h.pairs := by
  simp [copiedTable, copiedPairs, pairs]

/-- A put that reaches the threshold shrinks the table, or makes it grow, or empties a
bucket. -/
theorem threshold_cases (raw : Nat → Nat → Nat → Raw) (nested : Nat) (hw : Wf h) (hk : k ≠ 0)
    (hall : Allocates h k) (hthr : h.numExpands + 1 = h.numExpandsThreshold) (v : Nat)
    (lt : UInt32) :
    ∃ h', clhtPut raw nested h k v lt = some (true, h') ∧ Wf h' ∧
      ((Sparse (linked raw h k v) ∧
          Resized false lt (linked raw h k v) (h.numBuckets / clhtRatioHalve) h') ∨
        (¬ Sparse (linked raw h k v) ∧ (linked raw h k v).size < maxBucketSize ∧
          ∃ p, 2 ≤ p ∧ Resized true 0 (linked raw h k v) (p * h.numBuckets) h') ∨
        (Stops (linked raw h k v) ∧ h' = (linked raw h k v).setBin (h.clhtHash k)
          ((linked raw h k v).table (h.clhtHash k)).eliminate)) := by
  have hno : ∀ w, (k, w) ∉ h.pairs := fun w => hw.not_mem (Chain.bucketExists_eq_false hall.1)
  have hfull := (Chain.full_iff (k := k) (v := v)).mp hall.2
  rcases put_cases raw nested hw hk hno v lt with ⟨h', hput, hw', hstep⟩
  refine ⟨h', hput, hw', ?_⟩
  -- no empty slot and the threshold reached: three of the five steps are left
  cases hstep with
  | fill hedit =>
    rw [hfull] at hedit
    cases hedit
  | expand _ hne => exact absurd hthr hne
  | eliminate _ _ hstop => exact Or.inr (Or.inr ⟨hstop, rfl⟩)
  | shrink _ _ hsparse hres => exact Or.inl ⟨hsparse, hres⟩
  | grow _ _ hsparse hbelow htwo _ hres =>
    exact Or.inr (Or.inl ⟨hsparse, hbelow, _, htwo, hres⟩)

/-- After a shrink the table has the pairs of the buckets spared. -/
theorem Resized.mem_shrink {nb : Nat} {h' : Hashtable} {lt : UInt32}
    (hres : Resized false lt h nb h') (x : Nat × Nat) : x ∈ h'.pairs ↔
      ∃ bin < h.numBuckets, ∃ b ∈ (h.table bin).buckets, Spared lt b ∧ x ∈ b.pairs :=
  hres.perm.mem_iff.trans mem_copiedTable_shrink

/-- A put that reaches the threshold comes back without a second call of `ht_status`: with
one resize to a larger table of the same pairs, with one to a smaller table of the pairs of
the spared buckets, or with one bucket emptied. -/
theorem resize_once (raw : Nat → Nat → Nat → Raw) (nested : Nat) (hw : Wf h) (hk : k ≠ 0)
    (hall : Allocates h k) (hthr : h.numExpands + 1 = h.numExpandsThreshold) (v : Nat)
    (lt : UInt32) :
    ∃ h', clhtPut raw nested h k v lt = some (true, h') ∧ Wf h' ∧
      (linked raw h k v).pairs.Perm ((k, v) :: h.pairs) ∧
      ((Sparse (linked raw h k v) ∧ h'.version = h.version + 1 ∧
          h'.numBuckets = h.numBuckets / clhtRatioHalve ∧
          (∀ x, x ∈ h'.pairs ↔ ∃ bin < h.numBuckets,
            ∃ b ∈ ((linked raw h k v).table bin).buckets, Spared lt b ∧ x ∈ b.pairs) ∧
          ∀ x ∈ h'.pairs, ∀ lt', (h'.clhtGet x.1 lt').1 = x.2) ∨
        (¬ Sparse (linked raw h k v) ∧ (linked raw h k v).size < maxBucketSize ∧
          h'.version = h.version + 1 ∧ h.numBuckets < h'.numBuckets ∧
          h'.pairs.Perm (linked raw h k v).pairs ∧
          ∀ x ∈ h'.pairs, ∀ lt', (h'.clhtGet x.1 lt').1 = x.2) ∨
        (Stops (linked raw h k v) ∧ h' = (linked raw h k v).setBin (h.clhtHash k)
          ((linked raw h k v).table (h.clhtHash k)).eliminate)) := by
  have hno : ∀ w, (k, w) ∉ h.pairs := fun w => hw.not_mem (Chain.bucketExists_eq_false hall.1)
  rcases threshold_cases raw nested hw hk hall hthr v lt with ⟨h', hput, hw', hcases⟩
  refine ⟨h', hput, hw', (hw.expandBin raw hk hno v).2, ?_⟩
  have hget : ∀ x ∈ h'.pairs, ∀ lt', (h'.clhtGet x.1 lt').1 = x.2 :=
    fun x hx lt' => get_of_mem hw' hx lt'
  -- shrink, growth or elimination, by how full the table is
  rcases hcases with ⟨hsparse, hres⟩ | ⟨hsparse, hbelow, p, htwo, hres⟩ | hstop
  · exact Or.inl ⟨hsparse, hres.version, hres.buckets, hres.mem_shrink, hget⟩
  · have hmore : h.numBuckets < h'.numBuckets := by
      have hpos := hw.pos
      have hle := Nat.mul_le_mul_right h.numBuckets htwo
      rw [hres.buckets]
      omega
    have hperm := hres.perm
    rw [copiedTable_grow] at hperm
    exact Or.inr (Or.inl ⟨hsparse, hbelow, hres.version, hmore, hperm, hget⟩)
  · exact Or.inr (Or.inr hstop)

/-- A table of `32` bins, all but the first empty with an overflow bucket that is empty
too. -/
def sparseTable : Hashtable where
  numBuckets := 32
  table := fun bin =>
    if bin = 0 then ⟨⟨3, 1, [(32, 1), (64, 2), (96, 3)], rfl⟩, []⟩ else ⟨.zero, [.zero]⟩
  hash := 31
  version := 0
  numExpands := 31
  numExpandsThreshold := 32

/-- The full bucket has not been read for `997` ticks, and is left behind. -/
theorem sparseTable_resized : ∃ h', clhtPut cleared 0 sparseTable 128 4 1000 = some (true, h') ∧
    h'.version = 1 ∧ h'.numBuckets = 4 ∧ (h'.clhtGet 128 1001).1 = 4 ∧
    ∀ x ∈ h'.pairs, x = (128, 4) := by
  have hw : Wf sparseTable :=
    ⟨⟨5, rfl⟩, by decide, rfl, by decide +kernel, by decide +kernel⟩
  rcases resize_once cleared 0 hw (k := 128) (by decide) (by decide +kernel) (by decide) 4 1000
    with ⟨h', hput, _, _, ⟨_, hversion, hnb, hpairs, hget⟩ | ⟨hsparse, _⟩ | ⟨hstop, _⟩⟩
  · have hspared : ∀ bin < 32, ∀ b ∈ ((linked cleared sparseTable 128 4).table bin).buckets,
        Spared 1000 b → ∀ x ∈ b.pairs, x = (128, 4) := by
      decide +kernel
    have hnew : (128, 4) ∈ h'.pairs := (hpairs _).mpr (by decide +kernel)
    refine ⟨h', hput, hversion, hnb, hget _ hnew 1001, ?_⟩
    intro x hx
    rcases (hpairs x).mp hx with ⟨bin, hbin, b, hb, hkept, hx⟩
    exact hspared bin hbin b hb hkept x hx
  · exact absurd (by decide +kernel) hsparse
  · exact absurd hstop (by decide +kernel)

end Hashtable

end Epli.Clht
