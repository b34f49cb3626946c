import Epli.History

/-!
# Active elimination and recently read keys

A put that makes the table smaller copies a bucket if it has fewer than two keys, or if the
time in it is less than `MAX_ACTIVE_ELIMINATION_TIME` ticks old. That time is the last hit of
the bucket in the current table, in 24 bits: it is the age of a key that was read earlier
neither after `2^24` ticks nor when the key has moved to another bucket since.
-/

namespace Epli.Clht.Hashtable

open Lib

variable {h h' : Hashtable} {k v : Nat} {lt : UInt32}

/-- A put makes the table smaller. -/
def Shrinks (raw : Nat → Nat → Nat → Raw) (h : Hashtable) (key val : Nat) : Prop :=
  Allocates h key ∧ h.numExpands + 1 = h.numExpandsThreshold ∧ Sparse (linked raw h key val)

/-- A pair is in one bucket only. -/
theorem Wf.bucket_unique (hw : Wf h) {bin bin' : Nat} {b b' : Bucket} {x : Nat × Nat}
    (hbin : bin < h.numBuckets) (hb : b ∈ (h.table bin).buckets) (hx : x ∈ b.pairs)
    (hbin' : bin' < h.numBuckets) (hb' : b' ∈ (h.table bin').buckets) (hx' : x ∈ b'.pairs) :
    b = b' := by
  have hhash := hw.keyed bin hbin x (List.mem_flatMap.mpr ⟨b, hb, hx⟩)
  have hhash' := hw.keyed bin' hbin' x (List.mem_flatMap.mpr ⟨b', hb', hx'⟩)
  have hsame : bin' = bin := hhash'.symm.trans hhash
  subst hsame
  have hnd := (List.nodup_flatMap.mp (List.Nodup.of_map Prod.fst hw.nodup)).1 bin'
    (List.mem_range.mpr hbin)
  have hdisj := (List.nodup_flatMap.mp hnd).2
  by_contra hne
  have hsymm : Std.Symm (Function.onFun List.Disjoint Bucket.pairs) :=
    ⟨fun _ _ hd => List.Disjoint.symm hd⟩
  exact hdisj.forall hb hb' hne hx hx'

variable {raw : Nat → Nat → Nat → Raw} {calls : Nat}

/-- Nothing but a shrink leaves fewer bins. -/
theorem shrinks_of_lt {ans : Bool} (hw : Wf h) (hk : k ≠ 0)
    (hput : clhtPut raw calls h k v lt = some (ans, h')) (hlt : h'.numBuckets < h.numBuckets) :
    Shrinks raw h k v := by
  rcases put_total raw calls hw hk v lt with ⟨_, hput₁⟩ | ⟨hex, hno, h₁, hput₁, _, hstep⟩
  · cases hput.symm.trans hput₁
    exact absurd hlt (Nat.lt_irrefl _)
  · cases hput.symm.trans hput₁
    cases hstep with
    | fill => exact absurd hlt (Nat.lt_irrefl _)
    | expand => exact absurd hlt (Nat.lt_irrefl _)
    | eliminate => exact absurd hlt (Nat.lt_irrefl _)
    | shrink hedit hthr hsparse =>
      exact ⟨⟨hex, Chain.full_iff.mpr hedit⟩, hthr, hsparse⟩
    | @grow _ p _ _ _ _ htwo _ hres =>
      have hle := Nat.mul_le_mul_right h.numBuckets htwo
      rw [hres.buckets] at hlt
      omega

/-- A shrink leaves the pairs of the spared buckets. -/
theorem Shrinks.put (hs : Shrinks raw h k v) (hw : Wf h) (hk : k ≠ 0) (calls : Nat)
    (lt : UInt32) : ∃ h', clhtPut raw calls h k v lt = some (true, h') ∧
      h'.numBuckets < h.numBuckets ∧ ∀ x, x ∈ h'.pairs ↔ ∃ bin < h.numBuckets,
        ∃ b ∈ ((linked raw h k v).table bin).buckets, Spared lt b ∧ x ∈ b.pairs := by
  rcases threshold_cases raw calls hw hk hs.1 hs.2.1 v lt with
    ⟨h', hput, _, ⟨_, hres⟩ | ⟨hsparse, _⟩ | ⟨hstop, _⟩⟩
  · refine ⟨h', hput, ?_, hres.mem_shrink⟩
    rw [hres.buckets]
    exact Nat.div_lt_self hw.pos (by decide)
  · exact absurd hs.2.2 hsparse
  · exact absurd hs.2.2 (Nat.not_lt.mpr hstop.1)

theorem mem_linked_buckets {bin : Nat} {b : Bucket} (hb : b ∈ (h.table bin).buckets) :
    b ∈ ((linked raw h k v).table bin).buckets := by
  show b ∈ (setLoc h.table (h.clhtHash k) _ bin).buckets
  by_cases heq : bin = h.clhtHash k
  · subst heq
    rw [setLoc_self]
    exact List.mem_append_left [_] hb
  · rw [setLoc_ne _ _ heq]
    exact hb

end Epli.Clht.Hashtable

namespace Epli.SWTable.Traced

open Lib Clht Hashtable

variable {raw : Nat → Nat → Nat → Raw} {calls : Nat} {t t₀ : Traced} {op : SWOp}

/-- The last `clht_get` that found the key is less than `MAX_ACTIVE_ELIMINATION_TIME` ticks
ago. -/
def Recent (t : Traced) (key : Nat) (time : Nat) : Prop :=
  t.hist.lastRead key = some time ∧ t.table.lt.toNat < time + maxActiveEliminationTime

/-- A put that makes the table smaller keeps every pair that has been read recently. -/
def Spares (raw : Nat → Nat → Nat → Raw) (calls : Nat) (t : Traced) : SWOp → Prop
  | .put key val => ∀ ans s', t.table.put raw calls key val = some (ans, s') →
      s'.hashtable.numBuckets < t.table.hashtable.numBuckets →
      ∀ x ∈ (key, val) :: t.table.hashtable.pairs, ∀ time, Recent t x.1 time →
        x ∈ s'.hashtable.pairs
  | _ => True

/-- The bucket has been hit in the current table, at this time or later. -/
def HitSince (t : Traced) (bin place time : Nat) : Prop :=
  ∃ last count, t.hist.hits bin place = some (last, count) ∧ time ≤ last

/-- Before a put that makes the table smaller, the time fits in 24 bits, and every key that
has been read recently is where it was then; or its bucket is copied all the same. -/
def TimesKnown (raw : Nat → Nat → Nat → Raw) (t : Traced) : SWOp → Prop
  | .put key val => Shrinks raw t.table.hashtable key val →
      ∀ bin < t.table.hashtable.numBuckets, ∀ place b,
        (t.table.hashtable.table bin).buckets[place]? = some b →
        ∀ x ∈ b.pairs, ∀ time, Recent t x.1 time →
          (t.table.lt.toNat < 2 ^ 24 ∧ HitSince t bin place time) ∨ Spared t.table.lt b
  | _ => True

/-- A bucket that has been hit since is copied. -/
theorem Recorded.spared (hrec : Recorded t) {bin place key time : Nat} {b : Bucket}
    (hget : (t.table.hashtable.table bin).buckets[place]? = some b)
    (hrecent : Recent t key time) (hlt : t.table.lt.toNat < 2 ^ 24)
    (hhit : HitSince t bin place time) : Spared t.table.lt b := by
  rcases hhit with ⟨last, count, hhits, hle⟩
  rcases hrec.hit bin place last count hhits with ⟨hpast, htime⟩
  rw [Chain.times, List.getElem?_map, hget, Option.map_some, Option.some.injEq] at htime
  have hage := hrecent.2
  right
  rw [htime, BitVec.toNat_ofNat, Nat.mod_eq_of_lt (by omega)]
  omega

theorem Recorded.spares_iff (hrec : Recorded t) (hin : InTime t op) :
    Spares raw calls t op ↔ TimesKnown raw t op := by
  cases op with
  | update k v => exact Iff.rfl
  | remove k => exact Iff.rfl
  | get k => exact Iff.rfl
  | put k v =>
    have hk : k ≠ 0 := hin.1
    have hw := hrec.bounds.wf
    constructor
    · intro hspares hshrinks bin hbin place b hget x hx time hrecent
      have hb := List.mem_of_getElem? hget
      rcases hshrinks.put hw hk calls t.table.lt with ⟨h', hput, hnb, hpairs⟩
      have hkept : x ∈ h'.pairs := by
        refine hspares true ⟨h', t.table.lt⟩ (by simp [SWTable.put, hput]) hnb x ?_ time hrecent
        exact List.mem_cons_of_mem _
          (mem_pairs.mpr ⟨bin, hbin, List.mem_flatMap.mpr ⟨b, hb, hx⟩⟩)
      rcases (hpairs x).mp hkept with ⟨bin', hbin', b', hb', hspared, hx'⟩
      -- the bucket that was copied is the one the key is in
      have hno : ∀ w, (k, w) ∉ t.table.hashtable.pairs := fun w =>
        hw.not_mem (Chain.bucketExists_eq_false hshrinks.1.1)
      have hsame := (hw.expandBin raw hk hno v).1.bucket_unique hbin
        (mem_linked_buckets hb) hx hbin' hb' hx'
      exact Or.inr (hsame ▸ hspared)
    · intro hknown ans s' hput hnb x hx time hrecent
      rcases Option.map_eq_some_iff.mp hput with ⟨⟨ans', h'⟩, hput', heq⟩
      cases heq
      have hshrinks := shrinks_of_lt hw hk hput' hnb
      rcases hshrinks.put hw hk calls t.table.lt with ⟨h₁, hput₁, _, hpairs⟩
      cases hput'.symm.trans hput₁
      refine (hpairs x).mpr ?_
      rcases List.mem_cons.mp hx with rfl | hx
      · exact mem_copiedTable_shrink.mp (mem_copiedTable_expandBin raw hw hk false t.table.lt)
      · rcases mem_pairs.mp hx with ⟨bin, hbin, hx⟩
        rcases List.mem_flatMap.mp hx with ⟨b, hb, hx⟩
        rcases List.getElem?_of_mem hb with ⟨place, hget⟩
        refine ⟨bin, hbin, b, mem_linked_buckets hb, ?_, hx⟩
        rcases hknown hshrinks bin hbin place b hget x hx time hrecent with ⟨hlt, hhit⟩ | hspared
        · exact hrec.spared hget hrecent hlt hhit
        · exact hspared

/-- Every run comes back, and its puts spare all recently read keys iff the times they find
are known. -/
theorem recent_spared_iff (raw : Nat → Nat → Nat → Raw) (calls : Nat) (ops : List SWOp)
    (hstart : start = some t₀) (hin : Along (step raw calls) InTime t₀ ops) :
    (∃ answers t, runOps (step raw calls) t₀ ops = some (answers, t)) ∧
      (Along (step raw calls) (Spares raw calls) t₀ ops ↔
        Along (step raw calls) (TimesKnown raw) t₀ ops) := by
  rcases exists_start with ⟨t, hstart', hrec, _⟩
  cases hstart.symm.trans hstart'
  rcases hrec.run raw calls hin with ⟨answers, t', hrun, _⟩
  exact ⟨⟨answers, t', hrun⟩, hrec.along_iff hin fun t op hrec hin => hrec.spares_iff hin⟩

end Epli.SWTable.Traced

/-! ## A run that makes the table smaller -/

namespace Epli.SWTable

open Lib Clht Hashtable

variable {raw : Nat → Nat → Nat → Raw} {calls : Nat} {s : SWTable} {xs : List (Nat × Nat)}

/-- Removes leave the buckets, and the pairs of the other keys. -/
theorem run_removes (raw : Nat → Nat → Nat → Raw) (calls : Nat) : ∀ (keys : List Nat)
    {s : SWTable}, InBounds s.hashtable →
    (∀ key ∈ keys, key ≠ 0) → ∃ answers s', runOps (step raw calls) s (keys.map .remove) =
      some (answers, s') ∧ s'.lt = s.lt ∧ InBounds s'.hashtable ∧
      SameCounts s.hashtable s'.hashtable ∧ KeepsTimes s.hashtable s'.hashtable ∧
      ∀ x ∈ s'.hashtable.pairs, x ∈ s.hashtable.pairs ∧ x.1 ∉ keys := by
  intro keys
  induction keys with
  | nil =>
    intro s hi _
    exact ⟨[], s, rfl, rfl, hi, .refl _, .refl _, fun x hx => ⟨hx, List.not_mem_nil⟩⟩
  | cons k ks ih =>
    intro s hi hk
    rw [List.forall_mem_cons] at hk
    have hs := sameCounts_remove hi.wf k
    rcases remove_spec hi.wf hk.1 with ⟨hw, hpairs⟩
    rcases ih (s := (s.remove k).2) (hs.inBounds hi hw) hk.2 with
      ⟨answers, s', hrun, hlt, hi', hs', hkeep, hpairs'⟩
    refine ⟨_, s', by simp [runOps, step, hrun]; rfl, hlt, hi', hs.trans hs',
      (keepsTimes_remove s.hashtable k).trans hkeep, ?_⟩
    intro x hx
    rcases hpairs' x hx with ⟨hold, hnot⟩
    rcases hpairs x hold with ⟨hx', hne⟩
    exact ⟨hx', List.not_mem_cons_of_ne_of_not_mem hne hnot⟩

/-- All pairs are in the first bucket of the second bin, and the next bucket that is linked
reaches the threshold. -/
structure OneBucket (xs : List (Nat × Nat)) (s : SWTable) : Prop where
  bounds : InBounds s.hashtable
  buckets : s.hashtable.numBuckets = 2 ^ 14
  expands : s.hashtable.numExpands + 1 = s.hashtable.numExpandsThreshold
  alone : (s.hashtable.table 1).overflow = []
  perm : s.hashtable.pairs.Perm xs
  count : (s.hashtable.table 1).pairs.length = xs.length

/-- Keys of the second bin. -/
def sideKey (i : Nat) : Nat := i * 2 ^ 14 + 1

/-- The first bin is filled to the last bucket below the threshold, and emptied again. -/
def emptyOps : List SWOp :=
  fillOps (3 * 2 ^ 14) ++ ((List.range (3 * 2 ^ 14)).map fun i => binKey (i + 1)).map .remove

theorem exists_emptied (hraw : Warm raw) (calls : Nat) : ∃ s₀ answers s, init 0 = some s₀ ∧
    runOps (step raw calls) s₀ emptyOps = some (answers, s) ∧ s.lt = 0 ∧ OneBucket [] s := by
  rcases exists_fullBin hraw calls (m := 14) (by decide) (by decide) with
    ⟨s₁, xs, hf, hlt, ho, hlen, hkeys⟩
  have hi := hf.reachable.inBounds
  rcases ho.full (by decide) hlen with ⟨hcount, _⟩
  have hthr := (ho.threshold_iff (by decide) (by omega)).mpr hcount
  have hnb : s₁.hashtable.numBuckets = 2 ^ 14 := ho.copied.buckets
  rcases hf with ⟨s₀, answers₁, hinit, hrun₁⟩
  have hremoved : ∀ key ∈ (List.range (3 * 2 ^ 14)).map fun i => binKey (i + 1), key ≠ 0 := by
    intro key hkey
    rcases List.mem_map.mp hkey with ⟨i, _, rfl⟩
    exact (binKey_spec i).1
  rcases run_removes raw calls _ hi hremoved with ⟨answers, s, hrun, hlt', hi', hs, hkeep, hpairs⟩
  -- every key that was put is removed
  have hempty : s.hashtable.pairs = [] := by
    refine List.eq_nil_iff_forall_not_mem.mpr fun x hx => ?_
    rcases hpairs x hx with ⟨hold, hnot⟩
    have hxs := ho.copied.perm.mem_iff.mp hold
    rcases (ho.multiple x hxs).2 with ⟨j, hj⟩
    have hpos := (ho.multiple x hxs).1
    have hle := hkeys x hxs
    unfold binKey at hle
    refine hnot (List.mem_map.mpr ⟨j - 1, List.mem_range.mpr (by omega), ?_⟩)
    unfold binKey
    omega
  -- the overflow buckets are all in the first bin
  have halone : (s.hashtable.table 1).overflow = [] := by
    have hall := ho.overflowCount_eq hi (by omega)
    have hlong := (hkeep 0).length_le
    simp only [Chain.times, List.length_map, Chain.buckets, List.length_cons] at hlong
    have hnb' := hs.buckets
    have hone := Finset.add_le_sum (s := Finset.range s.hashtable.numBuckets)
      (f := fun bin => (s.hashtable.table bin).overflow.length) (fun _ _ => Nat.zero_le _)
      (Finset.mem_range.mpr (by omega : 0 < s.hashtable.numBuckets))
      (Finset.mem_range.mpr (by omega : 1 < s.hashtable.numBuckets)) (by decide)
    have htotal := hs.overflow
    unfold overflowCount at htotal hall
    exact List.length_eq_zero_iff.mp (by omega)
  refine ⟨s₀, answers₁ ++ answers, s, hinit, ?_, hlt'.trans hlt, hi', hs.buckets.trans hnb, ?_,
    halone, by rw [hempty], ?_⟩
  · rw [emptyOps, runOps_append hrun₁, hrun]
    rfl
  · rw [hs.expands, hs.threshold]
    exact hthr
  · refine List.length_eq_zero_iff.mpr (List.eq_nil_iff_forall_not_mem.mpr fun x hx => ?_)
    have hmem := mem_pairs.mpr ⟨1, by rw [hs.buckets, hnb]; decide, hx⟩
    rw [hempty] at hmem
    exact absurd hmem List.not_mem_nil

theorem OneBucket.hash (ho : OneBucket xs s) (i : Nat) :
    s.hashtable.clhtHash (sideKey i) = 1 := by
  rw [clhtHash, ho.bounds.wf.hash, ho.buckets, Nat.and_two_pow_sub_one_eq_mod, sideKey]
  omega

/-- The bucket takes three keys. -/
theorem OneBucket.put (raw : Nat → Nat → Nat → Raw) (calls : Nat) (ho : OneBucket xs s)
    (hlen : xs.length < 3) {i : Nat} (hno : ∀ w, (sideKey i, w) ∉ xs) :
    ∃ h', clhtPut raw calls s.hashtable (sideKey i) 1 s.lt = some (true, h') ∧
      OneBucket ((sideKey i, 1) :: xs) { s with hashtable := h' } := by
  have hk : sideKey i ≠ 0 := Nat.succ_ne_zero _
  have hroom : ¬ (s.hashtable.table (s.hashtable.clhtHash (sideKey i))).Full := by
    intro hfull
    have hcount := hfull.length_pairs
    rw [ho.hash, ho.count, Chain.buckets, ho.alone] at hcount
    unfold entriesPerBucket at hcount
    simp only [List.length_singleton] at hcount
    omega
  rcases put_fill raw calls ho.bounds.wf hk
    (fun w hmem => hno w (ho.perm.mem_iff.mp hmem)) hroom 1 s.lt with
    ⟨c, hput, hw, hs, hlen', hmore, hperm⟩
  rw [ho.hash] at hput hw hs hlen' hmore hperm
  refine ⟨_, hput, hs.inBounds ho.bounds hw, ho.buckets, ho.expands, ?_,
    hperm.trans (ho.perm.cons _), ?_⟩
  · show ((s.hashtable.setBin 1 c).table 1).overflow = []
    rw [setBin_table]
    rw [ho.alone] at hlen'
    exact List.length_eq_zero_iff.mp hlen'
  · show ((s.hashtable.setBin 1 c).table 1).pairs.length = _
    rw [setBin_table, hmore.length_eq, List.length_cons, ho.count]
    rfl

theorem OneBucket.mem_head (ho : OneBucket xs s) {x : Nat × Nat} :
    x ∈ (s.hashtable.table 1).pairs ↔ x ∈ (s.hashtable.table 1).head.pairs := by
  unfold Chain.pairs Chain.buckets
  rw [ho.alone, List.flatMap_singleton]

/-- A read of a key of the bucket. -/
theorem OneBucket.get (ho : OneBucket xs s) {i w : Nat} (hmem : (sideKey i, w) ∈ xs) :
    OneBucket xs (s.get (sideKey i)).2 ∧
      ((s.get (sideKey i)).2.hashtable.table 1).head.t = BitVec.ofNat 24 (s.lt + 1).toNat := by
  have hk : sideKey i ≠ 0 := Nat.succ_ne_zero _
  have hin := ho.bounds.wf.mem_iff.mp (ho.perm.mem_iff.mpr hmem)
  rw [ho.hash] at hin
  have hhead := ho.mem_head.mp hin
  rcases get_spec ho.bounds.wf hk (s.lt + 1) with ⟨hw, hperm, _⟩
  have hs := sameCounts_get ho.bounds.wf (sideKey i) (s.lt + 1)
  -- the first bucket is the only one, so it is the one that is hit
  rcases get_head (by rw [ho.hash]; exact hhead) (s.lt + 1) with ⟨head, hget, htime, hslots⟩
  rw [ho.hash] at hget hslots
  have htable : (s.get (sideKey i)).2.hashtable.table 1 =
      { s.hashtable.table 1 with head := head } := by
    show (s.hashtable.clhtGet (sideKey i) (s.lt + 1)).2.table 1 = _
    rw [hget, setBin_table]
  have hpairs : head.pairs = (s.hashtable.table 1).head.pairs := by
    unfold Bucket.pairs
    rw [hslots]
  refine ⟨⟨hs.inBounds ho.bounds hw, hs.buckets.trans ho.buckets, ?_, ?_, hperm.trans ho.perm,
    ?_⟩, ?_⟩
  · show (s.hashtable.clhtGet (sideKey i) (s.lt + 1)).2.numExpands + 1 = _
    rw [hs.expands, ho.expands]
    exact hs.threshold.symm
  · rw [htable]
    exact ho.alone
  · rw [htable, ← ho.count]
    unfold Chain.pairs Chain.buckets
    simp only [List.flatMap_cons, hpairs]
  · rw [htable]
    exact htime

/-- With three keys in the bucket, a fourth one makes the table smaller. -/
theorem OneBucket.shrinks (raw : Nat → Nat → Nat → Raw) (ho : OneBucket xs s)
    (hlen : xs.length = 3) {i : Nat} (hno : ∀ w, (sideKey i, w) ∉ xs) (v : Nat) :
    Shrinks raw s.hashtable (sideKey i) v := by
  have hk : sideKey i ≠ 0 := Nat.succ_ne_zero _
  have hno' : ∀ w, (sideKey i, w) ∉ s.hashtable.pairs := fun w hmem =>
    hno w (ho.perm.mem_iff.mp hmem)
  refine ⟨⟨not_bucketExists (ho.bounds.wf.hash_lt _) hk hno', ?_⟩, ho.expands, ?_⟩
  · rw [ho.hash]
    refine Chain.full_of_length ?_
    rw [ho.count, hlen, ho.alone]
    rfl
  · unfold Sparse
    rw [linked, size_eq, (ho.bounds.wf.expandBin raw hk hno' v).2.length_eq, List.length_cons,
      ho.perm.length_eq, hlen, show (s.hashtable.expandBin raw _ _ _).numBuckets = 2 ^ 14 from
      ho.buckets]
    decide

/-- Three keys are put into the bucket. -/
def setupOps : List SWOp :=
  emptyOps ++ [.put (sideKey 0) 1, .put (sideKey 1) 1, .put (sideKey 2) 1]

def sidePairs : List (Nat × Nat) := [(sideKey 2, 1), (sideKey 1, 1), (sideKey 0, 1)]

theorem exists_setup (hraw : Warm raw) (calls : Nat) : ∃ s₀ answers s, init 0 = some s₀ ∧
    runOps (step raw calls) s₀ setupOps = some (answers, s) ∧ s.lt = 0 ∧
    OneBucket sidePairs s := by
  rcases exists_emptied hraw calls with ⟨s₀, answers, s, hinit, hrun, hlt, ho⟩
  rcases ho.put raw calls (i := 0) (by decide) (by simp) with ⟨h₁, hput₁, ho₁⟩
  rcases ho₁.put raw calls (i := 1) (by decide) (by simp [sideKey]) with
    ⟨h₂, hput₂, ho₂⟩
  rcases ho₂.put raw calls (i := 2) (by decide) (by simp [sideKey]) with
    ⟨h₃, hput₃, ho₃⟩
  refine ⟨s₀, answers ++ [.done true, .done true, .done true], { s with hashtable := h₃ }, hinit,
    ?_, hlt, ho₃⟩
  rw [setupOps, runOps_append hrun]
  simp only [runOps, step, SWTable.put, hput₁, hput₂, hput₃, Option.map_some, Option.bind_some]

theorem setupOps_spec {op : SWOp} (hop : op ∈ setupOps) :
    op.key ≠ 0 ∧ ∀ key, op ≠ .get key := by
  simp only [setupOps, emptyOps, fillOps, List.map_map, List.append_assoc, List.mem_append,
    List.mem_map, List.mem_cons, List.not_mem_nil, or_false] at hop
  rcases hop with ⟨i, _, rfl⟩ | ⟨i, _, rfl⟩ | rfl | rfl | rfl
  · exact ⟨(binKey_spec i).1, by simp⟩
  · exact ⟨(binKey_spec i).1, by simp⟩
  · exact ⟨Nat.succ_ne_zero _, by simp⟩
  · exact ⟨Nat.succ_ne_zero _, by simp⟩
  · exact ⟨Nat.succ_ne_zero _, by simp⟩

-- a run of it is never evaluated
attribute [irreducible] setupOps

namespace Traced

variable {t : Traced}

/-- The three keys are in their bucket, and the first one has just been read for the
`reads`-th time. -/
structure JustRead (reads : Nat) (t : Traced) : Prop where
  bucket : OneBucket sidePairs t.table
  time : t.table.lt.toNat = reads
  stored : 0 < reads → (t.table.hashtable.table 1).head.t = BitVec.ofNat 24 reads ∧
    t.hist.lastRead (sideKey 0) = some reads

theorem JustRead.get (raw : Nat → Nat → Nat → Raw) (calls : Nat) {reads : Nat}
    (hj : JustRead reads t) (hlt : reads + 1 < 2 ^ 32) :
    ∃ ans t', t.step raw calls (.get (sideKey 0)) = some (ans, t') ∧ JustRead (reads + 1) t' := by
  have hmem : (sideKey 0, 1) ∈ sidePairs := by simp [sidePairs]
  have htime : (t.table.lt + 1).toNat = reads + 1 := by
    rw [UInt32.toNat_add, UInt32.toNat_one, hj.time]
    exact Nat.mod_eq_of_lt hlt
  rcases hj.bucket.get hmem with ⟨hbucket, hstored⟩
  refine ⟨_, _, rfl, hbucket, htime, fun _ => ⟨by rw [hstored, htime], ?_⟩⟩
  -- the key is in its bin, so the read is recorded
  have hin := hj.bucket.bounds.wf.mem_iff.mp (hj.bucket.perm.mem_iff.mpr hmem)
  rcases Chain.hitPlace_of_mem hin with ⟨place, hplace⟩
  rcases t.hist.read_hit hplace with ⟨count, hread⟩
  show (t.hist.read t.table (sideKey 0)).lastRead (sideKey 0) = _
  rw [hread, hj.time]
  show setLoc t.hist.lastRead (sideKey 0) (some (reads + 1)) (sideKey 0) = _
  exact setLoc_self _ _ _

theorem run_reads (raw : Nat → Nat → Nat → Raw) (calls n : Nat) {reads : Nat} {t : Traced}
    (hj : JustRead reads t) (hlt : reads + n < 2 ^ 32) :
    ∃ answers t', runOps (Traced.step raw calls) t (List.replicate n (.get (sideKey 0))) =
      some (answers, t') ∧ JustRead (reads + n) t' ∧
      Along (Traced.step raw calls) InTime t (List.replicate n (.get (sideKey 0))) := by
  refine runOps_replicate (2 ^ 32 - 1) JustRead ?_ n hj (by omega)
  intro reads t hlt hj
  refine ⟨⟨Nat.succ_ne_zero _, fun _ => ?_⟩, hj.get raw calls (by omega)⟩
  rw [hj.time]
  omega

/-- Where nothing has been read, nothing has been read recently. -/
theorem timesKnown_unread (hempty : t.hist = .empty) (op : SWOp) : TimesKnown raw t op := by
  cases op with
  | put k v =>
    intro _ bin _ place b _ x _ time hrecent
    rw [Recent, hempty] at hrecent
    exact absurd hrecent.1 (Option.some_ne_none _).symm
  | update k v => trivial
  | remove k => trivial
  | get k => trivial

/-- The setup, and so many reads. -/
def readOps (reads : Nat) : List SWOp :=
  setupOps ++ List.replicate reads (.get (sideKey 0))

theorem exists_read (hraw : Warm raw) (calls reads : Nat) (hlt : reads < 2 ^ 32) :
    ∃ t₀ answers t, start = some t₀ ∧
      runOps (Traced.step raw calls) t₀ (readOps reads) = some (answers, t) ∧ JustRead reads t ∧
      Along (Traced.step raw calls) InTime t₀ (readOps reads) ∧
      Along (Traced.step raw calls) (TimesKnown raw) t₀ (readOps reads) := by
  rcases exists_setup hraw calls with ⟨s₀, answers₀, s, hinit, hrun₀, htime, hbucket⟩
  have hrun₁ := run_unread (fun op hop => (setupOps_spec hop).2) hrun₀
  have hj : JustRead 0 ⟨s, .empty⟩ := by
    refine ⟨hbucket, ?_, fun hpos => absurd hpos (Nat.lt_irrefl 0)⟩
    show s.lt.toNat = 0
    rw [htime]
    rfl
  rcases run_reads raw calls reads hj (by omega) with
    ⟨answers, t, hrun, hj', hin⟩
  rw [Nat.zero_add] at hj'
  refine ⟨⟨s₀, .empty⟩, answers₀ ++ answers, t, ?_, ?_, hj', ?_, ?_⟩
  · rw [start, hinit]
    rfl
  · rw [readOps, runOps_append hrun₁, hrun]
    rfl
  · rw [readOps, along_append hrun₁]
    exact ⟨inTime_unread fun op hop => setupOps_spec hop, hin⟩
  · rw [readOps, along_append hrun₁]
    refine ⟨along_unread (fun t op hempty => timesKnown_unread hempty op)
      fun op hop => (setupOps_spec hop).2, ?_⟩
    refine Along.mono ?_ (along_of_mem (p := fun op => op = .get (sideKey 0)) ?_ _)
    · rintro t op rfl
      trivial
    · exact fun op hop => List.eq_of_mem_replicate hop

/-- A fourth key of the bin is put after the reads. -/
def shrinkOps (reads : Nat) : List SWOp := readOps reads ++ [.put (sideKey 3) 1]

theorem sideKey_three_new (w : Nat) : (sideKey 3, w) ∉ sidePairs := by
  simp [sidePairs, sideKey]

/-- The read pair is in the bucket that is read. -/
theorem JustRead.mem_head {reads : Nat} (hj : JustRead reads t) :
    (sideKey 0, 1) ∈ (t.table.hashtable.table 1).head.pairs := by
  have hmem : (sideKey 0, 1) ∈ t.table.hashtable.pairs :=
    hj.bucket.perm.mem_iff.mpr (by simp [sidePairs])
  have hin := hj.bucket.bounds.wf.mem_iff.mp hmem
  rw [hj.bucket.hash] at hin
  exact hj.bucket.mem_head.mp hin

/-- After `2^24` reads the stored time is `0`, and the bucket is left behind. -/
theorem JustRead.not_spares (hj : JustRead (2 ^ 24) t) :
    ¬ Spares raw calls t (.put (sideKey 3) 1) := by
  intro hspares
  have hw := hj.bucket.bounds.wf
  have hk : sideKey 3 ≠ 0 := Nat.succ_ne_zero _
  have hshrinks := hj.bucket.shrinks raw rfl sideKey_three_new 1
  have hone : 1 < t.table.hashtable.numBuckets := by
    rw [hj.bucket.buckets]
    decide
  rcases hshrinks.put hw hk calls t.table.lt with ⟨h', hput, hnb, hpairs⟩
  have hrecent : Recent t (sideKey 0) (2 ^ 24) := by
    refine ⟨(hj.stored (by decide)).2, ?_⟩
    rw [hj.time]
    exact Nat.lt_add_of_pos_right (by decide)
  have hkept := hspares true ⟨h', t.table.lt⟩ (by simp [SWTable.put, hput]) hnb (sideKey 0, 1)
    (List.mem_cons_of_mem _ (hj.bucket.perm.mem_iff.mpr (by simp [sidePairs]))) (2 ^ 24) hrecent
  rcases (hpairs _).mp hkept with ⟨bin, hbin, b, hb, hspared, hx⟩
  have hno : ∀ w, (sideKey 3, w) ∉ t.table.hashtable.pairs := fun w hmem =>
    sideKey_three_new w (hj.bucket.perm.mem_iff.mp hmem)
  have hhead := (hw.expandBin raw hk hno 1).1.bucket_unique hone
    (mem_linked_buckets List.mem_cons_self) hj.mem_head hbin hb hx
  subst hhead
  -- three keys, and a time that is `2^24` ticks old
  rcases hspared with hsize | htime
  · have hcount := hj.bucket.count
    unfold Chain.pairs Chain.buckets at hcount
    rw [hj.bucket.alone, List.flatMap_singleton, ← Bucket.size_eq] at hcount
    rw [hcount] at hsize
    exact absurd hsize (by decide)
  · rw [(hj.stored (by decide)).1, hj.time] at htime
    exact absurd htime (by decide)

/-- A key that has just been read is gone after the table got smaller. -/
theorem recent_key_lost : ∃ t₀, start = some t₀ ∧
    Along (step lateCold 0) InTime t₀ (shrinkOps (2 ^ 24)) ∧
    ¬ Along (step lateCold 0) (Spares lateCold 0) t₀ (shrinkOps (2 ^ 24)) := by
  rcases exists_read warm_lateCold 0 (2 ^ 24) (by decide) with
    ⟨t₀, answers, t, hstart, hrun, hj, hin, _⟩
  refine ⟨t₀, hstart, ?_, ?_⟩
  · rw [shrinkOps, along_append hrun]
    exact ⟨hin, ⟨Nat.succ_ne_zero _, fun hget => by cases hget⟩, fun _ _ _ => trivial⟩
  · rw [shrinkOps, along_append hrun]
    exact fun hspares => hj.not_spares hspares.2.1

/-- Every pair is in the bucket that is read. -/
theorem JustRead.eq_head {reads bin : Nat} {b : Bucket} {x : Nat × Nat} (hj : JustRead reads t)
    (hbin : bin < t.table.hashtable.numBuckets)
    (hb : b ∈ (t.table.hashtable.table bin).buckets) (hx : x ∈ b.pairs) :
    b = (t.table.hashtable.table 1).head := by
  have hw := hj.bucket.bounds.wf
  have hpairs := mem_pairs.mpr ⟨bin, hbin, List.mem_flatMap.mpr ⟨b, hb, hx⟩⟩
  have hkey : ∃ i, x.1 = sideKey i := by
    have hxs := hj.bucket.perm.mem_iff.mp hpairs
    simp only [sidePairs, List.mem_cons, List.not_mem_nil, or_false] at hxs
    rcases hxs with rfl | rfl | rfl
    · exact ⟨2, rfl⟩
    · exact ⟨1, rfl⟩
    · exact ⟨0, rfl⟩
  rcases hkey with ⟨i, hkey⟩
  have hin := hw.mem_iff.mp (show (x.1, x.2) ∈ _ from hpairs)
  rw [hkey, hj.bucket.hash, ← hkey] at hin
  have hone : 1 < t.table.hashtable.numBuckets := by
    rw [hj.bucket.buckets]
    decide
  exact hw.bucket_unique hbin hb hx hone List.mem_cons_self (hj.bucket.mem_head.mp hin)

/-- After one read the table gets smaller as well, and the key is spared. -/
theorem read_key_spared : ∃ t₀ answers t, start = some t₀ ∧
    runOps (step lateCold 0) t₀ (readOps 1) = some (answers, t) ∧
    Shrinks lateCold t.table.hashtable (sideKey 3) 1 ∧ Recent t (sideKey 0) 1 ∧
    Along (step lateCold 0) (Spares lateCold 0) t₀ (shrinkOps 1) := by
  rcases exists_read warm_lateCold 0 1 (by decide) with
    ⟨t₀, answers, t, hstart, hrun, hj, hin, hknown⟩
  have hrecent : Recent t (sideKey 0) 1 := by
    refine ⟨(hj.stored (by decide)).2, ?_⟩
    rw [hj.time]
    decide
  refine ⟨t₀, answers, t, hstart, hrun, hj.bucket.shrinks lateCold rfl sideKey_three_new 1, hrecent,
    (recent_spared_iff lateCold 0 (shrinkOps 1) hstart ?_).2.mpr ?_⟩
  · rw [shrinkOps, along_append hrun]
    exact ⟨hin, ⟨Nat.succ_ne_zero _, fun hget => by cases hget⟩, fun _ _ _ => trivial⟩
  · rw [shrinkOps, along_append hrun]
    refine ⟨hknown, ?_, fun _ _ _ => trivial⟩
    intro _ bin hbin place b hget x hx time _
    have hhead := hj.eq_head hbin (List.mem_of_getElem? hget) hx
    refine Or.inr (Or.inr ?_)
    rw [hhead, (hj.stored (by decide)).1, hj.time]
    decide

end Traced

end Epli.SWTable
