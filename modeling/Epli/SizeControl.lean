import Epli.ClhtShape
import Epli.Evict

/-!
# The end of size control

`clht_put` asks `ht_status` when the number of overflow buckets is the threshold, not when
it is the threshold or more. A table that must not grow any more stays as it is, with its
counter at the threshold: from then on no put asks again before the counter has wrapped,
and the chains only get longer.
-/

namespace Epli.Clht

open Lib

variable {c : Chain} {h h' : Hashtable} {k v bin : Nat} {lt : UInt32}

/-- Neither the new bucket of a full chain nor the others are empty. -/
theorem Chain.pairs_ne_nil {raw : Raw} {b : Bucket} (hfull : c.Full) (hk : k ≠ 0)
    (hb : b ∈ (c.expand raw k v).buckets) : b.pairs ≠ [] := by
  have hslot : ∃ x ∈ b.slots, x.1 ≠ 0 := by
    rcases List.mem_cons.mp hb with rfl | hb
    · have hpos : 0 < c.head.slots.length := by
        rw [c.head.three]
        decide
      rcases List.exists_mem_of_length_pos hpos with ⟨x, hx⟩
      exact ⟨x, hx, hfull _ List.mem_cons_self x hx⟩
    · rcases List.mem_append.mp hb with hb | hb
      · have hpos : 0 < b.slots.length := by
          rw [b.three]
          decide
        rcases List.exists_mem_of_length_pos hpos with ⟨x, hx⟩
        exact ⟨x, hx, hfull b (List.mem_cons_of_mem _ hb) x hx⟩
      · rw [List.mem_singleton.mp hb]
        exact ⟨(k, v), List.mem_cons_self, hk⟩
  rcases hslot with ⟨x, hx, hne⟩
  exact List.ne_nil_of_mem (Bucket.mem_pairs.mpr ⟨hx, hne⟩)

namespace Hashtable

variable (raw : Nat → Nat → Nat → Raw)

/-- What passive elimination makes of the table of a put. -/
def eliminated (h : Hashtable) (key val : Nat) : Hashtable :=
  (linked raw h key val).setBin (h.clhtHash key)
    ((linked raw h key val).table (h.clhtHash key)).eliminate

theorem linked_ne_eliminated (hk : k ≠ 0) (hfull : (h.table (h.clhtHash k)).Full) :
    linked raw h k v ≠ eliminated raw h k v := by
  intro heq
  have hbin := congrArg (fun ht => (ht.table (h.clhtHash k)).buckets) heq
  simp only [eliminated, setBin_table] at hbin
  rcases Chain.eliminate_spec ((linked raw h k v).table (h.clhtHash k)) with
    ⟨i, ⟨b, hget, _⟩, hclear⟩
  -- the cleared bucket had a pair
  have hsame : b = b.clear := by
    have hi := congrArg (fun bs => bs[i]?) hbin
    simp only [hclear, hget, List.getElem?_modify_eq, Option.map_eq_map, Option.map_some,
      Option.some.injEq] at hi
    exact hi
  have hempty := Bucket.clear_pairs b
  rw [← hsame] at hempty
  have hmem := List.mem_of_getElem? hget
  rw [linked, expandBin_table] at hmem
  exact Chain.pairs_ne_nil hfull hk hmem hempty

/-- A put that links a bucket ends in a resize, or in passive elimination on its chain. -/
def Controlled (calls : Nat) (h : Hashtable) (key val : Nat) (lt : UInt32) : Prop :=
  Allocates h key → ∃ h', clhtPut raw calls h key val lt = some (true, h') ∧
    (h'.version = h.version + 1 ∨ h' = eliminated raw h key val)

/-- Before the counter reaches the threshold, and after it has, a put that links a bucket
does nothing else. -/
theorem put_links (calls : Nat) (hall : Allocates h k)
    (hthr : h.numExpands + 1 ≠ h.numExpandsThreshold) (v : Nat) (lt : UInt32) :
    clhtPut raw calls h k v lt = some (true, linked raw h k v) := by
  have hfull := (Chain.full_iff (k := k) (v := v)).mp hall.2
  have hne : ¬ (h.expandBin raw (h.clhtHash k) k v).numExpands =
      (h.expandBin raw (h.clhtHash k) k v).numExpandsThreshold := hthr
  unfold clhtPut
  simp only [hall.1, Bool.false_eq_true, if_false, hfull, if_neg hne]
  rfl

theorem controlled_iff (calls : Nat) (hw : Wf h) (hk : k ≠ 0) (hall : Allocates h k) (v : Nat)
    (lt : UInt32) :
    Controlled raw calls h k v lt ↔ h.numExpands + 1 = h.numExpandsThreshold := by
  constructor
  · intro hcontrol
    by_contra hthr
    rcases hcontrol hall with ⟨h', hput, hend⟩
    rw [put_links raw calls hall hthr] at hput
    cases hput
    rcases hend with hversion | heq
    · exact absurd hversion (Nat.ne_of_lt (Nat.lt_succ_self _))
    · exact linked_ne_eliminated raw hk hall.2 heq
  · intro hthr _
    rcases threshold_cases raw calls hw hk hall hthr v lt with
      ⟨h', hput, _, ⟨_, hres⟩ | ⟨_, _, p, _, hres⟩ | ⟨_, heq⟩⟩
    · exact ⟨h', hput, Or.inl hres.version⟩
    · exact ⟨h', hput, Or.inl hres.version⟩
    · exact ⟨h', hput, Or.inr heq⟩

/-! ## Filling a chain -/

theorem SameCounts.trans {h'' : Hashtable} (hs : SameCounts h h') (hs' : SameCounts h' h'') :
    SameCounts h h'' :=
  ⟨hs'.buckets.trans hs.buckets, hs'.threshold.trans hs.threshold, hs'.expands.trans hs.expands,
    hs'.overflow.trans hs.overflow, hs'.version.trans hs.version⟩

/-- There is always another key for a bin. -/
theorem exists_fresh (hw : Wf h) (hbin : bin < h.numBuckets) :
    ∃ k, k ≠ 0 ∧ h.clhtHash k = bin ∧ ∀ w, (k, w) ∉ h.pairs := by
  rcases hw.pow with ⟨n, hn⟩
  have hpos := hw.pos
  have hmany : (h.pairs.map Prod.fst).sum < h.numBuckets * ((h.pairs.map Prod.fst).sum + 1) :=
    Nat.lt_of_lt_of_le (Nat.lt_succ_self _) (Nat.le_mul_of_pos_left _ hpos)
  refine ⟨bin + h.numBuckets * ((h.pairs.map Prod.fst).sum + 1), by omega, ?_, ?_⟩
  · rw [clhtHash, hw.hash, hn, Nat.and_two_pow_sub_one_eq_mod, Nat.add_mul_mod_self_left]
    exact Nat.mod_eq_of_lt (hn ▸ hbin)
  · intro w hmem
    have hle := List.single_le_sum (fun _ _ => Nat.zero_le _) _
      (List.mem_map_of_mem (f := Prod.fst) hmem)
    omega

/-- A chain with an empty slot takes another key, and nothing else changes. -/
theorem put_fill (calls : Nat) (hw : Wf h) (hk : k ≠ 0) (hno : ∀ w, (k, w) ∉ h.pairs)
    (hroom : ¬ (h.table (h.clhtHash k)).Full) (v : Nat) (lt : UInt32) :
    ∃ c, clhtPut raw calls h k v lt = some (true, h.setBin (h.clhtHash k) c) ∧
      Wf (h.setBin (h.clhtHash k) c) ∧ SameCounts h (h.setBin (h.clhtHash k) c) ∧
      c.overflow.length = (h.table (h.clhtHash k)).overflow.length ∧
      c.pairs.Perm ((k, v) :: (h.table (h.clhtHash k)).pairs) ∧
      (h.setBin (h.clhtHash k) c).pairs.Perm ((k, v) :: h.pairs) := by
  rcases put_cases raw calls hw hk hno v lt with ⟨h', hput, hw', hstep⟩
  rw [Chain.full_iff (k := k) (v := v)] at hroom
  cases hstep with
  | @fill u c hedit =>
    rcases Chain.editBucket_some hedit with ⟨hlen, b, b', _, hfill, hrep⟩
    have hpairs := hrep (Bucket.fill_some hk hfill)
    exact ⟨c, hput, hw', sameCounts_setBin (hw.hash_lt k) hlen, hlen, hpairs.perm,
      (hw.put hno hpairs).2⟩
  | expand hedit => exact absurd hedit hroom
  | eliminate hedit => exact absurd hedit hroom
  | shrink hedit => exact absurd hedit hroom
  | grow hedit => exact absurd hedit hroom

/-- All overflow buckets are in the first bin. -/
theorem OneBin.overflowCount_eq {m : Nat} {xs : List (Nat × Nat)} (ho : OneBin m h xs)
    (hi : InBounds h) (hlen : xs.length < 2 ^ 32) :
    h.overflowCount = (h.table 0).overflow.length := by
  have hover := ho.copied.overflow_le
  unfold entriesPerBucket at hover
  have hcounted := (counted_iff hi.tallied).mpr (by omega)
  unfold Counted at hcounted
  rw [← hcounted, ho.expands]

end Hashtable

end Epli.Clht

namespace Epli

open Lib Clht Hashtable

/-- The CLHT call behind a call of an `SWTable`. -/
def SWOp.call (lt : UInt32) : SWOp → Call
  | put key val => .put key val lt
  | update key val => .update key val
  | remove key => .remove key
  | get key => .get key (lt + 1)

namespace SWTable

variable {raw : Nat → Nat → Nat → Raw} {calls : Nat} {s s' : SWTable} {op : SWOp}
  {ans : SWAnswer}

theorem step_hashtable (hstep : s.step raw calls op = some (ans, s')) :
    ∃ r, s.hashtable.step raw calls (op.call s.lt) = some (r, s'.hashtable) := by
  cases op with
  | put k v =>
    simp only [step, put, Option.map_map, Option.map_eq_some_iff, Prod.exists] at hstep
    rcases hstep with ⟨ok, ht, hput, heq⟩
    cases heq
    exact ⟨ok.toNat, by simp [SWOp.call, Hashtable.step, hput]⟩
  | update k v =>
    cases hstep
    exact ⟨_, rfl⟩
  | remove k =>
    cases hstep
    exact ⟨_, rfl⟩
  | get k =>
    cases hstep
    exact ⟨_, rfl⟩

theorem Reachable.inBounds (hr : Reachable raw calls s) : InBounds s.hashtable := by
  refine Reach.invariant (fun s => InBounds s.hashtable) ?_ ?_ hr
  · rintro s ⟨lt, hinit⟩
    rcases Option.map_eq_some_iff.mp hinit with ⟨ht, hcreate, rfl⟩
    rcases shape_create with ⟨h₀, hcreate₀, hshape⟩
    cases hcreate.symm.trans hcreate₀
    exact hshape.toInBounds
  · intro s op ans s' hi hk hstep
    rcases step_hashtable hstep with ⟨r, hrun⟩
    have hkey : (op.call s.lt).key = op.key := by
      cases op with
      | put k v => rfl
      | update k v => rfl
      | remove k => rfl
      | get k => rfl
    exact hi.after (by rw [hkey]; exact hk) r _ hrun

/-- Puts fill a chain. -/
theorem exists_full (raw : Nat → Nat → Nat → Raw) (calls : Nat) {bin : Nat} : ∀ {n : Nat}
    {s : SWTable}, s.hashtable.Wf → bin < s.hashtable.numBuckets →
    entriesPerBucket * ((s.hashtable.table bin).overflow.length + 1) =
      (s.hashtable.table bin).pairs.length + n →
    ∃ ops rs s', (∀ op ∈ ops, op.key ≠ 0) ∧ runOps (step raw calls) s ops = some (rs, s') ∧
      s'.hashtable.Wf ∧ SameCounts s.hashtable s'.hashtable ∧
      (s'.hashtable.table bin).Full := by
  intro n
  -- `n` slots are still empty
  induction n with
  | zero =>
    intro s hw hbin hslots
    exact ⟨[], [], s, by simp, rfl, hw, .refl _, Chain.full_of_length hslots.symm⟩
  | succ n ih =>
    intro s hw hbin hslots
    by_cases hfull : (s.hashtable.table bin).Full
    · exact ⟨[], [], s, by simp, rfl, hw, .refl _, hfull⟩
    · rcases exists_fresh hw hbin with ⟨k, hk, rfl, hno⟩
      rcases put_fill raw calls hw hk hno hfull 1 s.lt with ⟨c, hput, hw', hs, hlen, hmore, _⟩
      rcases ih (s := { s with hashtable := s.hashtable.setBin (s.hashtable.clhtHash k) c }) hw'
        hbin (by rw [setBin_table, hlen, hmore.length_eq, List.length_cons]; omega) with
        ⟨ops, rs, s', hkeys, hrun, hw'', hs', hfull'⟩
      refine ⟨.put k 1 :: ops, .done true :: rs, s', ?_, ?_, hw'', hs.trans hs', hfull'⟩
      · exact List.forall_mem_cons.mpr ⟨hk, hkeys⟩
      · simp [runOps, step, put, hput, hrun]

/-- `Controlled`, for the calls of an `SWTable`. -/
def Controls (raw : Nat → Nat → Nat → Raw) (calls : Nat) (s : SWTable) : SWOp → Prop
  | .put key val => Controlled raw calls s.hashtable key val s.lt
  | _ => True

/-- Every later put is controlled. -/
def KeepsControl (raw : Nat → Nat → Nat → Raw) (calls : Nat) (s : SWTable) : Prop :=
  ∀ ops : List SWOp, (∀ op ∈ ops, op.key ≠ 0) → Along (step raw calls) (Controls raw calls) s ops

/-- The counter is past the number that the next put compares it with. -/
theorem expands_ne_threshold {h : Hashtable} (hi : InBounds h)
    (hlim : h.numExpandsThreshold ≤ h.numExpands) :
    h.numExpands + 1 ≠ h.numExpandsThreshold := by
  intro heq
  have hfour := hi.four
  have hthr := hi.threshold
  have hlt := h.numExpands.toNat_lt
  rw [UInt32.le_iff_toNat_le] at hlim
  rw [← UInt32.toNat_inj, UInt32.toNat_add, UInt32.toNat_one] at heq
  rcases Nat.lt_or_ge (h.numExpands.toNat + 1) (2 ^ 32) with hroom | hwrap
  · rw [Nat.mod_eq_of_lt hroom] at heq
    omega
  · have hmax : h.numExpands.toNat + 1 = 2 ^ 32 := by omega
    rw [hmax, Nat.mod_self] at heq
    omega

/-- The first bin is filled, and then one put is enough. -/
theorem not_keepsControl (hr : Reachable raw calls s)
    (hlim : s.hashtable.numExpandsThreshold ≤ s.hashtable.numExpands) :
    ¬ KeepsControl raw calls s := by
  intro hkeeps
  have hi := hr.inBounds
  have hle := Chain.length_pairs_le (s.hashtable.table 0)
  rcases exists_full raw calls hi.wf hi.wf.pos (Nat.add_sub_cancel' hle).symm with
    ⟨ops, rs, s', hkeys, hrun, hw, hs, hfull⟩
  rcases exists_fresh hw hw.pos with ⟨k, hk, hhash, hno⟩
  have hall : Allocates s'.hashtable k := by
    refine ⟨not_bucketExists (hw.hash_lt k) hk hno, ?_⟩
    rw [hhash]
    exact hfull
  have hkept := hkeeps (ops ++ [.put k 1]) <| by
    simp only [List.mem_append, List.mem_singleton]
    rintro op (hop | rfl)
    · exact hkeys op hop
    · exact hk
  have hlast := ((along_append hrun).mp hkept).2.1
  change Controlled raw calls s'.hashtable k 1 s'.lt at hlast
  rw [controlled_iff raw calls hw hk hall, hs.expands, hs.threshold] at hlast
  exact expands_ne_threshold hi hlim hlast

/-- Once the counter has reached the threshold of a table and the table has stayed, the next
put that links a bucket does nothing else, and some later put is not controlled. -/
theorem size_control_lost (hr : Reachable raw calls s)
    (hlim : s.hashtable.numExpandsThreshold ≤ s.hashtable.numExpands) :
    (∀ key val lt, Allocates s.hashtable key → clhtPut raw calls s.hashtable key val lt =
      some (true, linked raw s.hashtable key val)) ∧ ¬ KeepsControl raw calls s := by
  refine ⟨?_, not_keepsControl hr hlim⟩
  intro key val lt hall
  exact put_links raw calls hall (expands_ne_threshold hr.inBounds hlim) val lt

/-! ## Past the limit -/

/-- The put that starts passive elimination leaves the counter at the threshold. -/
theorem exists_limit (hraw : Warm raw) (calls : Nat) : ∃ s,
    Filled raw calls (3 * 2 ^ 19 + 1) s ∧ s.lt = 0 ∧ s.hashtable.numBuckets = 2 ^ 19 ∧
    s.hashtable.numExpands = s.hashtable.numExpandsThreshold ∧
    s.hashtable.overflowCount = 2 ^ 19 ∧
    ∀ x ∈ s.hashtable.pairs, x.1 ≤ binKey (3 * 2 ^ 19 + 1) := by
  rcases exists_fullBin hraw calls (m := 19) (by decide) (by decide) with
    ⟨s, xs, hf, hlt, ho, hlen, hkeys⟩
  have hi := hf.reachable.inBounds
  have hnb : s.hashtable.numBuckets = 2 ^ 19 := ho.copied.buckets
  rcases ho.full (by decide) hlen with ⟨hcount, hfull⟩
  have hk := binKey_spec (3 * 2 ^ 19)
  have hbin : s.hashtable.clhtHash (binKey (3 * 2 ^ 19 + 1)) = 0 := ho.clhtHash (by decide) hk.2
  have hno : ∀ w, (binKey (3 * 2 ^ 19 + 1), w) ∉ s.hashtable.pairs := by
    intro w hmem
    exact Nat.not_le.mpr (binKey_succ _) (hkeys _ (ho.copied.perm.mem_iff.mp hmem))
  have hall : Allocates s.hashtable (binKey (3 * 2 ^ 19 + 1)) := by
    refine ⟨ho.not_exists hk.1 fun w hmem => hno w (ho.copied.perm.mem_iff.mpr hmem), ?_⟩
    rw [hbin]
    exact hfull
  have hthr := (ho.threshold_iff (by decide) (by omega)).mpr hcount
  rcases hi.wf.expandBin raw hk.1 hno 1 with ⟨hwe, hperm⟩
  have hsize : (linked raw s.hashtable (binKey (3 * 2 ^ 19 + 1)) 1).size = 3 * 2 ^ 19 + 1 := by
    rw [linked, size_eq, hperm.length_eq, List.length_cons, ho.copied.perm.length_eq, hlen]
  rcases threshold_cases raw calls hi.wf hk.1 hall hthr 1 s.lt with
    ⟨h', hput, _, ⟨hsparse, _⟩ | ⟨_, hbelow, _⟩ | ⟨_, heq⟩⟩
  -- the table is neither sparse nor below the maximum
  · exfalso
    unfold Sparse at hsparse
    rw [hsize, show (linked raw s.hashtable (binKey (3 * 2 ^ 19 + 1)) 1).numBuckets = 2 ^ 19 from
      hnb] at hsparse
    exact absurd hsparse (by decide)
  · rw [hsize] at hbelow
    exact absurd hbelow (by decide)
  · have hsame : SameCounts (linked raw s.hashtable (binKey (3 * 2 ^ 19 + 1)) 1) h' := by
      rw [heq]
      exact sameCounts_setBin (hi.wf.hash_lt _) (eliminate_overflow _)
    refine ⟨_, hf.succ hput, hlt, hsame.buckets.trans hnb, ?_, ?_, ?_⟩
    · rw [hsame.expands, hsame.threshold]
      exact hthr
    · rw [hsame.overflow, linked, overflowCount_expandBin raw (hi.wf.hash_lt _),
        ho.overflowCount_eq hi (by omega), hcount]
    · intro x hx
      rw [heq] at hx
      have hold := (hwe.eliminate (hi.wf.hash_lt _)).2 x hx
      rw [hperm.mem_iff, List.mem_cons, ho.copied.perm.mem_iff] at hold
      rcases hold with rfl | hold
      · exact le_refl _
      · exact (hkeys x hold).trans (binKey_succ _).le

theorem exists_past_limit : ∃ s : SWTable, Reachable lateCold 0 s ∧
    s.hashtable.numExpandsThreshold ≤ s.hashtable.numExpands := by
  rcases exists_limit warm_lateCold 0 with ⟨s, hf, _, _, hthr, _, _⟩
  refine ⟨s, hf.reachable, ?_⟩
  rw [hthr]
  exact UInt32.le_refl _

/-- A table past its limit: a put that is not controlled follows. -/
theorem limit_size_control_lost : ∃ s : SWTable, Reachable lateCold 0 s ∧
    s.hashtable.numExpandsThreshold ≤ s.hashtable.numExpands ∧ ¬ KeepsControl lateCold 0 s := by
  rcases exists_past_limit with ⟨s, hr, hlim⟩
  exact ⟨s, hr, hlim, (size_control_lost hr hlim).2⟩

theorem size_control_fails : ¬ ∀ s : SWTable, Reachable lateCold 0 s →
    s.hashtable.numExpandsThreshold ≤ s.hashtable.numExpands → KeepsControl lateCold 0 s := by
  intro hall
  rcases exists_past_limit with ⟨s, hr, hlim⟩
  exact not_keepsControl hr hlim (hall s hr hlim)

/-! ## The counter wraps -/

/-- A table of `2^19` bins past its limit, with at least `n` pairs in its first bin. -/
structure PastLimit (last n : Nat) (s : SWTable) : Prop where
  time : s.lt = 0
  buckets : s.hashtable.numBuckets = 2 ^ 19
  least : 2 ^ 19 ≤ s.hashtable.overflowCount
  most : s.hashtable.overflowCount < 2 ^ 32
  keys : ∀ x ∈ s.hashtable.pairs, x.1 ≤ binKey last
  pairs : n ≤ (s.hashtable.table 0).pairs.length

/-- The next put goes into the first bin and resizes nothing; only the number of overflow
buckets may leave 32 bits. -/
theorem PastLimit.put (raw : Nat → Nat → Nat → Raw) (calls : Nat) {last n : Nat}
    (hp : PastLimit last n s) (hi : InBounds s.hashtable) :
    ∃ h', clhtPut raw calls s.hashtable (binKey (last + 1)) 1 s.lt = some (true, h') ∧
      (h'.overflowCount = 2 ^ 32 ∨ PastLimit (last + 1) (n + 1) { s with hashtable := h' }) := by
  have hk := binKey_spec last
  have hnext := binKey_succ last
  have hno : ∀ w, (binKey (last + 1), w) ∉ s.hashtable.pairs := fun w hmem =>
    Nat.not_le.mpr hnext (hp.keys _ hmem)
  have hbin : s.hashtable.clhtHash (binKey (last + 1)) = 0 := by
    rw [Hashtable.clhtHash, hi.wf.hash, hp.buckets, Nat.and_two_pow_sub_one_eq_mod]
    exact Nat.mod_eq_zero_of_dvd ((Nat.pow_dvd_pow 2 (by decide)).trans hk.2)
  have hgrown : ∀ {h' : Hashtable}, h'.pairs.Perm ((binKey (last + 1), 1) :: s.hashtable.pairs) →
      ∀ x ∈ h'.pairs, x.1 ≤ binKey (last + 1) := by
    intro h' hperm x hx
    rcases List.mem_cons.mp (hperm.mem_iff.mp hx) with rfl | hx
    · exact le_refl _
    · exact (hp.keys x hx).trans hnext.le
  -- the counter is between the threshold and its end
  have hthr : s.hashtable.numExpands + 1 ≠ s.hashtable.numExpandsThreshold := by
    refine expands_ne_threshold hi ?_
    rw [UInt32.le_iff_toNat_le, hi.threshold, hp.buckets, (counted_iff hi.tallied).mpr hp.most]
    exact hp.least
  have hleast := hp.least
  have hmost := hp.most
  have hpairs := hp.pairs
  rcases put_cases raw calls hi.wf hk.1 hno 1 s.lt with ⟨h', hput, hw', hstep⟩
  refine ⟨h', hput, ?_⟩
  cases hstep with
  | @fill u c hedit =>
    rcases Chain.editBucket_some hedit with ⟨hlen, b, b', _, hfill, hrep⟩
    have hrep' := hrep (Bucket.fill_some hk.1 hfill)
    have hsame := sameCounts_setBin (hi.wf.hash_lt (binKey (last + 1))) hlen
    refine Or.inr ⟨hp.time, hp.buckets, hsame.overflow.symm ▸ hleast, hsame.overflow.symm ▸ hmost,
      hgrown (hi.wf.put hno hrep').2, ?_⟩
    have hmore := hrep'.perm.length_eq
    rw [hbin] at hmore ⊢
    rw [List.length_append, List.length_singleton] at hmore
    show n + 1 ≤ ((s.hashtable.setBin 0 c).table 0).pairs.length
    rw [setBin_table]
    omega
  | expand _ _ =>
    have hcount := overflowCount_expandBin raw (hi.wf.hash_lt (binKey (last + 1)))
      (binKey (last + 1)) 1
    rcases Nat.lt_or_eq_of_le (Nat.succ_le_of_lt hmost) with hlt | heq
    · refine Or.inr ⟨hp.time, hp.buckets, ?_, ?_, hgrown (hi.wf.expandBin raw hk.1 hno 1).2, ?_⟩
      · rw [hcount]
        omega
      · rw [hcount]
        exact hlt
      · rw [hbin, expandBin_table, Chain.expand_pairs hk.1, List.length_append]
        exact Nat.add_le_add_right hpairs 1
    · exact Or.inl (hcount.trans heq)
  | eliminate _ heq => exact absurd heq hthr
  | shrink _ heq => exact absurd heq hthr
  | grow _ heq => exact absurd heq hthr

/-- More puts into the first bin, until there are too many overflow buckets. -/
theorem exists_pastLimit (hraw : Warm raw) (calls : Nat) : ∀ n,
    (∃ m ≤ n, ∃ s, Filled raw calls (3 * 2 ^ 19 + 1 + m) s ∧
      s.hashtable.overflowCount = 2 ^ 32) ∨
    ∃ s, Filled raw calls (3 * 2 ^ 19 + 1 + n) s ∧ PastLimit (3 * 2 ^ 19 + 1 + n) n s := by
  intro n
  induction n with
  | zero =>
    rcases exists_limit hraw calls with ⟨s, hf, hlt, hnb, hthr, hcount, hkeys⟩
    exact Or.inr ⟨s, hf, hlt, hnb, by omega, by omega, hkeys, Nat.zero_le _⟩
  | succ n ih =>
    rcases ih with ⟨m, hm, hreached⟩ | ⟨s, hf, hp⟩
    · exact Or.inl ⟨m, by omega, hreached⟩
    · rcases hp.put raw calls hf.reachable.inBounds with
        ⟨h', hput, hcount | hp'⟩
      · exact Or.inl ⟨n + 1, le_refl _, _, hf.succ hput, hcount⟩
      · exact Or.inr ⟨_, hf.succ hput, hp'⟩

theorem exists_wrapped (hraw : Warm raw) (calls : Nat) : ∃ n < 2 ^ 35, ∃ s,
    Filled raw calls n s ∧ s.hashtable.overflowCount = 2 ^ 32 := by
  rcases exists_pastLimit hraw calls (3 * 2 ^ 32 + 1) with ⟨m, hm, s, hf, hcount⟩ | ⟨s, hf, hp⟩
  · exact ⟨_, by omega, s, hf, hcount⟩
  · -- so many pairs of one bin take more buckets
    exfalso
    have hi := hf.reachable.inBounds
    have hle := Chain.length_pairs_le (s.hashtable.table 0)
    have hone : (s.hashtable.table 0).overflow.length ≤ s.hashtable.overflowCount :=
      Finset.single_le_sum (f := fun bin => (s.hashtable.table bin).overflow.length)
        (fun _ _ => Nat.zero_le _) (Finset.mem_range.mpr hi.wf.pos)
    have hpairs := hp.pairs
    have hmost := hp.most
    unfold entriesPerBucket at hle
    omega

/-- A run of puts is a run of the table at one time. -/
theorem run_puts : ∀ {ops : List SWOp} {s s' : SWTable} {rs : List SWAnswer},
    (∀ op ∈ ops, ∃ key val, op = .put key val) → runOps (step raw calls) s ops = some (rs, s') →
    ∃ rs', runOps (Hashtable.step raw calls) s.hashtable (ops.map (SWOp.call s.lt)) =
      some (rs', s'.hashtable) := by
  intro ops
  induction ops with
  | nil =>
    intro s s' rs _ hrun
    cases hrun
    exact ⟨[], rfl⟩
  | cons op ops ih =>
    intro s s' rs hputs hrun
    rw [List.forall_mem_cons] at hputs
    simp only [runOps, Option.bind_eq_some_iff, Option.map_eq_some_iff, Prod.mk.injEq] at hrun
    rcases hrun with ⟨⟨r, s₁⟩, hs, ⟨rs₁, s₂⟩, hrun, _, rfl⟩
    rcases step_hashtable hs with ⟨a, ha⟩
    rcases ih hputs.2 hrun with ⟨as, has⟩
    -- `Put` does not advance the time
    have htime : s₁.lt = s.lt := by
      rcases hputs.1 with ⟨key, val, rfl⟩
      simp only [step, put, Option.map_map, Option.map_eq_some_iff] at hs
      rcases hs with ⟨r', _, heq⟩
      cases heq
      rfl
    rw [htime] at has
    exact ⟨a :: as, by simp [runOps, ha, has]⟩

/-- The puts of `fillOps` as calls of the CLHT interface. -/
def fillCalls (n : Nat) : List Call := (fillOps n).map (SWOp.call 0)

theorem mem_fillCalls {n : Nat} {call : Call} (hcall : call ∈ fillCalls n) :
    ∃ i < n, call = .put (binKey (i + 1)) 1 0 := by
  rcases List.mem_map.mp hcall with ⟨op, hop, rfl⟩
  rcases List.mem_map.mp hop with ⟨i, hi, rfl⟩
  exact ⟨i, List.mem_range.mp hi, rfl⟩

/-- Fewer than `2^35` puts bring the counter of overflow buckets around. -/
theorem expands_wrap : ∃ n < 2 ^ 35, (∀ call ∈ fillCalls n, call.key ≠ 0 ∧ call.key < 2 ^ 64) ∧
    ∃ h₀ rs h, create 16384 = some h₀ ∧
      runOps (Hashtable.step lateCold 0) h₀ (fillCalls n) = some (rs, h) ∧
      h.numExpands = 0 ∧ h.overflowCount = 2 ^ 32 ∧
      ¬ Along (Hashtable.step lateCold 0) (After (Hashtable.step lateCold 0) Shape) h₀
        (fillCalls n) := by
  rcases exists_wrapped warm_lateCold 0 with ⟨n, hn, s, hf, hcount⟩
  have hi := hf.reachable.inBounds
  rcases hf with ⟨s₀, rs₀, hinit, hrun₀⟩
  rcases Option.map_eq_some_iff.mp hinit with ⟨h₀, hcreate, rfl⟩
  have hputs : ∀ op ∈ fillOps n, ∃ key val, op = .put key val := by
    intro op hop
    rcases List.mem_map.mp hop with ⟨i, _, rfl⟩
    exact ⟨_, _, rfl⟩
  rcases run_puts hputs hrun₀ with ⟨rs, hrun⟩
  have hzero : s.hashtable.numExpands = 0 := by
    rw [hi.tallied, hcount]
    rfl
  refine ⟨n, hn, ?_, h₀, rs, s.hashtable, hcreate, hrun, hzero, hcount, ?_⟩
  · intro call hcall
    rcases mem_fillCalls hcall with ⟨i, hlt, rfl⟩
    refine ⟨(binKey_spec i).1, ?_⟩
    show (i + 1) * 2 ^ 24 < 2 ^ 64
    omega
  · intro halong
    rcases shape_create with ⟨h₁, hcreate₁, hshape⟩
    cases hcreate.symm.trans hcreate₁
    have hcounted := (halong.after_run hshape hrun).counted
    unfold Counted at hcounted
    rw [hzero, hcount] at hcounted
    exact absurd hcounted (by decide)

end SWTable

end Epli
