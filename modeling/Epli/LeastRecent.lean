import Epli.History

/-!
# Passive elimination and the least recently used bucket

When a table must not grow any more, `ht_status` clears the first of the coldest buckets of
one chain: by the stored time, then by the heat, then by the place. The stored time is the
last hit in 24 bits, so that a bucket hit after `2^24` ticks looks older than one hit before.
-/

namespace Epli.Clht

open Lib

variable {h : Hashtable} {k v : Nat}

/-- Buckets with pairs are told apart by which of them is cleared. -/
theorem Bucket.modify_clear_inj {bs : List Bucket} {i j : Nat} (hpairs : ∀ b ∈ bs, b.pairs ≠ [])
    (hi : i < bs.length) (heq : bs.modify i Bucket.clear = bs.modify j Bucket.clear) : i = j := by
  by_contra hne
  have hget := congrArg (fun l => l[i]?) heq
  simp only [List.getElem?_modify_eq, List.getElem?_modify_ne _ _ (Ne.symm hne),
    List.getElem?_eq_getElem hi, Option.map_eq_map, Option.map_some, Option.some.injEq] at hget
  have hempty := Bucket.clear_pairs bs[i]
  rw [hget] at hempty
  exact hpairs _ (List.getElem_mem hi) hempty

namespace Hashtable

/-- A put starts passive elimination. -/
def Eliminates (raw : Nat → Nat → Nat → Raw) (h : Hashtable) (key val : Nat) : Prop :=
  Allocates h key ∧ h.numExpands + 1 = h.numExpandsThreshold ∧ Stops (linked raw h key val)

/-- The chain of the key, with the bucket that the put links. -/
def putChain (raw : Nat → Nat → Nat → Raw) (h : Hashtable) (key val : Nat) : List Bucket :=
  ((linked raw h key val).table (h.clhtHash key)).buckets

/-- The keys of one bucket of the chain are cleared, and nothing else changes. -/
def ClearsOnly (raw : Nat → Nat → Nat → Raw) (h : Hashtable) (key val place : Nat)
    (h' : Hashtable) : Prop :=
  place < (putChain raw h key val).length ∧
    ∃ c, h' = (linked raw h key val).setBin (h.clhtHash key) c ∧
      c.buckets = (putChain raw h key val).modify place Bucket.clear

variable {raw : Nat → Nat → Nat → Raw}

theorem putChain_eq (h : Hashtable) (k v : Nat) :
    putChain raw h k v = ((h.table (h.clhtHash k)).expand
      (raw h.version (h.clhtHash k) (h.table (h.clhtHash k)).buckets.length) k v).buckets := by
  rw [putChain, linked, expandBin_table]

/-- The bucket that is cleared is the first of the coldest. -/
theorem Eliminates.put (he : Eliminates raw h k v) (hw : Wf h) (hk : k ≠ 0) (calls : Nat)
    (lt : UInt32) : ∃ h' place, clhtPut raw calls h k v lt = some (true, h') ∧
      FirstColdest (putChain raw h k v) place ∧ ClearsOnly raw h k v place h' := by
  rcases threshold_cases raw calls hw hk he.1 he.2.1 v lt with
    ⟨h', hput, _, ⟨hsparse, _⟩ | ⟨_, hbelow, _⟩ | ⟨_, rfl⟩⟩
  · exact absurd hsparse (Nat.not_lt.mpr he.2.2.1)
  · exact absurd hbelow (Nat.not_lt.mpr he.2.2.2)
  · rcases Chain.eliminate_spec ((linked raw h k v).table (h.clhtHash k)) with
      ⟨place, hfirst, hclear⟩
    rcases hfirst with ⟨b, hget, hmin⟩
    exact ⟨_, place, hput, ⟨b, hget, hmin⟩, (List.getElem?_eq_some_iff.mp hget).1, _, rfl, hclear⟩

theorem ClearsOnly.unique {place place' : Nat} {h' : Hashtable} (hk : k ≠ 0)
    (hfull : (h.table (h.clhtHash k)).Full) (hc : ClearsOnly raw h k v place h')
    (hc' : ClearsOnly raw h k v place' h') : place = place' := by
  rcases hc with ⟨hlt, c, heq, hclear⟩
  rcases hc' with ⟨_, c', heq', hclear'⟩
  have hsame : c = c' := by
    have hbin := congrArg (fun ht => ht.table (h.clhtHash k)) (heq.symm.trans heq')
    simpa only [setBin_table] using hbin
  subst hsame
  refine Bucket.modify_clear_inj (fun b hb => ?_) hlt (hclear.symm.trans hclear')
  rw [putChain_eq] at hb
  exact Chain.pairs_ne_nil hfull hk hb

end Hashtable

end Epli.Clht

namespace Epli.SWTable.Traced

open Lib Clht Hashtable

variable {raw : Nat → Nat → Nat → Raw} {calls : Nat} {t t₀ : Traced} {op : SWOp}

/-- If the bucket has been hit, no other bucket of its chain that has been hit has an older
last hit, and none with the same last hit has fewer hits. -/
def LeastRecent (t : Traced) (bin place : Nat) : Prop :=
  ∀ time count, t.hist.hits bin place = some (time, count) → ∀ place' ≠ place,
    ∀ time' count', t.hist.hits bin place' = some (time', count') →
      time ≤ time' ∧ (time' = time → count ≤ count')

/-- Passive elimination clears one bucket, a least recently used one. -/
def EvictsLeastRecent (raw : Nat → Nat → Nat → Raw) (calls : Nat) (t : Traced) : SWOp → Prop
  | .put key val => Eliminates raw t.table.hashtable key val →
      ∃ h' place, clhtPut raw calls t.table.hashtable key val t.table.lt = some (true, h') ∧
        ClearsOnly raw t.table.hashtable key val place h' ∧
        LeastRecent t (t.table.hashtable.clhtHash key) place
  | _ => True

/-- Before a put that starts passive elimination, no bucket whose last hit lies in a later
period of `2^24` ticks than that of another bucket comes first by stored time, heat and
place. -/
def OnePeriod (raw : Nat → Nat → Nat → Raw) (t : Traced) : SWOp → Prop
  | .put key val => Eliminates raw t.table.hashtable key val →
      ∀ place time count place' time' count',
        t.hist.hits (t.table.hashtable.clhtHash key) place = some (time, count) →
        t.hist.hits (t.table.hashtable.clhtHash key) place' = some (time', count') →
        time' / 2 ^ 24 < time / 2 ^ 24 →
        ¬ FirstColdest (putChain raw t.table.hashtable key val) place
  | _ => True

/-- A bucket that has been hit keeps its place in the chain of a put. -/
theorem Recorded.putChain (raw : Nat → Nat → Nat → Raw) (val : Nat) (hrec : Recorded t)
    {key place time count : Nat}
    (hhit : t.hist.hits (t.table.hashtable.clhtHash key) place = some (time, count)) :
    ∃ b, (putChain raw t.table.hashtable key val)[place]? = some b ∧
      b.t.toNat = time % 2 ^ 24 := by
  have htime := (hrec.hit _ place time count hhit).2
  rcases keepsTimes_linked raw t.table.hashtable key val (t.table.hashtable.clhtHash key) with
    ⟨more, hmore⟩
  have hlong : ((linked raw t.table.hashtable key val).table
      (t.table.hashtable.clhtHash key)).times[place]? = some (BitVec.ofNat 24 time) := by
    rw [← hmore, List.getElem?_append_left (List.getElem?_eq_some_iff.mp htime).1]
    exact htime
  rw [Chain.times, List.getElem?_map, Option.map_eq_some_iff] at hlong
  rcases hlong with ⟨b, hget, hb⟩
  refine ⟨b, hget, ?_⟩
  rw [hb, BitVec.toNat_ofNat]

/-- In one period the stored times are in the order of the last hits. -/
theorem Recorded.leastRecent (hrec : Recorded t) {key val place : Nat}
    (hfirst : FirstColdest (Hashtable.putChain raw t.table.hashtable key val) place)
    (hperiod : ∀ time count place' time' count',
      t.hist.hits (t.table.hashtable.clhtHash key) place = some (time, count) →
      t.hist.hits (t.table.hashtable.clhtHash key) place' = some (time', count') →
      ¬ time' / 2 ^ 24 < time / 2 ^ 24) :
    LeastRecent t (t.table.hashtable.clhtHash key) place := by
  intro time count hhit place' hne time' count' hhit'
  have hapart : time' ≠ time := by
    rintro rfl
    exact hne (hrec.apart _ place' place time' count' count hhit' hhit)
  refine ⟨?_, fun heq => absurd heq hapart⟩
  by_contra hlt
  -- the other bucket would be colder by its stored time
  rcases hrec.putChain raw val hhit with ⟨b, hget, htime⟩
  rcases hrec.putChain raw val hhit' with ⟨b', hget', htime'⟩
  rcases hfirst with ⟨b₁, hget₁, hmin⟩
  cases hget.symm.trans hget₁
  have hwarm := (hmin place' b' hget').1
  have hsame := hperiod time count place' time' count' hhit hhit'
  refine hwarm (Or.inl ?_)
  rw [htime, htime']
  omega

theorem Recorded.evicts_iff (hrec : Recorded t) (hin : InTime t op) :
    EvictsLeastRecent raw calls t op ↔ OnePeriod raw t op := by
  cases op with
  | update k v => exact Iff.rfl
  | remove k => exact Iff.rfl
  | get k => exact Iff.rfl
  | put k v =>
    have hk : k ≠ 0 := hin.1
    constructor
    · intro hevicts helim place time count place' time' count' hhit hhit' hlater hfirst
      rcases helim.put hrec.bounds.wf hk calls t.table.lt with ⟨h', place₀, hput, hfirst₀, hclear₀⟩
      rcases hevicts helim with ⟨h₁, place₁, hput₁, hclear₁, hleast⟩
      cases hput.symm.trans hput₁
      -- the bucket of the claim is the one that comes first
      cases hclear₁.unique hk helim.1.2 hclear₀
      cases hfirst.unique hfirst₀
      have hne : place' ≠ place := by
        rintro rfl
        cases hhit.symm.trans hhit'
        exact absurd hlater (Nat.lt_irrefl _)
      have hle := (hleast time count hhit place' hne time' count' hhit').1
      exact absurd (Nat.div_le_div_right hle) (Nat.not_le.mpr hlater)
    · intro hperiod helim
      rcases helim.put hrec.bounds.wf hk calls t.table.lt with ⟨h', place, hput, hfirst, hclear⟩
      refine ⟨h', place, hput, hclear, hrec.leastRecent hfirst ?_⟩
      intro time count place' time' count' hhit hhit' hlater
      exact hperiod helim place time count place' time' count' hhit hhit' hlater hfirst

/-- One bucket is cleared in any case. -/
def ClearsOne (raw : Nat → Nat → Nat → Raw) (calls : Nat) (t : Traced) : SWOp → Prop
  | .put key val => Eliminates raw t.table.hashtable key val →
      ∃ h' place, clhtPut raw calls t.table.hashtable key val t.table.lt = some (true, h') ∧
        ClearsOnly raw t.table.hashtable key val place h'
  | _ => True

theorem Recorded.clearsOne (hrec : Recorded t) (hin : InTime t op) : ClearsOne raw calls t op := by
  cases op with
  | put k v =>
    intro helim
    rcases helim.put hrec.bounds.wf hin.1 calls t.table.lt with ⟨h', place, hput, _, hclear⟩
    exact ⟨h', place, hput, hclear⟩
  | update k v => trivial
  | remove k => trivial
  | get k => trivial

/-- Every run comes back, every passive elimination clears one bucket, and it is always a
least recently used one iff the buckets in question have been hit in one period. -/
theorem least_recent_iff (raw : Nat → Nat → Nat → Raw) (calls : Nat) (ops : List SWOp)
    (hstart : start = some t₀) (hin : Along (step raw calls) InTime t₀ ops) :
    (∃ answers t, runOps (step raw calls) t₀ ops = some (answers, t)) ∧
      Along (step raw calls) (ClearsOne raw calls) t₀ ops ∧
      (Along (step raw calls) (EvictsLeastRecent raw calls) t₀ ops ↔
        Along (step raw calls) (OnePeriod raw) t₀ ops) := by
  rcases exists_start with ⟨t, hstart', hrec, _⟩
  cases hstart.symm.trans hstart'
  rcases hrec.run raw calls hin with ⟨answers, t', hrun, _⟩
  refine ⟨⟨answers, t', hrun⟩, ?_, hrec.along_iff hin fun t op hrec hin => hrec.evicts_iff hin⟩
  exact hin.invariant Recorded (fun t op ans t' hrec hin hrun => hrec.after hin ans t' hrun)
    (fun t op hrec hin => hrec.clearsOne hin) hrec

end Epli.SWTable.Traced

/-! ## A chain that is read twice -/

namespace Epli.SWTable

open Lib Clht Hashtable

/-- Memory with the time `1`. -/
def warm : Nat → Nat → Nat → Raw := fun _ _ _ => ⟨1, 0, 0, 0, 0⟩

/-- The key whose put starts passive elimination. -/
def lastKey : Nat := binKey (3 * 2 ^ 19 + 1)

/-- The full first bin of a table of `2^19` bins, with the time `1` in every overflow
bucket. -/
structure FullBin (s : SWTable) : Prop where
  bounds : InBounds s.hashtable
  buckets : s.hashtable.numBuckets = 2 ^ 19
  expands : s.hashtable.numExpands + 1 = s.hashtable.numExpandsThreshold
  full : (s.hashtable.table 0).Full
  size : s.hashtable.pairs.length = 3 * 2 ^ 19
  fresh : ∀ w, (lastKey, w) ∉ s.hashtable.pairs
  hot : ∀ place ≠ 0, ∀ t, (s.hashtable.table 0).times[place]? = some t → t = 1

variable {s : SWTable} {k : Nat}

theorem exists_full_bin (calls : Nat) : ∃ s, Filled warm calls (3 * 2 ^ 19) s ∧ s.lt = 0 ∧
    FullBin s ∧ (s.hashtable.table 0).overflow ≠ [] := by
  have hwarm : Warm warm := fun _ _ _ _ => rfl
  rcases exists_fullBin hwarm calls (m := 19) (by decide) (by decide) with
    ⟨s, xs, hf, hlt, ho, hlen, hkeys⟩
  rcases ho.full (by decide) hlen with ⟨hcount, hfull⟩
  refine ⟨s, hf, hlt, ⟨hf.reachable.inBounds, ho.copied.buckets,
    (ho.threshold_iff (by decide) (by omega)).mpr hcount, hfull, ?_, ?_, ?_⟩, ?_⟩
  · rw [ho.copied.perm.length_eq, hlen]
  · intro w hmem
    exact Nat.not_le.mpr (binKey_succ _) (hkeys _ (ho.copied.perm.mem_iff.mp hmem))
  · intro place hne t htime
    rcases Nat.exists_eq_succ_of_ne_zero hne with ⟨i, rfl⟩
    rw [Chain.times, List.getElem?_map, Chain.buckets, List.getElem?_cons_succ,
      Option.map_eq_some_iff] at htime
    rcases htime with ⟨b, hget, rfl⟩
    exact ho.hot b (List.mem_of_getElem? hget)
  · intro hnil
    rw [hnil] at hcount
    exact absurd hcount (by decide)

/-- The puts that fill it. -/
def fullOps : List SWOp := fillOps (3 * 2 ^ 19)

theorem fullOps_spec {op : SWOp} (hop : op ∈ fullOps) : op.key ≠ 0 ∧ ∀ key, op ≠ .get key := by
  rcases List.mem_map.mp hop with ⟨i, _, rfl⟩
  exact ⟨(binKey_spec i).1, by simp⟩

theorem exists_full_run (calls : Nat) : ∃ s₀ answers s, init 0 = some s₀ ∧
    runOps (step warm calls) s₀ fullOps = some (answers, s) ∧ s.lt = 0 ∧ FullBin s ∧
    (s.hashtable.table 0).overflow ≠ [] := by
  rcases exists_full_bin calls with ⟨s, ⟨s₀, answers, hinit, hrun⟩, hlt, hf, hover⟩
  exact ⟨s₀, answers, s, hinit, hrun, hlt, hf, hover⟩

-- a run of it is never evaluated
attribute [irreducible] fullOps

theorem FullBin.hash_eq (hf : FullBin s) (k : Nat) : s.hashtable.clhtHash k = k % 2 ^ 19 := by
  rw [clhtHash, hf.bounds.wf.hash, hf.buckets, Nat.and_two_pow_sub_one_eq_mod]

theorem FullBin.hash (hf : FullBin s) : s.hashtable.clhtHash lastKey = 0 := by
  rw [hf.hash_eq]
  exact Nat.mod_eq_zero_of_dvd ((Nat.pow_dvd_pow 2 (by decide)).trans (binKey_spec _).2)

/-- A read at the time `1`, of a key of the first bucket, or of no key of the chain. -/
theorem FullBin.get (hf : FullBin s) (hk : k ≠ 0) (hbin : s.hashtable.clhtHash k = 0)
    (hplace : ∀ place, (s.hashtable.table 0).hitPlace k = some place →
      place = 0 ∨ BitVec.ofNat 24 (s.lt + 1).toNat = 1) :
    FullBin (s.get k).2 ∧ ∀ key, ((s.get k).2.hashtable.table 0).hitPlace key =
      (s.hashtable.table 0).hitPlace key := by
  rcases get_spec hf.bounds.wf hk (s.lt + 1) with ⟨hw, hperm, _⟩
  have hs := sameCounts_get hf.bounds.wf k (s.lt + 1)
  have hexp : (s.get k).2.hashtable.numExpands + 1 = (s.get k).2.hashtable.numExpandsThreshold := by
    show (s.hashtable.clhtGet k (s.lt + 1)).2.numExpands + 1 = _
    rw [hs.expands, hf.expands]
    exact hs.threshold.symm
  -- slots stay, and the time of an overflow bucket stays or is `1`
  have htable : ((s.get k).2.hashtable.table 0).buckets.map Bucket.slots =
        (s.hashtable.table 0).buckets.map Bucket.slots ∧
      ∀ place ≠ 0, ∀ t, ((s.get k).2.hashtable.table 0).times[place]? = some t → t = 1 := by
    have hcases := clhtGet_cases s.hashtable k (s.lt + 1)
    rw [hbin] at hcases
    rcases hcases with ⟨_, hsame⟩ | ⟨place, c, hhit, _, hnew, htimes, hslots⟩
    · rw [show (s.get k).2.hashtable = s.hashtable from hsame]
      exact ⟨rfl, hf.hot⟩
    · rw [show (s.get k).2.hashtable = s.hashtable.setBin 0 c from hnew, setBin_table, htimes]
      refine ⟨hslots, ?_⟩
      intro place' hne t htime
      rw [List.getElem?_set] at htime
      split at htime
      · rename_i heq
        subst heq
        cases htime
        exact (hplace _ hhit).resolve_left hne
      · exact hf.hot place' hne t htime
  refine ⟨⟨hs.inBounds hf.bounds hw, hs.buckets.trans hf.buckets, hexp, ?_,
    hperm.length_eq.trans hf.size, fun w hmem => hf.fresh w (hperm.mem_iff.mp hmem), htable.2⟩,
    Chain.hitPlace_congr htable.1⟩
  intro b hb
  have hmem := List.mem_map_of_mem (f := Bucket.slots) hb
  rw [htable.1] at hmem
  rcases List.mem_map.mp hmem with ⟨b₀, hb₀, hsame⟩
  rw [← hsame]
  exact hf.full b₀ hb₀

/-- The put of the last key starts passive elimination. -/
theorem FullBin.eliminates (hf : FullBin s) (v : Nat) : Eliminates warm s.hashtable lastKey v := by
  have hk : lastKey ≠ 0 := (binKey_spec _).1
  refine ⟨⟨not_bucketExists (hf.bounds.wf.hash_lt _) hk hf.fresh, ?_⟩, hf.expands, ?_⟩
  · rw [hf.hash]
    exact hf.full
  · unfold Stops
    rw [linked, size_eq, (hf.bounds.wf.expandBin warm hk hf.fresh v).2.length_eq, List.length_cons,
      hf.size, show (s.hashtable.expandBin warm _ _ _).numBuckets = 2 ^ 19 from hf.buckets]
    decide

/-- The first bucket comes first if its time is `0`. -/
theorem FullBin.first_coldest (hf : FullBin s) {b : Bucket} {v : Nat}
    (hget : (putChain warm s.hashtable lastKey v)[0]? = some b) (htime : b.t = 0) :
    FirstColdest (putChain warm s.hashtable lastKey v) 0 := by
  refine ⟨b, hget, fun j b' hget' => ⟨?_, fun hlt => absurd hlt (Nat.not_lt_zero j)⟩⟩
  have hzero : b.t.toNat = 0 := by rw [htime]; rfl
  rcases Nat.eq_zero_or_pos j with rfl | hpos
  · cases hget.symm.trans hget'
    intro hcold
    unfold Bucket.Colder Colder at hcold
    omega
  -- every other bucket has been hit at 1, and so is the time left in the new one
  · have hone : b'.t = 1 := by
      rw [putChain_eq, hf.hash] at hget'
      rcases Chain.expand_eq (s.hashtable.table 0)
        (warm s.hashtable.version 0 (s.hashtable.table 0).buckets.length) lastKey v with
        ⟨last, hexp, ht, _, _⟩
      have hbuckets : ((s.hashtable.table 0).expand (warm s.hashtable.version 0
          (s.hashtable.table 0).buckets.length) lastKey v).buckets =
          (s.hashtable.table 0).buckets ++ [last] := by
        rw [hexp]
        rfl
      rw [hbuckets] at hget'
      rw [List.getElem?_append] at hget'
      split at hget'
      · refine hf.hot j (by omega) b'.t ?_
        rw [Chain.times, List.getElem?_map, hget', Option.map_some]
      · -- the new bucket
        rw [List.mem_singleton.mp (List.mem_of_getElem? hget'), ht]
        rfl
    have hlater : b'.t.toNat = 1 := by rw [hone]; rfl
    unfold Bucket.Colder Colder
    omega

/-- A key of the first bucket of the bin, and one of another bucket. -/
theorem FullBin.exists_keys (hf : FullBin s) (hover : (s.hashtable.table 0).overflow ≠ []) :
    ∃ k₀ k₁, (k₀ ≠ 0 ∧ s.hashtable.clhtHash k₀ = 0 ∧
        (s.hashtable.table 0).hitPlace k₀ = some 0) ∧
      k₁ ≠ 0 ∧ s.hashtable.clhtHash k₁ = 0 ∧
        ∃ place, (s.hashtable.table 0).hitPlace k₁ = some (place + 1) := by
  have hw := hf.bounds.wf
  -- no bucket of the bin is empty
  have hbin : ∀ b ∈ (s.hashtable.table 0).buckets, ∃ x ∈ b.pairs,
      x.1 ≠ 0 ∧ s.hashtable.clhtHash x.1 = 0 := by
    intro b hb
    rcases List.exists_mem_of_length_pos (by rw [hf.full.length_bucket hb]; decide) with ⟨x, hx⟩
    exact ⟨x, hx, (Bucket.mem_pairs.mp hx).2,
      hw.keyed 0 hw.pos x (List.mem_flatMap.mpr ⟨b, hb, hx⟩)⟩
  rcases List.exists_cons_of_ne_nil hover with ⟨b₁, bs, hcons⟩
  rcases hbin _ List.mem_cons_self with ⟨x₀, hx₀, hne₀, hhash₀⟩
  rcases hbin b₁ (by simp [Chain.buckets, hcons]) with ⟨x₁, hx₁, hne₁, hhash₁⟩
  refine ⟨x₀.1, x₁.1, ⟨hne₀, hhash₀, ?_⟩, hne₁, hhash₁, ?_⟩
  · have hfound : ((s.hashtable.table 0).head.slots.any fun s => s.1 == x₀.1) = true :=
      List.any_eq_true.mpr ⟨x₀, (Bucket.mem_pairs.mp hx₀).1, beq_self_eq_true _⟩
    rw [Chain.hitPlace, Chain.buckets, List.findIdx?_cons, if_pos hfound]
  · -- the key is not in the first bucket as well
    have hnd := hw.nodup
    unfold pairs at hnd
    rw [List.map_flatMap, List.nodup_flatMap] at hnd
    have hchain := hnd.1 0 (List.mem_range.mpr hw.pos)
    rw [Chain.pairs, Chain.buckets, List.flatMap_cons, List.map_append, List.nodup_append] at hchain
    have hmiss : ((s.hashtable.table 0).head.slots.any fun s => s.1 == x₁.1) = false := by
      rw [List.any_eq_false]
      rintro ⟨key, w⟩ hs hkey
      obtain rfl : key = x₁.1 := by simpa using hkey
      refine hchain.2.2 x₁.1
        (List.mem_map.mpr ⟨_, Bucket.mem_pairs.mpr ⟨hs, hne₁⟩, rfl⟩) x₁.1 ?_ rfl
      exact List.mem_map_of_mem (List.mem_flatMap.mpr ⟨b₁, by simp [hcons], hx₁⟩)
    have hin : (x₁.1, x₁.2) ∈ (s.hashtable.table 0).pairs :=
      List.mem_flatMap.mpr ⟨b₁, by simp [Chain.buckets, hcons], hx₁⟩
    rcases Chain.hitPlace_of_mem hin with ⟨place, hplace⟩
    have hlater := hplace
    rw [Chain.hitPlace, Chain.buckets, List.findIdx?_cons, if_neg (by rw [hmiss]; decide),
      Option.map_eq_some_iff] at hlater
    rcases hlater with ⟨i, _, rfl⟩
    exact ⟨i, hplace⟩

namespace Traced

variable {t : Traced} {k₀ k₁ time : Nat}

/-- The full first bin at some time, with a key of its first bucket. -/
structure FullAt (k₀ time : Nat) (t : Traced) : Prop where
  bin : FullBin t.table
  time : t.table.lt.toNat = time
  first : (t.table.hashtable.table 0).hitPlace k₀ = some 0

theorem FullAt.next_time (hf : FullAt k₀ time t) (hlt : time + 1 < 2 ^ 32) :
    (t.table.lt + 1).toNat = time + 1 := by
  rw [UInt32.toNat_add, UInt32.toNat_one, hf.time]
  exact Nat.mod_eq_of_lt hlt

/-- A read of a key of the bin, at the time `1` unless the key is in the first bucket. -/
theorem FullAt.hit (calls : Nat) (hf : FullAt k₀ time t) (hlt : time + 1 < 2 ^ 32)
    {k place : Nat} (hk : k ≠ 0) (hbin : t.table.hashtable.clhtHash k = 0)
    (hplace : (t.table.hashtable.table 0).hitPlace k = some place)
    (hone : place = 0 ∨ time = 0) :
    ∃ ans t' count, t.step warm calls (.get k) = some (ans, t') ∧ FullAt k₀ (time + 1) t' ∧
      t'.hist.hits = fun bin place' => if bin = 0 ∧ place' = place then some (time + 1, count)
        else t.hist.hits bin place' := by
  have htime := hf.next_time hlt
  rcases hf.bin.get hk hbin (fun place' hplace' => by
    cases hplace.symm.trans hplace'
    refine hone.imp_right fun h0 => ?_
    rw [htime, h0]
    rfl) with ⟨hbin', hsame⟩
  have hplace' : (t.table.hashtable.table (t.table.hashtable.clhtHash k)).hitPlace k =
      some place := by
    rw [hbin]
    exact hplace
  rcases t.hist.read_hit hplace' with ⟨count, hread⟩
  refine ⟨_, _, count, rfl, ⟨hbin', htime, (hsame k₀).trans hf.first⟩, ?_⟩
  show (t.hist.read t.table k).hits = _
  rw [hread, hbin, hf.time]

/-- A read that finds no key. -/
theorem FullAt.miss (calls : Nat) (hf : FullAt k₀ time t) (hlt : time + 1 < 2 ^ 32) :
    ∃ ans t', t.step warm calls (.get lastKey) = some (ans, t') ∧ FullAt k₀ (time + 1) t' ∧
      t'.hist = t.hist := by
  have hmiss : (t.table.hashtable.table 0).hitPlace lastKey = none := by
    refine Chain.hitPlace_eq_none (binKey_spec _).1 fun w hmem => hf.bin.fresh w ?_
    exact mem_pairs.mpr ⟨0, hf.bin.bounds.wf.pos, hmem⟩
  rcases hf.bin.get (binKey_spec _).1 hf.bin.hash (fun place hplace => by
    rw [show binKey (3 * 2 ^ 19 + 1) = lastKey from rfl, hmiss] at hplace
    cases hplace) with ⟨hbin', hsame⟩
  refine ⟨_, _, rfl, ⟨hbin', hf.next_time hlt, (hsame k₀).trans hf.first⟩, ?_⟩
  show t.hist.read t.table lastKey = _
  unfold History.read
  simp only [hf.bin.hash, hmiss]

theorem run_misses (calls n : Nat) (hf : FullAt k₀ time t) (hlt : time + n < 2 ^ 32) :
    ∃ answers t', runOps (Traced.step warm calls) t (List.replicate n (.get lastKey)) =
      some (answers, t') ∧ (FullAt k₀ (time + n) t' ∧ t'.hist = t.hist) ∧
      Along (Traced.step warm calls) InTime t (List.replicate n (.get lastKey)) := by
  refine runOps_replicate (2 ^ 32 - 1)
    (fun time t' => FullAt k₀ time t' ∧ t'.hist = t.hist) ?_ n ⟨hf, rfl⟩ (by omega)
  rintro time t' hlt ⟨hf, hhist⟩
  rcases hf.miss calls (by omega) with ⟨ans, t₁, hstep, hf₁, hhist₁⟩
  refine ⟨⟨(binKey_spec _).1, fun _ => ?_⟩, ans, t₁, hstep, hf₁, hhist₁.trans hhist⟩
  rw [hf.time]
  omega

/-- The reads that follow the filling of the bin. -/
def readTwice (k₀ k₁ misses : Nat) : List SWOp :=
  .get k₁ :: (List.replicate misses (.get lastKey) ++ [.get k₀])

/-- Both buckets have been hit, the first one last. -/
theorem run_readTwice (calls : Nat) (hf : FullAt k₀ 0 t) (hempty : t.hist = .empty) (hk₀ : k₀ ≠ 0)
    (hbin₀ : t.table.hashtable.clhtHash k₀ = 0) (hk₁ : k₁ ≠ 0)
    (hbin₁ : t.table.hashtable.clhtHash k₁ = 0) {place : Nat}
    (hplace : (t.table.hashtable.table 0).hitPlace k₁ = some (place + 1)) {misses : Nat}
    (hlt : misses + 2 < 2 ^ 32) :
    ∃ answers t' count count', runOps (Traced.step warm calls) t (readTwice k₀ k₁ misses) =
      some (answers, t') ∧ FullAt k₀ (misses + 2) t' ∧
      t'.hist.hits 0 0 = some (misses + 2, count) ∧ t'.hist.hits 0 (place + 1) = some (1, count') ∧
      Along (Traced.step warm calls) InTime t (readTwice k₀ k₁ misses) := by
  rcases hf.hit calls (by decide) hk₁ hbin₁ hplace (Or.inr rfl) with
    ⟨ans₁, t₁, count', hstep₁, hf₁, hhits₁⟩
  rcases run_misses calls misses hf₁ (by omega) with
    ⟨answers, t₂, hrun₂, ⟨hf₂, hhist⟩, hin₂⟩
  have hbin₂ : t₂.table.hashtable.clhtHash k₀ = 0 := by
    rw [hf₂.bin.hash_eq, ← hf.bin.hash_eq, hbin₀]
  rcases hf₂.hit calls (by omega) hk₀ hbin₂ hf₂.first (Or.inl rfl) with
    ⟨ans₃, t₃, count, hstep₃, hf₃, hhits₃⟩
  -- one hit, the misses, one hit
  have htime : 0 + 1 + misses + 1 = misses + 2 := by omega
  rw [htime] at hf₃ hhits₃
  refine ⟨ans₁ :: (answers ++ [ans₃]), t₃, count, count', ?_, hf₃, ?_, ?_, ⟨hk₁, ?_⟩, ?_⟩
  · have hlast : runOps (Traced.step warm calls) t₂ [.get k₀] = some ([ans₃], t₃) := by
      simp [runOps, hstep₃]
    rw [readTwice, runOps, hstep₁, Option.bind_some, runOps_append hrun₂, hlast]
    rfl
  · rw [hhits₃]
    rfl
  · rw [hhits₃, hhist, hhits₁, hempty]
    simp
  · intro _
    rw [hf.time]
    decide
  · intro r t' hstep'
    cases hstep₁.symm.trans hstep'
    rw [along_append hrun₂]
    refine ⟨hin₂, ⟨hk₀, fun _ => ?_⟩, fun _ _ _ => trivial⟩
    rw [hf₂.time]
    omega

/-- Nothing has been hit, so no bucket is in the wrong period. -/
theorem onePeriod_unread (hempty : t.hist = .empty) (op : SWOp) : OnePeriod warm t op := by
  cases op with
  | put k v =>
    intro _ place time count place' time' count' hhit
    rw [hempty] at hhit
    cases hhit
  | update k v => trivial
  | remove k => trivial
  | get k => trivial

/-- The whole run before the last put. -/
theorem exists_readTwice (calls misses : Nat) (hlt : misses + 2 < 2 ^ 32) :
    ∃ k₀ k₁ place t₀ answers t count count', start = some t₀ ∧
      runOps (Traced.step warm calls) t₀ (fullOps ++ readTwice k₀ k₁ misses) =
        some (answers, t) ∧ Recorded t ∧ FullAt k₀ (misses + 2) t ∧
      t.hist.hits 0 0 = some (misses + 2, count) ∧ t.hist.hits 0 (place + 1) = some (1, count') ∧
      Along (Traced.step warm calls) InTime t₀ (fullOps ++ readTwice k₀ k₁ misses) ∧
      Along (Traced.step warm calls) (OnePeriod warm) t₀ (fullOps ++ readTwice k₀ k₁ misses) := by
  rcases exists_full_run calls with ⟨s₀, answers₀, s, hinit, hrun₀, htime, hf, hover⟩
  have hrun₁ := run_unread (fun op hop => (fullOps_spec hop).2) hrun₀
  rcases hf.exists_keys hover with ⟨k₀, k₁, ⟨hk₀, hbin₀, hfirst⟩, hk₁, hbin₁, place, hplace⟩
  have hfull : FullAt k₀ 0 ⟨s, .empty⟩ := by
    refine ⟨hf, ?_, hfirst⟩
    show s.lt.toNat = 0
    rw [htime]
    rfl
  rcases run_readTwice calls hfull rfl hk₀ hbin₀ hk₁ hbin₁ hplace hlt with
    ⟨answers, t, count, count', hrun, hf', hhit₀, hhit₁, hin⟩
  have hrunAll : runOps (Traced.step warm calls) ⟨s₀, .empty⟩ (fullOps ++ readTwice k₀ k₁ misses) =
      some (answers₀ ++ answers, t) := by
    rw [runOps_append hrun₁, hrun]
    rfl
  have hstart : start = some ⟨s₀, .empty⟩ := by
    rw [start, hinit]
    rfl
  have hinAll : Along (Traced.step warm calls) InTime ⟨s₀, .empty⟩
      (fullOps ++ readTwice k₀ k₁ misses) := by
    rw [along_append hrun₁]
    exact ⟨inTime_unread fun op hop => fullOps_spec hop, hin⟩
  refine ⟨k₀, k₁, place, ⟨s₀, .empty⟩, _, t, count, count', hstart, hrunAll, ?_, hf', hhit₀,
    hhit₁, hinAll, ?_⟩
  · rcases exists_start with ⟨t₀, hstart', hrec, _⟩
    cases hstart.symm.trans hstart'
    rcases hrec.run warm calls hinAll with ⟨answers', t', hrun', hrec'⟩
    cases hrunAll.symm.trans hrun'
    exact hrec'
  · rw [along_append hrun₁]
    refine ⟨along_unread (fun t op hempty => onePeriod_unread hempty op)
      fun op hop => (fullOps_spec hop).2, ?_⟩
    -- the rest are reads
    refine Along.mono ?_ (along_of_mem (p := fun op => ∃ key, op = .get key) ?_ _)
    · rintro t op ⟨key, rfl⟩
      trivial
    · intro op hop
      simp only [readTwice, List.mem_cons, List.mem_append, List.not_mem_nil, or_false] at hop
      rcases hop with rfl | hop | rfl
      · exact ⟨_, rfl⟩
      · exact ⟨_, List.eq_of_mem_replicate hop⟩
      · exact ⟨_, rfl⟩

/-- The last put clears the first bucket, though another one has not been hit since the time
`1`. -/
theorem recent_bucket_cleared : ∃ k₀ k₁ t₀, start = some t₀ ∧
    Along (step warm 0) InTime t₀
      (fullOps ++ readTwice k₀ k₁ (2 ^ 24 - 2) ++ [.put lastKey 1]) ∧
    ¬ Along (step warm 0) (EvictsLeastRecent warm 0) t₀
      (fullOps ++ readTwice k₀ k₁ (2 ^ 24 - 2) ++ [.put lastKey 1]) := by
  rcases exists_readTwice 0 (2 ^ 24 - 2) (by decide) with
    ⟨k₀, k₁, place, t₀, answers, t, count, count', hstart, hrun, hrec, hf, hhit₀, hhit₁, hin, _⟩
  have hlast : InTime t (.put lastKey 1) :=
    ⟨(binKey_spec _).1, fun hget => by cases hget⟩
  refine ⟨k₀, k₁, t₀, hstart, ?_, ?_⟩
  · rw [along_append hrun]
    exact ⟨hin, hlast, fun _ _ _ => trivial⟩
  · rw [along_append hrun]
    intro hevicts
    have hperiod := (hrec.evicts_iff hlast).mp hevicts.2.1
    have hbin := hf.bin.hash
    -- the time of the first bucket is `2^24`, stored as `0`
    have hfirst : t.hist.hits (t.table.hashtable.clhtHash lastKey) 0 =
        some (2 ^ 24 - 2 + 2, count) := by
      rw [hbin]
      exact hhit₀
    rw [← hbin] at hhit₁
    rcases hrec.putChain warm 1 hfirst with ⟨b, hget, htime⟩
    have hzero : b.t = 0 := BitVec.eq_of_toNat_eq (by rw [htime]; rfl)
    exact hperiod (hf.bin.eliminates 1) 0 _ count (place + 1) 1 count' hfirst hhit₁ (by decide)
      (hf.bin.first_coldest hget hzero)

/-- Two reads in one period: the bucket that the last put clears is a least recently used
one. -/
theorem least_recent_cleared : ∃ k₀ k₁ t₀ answers t, start = some t₀ ∧
    runOps (step warm 0) t₀ (fullOps ++ readTwice k₀ k₁ 0) = some (answers, t) ∧
    Eliminates warm t.table.hashtable lastKey 1 ∧
    Along (step warm 0) (EvictsLeastRecent warm 0) t₀
      (fullOps ++ readTwice k₀ k₁ 0 ++ [.put lastKey 1]) := by
  rcases exists_readTwice 0 0 (by decide) with
    ⟨k₀, k₁, place, t₀, answers, t, count, count', hstart, hrun, hrec, hf, _, _, hin, hperiod⟩
  have hlast : InTime t (.put lastKey 1) :=
    ⟨(binKey_spec _).1, fun hget => by cases hget⟩
  have hinAll : Along (step warm 0) InTime t₀
      (fullOps ++ readTwice k₀ k₁ 0 ++ [.put lastKey 1]) := by
    rw [along_append hrun]
    exact ⟨hin, hlast, fun _ _ _ => trivial⟩
  refine ⟨k₀, k₁, t₀, answers, t, hstart, hrun, hf.bin.eliminates 1,
    (least_recent_iff warm 0 _ hstart hinAll).2.2.mpr ?_⟩
  rw [along_append hrun]
  refine ⟨hperiod, ?_, fun _ _ _ => trivial⟩
  -- no time is past `2`
  intro _ place time count place' time' count' hhit _ hlater
  have hle := (hrec.hit _ place time count hhit).1
  rw [hf.time] at hle
  omega

end Traced

end Epli.SWTable
