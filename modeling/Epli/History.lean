import Epli.SizeControl

/-!
# What a run has read

A bucket keeps the low 24 bits of the time of its last hit, and a new table starts without
any. `History` is what the elimination policies would have to know: when a key was last
found, and when and how often a bucket of the current table was hit. `Traced` runs an
`SWTable` with its history beside it. `Recorded` is the one bridge between the two: the time
in a bucket that has been hit is that of its last hit, as far as 24 bits go.
-/

namespace Epli.Clht

open Lib

variable {c c' : Chain} {h h' : Hashtable} {k v bin : Nat} {lt : UInt32}

/-- The bucket of the chain that `clht_get` hits. -/
def Chain.hitPlace (c : Chain) (key : Nat) : Option Nat :=
  c.buckets.findIdx? fun b => b.slots.any fun s => s.1 == key

/-- The times of the buckets of a chain. -/
def Chain.times (c : Chain) : List (BitVec 24) := c.buckets.map Bucket.t

/-- `clht_get` writes the time into the bucket it hits. -/
theorem Chain.get_hit {w : Nat} (hedit : c.editBucket (Bucket.get k lt) = some (w, c')) :
    ∃ place b, c.hitPlace k = some place ∧ c.buckets[place]? = some b ∧
      c'.times = c.times.set place (BitVec.ofNat 24 lt.toNat) := by
  have hmod := editBucket_buckets c (Bucket.get k lt)
  rw [hedit] at hmod
  rcases modifyFirst_findIdx? hmod.symm with ⟨i, b, b', hi, hget, hb, hset⟩
  have hplace : (fun b : Bucket => (b.get k lt).isSome) =
      fun b => b.slots.any fun s => s.1 == k := by
    funext b
    rw [Bucket.get, Option.isSome_map, List.isSome_find?]
  have htime : b'.t = BitVec.ofNat 24 lt.toNat := by
    rcases Option.map_eq_some_iff.mp hb with ⟨s, _, heq⟩
    cases heq
    rfl
  rw [hplace] at hi
  refine ⟨i, b, hi, hget, ?_⟩
  simp only at hset
  rw [times, hset, List.map_set, htime]
  rfl

/-- A get that misses has no bucket to hit. -/
theorem Chain.get_miss (hedit : c.editBucket (Bucket.get k lt) = none) : c.hitPlace k = none := by
  refine List.findIdx?_eq_none_iff.mpr fun b hb => ?_
  have hnone := editBucket_none hedit b hb
  rw [Bucket.get, Option.map_eq_none_iff] at hnone
  rw [← List.isSome_find?, hnone]
  rfl

/-- The place depends on the slots alone. -/
theorem Chain.hitPlace_congr (hslots : c'.buckets.map Bucket.slots = c.buckets.map Bucket.slots)
    (key : Nat) : c'.hitPlace key = c.hitPlace key := by
  have hmap : ∀ c : Chain, c.hitPlace key =
      (c.buckets.map Bucket.slots).findIdx? fun ss => ss.any fun s => s.1 == key := by
    intro c
    rw [List.findIdx?_map]
    rfl
  rw [hmap, hmap, hslots]

/-- A key that is not in the chain is not found. -/
theorem Chain.hitPlace_eq_none (hk : k ≠ 0) (hno : ∀ w, (k, w) ∉ c.pairs) :
    c.hitPlace k = none := by
  refine List.findIdx?_eq_none_iff.mpr fun b hb => ?_
  rw [List.any_eq_false]
  rintro ⟨key, w⟩ hs hkey
  obtain rfl : key = k := by simpa using hkey
  exact hno w (Chain.mem_pairs.mpr ⟨b, hb, hs, hk⟩)

/-- A key of the chain is found. -/
theorem Chain.hitPlace_of_mem (hmem : (k, v) ∈ c.pairs) : ∃ place, c.hitPlace k = some place := by
  rcases Chain.mem_pairs.mp hmem with ⟨b, hb, hs, _⟩
  cases hplace : c.hitPlace k with
  | some place => exact ⟨place, rfl⟩
  | none =>
    have hnone := List.findIdx?_eq_none_iff.mp hplace b hb
    rw [List.any_eq_false] at hnone
    exact absurd (beq_self_eq_true k) (hnone _ hs)

namespace Hashtable

/-- `clht_get` changes nothing, or writes the time into the bucket it hits. -/
theorem clhtGet_cases (h : Hashtable) (k : Nat) (lt : UInt32) :
    ((h.table (h.clhtHash k)).hitPlace k = none ∧ (h.clhtGet k lt).2 = h) ∨
    ∃ place c, (h.table (h.clhtHash k)).hitPlace k = some place ∧
      place < (h.table (h.clhtHash k)).times.length ∧
      (h.clhtGet k lt).2 = h.setBin (h.clhtHash k) c ∧
      c.times = (h.table (h.clhtHash k)).times.set place (BitVec.ofNat 24 lt.toNat) ∧
      c.buckets.map Bucket.slots = (h.table (h.clhtHash k)).buckets.map Bucket.slots := by
  cases hedit : (h.table (h.clhtHash k)).editBucket (Bucket.get k lt) with
  | none => exact Or.inl ⟨Chain.get_miss hedit, by simp only [clhtGet, hedit]⟩
  | some r =>
    rcases r with ⟨w, c⟩
    rcases Chain.get_hit hedit with ⟨place, b, hplace, hget, htimes⟩
    refine Or.inr ⟨place, c, hplace, ?_, by simp only [clhtGet, hedit], htimes, ?_⟩
    · rw [Chain.times, List.length_map]
      exact (List.getElem?_eq_some_iff.mp hget).1
    · refine Chain.editBucket_map (fun b w b' hb => ?_) hedit
      rcases Option.map_eq_some_iff.mp hb with ⟨s, _, heq⟩
      cases heq
      rfl

/-- Every bucket is where it was, with the same time. -/
def KeepsTimes (h h' : Hashtable) : Prop := ∀ bin, (h.table bin).times <+: (h'.table bin).times

theorem KeepsTimes.refl (h : Hashtable) : KeepsTimes h h := fun _ => List.prefix_rfl

theorem KeepsTimes.trans {h'' : Hashtable} (hk : KeepsTimes h h') (hk' : KeepsTimes h' h'') :
    KeepsTimes h h'' := fun bin => (hk bin).trans (hk' bin)

/-- Only the bin that is set has to keep its times. -/
theorem keepsTimes_setBin (htimes : (h.table bin).times <+: c.times) :
    KeepsTimes h (h.setBin bin c) := by
  intro bin'
  show _ <+: (setLoc h.table bin c bin').times
  by_cases heq : bin' = bin
  · rw [heq, setLoc_self]
    exact htimes
  · rw [setLoc_ne _ _ heq]

/-- Editing a slot touches no time. -/
theorem keepsTimes_edit {β : Type} {f : Nat × Nat → Option (β × (Nat × Nat))} {a : β}
    (hedit : (h.table bin).editBucket (Bucket.editSlot f) = some (a, c)) :
    KeepsTimes h (h.setBin bin c) := by
  have hmap : c.times = (h.table bin).times :=
    Chain.editBucket_map (fun b a b' hb => (Bucket.editSlot_fields hb).1) hedit
  refine keepsTimes_setBin ?_
  rw [hmap]

/-- `clht_update` touches no time. -/
theorem keepsTimes_update (h : Hashtable) (k v : Nat) : KeepsTimes h (h.clhtUpdate k v).2 := by
  unfold clhtUpdate
  simp only
  split
  · exact keepsTimes_edit ‹_›
  · exact .refl h

/-- `clht_remove` touches no time. -/
theorem keepsTimes_remove (h : Hashtable) (k : Nat) : KeepsTimes h (h.clhtRemove k).2 := by
  unfold clhtRemove
  simp only
  split
  · split
    · exact keepsTimes_edit ‹_›
    · exact .refl h
  · exact .refl h

/-- A put that links a bucket does so at the end, so the times before it stay. -/
theorem keepsTimes_linked (raw : Nat → Nat → Nat → Raw) (h : Hashtable) (k v : Nat) :
    KeepsTimes h (linked raw h k v) := by
  intro bin
  show _ <+: (setLoc h.table (h.clhtHash k) _ bin).times
  by_cases heq : bin = h.clhtHash k
  · rw [heq, setLoc_self]
    simp [Chain.times, Chain.expand, Chain.buckets]
  · rw [setLoc_ne _ _ heq]

/-- Clearing a bucket leaves its time. -/
theorem keepsTimes_eliminate (h : Hashtable) (bin : Nat) :
    KeepsTimes h (h.setBin bin (h.table bin).eliminate) := by
  rcases Chain.eliminate_spec (h.table bin) with ⟨i, _, hclear⟩
  have htimes : (h.table bin).eliminate.times = (h.table bin).times := by
    refine List.ext_getElem? fun j => ?_
    rw [Chain.times, Chain.times, hclear, List.getElem?_map, List.getElem?_map,
      List.getElem?_modify, Option.map_eq_map, Option.map_map]
    -- clearing a bucket leaves its time
    refine Option.map_congr fun b' _ => ?_
    show (if i = j then b'.clear else b').t = b'.t
    split
    · rfl
    · rfl
  refine keepsTimes_setBin ?_
  rw [htimes]

end Hashtable

end Epli.Clht

namespace Epli.SWTable

open Lib Clht Hashtable

/-- What a run has read: by key, the time of the last `clht_get` that found it; by bin and
place in the chain, the time of the last hit of a bucket of the current table, and the number
of its hits. -/
structure History where
  lastRead : Nat → Option Nat
  hits : Nat → Nat → Option (Nat × Nat)

/-- An `SWTable` and the history of the run behind it. -/
structure Traced where
  table : SWTable
  hist : History

namespace History

/-- Nothing has been read. -/
def empty : History := ⟨fun _ => none, fun _ _ => none⟩

/-- The history after a `Get` of the key, at the time after the current one. -/
def read (hist : History) (s : SWTable) (key : Nat) : History :=
  let bin := s.hashtable.clhtHash key
  match (s.hashtable.table bin).hitPlace key with
  | none => hist
  | some place =>
    let time := s.lt.toNat + 1
    let count := ((hist.hits bin place).elim 0 Prod.snd) + 1
    { lastRead := setLoc hist.lastRead key (some time)
      hits := setLoc hist.hits bin (setLoc (hist.hits bin) place (some (time, count))) }

/-- A hit is recorded for its key and for its bucket. -/
theorem read_hit (hist : History) {s : SWTable} {key place : Nat}
    (hplace : (s.hashtable.table (s.hashtable.clhtHash key)).hitPlace key = some place) :
    ∃ count, hist.read s key = ⟨setLoc hist.lastRead key (some (s.lt.toNat + 1)), fun bin place' =>
      if bin = s.hashtable.clhtHash key ∧ place' = place then some (s.lt.toNat + 1, count)
      else hist.hits bin place'⟩ := by
  refine ⟨(hist.hits (s.hashtable.clhtHash key) place).elim 0 Prod.snd + 1, ?_⟩
  unfold read
  simp only [hplace]
  congr 1
  funext bin place'
  unfold setLoc
  by_cases hbin : bin = s.hashtable.clhtHash key
  · subst hbin
    simp only [if_true, true_and]
  · simp only [hbin, if_false, false_and]

/-- The history after a call that leaves `s'`: a new table has not been hit. -/
def next (hist : History) (s : SWTable) (op : SWOp) (s' : SWTable) : History :=
  match op with
  | .get key => hist.read s key
  | _ =>
    if s'.hashtable.version = s.hashtable.version then hist
    else { hist with hits := fun _ _ => none }

/-- A call that neither reads nor resizes records nothing. -/
theorem next_same {hist : History} {s s' : SWTable} {op : SWOp} (hop : ∀ key, op ≠ .get key)
    (hversion : s'.hashtable.version = s.hashtable.version) : hist.next s op s' = hist := by
  cases op with
  | put k v => exact if_pos hversion
  | update k v => exact if_pos hversion
  | remove k => exact if_pos hversion
  | get k => exact absurd rfl (hop k)

/-- Nothing is recorded before the first `Get`. -/
theorem next_empty {s s' : SWTable} {op : SWOp} (hop : ∀ key, op ≠ .get key) :
    next .empty s op s' = .empty := by
  cases op with
  | put k v => exact ite_self _
  | update k v => exact ite_self _
  | remove k => exact ite_self _
  | get k => exact absurd rfl (hop k)

end History

namespace Traced

/-- `Init` at the time `0`. -/
def start : Option Traced := (SWTable.init 0).map fun s => ⟨s, .empty⟩

/-- One call. -/
def step (raw : Nat → Nat → Nat → Raw) (calls : Nat) (t : Traced) (op : SWOp) :
    Option (SWAnswer × Traced) :=
  (t.table.step raw calls op).map fun r => (r.1, ⟨r.2, t.hist.next t.table op r.2⟩)

/-- What callers keep to: no key `0`, and the time stays below `2^32`. -/
def InTime (t : Traced) (op : SWOp) : Prop :=
  op.key ≠ 0 ∧ (op = .get op.key → t.table.lt.toNat + 1 < 2 ^ 32)

/-- The history and the buckets agree. -/
structure Recorded (t : Traced) : Prop where
  bounds : InBounds t.table.hashtable
  hit : ∀ bin place time count, t.hist.hits bin place = some (time, count) →
    time ≤ t.table.lt.toNat ∧
      (t.table.hashtable.table bin).times[place]? = some (BitVec.ofNat 24 time)
  apart : ∀ bin place place' time count count', t.hist.hits bin place = some (time, count) →
    t.hist.hits bin place' = some (time, count') → place = place'

variable {raw : Nat → Nat → Nat → Raw} {calls : Nat} {t t' : Traced} {op : SWOp}

/-- A call after which every bucket that has been hit is still there. -/
theorem Recorded.keep {h' : Hashtable} (hrec : Recorded t) (hb : InBounds h')
    (hkeep : KeepsTimes t.table.hashtable h') : Recorded ⟨⟨h', t.table.lt⟩, t.hist⟩ := by
  refine ⟨hb, ?_, hrec.apart⟩
  intro bin place time count hhit
  rcases hrec.hit bin place time count hhit with ⟨hle, htime⟩
  refine ⟨hle, ?_⟩
  rcases hkeep bin with ⟨more, hmore⟩
  show (h'.table bin).times[place]? = _
  rw [← hmore, List.getElem?_append_left (List.getElem?_eq_some_iff.mp htime).1]
  exact htime

/-- A call that makes a new table. -/
theorem Recorded.renew {h' : Hashtable} (hb : InBounds h') (lastRead : Nat → Option Nat)
    (lt : UInt32) : Recorded ⟨⟨h', lt⟩, ⟨lastRead, fun _ _ => none⟩⟩ :=
  ⟨hb, by simp, by simp⟩

/-- `Get` writes the same time into the bucket and into the history. -/
theorem Recorded.get (hrec : Recorded t) {key : Nat} (hin : InTime t (.get key)) :
    Recorded ⟨(t.table.get key).2, t.hist.read t.table key⟩ := by
  have hlt : (t.table.lt + 1).toNat = t.table.lt.toNat + 1 := by
    rw [UInt32.toNat_add, UInt32.toNat_one]
    exact Nat.mod_eq_of_lt (hin.2 rfl)
  have hb : InBounds (t.table.get key).2.hashtable :=
    (sameCounts_get hrec.bounds.wf key (t.table.lt + 1)).inBounds hrec.bounds
      (get_spec hrec.bounds.wf hin.1 (t.table.lt + 1)).1
  have htime : (t.table.get key).2.lt.toNat = t.table.lt.toNat + 1 := hlt
  rcases clhtGet_cases t.table.hashtable key (t.table.lt + 1) with
    ⟨hplace, hsame⟩ | ⟨place, c, hplace, hlen, hnew, htimes, _⟩
  -- a miss writes no time
  · have hread : t.hist.read t.table key = t.hist := by
      simp only [History.read, hplace]
    rw [hread]
    refine ⟨hb, ?_, hrec.apart⟩
    intro bin place time count hhit
    rcases hrec.hit bin place time count hhit with ⟨hle, hbucket⟩
    refine ⟨?_, ?_⟩
    · rw [htime]
      omega
    · show ((t.table.hashtable.clhtGet key (t.table.lt + 1)).2.table bin).times[place]? = _
      rw [hsame]
      exact hbucket
  -- a hit writes the new time into one bucket
  · rcases t.hist.read_hit hplace with ⟨count₀, hread⟩
    rw [hread]
    refine ⟨hb, ?_, ?_⟩
    · intro bin place' time count hhit
      simp only at hhit
      show time ≤ (t.table.get key).2.lt.toNat ∧
        ((t.table.hashtable.clhtGet key (t.table.lt + 1)).2.table bin).times[place']? = _
      rw [htime, hnew]
      split at hhit
      · -- the bucket that has just been hit
        rename_i heq
        rcases heq with ⟨rfl, rfl⟩
        cases hhit
        refine ⟨le_refl _, ?_⟩
        rw [setBin_table, htimes, List.getElem?_set_self hlen, hlt]
      · rename_i hne
        rcases hrec.hit bin place' time count hhit with ⟨hle, hbucket⟩
        refine ⟨by omega, ?_⟩
        by_cases hbin : bin = t.table.hashtable.clhtHash key
        · subst hbin
          rw [setBin_table, htimes, List.getElem?_set_ne fun heq => hne ⟨rfl, heq.symm⟩]
          exact hbucket
        · show (setLoc t.table.hashtable.table _ c bin).times[place']? = _
          rw [setLoc_ne _ _ hbin]
          exact hbucket
    · -- every other hit is older
      intro bin i j time count count' hi hj
      simp only at hi hj
      split at hi
      · rename_i heqi
        split at hj
        · rename_i heqj
          exact heqi.2.trans heqj.2.symm
        · cases hi
          have hle := (hrec.hit bin j _ count' hj).1
          omega
      · split at hj
        · cases hj
          have hle := (hrec.hit bin i _ count hi).1
          omega
        · exact hrec.apart bin i j time count count' hi hj

/-- A put keeps the hit buckets of the table, or makes a new table. -/
theorem Recorded.put (raw : Nat → Nat → Nat → Raw) (calls : Nat) (hrec : Recorded t) {k : Nat}
    (hk : k ≠ 0) (v : Nat) :
    ∃ ans t', t.step raw calls (.put k v) = some (ans, t') ∧ Recorded t' := by
  rcases put_total raw calls hrec.bounds.wf hk v t.table.lt with
    ⟨_, hput⟩ | ⟨_, hno, h', hput, hw', hstep⟩
  · refine ⟨.done false, t, ?_, hrec⟩
    simp [Traced.step, SWTable.step, SWTable.put, hput, History.next]
  · have hb := (hrec.bounds.putStep raw hk hno hstep hw').1
    have hrun : t.step raw calls (.put k v) = some (.done true, ⟨⟨h', t.table.lt⟩,
        t.hist.next t.table (.put k v) ⟨h', t.table.lt⟩⟩) := by
      simp [Traced.step, SWTable.step, SWTable.put, hput]
    have hsame : h'.version = t.table.hashtable.version →
        KeepsTimes t.table.hashtable h' → ∃ ans t', t.step raw calls (.put k v) =
          some (ans, t') ∧ Recorded t' := by
      intro hversion hkeep
      refine ⟨_, _, hrun, ?_⟩
      rw [History.next_same (by simp) hversion]
      exact hrec.keep hb hkeep
    have hnew : h'.version = t.table.hashtable.version + 1 →
        ∃ ans t', t.step raw calls (.put k v) = some (ans, t') ∧ Recorded t' := by
      intro hversion
      refine ⟨_, _, hrun, ?_⟩
      simp only [History.next, if_neg (by omega : ¬ h'.version = t.table.hashtable.version)]
      exact .renew hb _ _
    -- only a resize leaves another version
    cases hstep with
    | fill hedit => exact hsame rfl (keepsTimes_edit hedit)
    | expand => exact hsame rfl (keepsTimes_linked raw _ k v)
    | eliminate =>
      exact hsame rfl ((keepsTimes_linked raw _ k v).trans (keepsTimes_eliminate _ _))
    | shrink _ _ _ hres => exact hnew hres.version
    | grow _ _ _ _ _ _ hres => exact hnew hres.version

/-- Every call comes back and keeps history and buckets together. -/
theorem Recorded.step (raw : Nat → Nat → Nat → Raw) (calls : Nat) (hrec : Recorded t)
    (hin : InTime t op) :
    ∃ ans t', t.step raw calls op = some (ans, t') ∧ Recorded t' := by
  have hw := hrec.bounds.wf
  cases op with
  | put k v => exact hrec.put raw calls hin.1 v
  | update k v =>
    have hs := sameCounts_update hw k v
    have hkeep := hrec.keep (hs.inBounds hrec.bounds (update_spec hw hin.1 v).1)
      (keepsTimes_update t.table.hashtable k v)
    refine ⟨_, _, rfl, ?_⟩
    show Recorded ⟨_, t.hist.next t.table (.update k v) (t.table.update k v).2⟩
    rw [History.next_same (by simp) hs.version]
    exact hkeep
  | remove k =>
    have hs := sameCounts_remove hw k
    have hkeep := hrec.keep (hs.inBounds hrec.bounds (remove_spec hw hin.1).1)
      (keepsTimes_remove t.table.hashtable k)
    refine ⟨_, _, rfl, ?_⟩
    show Recorded ⟨_, t.hist.next t.table (.remove k) (t.table.remove k).2⟩
    rw [History.next_same (by simp) hs.version]
    exact hkeep
  | get k => exact ⟨_, _, rfl, hrec.get hin⟩

/-- A fresh table and the empty history. -/
theorem exists_start : ∃ t, start = some t ∧ Recorded t ∧ t.hist = .empty := by
  rcases shape_create with ⟨h, hcreate, hshape⟩
  refine ⟨⟨⟨h, 0⟩, .empty⟩, ?_, ⟨hshape.toInBounds, ?_, ?_⟩, rfl⟩
  · rw [start, SWTable.init, show numBuckets = 16384 from rfl, hcreate]
    rfl
  · simp [History.empty]
  · simp [History.empty]

/-- Whatever state a call leaves is recorded. -/
theorem Recorded.after (hrec : Recorded t) (hin : InTime t op) :
    After (Traced.step raw calls) Recorded t op := by
  intro ans t' hrun
  rcases hrec.step raw calls hin with ⟨ans₁, t₁, hrun₁, hrec₁⟩
  cases hrun.symm.trans hrun₁
  exact hrec₁

/-- Every run that keeps to the contract comes back. -/
theorem Recorded.run (raw : Nat → Nat → Nat → Raw) (calls : Nat) {ops : List SWOp}
    (hrec : Recorded t) (hin : Along (Traced.step raw calls) InTime t ops) :
    ∃ answers t', runOps (Traced.step raw calls) t ops = some (answers, t') ∧ Recorded t' :=
  hin.total Recorded (fun _ _ hrec hin => hrec.step raw calls hin) hrec

/-- Two guards that agree on recorded states hold along the same runs. -/
theorem Recorded.along_iff {ok ok' : Traced → SWOp → Prop} (hrec : Recorded t) {ops : List SWOp}
    (hin : Along (Traced.step raw calls) InTime t ops)
    (hiff : ∀ t op, Recorded t → InTime t op → (ok t op ↔ ok' t op)) :
    Along (Traced.step raw calls) ok t ops ↔ Along (Traced.step raw calls) ok' t ops :=
  Along.iff_along Recorded hiff (fun _ _ _ _ hrec hin _ hrun => hrec.after hin _ _ hrun) hrec hin

/-- A run without a `Get` reads nothing. -/
theorem run_unread : ∀ {ops : List SWOp} {s s' : SWTable} {answers : List SWAnswer},
    (∀ op ∈ ops, ∀ key, op ≠ .get key) →
    runOps (SWTable.step raw calls) s ops = some (answers, s') →
    runOps (Traced.step raw calls) ⟨s, .empty⟩ ops = some (answers, ⟨s', .empty⟩) := by
  intro ops
  induction ops with
  | nil =>
    intro s s' answers _ hrun
    cases hrun
    rfl
  | cons op ops ih =>
    intro s s' answers hops hrun
    rw [List.forall_mem_cons] at hops
    simp only [runOps, Option.bind_eq_some_iff, Option.map_eq_some_iff, Prod.mk.injEq] at hrun
    rcases hrun with ⟨⟨ans, s₁⟩, hs, ⟨answers₁, s₂⟩, hrun, rfl, rfl⟩
    have hstep : Traced.step raw calls ⟨s, .empty⟩ op = some (ans, ⟨s₁, .empty⟩) := by
      simp [Traced.step, hs, History.next_empty hops.1]
    simp [runOps, hstep, ih hops.2 hrun]

/-- What holds whenever nothing has been read holds along a run without a `Get`. -/
theorem along_unread {ok : Traced → SWOp → Prop} {ops : List SWOp} {s : SWTable}
    (hok : ∀ t op, t.hist = .empty → ok t op) (hops : ∀ op ∈ ops, ∀ key, op ≠ .get key) :
    Along (Traced.step raw calls) ok ⟨s, .empty⟩ ops := by
  refine Along.invariant (fun t => t.hist = .empty) ?_ (fun t op hempty _ => hok t op hempty) rfl
    (along_of_mem (p := fun op => ∀ key, op ≠ .get key) hops _)
  intro t op ans t' hempty hop hstep
  rcases Option.map_eq_some_iff.mp hstep with ⟨r, _, heq⟩
  cases heq
  show t.hist.next t.table op r.2 = .empty
  rw [hempty]
  exact History.next_empty hop

/-- Such a run keeps to the contract if no key is `0`. -/
theorem inTime_unread {ops : List SWOp} {t : Traced}
    (hops : ∀ op ∈ ops, op.key ≠ 0 ∧ ∀ key, op ≠ .get key) :
    Along (Traced.step raw calls) InTime t ops := by
  have halong : Along (Traced.step raw calls)
      (fun _ op => op.key ≠ 0 ∧ ∀ key, op ≠ .get key) t ops :=
    along_of_mem (p := fun op : SWOp => op.key ≠ 0 ∧ ∀ key, op ≠ .get key) hops t
  exact halong.mono fun t op hop => ⟨hop.1, fun hget => absurd hget (hop.2 _)⟩

end Traced

end Epli.SWTable
