import Epli.ClhtRely

/-!
# What a thread of a CLHT knows at each place

`loc` is the assertion for a place of the code: which table and bin the local variables
name, what a scan under the lock has found out, and how far a resize has copied. No other
thread can make it false (`loc_stable`), and every step leads from the assertion of its
place to the one of the next (`stepOk`). With the ownership of `ClhtRely` this is a
contract that the code keeps to.
-/

namespace Epli.Clht.Locks

open Lib Lib.SlotArray

variable {m m' : Mem} {pc pc' : Pc} {s : Section} {r : Resize} {ht bin p b i key val : Nat}

/-! ## The assertions -/

/-- The bin of a key in one of the tables. -/
structure Reads (m : Mem) (key ht bin : Nat) : Prop where
  le : ht ≤ m.ht
  ne_zero : key ≠ 0
  hash : m.clhtHash ht key = bin

def Absent (m : Mem) (key ht bin : Nat) : Prop := ∀ p v : Nat, (m.slots ht bin)[p]? ≠ some (key, v)

/-- A call does not look for the key of the free slots. -/
def Section.Valid (s : Section) : Prop := s.op ≠ none → s.key ≠ 0

/-- The pairs that `ht_resize_pes` has passed before the `i`-th bucket of bin `b`. -/
def passed (h : Hashtable) (b i : Nat) : List (Nat × Nat) :=
  (List.range b).flatMap (fun bin => (h.table bin).pairs) ++
    ((h.table b).buckets.take i).flatMap Bucket.pairs

/-- A resize before the `i`-th bucket of bin `b`: the table that it copies is the current
one, the bins below `b` are frozen, and those above are not. The new table has pairs that
have been passed, and all of them if the resize is an increase. -/
structure Copying (m : Mem) (r : Resize) (b i : Nat) : Prop where
  old : r.old = m.ht
  lock : m.resizeLock = true
  expanded : m.Expanded
  le : b ≤ m.numBuckets m.ht
  below : ∀ bin < b, m.lock m.ht bin = .resize
  above : ∀ bin < m.numBuckets m.ht, b < bin → m.lock m.ht bin ≠ .resize
  pow : ∃ n, r.new.numBuckets = 2 ^ n
  bound : r.new.numBuckets ≤ 2 ^ 31
  copied : ∃ thr xs, Hashtable.Copied r.new.numBuckets thr r.new xs ∧
    xs.reverse.Sublist (passed (m.tables m.ht).ht b i) ∧
    (r.isIncrease = true → xs.reverse = passed (m.tables m.ht).ht b i)

/-- After the swap: `resize_lock` is still taken, and no bin of the new table is frozen. -/
structure Thawed (m : Mem) (again : Bool) : Prop where
  lock : m.resizeLock = true
  thawed : ∀ bin < m.numBuckets m.ht, m.lock m.ht bin ≠ .resize
  expanded : again = true → m.Expanded

/-- What a thread at a place knows about the memory. -/
def loc (m : Mem) : Pc → Prop
  | .idle | .done _ => True
  | .called op => op.key ≠ 0
  | .getVal key ht bin _ => Reads m key ht bin
  | .getKey key ht bin p _ | .getAgain key ht bin p _ =>
    Reads m key ht bin ∧ p < (m.slots ht bin).length
  | .bucketExists s ht bin _ => s.op ≠ none ∧ Reads m s.key ht bin
  | .acquire s ht bin => ht ≤ m.ht ∧ (s.op ≠ none → Reads m s.key ht bin)
  | .await s ht => ht ≤ m.ht ∧ s.Valid
  | .reload s => s.Valid
  | .scan s ht bin p empty => Owns m ht bin ∧ s.op ≠ none ∧ Reads m s.key ht bin ∧
    NotBelow (m.slots ht bin) s.key p ∧
    ∀ e, empty = some e → ∃ v, (m.slots ht bin)[e]? = some (0, v)
  | .fill key _ _ ht bin p => Owns m ht bin ∧ Reads m key ht bin ∧ Absent m key ht bin ∧
    ∃ v, (m.slots ht bin)[p]? = some (0, v)
  | .bind key val _ ht bin p => Owns m ht bin ∧ Reads m key ht bin ∧ Absent m key ht bin ∧
    (m.slots ht bin)[p]? = some (0, val)
  | .grow key _ _ ht bin => Owns m ht bin ∧ Reads m key ht bin ∧ Absent m key ht bin
  | .link key _ _ ht bin asked => Owns m ht bin ∧ Reads m key ht bin ∧ Absent m key ht bin ∧
    (asked = true → m.Expanded)
  | .assign key _ ht bin p => Owns m ht bin ∧ Reads m key ht bin ∧
    ∃ v, (m.slots ht bin)[p]? = some (key, v)
  | .erase key ht bin p val => Owns m ht bin ∧ Reads m key ht bin ∧
    (m.slots ht bin)[p]? = some (key, val)
  | .choose ht bin => Owns m ht bin
  | .clear ht bin p n => Owns m ht bin ∧ p + n ≤ (m.slots ht bin).length
  | .unlock ht bin exit => Owns m ht bin ∧ ∀ putBin, exit = .status putBin → m.Expanded
  | .status _ => m.Expanded
  | .resize isIncrease times => m.Expanded ∧ (isIncrease = true → ∃ n, times = 2 ^ n)
  | .tryLock isIncrease times old => m.Expanded ∧ (isIncrease = true → ∃ n, times = 2 ^ n) ∧
    old = m.ht
  | .copy r b => Copying m r b 0 ∧ (b < m.numBuckets m.ht → m.lock m.ht b ≠ .resize)
  | .copyBucket r b i => Copying m r b i ∧ b < m.numBuckets m.ht ∧ m.lock m.ht b = .resize
  | .swap r => Copying m r (m.numBuckets m.ht) 0
  | .setNew old again => old ≤ m.ht ∧ Thawed m again
  | .unlockResize again => Thawed m again

/-! ## Stability -/

/-- A key hashes to the same bin of a table for as long as the table exists. -/
theorem Evolves.clhtHash (h : Evolves m m') (hle : ht ≤ m.ht) (key : Nat) :
    m'.clhtHash ht key = m.clhtHash ht key := by
  unfold Mem.clhtHash Hashtable.clhtHash
  rw [(h.table ht hle).hash]

/-- The number of bins of a table never changes. -/
theorem Evolves.numBuckets (h : Evolves m m') (hle : ht ≤ m.ht) :
    m'.numBuckets ht = m.numBuckets ht := (h.table ht hle).numBuckets

/-- Without a swap, an expanded table stays expanded. -/
theorem Evolves.expanded (h : Evolves m m') (hht : m'.ht = m.ht) (hx : m.Expanded) :
    m'.Expanded := by
  have ht := h.table m.ht (le_refl _)
  unfold Mem.Expanded
  rw [hht, ht.threshold]
  exact UInt32.le_trans hx ht.expands

/-- What a reader relies on survives every evolution: it may go on walking the table it
loaded, swapped out or not. -/
theorem Reads.stable (h : Reads m key ht bin) (hev : Evolves m m') : Reads m' key ht bin :=
  ⟨le_trans h.le hev.ht, h.ne_zero, (hev.clhtHash h.le key).trans h.hash⟩

/-- The bin that a reader walks is a bin of its table. -/
theorem Reads.bin_lt (h : Reads m key ht bin) (hg : Glob m) : bin < m.numBuckets ht :=
  h.hash ▸ (hg.wf ht h.le).hash_lt key

/-- A step that keeps the bin's lock keeps what its owner relies on, the slots included. -/
theorem Owns.stable (h : Owns m ht bin) (hev : Evolves m m') (hk : keeps (.bin ht bin) m m') :
    Owns m' ht bin ∧ m'.slots ht bin = m.slots ht bin := by
  refine ⟨⟨le_trans h.le hev.ht, ?_, hk.1.trans h.lock⟩, ?_⟩
  · rw [hev.numBuckets h.le]
    exact h.bin_lt
  · unfold Mem.slots
    rw [hk.2]

/-- The pairs that the copy has passed are read off the bins below `b` and, once inside it,
off `b` itself. -/
theorem passed_congr {h h' : Hashtable} (hbelow : ∀ bin < b, h'.table bin = h.table bin)
    (hlast : i = 0 ∨ h'.table b = h.table b) : passed h' b i = passed h b i := by
  unfold passed
  congr 1
  · refine List.flatMap_congr fun bin hbin => ?_
    rw [hbelow bin (List.mem_range.mp hbin)]
  · rcases hlast with rfl | heq
    · rfl
    · rw [heq]

/-- The copy loop's invariant survives the steps of the other threads: the bins it has passed
are frozen, and so is the one it is in. -/
theorem Copying.stable (h : Copying m r b i) (hev : Evolves m m')
    (hk : keeps .resizeLock m m') (hlast : i = 0 ∨ m.lock m.ht b = .resize) :
    Copying m' r b i := by
  -- `keeps .resizeLock` says that the current table and the lock are the same, and that no bin
  -- was frozen meanwhile; `Evolves` that the frozen chains are
  rcases hk with ⟨hht, hlock, hthawed⟩
  have ht := hev.table m.ht (le_refl _)
  have hpassed : passed (m'.tables m.ht).ht b i = passed (m.tables m.ht).ht b i :=
    passed_congr (fun bin hbin => (ht.frozen bin (h.below bin hbin)).2)
      (hlast.imp_right fun hl => (ht.frozen b hl).2)
  have hnb : m'.numBuckets m'.ht = m.numBuckets m.ht := by
    rw [hht]
    exact hev.numBuckets (le_refl _)
  refine ⟨h.old.trans hht.symm, hlock.trans h.lock, hev.expanded hht h.expanded,
    hnb ▸ h.le, ?_, ?_, h.pow, h.bound, ?_⟩
  · intro bin hbin
    rw [hht]
    exact (ht.frozen bin (h.below bin hbin)).1
  · intro bin hbin hlt hl
    rw [hnb] at hbin
    rw [hht] at hl
    exact h.above bin hbin hlt (hthawed bin hl)
  · rw [hht, hpassed]
    exact h.copied

/-- No other thread freezes a bin while this one holds the resize lock. -/
theorem Thawed.stable {again : Bool} (h : Thawed m again) (hev : Evolves m m')
    (hk : keeps .resizeLock m m') : Thawed m' again := by
  rcases hk with ⟨hht, hlock, hthawed⟩
  refine ⟨hlock.trans h.lock, ?_, fun ha => hev.expanded hht (h.expanded ha)⟩
  intro bin hbin hl
  rw [hht] at hbin hl
  rw [hev.numBuckets (le_refl _)] at hbin
  exact h.thawed bin hbin (hthawed bin hl)

/-- No step of another thread makes the assertion of a place false. -/
theorem loc_stable (h : loc m pc) (hev : Evolves m m')
    (hk : ∀ x, pc.holds x → keeps x m m') : loc m' pc := by
  cases pc with
  | idle => trivial
  | done _ => trivial
  | called _ => exact h
  | getVal _ _ _ _ => exact Reads.stable h hev
  | getKey _ ht bin _ _ =>
    exact ⟨h.1.stable hev, lt_of_lt_of_le h.2 ((hev.table ht h.1.le).length bin)⟩
  | getAgain _ ht bin _ _ =>
    exact ⟨h.1.stable hev, lt_of_lt_of_le h.2 ((hev.table ht h.1.le).length bin)⟩
  | bucketExists _ _ _ _ => exact ⟨h.1, h.2.stable hev⟩
  | acquire _ _ _ => exact ⟨le_trans h.1 hev.ht, fun hop => (h.2 hop).stable hev⟩
  | await _ _ => exact ⟨le_trans h.1 hev.ht, h.2⟩
  | reload _ => exact h
  | scan _ ht bin _ _ =>
    rcases h.1.stable hev (hk (.bin ht bin) rfl) with ⟨ho, hs⟩
    refine ⟨ho, h.2.1, h.2.2.1.stable hev, ?_⟩
    rw [hs]
    exact h.2.2.2
  | fill _ _ _ ht bin _ =>
    rcases h.1.stable hev (hk (.bin ht bin) rfl) with ⟨ho, hs⟩
    refine ⟨ho, h.2.1.stable hev, ?_⟩
    unfold Absent
    rw [hs]
    exact h.2.2
  | bind _ _ _ ht bin _ =>
    rcases h.1.stable hev (hk (.bin ht bin) rfl) with ⟨ho, hs⟩
    refine ⟨ho, h.2.1.stable hev, ?_⟩
    unfold Absent
    rw [hs]
    exact h.2.2
  | grow _ _ _ ht bin =>
    rcases h.1.stable hev (hk (.bin ht bin) rfl) with ⟨ho, hs⟩
    refine ⟨ho, h.2.1.stable hev, ?_⟩
    unfold Absent
    rw [hs]
    exact h.2.2
  | link _ _ _ ht bin _ =>
    rcases h.1.stable hev (hk (.bin ht bin) rfl) with ⟨ho, hs⟩
    refine ⟨ho, h.2.1.stable hev, ?_, fun ha => hev.expanded (hk .trigger ha) (h.2.2.2 ha)⟩
    unfold Absent
    rw [hs]
    exact h.2.2.1
  | assign _ _ ht bin _ =>
    rcases h.1.stable hev (hk (.bin ht bin) rfl) with ⟨ho, hs⟩
    refine ⟨ho, h.2.1.stable hev, ?_⟩
    rw [hs]
    exact h.2.2
  | erase _ ht bin _ _ =>
    rcases h.1.stable hev (hk (.bin ht bin) rfl) with ⟨ho, hs⟩
    refine ⟨ho, h.2.1.stable hev, ?_⟩
    rw [hs]
    exact h.2.2
  | choose ht bin => exact (Owns.stable h hev (hk (.bin ht bin) rfl)).1
  | clear ht bin _ _ =>
    rcases h.1.stable hev (hk (.bin ht bin) rfl) with ⟨ho, hs⟩
    refine ⟨ho, ?_⟩
    rw [hs]
    exact h.2
  | unlock ht bin exit =>
    refine ⟨(h.1.stable hev (hk (.bin ht bin) rfl)).1, ?_⟩
    rintro putBin rfl
    exact hev.expanded (hk .trigger rfl) (h.2 putBin rfl)
  | status _ => exact hev.expanded (hk .trigger rfl) h
  | resize _ _ => exact ⟨hev.expanded (hk .trigger rfl) h.1, h.2⟩
  | tryLock _ _ _ =>
    have hht : m'.ht = m.ht := hk .trigger rfl
    exact ⟨hev.expanded hht h.1, h.2.1, h.2.2.trans hht.symm⟩
  | copy _ b =>
    have hkr := hk .resizeLock rfl
    refine ⟨h.1.stable hev hkr (Or.inl rfl), ?_⟩
    intro hb hl
    rw [hkr.1] at hb hl
    rw [hev.numBuckets (le_refl _)] at hb
    exact h.2 hb (hkr.2.2 b hl)
  | copyBucket _ b _ =>
    have hkr := hk .resizeLock rfl
    refine ⟨h.1.stable hev hkr (Or.inr h.2.2), ?_, ?_⟩
    · rw [hkr.1, hev.numBuckets (le_refl _)]
      exact h.2.1
    · rw [hkr.1]
      exact ((hev.table m.ht (le_refl _)).frozen b h.2.2).1
  | swap _ =>
    have hkr := hk .resizeLock rfl
    have hnb : m'.numBuckets m'.ht = m.numBuckets m.ht := by
      rw [hkr.1]
      exact hev.numBuckets (le_refl _)
    show Copying m' _ _ 0
    rw [hnb]
    exact Copying.stable h hev hkr (Or.inl rfl)
  | setNew _ _ => exact ⟨le_trans h.1 hev.ht, h.2.stable hev (hk .resizeLock rfl)⟩
  | unlockResize _ => exact Thawed.stable h hev (hk .resizeLock rfl)

/-! ## The steps -/

/-- What a step has to do: change the memory in one of the listed ways, reach a place whose
assertion holds, and take only what is free. -/
structure StepOk (m : Mem) (pc : Pc) (m' : Mem) (pc' : Pc) : Prop where
  effect : Effect m pc m'
  place : loc m' pc'
  acquire : ∀ x, pc'.holds x → pc.holds x ∨ ¬ m.taken x

/-- A thread at `pc'` owns nothing that it does not own at `pc`. -/
def Pc.OwnsLe (pc' pc : Pc) : Prop :=
  (pc'.section = none ∨ pc'.section = pc.section) ∧ (pc'.resizing = true → pc.resizing = true) ∧
    (pc'.triggered = true → pc.triggered = true)

/-- A place that owns less holds nothing new. -/
theorem Pc.OwnsLe.holds (h : pc'.OwnsLe pc) {x : Res} (hx : pc'.holds x) : pc.holds x := by
  rcases h with ⟨hs, hr, ht⟩
  cases x with
  | bin ht bin =>
    have hx' : pc'.section = some (ht, bin) := hx
    rcases hs with hs | hs
    · rw [hs] at hx'
      cases hx'
    · exact hs.symm.trans hx'
  | resizeLock => exact hr hx
  | trigger => exact ht hx

/-- A step that takes no lock is fine when its effect is and the next place's invariant holds.
-/
theorem StepOk.of_le (heff : Effect m pc m') (hloc : loc m' pc') (hle : pc'.OwnsLe pc) :
    StepOk m pc m' pc' := ⟨heff, hloc, fun _ hx => Or.inl (hle.holds hx)⟩

/-- A place where a thread owns nothing. -/
theorem Pc.ownsLe_of_none (hs : pc'.section = none) (hr : pc'.resizing = false)
    (ht : pc'.triggered = false) : pc'.OwnsLe pc :=
  ⟨Or.inl hs, fun h => absurd (hr.symm.trans h) (by decide),
    fun h => absurd (ht.symm.trans h) (by decide)⟩

variable {raw : Nat → Nat → Nat → Raw}

/-! ### Without the lock -/

/-- Entering an operation with a non-zero key. -/
theorem stepOk_called {op : Op} (hop : op.key ≠ 0) :
    StepOk m (.called op) m (op.start m) := by
  have hreads : Reads m op.key m.ht (m.clhtHash m.ht op.key) := ⟨le_refl _, hop, rfl⟩
  refine .of_le .quiet ?_ ?_
  · cases op with
    | get _ => exact hreads
    | put _ _ => exact ⟨by simp [Section.op], hreads⟩
    | update _ _ => exact ⟨le_refl _, fun _ => hreads⟩
    | remove _ => exact ⟨by simp [Section.op], hreads⟩
  · cases op <;> exact Pc.ownsLe_of_none rfl rfl rfl

/-- `clht_get` reads the value first. -/
theorem stepOk_getVal (h : Reads m key ht bin)
    (hgo : go raw m (.getVal key ht bin p) = some (m', pc')) :
    StepOk m (.getVal key ht bin p) m' pc' := by
  rw [go] at hgo
  split at hgo
  · rename_i s hs
    cases hgo
    exact .of_le .quiet ⟨h, (List.getElem?_eq_some_iff.mp hs).1⟩ (Pc.ownsLe_of_none rfl rfl rfl)
  · cases hgo
    exact .of_le .quiet trivial (Pc.ownsLe_of_none rfl rfl rfl)

/-- `clht_get` then compares the key, and goes to the next slot when it differs. -/
theorem stepOk_getKey (h : Reads m key ht bin ∧ p < (m.slots ht bin).length)
    (hgo : go raw m (.getKey key ht bin p val) = some (m', pc')) :
    StepOk m (.getKey key ht bin p val) m' pc' := by
  rcases Option.map_eq_some_iff.mp hgo with ⟨s, _, heq⟩
  cases heq
  split
  · exact .of_le .quiet h (Pc.ownsLe_of_none rfl rfl rfl)
  · exact .of_le .quiet h.1 (Pc.ownsLe_of_none rfl rfl rfl)

/-- The snapshot's second read of the value ends the call or goes on. -/
theorem stepOk_getAgain (hgo : go raw m (.getAgain key ht bin p val) = some (m', pc')) :
    StepOk m (.getAgain key ht bin p val) m' pc' := by
  rcases Option.map_eq_some_iff.mp hgo with ⟨s, _, heq⟩
  cases heq
  exact .of_le .quiet trivial (Pc.ownsLe_of_none rfl rfl rfl)

/-- Where the search before the lock ends, nothing is owned yet. -/
theorem stepOk_checked {found : Bool} (hs : s.op ≠ none) (h : Reads m s.key ht bin) :
    StepOk m pc m (s.checked ht bin found) := by
  have hacq : loc m (.acquire s ht bin) := ⟨h.le, fun _ => h⟩
  cases s with
  | put _ _ _ => cases found with
    | true => exact .of_le .quiet trivial (Pc.ownsLe_of_none rfl rfl rfl)
    | false => exact .of_le .quiet hacq (Pc.ownsLe_of_none rfl rfl rfl)
  | update _ _ => exact .of_le .quiet hacq (Pc.ownsLe_of_none rfl rfl rfl)
  | remove _ => cases found with
    | true => exact .of_le .quiet hacq (Pc.ownsLe_of_none rfl rfl rfl)
    | false => exact .of_le .quiet trivial (Pc.ownsLe_of_none rfl rfl rfl)
  | eliminate _ => exact absurd rfl hs

/-- One slot of the search before the lock, which the snapshot pattern guards. -/
theorem stepOk_bucketExists (h : s.op ≠ none ∧ Reads m s.key ht bin)
    (hgo : go raw m (.bucketExists s ht bin p) = some (m', pc')) :
    StepOk m (.bucketExists s ht bin p) m' pc' := by
  rw [go] at hgo
  split at hgo
  · cases hgo
    split
    · exact stepOk_checked h.1 h.2
    · exact .of_le .quiet h (Pc.ownsLe_of_none rfl rfl rfl)
  · cases hgo
    exact stepOk_checked h.1 h.2

/-- `LOCK_ACQ` takes a free bin, and nobody can own that. -/
theorem stepOk_acquire (h : ht ≤ m.ht ∧ (s.op ≠ none → Reads m s.key ht bin))
    (hgo : go raw m (.acquire s ht bin) = some (m', pc')) :
    StepOk m (.acquire s ht bin) m' pc' := by
  rw [go] at hgo
  split at hgo
  · rename_i hbin
    split at hgo
    · rename_i hfree
      cases hgo
      -- the word was free, and it is this thread's now
      have ho : Owns (m.setLock ht bin .update) ht bin := by
        refine ⟨h.1, ?_, by rw [Mem.lock_setLock, if_pos ⟨rfl, rfl⟩]⟩
        unfold Mem.numBuckets
        rw [Mem.hashtable_setLock]
        exact hbin
      have hreads : s.op ≠ none → Reads (m.setLock ht bin .update) s.key ht bin := by
        intro hop
        refine ⟨h.1, (h.2 hop).ne_zero, ?_⟩
        unfold Mem.clhtHash
        rw [Mem.hashtable_setLock]
        exact (h.2 hop).hash
      have hscan : s.op ≠ none → loc (m.setLock ht bin .update) (.scan s ht bin 0 none) :=
        fun hop => ⟨ho, hop, hreads hop, notBelow_zero _ _, fun _ he => by cases he⟩
      refine ⟨.lock h.1 hfree, ?_, ?_⟩
      · cases s with
        | put _ _ _ => exact hscan (by simp [Section.op])
        | update _ _ => exact hscan (by simp [Section.op])
        | remove _ => exact hscan (by simp [Section.op])
        | eliminate _ => exact ho
      -- the only thing newly held is the bin, and a free bin is nobody's
      · intro x hx
        refine Or.inr ?_
        have hx' : x = .bin ht bin := by
          cases x with
          | bin ht' bin' => cases s <;> cases hx <;> rfl
          | resizeLock => cases s <;> cases hx
          | trigger => cases s <;> cases hx
        subst hx'
        rintro ⟨_, hlock⟩
        rw [hfree] at hlock
        cases hlock
    · cases hgo
      exact .of_le .quiet h (Pc.ownsLe_of_none rfl rfl rfl)
    · cases hgo
      exact .of_le .quiet ⟨h.1, fun hop => (h.2 hop).ne_zero⟩ (Pc.ownsLe_of_none rfl rfl rfl)
  · cases hgo

/-- Waiting for `table_new` owns nothing. -/
theorem stepOk_await (h : ht ≤ m.ht ∧ s.Valid) :
    StepOk m (.await s ht) m (if (m.tables ht).tableNew then .reload s else .await s ht) := by
  split
  · exact .of_le .quiet h.2 (Pc.ownsLe_of_none rfl rfl rfl)
  · exact .of_le .quiet h (Pc.ownsLe_of_none rfl rfl rfl)

/-- After the wait the thread loads the new table and hashes its key again. -/
theorem stepOk_reload (h : s.Valid) :
    StepOk m (.reload s) m (.acquire s m.ht (s.bin m m.ht)) := by
  refine .of_le .quiet ⟨le_refl _, ?_⟩ (Pc.ownsLe_of_none rfl rfl rfl)
  intro hop
  refine ⟨le_refl _, h hop, ?_⟩
  cases s with
  | put _ _ _ => rfl
  | update _ _ => rfl
  | remove _ => rfl
  | eliminate _ => exact absurd rfl hop

/-! ### With the lock of a bin -/

/-- A store to slot `p` of a bin sets entry `p` of its slots. -/
theorem slots_setSlot {x : Nat × Nat} :
    (m.setSlot ht bin p x).slots ht bin = (m.slots ht bin).set p x := by
  unfold Mem.slots Mem.setSlot
  rw [Mem.chain_setChain, if_pos ⟨rfl, rfl⟩, Chain.slots_setSlot]

/-- A bin stays locked while its owner writes to the table. -/
theorem Owns.after (ho : Owns m ht bin) (hev : Evolves m m')
    (hlock : m'.lock ht bin = m.lock ht bin) : Owns m' ht bin :=
  ⟨le_trans ho.le hev.ht, (hev.numBuckets ho.le).symm ▸ ho.bin_lt, hlock.trans ho.lock⟩

/-- The empty slot that the scan remembers is one with key 0. -/
theorem nextEmpty_spec {l : List (Nat × Nat)} {empty : Option Nat} {x : Nat × Nat} {e : Nat}
    (h : ∀ e, empty = some e → ∃ v : Nat, l[e]? = some (0, v)) (hx : l[p]? = some x)
    (he : nextEmpty empty p x.1 = some e) : ∃ v : Nat, l[e]? = some (0, v) := by
  cases empty with
  | some e' => exact h e he
  | none =>
    unfold nextEmpty at he
    simp only at he
    split at he
    · rename_i hzero
      cases he
      exact ⟨x.2, by rw [hx, ← hzero]⟩
    · cases he

/-- One slot of the scan under the lock, by what it finds: the key, an empty slot or neither.
-/
theorem stepOk_scan {empty : Option Nat} (h : loc m (.scan s ht bin p empty))
    (hgo : go raw m (.scan s ht bin p empty) = some (m', pc')) :
    StepOk m (.scan s ht bin p empty) m' pc' := by
  rcases h with ⟨ho, hop, hreads, hbelow, hempty⟩
  rw [go] at hgo
  split at hgo
  · rename_i x hx
    cases hgo
    split
    · -- the key is in slot `p`
      rename_i hkey
      have hx' : (m.slots ht bin)[p]? = some (s.key, x.2) := by rw [hx, ← hkey]
      cases s with
      | put _ _ _ =>
        exact .of_le .quiet ⟨ho, fun _ he => by cases he⟩ ⟨Or.inr rfl, id, id⟩
      | update _ _ => exact .of_le .quiet ⟨ho, hreads, x.2, hx'⟩ ⟨Or.inr rfl, id, id⟩
      | remove _ => exact .of_le .quiet ⟨ho, hreads, hx'⟩ ⟨Or.inr rfl, id, id⟩
      | eliminate _ => exact absurd rfl hop
    · rename_i hkey
      exact .of_le .quiet ⟨ho, hop, hreads, hbelow.succ hx hkey,
        fun e he => nextEmpty_spec hempty hx he⟩ ⟨Or.inr rfl, id, id⟩
  · -- the key is in no slot
    rename_i hend
    cases hgo
    have habsent : Absent m s.key ht bin := hbelow.all hend
    have hunlock : StepOk m (.scan s ht bin p empty) m (.unlock ht bin (.ret 0)) :=
      .of_le .quiet ⟨ho, fun _ he => by cases he⟩ ⟨Or.inr rfl, id, id⟩
    cases s with
    | put _ _ _ => cases empty with
      | some e => exact .of_le .quiet ⟨ho, hreads, habsent, hempty e rfl⟩ ⟨Or.inr rfl, id, id⟩
      | none => exact .of_le .quiet ⟨ho, hreads, habsent⟩ ⟨Or.inr rfl, id, id⟩
    | update _ _ => exact hunlock
    | remove _ => exact hunlock
    | eliminate _ => exact hunlock

/-- Storing the value in the empty slot: the key is still 0, so no reader sees the pair. -/
theorem stepOk_fill (hg : Glob m) {putBin : Nat} (h : loc m (.fill key val putBin ht bin p))
    (hgo : go raw m (.fill key val putBin ht bin p) = some (m', pc')) :
    StepOk m (.fill key val putBin ht bin p) m' pc' := by
  rcases h with ⟨ho, hreads, habsent, v, hp⟩
  rw [go, hp] at hgo
  cases hgo
  have heff : Effect m (.fill key val putBin ht bin p) (m.setSlot ht bin p (0, val)) :=
    .write rfl ho hp (Or.inl rfl) (fun hne => absurd rfl hne)
  have hev := heff.evolves hg
  -- the key is as absent as before, and slot `p` now holds the value under key 0
  refine .of_le heff ⟨ho.after hev Mem.lock_setChain, hreads.stable hev, ?_, ?_⟩
    ⟨Or.inr rfl, id, id⟩
  · intro q w hq
    rw [slots_setSlot, getElem?_set_some hp] at hq
    split at hq
    · cases hq
      exact hreads.ne_zero rfl
    · exact habsent q w hq
  · rw [slots_setSlot, getElem?_set_some hp, if_pos rfl]

/-- Storing the key publishes the pair; the scan has shown that no other slot of the bin has
it. -/
theorem stepOk_bind (hg : Glob m) {putBin : Nat} (h : loc m (.bind key val putBin ht bin p))
    (hgo : go raw m (.bind key val putBin ht bin p) = some (m', pc')) :
    StepOk m (.bind key val putBin ht bin p) m' pc' := by
  rcases h with ⟨ho, hreads, habsent, hp⟩
  rw [go, hp] at hgo
  cases hgo
  have heff : Effect m (.bind key val putBin ht bin p) (m.setSlot ht bin p (key, val)) :=
    -- a key enters an empty slot only when no slot has it
    .write rfl ho hp (Or.inr (Or.inr habsent)) (fun _ => hreads.hash)
  exact .of_le heff ⟨ho.after (heff.evolves hg) Mem.lock_setChain, fun _ he => by cases he⟩
    ⟨Or.inr rfl, id, id⟩

/-- The put that reaches the threshold is the one that takes the trigger. -/
theorem stepOk_grow (hg : Glob m) {putBin : Nat} (h : loc m (.grow key val putBin ht bin))
    (hok : Ok m (.grow key val putBin ht bin) .go)
    (hgo : go raw m (.grow key val putBin ht bin) = some (m', pc')) :
    StepOk m (.grow key val putBin ht bin) m' pc' := by
  rcases h with ⟨ho, hreads, habsent⟩
  rw [go] at hgo
  cases hgo
  have heff : Effect m (.grow key val putBin ht bin) (m.countExpand ht) := .count rfl ho hok
  have hev := heff.evolves hg
  have hcur := ho.current hg
  -- counting changes no slot, so the key is still absent
  have htable : ((m.countExpand ht).tables ht).ht =
      { (m.tables ht).ht with numExpands := (m.tables ht).ht.numExpands + 1 } := by
    unfold Mem.countExpand
    rw [Mem.tables_edit, if_pos rfl]
  have hslots : (m.countExpand ht).slots ht bin = m.slots ht bin := by
    unfold Mem.slots
    rw [Mem.chain_countExpand]
  refine ⟨heff, ⟨ho.after hev Mem.lock_countExpand, hreads.stable hev, ?_, ?_⟩, ?_⟩
  · unfold Absent
    rw [hslots]
    exact habsent
  · intro hasked
    show (((m.countExpand ht).tables m.ht).ht.numExpandsThreshold ≤
      ((m.countExpand ht).tables m.ht).ht.numExpands)
    rw [← hcur]
    exact UInt32.le_of_eq (of_decide_eq_true hasked).symm
  · intro x hx
    cases x with
    | bin _ _ => exact Or.inl hx
    | resizeLock => exact Or.inl hx
    | trigger =>
      refine Or.inr ?_
      intro htaken
      -- `==` and no wrap: the count was one below the threshold, so the trigger was free
      have hasked := of_decide_eq_true (show decide _ = true from hx)
      rw [htable] at hasked
      have hle : (m.tables m.ht).ht.numExpandsThreshold ≤ (m.tables m.ht).ht.numExpands := htaken
      rw [← hcur, UInt32.le_iff_toNat_le, ← hasked, UInt32.toNat_add,
        show (1 : UInt32).toNat = 1 from rfl, Nat.mod_eq_of_lt hok] at hle
      omega

/-- Linking a new bucket at the end of the chain. -/
theorem stepOk_link (hg : Glob m) {putBin : Nat} {asked : Bool}
    (h : loc m (.link key val putBin ht bin asked))
    (hgo : go raw m (.link key val putBin ht bin asked) = some (m', pc')) :
    StepOk m (.link key val putBin ht bin asked) m' pc' := by
  rcases h with ⟨ho, hreads, habsent, hasked⟩
  rw [go] at hgo
  cases hgo
  have heff : Effect m (.link key val putBin ht bin asked) (m.setChain ht bin
      ((m.chain ht bin).expand (raw (m.tables ht).ht.version bin
        (m.chain ht bin).buckets.length) key val)) :=
    .link rfl ho hreads.ne_zero hreads.hash habsent
  have hev := heff.evolves hg
  refine .of_le heff ⟨ho.after hev Mem.lock_setChain, ?_⟩ ?_
  -- a put that asked for the resize goes on to `ht_status` after it unlocks
  · intro putBin' he
    split at he
    · exact hev.expanded rfl (hasked ‹_›)
    · cases he
  · cases asked with
    | true => exact ⟨Or.inr rfl, id, id⟩
    | false => exact ⟨Or.inr rfl, id, id⟩

/-- Storing a new value under a key that is there. -/
theorem stepOk_assign (hg : Glob m) (h : loc m (.assign key val ht bin p))
    (hgo : go raw m (.assign key val ht bin p) = some (m', pc')) :
    StepOk m (.assign key val ht bin p) m' pc' := by
  rcases h with ⟨ho, hreads, v, hp⟩
  rw [go, hp] at hgo
  cases hgo
  have heff : Effect m (.assign key val ht bin p) (m.setSlot ht bin p (key, val)) :=
    .write rfl ho hp (Or.inr (Or.inl rfl)) (fun _ => hreads.hash)
  exact .of_le heff ⟨ho.after (heff.evolves hg) Mem.lock_setChain, fun _ he => by cases he⟩
    ⟨Or.inr rfl, id, id⟩

/-- `clht_remove` zeroes the key of the slot it has found. -/
theorem stepOk_erase (hg : Glob m) (h : loc m (.erase key ht bin p val))
    (hgo : go raw m (.erase key ht bin p val) = some (m', pc')) :
    StepOk m (.erase key ht bin p val) m' pc' := by
  rcases h with ⟨ho, hreads, hp⟩
  rw [go, hp] at hgo
  cases hgo
  have heff : Effect m (.erase key ht bin p val) (m.setSlot ht bin p (0, val)) :=
    .write rfl ho hp (Or.inl rfl) (fun hne => absurd rfl hne)
  exact .of_le heff ⟨ho.after (heff.evolves hg) Mem.lock_setChain, fun _ he => by cases he⟩
    ⟨Or.inr rfl, id, id⟩

/-- Evicting a bucket zeroes its keys one by one. -/
theorem stepOk_clear (hg : Glob m) {n : Nat} (h : loc m (.clear ht bin p n))
    (hgo : go raw m (.clear ht bin p n) = some (m', pc')) :
    StepOk m (.clear ht bin p n) m' pc' := by
  rcases h with ⟨ho, hlen⟩
  -- `n` slots of the bucket are left to clear
  cases n with
  | zero =>
    rw [go] at hgo
    cases hgo
    exact .of_le .quiet ⟨ho, fun _ he => by cases he⟩ ⟨Or.inr rfl, id, id⟩
  | succ n =>
    rw [go] at hgo
    rcases Option.map_eq_some_iff.mp hgo with ⟨⟨k, v⟩, hp, heq⟩
    cases heq
    have heff : Effect m (.clear ht bin p (n + 1)) (m.setSlot ht bin p (0, v)) :=
      .write rfl ho hp (Or.inl rfl) (fun hne => absurd rfl hne)
    refine .of_le heff ⟨ho.after (heff.evolves hg) Mem.lock_setChain, ?_⟩ ⟨Or.inr rfl, id, id⟩
    rw [slots_setSlot, List.length_set]
    omega

/-- The owner gives its bin back. -/
theorem stepOk_unlock {exit : Exit} (h : loc m (.unlock ht bin exit))
    (hgo : go raw m (.unlock ht bin exit) = some (m', pc')) :
    StepOk m (.unlock ht bin exit) m' pc' := by
  rcases h with ⟨ho, hasked⟩
  have heff : Effect m (.unlock ht bin exit) (m.setLock ht bin .free) := .unlock rfl ho
  -- a put that reached the threshold keeps the trigger, the others end here
  cases exit with
  | ret _ =>
    cases hgo
    exact .of_le heff trivial (Pc.ownsLe_of_none rfl rfl rfl)
  | status putBin =>
    cases hgo
    refine .of_le heff ?_ ⟨Or.inl rfl, id, id⟩
    show (m.setLock ht bin .free).Expanded
    unfold Mem.Expanded
    rw [Mem.hashtable_setLock]
    exact hasked putBin rfl

/-! ### Resizing -/

/-- Copying a bucket adds its pairs to those passed. -/
theorem passed_bucket {h : Hashtable} {bucket : Bucket}
    (hi : (h.table b).buckets[i]? = some bucket) :
    passed h b (i + 1) = passed h b i ++ bucket.pairs := by
  unfold passed
  rw [List.take_add_one, hi, List.flatMap_append, List.append_assoc]
  simp

/-- After its last bucket the copy goes on in the next bin. -/
theorem passed_next {h : Hashtable} (hi : (h.table b).buckets[i]? = none) :
    passed h b i = passed h (b + 1) 0 := by
  unfold passed
  rw [List.take_of_length_le (List.getElem?_eq_none_iff.mp hi), List.range_succ,
    List.flatMap_append]
  simp [Chain.pairs]

/-- Past the last bin every pair of the table has been passed. -/
theorem passed_all (h : Hashtable) : passed h h.numBuckets 0 = h.pairs := by
  simp [passed, Hashtable.pairs]

/-- One more bucket is copied. -/
theorem Copying.bucket {bucket : Bucket} (h : Copying m r b i)
    (hi : (m.chain m.ht b).buckets[i]? = some bucket) :
    Copying m { r with new := Hashtable.copySlots raw bucket r.new } b (i + 1) := by
  rcases h.copied with ⟨thr, xs, hc, hsub, hall⟩
  have hpos : 0 < r.new.numBuckets := by
    rcases h.pow with ⟨n, hn⟩
    rw [hn]
    exact Nat.two_pow_pos n
  have hpairs : ∀ x ∈ bucket.pairs, x.1 ≠ 0 := fun x hx => (Bucket.mem_pairs.mp hx).2
  have hc' := Hashtable.Copied.foldl raw hpos hc hpairs
  rw [← Hashtable.copySlots_eq] at hc'
  have hnb := hc'.buckets
  refine ⟨h.old, h.lock, h.expanded, h.le, h.below, h.above, ?_, ?_, thr,
    bucket.pairs.reverse ++ xs, ?_, ?_, ?_⟩
  · rw [hnb]
    exact h.pow
  · rw [hnb]
    exact h.bound
  · show Hashtable.Copied (Hashtable.copySlots raw bucket r.new).numBuckets _ _ _
    rw [hnb]
    exact hc'
  · rw [passed_bucket hi, List.reverse_append, List.reverse_reverse]
    exact hsub.append_right _
  · intro hinc
    rw [passed_bucket hi, List.reverse_append, List.reverse_reverse, hall hinc]

/-- Active elimination leaves a bucket out. -/
theorem Copying.leave (h : Copying m r b i) (hi : i < (m.chain m.ht b).buckets.length)
    (hinc : r.isIncrease = false) : Copying m r b (i + 1) := by
  rcases h.copied with ⟨thr, xs, hc, hsub, _⟩
  refine ⟨h.old, h.lock, h.expanded, h.le, h.below, h.above, h.pow, h.bound, thr, xs, hc, ?_, ?_⟩
  · rw [passed_bucket (List.getElem?_eq_getElem hi)]
    exact hsub.trans (List.sublist_append_left _ _)
  · intro htrue
    rw [hinc] at htrue
    cases htrue

/-- The bin is done. -/
theorem Copying.next (h : Copying m r b i) (hb : b < m.numBuckets m.ht)
    (hlock : m.lock m.ht b = .resize) (hi : (m.chain m.ht b).buckets[i]? = none) :
    Copying m r (b + 1) 0 := by
  refine ⟨h.old, h.lock, h.expanded, hb, ?_, ?_, h.pow, h.bound, ?_⟩
  · intro bin hlt
    rcases Nat.lt_succ_iff_lt_or_eq.mp hlt with hlt | rfl
    · exact h.below bin hlt
    · exact hlock
  · exact fun bin hbin hlt => h.above bin hbin (by omega)
  · rw [← passed_next hi]
    exact h.copied

/-- `LOCK_ACQ_RES` freezes bin `b`. -/
theorem Copying.freeze (h : Copying m r b 0) : Copying (m.setLock m.ht b .resize) r b 0 := by
  have hhash : ((m.setLock m.ht b .resize).tables m.ht).ht = (m.tables m.ht).ht :=
    Mem.hashtable_setLock
  refine ⟨h.old, h.lock, ?_, ?_, ?_, ?_, h.pow, h.bound, ?_⟩
  · show _ ≤ _
    rw [show (m.setLock m.ht b .resize).ht = m.ht from rfl, hhash]
    exact h.expanded
  · show b ≤ ((m.setLock m.ht b .resize).tables m.ht).ht.numBuckets
    rw [hhash]
    exact h.le
  · intro bin hlt
    show (m.setLock m.ht b .resize).lock m.ht bin = .resize
    rw [Mem.lock_setLock, if_neg (by omega)]
    exact h.below bin hlt
  · intro bin hbin hlt
    show (m.setLock m.ht b .resize).lock m.ht bin ≠ .resize
    change bin < ((m.setLock m.ht b .resize).tables m.ht).ht.numBuckets at hbin
    rw [hhash] at hbin
    rw [Mem.lock_setLock, if_neg (by omega)]
    exact h.above bin hbin hlt
  · show ∃ thr xs, _ ∧ _ ∧ _
    rw [show (m.setLock m.ht b .resize).ht = m.ht from rfl, hhash]
    exact h.copied

/-- The copy of all bins is a well-formed table. -/
theorem Copying.wf (hg : Glob m) (h : Copying m r (m.numBuckets m.ht) 0) : r.new.Wf := by
  rcases h.copied with ⟨thr, xs, hc, hsub, _⟩
  refine ⟨h.pow, h.bound, hc.hash, hc.keyed, ?_⟩
  have hperm := hc.perm.trans (List.reverse_perm xs).symm
  rw [(hperm.map Prod.fst).nodup_iff]
  have hpassed := passed_all (m.tables m.ht).ht
  unfold Mem.numBuckets at hsub
  rw [hpassed] at hsub
  exact (hg.wf m.ht (le_refl _)).nodup.sublist (hsub.map _)

/-- The size that `ht_resize_pes` asks for is a power of two, if it is not zero. -/
theorem resize_pow {h : Hashtable} {isIncrease : Bool} {times nb : Nat} (hw : h.Wf)
    (htimes : isIncrease = true → ∃ n, times = 2 ^ n)
    (hnb : (if isIncrease = true then times * h.numBuckets
      else h.numBuckets / clhtRatioHalve) = nb) (hpos : 0 < nb) : ∃ n, nb = 2 ^ n := by
  rcases hw.pow with ⟨n, hn⟩
  split at hnb
  · rename_i hinc
    rcases htimes hinc with ⟨k, rfl⟩
    exact ⟨k + n, by rw [← hnb, hn, Nat.pow_add]⟩
  · -- fewer than eight bins would be none
    rw [hn, show clhtRatioHalve = 2 ^ 3 from rfl] at hnb
    rcases Nat.lt_or_ge n 3 with hlt | hge
    · rw [Nat.div_eq_of_lt (Nat.pow_lt_pow_right (by decide) hlt)] at hnb
      omega
    · exact ⟨n - 3, by rw [← hnb, Nat.pow_div hge (by decide)]⟩

/-- `resize_lock` is taken, and nothing is copied yet. -/
theorem Copying.start {new : Hashtable} {nb : Nat} {thr : UInt32} {isIncrease : Bool}
    (hexp : m.Expanded) (hthawed : ∀ bin < m.numBuckets m.ht, m.lock m.ht bin ≠ .resize)
    (hc : Hashtable.Copied nb thr new []) (hpow : ∃ n, nb = 2 ^ n) (hbound : nb ≤ 2 ^ 31) :
    Copying { m with resizeLock := true } ⟨m.ht, new, isIncrease⟩ 0 0 := by
  refine ⟨rfl, rfl, hexp, Nat.zero_le _, fun _ hlt => absurd hlt (Nat.not_lt_zero _),
    fun bin hbin _ => hthawed bin hbin, ?_, ?_, thr, [], ?_, List.nil_sublist _, fun _ => rfl⟩
  · rw [hc.buckets]
    exact hpow
  · rw [hc.buckets]
    exact hbound
  · rw [hc.buckets]
    exact hc

/-- Trying for the resize lock takes it or gives up. -/
theorem stepOk_tryLock (hg : Glob m) {isIncrease : Bool} {times old : Nat}
    (h : loc m (.tryLock isIncrease times old))
    (hgo : go raw m (.tryLock isIncrease times old) = some (m', pc')) :
    StepOk m (.tryLock isIncrease times old) m' pc' := by
  rcases h with ⟨hexp, htimes, rfl⟩
  rw [go] at hgo
  split at hgo
  · cases hgo
    exact .of_le .quiet trivial (Pc.ownsLe_of_none rfl rfl rfl)
  · rename_i hfree
    rw [Bool.not_eq_true] at hfree
    simp only [Option.bind_eq_bind, Option.bind_eq_some_iff, Option.guard_eq_some',
      Option.pure_def, Option.some.injEq] at hgo
    rcases hgo with ⟨_, hbound, new, hcreate, heq⟩
    cases heq
    generalize hnb : (if isIncrease = true then times * (m.tables m.ht).ht.numBuckets
      else (m.tables m.ht).ht.numBuckets / clhtRatioHalve) = nb at hbound hcreate
    -- `clht_hashtable_create` gives no table of zero bins
    have hpos : 0 < nb := by
      refine Nat.pos_of_ne_zero ?_
      rintro rfl
      cases hcreate
    have hpow := resize_pow (hg.wf m.ht (le_refl _)) htimes hnb hpos
    rcases Hashtable.copied_create hpos with ⟨new', hcreate', hempty⟩
    cases hcreate.symm.trans hcreate'
    have hthawed := hg.thawed hfree
    refine ⟨.takeResize hfree, ⟨.start hexp hthawed (hempty _) hpow hbound,
      fun hb => hthawed 0 hb⟩, ?_⟩
    intro x hx
    cases x with
    | bin _ _ => exact Or.inl hx
    | resizeLock =>
      refine Or.inr ?_
      intro htaken
      cases hfree.symm.trans htaken
    | trigger => exact Or.inl hx

/-- The copy freezes the next bin; past the last one it goes on to the swap. -/
theorem stepOk_copy (h : loc m (.copy r b)) (hgo : go raw m (.copy r b) = some (m', pc')) :
    StepOk m (.copy r b) m' pc' := by
  rcases h with ⟨hc, hthawed⟩
  rw [go, hc.old] at hgo
  split at hgo
  · rename_i hb
    split at hgo
    · rename_i hfree
      cases hgo
      refine .of_le (.freeze rfl hc.lock hfree) ⟨hc.freeze, ?_, ?_⟩ ⟨Or.inr rfl, id, id⟩
      -- bin `b` is frozen now, and the copy walks it next
      · show b < ((m.setLock m.ht b .resize).tables m.ht).ht.numBuckets
        rw [Mem.hashtable_setLock]
        exact hb
      · show (m.setLock m.ht b .resize).lock m.ht b = .resize
        rw [Mem.lock_setLock, if_pos ⟨rfl, rfl⟩]
    · cases hgo
      exact .of_le .quiet ⟨hc, hthawed⟩ ⟨Or.inr rfl, id, id⟩
    -- no bin ahead of the copy is frozen: this thread alone freezes bins
    · rename_i hfrozen
      exact absurd hfrozen (hthawed hb)
  · rename_i hb
    cases hgo
    have heq : b = m.numBuckets m.ht := le_antisymm hc.le (Nat.not_lt.mp hb)
    subst heq
    exact .of_le .quiet hc ⟨Or.inr rfl, id, id⟩

/-- The copy puts one bucket's pairs into the new table. -/
theorem stepOk_copyBucket (h : loc m (.copyBucket r b i))
    (hgo : go raw m (.copyBucket r b i) = some (m', pc')) :
    StepOk m (.copyBucket r b i) m' pc' := by
  rcases h with ⟨hc, hb, hlock⟩
  rw [go, hc.old] at hgo
  split at hgo
  · rename_i bucket hi
    cases hgo
    have hc' : Copying m { r with new := Hashtable.copySlots raw bucket r.new } b (i + 1) :=
      hc.bucket hi
    rw [hc.old] at hc'
    exact .of_le .quiet ⟨hc', hb, hlock⟩ ⟨Or.inr rfl, id, id⟩
  · rename_i hi
    cases hgo
    have hc' := hc.next hb hlock hi
    exact .of_le .quiet ⟨hc', fun hb' => hc.above (b + 1) hb' (Nat.lt_succ_self b)⟩
      ⟨Or.inr rfl, id, id⟩

/-- The swap publishes the table that was filled; it is well formed because every pair it
holds was put there by `clht_put_seq`. -/
theorem stepOk_swap (hg : Glob m) (h : loc m (.swap r))
    (hgo : go raw m (.swap r) = some (m', pc')) : StepOk m (.swap r) m' pc' := by
  have hc : Copying m r (m.numBuckets m.ht) 0 := h
  rw [go] at hgo
  cases hgo
  refine .of_le (.publish rfl rfl hc.lock (hc.wf hg) hc.below) ⟨?_, hc.lock, ?_, ?_⟩
    ⟨Or.inr rfl, id, fun _ => rfl⟩
  · rw [hc.old]
    exact Nat.le_succ _
  -- the new table comes with free locks
  · intro bin _ hl
    unfold Mem.lock at hl
    rw [show (m.publish r.new).ht = m.ht + 1 from rfl, Mem.tables_publish_new] at hl
    cases hl
  · intro hagain
    unfold Mem.Expanded
    rw [show (m.publish r.new).ht = m.ht + 1 from rfl, Mem.tables_publish_new]
    exact of_decide_eq_true hagain

/-- `table_new` is set in the old table, where the waiting threads look. -/
theorem stepOk_setNew {old : Nat} {again : Bool} (hg : Glob m) (h : loc m (.setNew old again)) :
    StepOk m (.setNew old again) (m.setNew old) (.unlockResize again) := by
  have heff : Effect m (.setNew old again) (m.setNew old) := .setNew rfl h.1
  exact .of_le heff (h.2.stable (heff.evolves hg) ⟨rfl, rfl, fun _ hl => by
    rwa [Mem.lock_setNew] at hl⟩) ⟨Or.inr rfl, id, id⟩

/-- The resize lock is given back when the current table has no frozen bin left. -/
theorem stepOk_unlockResize {again : Bool} (h : loc m (.unlockResize again)) :
    StepOk m (.unlockResize again) { m with resizeLock := false }
      (if again then .status none else .done 1) := by
  have hthawed : Thawed m again := h
  have heff : Effect m (.unlockResize again) { m with resizeLock := false } :=
    .dropResize rfl hthawed.thawed
  cases again with
  | true => exact .of_le heff (hthawed.expanded rfl) ⟨Or.inl rfl, fun _ => rfl, id⟩
  | false => exact .of_le heff trivial (Pc.ownsLe_of_none rfl rfl rfl)

/-! ## The contract -/

/-- Every step of the code is fine, place by place. -/
theorem stepOk_go (hg : Glob m) (h : loc m pc) (hok : Ok m pc .go)
    (hgo : go raw m pc = some (m', pc')) : StepOk m pc m' pc' := by
  cases pc with
  | idle => cases hgo
  | called op =>
    cases hgo
    exact stepOk_called h
  | getVal _ _ _ _ => exact stepOk_getVal h hgo
  | getKey _ _ _ _ _ => exact stepOk_getKey h hgo
  | getAgain _ _ _ _ _ => exact stepOk_getAgain hgo
  | bucketExists _ _ _ _ => exact stepOk_bucketExists h hgo
  | acquire _ _ _ => exact stepOk_acquire h hgo
  | await _ _ =>
    cases hgo
    exact stepOk_await h
  | reload _ =>
    cases hgo
    exact stepOk_reload h
  | scan _ _ _ _ _ => exact stepOk_scan h hgo
  | fill _ _ _ _ _ _ => exact stepOk_fill hg h hgo
  | bind _ _ _ _ _ _ => exact stepOk_bind hg h hgo
  | grow _ _ _ _ _ => exact stepOk_grow hg h hok hgo
  | link _ _ _ _ _ _ => exact stepOk_link hg h hgo
  | assign _ _ _ _ _ => exact stepOk_assign hg h hgo
  | erase _ _ _ _ _ => exact stepOk_erase hg h hgo
  | choose _ _ => cases hgo
  | clear _ _ _ _ => exact stepOk_clear hg h hgo
  | unlock _ _ _ => exact stepOk_unlock h hgo
  | status _ => cases hgo
  | resize _ _ =>
    cases hgo
    exact .of_le .quiet ⟨h.1, h.2, rfl⟩ ⟨Or.inr rfl, id, id⟩
  | tryLock _ _ _ => exact stepOk_tryLock hg h hgo
  | copy _ _ => exact stepOk_copy h hgo
  | copyBucket _ _ _ => exact stepOk_copyBucket h hgo
  | swap _ => exact stepOk_swap hg h hgo
  | setNew _ _ =>
    cases hgo
    exact stepOk_setNew hg h
  | unlockResize _ =>
    cases hgo
    exact stepOk_unlockResize h
  | done _ => cases hgo

/-- Every step of the code, with whatever choice. -/
theorem stepOk_next (hg : Glob m) (h : loc m pc) {a : Act} {e : Option Event} (hok : Ok m pc a)
    (hn : next raw m pc a = some (e, m', pc')) : StepOk m pc m' pc' := by
  cases a with
  | call op =>
    cases pc with
    | idle =>
      cases hn
      exact .of_le .quiet hok (Pc.ownsLe_of_none rfl rfl rfl)
    | _ => cases hn
  | go =>
    rcases Option.map_eq_some_iff.mp hn with ⟨⟨m₁, pc₁⟩, hgo, heq⟩
    cases heq
    exact stepOk_go hg h hok hgo
  | shrink =>
    cases pc with
    | status _ =>
      cases hn
      exact .of_le .quiet ⟨h, fun hinc => by cases hinc⟩ ⟨Or.inr rfl, id, id⟩
    | _ => cases hn
  | enlarge e =>
    cases pc with
    | status _ =>
      cases hn
      exact .of_le .quiet ⟨h, fun _ => ⟨e + 1, rfl⟩⟩ ⟨Or.inr rfl, id, id⟩
    | _ => cases hn
  | stop =>
    cases pc with
    | status putBin =>
      cases putBin with
      | none =>
        cases hn
        exact .of_le .quiet trivial (Pc.ownsLe_of_none rfl rfl rfl)
      | some _ =>
        cases hn
        exact .of_le .quiet (fun hop => absurd rfl hop) (Pc.ownsLe_of_none rfl rfl rfl)
    | _ => cases hn
  | pick i =>
    cases pc with
    | choose ht bin =>
      -- `lru` and `random_eliminate` choose some bucket of the bin that is locked
      have hn' : (if i < (m.chain ht bin).buckets.length then some ((none : Option Event), m,
          Pc.clear ht bin (entriesPerBucket * i) entriesPerBucket) else none) =
          some (e, m', pc') := hn
      split at hn'
      · rename_i hi
        cases hn'
        refine .of_le .quiet ⟨h, ?_⟩ ⟨Or.inr rfl, id, id⟩
        unfold Mem.slots
        rw [Chain.length_slots, ← Nat.mul_succ]
        exact Nat.mul_le_mul_left _ hi
      · cases hn'
    | _ => cases hn
  | leave =>
    cases pc with
    | copyBucket r b i =>
      -- a shrink may leave a bucket behind; a growth copies all of them
      have hn' : (if i < (m.chain r.old b).buckets.length ∧ !r.isIncrease then
          some ((none : Option Event), m, Pc.copyBucket r b (i + 1)) else none) =
          some (e, m', pc') := hn
      split at hn'
      · rename_i hi
        cases hn'
        rcases h with ⟨hc, hb, hlock⟩
        rw [hc.old] at hi
        refine .of_le .quiet ⟨hc.leave hi.1 ?_, hb, hlock⟩ ⟨Or.inr rfl, id, id⟩
        simpa using hi.2
      · cases hn'
    | _ => cases hn
  | ret =>
    cases pc with
    | done _ =>
      cases hn
      exact .of_le .quiet trivial (Pc.ownsLe_of_none rfl rfl rfl)
    | _ => cases hn

/-- Inside the critical section of a bin the bin is owned. -/
theorem owns_of_section (h : loc m pc) (hx : pc.section = some (ht, bin)) : Owns m ht bin := by
  cases pc <;> first
    | (cases hx; done)
    | (cases hx; exact h.1)
    | (cases hx; exact h)

/-- What a place holds is marked as taken in the memory. -/
theorem taken_of_holds {x : Res} (h : loc m pc) (hx : pc.holds x) : m.taken x := by
  cases x with
  | bin ht bin =>
    have ho := owns_of_section h hx
    exact ⟨ho.le, ho.lock⟩
  | resizeLock =>
    cases pc with
    | copy _ _ => exact h.1.lock
    | copyBucket _ _ _ => exact h.1.lock
    | swap _ => exact Copying.lock h
    | setNew _ _ => exact h.2.lock
    | unlockResize _ => exact Thawed.lock h
    | _ => cases hx
  | trigger =>
    cases pc with
    | link _ _ _ _ _ _ => exact h.2.2.2 hx
    | unlock _ _ exit =>
      cases exit with
      | ret _ => cases hx
      | status putBin => exact h.2 putBin rfl
    | status _ => exact h
    | resize _ _ => exact h.1
    | tryLock _ _ _ => exact h.1
    | copy _ _ => exact h.1.expanded
    | copyBucket _ _ _ => exact h.1.expanded
    | swap _ => exact Copying.expanded h
    | setNew _ _ => exact h.2.expanded hx
    | unlockResize _ => exact Thawed.expanded h hx
    | _ => cases hx

/-- The code of a thread, what it owns and what it knows. -/
def contract : Contract Mem Pc Res where
  holds := Pc.holds
  taken := Mem.taken
  glob := Glob
  loc := loc
  evolves := Evolves
  keeps := keeps

/-- The code respects the contract, so the rules of `Threads` apply to it. -/
theorem contract_respected : contract.Respected (next raw) Ok where
  taken := taken_of_holds
  acquire hg h hok hn hx := (stepOk_next hg h hok hn).acquire _ hx
  own hg h hok hn := ⟨(stepOk_next hg h hok hn).effect.glob hg, (stepOk_next hg h hok hn).place⟩
  evolves hg h hok hn := (stepOk_next hg h hok hn).effect.evolves hg
  keeps hg h hok hn htaken hx := (stepOk_next hg h hok hn).effect.keeps htaken hx
  stable _ h hev hk := loc_stable h hev hk

section

variable {T : Type} [DecidableEq T]

/-- The states that threads reach from a fresh table, in any order of their steps. -/
def Reachable (raw : Nat → Nat → Nat → Raw) (s : State T) : Prop :=
  Reach Init (step raw) (Threads.lift Ok) s

omit [DecidableEq T] in
/-- The contract's invariant holds at the start. -/
theorem inv_init {s : State T} (h : Init s) : contract.Inv s := by
  rcases h with ⟨⟨n, h₀, hbound, hcreate, hmem⟩, hidle⟩
  refine Contract.Inv.idle ?_ ?_ ?_
  · show Glob s.mem
    rw [hmem]
    -- a fresh table holds no pair, so its shape is that of an empty copy
    have hw : h₀.Wf := by
      rcases Hashtable.copied_create (Nat.two_pow_pos n) with ⟨h₁, hcreate', hempty⟩
      cases hcreate.symm.trans hcreate'
      have hc := hempty h₀.version
      refine ⟨⟨n, hc.buckets⟩, ?_, hc.hash, hc.keyed, ?_⟩
      · rw [show h₀.numBuckets = 2 ^ n from hc.buckets]
        exact hbound
      · rw [(hc.perm.map Prod.fst).nodup_iff]
        exact List.nodup_nil
    refine ⟨fun _ _ => hw, fun _ hlt => absurd hlt (Nat.not_lt_zero _), ?_⟩
    intro _ bin _ hl
    cases hl
  · intro t
    rw [hidle t]
    trivial
  · intro t x
    rw [hidle t]
    cases x <;> exact fun hx => by cases hx

/-- The contract's invariant holds in every reachable state. -/
theorem Reachable.inv {s : State T} (h : Reachable raw s) : contract.Inv s :=
  contract_respected.invariant (fun _ => inv_init) h

end

end Epli.Clht.Locks
