import Epli.Client

/-!
# Durability of completed operations

A store is certain to survive only when its cache line has been flushed since.
Blocks and splits are written back whole. A put, an update and a removal flush
one line only: the one that holds the first byte of the slot. A slot whose key
is the last word of a line has its value on the next one, which is the case for
every fourth slot (`lineOf_val`).
-/

namespace Epli

open Lib Entry

/-- The words of an entry. -/
def Field.InEntry (fld : Field) : Prop := fld.offset + 8 ≤ entrySize

variable {pm : Pmem Loc Nat} {p q a i n x k v : Nat} {fld : Field} {kvs : List KV} {m : Mem}

/-! ## Lines -/

/-- A slot straddles two lines. -/
def Straddles (i : Nat) : Prop := i % 4 = 2

instance (i : Nat) : Decidable (Straddles i) := inferInstanceAs (Decidable (_ = _))

/-- The value of a slot is on the line of its key, unless the slot straddles. -/
theorem lineOf_val (hp : p % 256 = 0) :
    lineOf (p, .val i) = lineOf (p, .key i) ↔ ¬ Straddles i := by
  unfold Straddles
  simp only [lineOf, Field.offset, cacheLineSize]
  omega

/-- `clflush` of a slot writes back the line of its key. -/
theorem clflush_key (p i : Nat) :
    (clflush (p + Field.offset (.key i)) : Trace) = [.flush (lineOf (p, .key i))] := rfl

/-- `mem_persist` of an aligned block flushes the lines of all its words. -/
theorem lineOf_mem_persist (hp : p % 256 = 0) (hfld : fld.InEntry) :
    lineOf (p, fld) ∈ (List.range ((p + entrySize - 1) / cacheLineSize - p / cacheLineSize + 1)).map
      fun j => p / cacheLineSize + j := by
  unfold Field.InEntry at hfld
  simp only [entrySize, cacheLineSize, lineOf] at *
  refine List.mem_map.mpr ⟨fld.offset / 64, ?_, ?_⟩
  · rw [List.mem_range]
    omega
  · omega

/-- `Mem_persist` of an entry cleans all of its words. -/
theorem dirty_memPersist (hp : p % 256 = 0) (hfld : fld.InEntry) (pm : Pmem Loc Nat) :
    (pm.exec lineOf (memPersist p entrySize)).dirty (p, fld) = false := by
  have hmap : (memPersist p entrySize : Trace) =
      ((List.range ((p + entrySize - 1) / cacheLineSize - p / cacheLineSize + 1)).map
        fun j => p / cacheLineSize + j).map .flush := by
    rw [memPersist, List.map_map]
    rfl
  rw [hmap]
  exact Pmem.dirty_flushed _ _ (lineOf_mem_persist hp hfld)

/-! ## Footprints -/

/-- A trace stores to the block `p` only. -/
def OnBlock (p : Nat) (evs : Trace) : Prop := WritesOnly (fun l => l.1 = p) evs

/-- `init_kvs` stores to its own block. -/
theorem onBlock_initKVs : OnBlock p (initKVs p x kvs n) := by
  intro l y h
  simp only [initKVs, clear, clearKVs, fillKVs, List.mem_append, List.mem_cons,
    List.mem_flatMap, List.not_mem_nil, or_false, Ev.store.injEq] at h
  rcases h with (((h | h | h) | ⟨j, _, h | h⟩) | h) | ⟨j, _, h | h⟩ <;> rw [h.1]

/-- `set_ordered_kvs` stores to its own block. -/
theorem onBlock_setOrderedKVs : OnBlock p (setOrderedKVs p kvs n) := by
  intro l y h
  simp only [setOrderedKVs, clearKVs, fillKVs, List.mem_append, List.mem_cons,
    List.mem_flatMap, List.not_mem_nil, or_false, Ev.store.injEq] at h
  rcases h with (⟨j, _, h | h⟩ | ⟨j, _, h | h⟩) | h <;> rw [h.1]

theorem onBlock_store : OnBlock p [.store (p, fld) x] := by
  intro l y h
  simp only [List.mem_singleton, Ev.store.injEq] at h
  rw [h.1]

theorem onBlock_clflush : OnBlock p (clflush n) := by
  intro l y h
  simp [clflush] at h

/-- A clean word of another block stays clean. -/
theorem OnBlock.clean {evs : Trace} (h : OnBlock p evs) (hap : a ≠ p)
    (hc : pm.dirty (a, fld) = false) : (pm.exec lineOf evs).dirty (a, fld) = false := by
  exact Pmem.dirty_frame (q := fun l : Loc => l.1 = p) hap evs pm h hc

/-- A write back dirties nothing. -/
theorem clean_memPersist {l : Loc} (hc : pm.dirty l = false) :
    (pm.exec lineOf (memPersist q n)).dirty l = false := by
  refine Pmem.dirty_frame (q := fun _ => False) id _ pm ?_ hc
  intro l y h
  simp [memPersist] at h

/-! ## Stores to one slot -/

/-- A put leaves its value dirty exactly when the slot straddles. -/
theorem dirty_putAtPos_val (pm : Pmem Loc Nat) (k v : Nat) (hp : p % 256 = 0) :
    (pm.exec lineOf (putAtPos p i k v)).dirty (p, .val i) = true ↔ Straddles i := by
  have hline := lineOf_val (i := i) hp
  rw [putAtPos, clflush_key]
  simp only [List.cons_append, List.nil_append, Pmem.exec_cons, Pmem.exec_nil, Pmem.apply,
    Bool.and_eq_true, bne_iff_ne, ne_eq, hline, not_not]
  simp [setLoc]

/-- A put leaves every other word as clean as it was. -/
theorem clean_putAtPos (hfld : fld ≠ .val i) (hc : pm.dirty (p, fld) = false) :
    (pm.exec lineOf (putAtPos p i k v)).dirty (p, fld) = false := by
  rw [putAtPos, clflush_key]
  simp only [List.cons_append, List.nil_append, Pmem.exec_cons, Pmem.exec_nil, Pmem.apply]
  by_cases hkey : fld = .key i
  · simp [hkey]
  · simp [setLoc, hfld, hkey, hc]

/-- An update leaves its value dirty exactly when the slot straddles. -/
theorem dirty_update_val (pm : Pmem Loc Nat) (v : Nat) (hp : p % 256 = 0) :
    (pm.exec lineOf ([.store (p, .val i) v] ++ clflush (p + Field.offset (.key i)))).dirty
      (p, .val i) = true ↔ Straddles i := by
  have hline := lineOf_val (i := i) hp
  rw [clflush_key]
  simp only [List.cons_append, List.nil_append, Pmem.exec_cons, Pmem.exec_nil, Pmem.apply,
    Bool.and_eq_true, bne_iff_ne, ne_eq, hline, not_not]
  simp [setLoc]

/-- A clean word other than the value itself stays clean in an `Update`. -/
theorem clean_update (hfld : fld ≠ .val i) (hc : pm.dirty (p, fld) = false) :
    (pm.exec lineOf ([.store (p, .val i) v] ++ clflush (p + Field.offset (.key i)))).dirty
      (p, fld) = false := by
  rw [clflush_key]
  simp [Pmem.apply, setLoc, hfld, hc]

/-- A removal leaves nothing dirty. -/
theorem clean_remove (hc : pm.dirty (p, fld) = false) :
    (pm.exec lineOf ([.store (p, .key i) v] ++ clflush (p + Field.offset (.key i)))).dirty
      (p, fld) = false := by
  rw [clflush_key]
  by_cases hkey : fld = .key i
  · simp [Pmem.apply, hkey]
  · simp [Pmem.apply, setLoc, hkey, hc]

namespace Tree

/-! ## Splitting an entry -/

/-- The stores of a split, by the block they go to, between the two write backs. -/
theorem split_trace (m : Mem) (p q : Nat) : ∃ evs₁ evs₂ evs₃ evs₄ : Trace,
    splitInit m p q ++ splitLink m p q ++ splitRefill m p =
      evs₁ ++ evs₂ ++ evs₃ ++ memPersist q entrySize ++ evs₄ ++ memPersist p entrySize ∧
    OnBlock q evs₁ ∧ OnBlock p evs₂ ∧ OnBlock q evs₃ ∧ OnBlock p evs₄ := by
  refine ⟨initKVs q (medianKey m p) ((sortedKVs m p).drop (kvsPerEntry / 2))
      ((kvsPerEntry + 1) / 2), setFlag p 1 ++ setPersistFlag p 1,
    [.store (q, .next) (exec m (splitInit m p q) (p, .next))],
    [.store (p, .next) q] ++ setOrderedKVs p (sortedKVs m p) (kvsPerEntry / 2) ++ setFlag p 0,
    ?_, onBlock_initKVs, ?_, onBlock_store, ?_⟩
  · simp only [splitInit, splitLink, splitRefill, List.append_assoc]
  · exact onBlock_store.append (onBlock_store.append onBlock_clflush)
  · exact (onBlock_store.append onBlock_setOrderedKVs).append onBlock_store

/-- Every word of the entries `as` is clean. -/
def Clean (pm : Pmem Loc Nat) (as : List Nat) : Prop :=
  ∀ a ∈ as, ∀ fld : Field, fld.InEntry → pm.dirty (a, fld) = false

/-- A split persists the two entries it has written. -/
theorem clean_split {pre post : List Nat} (hp : p % 256 = 0) (hq : q % 256 = 0) (hqp : q ≠ p)
    (hc : Clean pm (pre ++ p :: post)) :
    Clean (pm.exec lineOf (splitInit m p q ++ splitLink m p q ++ splitRefill m p))
      (pre ++ p :: q :: post) := by
  rcases split_trace m p q with ⟨evs₁, evs₂, evs₃, evs₄, heq, h₁, h₂, h₃, h₄⟩
  intro a ha fld hfld
  rw [heq]
  simp only [Pmem.exec_append]
  by_cases hap : a = p
  · subst hap
    exact dirty_memPersist hp hfld _
  · refine clean_memPersist (h₄.clean hap ?_)
    by_cases haq : a = q
    · subst haq
      exact dirty_memPersist hq hfld _
    · have hold := hc a (mem_of_mem_link ha haq) fld hfld
      exact clean_memPersist (h₃.clean haq (h₂.clean hap (h₁.clean haq hold)))

/-! ## The durable list -/

/-- The words of the list that have to survive: everything but the flag. -/
def Kept : Field → Prop
  | .next => True
  | .minKey => True
  | .flag => False
  | .key i => i < kvsPerEntry
  | .val i => i < kvsPerEntry

/-- The words kept are words of the entry. -/
theorem Kept.inEntry {fld : Field} (h : Kept fld) : fld.InEntry := by
  unfold Field.InEntry
  cases fld with
  | next => decide
  | minKey => decide
  | flag => decide
  | key i =>
    have hi : i < kvsPerEntry := h
    rw [kvsPerEntry_eq] at hi
    simp only [Field.offset, entrySize]
    omega
  | val i =>
    have hi : i < kvsPerEntry := h
    rw [kvsPerEntry_eq] at hi
    simp only [Field.offset, entrySize]
    omega

/-- Whatever unflushed lines a crash loses, the list survives as it is. -/
def DurableList (t : Tree) : Prop :=
  ∀ img, t.pm.Image img → ∀ a, Reaches (nextOf t.mem) null t.head a → ∀ fld, Kept fld →
    img (a, fld) = t.mem (a, fld)

variable {f : Mapping} {calls : Nat} {t t' : Tree} {as : List Nat} {op : Op} {ans : Answer}
  {ops : List Op}

/-- A clean list is on the medium. -/
theorem durable_of_clean (h : Walk (nextOf t.mem) null t.head as) (hc : Clean t.pm as) :
    DurableList t := by
  intro img himg a ha fld hfld
  exact himg (a, fld) (hc a ((reaches_iff_mem h).mp ha) fld hfld.inEntry)

/-- A dirty word of the list can be lost. -/
theorem clean_of_durable (h : DurableList t) (ha : Reaches (nextOf t.mem) null t.head a)
    (fld : Field) (hfld : Kept fld) : t.pm.dirty (a, fld) = false := by
  by_contra hd
  -- an image that differs from the visible memory in this word
  have himg : t.pm.Image (setLoc t.mem (a, fld) (t.mem (a, fld) + 1)) := by
    intro l hl
    rw [setLoc_ne]
    rintro rfl
    exact hd hl
  have heq := h _ himg a ha fld hfld
  rw [setLoc_self] at heq
  omega

/-! ## Which slots an operation may touch -/

/-- An `Insert` that does not split, and an `Update`, keep off the slots that
straddle two lines. -/
def PersistGuard (t : Tree) : Op → Prop
  | .insert k _ => ∀ p, t.lookup k = some p → ∀ i, findSlot t.mem p invalidKey = some i →
      ¬ Straddles i
  | .update k _ => ∀ p, t.lookup k = some p → ∀ i, findSlot t.mem p k = some i → ¬ Straddles i
  | .remove _ => True
  | .get _ => True

instance (t : Tree) : ∀ op, Decidable (PersistGuard t op)
  | .insert k _ => decidable_of_iff (∀ p ∈ t.lookup k, ∀ i ∈ findSlot t.mem p invalidKey,
      ¬ Straddles i) (by simp [PersistGuard])
  | .update k _ => decidable_of_iff (∀ p ∈ t.lookup k, ∀ i ∈ findSlot t.mem p k,
      ¬ Straddles i) (by simp [PersistGuard])
  | .remove _ => .isTrue trivial
  | .get _ => .isTrue trivial

/-- What `SplitEntry` does to the medium are its three stages. -/
theorem splitEntry_pm (h : Shape t as) (p : Nat) : (t.splitEntry p).2.pm =
    t.pm.exec lineOf (splitInit t.mem p t.alloc.currentAddr
      ++ splitLink t.mem p t.alloc.currentAddr ++ splitRefill t.mem p) := by
  simp [splitEntry, h.alloc_eq, run]

/-- After a split the pair goes to the first slot behind the half. -/
theorem slot_after_split (h : Shape t as) (hp : t.lookup k = some p) (hf : Full t.mem p)
    {p' : Nat} (hp' : (t.splitEntry p).2.lookup k = some p')
    (hslot : findSlot (t.splitEntry p).2.mem p' invalidKey = some i) : i = kvsPerEntry / 2 := by
  have heff := splitEntry_mem h (h.lookup_mem hp)
  have hne : ∀ y ∈ sortedKVs t.mem p, y.1 ≠ invalidKey := by
    intro y hy
    exact hf.ne_invalid (mem_sortedKVs.mp hy).hasKey
  have hhalf : findSlot (t.splitEntry p).2.mem p' invalidKey = some (kvsPerEntry / 2) := by
    rcases lookup_splitEntry h hp with hq | hq
    · cases hp'.symm.trans hq
      exact findSlot_of_filled heff.old_filled (by decide) (by rw [length_sortedKVs]; decide) hne
    · cases hp'.symm.trans hq
      refine findSlot_of_filled heff.new_filled (by decide) (by rw [length_upperKVs]) ?_
      intro y hy
      exact hne y (List.mem_of_mem_drop hy)
  rw [hslot] at hhalf
  exact Option.some.inj hhalf

/-- Stores to one block leave the list clean if they leave that block clean. -/
theorem clean_onBlock {evs : Trace} (hon : OnBlock p evs) (hc : Clean pm as)
    (hblock : p ∈ as → ∀ fld, pm.dirty (p, fld) = false →
      (pm.exec lineOf evs).dirty (p, fld) = false) : Clean (pm.exec lineOf evs) as := by
  intro a ha fld hfld
  have hold := hc a ha fld hfld
  by_cases hap : a = p
  · subst hap
    exact hblock ha fld hold
  · exact hon.clean hap hold

/-- A put whose slot does not straddle two lines leaves the list clean. -/
theorem clean_put (h : Shape t as) (hc : Clean t.pm as) (hp : p ∈ as) (hi : ¬ Straddles i) :
    Clean (t.run (putAtPos p i k v)).pm as := by
  have hon : OnBlock p (putAtPos p i k v) :=
    (onBlock_store.append onBlock_store).append onBlock_clflush
  refine clean_onBlock hon hc fun _ fld hold => ?_
  by_cases hval : fld = .val i
  · subst hval
    rw [← Bool.not_eq_true, dirty_putAtPos_val _ _ _ (h.aligned hp)]
    exact hi
  · exact clean_putAtPos hval hold

/-- An operation within the guard leaves the list clean. -/
theorem clean_step (h : Shape t as) (hc : Clean t.pm as) (hg : PersistGuard t op)
    (hstep : t.step (calls + 2) op = some (ans, t')) :
    ∃ as', Shape t' as' ∧ Clean t'.pm as' := by
  cases step_effect h hstep with
  | @insert k v p p' i hp hp' hf =>
    by_cases hfull : Full t.mem p
    · rw [makeRoom_full hfull] at hp' hf ⊢
      rcases List.append_of_mem (h.lookup_mem hp) with ⟨pre, post, rfl⟩
      have h' := shape_splitEntry h
      have hqp : t.alloc.currentAddr ≠ p := by
        intro heq
        exact h.cursor_fresh (heq ▸ h.lookup_mem hp)
      have hc' : Clean (t.splitEntry p).2.pm (pre ++ p :: t.alloc.currentAddr :: post) := by
        rw [splitEntry_pm h]
        exact clean_split (h.aligned (h.lookup_mem hp)) h.cursor_aligned hqp hc
      -- the first slot behind the half is on one line
      have hslot := slot_after_split h hp hfull hp' hf
      refine ⟨_, h'.run _ fun a _ => ?_, clean_put h' hc' (h'.lookup_mem hp') ?_⟩
      · rw [exec_putAtPos]
        exact slotsOnly_putSlot.next a
      · rw [hslot]
        decide
    · rw [makeRoom_room hfull] at hp' hf ⊢
      refine ⟨as, h.run _ fun a _ => ?_, clean_put h hc (h.lookup_mem hp') (hg p' hp' i hf)⟩
      rw [exec_putAtPos]
      exact slotsOnly_putSlot.next a
  | @update k v p i hp hf =>
    refine ⟨as, h.run _ fun a _ => slotsOnly_setVal.next a, ?_⟩
    refine clean_onBlock (onBlock_store.append onBlock_clflush) hc fun hpas fld hold => ?_
    by_cases hval : fld = .val i
    · subst hval
      rw [← Bool.not_eq_true, dirty_update_val _ _ (h.aligned hpas)]
      exact hg p hp i hf
    · exact clean_update hval hold
  | @remove k p i hp hf =>
    refine ⟨as, h.run _ fun a _ => slotsOnly_clearKey.next a, ?_⟩
    exact clean_onBlock (onBlock_store.append onBlock_clflush) hc fun _ fld hold =>
      clean_remove hold
  | same _ => exact ⟨as, h, hc⟩

/-- An operation that leaves the list durable was within the guard. -/
theorem guard_of_durable (h : Shape t as) (hstep : t.step (calls + 2) op = some (ans, t'))
    (hd : DurableList t') : PersistGuard t op := by
  cases op with
  | insert k v =>
    intro p hp i hf hstr
    have hroom : ¬ Full t.mem p := by
      rcases findSlot_some hf with ⟨hi, he, _⟩
      exact not_full_iff.mpr ⟨i, hi, he⟩
    rcases insert_eq h hp calls v with ⟨p', i', hp', hf', hins⟩
    rw [makeRoom_room hroom] at hp' hf' hins
    cases hp.symm.trans hp'
    cases hf.symm.trans hf'
    rw [step, hins] at hstep
    cases hstep
    have hsh : Shape (t.run (putAtPos p i k v)) as := by
      refine h.run _ fun a _ => ?_
      rw [exec_putAtPos]
      exact slotsOnly_putSlot.next a
    have hreach := (reaches_iff_mem hsh.walk).mpr (h.lookup_mem hp)
    -- a straddling slot leaves its value dirty, which a durable list rules out
    have hclean := clean_of_durable hd hreach (.val i) (findSlot_some hf).1
    have hdirty := (dirty_putAtPos_val t.pm k v (h.aligned (h.lookup_mem hp))).mpr hstr
    rw [run, hdirty] at hclean
    cases hclean
  | update k v =>
    intro p hp i hf hstr
    rcases update_eq hp v with ⟨hno, _⟩ | ⟨i', _, _, hf', hupd⟩
    -- the guard speaks of a slot that holds `k`, so `Update` has found it
    · rcases findSlot_some hf with ⟨hi, hki, _⟩
      exact hno ⟨i, hi, hki⟩
    · cases hf.symm.trans hf'
      rw [step, hupd] at hstep
      cases hstep
      have hsh : Shape (t.run ([.store (p, .val i) v]
          ++ clflush (p + Field.offset (.key i)))) as :=
        h.run _ fun a _ => slotsOnly_setVal.next a
      have hreach := (reaches_iff_mem hsh.walk).mpr (h.lookup_mem hp)
      have hclean := clean_of_durable hd hreach (.val i) (findSlot_some hf).1
      have hdirty := (dirty_update_val t.pm v (h.aligned (h.lookup_mem hp))).mpr hstr
      rw [run, hdirty] at hclean
      cases hclean
  | remove k => trivial
  | get k => trivial

/-! ## The states a client starts from -/

/-- A fresh tree is clean. -/
theorem clean_create (f : Mapping) (pm : Pmem Loc Nat) :
    Clean (create false f pm).pm [f.addr] := by
  intro a ha fld hfld
  rw [List.mem_singleton] at ha
  subst ha
  rw [create_eq]
  show (pm.exec lineOf (_ ++ memPersist f.addr entrySize)).dirty _ = false
  rw [Pmem.exec_append]
  exact dirty_memPersist (mapping_aligned f) hfld _

/-- All blocks but the last are written back during the load. -/
theorem clean_loadRounds (f : Mapping) (pm : Pmem Loc Nat) (kvs : List KV) (n : Nat) :
    Clean (loadRounds (create false f pm) kvs n).1.pm ((List.range n).map (block f.addr)) := by
  induction n with
  | zero =>
    intro a ha
    simp at ha
  | succ n ih =>
    have hload := loaded_loadRounds f pm kvs n
    have hnext : loadRounds (create false f pm) kvs (n + 1) =
        bulkLoadStep kvs (loadRounds (create false f pm) kvs n) (n + 1) := by
      rw [loadRounds, List.range'_1_concat, List.foldl_append, Nat.add_comm 1 n]
      rfl
    rw [hnext]
    have halign : ∀ j, block f.addr j % 256 = 0 := by
      intro j
      have hf := mapping_aligned f
      simp only [block, entrySize]
      omega
    rcases hs : loadRounds (create false f pm) kvs n with ⟨t, cur, indexKvs⟩
    rw [hs] at hload ih
    have hcur : cur = block f.addr n := hload.cur
    have hcursor : t.alloc.currentAddr = block f.addr (n + 1) := hload.cursor
    have hal : t.alloc.currentAddr % 256 = 0 := by
      rw [hcursor]
      exact halign _
    rcases bulkLoadStep_eq hal kvs cur indexKvs (n + 1) with ⟨t', heq, _, _, _, hpm⟩
    rw [heq]
    intro a ha fld hfld
    show t'.pm.dirty (a, fld) = false
    rw [hpm, Pmem.exec_append, Pmem.exec_append]
    rcases List.mem_map.mp ha with ⟨j, hj, rfl⟩
    rw [List.mem_range] at hj
    by_cases hjn : j = n
    · subst hjn
      rw [hcur]
      exact dirty_memPersist (halign _) hfld _
    · -- an older block: neither the new one nor the one linked to it
      have hne : block f.addr j ≠ block f.addr n := by
        rw [Ne, block_inj]
        exact hjn
      have hne' : block f.addr j ≠ t.alloc.currentAddr := by
        rw [hcursor, Ne, block_inj]
        omega
      have hold := ih (block f.addr j) (List.mem_map_of_mem (List.mem_range.mpr (by omega)))
        fld hfld
      rw [hcur]
      exact clean_memPersist
        (onBlock_store.clean hne (onBlock_initKVs.clean hne' hold))

/-- A load of more than one entry is written back. -/
theorem clean_bulkLoad {kvs : List KV} (hlen : kvsPerEntry < kvs.length)
    (hasc : kvs.Pairwise fun a b => a.1 < b.1) (h : (create false f pm).bulkLoad kvs = some t) :
    Clean t.pm ((List.range (lastChunk kvs + 1)).map (block f.addr)) := by
  rcases bulkLoad_loaded f pm hlen hasc with ⟨t₁, hbulk, hpm, _⟩
  cases h.symm.trans hbulk
  rw [hpm]
  intro a ha fld hfld
  rcases List.mem_map.mp ha with ⟨j, hj, rfl⟩
  rw [List.mem_range] at hj
  by_cases hlast : j = lastChunk kvs
  · subst hlast
    refine dirty_memPersist ?_ hfld _
    have hf := mapping_aligned f
    simp only [block, entrySize]
    omega
  · refine clean_memPersist (clean_loadRounds f pm kvs _ _ ?_ fld hfld)
    exact List.mem_map_of_mem (List.mem_range.mpr (by omega))

/-- The first chunk is written back before the loop. -/
theorem clean_loadHead (f : Mapping) (pm : Pmem Loc Nat) (kvs : List KV) :
    Clean (loadHead (create false f pm) kvs).1.pm [f.addr] := by
  intro a ha fld hfld
  rw [List.mem_singleton] at ha
  subst ha
  have hhead : (create false f pm).head = f.addr := by rw [create_eq]
  show (Pmem.exec lineOf _ (_ ++ memPersist _ entrySize)).dirty _ = false
  rw [Pmem.exec_append, hhead]
  exact dirty_memPersist (mapping_aligned f) hfld _

/-- Both starts leave a clean list. -/
theorem clean_start {start : Start} (h : start.tree f pm = some t) :
    ∃ as, Shape t as ∧ Clean t.pm as := by
  cases start with
  | fresh =>
    cases h
    have hs := sound_create f pm
    refine ⟨_, hs.shape, ?_⟩
    have hhead : (create false f pm).head = f.addr := by rw [create_eq]
    rw [List.map_nil, hhead]
    exact clean_create f pm
  | bulk kvs long ascending =>
    rcases sound_bulkLoad f pm long ascending with ⟨t₀, hbulk, hs, _⟩
    rcases bulkLoad_loaded f pm long ascending with ⟨t₁, hbulk₁, _, _, hhead, _⟩
    cases h.symm.trans hbulk
    cases h.symm.trans hbulk₁
    refine ⟨_, hs.shape, ?_⟩
    rw [hhead, loadedRest_snd]
    exact clean_bulkLoad long ascending h

/-- A tree before its first operation: as a client starts, or after a `BulkLoad`
that fits into the head and returns with an empty index. -/
def Begun (f : Mapping) (pm : Pmem Loc Nat) (t : Tree) : Prop :=
  (∃ start : Start, start.tree f pm = some t) ∨
    ∃ kvs : List KV, kvs.length ≤ kvsPerEntry ∧ (create false f pm).bulkLoad kvs = some t

/-- However it began, the tree has its shape and its list is written back. -/
theorem clean_begun (h : Begun f pm t) : ∃ as, Shape t as ∧ Clean t.pm as := by
  rcases h with ⟨start, hstart⟩ | ⟨kvs, hlen, hbulk⟩
  · exact clean_start hstart
  · by_cases hnil : kvs = []
    · -- nothing is loaded: a fresh tree
      subst hnil
      exact clean_start (show Start.fresh.tree f pm = some t from hbulk)
    · rw [bulkLoad_short _ hnil hlen] at hbulk
      cases hbulk
      exact ⟨_, shape_loadHead f pm kvs, clean_loadHead f pm kvs⟩

/-- The list is durable when the operation returns. -/
def DurableAfter (calls : Nat) (t : Tree) (op : Op) : Prop :=
  ∀ ans t', t.step (calls + 2) op = some (ans, t') → DurableList t'

/-- By induction on the run: every call leaves a durable list exactly when every call meets
the guard. -/
theorem along_durable_iff (h : Shape t as) (hc : Clean t.pm as) :
    Along (step (calls + 2)) (DurableAfter calls) t ops ↔
      Along (step (calls + 2)) PersistGuard t ops := by
  have hall : Along (step (calls + 2)) (fun _ _ => True) t ops :=
    along_of_mem (fun _ _ => trivial) t
  refine Along.iff_along (fun t => ∃ as, Shape t as ∧ Clean t.pm as) ?_ ?_ ⟨as, h, hc⟩ hall
  · rintro t op ⟨as, h, hc⟩ _
    constructor
    · intro hd
      rcases exists_step h calls op with ⟨ans, t', hstep⟩
      exact guard_of_durable h hstep (hd ans t' hstep)
    · intro hg ans t' hstep
      rcases clean_step h hc hg hstep with ⟨as', h', hc'⟩
      exact durable_of_clean h'.walk hc'
  · rintro t op ans t' ⟨as, h, hc⟩ _ hg hstep
    exact clean_step h hc hg hstep

/-- Every run: the list is durable whenever an operation returns exactly when no
`Insert` without a split and no `Update` writes a slot that straddles two lines. -/
theorem durable_run_iff (h : Begun f pm t) (calls : Nat) (ops : List Op) :
    DurableList t ∧ (Along (step (calls + 2)) (DurableAfter calls) t ops ↔
      Along (step (calls + 2)) PersistGuard t ops) := by
  rcases clean_begun h with ⟨as, hsh, hc⟩
  exact ⟨durable_of_clean hsh.walk hc, along_durable_iff hsh hc⟩

set_option maxRecDepth 100000 in
/-- After a load of two pairs the head is still what every key is looked up in: three
operations on the slots `0` and `1` are durable, a third pair is not. -/
theorem two_keys_durable_run : ∃ t, (create false sampleFile blank).bulkLoad [(1, 1), (2, 2)] =
      some t ∧ DurableList t ∧
    Along (step 2) (DurableAfter 0) t [.update 1 5, .remove 2, .insert 3 30] ∧
    ¬ Along (step 2) (DurableAfter 0) t [.insert 3 30] := by
  have hload : ((create false sampleFile blank).bulkLoad [(1, 1), (2, 2)]).isSome := by
    decide +kernel
  have hguard : ∀ t ∈ (create false sampleFile blank).bulkLoad [(1, 1), (2, 2)],
      Along (step 2) PersistGuard t [.update 1 5, .remove 2, .insert 3 30] ∧
        ¬ Along (step 2) PersistGuard t [.insert 3 30] := by
    decide +kernel
  rcases Option.isSome_iff_exists.mp hload with ⟨t, ht⟩
  rcases hguard t ht with ⟨hkept, hbroken⟩
  have hbegun : Begun sampleFile blank t := Or.inr ⟨_, by decide, ht⟩
  rcases durable_run_iff hbegun 0 [.update 1 5, .remove 2, .insert 3 30] with ⟨hdur, hiff⟩
  refine ⟨t, ht, hdur, hiff.mpr hkept, ?_⟩
  intro hbad
  exact hbroken ((durable_run_iff hbegun 0 [.insert 3 30]).2.mp hbad)

set_option maxRecDepth 100000 in
/-- The third `Insert` into an entry puts its value on the second line of the
entry, which is not flushed: a crash may leave the key `3` with the old word `0`
for its value `30`. -/
theorem insert_not_durable : ∃ t img, (runOps (step 2) (create false sampleFile blank)
      [.insert 1 10, .insert 2 20, .insert 3 30]).map Prod.snd = some t ∧
    ¬ DurableList t ∧ t.pm.Image img ∧ Entry.get t.mem t.head 3 = some 30 ∧
    Entry.get img t.head 3 = some 0 := by
  have hsome : (runOps (step 2) (create false sampleFile blank)
      [.insert 1 10, .insert 2 20, .insert 3 30]).isSome := by
    decide +kernel
  -- the value of slot 2 starts the second line of the entry, and only the line of its key is
  -- flushed
  have hend : ∀ x ∈ runOps (step 2) (create false sampleFile blank)
      [.insert 1 10, .insert 2 20, .insert 3 30], x.2.head = 4096 ∧
        x.2.pm.dirty (4096, .val 2) = true ∧ Entry.get x.2.mem x.2.head 3 = some 30 ∧
        Entry.get (setLoc x.2.mem (4096, .val 2) 0) x.2.head 3 = some 0 := by
    decide +kernel
  rcases Option.isSome_iff_exists.mp hsome with ⟨⟨answers, t⟩, hrun⟩
  rcases hend _ hrun with ⟨hhead, hdirty, hvol, hlost⟩
  refine ⟨t, setLoc t.mem (4096, .val 2) 0, by rw [hrun]; rfl, ?_, ?_, hvol, hlost⟩
  · intro hd
    have hreach : Reaches (nextOf t.mem) null t.head 4096 := by
      rw [show t.head = 4096 from hhead]
      exact .here (by decide)
    have hclean := clean_of_durable hd hreach (.val 2) (show 2 < kvsPerEntry by decide)
    rw [hclean] at hdirty
    cases hdirty
  · intro l hl
    rw [setLoc_ne]
    rintro rfl
    rw [hl] at hdirty
    cases hdirty

end Tree

end Epli
