import Epli.Map

/-!
# The states a client starts from

A fresh tree, and a tree that was bulk loaded with more than one entry's worth
of ascending keys. Both are sound; after `BulkLoad` the first separator is the
first key loaded, no longer `INVALID_KEY`.
-/

namespace Epli

open Lib Entry

namespace Tree

variable {f : Mapping} {pm : Pmem Loc Nat}

/-! ## A fresh tree -/

/-- The file is mapped at a page, so at a cache line. -/
theorem mapping_aligned (f : Mapping) : f.addr % 256 = 0 := by
  have := f.addr_page
  omega

/-- The first block of a mapping. -/
theorem create_allocAligned (f : Mapping) (size : Nat) :
    (Alloc.create f).allocAligned size 256 = (f.addr,
      { pmemAddr := f.addr, currentAddr := f.addr + size, mappedLen := f.len
        used := size, freed := 0, mapped_le := f.len_le }) := by
  rw [Alloc.allocAligned_of_aligned (mapping_aligned f)]
  simp [Alloc.create]

/-- `init` is `init_kvs` with no pair. -/
theorem init_eq_initKVs (p x : Nat) : Entry.init p x = initKVs p x [] 0 := by
  simp [Entry.init, initKVs, fillKVs]

/-- The fields of a fresh tree. -/
theorem create_eq (f : Mapping) (pm : Pmem Loc Nat) :
    create false f pm =
      { pm := pm.exec lineOf (initKVs f.addr invalidKey [] 0 ++ memPersist f.addr entrySize)
        alloc := { pmemAddr := f.addr, currentAddr := f.addr + entrySize, mappedLen := f.len
                   used := entrySize, freed := 0, mapped_le := f.len_le }
        head := f.addr
        index := (Multimap.empty : Index).insert invalidKey f.addr } := by
  simp [create, create_allocAligned, init_eq_initKVs]

/-- A fresh tree has one empty entry in its file. -/
theorem create_mem (f : Mapping) (pm : Pmem Loc Nat) :
    (create false f pm).mem = exec pm.vol (initKVs f.addr invalidKey [] 0) := by
  simp [create_eq, mem]

/-- The head of a fresh tree is empty. -/
theorem create_not_proper (f : Mapping) (pm : Pmem Loc Nat) (k : Nat) :
    ¬ ProperKey (create false f pm).mem f.addr k := by
  rintro ⟨hk, i, hi, hki⟩
  have hfill := filled_initKVs pm.vol f.addr 0 invalidKey []
  rw [create_mem, (hfill i hi).1] at hki
  exact hk hki.symm

/-- A fresh tree is sound: the head is registered under separator 0. -/
theorem sound_create (f : Mapping) (pm : Pmem Loc Nat) : Sound (create false f pm) 0 [] := by
  have hno := create_not_proper f pm
  have hhead : (create false f pm).head = f.addr := by rw [create_eq]
  have hnext : (create false f pm).mem (f.addr, .next) = 0 := by
    rw [create_mem]
    simp
  refine ⟨?_, ?_, ?_, ?_⟩
  · rw [hhead]
    refine ⟨?_, ?_, ?_, ?_, ?_, ?_, ?_, ?_⟩
    · rw [create_eq]
      exact f.addr_pos
    · rw [create_eq]
      exact mapping_aligned f
    · rw [create_eq]
    · rw [hhead]
      exact ⟨rfl, Nat.pos_iff_ne_zero.mp f.addr_pos, hnext⟩
    · rw [create_eq]
      simp
    · rw [create_eq]
      simp
    · rw [create_eq]
      simp
    · rw [create_eq]
      simp [Multimap.insert, Multimap.empty, Multimap.insertList]
  · rw [hhead]
    constructor
    -- the only entry is the head, whose slots are all empty
    · intro a ha i hi j hj _ hne
      rw [List.map_nil, List.mem_singleton] at ha
      subst ha
      exact absurd ⟨hne, i, hi, rfl⟩ (hno _)
    · intro a ha b hb hab
      rw [List.map_nil, List.mem_singleton] at ha hb
      exact absurd (ha.trans hb.symm) hab
  · rw [create_eq]
    rfl
  · refine ⟨by simp, by simp, ?_, by simp⟩
    intro x hx k _
    rw [List.mem_singleton] at hx
    rw [hx]
    exact Nat.zero_le k

/-- A fresh tree stores nothing. -/
theorem create_not_stored (f : Mapping) (pm : Pmem Loc Nat) {k : Nat} (hk : k ≠ invalidKey)
    (v : Nat) : ¬ Stored (create false f pm).mem (create false f pm).head k v := by
  intro hst
  rcases (stored_iff (sound_create f pm).shape.walk).mp hst with ⟨a, ha, hh⟩
  have hhead : (create false f pm).head = f.addr := by rw [create_eq]
  rw [List.map_nil, List.mem_singleton, hhead] at ha
  subst ha
  exact create_not_proper f pm k ⟨hk, hh.hasKey⟩

/-! ## The loop of `BulkLoad` -/

/-- Address of the `j`-th block of a mapping. -/
def block (base j : Nat) : Nat := base + entrySize * j

/-- First key of the `j`-th chunk. -/
def chunkKey (kvs : List KV) (j : Nat) : Nat := ((kvs.drop (j * kvsPerEntry)).getD 0 (0, 0)).1

/-- The state of the loop when the chunks `0 .. i` are in place. -/
structure Loaded (kvs : List KV) (base i : Nat) (s : Tree × Nat × List (Nat × Nat)) : Prop where
  pmemAddr : s.1.alloc.pmemAddr = base
  cursor : s.1.alloc.currentAddr = block base (i + 1)
  used : s.1.alloc.used = entrySize * (i + 1)
  head : s.1.head = base
  index : s.1.index.kvs = []
  cur : s.2.1 = block base i
  indexKvs : s.2.2 = (List.range (i + 1)).map fun j => (chunkKey kvs j, block base j)
  walk : Walk (nextOf s.1.mem) null base ((List.range (i + 1)).map (block base))
  filled : ∀ j ≤ i, Filled s.1.mem (block base j) (kvs.drop (j * kvsPerEntry))
    (min (kvs.length - j * kvsPerEntry) kvsPerEntry)
  minKey : ∀ j ≤ i, s.1.mem (block base j, .minKey) = chunkKey kvs j

/-- Different blocks have different numbers. -/
theorem block_inj {base i j : Nat} : block base i = block base j ↔ i = j := by
  simp only [block, entrySize]
  omega

/-- One round of the loop: the new entry is built in the next block and linked
behind `cur`. -/
theorem bulkLoadStep_eq {t : Tree} (hal : t.alloc.currentAddr % 256 = 0) (kvs : List KV)
    (cur : Nat) (indexKvs : List (Nat × Nat)) (i : Nat) :
    ∃ t', bulkLoadStep kvs (t, cur, indexKvs) i =
        (t', t.alloc.currentAddr, indexKvs ++ [(chunkKey kvs i, t.alloc.currentAddr)]) ∧
      t'.alloc = { t.alloc with
        used := t.alloc.used + entrySize, currentAddr := t.alloc.currentAddr + entrySize } ∧
      t'.head = t.head ∧ t'.index = t.index ∧
      t'.pm = t.pm.exec lineOf (initKVs t.alloc.currentAddr (chunkKey kvs i)
          (kvs.drop (i * kvsPerEntry)) (min (kvs.length - i * kvsPerEntry) kvsPerEntry)
        ++ [.store (cur, .next) t.alloc.currentAddr] ++ memPersist cur entrySize) := by
  refine ⟨(bulkLoadStep kvs (t, cur, indexKvs) i).1, ?_, ?_, rfl, rfl, ?_⟩
  · simp [bulkLoadStep, Alloc.allocAligned_of_aligned hal, chunkKey]
  · simp [bulkLoadStep, Alloc.allocAligned_of_aligned hal]
  · simp [bulkLoadStep, Alloc.allocAligned_of_aligned hal, chunkKey, run]

/-- One round of the loop. -/
theorem loaded_step {kvs : List KV} {base i : Nat} {s : Tree × Nat × List (Nat × Nat)}
    (hpos : 0 < base) (halign : base % 256 = 0) (h : Loaded kvs base i s) :
    Loaded kvs base (i + 1) (bulkLoadStep kvs s (i + 1)) := by
  rcases s with ⟨t, cur, indexKvs⟩
  rcases h with ⟨hpm, hcursor, hused, hhead, hindex, rfl, rfl, hwalk, hfilled, hmin⟩
  simp only at hpm hcursor hused hhead hindex hwalk hfilled hmin
  have hal : t.alloc.currentAddr % 256 = 0 := by
    rw [hcursor, block, entrySize]
    omega
  have hne : ∀ j ≤ i, block base j ≠ block base (i + 1) := by
    intro j hj heq
    rw [block_inj] at heq
    omega
  obtain ⟨t', heq, halloc', hhead', hindex', hpm'⟩ := bulkLoadStep_eq hal kvs (block base i)
    ((List.range (i + 1)).map fun j => (chunkKey kvs j, block base j)) (i + 1)
  rw [hcursor] at heq hpm'
  rw [heq]
  -- the memory after the round: the new block, then one link
  have hmem : t'.mem = setLoc (exec t.mem (initKVs (block base (i + 1)) (chunkKey kvs (i + 1))
      (kvs.drop ((i + 1) * kvsPerEntry))
      (min (kvs.length - (i + 1) * kvsPerEntry) kvsPerEntry)))
      (block base i, .next) (block base (i + 1)) := by
    simp [mem, hpm', Ev.apply]
  have hold : ∀ j ≤ i, ∀ fld, (fld = .next → j ≠ i) →
      t'.mem (block base j, fld) = t.mem (block base j, fld) := by
    intro j hj fld hfld
    rw [hmem, setLoc_ne, exec_initKVs_ne _ _ _ _ _ _ (hne j hj)]
    intro heq
    rcases Prod.mk.inj heq with ⟨hb, hf⟩
    exact hfld hf (block_inj.mp hb)
  have hnew : ∀ fld, t'.mem (block base (i + 1), fld) =
      exec t.mem (initKVs (block base (i + 1)) (chunkKey kvs (i + 1))
        (kvs.drop ((i + 1) * kvsPerEntry))
        (min (kvs.length - (i + 1) * kvsPerEntry) kvsPerEntry)) (block base (i + 1), fld) := by
    intro fld
    rw [hmem, setLoc_ne]
    intro heq
    exact hne i le_rfl (Prod.mk.inj heq).1.symm
  constructor
  · show t'.alloc.pmemAddr = base
    rw [halloc']
    exact hpm
  · show t'.alloc.currentAddr = _
    rw [halloc']
    show t.alloc.currentAddr + entrySize = _
    rw [hcursor]
    simp only [block, entrySize]
    omega
  · show t'.alloc.used = _
    rw [halloc']
    show t.alloc.used + entrySize = _
    rw [hused]
    rfl
  · exact hhead'.trans hhead
  · show t'.index.kvs = []
    rw [hindex', hindex]
  · rfl
  · show _ = (List.range (i + 1 + 1)).map _
    rw [List.range_succ (n := i + 1), List.map_append]
    rfl
  · -- the new block is linked behind the last one
    have hsplit : (List.range (i + 1)).map (block base) =
        (List.range i).map (block base) ++ [block base i] := by
      rw [List.range_succ, List.map_append]
      rfl
    have hnodup : ((List.range (i + 1)).map (block base)).Nodup :=
      List.Nodup.map_on (fun a _ b _ hab => block_inj.mp hab) List.nodup_range
    have hlt : ∀ a ∈ (List.range (i + 1)).map (block base), ∃ j ≤ i, a = block base j := by
      intro a ha
      rcases List.mem_map.mp ha with ⟨j, hj, rfl⟩
      rw [List.mem_range] at hj
      exact ⟨j, by omega, rfl⟩
    have hgoal : (List.range (i + 1 + 1)).map (block base) =
        (List.range i).map (block base) ++ [block base i, block base (i + 1)] := by
      rw [List.range_succ, List.map_append, hsplit, List.append_assoc]
      rfl
    show Walk (nextOf t'.mem) null base _
    rw [hgoal]
    rw [hsplit] at hwalk hnodup hlt
    refine walk_snoc ?_ ?_ ?_ hnodup ?_ (walk_last hwalk) ?_ hwalk
    · show block base (i + 1) ≠ 0
      simp only [block]
      omega
    · rw [nextOf, hmem, setLoc_self]
    · rw [nextOf, hnew, exec_initKVs_next]
    · intro hmem'
      rcases hlt _ hmem' with ⟨j, hj, heq⟩
      exact hne j hj heq.symm
    · intro c hc hci
      rcases hlt c hc with ⟨j, hj, rfl⟩
      refine hold j hj .next fun _ hji => hci ?_
      rw [hji]
  · intro j hj
    rcases Nat.lt_or_ge i j with hij | hij
    · have hj' : j = i + 1 := by omega
      subst hj'
      refine filled_congr (filled_initKVs t.mem _ _ (chunkKey kvs (i + 1)) _) ?_ ?_
      · intro l
        exact hnew _
      · intro l
        exact hnew _
    · refine filled_congr (hfilled j hij) ?_ ?_
      · intro l
        exact hold j hij _ (by simp)
      · intro l
        exact hold j hij _ (by simp)
  · intro j hj
    show t'.mem _ = _
    rcases Nat.lt_or_ge i j with hij | hij
    · have hj' : j = i + 1 := by omega
      subst hj'
      rw [hnew, exec_initKVs_minKey]
    · rw [hold j hij _ (by simp)]
      exact hmin j hij

/-- What the loop starts from: the first chunk is in the head, and the index has
lost its first separator but not its payload. -/
def loadHead (t : Tree) (kvs : List KV) : Tree × Nat × List (Nat × Nat) :=
  let t' := t.run (setOrderedKVs t.head kvs (min kvs.length kvsPerEntry)
    ++ memPersist t.head entrySize)
  ({ t' with index := t.index.erase invalidKey, vacated := t'.lookup invalidKey }, t.head,
    [(t'.mem (t.head, .minKey), t.head)])

/-- The state after `m` rounds. -/
def loadRounds (t : Tree) (kvs : List KV) (m : Nat) : Tree × Nat × List (Nat × Nat) :=
  (List.range' 1 m).foldl (bulkLoadStep kvs) (loadHead t kvs)

/-- `BulkLoad` of more than one entry is the loop, the construction of the index
and the write back of the last entry. -/
theorem bulkLoad_eq (t : Tree) {kvs : List KV} (hlen : kvsPerEntry < kvs.length) :
    t.bulkLoad kvs = ((loadRounds t kvs ((kvs.length - 1) / kvsPerEntry)).1.index.bulkLoad
        (loadRounds t kvs ((kvs.length - 1) / kvsPerEntry)).2.2).map fun index =>
      { (loadRounds t kvs ((kvs.length - 1) / kvsPerEntry)).1 with
        index := index, vacated := none }.run
        (memPersist (loadRounds t kvs ((kvs.length - 1) / kvsPerEntry)).2.1 entrySize) := by
  have h0 : kvs.length ≠ 0 := by omega
  have h1 : ¬ kvs.length ≤ kvsPerEntry := by omega
  rw [bulkLoad, if_neg h0, if_neg h1]
  rfl

/-- The first chunk goes into the head. -/
theorem loaded_loadHead (f : Mapping) (pm : Pmem Loc Nat) (kvs : List KV) :
    Loaded kvs f.addr 0 (loadHead (create false f pm) kvs) := by
  have hhead : (create false f pm).head = f.addr := by rw [create_eq]
  have hmem : (loadHead (create false f pm) kvs).1.mem =
      exec (create false f pm).mem
        (setOrderedKVs f.addr kvs (min kvs.length kvsPerEntry)) := by
    simp [loadHead, mem, hhead, run]
  have hfirst : chunkKey kvs 0 = (kvs.getD 0 (0, 0)).1 := by simp [chunkKey]
  have hblock : block f.addr 0 = f.addr := by simp [block]
  -- the erased entry was the only one, so the index is empty until the blocks are registered
  constructor
  · simp [loadHead, create_eq]
  · simp [loadHead, create_eq, block]
  · simp [loadHead, create_eq]
  · exact hhead
  · simp [loadHead, create_eq, Multimap.erase, Multimap.insert, Multimap.insertList,
      Multimap.empty]
  · rw [hblock]
    exact hhead
  · simp [loadHead, hhead, hfirst, hblock]
  · rw [hmem]
    refine ⟨hblock.symm, ?_, ?_⟩
    · rw [hblock]
      exact Nat.pos_iff_ne_zero.mp f.addr_pos
    · rw [nextOf, hblock, exec_setOrderedKVs_next, create_mem]
      simp [Walk]
  · intro j hj
    have hj0 : j = 0 := by omega
    subst hj0
    rw [hmem, hblock]
    simpa using filled_setOrderedKVs (create false f pm).mem f.addr _ kvs
  · intro j hj
    have hj0 : j = 0 := by omega
    subst hj0
    rw [hmem, hblock, exec_setOrderedKVs_minKey, hfirst]

/-- `BulkLoad` of what fits into the head returns before the loop. -/
theorem bulkLoad_short (t : Tree) {kvs : List KV} (hne : kvs ≠ [])
    (hlen : kvs.length ≤ kvsPerEntry) : t.bulkLoad kvs = some (loadHead t kvs).1 := by
  have h0 : kvs.length ≠ 0 := by simpa using hne
  rw [bulkLoad, if_neg h0, if_pos hlen]
  rfl

/-- In a fresh tree the index answers with the head for every key. -/
theorem create_lookup (f : Mapping) (pm : Pmem Loc Nat) (k : Nat) :
    (create false f pm).lookup k = some f.addr := by
  have hs := sound_create f pm
  rcases hs.shape.exists_lookup k with ⟨p, hp, hmem⟩
  rw [List.map_nil, List.mem_singleton] at hmem
  rw [hp, hmem, create_eq]

/-- The head is all that a short load leaves, and slot 0 of the index still has it. -/
theorem shape_loadHead (f : Mapping) (pm : Pmem Loc Nat) (kvs : List KV) :
    Shape (loadHead (create false f pm) kvs).1 [f.addr] := by
  have hload := loaded_loadHead f pm kvs
  have hwalk := hload.walk
  have hblock : (List.range (0 + 1)).map (block f.addr) = [f.addr] := by simp [block]
  have hvacated : (loadHead (create false f pm) kvs).1.vacated = some f.addr := by
    simp only [loadHead, run_lookup, create_lookup]
  rw [hblock] at hwalk
  -- the blocks are as in any loaded tree; the payload left over is the head
  constructor
  · rw [hload.pmemAddr]
    exact f.addr_pos
  · rw [hload.pmemAddr]
    exact mapping_aligned f
  · rw [hload.pmemAddr, hload.head]
  · rw [hload.head]
    exact hwalk
  · rw [hload.pmemAddr]
    simp
  · rw [hload.pmemAddr, hload.cursor]
    rfl
  · rw [hload.used]
    rfl
  · rw [hvacated, hload.index]
    exact List.Perm.refl _

/-- Every round of the loop. -/
theorem loaded_loadRounds (f : Mapping) (pm : Pmem Loc Nat) (kvs : List KV) (m : Nat) :
    Loaded kvs f.addr m (loadRounds (create false f pm) kvs m) := by
  induction m with
  | zero => exact loaded_loadHead f pm kvs
  | succ m ih =>
    have hstep := loaded_step f.addr_pos (mapping_aligned f) ih
    rw [loadRounds, List.range'_1_concat, List.foldl_append, Nat.add_comm 1 m]
    exact hstep

/-! ## The loaded tree -/

section Chunks

variable {kvs : List KV} {base m j i k v : Nat} {s : Tree × Nat × List (Nat × Nat)}

/-- The separator of chunk `j` is the key of its first pair. -/
theorem chunkKey_eq (kvs : List KV) (j : Nat) :
    chunkKey kvs j = (kvs.getD (j * kvsPerEntry) (0, 0)).1 := by
  simp [chunkKey, List.getD_eq_getElem?_getD]

/-- Ascending keys, by position. -/
theorem getD_lt (hasc : kvs.Pairwise fun a b => a.1 < b.1) (hij : i < j) (hj : j < kvs.length) :
    (kvs.getD i (0, 0)).1 < (kvs.getD j (0, 0)).1 := by
  rw [List.getD_eq_getElem _ _ (by omega), List.getD_eq_getElem _ _ hj]
  exact List.pairwise_iff_getElem.mp hasc i j _ hj hij

/-- What the `j`-th block holds: the pairs at the positions of its chunk. -/
theorem Loaded.holds_iff (h : Loaded kvs base m s) (hj : j ≤ m) (hk : k ≠ invalidKey) :
    Holds s.1.mem (block base j) k v ↔
      ∃ i < kvsPerEntry, j * kvsPerEntry + i < kvs.length ∧
        kvs.getD (j * kvsPerEntry + i) (0, 0) = (k, v) := by
  have hn : min (kvs.length - j * kvsPerEntry) kvsPerEntry ≤
      (kvs.drop (j * kvsPerEntry)).length := by
    rw [List.length_drop]
    exact min_le_left _ _
  rw [holds_of_filled (h.filled j hj) (min_le_right _ _) hn hk, List.mem_take_iff_getElem]
  constructor
  · rintro ⟨i, hi, hx⟩
    have hlen : j * kvsPerEntry + i < kvs.length := by
      rw [List.length_drop] at hi
      omega
    refine ⟨i, by omega, hlen, ?_⟩
    rw [List.getD_eq_getElem _ _ hlen, ← hx, List.getElem_drop]
  · rintro ⟨i, hi, hlen, hx⟩
    refine ⟨i, ?_, ?_⟩
    · rw [List.length_drop]
      omega
    · rw [List.getElem_drop, ← List.getD_eq_getElem _ (0, 0) hlen, hx]

/-- A key of a loaded entry comes from the entry's chunk. -/
theorem Loaded.hasKey (h : Loaded kvs base m s) (hj : j ≤ m) (hk : k ≠ invalidKey)
    (hh : HasKey s.1.mem (block base j) k) :
    ∃ i < kvsPerEntry, j * kvsPerEntry + i < kvs.length ∧
      (kvs.getD (j * kvsPerEntry + i) (0, 0)).1 = k := by
  rcases hh.exists_holds with ⟨v, hv⟩
  rcases (h.holds_iff hj hk).mp hv with ⟨i, hi, hlen, hx⟩
  exact ⟨i, hi, hlen, by rw [hx]⟩

/-- The lower bounds of the cells after the load. -/
def lowBound (kvs : List KV) (j : Nat) : Nat := if j = 0 then 0 else chunkKey kvs j

/-- The lower bound of a chunk is at most its first key. -/
theorem lowBound_le (kvs : List KV) (j : Nat) : lowBound kvs j ≤ chunkKey kvs j := by
  unfold lowBound
  split
  · exact Nat.zero_le _
  · exact le_rfl

/-- The first keys of the chunks ascend. -/
theorem chunkKey_lt (hasc : kvs.Pairwise fun a b => a.1 < b.1) (hij : i < j)
    (hj : j * kvsPerEntry < kvs.length) : chunkKey kvs i < chunkKey kvs j := by
  rw [chunkKey_eq, chunkKey_eq]
  refine getD_lt hasc ?_ hj
  rw [kvsPerEntry_eq]
  omega

/-- The lower bounds of the chunks ascend. -/
theorem lowBound_lt (hasc : kvs.Pairwise fun a b => a.1 < b.1) (hij : i < j)
    (hj : j * kvsPerEntry < kvs.length) : lowBound kvs i < lowBound kvs j := by
  have hlow : lowBound kvs j = chunkKey kvs j := if_neg (by omega)
  rw [hlow]
  exact lt_of_le_of_lt (lowBound_le kvs i) (chunkKey_lt hasc hij hj)

/-- The keys of an entry are at or above its chunk's first key. -/
theorem Loaded.low (h : Loaded kvs base m s) (hasc : kvs.Pairwise fun a b => a.1 < b.1)
    (hj : j ≤ m) (hk : Bounded s.1.mem (block base j) k) : chunkKey kvs j ≤ k := by
  rcases hk with ⟨hk, hh⟩ | hmin
  · rcases h.hasKey hj hk hh with ⟨i, hi, hlen, rfl⟩
    rw [chunkKey_eq]
    rcases Nat.eq_zero_or_pos i with rfl | hi0
    · exact le_rfl
    · exact le_of_lt (getD_lt hasc (by omega) hlen)
  · rw [hmin, h.minKey j hj]

/-- The keys of an entry are below the first key of every later chunk. -/
theorem Loaded.high (h : Loaded kvs base m s) (hasc : kvs.Pairwise fun a b => a.1 < b.1)
    (hij : i < j) (hj : j ≤ m) (hm : m * kvsPerEntry < kvs.length)
    (hk : Bounded s.1.mem (block base i) k) : k < chunkKey kvs j := by
  have hjm : j * kvsPerEntry ≤ m * kvsPerEntry := Nat.mul_le_mul_right _ hj
  have hij' : (i + 1) * kvsPerEntry ≤ j * kvsPerEntry := Nat.mul_le_mul_right _ hij
  rw [Nat.add_one_mul] at hij'
  rcases hk with ⟨hk, hh⟩ | hmin
  · rcases h.hasKey (by omega) hk hh with ⟨l, hl, hlen, rfl⟩
    rw [chunkKey_eq]
    exact getD_lt hasc (by omega) (by omega)
  · rw [hmin, h.minKey i (by omega)]
    exact chunkKey_lt hasc hij (by omega)

/-- The chunks partition the keys. -/
theorem Loaded.cells (h : Loaded kvs base m s) (hasc : kvs.Pairwise fun a b => a.1 < b.1)
    (hm : m * kvsPerEntry < kvs.length) :
    Partition ((List.range (m + 1)).map fun j => (lowBound kvs j, block base j))
      (Bounded s.1.mem) := by
  have hmul : ∀ j ≤ m, j * kvsPerEntry < kvs.length := by
    intro j hj
    exact lt_of_le_of_lt (Nat.mul_le_mul_right _ hj) hm
  -- each chunk starts above all that the chunks before it hold
  refine ⟨?_, ?_, ?_, ?_⟩
  · rw [List.map_map]
    exact List.Nodup.map_on (fun a _ b _ hab => block_inj.mp hab) List.nodup_range
  · rw [List.pairwise_map]
    refine List.pairwise_lt_range.imp_of_mem ?_
    intro i j _ hj hij
    rw [List.mem_range] at hj
    exact lowBound_lt hasc hij (hmul j (by omega))
  · intro x hx k hk
    rcases List.mem_map.mp hx with ⟨j, hj, rfl⟩
    rw [List.mem_range] at hj
    exact (lowBound_le kvs j).trans (h.low hasc (by omega) hk)
  · rw [List.pairwise_map]
    refine List.pairwise_lt_range.imp_of_mem ?_
    intro i j _ hj hij k hk
    rw [List.mem_range] at hj
    have hlow : lowBound kvs j = chunkKey kvs j := if_neg (by omega)
    rw [hlow]
    exact h.high hasc hij (by omega) hm hk

/-- No key of a strictly ascending list is loaded twice. -/
theorem Loaded.unique (h : Loaded kvs base m s) (hasc : kvs.Pairwise fun a b => a.1 < b.1)
    (hm : m * kvsPerEntry < kvs.length) :
    Unique s.1.mem ((List.range (m + 1)).map (block base)) := by
  constructor
  · intro a ha
    rcases List.mem_map.mp ha with ⟨j, hj, rfl⟩
    rw [List.mem_range] at hj
    refine distinct_of_filled (h.filled j (by omega)) ?_ ?_
    · rw [List.length_drop]
      exact min_le_left _ _
    · refine List.Pairwise.imp ?_ hasc.drop
      intro a b hlt _
      exact hlt
  · intro a ha b hb hab k hk hka hkb
    rcases List.mem_map.mp ha with ⟨i, hi, rfl⟩
    rcases List.mem_map.mp hb with ⟨j, hj, rfl⟩
    rw [List.mem_range] at hi hj
    -- the lower block's keys are below the first key of the other one
    rcases lt_trichotomy i j with hij | rfl | hij
    · have h1 := h.high hasc hij (by omega) hm (hka.bounded hk)
      have h2 := h.low hasc (by omega) (hkb.bounded hk)
      omega
    · exact hab rfl
    · have h1 := h.high hasc hij (by omega) hm (hkb.bounded hk)
      have h2 := h.low hasc (by omega) (hka.bounded hk)
      omega

/-- The loaded list stores the pairs of the array. -/
theorem Loaded.stored_iff (h : Loaded kvs base m s) (hm : kvs.length ≤ (m + 1) * kvsPerEntry)
    (hk : k ≠ invalidKey) : Stored s.1.mem base k v ↔ (k, v) ∈ kvs := by
  rw [Epli.stored_iff h.walk]
  constructor
  · rintro ⟨a, ha, hh⟩
    rcases List.mem_map.mp ha with ⟨j, hj, rfl⟩
    rw [List.mem_range] at hj
    rcases (h.holds_iff (by omega) hk).mp hh with ⟨i, hi, hlen, hx⟩
    rw [← hx, List.getD_eq_getElem _ _ hlen]
    exact List.getElem_mem _
  · intro hmem
    rcases List.getElem_of_mem hmem with ⟨l, hl, hx⟩
    rw [kvsPerEntry_eq] at hm
    -- position `l` is slot `l % 14` of block `l / 14`
    refine ⟨block base (l / kvsPerEntry), ?_, ?_⟩
    · refine List.mem_map_of_mem (List.mem_range.mpr ?_)
      rw [kvsPerEntry_eq]
      omega
    · have hpos : l / kvsPerEntry * kvsPerEntry + l % kvsPerEntry = l := Nat.div_add_mod' l _
      refine (h.holds_iff ?_ hk).mpr ⟨l % kvsPerEntry, Nat.mod_lt _ (by decide), ?_, ?_⟩
      · rw [kvsPerEntry_eq]
        omega
      · rw [hpos]
        exact hl
      · rw [hpos, List.getD_eq_getElem _ _ hl, hx]

end Chunks

variable {kvs : List KV}

/-- The cells of a bulk loaded tree after the first one. -/
def loadedRest (kvs : List KV) (base m : Nat) : List (Nat × Nat) :=
  (List.range m).map fun j => (chunkKey kvs (j + 1), block base (j + 1))

/-- A range mapped, with its first element split off. -/
theorem map_range_succ {α : Type} (g : Nat → α) (m : Nat) :
    (List.range (m + 1)).map g = g 0 :: (List.range m).map fun j => g (j + 1) := by
  rw [List.range_succ_eq_map, List.map_cons, List.map_map]
  rfl

/-- The registered blocks and the head make up the list. -/
theorem loadedRest_snd (kvs : List KV) (base m : Nat) :
    base :: (loadedRest kvs base m).map Prod.snd = (List.range (m + 1)).map (block base) := by
  rw [map_range_succ, loadedRest, List.map_map]
  simp [block]

/-- Index of the last chunk. -/
def lastChunk (kvs : List KV) : Nat := (kvs.length - 1) / kvsPerEntry

/-- The last chunk is not empty. -/
theorem lastChunk_lt (hlen : 0 < kvs.length) :
    lastChunk kvs * kvsPerEntry < kvs.length := by
  rw [lastChunk, kvsPerEntry_eq]
  omega

/-- The pairs all fit up to the last chunk. -/
theorem le_lastChunk (kvs : List KV) : kvs.length ≤ (lastChunk kvs + 1) * kvsPerEntry := by
  rw [lastChunk, kvsPerEntry_eq]
  omega

/-- The pairs that `bulk_load` gets are in key order. -/
theorem chunkKeys_ascending {m : Nat} (hasc : kvs.Pairwise fun a b => a.1 < b.1)
    (hm : m * kvsPerEntry < kvs.length) (base : Nat) :
    ((List.range (m + 1)).map fun j => (chunkKey kvs j, block base j)).Pairwise
      fun a b => a.1 < b.1 := by
  rw [List.pairwise_map]
  refine List.pairwise_lt_range.imp_of_mem ?_
  intro i j _ hj hij
  rw [List.mem_range] at hj
  exact chunkKey_lt hasc hij (lt_of_le_of_lt (Nat.mul_le_mul_right _ (by omega)) hm)

/-- `BulkLoad` of more than one entry's worth of ascending keys into a fresh tree:
the loop state it ends with, and the tree it leaves. -/
theorem bulkLoad_loaded (f : Mapping) (pm : Pmem Loc Nat) (hlen : kvsPerEntry < kvs.length)
    (hasc : kvs.Pairwise fun a b => a.1 < b.1) :
    ∃ t, (create false f pm).bulkLoad kvs = some t ∧
      t.pm = (loadRounds (create false f pm) kvs (lastChunk kvs)).1.pm.exec lineOf
        (memPersist (block f.addr (lastChunk kvs)) entrySize) ∧
      t.alloc = (loadRounds (create false f pm) kvs (lastChunk kvs)).1.alloc ∧
      t.head = f.addr ∧
      t.index.kvs = (chunkKey kvs 0, f.addr) :: loadedRest kvs f.addr (lastChunk kvs) := by
  have hload := loaded_loadRounds f pm kvs (lastChunk kvs)
  have hm := lastChunk_lt (Nat.zero_lt_of_lt hlen)
  have hsorted := chunkKeys_ascending hasc hm f.addr
  -- the emptied index takes the chunk keys because they ascend strictly
  have hbulk : (loadRounds (create false f pm) kvs (lastChunk kvs)).1.index.bulkLoad
      (loadRounds (create false f pm) kvs (lastChunk kvs)).2.2 =
      some ⟨_, hsorted.imp le_of_lt⟩ := by
    rw [hload.indexKvs, Multimap.bulkLoad, if_neg, dif_pos hsorted]
    rw [hload.index]
    simp
  refine ⟨{ (loadRounds (create false f pm) kvs (lastChunk kvs)).1 with
    index := ⟨_, hsorted.imp le_of_lt⟩, vacated := none }.run
      (memPersist (loadRounds (create false f pm) kvs (lastChunk kvs)).2.1 entrySize),
    ?_, ?_, rfl, hload.head, ?_⟩
  · rw [bulkLoad_eq _ hlen]
    show Option.map _ ((loadRounds _ kvs (lastChunk kvs)).1.index.bulkLoad
      (loadRounds _ kvs (lastChunk kvs)).2.2) = _
    rw [hbulk]
    rfl
  · rw [← hload.cur]
    rfl
  · show (List.range (lastChunk kvs + 1)).map _ = _
    rw [map_range_succ]
    simp [loadedRest, block]

/-- `bulk_load` leaves nothing in slot 0. -/
theorem bulkLoad_vacated {t t' : Tree} (hlen : kvsPerEntry < kvs.length)
    (h : t.bulkLoad kvs = some t') : t'.vacated = none := by
  rw [bulkLoad_eq t hlen, Option.map_eq_some_iff] at h
  rcases h with ⟨index, _, rfl⟩
  rfl

/-- A tree over loaded blocks whose index has their first keys is sound. -/
theorem Loaded.sound {base m : Nat} {s : Tree × Nat × List (Nat × Nat)} {t : Tree}
    (h : Loaded kvs base m s) (hasc : kvs.Pairwise fun a b => a.1 < b.1)
    (hm : m * kvsPerEntry < kvs.length) (hpos : 0 < base) (halign : base % 256 = 0)
    (hmem : t.mem = s.1.mem) (halloc : t.alloc = s.1.alloc) (hhead : t.head = base)
    (hindex : t.index.kvs = (chunkKey kvs 0, base) :: loadedRest kvs base m)
    (hvacated : t.vacated = none) :
    Sound t (chunkKey kvs 0) (loadedRest kvs base m) := by
  have hsnd := loadedRest_snd kvs base m
  refine ⟨?_, ?_, ?_, ?_⟩
  · rw [hhead, hsnd]
    refine ⟨?_, ?_, ?_, ?_, ?_, ?_, ?_, ?_⟩
    · rw [halloc, h.pmemAddr]
      exact hpos
    · rw [halloc, h.pmemAddr]
      exact halign
    · rw [hhead, halloc, h.pmemAddr]
    · rw [hhead, hmem]
      exact h.walk
    · rw [halloc, h.pmemAddr, List.length_map, List.length_range]
      exact List.Perm.refl _
    · rw [halloc, h.pmemAddr, h.cursor, List.length_map, List.length_range]
      rfl
    · rw [halloc, h.used, List.length_map, List.length_range]
    · rw [hvacated, hindex, List.map_cons, hsnd]
      exact List.Perm.refl _
  -- the chunks have no key in common
  · rw [hhead, hsnd, hmem]
    exact h.unique hasc hm
  · rw [hindex, hhead]
  -- and the key of each chunk bounds the keys of the next ones from below
  · have hcells := h.cells hasc hm
    rw [map_range_succ] at hcells
    rw [hhead, hmem]
    simpa [lowBound, loadedRest, block] using hcells

/-- A bulk loaded tree is sound, and stores the pairs it was loaded with. -/
theorem sound_bulkLoad (f : Mapping) (pm : Pmem Loc Nat) (hlen : kvsPerEntry < kvs.length)
    (hasc : kvs.Pairwise fun a b => a.1 < b.1) :
    ∃ t, (create false f pm).bulkLoad kvs = some t ∧
      Sound t (chunkKey kvs 0) (loadedRest kvs f.addr (lastChunk kvs)) ∧
      ∀ k v, k ≠ invalidKey → (Stored t.mem t.head k v ↔ (k, v) ∈ kvs) := by
  rcases bulkLoad_loaded f pm hlen hasc with ⟨t, hbulk, hpm, halloc, hhead, hindex⟩
  have hload := loaded_loadRounds f pm kvs (lastChunk kvs)
  have hm := lastChunk_lt (Nat.zero_lt_of_lt hlen)
  have hmem : t.mem = (loadRounds (create false f pm) kvs (lastChunk kvs)).1.mem := by
    simp [mem, hpm]
  refine ⟨t, hbulk, ?_, ?_⟩
  · exact hload.sound hasc hm f.addr_pos (mapping_aligned f) hmem halloc hhead hindex
      (bulkLoad_vacated hlen hbulk)
  · intro k v hk
    rw [hhead, hmem]
    exact hload.stored_iff (le_lastChunk kvs) hk

end Tree

end Epli
