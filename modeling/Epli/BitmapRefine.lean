import Epli.BitmapSim

/-!
# The bitmap build refines the default build

Both builds start alike, fresh or bulk loaded (`LoadedSim` carries the two loops of
`BulkLoad` side by side), and `Sim` then carries whole runs: the same answers, and no
stored pair overwritten, as long as every `Insert` goes to an entry whose bitmap
covers its slots.
-/

namespace Epli

open Lib Entry

namespace BitmapTree

variable {t : Tree} {b : BitmapTree} {op : Op}

/-! ## The states a client starts from -/

/-- The tree a client of this build starts with. -/
def start (f : Mapping) (pm : Pmem Loc Nat) : Tree.Start → Option BitmapTree
  | .fresh => some (create false f pm)
  | .bulk kvs _ _ => (create false f pm).bulkLoad kvs

/-- The loaded keys are keys a client may use. -/
def ValidStart : Tree.Start → Prop
  | .fresh => True
  | .bulk kvs _ _ => ∀ x ∈ kvs, ValidKey x.1

variable {f : Mapping} {pm : Pmem Loc Nat} {kvs : List KV} {base : Nat}

theorem create_eq (f : Mapping) (pm : Pmem Loc Nat) :
    create false f pm =
      { pm := (Tree.create false f pm).pm
        alloc := (Tree.create false f pm).alloc
        head := f.addr
        index := (Multimap.empty : Index).insert invalidKey 0
        metas := fun _ => MetaData.create f.addr f.addr
        newMetas := 1
        baseAddr := f.addr } := by
  simp [create, Tree.create, Tree.create_allocAligned]

theorem sim_create (f : Mapping) (pm : Pmem Loc Nat) :
    Sim (Tree.create false f pm) (create false f pm) := by
  have hentry : (create false f pm).entryOf 0 = f.addr := by
    rw [create_eq]
    simp [entryOf, MetaData.entry, MetaData.create]
  have hkvs : (create false f pm).index.kvs = [(invalidKey, 0)] := by
    rw [create_eq]
    rfl
  refine ⟨⟨_, (Tree.sound_create f pm).shape⟩, (Tree.sound_create f pm).routed.vacated,
    ?_, ?_, ?_, ?_, ?_, ?_, ?_⟩
  · rw [create_eq]
  · rw [create_eq]
  · rw [create_eq, Tree.create_eq]
  · rw [create_eq, Tree.create_eq]
  -- the one pair of each index: the head on the left, its meta-data on the right
  · rw [hkvs, Tree.create_eq]
    simp [Multimap.insert, Multimap.insertList, Multimap.empty, hentry]
  · intro x hx
    rw [hkvs, List.mem_singleton] at hx
    rw [hx, create_eq]
    exact Nat.one_pos
  · intro x hx
    refine ⟨0, by decide, ?_, by simp⟩
    rw [create_eq]
    show (0x0000 : UInt16) = mask 0
    decide

/-- The two loops of `BulkLoad` after the chunks `0 .. i`. -/
structure LoadedSim (kvs : List KV) (base i : Nat) (s : Tree × Nat × List (Nat × Nat))
    (sb : BitmapTree × Nat × List (Nat × Nat)) : Prop where
  mem : sb.1.mem = s.1.mem
  alloc : sb.1.alloc = s.1.alloc
  head : sb.1.head = s.1.head
  baseAddr : sb.1.baseAddr = base
  index : sb.1.index.kvs = []
  cur : sb.2.1 = s.2.1
  newMetas : sb.1.newMetas = i + 2
  indexKvs : sb.2.2 = (List.range (i + 1)).map fun j => (Tree.chunkKey kvs j, j + 1)
  metas : ∀ j ≤ i, sb.1.metas (j + 1) = (MetaData.create base (Tree.block base j)).resetNBitmap
    (min (kvs.length - j * kvsPerEntry) kvsPerEntry)

/-- One round of the loop. -/
theorem bulkLoadStep_eq (hal : b.alloc.currentAddr % 256 = 0) (kvs : List KV) (cur : Nat)
    (indexKvs : List (Nat × Nat)) (i : Nat) :
    ∃ b', bulkLoadStep kvs (b, cur, indexKvs) i =
        (b', b.alloc.currentAddr, indexKvs ++ [(Tree.chunkKey kvs i, b.newMetas)]) ∧
      b'.alloc = { b.alloc with
        used := b.alloc.used + entrySize, currentAddr := b.alloc.currentAddr + entrySize } ∧
      b'.head = b.head ∧ b'.baseAddr = b.baseAddr ∧ b'.index = b.index ∧
      b'.newMetas = b.newMetas + 1 ∧
      b'.metas = setLoc b.metas b.newMetas
        ((MetaData.create b.baseAddr b.alloc.currentAddr).resetNBitmap
          (min (kvs.length - i * kvsPerEntry) kvsPerEntry)) ∧
      b'.pm = b.pm.exec lineOf (initKVs b.alloc.currentAddr (Tree.chunkKey kvs i)
          (kvs.drop (i * kvsPerEntry)) (min (kvs.length - i * kvsPerEntry) kvsPerEntry)
        ++ [.store (cur, .next) b.alloc.currentAddr] ++ memPersist cur entrySize) := by
  refine ⟨(bulkLoadStep kvs (b, cur, indexKvs) i).1, ?_⟩
  simp only [bulkLoadStep, newMeta, Alloc.allocAligned_of_aligned hal, Tree.chunkKey, run,
    and_self]

theorem loadedSim_step {i : Nat} {s : Tree × Nat × List (Nat × Nat)}
    {sb : BitmapTree × Nat × List (Nat × Nat)} (halign : base % 256 = 0)
    (hl : Tree.Loaded kvs base i s) (h : LoadedSim kvs base i s sb) :
    LoadedSim kvs base (i + 1) (Tree.bulkLoadStep kvs s (i + 1))
      (bulkLoadStep kvs sb (i + 1)) := by
  rcases s with ⟨t, cur, indexKvs⟩
  rcases sb with ⟨b, curb, indexKvsb⟩
  have hcursor : t.alloc.currentAddr = Tree.block base (i + 1) := hl.cursor
  have hal : t.alloc.currentAddr % 256 = 0 := by
    rw [hcursor, Tree.block, entrySize]
    omega
  rcases h with ⟨hmem, halloc, hhead, hbase, hindex, rfl, hcount, rfl, hmetas⟩
  simp only at hmem halloc hhead hbase hindex hcount hmetas
  have hal' : b.alloc.currentAddr % 256 = 0 := by
    rw [halloc]
    exact hal
  -- both rounds store the same chunk at the same cursor; only the index pair differs
  rcases Tree.bulkLoadStep_eq hal kvs curb indexKvs (i + 1) with
    ⟨t', heq, halloc', hhead', _, hpm'⟩
  rcases bulkLoadStep_eq hal' kvs curb
    ((List.range (i + 1)).map fun j => (Tree.chunkKey kvs j, j + 1)) (i + 1) with
    ⟨b', heqb, hallocb, hheadb, hbaseb, hindexb, hcountb, hmetasb, hpmb⟩
  show LoadedSim kvs base (i + 1) (Tree.bulkLoadStep kvs (t, curb, indexKvs) (i + 1)) _
  rw [heq, heqb]
  constructor
  · show b'.pm.vol = t'.pm.vol
    rw [hpmb, hpm', Pmem.vol_exec, Pmem.vol_exec, halloc]
    exact congrFun (congrArg exec hmem) _
  · show b'.alloc = t'.alloc
    rw [hallocb, halloc', halloc]
  · exact hheadb.trans (hhead.trans hhead'.symm)
  · exact hbaseb.trans hbase
  · show b'.index.kvs = []
    rw [hindexb, hindex]
  · show b.alloc.currentAddr = t.alloc.currentAddr
    rw [halloc]
  · show b'.newMetas = _
    rw [hcountb, hcount]
  · show _ ++ [(Tree.chunkKey kvs (i + 1), b.newMetas)] = (List.range (i + 1 + 1)).map _
    rw [List.range_succ (n := i + 1), List.map_append, hcount]
    rfl
  -- the new meta-data is the `i + 1`-st, the older ones are untouched
  · intro j hj
    show b'.metas (j + 1) = _
    rw [hmetasb, hcount]
    by_cases hji : j = i + 1
    · subst hji
      rw [setLoc_self, halloc, hcursor, hbase]
    · rw [setLoc_ne _ _ (by omega)]
      exact hmetas j (by omega)

/-- What the loop starts from. -/
def loadHead (b : BitmapTree) (kvs : List KV) : BitmapTree × Nat × List (Nat × Nat) :=
  let b' := b.run (setOrderedKVs b.head kvs (min kvs.length kvsPerEntry)
    ++ memPersist b.head entrySize)
  let (data, b'') := { b' with index := b.index.erase invalidKey }.newMeta
    ((MetaData.create b.baseAddr b.head).resetNBitmap (min kvs.length kvsPerEntry))
  (b'', b.head, [(b'.mem (b.head, .minKey), data)])

/-- The state after `m` rounds. -/
def loadRounds (b : BitmapTree) (kvs : List KV) (m : Nat) :
    BitmapTree × Nat × List (Nat × Nat) :=
  (List.range' 1 m).foldl (bulkLoadStep kvs) (loadHead b kvs)

theorem bulkLoad_eq (b : BitmapTree) (hlen : kvsPerEntry < kvs.length) :
    b.bulkLoad kvs = ((loadRounds b kvs (Tree.lastChunk kvs)).1.index.bulkLoad
        (loadRounds b kvs (Tree.lastChunk kvs)).2.2).map fun index =>
      { (loadRounds b kvs (Tree.lastChunk kvs)).1 with index := index }.run
        (memPersist (loadRounds b kvs (Tree.lastChunk kvs)).2.1 entrySize) := by
  have h0 : kvs.length ≠ 0 := by omega
  have h1 : ¬ kvs.length ≤ kvsPerEntry := by omega
  rw [bulkLoad, if_neg h0]
  simp only [if_neg h1]
  rfl

theorem loadedSim_loadHead (f : Mapping) (pm : Pmem Loc Nat) (kvs : List KV) :
    LoadedSim kvs f.addr 0 (Tree.loadHead (Tree.create false f pm) kvs)
      (loadHead (create false f pm) kvs) := by
  have hhead : (create false f pm).head = f.addr := by rw [create_eq]
  have hhead' : (Tree.create false f pm).head = f.addr := by rw [Tree.create_eq]
  have hpm : (create false f pm).pm = (Tree.create false f pm).pm := by rw [create_eq]
  have hbase : (create false f pm).baseAddr = f.addr := by rw [create_eq]
  have hfirst : Tree.chunkKey kvs 0 = (kvs.getD 0 (0, 0)).1 := by simp [Tree.chunkKey]
  constructor
  · show ((create false f pm).pm.exec lineOf _).vol =
      ((Tree.create false f pm).pm.exec lineOf _).vol
    rw [hpm, hhead, hhead']
  · show (create false f pm).alloc = (Tree.create false f pm).alloc
    rw [create_eq]
  · exact hhead.trans hhead'.symm
  · exact hbase
  · show ((create false f pm).index.erase invalidKey).kvs = []
    rw [create_eq]
    simp [Multimap.erase, Multimap.insert, Multimap.insertList, Multimap.empty]
  · exact hhead.trans hhead'.symm
  · show (create false f pm).newMetas + 1 = 2
    rw [create_eq]
  -- the key read back from the head is the one just stored there
  · show [(((create false f pm).run _).mem _, (create false f pm).newMetas)] = _
    rw [run_mem, exec_append, exec_memPersist, exec_setOrderedKVs_minKey, create_eq]
    simp [hfirst]
  · intro j hj
    have hj0 : j = 0 := by omega
    subst hj0
    have hnew : (create false f pm).newMetas = 1 := by rw [create_eq]
    simp [loadHead, newMeta, run, hnew, hbase, hhead, Tree.block]

theorem loadedSim_loadRounds (f : Mapping) (pm : Pmem Loc Nat) (kvs : List KV) (m : Nat) :
    LoadedSim kvs f.addr m (Tree.loadRounds (Tree.create false f pm) kvs m)
      (loadRounds (create false f pm) kvs m) := by
  induction m with
  | zero => exact loadedSim_loadHead f pm kvs
  | succ m ih =>
    have hl := Tree.loaded_loadRounds f pm kvs m
    have hstep := loadedSim_step (Tree.mapping_aligned f) hl ih
    rw [loadRounds, Tree.loadRounds, List.range'_1_concat, List.foldl_append, List.foldl_append,
      Nat.add_comm 1 m]
    exact hstep

/-- The tree `BulkLoad` leaves in this build. -/
theorem bulkLoad_loaded (f : Mapping) (pm : Pmem Loc Nat) (hlen : kvsPerEntry < kvs.length)
    (hasc : kvs.Pairwise fun a b => a.1 < b.1) : ∃ index : Index,
      index.kvs = (List.range (Tree.lastChunk kvs + 1)).map
        (fun j => (Tree.chunkKey kvs j, j + 1)) ∧
      (create false f pm).bulkLoad kvs =
        some ({ (loadRounds (create false f pm) kvs (Tree.lastChunk kvs)).1 with
          index := index }.run
            (memPersist (loadRounds (create false f pm) kvs (Tree.lastChunk kvs)).2.1
              entrySize)) := by
  have hsim := loadedSim_loadRounds f pm kvs (Tree.lastChunk kvs)
  have hm := Tree.lastChunk_lt (Nat.zero_lt_of_lt hlen)
  have hsorted : ((List.range (Tree.lastChunk kvs + 1)).map fun j =>
      (Tree.chunkKey kvs j, j + 1)).Pairwise fun a b => a.1 < b.1 := by
    have hkeys := Tree.chunkKeys_ascending hasc hm f.addr
    rw [List.pairwise_map] at hkeys ⊢
    exact hkeys
  have hbulk : (loadRounds (create false f pm) kvs (Tree.lastChunk kvs)).1.index.bulkLoad
      (loadRounds (create false f pm) kvs (Tree.lastChunk kvs)).2.2 =
      some ⟨_, hsorted.imp le_of_lt⟩ := by
    rw [hsim.indexKvs, Multimap.bulkLoad, if_neg, dif_pos hsorted]
    rw [hsim.index]
    simp
  refine ⟨⟨_, hsorted.imp le_of_lt⟩, rfl, ?_⟩
  rw [bulkLoad_eq _ hlen, hbulk]
  rfl

/-- The entries behind the loaded `MetaData`s, if the blocks are in the mapping. -/
theorem loadRounds_entryOf (f : Mapping) (pm : Pmem Loc Nat) (kvs : List KV) {m : Nat}
    (hroom : (loadRounds (create false f pm) kvs m).1.alloc.used ≤
      (loadRounds (create false f pm) kvs m).1.alloc.mappedLen) {j : Nat} (hj : j ≤ m) :
    (loadRounds (create false f pm) kvs m).1.entryOf (j + 1) = Tree.block f.addr j := by
  have hl := Tree.loaded_loadRounds f pm kvs m
  have hsim := loadedSim_loadRounds f pm kvs m
  have hle := (loadRounds (create false f pm) kvs m).1.alloc.mapped_le
  rw [hsim.alloc, hl.used] at hroom
  rw [hsim.alloc] at hle
  have hptr : ∀ n, ((MetaData.create f.addr (Tree.block f.addr j)).resetNBitmap n).entry
      f.addr = (MetaData.create f.addr (Tree.block f.addr j)).entry f.addr := by
    intro n
    unfold MetaData.resetNBitmap
    split <;> rfl
  unfold entryOf
  rw [hsim.metas j hj, hsim.baseAddr, hptr, MetaData.entry_create]
  · simp [Tree.block]
  · simp only [Tree.block, entrySize] at *
    omega

/-- Each loaded `MetaData` has the bits of the slots its entry was filled to. -/
theorem bulkLoad_rows (f : Mapping) (pm : Pmem Loc Nat) (hlen : kvsPerEntry < kvs.length)
    (hasc : kvs.Pairwise fun a b => a.1 < b.1) (h : (create false f pm).bulkLoad kvs = some b)
    (hroom : b.alloc.used ≤ b.alloc.mappedLen) : ∀ x ∈ b.index.kvs, ∃ i n, n ≤ kvsPerEntry ∧
      n ≤ (kvs.drop i).length ∧ (b.metas x.2).bitmap = mask n ∧
      Filled b.mem (b.entryOf x.2) (kvs.drop i) n := by
  have hl := Tree.loaded_loadRounds f pm kvs (Tree.lastChunk kvs)
  have hsim := loadedSim_loadRounds f pm kvs (Tree.lastChunk kvs)
  rcases bulkLoad_loaded f pm hlen hasc with ⟨index, hkvs, hb⟩
  cases h.symm.trans hb
  intro x hx
  have hx' : x ∈ index.kvs := hx
  rw [hkvs] at hx'
  rcases List.mem_map.mp hx' with ⟨j, hj, rfl⟩
  rw [List.mem_range] at hj
  -- the `j`-th data node has the chunk from position `14 j` on
  refine ⟨j * kvsPerEntry, min (kvs.length - j * kvsPerEntry) kvsPerEntry, min_le_right _ _,
    ?_, ?_, ?_⟩
  · rw [List.length_drop]
    exact min_le_left _ _
  · show ((loadRounds (create false f pm) kvs (Tree.lastChunk kvs)).1.metas (j + 1)).bitmap = _
    rw [hsim.metas j (by omega)]
    exact MetaData.resetNBitmap_mask _ _ (min_le_right _ _)
  · rw [run_mem, exec_memPersist]
    show Filled (loadRounds (create false f pm) kvs (Tree.lastChunk kvs)).1.mem
      ((loadRounds (create false f pm) kvs (Tree.lastChunk kvs)).1.entryOf (j + 1)) _ _
    rw [loadRounds_entryOf f pm kvs hroom (by omega), hsim.mem]
    exact hl.filled j (by omega)

/-- Both builds bulk load alike, if the blocks they take are in the mapping. -/
theorem sim_bulkLoad (f : Mapping) (pm : Pmem Loc Nat) (hlen : kvsPerEntry < kvs.length)
    (hasc : kvs.Pairwise fun a b => a.1 < b.1) (hvalid : ∀ x ∈ kvs, ValidKey x.1) :
    ∃ t b, (Tree.create false f pm).bulkLoad kvs = some t ∧
      (create false f pm).bulkLoad kvs = some b ∧
      (b.alloc.used ≤ b.alloc.mappedLen → Sim t b) := by
  rcases Tree.bulkLoad_loaded f pm hlen hasc with ⟨t, ht, hpm, halloc, hhead, hindex⟩
  rcases Tree.sound_bulkLoad f pm hlen hasc with ⟨t', ht', hsound, _⟩
  cases ht.symm.trans ht'
  have hl := Tree.loaded_loadRounds f pm kvs (Tree.lastChunk kvs)
  have hsim := loadedSim_loadRounds f pm kvs (Tree.lastChunk kvs)
  rcases bulkLoad_loaded f pm hlen hasc with ⟨index, hkvs, hb⟩
  refine ⟨t, _, ht, hb, ?_⟩
  intro hroom
  have hmem : (loadRounds (create false f pm) kvs (Tree.lastChunk kvs)).1.mem = t.mem := by
    rw [hsim.mem]
    simp [Tree.mem, hpm]
  -- with the mapping large enough, the six-byte offsets lead back to the blocks
  have hentry : ∀ j ≤ Tree.lastChunk kvs,
      (loadRounds (create false f pm) kvs (Tree.lastChunk kvs)).1.entryOf (j + 1) =
        Tree.block f.addr j := fun j hj => loadRounds_entryOf f pm kvs hroom hj
  refine ⟨⟨_, hsound.shape⟩, hsound.routed.vacated, ?_, ?_, ?_, ?_, ?_, ?_, ?_⟩
  · rw [run_mem, exec_memPersist]
    exact hmem
  · rw [halloc]
    exact hsim.alloc
  · rw [hhead]
    exact hsim.head.trans hl.head
  · rw [halloc, hl.pmemAddr]
    exact hsim.baseAddr
  -- index: chunk by chunk, the head apart
  · rw [hindex]
    show _ = index.kvs.map _
    rw [hkvs, List.map_map, Tree.map_range_succ]
    refine congrArg₂ List.cons ?_ (List.map_congr_left ?_)
    · have h0 := hentry 0 (Nat.zero_le _)
      rw [Tree.block, Nat.mul_zero, Nat.add_zero] at h0
      exact congrArg (Prod.mk _) h0.symm
    · intro j hj
      rw [List.mem_range] at hj
      exact congrArg (Prod.mk _) (hentry (j + 1) (by omega)).symm
  · intro x hx
    have hx' : x ∈ index.kvs := hx
    rw [hkvs] at hx'
    rcases List.mem_map.mp hx' with ⟨j, hj, rfl⟩
    rw [List.mem_range] at hj
    show j + 1 < (loadRounds (create false f pm) kvs (Tree.lastChunk kvs)).1.newMetas
    rw [hsim.newMetas]
    omega
  -- bitmaps: each covers the pairs of its chunk, and no loaded key is the marker
  · intro x hx
    rcases bulkLoad_rows f pm hlen hasc hb hroom x hx with ⟨i, n, hn, hlen', hbit, hfill⟩
    rw [run_mem, exec_memPersist, hmem] at hfill
    refine ⟨n, hn, hbit, fun j hj => ne_invalid_of_filled hfill hn hlen' ?_ hj⟩
    exact fun y hy => Nat.pos_iff_ne_zero.mp (hvalid y (List.mem_of_mem_drop hy)).1

/-! ## Runs -/

/-- An `Insert` overwrites no slot of a stored pair. -/
def KeepsPairs (b : BitmapTree) : Op → Prop
  | .insert k v => ∀ ans b', b.step (.insert k v) = some (ans, b') →
      ∀ k' v', k' ≠ invalidKey → Stored b.mem b.head k' v' → Stored b'.mem b'.head k' v'
  | _ => True

theorem keepsPairs (h : Sim t b) (hc : BitmapContract op) (hg : BitmapGuard b op) :
    KeepsPairs b op := by
  cases op with
  | insert k v =>
    intro ans b' hstep k' v' hk' hst
    rcases h.shape with ⟨as, hsh⟩
    rcases Tree.exists_step hsh 0 (.insert k v) with ⟨ans', t', ht⟩
    rcases sim_step h hc hg ht with ⟨b'', hb, hsim⟩
    cases hstep.symm.trans hb
    rw [h.mem, h.head] at hst
    rw [hsim.mem, hsim.head]
    -- on the default build the pair goes to an empty slot
    cases Tree.step_effect hsh ht with
    | @insert _ _ p p' i hp hp' hf =>
      rcases Tree.makeRoom_shape hsh (hsh.lookup_mem hp) with ⟨as', hsh', _, _, hkeep⟩
      rcases findSlot_some hf with ⟨hi, he, _⟩
      rw [Tree.run_mem, exec_putAtPos, Tree.run_head, Tree.makeRoom_head]
      have hw := hsh'.walk
      rw [Tree.makeRoom_head] at hw
      exact (stored_putSlot hw (hsh'.lookup_mem hp') hi he hk').mpr
        (Or.inl ((hkeep k' v' hk').mpr hst))
    | same hno => exact absurd rfl (hno k v)
  | update k v => trivial
  | remove k => trivial
  | get k => trivial

/-- Both builds start alike. -/
theorem sim_start (f : Mapping) (pm : Pmem Loc Nat) {start : Tree.Start} (h : ValidStart start) :
    ∃ t b, start.tree f pm = some t ∧ BitmapTree.start f pm start = some b ∧
      (b.alloc.used ≤ b.alloc.mappedLen → Sim t b) := by
  cases start with
  | fresh => exact ⟨_, _, rfl, rfl, fun _ => sim_create f pm⟩
  | bulk kvs long ascending => exact sim_bulkLoad f pm long ascending h

/-- As long as every `Insert` goes to an entry whose bitmap covers its slots, and
splits pick the half the index leads to, the bitmap build answers as the default
build does and overwrites no stored pair. -/
theorem bitmap_refines_default (f : Mapping) (pm : Pmem Loc Nat) (start : Tree.Start)
    (hvalid : ValidStart start) :
    ∃ t₀ b₀, start.tree f pm = some t₀ ∧ BitmapTree.start f pm start = some b₀ ∧
      (b₀.alloc.used ≤ b₀.alloc.mappedLen → ∀ (calls : Nat) (ops : List Op),
        (∀ op ∈ ops, BitmapContract op) → Along step BitmapGuard b₀ ops →
        Along step KeepsPairs b₀ ops ∧
        ∃ answers t' b', runOps (Tree.step (calls + 2)) t₀ ops = some (answers, t') ∧
          runOps step b₀ ops = some (answers, b')) := by
  rcases sim_start f pm hvalid with ⟨t₀, b₀, ht₀, hb₀, hsim₀⟩
  refine ⟨t₀, b₀, ht₀, hb₀, ?_⟩
  intro hroom calls ops hc hg
  have hsim := hsim₀ hroom
  have hok := hg.and (along_of_mem hc b₀)
  constructor
  -- the bitmap tree has a partner at every state of the run
  · refine hok.invariant (fun b => ∃ t, Sim t b) ?_ ?_ ⟨t₀, hsim⟩
    · rintro b op ans b' ⟨t, h⟩ ⟨hg, hc⟩ hstep
      rcases h.shape with ⟨as, hsh⟩
      rcases Tree.exists_step hsh calls op with ⟨ans', t', ht⟩
      rcases sim_step h hc hg ht with ⟨b'', hb, hsim'⟩
      cases hstep.symm.trans hb
      exact ⟨t', hsim'⟩
    · rintro b op ⟨t, h⟩ ⟨hg, hc⟩
      exact keepsPairs h hc hg
  -- the default tree always has a run, and the bitmap tree follows it
  · rcases hsim.shape with ⟨as, hsh⟩
    rcases Tree.exists_run hsh calls ops with ⟨answers, t', hrun⟩
    have hmatch : ∀ (b : BitmapTree) (t : Tree) (op : Op) (ans : Answer) (t' : Tree), Sim t b →
        BitmapGuard b op ∧ BitmapContract op → t.step (calls + 2) op = some (ans, t') →
        ∃ b', b.step op = some (ans, b') ∧ Sim t' b' :=
      fun b t op ans t' h hok hstep => sim_step h hok.2 hok.1 hstep
    rcases run_simulates (fun b t => Sim t b) hmatch ops b₀ t₀ answers t' hsim hok hrun with
      ⟨b', hrun', _⟩
    exact ⟨answers, t', b', hrun, hrun'⟩

/-- The first `Insert` splits the head and goes to its lower half, which then takes
no further `Insert`. -/
def upperOps : List Op :=
  [.insert 15 1, .get 15, .insert 85 2, .insert 155 3, .update 15 4, .get 85, .get 15, .get 40]

def upperAnswers : List Answer :=
  [⟨.ok, none⟩, ⟨.ok, some 1⟩, ⟨.ok, none⟩, ⟨.ok, none⟩, ⟨.ok, none⟩, ⟨.ok, some 2⟩,
    ⟨.ok, some 4⟩, ⟨.ok, some 3⟩]

set_option maxRecDepth 100000 in
theorem tens_bitmap_refines_default : ∃ t₀ b₀ t' b',
    Tree.tens.tree Tree.sampleFile Tree.blank = some t₀ ∧
    start Tree.sampleFile Tree.blank Tree.tens = some b₀ ∧ Along step KeepsPairs b₀ upperOps ∧
    runOps (Tree.step 2) t₀ upperOps = some (upperAnswers, t') ∧
    runOps step b₀ upperOps = some (upperAnswers, b') := by
  have hvalid : ValidStart Tree.tens := by
    show ∀ x ∈ (List.range 15).map fun i => (10 * (i + 1), i), ValidKey x.1
    decide
  have hroom : ∀ b ∈ start Tree.sampleFile Tree.blank Tree.tens,
      b.alloc.used ≤ b.alloc.mappedLen := by
    decide +kernel
  have hguard : ∀ b ∈ start Tree.sampleFile Tree.blank Tree.tens,
      Along step BitmapGuard b upperOps := by
    decide +kernel
  have hanswers : ((start Tree.sampleFile Tree.blank Tree.tens).bind fun b =>
      runOps step b upperOps).map Prod.fst = some upperAnswers := by
    decide +kernel
  rcases bitmap_refines_default Tree.sampleFile Tree.blank Tree.tens hvalid with
    ⟨t₀, b₀, ht₀, hb₀, hruns⟩
  rcases hruns (hroom b₀ hb₀) 0 upperOps (by decide) (hguard b₀ hb₀) with
    ⟨hkeep, answers, t', b', ht, hb⟩
  rw [hb₀, Option.bind_some, hb] at hanswers
  cases hanswers
  exact ⟨t₀, b₀, t', b', ht₀, hb₀, hkeep, ht, hb⟩

set_option maxRecDepth 100000 in
/-- Sixteen ascending inserts: the fifteenth splits the head and leaves its bit
clear, the sixteenth overwrites it. -/
theorem bitmap_loses_key :
    (runOps (Tree.step 2) (Tree.create false Tree.sampleFile Tree.blank)
        (Tree.fillBelow 16 ++ [.get 15])).map Prod.fst =
      some (List.replicate 16 ⟨.ok, none⟩ ++ [⟨.ok, some 15⟩]) ∧
    (runOps step (create false Tree.sampleFile Tree.blank)
        (Tree.fillBelow 16 ++ [.get 15])).map Prod.fst =
      some (List.replicate 16 ⟨.ok, none⟩ ++ [⟨.fail, some 0⟩]) := by
  decide +kernel

end BitmapTree

end Epli
