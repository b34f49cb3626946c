import Epli.Durable
import Epli.Recover

/-!
# Loading, and reading a load back

`BulkLoad` cuts an ascending array into chunks of `KVS_PER_ENTRY` pairs, one
entry each, and gives the index the first key of every chunk. A load that fits
into the head alone returns before the index is built, after the initial
separator was erased: the list is right, but the index holds no pair, and what
lookups still find is the payload that the erased separator left behind.

The list is written back completely before `BulkLoad` returns, in both cases, and
`Recover` rebuilds the index from the list. So a restart gives every load back
with an index of its own, also where the running tree has none.
-/

namespace Epli

open Lib Entry

namespace Tree

variable {f : Mapping} {pm : Pmem Loc Nat} {t : Tree} {kvs : List KV} {base m : Nat}

/-! ## The blocks of a load -/

/-- The number of chunks, `ceil(num_keys / KVS_PER_ENTRY)`. -/
def numChunks (kvs : List KV) : Nat := (kvs.length + kvsPerEntry - 1) / kvsPerEntry

theorem numChunks_eq (hne : kvs ≠ []) : numChunks kvs = lastChunk kvs + 1 := by
  have hpos := List.length_pos_of_ne_nil hne
  rw [numChunks, lastChunk, kvsPerEntry_eq]
  omega

/-- The list a load leaves: one entry a chunk, filled with its pairs and empty
behind them, with the chunk's first key as `min_key`. -/
structure Chunked (m : Mem) (head : Nat) (kvs : List KV) (entry : Nat → Nat) : Prop where
  walk : Walk (nextOf m) null head ((List.range (numChunks kvs)).map entry)
  filled : ∀ i < numChunks kvs, Filled m (entry i) (kvs.drop (i * kvsPerEntry))
    (min (kvs.length - i * kvsPerEntry) kvsPerEntry)
  minKey : ∀ i < numChunks kvs, m (entry i, .minKey) = chunkKey kvs i

/-- The memory, the head, the index and the medium after any load. -/
theorem bulkLoad_state (f : Mapping) (pm : Pmem Loc Nat) (hne : kvs ≠ [])
    (hasc : kvs.Pairwise fun a b => a.1 < b.1) :
    ∃ t, (create false f pm).bulkLoad kvs = some t ∧
      t.mem = (loadRounds (create false f pm) kvs (lastChunk kvs)).1.mem ∧
      t.head = f.addr ∧ Clean t.pm ((List.range (lastChunk kvs + 1)).map (block f.addr)) ∧
      t.index.kvs = if kvs.length ≤ kvsPerEntry then []
        else (chunkKey kvs 0, f.addr) :: loadedRest kvs f.addr (lastChunk kvs) := by
  by_cases hlen : kvs.length ≤ kvsPerEntry
  · -- everything is in the head, and the loop does not run
    have hlast : lastChunk kvs = 0 := by
      rw [lastChunk, kvsPerEntry_eq] at *
      omega
    have hload := loaded_loadHead f pm kvs
    refine ⟨(loadHead (create false f pm) kvs).1, ?_, ?_, hload.head, ?_, ?_⟩
    · exact bulkLoad_short _ hne hlen
    · rw [hlast]
      rfl
    · rw [hlast]
      simpa [block] using clean_loadHead f pm kvs
    · rw [if_pos hlen]
      exact hload.index
  · rw [not_le] at hlen
    rcases bulkLoad_loaded f pm hlen hasc with ⟨t, hbulk, hpm, _, hhead, hindex⟩
    refine ⟨t, hbulk, by simp [mem, hpm], hhead, clean_bulkLoad hlen hasc hbulk, ?_⟩
    rw [hindex, if_neg (not_le.mpr hlen)]

theorem chunked_of_loaded {s : Tree × Nat × List (Nat × Nat)} (hne : kvs ≠ [])
    (h : Loaded kvs base (lastChunk kvs) s) : Chunked s.1.mem base kvs (block base) := by
  have hnum := numChunks_eq hne
  refine ⟨?_, ?_, ?_⟩
  · rw [hnum]
    exact h.walk
  · intro i hi
    exact h.filled i (by omega)
  · intro i hi
    exact h.minKey i (by omega)

/-! ## What a load is for -/

/-- `Get` finds the pairs of the array and no others. -/
structure Answers (t : Tree) (kvs : List KV) : Prop where
  found : ∀ k v, (k, v) ∈ kvs → t.get k = some (.ok, v)
  absent : ∀ k, ValidKey k → (∀ v, (k, v) ∉ kvs) → t.get k = some (.fail, 0)

theorem Sound.answers {s₀ : Nat} {rest : List (Nat × Nat)} (h : Sound t s₀ rest)
    (hvalid : ∀ x ∈ kvs, ValidKey x.1)
    (hst : ∀ k v, k ≠ invalidKey → (Stored t.mem t.head k v ↔ (k, v) ∈ kvs)) : Answers t kvs := by
  constructor
  · intro k v hmem
    have hk : k ≠ invalidKey := Nat.pos_iff_ne_zero.mp (hvalid _ hmem).1
    exact h.routed.get_of_stored hk ((hst k v hk).mpr hmem)
  · intro k hk hno
    have hk0 : k ≠ invalidKey := Nat.pos_iff_ne_zero.mp hk.1
    exact h.routed.get_of_not_stored fun v hv => hno v ((hst k v hk0).mp hv)

/-- What `BulkLoad` leaves: `index_kvs` never runs over, the list has one entry a
chunk, the index has the first key of each, and `Get` finds the array. -/
structure LoadExact (f : Mapping) (pm : Pmem Loc Nat) (kvs : List KV) (t : Tree) : Prop where
  buffer : ∀ i ≤ lastChunk kvs, (loadRounds (create false f pm) kvs i).2.2.length ≤
    kvs.length / kvsPerEntry + 1
  chunked : ∃ entry, Chunked t.mem t.head kvs entry ∧
    t.index.kvs = (List.range (numChunks kvs)).map fun i => (chunkKey kvs i, entry i)
  answers : Answers t kvs

theorem length_loadRounds (f : Mapping) (pm : Pmem Loc Nat) {i : Nat} (hi : i ≤ lastChunk kvs) :
    (loadRounds (create false f pm) kvs i).2.2.length ≤ kvs.length / kvsPerEntry + 1 := by
  have hload := loaded_loadRounds f pm kvs i
  rw [hload.indexKvs, List.length_map, List.length_range]
  rw [lastChunk, kvsPerEntry_eq] at hi
  rw [kvsPerEntry_eq]
  omega

/-- `BulkLoad` comes back, and does what it is for if and only if there is more
than one entry to load. -/
theorem bulkLoad_exact_iff (f : Mapping) (pm : Pmem Loc Nat) (hne : kvs ≠ [])
    (hasc : kvs.Pairwise fun a b => a.1 < b.1) (hvalid : ∀ x ∈ kvs, ValidKey x.1) :
    ∃ t, (create false f pm).bulkLoad kvs = some t ∧
      (LoadExact f pm kvs t ↔ kvsPerEntry < kvs.length) := by
  rcases bulkLoad_state f pm hne hasc with ⟨t, hbulk, hmem, hhead, _, hindex⟩
  have hnum := numChunks_eq hne
  refine ⟨t, hbulk, ?_, ?_⟩
  · rintro ⟨_, ⟨entry, _, hkvs⟩, _⟩
    by_contra hlen
    -- the index is empty, and there is at least one chunk
    rw [hindex, if_pos (not_lt.mp hlen), hnum, map_range_succ] at hkvs
    cases hkvs
  · intro hlen
    rw [if_neg (not_le.mpr hlen)] at hindex
    rcases sound_bulkLoad f pm hlen hasc with ⟨t', hbulk', hs, hst⟩
    cases hbulk.symm.trans hbulk'
    refine ⟨fun i hi => length_loadRounds f pm hi, ⟨block f.addr, ?_, ?_⟩, hs.answers hvalid hst⟩
    · rw [hmem, hhead]
      exact chunked_of_loaded hne (loaded_loadRounds f pm kvs _)
    · rw [hindex, hnum, map_range_succ]
      simp [loadedRest, block]

/-- Fifteen keys `10, 20, .. 150`. -/
def fifteen : List KV := (List.range 15).map fun i => (10 * (i + 1), i)

theorem fifteen_loaded : ∃ t, (create false sampleFile blank).bulkLoad fifteen = some t ∧
    LoadExact sampleFile blank fifteen t := by
  rcases bulkLoad_exact_iff sampleFile blank (by decide : fifteen ≠ []) (by decide)
    (by decide) with ⟨t, hbulk, hiff⟩
  exact ⟨t, hbulk, hiff.mpr (by decide)⟩

/-- One pair: the list is right, but the index does not hold the one chunk there is. -/
theorem one_key_not_loaded : ∃ t, (create false sampleFile blank).bulkLoad [(5, 7)] = some t ∧
    t.index.kvs = [] ∧ ¬ LoadExact sampleFile blank [(5, 7)] t := by
  have heval : ((create false sampleFile blank).bulkLoad [(5, 7)]).map (fun t => t.index.kvs) =
      some [] := by
    decide +kernel
  rcases Option.map_eq_some_iff.mp heval with ⟨t, hbulk, hindex⟩
  refine ⟨t, hbulk, hindex, ?_⟩
  intro hex
  rcases hex.chunked with ⟨entry, _, hkvs⟩
  have hlen : t.index.kvs.length = numChunks [(5, 7)] := by
    rw [hkvs, List.length_map, List.length_range]
  rw [hindex] at hlen
  exact absurd hlen (by decide)

/-! ## Reading a load back -/

/-- The words `Recover` and `Get` read, if they survive, are a load again. -/
theorem Loaded.image {s : Tree × Nat × List (Nat × Nat)} (h : Loaded kvs base m s) (img : Mem)
    (himg : ∀ j ≤ m, ∀ fld, Kept fld → img (block base j, fld) = s.1.mem (block base j, fld)) :
    Loaded kvs base m ({ s.1 with pm := ⟨img, fun _ => false⟩ }, s.2) where
  pmemAddr := h.pmemAddr
  cursor := h.cursor
  used := h.used
  head := h.head
  index := h.index
  cur := h.cur
  indexKvs := h.indexKvs
  walk := by
    refine walk_congr ?_ h.walk
    intro a ha
    rcases List.mem_map.mp ha with ⟨j, hj, rfl⟩
    rw [List.mem_range] at hj
    exact himg j (by omega) .next trivial
  filled := by
    intro j hj i hi
    rcases h.filled j hj i hi with ⟨hkey, hval⟩
    have hkey' := himg j hj (.key i) hi
    have hval' := himg j hj (.val i) hi
    exact ⟨hkey'.trans hkey, hval'.trans hval⟩
  minKey := by
    intro j hj
    exact (himg j hj .minKey trivial).trans (h.minKey j hj)

/-- A load that was written back survives as a load. -/
theorem image_loaded (hne : kvs ≠ []) (hasc : kvs.Pairwise fun a b => a.1 < b.1)
    (h : (create false f pm).bulkLoad kvs = some t) {img : Mem} (himg : t.pm.Image img) :
    ∃ s, Loaded kvs f.addr (lastChunk kvs) s ∧ s.1.mem = img := by
  rcases bulkLoad_state f pm hne hasc with ⟨t', hbulk, hmem, _, hclean, _⟩
  cases h.symm.trans hbulk
  refine ⟨_, (loaded_loadRounds f pm kvs (lastChunk kvs)).image img ?_, rfl⟩
  intro j hj fld hfld
  rw [← hmem]
  refine himg _ (hclean _ ?_ fld hfld.inEntry)
  exact List.mem_map_of_mem (List.mem_range.mpr (by omega))

/-- `Recover` over a load: the tree it leaves, up to the allocator, is the one
`BulkLoad` is meant to build. -/
theorem reopen_loaded {s : Tree × Nat × List (Nat × Nat)} {img : Mem} (hne : kvs ≠ [])
    (hasc : kvs.Pairwise fun a b => a.1 < b.1) (h : Loaded kvs f.addr (lastChunk kvs) s)
    (hmem : s.1.mem = img) : ∃ t₁, reopen f img kvs.length = some t₁ ∧
      Sound { t₁ with alloc := s.1.alloc } (chunkKey kvs 0)
        (loadedRest kvs f.addr (lastChunk kvs)) ∧ t₁.mem = img ∧ t₁.head = f.addr := by
  have hm := lastChunk_lt (List.length_pos_of_ne_nil hne)
  -- the `min_key`s in the image are the chunk keys the index was loaded with
  have hmins : ((List.range (lastChunk kvs + 1)).map (block f.addr)).map (indexKV img) =
      (List.range (lastChunk kvs + 1)).map fun j => (chunkKey kvs j, block f.addr j) := by
    rw [List.map_map]
    apply List.map_congr_left
    intro j hj
    rw [List.mem_range] at hj
    show (img (block f.addr j, .minKey), block f.addr j) = _
    rw [← hmem, h.minKey j (by omega)]
  have hwalk := h.walk
  rw [hmem] at hwalk
  have hlen : ((List.range (lastChunk kvs + 1)).map (block f.addr)).length ≤
      kvs.length / kvsPerEntry + 1 := by
    rw [List.length_map, List.length_range, lastChunk, kvsPerEntry_eq]
    omega
  have hsorted : (((List.range (lastChunk kvs + 1)).map (block f.addr)).map (indexKV img)).Pairwise
      fun x y => x.1 < y.1 := by
    rw [hmins]
    exact chunkKeys_ascending hasc hm f.addr
  rcases exists_reopen hwalk hlen hsorted with ⟨t₁, hopen⟩
  rcases reopen_spec hwalk hopen with ⟨hmem₁, hhead₁, hindex₁, _⟩
  refine ⟨t₁, hopen, ?_, hmem₁, hhead₁⟩
  have hvacated : t₁.vacated = none := reopen_vacated hopen
  refine h.sound hasc hm f.addr_pos (mapping_aligned f) ?_ rfl hhead₁ ?_ hvacated
  · exact hmem₁.trans hmem.symm
  · show t₁.index.kvs = _
    rw [hindex₁, hmins, map_range_succ]
    simp [loadedRest, block]

/-- Every load is read back: whatever the volatile lines were, a restart after
`BulkLoad` finds the array and nothing else. -/
theorem bulkLoad_recover_roundtrip (f : Mapping) (pm : Pmem Loc Nat) (hne : kvs ≠ [])
    (hasc : kvs.Pairwise fun a b => a.1 < b.1) (hvalid : ∀ x ∈ kvs, ValidKey x.1) :
    ∃ t, (create false f pm).bulkLoad kvs = some t ∧ ∀ img, t.pm.Image img →
      ∃ t₁, reopen f img kvs.length = some t₁ ∧ Answers t₁ kvs := by
  rcases bulkLoad_state f pm hne hasc with ⟨t, hbulk, _⟩
  refine ⟨t, hbulk, ?_⟩
  intro img himg
  rcases image_loaded hne hasc hbulk himg with ⟨s, hload, hmem⟩
  rcases reopen_loaded hne hasc hload hmem with ⟨t₁, hopen, hs, hmem₁, hhead₁⟩
  refine ⟨t₁, hopen, ?_⟩
  have hst : ∀ k v, k ≠ invalidKey → (Stored t₁.mem t₁.head k v ↔ (k, v) ∈ kvs) := by
    intro k v hk
    rw [hmem₁, hhead₁, ← hmem]
    exact hload.stored_iff (le_lastChunk kvs) hk
  have hans := hs.answers hvalid hst
  exact ⟨hans.found, hans.absent⟩

/-- The fifteen keys take two entries, the second one persisted after the loop. -/
theorem fifteen_roundtrip : ∃ t, (create false sampleFile blank).bulkLoad fifteen = some t ∧
    ∀ img, t.pm.Image img → ∃ t₁, reopen sampleFile img 15 = some t₁ ∧
      (∀ x ∈ fifteen, t₁.get x.1 = some (.ok, x.2)) ∧ t₁.get 145 = some (.fail, 0) := by
  rcases bulkLoad_recover_roundtrip sampleFile blank (by decide : fifteen ≠ []) (by decide)
    (by decide) with ⟨t, hbulk, hback⟩
  refine ⟨t, hbulk, ?_⟩
  intro img himg
  rcases hback img himg with ⟨t₁, hopen, hans⟩
  refine ⟨t₁, hopen, fun x hx => hans.found x.1 x.2 hx, hans.absent 145 (by decide) ?_⟩
  intro v hv
  rcases List.mem_map.mp hv with ⟨i, _, hi⟩
  have hkey := congrArg Prod.fst hi
  simp only at hkey
  omega

end Tree

end Epli
