import Epli.RoundTrip
import Epli.BitmapRefine

/-!
# Recovery in the bitmap build

In this build the constructor gives the index its first separator also when the
tree is about to recover. `Recover` then collects the `min_key`s of the list in
vain: `bulk_load` does nothing on an index that already holds a key. Every key is
looked up in the head, and the other entries of the list are out of reach.
-/

namespace Epli

open Lib Entry

namespace BitmapTree

variable {f : Mapping} {pm : Pmem Loc Nat} {b b₁ : BitmapTree} {kvs : List KV} {as : List Nat}

/-- The tree after a restart over the content `img` of the file. -/
def reopen (f : Mapping) (img : Mem) (loadSize : Nat) : Option BitmapTree :=
  (create true f ⟨img, fun _ => false⟩).recover loadSize

/-- What recovery is for: the loaded pairs are found, and are still found after
any further `Insert` of a key that was not loaded, given the allocator of the old
process, whose blocks are fresh. -/
structure Recovers (b b₁ : BitmapTree) (kvs : List KV) : Prop where
  found : ∀ x ∈ kvs, b₁.get x.1 = some (.ok, x.2)
  kept : ∀ k v st b₂, ValidKey k → (∀ w, (k, w) ∉ kvs) →
    { b₁ with alloc := b.alloc }.insert k v = some (st, b₂) →
    ∀ x ∈ kvs, b₂.get x.1 = some (.ok, x.2)

/-- The loop comes back on a list that fits into the array. It touches neither the
memory nor the index, and no `MetaData` that was there before. -/
theorem recoverLoop_keeps : ∀ {as : List Nat} {cap cur : Nat} (b : BitmapTree)
    (indexKvs : List (Nat × Nat)), Walk (nextOf b.mem) null cur as → as.length ≤ cap →
    ∃ b' indexKvs', recoverLoop cap b cur indexKvs = some (b', indexKvs') ∧
      b'.pm = b.pm ∧ b'.index = b.index ∧ b'.baseAddr = b.baseAddr ∧
      ∀ x < b.newMetas, b'.metas x = b.metas x := by
  intro as
  induction as with
  | nil =>
    intro cap cur b indexKvs hw _
    have hnull : cur = null := hw
    cases cap with
    | zero => exact ⟨b, indexKvs, by simp [recoverLoop, hnull], rfl, rfl, rfl, fun _ _ => rfl⟩
    | succ cap => exact ⟨b, indexKvs, by simp [recoverLoop, hnull], rfl, rfl, rfl, fun _ _ => rfl⟩
  | cons a as ih =>
    intro cap cur b indexKvs hw hlen
    rcases hw with ⟨rfl, hne, hw⟩
    cases cap with
    | zero => simp at hlen
    | succ cap =>
      have hnull : ¬ cur = null := hne
      have hlen' : as.length ≤ cap := by simpa using hlen
      -- the round allocates the meta-data of `cur` at `newMetas`, above everything kept
      rcases ih (b.newMeta (MetaData.create b.baseAddr cur)).2
        (indexKvs ++ [(b.mem (cur, .minKey), b.newMetas)]) hw hlen' with
        ⟨b', indexKvs', hloop, hpm, hindex, hbase, hmetas⟩
      refine ⟨b', indexKvs', ?_, hpm, hindex, hbase, ?_⟩
      · rw [recoverLoop, if_neg hnull]
        exact hloop
      · intro x hx
        rw [hmetas x (Nat.lt_succ_of_lt hx)]
        exact setLoc_ne _ _ (Nat.ne_of_lt hx)

theorem create_recover_eq (f : Mapping) (img : Mem) :
    (create true f ⟨img, fun _ => false⟩).mem = img ∧
      (create true f ⟨img, fun _ => false⟩).head = f.addr ∧
      (create true f ⟨img, fun _ => false⟩).index.kvs = [(invalidKey, 0)] ∧
      (create true f ⟨img, fun _ => false⟩).newMetas = 1 ∧
      (create true f ⟨img, fun _ => false⟩).entryOf 0 = f.addr := by
  refine ⟨?_, ?_, ?_, ?_, ?_⟩
  · simp [create, Tree.create_allocAligned, mem]
  · simp [create, Tree.create_allocAligned]
  · simp [create, Tree.create_allocAligned, Multimap.insert, Multimap.insertList, Multimap.empty]
  · simp [create, Tree.create_allocAligned]
  · simp [create, Tree.create_allocAligned, entryOf, MetaData.entry, MetaData.create]

/-- After a restart every key is looked up in the head. -/
theorem reopen_get {img : Mem} {loadSize : Nat} (hw : Walk (nextOf img) null f.addr as)
    (hlen : as.length ≤ loadSize / kvsPerEntry + 1) : ∃ b₁, reopen f img loadSize = some b₁ ∧
      ∀ k, b₁.get k = some (match Entry.get img f.addr k with
        | some v => (.ok, v)
        | none => (.fail, 0)) := by
  rcases create_recover_eq f img with ⟨hmem, hhead, hindex, hnew, hentry⟩
  rw [← hmem] at hw
  rcases recoverLoop_keeps (create true f ⟨img, fun _ => false⟩) [] hw hlen with
    ⟨b', indexKvs, hloop, hpm', hindex', hbase', hmetas'⟩
  -- `create` has left its own pair in the index, so `bulk_load` returns at once
  have hbulk : b'.index.bulkLoad indexKvs = some b'.index := by
    rw [Multimap.bulkLoad, if_pos]
    rw [hindex', hindex]
    simp
  refine ⟨b', ?_, ?_⟩
  · rw [reopen, recover, hhead, hloop]
    simp [hbulk]
  · intro k
    -- and every key is still routed to the first meta-data, that of the head
    have hlookup : b'.lookup k = some 0 := by
      have hkvs : b'.index.kvs = [] ++ (invalidKey, 0) :: [] := by
        rw [hindex', hindex]
        rfl
      have hfloor : b'.index.floor k = some (invalidKey, 0) :=
        Multimap.floor_of_split hkvs (by simp) (Or.inr rfl)
      rw [lookup, hfloor]
      rfl
    have hentry' : b'.entryOf 0 = f.addr := by
      rw [entryOf, hmetas' 0 (by rw [hnew]; exact Nat.one_pos), hbase']
      exact hentry
    have hmem' : b'.mem = img := by
      rw [mem, hpm']
      exact hmem
    rw [get, hlookup]
    simp only [hentry', hmem', Option.bind_eq_bind, Option.bind_some]
    cases Entry.get img f.addr k with
    | none => rfl
    | some v => rfl

/-- A bulk loaded tree of this build has the memory of the default build. -/
theorem bulkLoad_mem (f : Mapping) (pm : Pmem Loc Nat) (hlen : kvsPerEntry < kvs.length)
    (hasc : kvs.Pairwise fun a b => a.1 < b.1) :
    ∃ b, (create false f pm).bulkLoad kvs = some b ∧
      b.mem = (Tree.loadRounds (Tree.create false f pm) kvs (Tree.lastChunk kvs)).1.mem := by
  rcases bulkLoad_loaded f pm hlen hasc with ⟨index, _, hbulk⟩
  refine ⟨_, hbulk, ?_⟩
  rw [run_mem, exec_memPersist]
  exact (loadedSim_loadRounds f pm kvs (Tree.lastChunk kvs)).mem

/-- Recovery never does what it is for: the first key of the second chunk is not
found after a restart, whatever was loaded. -/
theorem bitmap_never_recovers (f : Mapping) (pm : Pmem Loc Nat) (hlen : kvsPerEntry < kvs.length)
    (hasc : kvs.Pairwise fun a b => a.1 < b.1) (hvalid : ∀ x ∈ kvs, ValidKey x.1) :
    ∃ b b₁, (create false f pm).bulkLoad kvs = some b ∧ reopen f b.mem kvs.length = some b₁ ∧
      ¬ Recovers b b₁ kvs := by
  rcases bulkLoad_mem f pm hlen hasc with ⟨b, hbulk, hmem⟩
  have hload := Tree.loaded_loadRounds f pm kvs (Tree.lastChunk kvs)
  have hm := Tree.lastChunk_lt (Nat.zero_lt_of_lt hlen)
  have hone : 1 ≤ Tree.lastChunk kvs := by
    rw [Tree.lastChunk, kvsPerEntry_eq] at *
    omega
  have hwalk := hload.walk
  rw [← hmem] at hwalk
  have hcap : ((List.range (Tree.lastChunk kvs + 1)).map (Tree.block f.addr)).length ≤
      kvs.length / kvsPerEntry + 1 := by
    rw [List.length_map, List.length_range, Tree.lastChunk, kvsPerEntry_eq]
    omega
  rcases reopen_get hwalk hcap with ⟨b₁, hopen, hget⟩
  refine ⟨b, b₁, hbulk, hopen, ?_⟩
  intro hrec
  have hx : kvs[kvsPerEntry] ∈ kvs := List.getElem_mem hlen
  have hfound := hrec.found _ hx
  have hkey : kvs[kvsPerEntry].1 = Tree.chunkKey kvs 1 := by
    rw [Tree.chunkKey_eq, Nat.one_mul, List.getD_eq_getElem _ _ hlen]
  -- the head has only keys of the first chunk
  have hnone : Entry.get b.mem f.addr kvs[kvsPerEntry].1 = none := by
    rw [get_eq_none]
    intro hhas
    have hne : kvs[kvsPerEntry].1 ≠ invalidKey := Nat.pos_iff_ne_zero.mp (hvalid _ hx).1
    have hhas' : HasKey (Tree.loadRounds (Tree.create false f pm) kvs (Tree.lastChunk kvs)).1.mem
        (Tree.block f.addr 0) kvs[kvsPerEntry].1 := by
      rw [← hmem]
      simpa [Tree.block] using hhas
    have hlt := hload.high hasc Nat.one_pos hone hm (hhas'.bounded hne)
    rw [hkey] at hlt
    exact lt_irrefl _ hlt
  rw [hget, hnone] at hfound
  cases hfound

theorem fifteen_never_recovered : ∃ b b₁,
    (create false Tree.sampleFile Tree.blank).bulkLoad Tree.fifteen = some b ∧
      reopen Tree.sampleFile b.mem 15 = some b₁ ∧ ¬ Recovers b b₁ Tree.fifteen :=
  bitmap_never_recovers Tree.sampleFile Tree.blank (by decide) (by decide) (by decide)

set_option maxRecDepth 100000 in
/-- Fifteen keys are loaded: `150`, alone in the second entry, is found before the
restart and lost after it. -/
theorem bitmap_recover_loses_key : ∃ b b₁,
    (create false Tree.sampleFile Tree.blank).bulkLoad Tree.fifteen = some b ∧
      reopen Tree.sampleFile b.mem 15 = some b₁ ∧ (150, 14) ∈ Tree.fifteen ∧
      b.get 150 = some (.ok, 14) ∧ b₁.get 150 = some (.fail, 0) := by
  have hsome : ((create false Tree.sampleFile Tree.blank).bulkLoad Tree.fifteen).isSome := by
    decide +kernel
  have heval : ∀ b ∈ (create false Tree.sampleFile Tree.blank).bulkLoad Tree.fifteen,
      b.get 150 = some (.ok, 14) ∧
        (reopen Tree.sampleFile b.mem 15).map (fun b₁ => b₁.get 150) = some (some (.fail, 0)) := by
    decide +kernel
  rcases Option.isSome_iff_exists.mp hsome with ⟨b, hbulk⟩
  rcases heval b hbulk with ⟨hget, hlost⟩
  rcases Option.map_eq_some_iff.mp hlost with ⟨b₁, hopen, hget₁⟩
  exact ⟨b, b₁, hbulk, hopen, by decide, hget, hget₁⟩

end BitmapTree

end Epli
