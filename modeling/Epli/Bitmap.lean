import Epli.Tree

/-!
# EPLTree with DRAM bitmaps

The build with `USE_BITMAP` (and without `USE_FGPT`). The index leads to a
`MetaData` in DRAM, which has a 16 bit occupancy bitmap and a 48 bit pointer to
the entry, relative to the start of the mapping. `Insert` takes the first slot
whose bit is clear and never looks at the keys in NVM, except right after a
split, where it puts the pair with `MaybePut`.
-/

namespace Epli

open Lib

/-- `MetaData`: `bitmap` and the six bytes of `entryPointer`. -/
structure MetaData where
  bitmap : UInt16
  pointer : Nat
deriving DecidableEq, Repr

namespace MetaData

/-- `ffs_short`. -/
def ffsShort (x : UInt16) : Nat :=
  let (num, x) := if x &&& 0x00FF = 0 then (1 + 8, x >>> 8) else (1, x)
  let (num, x) := if x &&& 0x000F = 0 then (num + 4, x >>> 4) else (num, x)
  let (num, x) := if x &&& 0x0003 = 0 then (num + 2, x >>> 2) else (num, x)
  if x &&& 0x0001 = 0 then num + 1 else num

/-- `MetaData(entry)` with `EntryPointer::Setup`: only six bytes are kept. -/
def create (baseAddr entry : Nat) : MetaData where
  bitmap := 0x0000
  pointer := (entry - baseAddr) % 2 ^ 48

/-- `entryPointer.pointer()`. -/
def entry (md : MetaData) (baseAddr : Nat) : Nat := md.pointer + baseAddr

/-- `set_bitmap`. -/
def setBitmap (md : MetaData) (pos : Nat) : MetaData :=
  { md with bitmap := md.bitmap ||| (1 <<< UInt16.ofNat pos) }

/-- `find_first_zero`. -/
def findFirstZero (md : MetaData) : Nat := ffsShort (~~~md.bitmap) - 1

/-- `reset_half_bitmap`. -/
def resetHalfBitmap (md : MetaData) : MetaData := { md with bitmap := 0x007F }

/-- The loop of `reset_n_bitmap`. -/
def setBits (bitmap : UInt16) : Nat → UInt16
  | 0 => bitmap
  | n + 1 => setBits (bitmap ||| (1 <<< UInt16.ofNat n)) n

/-- `reset_n_bitmap`. -/
def resetNBitmap (md : MetaData) (n : Nat) : MetaData :=
  if n = kvsPerEntry then { md with bitmap := 0x3FFF }
  else { md with bitmap := setBits md.bitmap n }

end MetaData

/-- State of an `EPLTree` in this build. `metas` is the DRAM the `MetaData`s live
in, of which `newMetas` have been allocated; the payloads of the index point
into it. -/
structure BitmapTree where
  pm : Pmem Loc Nat
  alloc : Alloc
  head : Nat
  index : Index
  metas : Nat → MetaData
  newMetas : Nat
  baseAddr : Nat

namespace BitmapTree

/-- The visible content of NVM. -/
abbrev mem (b : BitmapTree) : Mem := b.pm.vol

/-- Run a trace on the tree's memory. -/
def run (b : BitmapTree) (evs : Trace) : BitmapTree :=
  { b with pm := b.pm.exec lineOf evs }

/-- The entry behind a `MetaData`. -/
def entryOf (b : BitmapTree) (data : Nat) : Nat := (b.metas data).entry b.baseAddr

/-- `new MetaData`, set up as `md`. -/
def newMeta (b : BitmapTree) (md : MetaData) : Nat × BitmapTree :=
  (b.newMetas, { b with metas := setLoc b.metas b.newMetas md, newMetas := b.newMetas + 1 })

/-- `data->set_bitmap(pos)`. -/
def setBit (b : BitmapTree) (data pos : Nat) : BitmapTree :=
  { b with metas := setLoc b.metas data ((b.metas data).setBitmap pos) }

/-! ## Construction -/

/-- `EPLTree(recover)`: in this build the index gets its first separator in any
case. -/
def create (recover : Bool) (f : Mapping) (pm : Pmem Loc Nat) : BitmapTree :=
  let (entryHead, alloc) := (Alloc.create f).allocAligned entrySize 256
  { pm := if recover then pm
      else pm.exec lineOf (Entry.init entryHead invalidKey ++ memPersist entryHead entrySize)
    alloc := alloc
    head := entryHead
    index := (Multimap.empty : Index).insert invalidKey 0
    metas := fun _ => MetaData.create alloc.pmemAddr entryHead
    newMetas := 1
    baseAddr := alloc.pmemAddr }

/-- The loop of `Recover` with room for `cap` more elements in `index_kvs`. Every
entry gets a new `MetaData`, whose bitmap stays clear. -/
def recoverLoop : Nat → BitmapTree → Nat → List (Nat × Nat) →
    Option (BitmapTree × List (Nat × Nat))
  | 0, b, cur, indexKvs => if cur = null then some (b, indexKvs) else none
  | cap + 1, b, cur, indexKvs =>
    if cur = null then some (b, indexKvs)
    else
      let (data, b) := b.newMeta (MetaData.create b.baseAddr cur)
      recoverLoop cap b (b.mem (cur, .next)) (indexKvs ++ [(b.mem (cur, .minKey), data)])

/-- `Recover(load_size)`. -/
def recover (b : BitmapTree) (loadSize : Nat) : Option BitmapTree := do
  let (b, indexKvs) ← recoverLoop (loadSize / kvsPerEntry + 1) b b.head []
  let index ← b.index.bulkLoad indexKvs
  return { b with index := index }

/-- One round of the loop of `BulkLoad`. -/
def bulkLoadStep (bulkKvs : List KV) (s : BitmapTree × Nat × List (Nat × Nat)) (i : Nat) :
    BitmapTree × Nat × List (Nat × Nat) :=
  let (b, cur, indexKvs) := s
  let (newEntry, alloc) := b.alloc.allocAligned entrySize 256
  let chunk := bulkKvs.drop (i * kvsPerEntry)
  let newMinKey := (chunk.getD 0 (0, 0)).1
  let size := min (bulkKvs.length - i * kvsPerEntry) kvsPerEntry
  let evs := Entry.initKVs newEntry newMinKey chunk size
    ++ [.store (cur, .next) newEntry] ++ memPersist cur entrySize
  let b := { b with alloc := alloc }.run evs
  let (data, b) := b.newMeta ((MetaData.create b.baseAddr newEntry).resetNBitmap size)
  (b, newEntry, indexKvs ++ [(newMinKey, data)])

/-- `BulkLoad`. -/
def bulkLoad (b : BitmapTree) (bulkKvs : List KV) : Option BitmapTree :=
  let numKeys := bulkKvs.length
  if numKeys = 0 then some b
  else
    let b := b.run (Entry.setOrderedKVs b.head bulkKvs (min numKeys kvsPerEntry)
      ++ memPersist b.head entrySize)
    let b := { b with index := b.index.erase invalidKey }
    let (data, b) := b.newMeta
      ((MetaData.create b.baseAddr b.head).resetNBitmap (min numKeys kvsPerEntry))
    let indexKvs := [(b.mem (b.head, .minKey), data)]
    if numKeys ≤ kvsPerEntry then some b
    else
      let (b, cur, indexKvs) :=
        (List.range' 1 ((numKeys - 1) / kvsPerEntry)).foldl (bulkLoadStep bulkKvs)
          (b, b.head, indexKvs)
      (b.index.bulkLoad indexKvs).map fun index =>
        { b with index := index }.run (memPersist cur entrySize)

/-! ## Operations -/

/-- `*(index->get_payload_last_no_greater_than(key))`: a `MetaData`. -/
def lookup (b : BitmapTree) (k : Nat) : Option Nat :=
  (b.index.floor k).map Prod.snd

/-- `Get`. -/
def get (b : BitmapTree) (k : Nat) : Option (Status × Nat) := do
  let data ← b.lookup k
  match Entry.get b.mem (b.entryOf data) k with
  | some v => return (.ok, v)
  | none => return (.fail, 0)

/-- The stores of `splitEntry` in this build: the flag is not persisted. -/
def splitTrace (m : Mem) (entry newEntry : Nat) : Trace :=
  let init := Entry.initKVs newEntry (Entry.medianKey m entry)
      ((Entry.sortedKVs m entry).drop (kvsPerEntry / 2)) ((kvsPerEntry + 1) / 2)
    ++ Entry.setFlag entry 1
  init ++ [.store (newEntry, .next) (exec m init (entry, .next))]
    ++ memPersist newEntry entrySize ++ [.store (entry, .next) newEntry]
    ++ Entry.setOrderedKVs entry (Entry.sortedKVs m entry) (kvsPerEntry / 2)
    ++ Entry.setFlag entry 0 ++ memPersist entry entrySize

/-- `splitEntry`. -/
def splitEntry (b : BitmapTree) (data : Nat) : BitmapTree :=
  let entry := b.entryOf data
  let m := b.mem
  let (newEntry, alloc) := b.alloc.allocAligned entrySize 256
  let newMinKey := Entry.medianKey m entry
  let (newData, b) := { b with alloc := alloc }.newMeta
    (MetaData.create b.baseAddr newEntry).resetHalfBitmap
  { b with
    index := b.index.insert newMinKey newData
    metas := setLoc b.metas data (b.metas data).resetHalfBitmap }.run (splitTrace m entry newEntry)

/-- `Insert`. -/
def insert (b : BitmapTree) (k v : Nat) : Option (Status × BitmapTree) := do
  let data ← b.lookup k
  let data ← if b.entryOf data = null then b.lookup (k - 1) else some data
  let entry := b.entryOf data
  let pos := (b.metas data).findFirstZero
  if kvsPerEntry ≤ pos then
    let b := b.splitEntry data
    let next := b.mem (entry, .next)
    let target := if b.mem (next, .minKey) ≤ k then next else entry
    let (ret, evs) := Entry.maybePut b.mem target k v
    return (ret, b.run evs)
  else
    return (.ok, (b.run (Entry.putAtPos entry pos k v)).setBit data pos)

/-- `Update`. -/
def update (b : BitmapTree) (k v : Nat) : Option (Status × BitmapTree) := do
  let data ← b.lookup k
  let (ret, evs) := Entry.update b.mem (b.entryOf data) k v
  return (ret, b.run evs)

/-- `Remove`. The bitmap is not told. -/
def remove (b : BitmapTree) (k : Nat) : Option (Status × BitmapTree) := do
  let data ← b.lookup k
  let (ret, evs) := Entry.remove b.mem (b.entryOf data) k
  return (ret, b.run evs)

/-- One operation. -/
def step (b : BitmapTree) : Op → Option (Answer × BitmapTree)
  | .insert k v => (b.insert k v).map fun r => (⟨r.1, none⟩, r.2)
  | .update k v => (b.update k v).map fun r => (⟨r.1, none⟩, r.2)
  | .remove k => (b.remove k).map fun r => (⟨r.1, none⟩, r.2)
  | .get k => (b.get k).map fun r => (⟨r.1, some r.2⟩, b)

end BitmapTree

/-! ## Bitmaps of a prefix -/

/-- The bitmap of the first `n` slots. -/
def mask (n : Nat) : UInt16 := UInt16.ofNat (2 ^ n - 1)

theorem mask_clear : ∀ n < kvsPerEntry, mask n &&& (1 <<< UInt16.ofNat n) = 0 := by
  decide

namespace MetaData

theorem findFirstZero_mask {md : MetaData} {n : Nat} (h : md.bitmap = mask n)
    (hn : n ≤ kvsPerEntry) : md.findFirstZero = n := by
  have hall : ∀ n ≤ kvsPerEntry, ffsShort (~~~mask n) - 1 = n := by decide
  rw [findFirstZero, h]
  exact hall n hn

theorem setBitmap_mask {md : MetaData} {n : Nat} (h : md.bitmap = mask n)
    (hn : n < kvsPerEntry) : (md.setBitmap n).bitmap = mask (n + 1) := by
  have hall : ∀ n < kvsPerEntry, mask n ||| (1 <<< UInt16.ofNat n) = mask (n + 1) := by decide
  show md.bitmap ||| _ = _
  rw [h]
  exact hall n hn

theorem resetHalfBitmap_mask (md : MetaData) :
    md.resetHalfBitmap.bitmap = mask (kvsPerEntry / 2) := by
  show (0x007F : UInt16) = mask (kvsPerEntry / 2)
  decide

theorem resetNBitmap_mask (baseAddr entry : Nat) {n : Nat} (hn : n ≤ kvsPerEntry) :
    ((create baseAddr entry).resetNBitmap n).bitmap = mask n := by
  have hall : ∀ n ≤ kvsPerEntry,
      (if n = kvsPerEntry then 0x3FFF else setBits 0x0000 n) = mask n := by decide
  rw [← hall n hn, resetNBitmap]
  split
  · rfl
  · rfl

/-- A block of the mapping survives the six bytes. -/
theorem entry_create {baseAddr entry : Nat} (hle : baseAddr ≤ entry)
    (hlt : entry < baseAddr + 2 ^ 48) : (create baseAddr entry).entry baseAddr = entry := by
  simp only [MetaData.entry, create]
  rw [Nat.mod_eq_of_lt (by omega)]
  omega

end MetaData

end Epli
