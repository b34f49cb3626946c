import Epli.Lib.Multimap
import Epli.Entry

/-!
# EPLTree: the data list in NVM under a volatile index

The operations of `epltree.h` in the default build. A tree is the visible NVM,
the allocator, the head of the data list and the index from separators to
entries. The index is ALEX, taken as the ordered multimap of `Lib.Multimap`: a
new key goes to the right of its equals and `get_payload_last_no_greater_than` is
`floor`. In an empty index that function returns what slot 0 of the only leaf
holds, which `BulkLoad` can leave behind (`vacated`).

An operation that has no meaning (a lookup in an index that never held anything, a
write past the end of an array, a recursion that does not come back) is `none`.
-/

namespace Epli

open Lib

/-- The index: separator to entry pointer. -/
abbrev Index := Multimap Nat Nat

/-- State of an `EPLTree` with the NVM and the allocator it works on. -/
structure Tree where
  pm : Pmem Loc Nat
  alloc : Alloc
  head : Nat
  index : Index
  /-- The payload in slot 0 of an index that has lost its only separator. -/
  vacated : Option Nat := none

namespace Tree

/-- The visible content of NVM. -/
abbrev mem (t : Tree) : Mem := t.pm.vol

/-- Run a trace on the tree's memory. -/
def run (t : Tree) (evs : Trace) : Tree :=
  { t with pm := t.pm.exec lineOf evs }

/-- `*(index->get_payload_last_no_greater_than(key))`. -/
def lookup (t : Tree) (k : Nat) : Option Nat :=
  ((t.index.floor k).map Prod.snd).or t.vacated

/-! ## Construction -/

/-- `EPLTree(recover)` over a newly mapped file: `DataList::Init` takes the first
block as the head of the list, and only a tree that does not recover writes it
and gives the index its first separator. -/
def create (recover : Bool) (f : Mapping) (pm : Pmem Loc Nat) : Tree :=
  let (entryHead, alloc) := (Alloc.create f).allocAligned entrySize 256
  if recover then
    { pm := pm, alloc := alloc, head := entryHead, index := Multimap.empty }
  else
    { pm := pm.exec lineOf (Entry.init entryHead invalidKey ++ memPersist entryHead entrySize)
      alloc := alloc
      head := entryHead
      index := (Multimap.empty : Index).insert invalidKey entryHead }

/-- The loop of `Recover` with room for `cap` more elements in `index_kvs`; a
write past the end of the array has no meaning. -/
def recoverLoop (m : Mem) : Nat → Nat → Option (List (Nat × Nat))
  | 0, cur => if cur = null then some [] else none
  | cap + 1, cur =>
    if cur = null then some []
    else (recoverLoop m cap (m (cur, .next))).map fun kvs => (m (cur, .minKey), cur) :: kvs

/-- `Recover(load_size)`. -/
def recover (t : Tree) (loadSize : Nat) : Option Tree := do
  let indexKvs ← recoverLoop t.mem (loadSize / kvsPerEntry + 1) t.head
  let index ← t.index.bulkLoad indexKvs
  return { t with index := index }

/-- One round of the loop of `BulkLoad`: build entry `i` in a new block, link it
behind `cur` and persist `cur`. The state is the tree, `cur` and `index_kvs`. -/
def bulkLoadStep (bulkKvs : List KV) (s : Tree × Nat × List (Nat × Nat)) (i : Nat) :
    Tree × Nat × List (Nat × Nat) :=
  let (t, cur, indexKvs) := s
  let (newEntry, alloc) := t.alloc.allocAligned entrySize 256
  let chunk := bulkKvs.drop (i * kvsPerEntry)
  let newMinKey := (chunk.getD 0 (0, 0)).1
  let evs := Entry.initKVs newEntry newMinKey chunk
      (min (bulkKvs.length - i * kvsPerEntry) kvsPerEntry)
    ++ [.store (cur, .next) newEntry] ++ memPersist cur entrySize
  ({ t with alloc := alloc }.run evs, newEntry, indexKvs ++ [(newMinKey, newEntry)])

/-- `BulkLoad`. The loop runs for the `i ≥ 1` with `KVS_PER_ENTRY * i < num_keys`. The erased
separator leaves its payload in slot 0, and `bulk_load` builds a new leaf. -/
def bulkLoad (t : Tree) (bulkKvs : List KV) : Option Tree :=
  let numKeys := bulkKvs.length
  if numKeys = 0 then some t
  else
    let t := t.run (Entry.setOrderedKVs t.head bulkKvs (min numKeys kvsPerEntry)
      ++ memPersist t.head entrySize)
    let t := { t with index := t.index.erase invalidKey, vacated := t.lookup invalidKey }
    let indexKvs := [(t.mem (t.head, .minKey), t.head)]
    if numKeys ≤ kvsPerEntry then some t
    else
      let (t, cur, indexKvs) :=
        (List.range' 1 ((numKeys - 1) / kvsPerEntry)).foldl (bulkLoadStep bulkKvs)
          (t, t.head, indexKvs)
      (t.index.bulkLoad indexKvs).map fun index =>
        { t with index := index, vacated := none }.run (memPersist cur entrySize)

/-! ## Operations -/

/-- `Get`: the status and `val`. -/
def get (t : Tree) (k : Nat) : Option (Status × Nat) := do
  let entry ← t.lookup k
  match Entry.get t.mem entry k with
  | some v => return (.ok, v)
  | none => return (.fail, 0)

/-- The part of `splitEntry` that builds the new entry and marks the split. -/
def splitInit (m : Mem) (entry newEntry : Nat) : Trace :=
  Entry.initKVs newEntry (Entry.medianKey m entry)
      ((Entry.sortedKVs m entry).drop (kvsPerEntry / 2)) ((kvsPerEntry + 1) / 2)
    ++ Entry.setFlag entry 1 ++ Entry.setPersistFlag entry 1

/-- The part of `splitEntry` that links the new entry behind the old one. -/
def splitLink (m : Mem) (entry newEntry : Nat) : Trace :=
  [.store (newEntry, .next) (exec m (splitInit m entry newEntry) (entry, .next))]
    ++ memPersist newEntry entrySize ++ [.store (entry, .next) newEntry]

/-- The part of `splitEntry` that refills the old entry with the lower half. -/
def splitRefill (m : Mem) (entry : Nat) : Trace :=
  Entry.setOrderedKVs entry (Entry.sortedKVs m entry) (kvsPerEntry / 2)
    ++ Entry.setFlag entry 0 ++ memPersist entry entrySize

/-- `splitEntry`, with the stores it makes. -/
def splitEntry (t : Tree) (entry : Nat) : Trace × Tree :=
  let (newEntry, alloc) := t.alloc.allocAligned entrySize 256
  let newMinKey := Entry.medianKey t.mem entry
  let evs := splitInit t.mem entry newEntry ++ splitLink t.mem entry newEntry
    ++ splitRefill t.mem entry
  (evs, { t with alloc := alloc, index := t.index.insert newMinKey newEntry }.run evs)

/-- `Insert`, with the stores it makes, allowing `calls` nested calls of itself. -/
def insert : Nat → Tree → Nat → Nat → Option (Status × Trace × Tree)
  | 0, _, _, _ => none
  | calls + 1, t, k, v => do
    let entry ← t.lookup k
    let entry ← if entry = null then t.lookup (k - 1) else some entry
    match Entry.maybePut t.mem entry k v with
    | (.overflow, _) =>
      let (evs, t') := t.splitEntry entry
      let (ret, evs', t'') ← insert calls t' k v
      return (ret, evs ++ evs', t'')
    | (ret, evs) => return (ret, evs, t.run evs)

/-- `Update`, with the stores it makes. -/
def update (t : Tree) (k v : Nat) : Option (Status × Trace × Tree) := do
  let entry ← t.lookup k
  let (ret, evs) := Entry.update t.mem entry k v
  return (ret, evs, t.run evs)

/-- `Remove`, with the stores it makes. -/
def remove (t : Tree) (k : Nat) : Option (Status × Trace × Tree) := do
  let entry ← t.lookup k
  let (ret, evs) := Entry.remove t.mem entry k
  return (ret, evs, t.run evs)

end Tree

/-! ## Clients -/

/-- An operation of a client. -/
inductive Op where
  | insert (k v : Nat)
  | update (k v : Nat)
  | remove (k : Nat)
  | get (k : Nat)
deriving DecidableEq, Repr

/-- What an operation answers: the status, and `val` for `Get`. -/
structure Answer where
  status : Status
  val : Option Nat := none
deriving DecidableEq, Repr

namespace Tree

/-- One operation on a tree. -/
def step (calls : Nat) (t : Tree) : Op → Option (Answer × Tree)
  | .insert k v => (t.insert calls k v).map fun r => (⟨r.1, none⟩, r.2.2)
  | .update k v => (t.update k v).map fun r => (⟨r.1, none⟩, r.2.2)
  | .remove k => (t.remove k).map fun r => (⟨r.1, none⟩, r.2.2)
  | .get k => (t.get k).map fun r => (⟨r.1, some r.2⟩, t)

end Tree

end Epli
