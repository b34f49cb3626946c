import Mathlib.Data.Rat.Floor
import Epli.Lib.FirstFit
import Epli.Lib.Smear
import Epli.Lib.Pmem

/-!
# CLHT

The hash table behind the SW-Table, `clht_lb_res`, used by one thread. A bin is a
chain of buckets of three slots; the key `0` marks an empty slot. When the number
of overflow buckets reaches the number of bins, `clht_put` asks `ht_status`, which

* copies a sparse table into one an eighth of its size and leaves out the buckets
  that have not been read for a while (active elimination);
* empties the least hot bucket of the bin if the table holds too much already
  (passive elimination);
* copies the table into a larger one otherwise.

Locks are left out: they are all free between two calls. Old tables and buckets are never
given out again while they are read: the thread is registered with the reclamation, see
`Epli.ClhtLocks`.
-/

namespace Epli.Clht

open Lib

def entriesPerBucket : Nat := 3
def maxBucketSize : Nat := 1024 * 1024
def maxActiveEliminationTime : Nat := 512
def clhtPercExpansions : Nat := 1
def clhtMaxExpansions : Nat := 12
def clhtPercFullDouble : Nat := 50
def clhtOccupAfterRes : Nat := 40
def clhtPercFullHalve : Nat := 5
def clhtRatioHalve : Nat := 8

/-! ## Buckets -/

/-- `bucket_t` without its lock and its `next`: the time and the heat of the
elimination policies, and `(key[j], val[j])`. -/
structure Bucket where
  t : BitVec 24
  hops : UInt32
  slots : List (Nat × Nat)
  three : slots.length = entriesPerBucket

/-- What `memalign` leaves in a bucket. -/
structure Raw where
  t : BitVec 24
  hops : UInt32
  val0 : Nat
  val1 : Nat
  val2 : Nat

namespace Bucket

/-- A bucket after `memset`. -/
def zero : Bucket := ⟨0, 0, [(0, 0), (0, 0), (0, 0)], rfl⟩

/-- `clht_bucket_create`: `t`, `hops` and `val` are not set. -/
def create (raw : Raw) : Bucket :=
  ⟨raw.t, raw.hops, [(0, raw.val0), (0, raw.val1), (0, raw.val2)], rfl⟩

/-- Edit the first slot on which `f` is defined. -/
def editSlot {β : Type} (f : Nat × Nat → Option (β × (Nat × Nat))) (b : Bucket) :
    Option (β × Bucket) :=
  match h : modifyFirst f b.slots with
  | none => none
  | some (a, slots) =>
    some (a, { b with slots := slots, three := (modifyFirst_length h).trans b.three })

/-- The bucket part of `clht_get`. -/
def get (key : Nat) (lt : UInt32) (b : Bucket) : Option (Nat × Bucket) :=
  (b.slots.find? fun s => s.1 == key).map fun s =>
    (s.2, { b with hops := b.hops + 1, t := BitVec.ofNat 24 lt.toNat })

/-- The bucket part of `clht_update`. -/
def update (key val : Nat) : Bucket → Option (Unit × Bucket) :=
  editSlot fun s => if s.1 = key then some ((), (s.1, val)) else none

/-- The bucket part of `clht_remove`. -/
def remove (key : Nat) : Bucket → Option (Nat × Bucket) :=
  editSlot fun s => if s.1 = key then some (s.2, (0, s.2)) else none

/-- Put a pair into the first empty slot. -/
def fill (key val : Nat) : Bucket → Option (Unit × Bucket) :=
  editSlot fun s => if s.1 = 0 then some ((), (key, val)) else none

/-- Set every key to `0`. -/
def clear (b : Bucket) : Bucket :=
  { b with slots := b.slots.map fun s => (0, s.2), three := List.length_map _ |>.trans b.three }

/-- Number of keys. -/
def size (b : Bucket) : Nat := b.slots.countP fun s => 0 < s.1

end Bucket

/-! ## Chains -/

/-- A bucket of the table and the overflow buckets behind its `next`. -/
structure Chain where
  head : Bucket
  overflow : List Bucket

namespace Chain

/-- The buckets in the order of the `do .. while` loops. -/
def buckets (c : Chain) : List Bucket := c.head :: c.overflow

/-- Edit the first bucket on which `f` is defined. -/
def editBucket {β : Type} (f : Bucket → Option (β × Bucket)) (c : Chain) : Option (β × Chain) :=
  match f c.head with
  | some (a, head) => some (a, { c with head := head })
  | none => (modifyFirst f c.overflow).map fun r => (r.1, { c with overflow := r.2 })

/-- `bucket_exists`. -/
def bucketExists (c : Chain) (key : Nat) : Bool :=
  c.buckets.any fun b => b.slots.any fun s => s.1 == key

/-- A new bucket at the end of the chain, with the pair in its first slot. -/
def expand (c : Chain) (raw : Raw) (key val : Nat) : Chain :=
  { c with overflow := c.overflow ++
      [{ Bucket.create raw with
          slots := [(key, val), (0, raw.val1), (0, raw.val2)], three := rfl }] }

/-- The loop of passive elimination: the number of the bucket with the lowest time,
and among these the lowest heat. -/
def leastHot : List Bucket → Nat → Option Nat → Nat → Nat → Option Nat
  | [], _, curBucket, _, _ => curBucket
  | b :: bs, i, curBucket, curTime, curHops =>
    if b.t.toNat < curTime ∨ (b.t.toNat = curTime ∧ b.hops.toNat < curHops) then
      leastHot bs (i + 1) (some i) b.t.toNat b.hops.toNat
    else leastHot bs (i + 1) curBucket curTime curHops

/-- Empty the `i`-th bucket. -/
def clearBucket (c : Chain) : Nat → Chain
  | 0 => { c with head := c.head.clear }
  | i + 1 => { c with overflow := c.overflow.modify i Bucket.clear }

/-- Passive elimination in a bin. -/
def eliminate (c : Chain) : Chain :=
  match leastHot c.buckets 0 none (2 ^ 32 - 1) (2 ^ 32 - 1) with
  | some i => c.clearBucket i
  | none => c

end Chain

/-! ## Tables -/

/-- `clht_hashtable_t`. -/
structure Hashtable where
  numBuckets : Nat
  table : Nat → Chain
  hash : Nat
  version : Nat
  numExpands : UInt32
  numExpandsThreshold : UInt32

namespace Hashtable

/-- `clht_hashtable_create`: `NULL` for no buckets. -/
def create (numBuckets : Nat) : Option Hashtable :=
  if numBuckets = 0 then none
  else
    let threshold := UInt32.ofNat (clhtPercExpansions * numBuckets)
    some
      { numBuckets := numBuckets
        table := fun _ => ⟨Bucket.zero, []⟩
        hash := numBuckets - 1
        version := 0
        numExpands := 0
        numExpandsThreshold := if threshold = 0 then 1 else threshold }

/-- `clht_hash`. -/
def clhtHash (h : Hashtable) (key : Nat) : Nat := key &&& h.hash

/-- Store to a bin. -/
def setBin (h : Hashtable) (bin : Nat) (c : Chain) : Hashtable :=
  { h with table := setLoc h.table bin c }

/-- Number of keys, as `ht_status` counts them. -/
def size (h : Hashtable) : Nat :=
  ((List.range h.numBuckets).map fun bin => ((h.table bin).buckets.map Bucket.size).sum).sum

/-- `expands_max` of `ht_status`. -/
def expandsMax (h : Hashtable) : Nat :=
  (List.range h.numBuckets).foldl (fun m bin => max m (h.table bin).overflow.length) 0

/-- `full_ratio`. The source computes it in `double`; for a power of two of buckets
and fewer than `2^40` keys no comparison with it comes out differently. -/
def fullRatio (h : Hashtable) : ℚ := 100 * h.size / (h.numBuckets * entriesPerBucket : Nat)

/-- `clht_get`. -/
def clhtGet (h : Hashtable) (key : Nat) (lt : UInt32) : Nat × Hashtable :=
  let bin := h.clhtHash key
  match (h.table bin).editBucket (Bucket.get key lt) with
  | some (val, c) => (val, h.setBin bin c)
  | none => (0, h)

/-- `clht_update`. -/
def clhtUpdate (h : Hashtable) (key val : Nat) : Bool × Hashtable :=
  let bin := h.clhtHash key
  match (h.table bin).editBucket (Bucket.update key val) with
  | some (_, c) => (true, h.setBin bin c)
  | none => (false, h)

/-- `clht_remove`. -/
def clhtRemove (h : Hashtable) (key : Nat) : Nat × Hashtable :=
  let bin := h.clhtHash key
  if (h.table bin).bucketExists key then
    match (h.table bin).editBucket (Bucket.remove key) with
    | some (val, c) => (val, h.setBin bin c)
    | none => (0, h)
  else (0, h)

end Hashtable

/-! ## Resizing

`raw` is what `memalign` leaves in a new bucket, by the version of the table, the
bin and the place in the chain. -/

/-- `pow2roundup`. -/
def pow2roundup (x : Nat) : Nat :=
  if x = 0 then 1
  else smear 32 (smear 16 (smear 8 (smear 4 (smear 2 (smear 1 (x - 1)))))) + 1

section

variable (raw : Nat → Nat → Nat → Raw)

namespace Hashtable

/-- A new overflow bucket with a pair, counted as `clht_bucket_create_stats` does. -/
def expandBin (h : Hashtable) (bin key val : Nat) : Hashtable :=
  let c := h.table bin
  { h.setBin bin (c.expand (raw h.version bin c.buckets.length) key val) with
    numExpands := h.numExpands + 1 }

/-- `clht_put_seq`. -/
def clhtPutSeq (h : Hashtable) (key val bin : Nat) : Hashtable :=
  match (h.table bin).editBucket (Bucket.fill key val) with
  | some (_, c) => h.setBin bin c
  | none => h.expandBin raw bin key val

/-- Copy the keys of a bucket. -/
def copySlots (b : Bucket) (htNew : Hashtable) : Hashtable :=
  b.slots.foldl (fun htNew s =>
    if s.1 ≠ 0 then htNew.clhtPutSeq raw s.1 s.2 (htNew.clhtHash s.1) else htNew) htNew

/-- `bucket_cpy` for an increase. -/
def bucketCpy (c : Chain) (htNew : Hashtable) : Hashtable :=
  c.buckets.foldl (fun htNew b => copySlots raw b htNew) htNew

/-- `bucket_cpy` for a decrease, with active elimination. -/
def bucketCpyActive (lt : UInt32) (c : Chain) (htNew : Hashtable) : Hashtable :=
  c.buckets.foldl (fun htNew b =>
    let kvCnt := b.slots.countP fun s => s.1 ≠ 0
    if lt.toNat < b.t.toNat + maxActiveEliminationTime ∨ kvCnt < 2 then copySlots raw b htNew
    else htNew) htNew

/-- The loop of `ht_resize_pes`. -/
def copyTable (htOld : Hashtable) (isIncrease : Bool) (lt : UInt32) (htNew : Hashtable) :
    Hashtable :=
  (List.range htOld.numBuckets).foldl (fun htNew b =>
    if isIncrease then bucketCpy raw (htOld.table b) htNew
    else bucketCpyActive raw lt (htOld.table b) htNew) htNew

/-- `ht_resize_pes`. `again` is the call of `ht_status` at its end. -/
def htResizePes (again : Hashtable → Option (Nat × Hashtable)) (htOld : Hashtable)
    (isIncrease : Bool) (times : Nat) (lt : UInt32) : Option Hashtable := do
  let numBucketsNew := if isIncrease then times * htOld.numBuckets
    else htOld.numBuckets / clhtRatioHalve
  let htNew ← create numBucketsNew
  let htNew := copyTable raw htOld isIncrease lt { htNew with version := htOld.version + 1 }
  if htNew.numExpandsThreshold ≤ htNew.numExpands then (again htNew).map Prod.snd
  else return htNew

/-- Both versions of `ht_status`, which differ in what they do when the table must
not grow any more. -/
def statusWith (stop : Hashtable → Hashtable) (again : Hashtable → Option (Nat × Hashtable))
    (h : Hashtable) (resizeIncrease justPrint : Bool) (lt : UInt32) :
    Option (Nat × Hashtable) :=
  let size := h.size
  let fullRatio := h.fullRatio
  if justPrint then some (size, h)
  else if 0 < fullRatio ∧ fullRatio < clhtPercFullHalve then
    (htResizePes raw again h false 33 lt).map fun h => (size, h)
  else if (0 < fullRatio ∧ clhtPercFullDouble < fullRatio) ∨ clhtMaxExpansions < h.expandsMax ∨
      resizeIncrease then
    if maxBucketSize ≤ size then some (size, stop h)
    else
      let incBy := ⌊fullRatio / clhtOccupAfterRes⌋₊
      let incByPow2 := pow2roundup incBy
      let incByPow2 := if incByPow2 = 1 then 2 else incByPow2
      (htResizePes raw again h true incByPow2 0).map fun h => (size, h)
  else some (size, h)

/-- `ht_status(h, resize_increase, just_print, lt)`: stops without removing a
bucket. `calls` bounds the nested calls. -/
def htStatus : Nat → Hashtable → Bool → Bool → UInt32 → Option (Nat × Hashtable)
  | 0, _, _, _, _ => none
  | calls + 1, h, resizeIncrease, justPrint, lt =>
    statusWith raw id (fun h => htStatus calls h true false 0) h resizeIncrease justPrint lt

/-- `ht_status(h, resize_increase, just_print, put_bin, lt)`: empties a bucket of
the bin when it stops. -/
def htStatusBin (calls : Nat) (h : Hashtable) (resizeIncrease justPrint : Bool) (putBin : Nat)
    (lt : UInt32) : Option (Nat × Hashtable) :=
  statusWith raw (fun h => h.setBin putBin (h.table putBin).eliminate)
    (fun h => htStatus raw calls h true false 0) h resizeIncrease justPrint lt

/-- `clht_put`. The loop compares every slot of the bin with the key before it
writes the pair. -/
def clhtPut (calls : Nat) (h : Hashtable) (key val : Nat) (lt : UInt32) :
    Option (Bool × Hashtable) :=
  let bin := h.clhtHash key
  if (h.table bin).bucketExists key then some (false, h)
  else
    match (h.table bin).editBucket (Bucket.fill key val) with
    | some (_, c) => some (true, h.setBin bin c)
    | none =>
      let h := h.expandBin raw bin key val
      if h.numExpands = h.numExpandsThreshold then
        (htStatusBin raw calls h true false bin lt).map fun r => (true, r.2)
      else some (true, h)

end Hashtable

end

end Epli.Clht
