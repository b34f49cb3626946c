import Epli.Lib.Threads
import Epli.Lib.SlotArray
import Epli.Lib.Hindsight
import Epli.Clht

/-!
# CLHT with many threads

The code of `clht_lb_res` again, now for any number of threads that share one table.
Each access to the shared memory is a step of its own: the reads of `clht_get` and
`bucket_exists`, which take no lock, the lock words of the bins, every write to a slot,
and the pointers `h->ht` and `table_new`. Two kinds of reads are merged with the access
that follows: those that a thread makes in a bin whose lock it holds, and `bucket->next`,
which is `NULL` until a bucket is linked and never changes afterwards. Memory is
sequentially consistent.

`bucket->t` and `bucket->hops` are written without a lock, also by torn writes, and
nothing but the two eliminations reads them. They are left out here, and what the
eliminations decide with them is left to the choice of the step, as are the numbers
that `ht_status` counts while others write.

Tables are numbered in the order in which `h->ht` pointed to them, and none is freed.
This is what reclamation is assumed to give: every thread was registered by
`clht_gc_thread_init`, with an id below `ssmem_ts_list_len`, and a table or a bucket that
a registered thread still reads is not given out again. In a thread that was not
registered `clht_alloc` is `NULL`. `SWTable::Init` registers the calling thread only, and
under the id `getgid()`: with a group other than `0` that id is out of the bounds of
`ts_set`, which is an error of `clht_gc.cc` and `ssmem.cc` and not modelled here.
-/

namespace Epli.Clht

open Lib

/-! ## Chains slot by slot -/

/-- The slots in the order of the `do .. while` loops. -/
def Chain.slots (c : Chain) : List (Nat × Nat) := c.buckets.flatMap Bucket.slots

/-- Store to a slot of a bucket. -/
def Bucket.setSlot (b : Bucket) (j : Nat) (s : Nat × Nat) : Bucket :=
  { b with slots := b.slots.set j s, three := List.length_set.trans b.three }

/-- Store to the `p`-th slot of a chain. -/
def Chain.setSlot (c : Chain) (p : Nat) (s : Nat × Nat) : Chain :=
  if p < entriesPerBucket then { c with head := c.head.setSlot p s }
  else
    { c with overflow := c.overflow.modify (p / entriesPerBucket - 1) fun b =>
        b.setSlot (p % entriesPerBucket) s }

namespace Locks

/-! ## The shared memory -/

/-- `LOCK_FREE`, `LOCK_UPDATE` and `LOCK_RESIZE`. -/
inductive LockWord where
  | free
  | update
  | resize
deriving DecidableEq

/-- `clht_hashtable_t` with the lock words of its bins; `tableNew` says that `table_new`
is set. -/
structure SharedTable where
  ht : Hashtable
  lock : Nat → LockWord
  tableNew : Bool

/-- `clht_t`: the number of the table that `h->ht` points to, and all tables so far. -/
structure Mem where
  ht : Nat
  tables : Nat → SharedTable
  resizeLock : Bool

namespace Mem

def chain (m : Mem) (ht bin : Nat) : Chain := (m.tables ht).ht.table bin

def slots (m : Mem) (ht bin : Nat) : List (Nat × Nat) := (m.chain ht bin).slots

def lock (m : Mem) (ht bin : Nat) : LockWord := (m.tables ht).lock bin

def numBuckets (m : Mem) (ht : Nat) : Nat := (m.tables ht).ht.numBuckets

def clhtHash (m : Mem) (ht key : Nat) : Nat := (m.tables ht).ht.clhtHash key

/-- Change one table. -/
def edit (m : Mem) (ht : Nat) (f : SharedTable → SharedTable) : Mem :=
  { m with tables := setLoc m.tables ht (f (m.tables ht)) }

def setLock (m : Mem) (ht bin : Nat) (w : LockWord) : Mem :=
  m.edit ht fun t => { t with lock := setLoc t.lock bin w }

def setChain (m : Mem) (ht bin : Nat) (c : Chain) : Mem :=
  m.edit ht fun t => { t with ht := t.ht.setBin bin c }

def setSlot (m : Mem) (ht bin p : Nat) (s : Nat × Nat) : Mem :=
  m.setChain ht bin ((m.chain ht bin).setSlot p s)

/-- `IAF_U32(&h->num_expands)`. -/
def countExpand (m : Mem) (ht : Nat) : Mem :=
  m.edit ht fun t => { t with ht := { t.ht with numExpands := t.ht.numExpands + 1 } }

/-- `h->table_new` is set. -/
def setNew (m : Mem) (ht : Nat) : Mem := m.edit ht fun t => { t with tableNew := true }

/-- `SWAP_U64(h, ht_new)`. -/
def publish (m : Mem) (new : Hashtable) : Mem :=
  { m with
    ht := m.ht + 1
    tables := setLoc m.tables (m.ht + 1) ⟨new, fun _ => .free, false⟩ }

/-- After `clht_create`. -/
def create (h : Hashtable) : Mem := ⟨0, fun _ => ⟨h, fun _ => .free, false⟩, false⟩

end Mem

/-! ## The places of the code -/

/-- A call of one of the four functions. -/
inductive Op where
  | get (key : Nat)
  | put (key val : Nat)
  | update (key val : Nat)
  | remove (key : Nat)
deriving DecidableEq

def Op.key : Op → Nat
  | .get key | .put key _ | .update key _ | .remove key => key

/-- What a thread does with the lock of a bin: one of three calls, or the passive
elimination of `ht_status`. `putBin` is the bin that `clht_put` computes before its loop;
the `bin` in the loop is another variable, so `ht_status` gets the first one. -/
inductive Section where
  | put (key val putBin : Nat)
  | update (key val : Nat)
  | remove (key : Nat)
  | eliminate (putBin : Nat)
deriving DecidableEq

/-- The call that a section belongs to, if it still has to take effect. -/
def Section.op : Section → Option Op
  | .put key val _ => some (.put key val)
  | .update key val => some (.update key val)
  | .remove key => some (.remove key)
  | .eliminate _ => none

/-- The key that a section looks for. -/
def Section.key : Section → Nat
  | .put key _ _ | .update key _ | .remove key => key
  | .eliminate _ => 0

/-- What `ht_resize_pes` has at hand while it copies. -/
structure Resize where
  old : Nat
  new : Hashtable
  isIncrease : Bool

/-- How a thread goes on after `LOCK_RLS`. -/
inductive Exit where
  | ret (result : Nat)
  | status (putBin : Nat)
deriving DecidableEq

/-- Where a thread is, with its local variables. -/
inductive Pc where
  | idle
  /-- Before the first read of `h->ht`. -/
  | called (op : Op)
  /-- `clht_get`: before `val = bucket->val[j]`. -/
  | getVal (key ht bin p : Nat)
  /-- `clht_get`: before `bucket->key[j] == key`. -/
  | getKey (key ht bin p val : Nat)
  /-- `clht_get`: before `bucket->val[j] == val`. -/
  | getAgain (key ht bin p val : Nat)
  /-- In `bucket_exists`, without the lock. -/
  | bucketExists (s : Section) (ht bin p : Nat)
  /-- Before the compare and swap of `lock_acq_chk_resize`. -/
  | acquire (s : Section) (ht bin : Nat)
  /-- In the loop `while (h->table_new == NULL)`. -/
  | await (s : Section) (ht : Nat)
  /-- Before `hashtable = h->ht` in the loop around `LOCK_ACQ`. -/
  | reload (s : Section)
  /-- In the loop over the slots, with the lock. -/
  | scan (s : Section) (ht bin p : Nat) (empty : Option Nat)
  /-- `clht_put`: before `*empty_v = val`. -/
  | fill (key val putBin ht bin p : Nat)
  /-- `clht_put`: before `*empty = key`. -/
  | bind (key val putBin ht bin p : Nat)
  /-- `clht_put`: in `clht_bucket_create_stats`. -/
  | grow (key val putBin ht bin : Nat)
  /-- `clht_put`: before `bucket->next = b`. -/
  | link (key val putBin ht bin : Nat) (resize : Bool)
  /-- `clht_update`: before `bucket->val[j] = val`. -/
  | assign (key val ht bin p : Nat)
  /-- `clht_remove`: before `bucket->key[j] = 0`. -/
  | erase (key ht bin p val : Nat)
  /-- Passive elimination: before the loop that looks for the coldest bucket. -/
  | choose (ht bin : Nat)
  /-- Passive elimination: `n` more slots of the bucket are to be emptied. -/
  | clear (ht bin p n : Nat)
  /-- Before `LOCK_RLS`. -/
  | unlock (ht bin : Nat) (exit : Exit)
  /-- In `ht_status`; `none` is the version without a bin. -/
  | status (putBin : Option Nat)
  /-- `ht_resize_pes`: before `ht_old = h->ht`. -/
  | resize (isIncrease : Bool) (times : Nat)
  /-- `ht_resize_pes`: before `TRYLOCK_ACQ(&h->resize_lock)`. -/
  | tryLock (isIncrease : Bool) (times old : Nat)
  /-- Before `LOCK_ACQ_RES` for bin `b`. -/
  | copy (r : Resize) (b : Nat)
  /-- In `bucket_cpy`, before the `i`-th bucket of bin `b`. -/
  | copyBucket (r : Resize) (b i : Nat)
  /-- Before `SWAP_U64`. -/
  | swap (r : Resize)
  /-- Before `ht_old->table_new = ht_new`. -/
  | setNew (old : Nat) (again : Bool)
  /-- Before `TRYLOCK_RLS(h->resize_lock)`. -/
  | unlockResize (again : Bool)
  /-- Before the return. -/
  | done (result : Nat)

/-- What a step chooses: which function is called, what `ht_status` decides, which bucket
is the coldest, and whether active elimination leaves a bucket out. -/
inductive Act where
  | call (op : Op)
  | go
  | shrink
  | enlarge (e : Nat)
  | stop
  | pick (i : Nat)
  | leave
  | ret

/-- What the callers see. -/
abbrev Event : Type := Object.Event Op Nat

section

variable (raw : Nat → Nat → Nat → Raw)

/-! ## The steps -/

/-- The first read of `h->ht`, and the bin. `clht_put` and `clht_remove` look for the key
before they take the lock (`CLHT_READ_ONLY_FAIL`). -/
def Op.start (m : Mem) : Op → Pc
  | .get key => .getVal key m.ht (m.clhtHash m.ht key) 0
  | .put key val =>
    let bin := m.clhtHash m.ht key
    .bucketExists (.put key val bin) m.ht bin 0
  | .update key val => .acquire (.update key val) m.ht (m.clhtHash m.ht key)
  | .remove key => .bucketExists (.remove key) m.ht (m.clhtHash m.ht key) 0

/-- After `bucket_exists`. -/
def Section.checked (s : Section) (ht bin : Nat) (found : Bool) : Pc :=
  match s, found with
  | .put _ _ _, true => .done 0
  | .remove _, false => .done 0
  | s, _ => .acquire s ht bin

/-- The bin in the table that has just been read. -/
def Section.bin (m : Mem) (ht : Nat) : Section → Nat
  | .put key _ _ | .update key _ | .remove key => m.clhtHash ht key
  | .eliminate putBin => putBin

/-- After `LOCK_ACQ`. -/
def Section.enter (s : Section) (ht bin : Nat) : Pc :=
  match s with
  | .eliminate _ => .choose ht bin
  | s => .scan s ht bin 0 none

/-- The loop has found the key in slot `p`, with the value `val`. -/
def Section.hit (s : Section) (ht bin p val : Nat) : Pc :=
  match s with
  | .put _ _ _ => .unlock ht bin (.ret 0)
  | .update key val' => .assign key val' ht bin p
  | .remove key => .erase key ht bin p val
  | .eliminate _ => .unlock ht bin (.ret 1)

/-- The loop has not found the key; `empty` is the first free slot. -/
def Section.miss (s : Section) (ht bin : Nat) (empty : Option Nat) : Pc :=
  match s, empty with
  | .put key val putBin, some p => .fill key val putBin ht bin p
  | .put key val putBin, none => .grow key val putBin ht bin
  | _, _ => .unlock ht bin (.ret 0)

/-- `empty` after a slot with key `key` that is not the one looked for. -/
def nextEmpty (empty : Option Nat) (p key : Nat) : Option Nat :=
  match empty with
  | some e => some e
  | none => if key = 0 then some p else none

/-- One access to the shared memory. -/
def go (m : Mem) : Pc → Option (Mem × Pc)
  | .called op => some (m, op.start m)
  | .getVal key ht bin p =>
    match (m.slots ht bin)[p]? with
    | some s => some (m, .getKey key ht bin p s.2)
    | none => some (m, .done 0)
  | .getKey key ht bin p val =>
    (m.slots ht bin)[p]?.map fun s =>
      (m, if s.1 = key then .getAgain key ht bin p val else .getVal key ht bin (p + 1))
  | .getAgain _ ht bin p val =>
    (m.slots ht bin)[p]?.map fun s => (m, .done (if s.2 = val then val else 0))
  | .bucketExists s ht bin p =>
    match (m.slots ht bin)[p]? with
    | some x =>
      some (m, if x.1 = s.key then s.checked ht bin true else .bucketExists s ht bin (p + 1))
    | none => some (m, s.checked ht bin false)
  | .acquire s ht bin =>
    -- a bin that the table does not have is memory of somebody else
    if bin < m.numBuckets ht then
      match m.lock ht bin with
      | .free => some (m.setLock ht bin .update, s.enter ht bin)
      | .update => some (m, .acquire s ht bin)
      | .resize => some (m, .await s ht)
    else none
  | .await s ht => some (m, if (m.tables ht).tableNew then .reload s else .await s ht)
  | .reload s => some (m, .acquire s m.ht (s.bin m m.ht))
  | .scan s ht bin p empty =>
    match (m.slots ht bin)[p]? with
    | some x =>
      some (m, if x.1 = s.key then s.hit ht bin p x.2
        else .scan s ht bin (p + 1) (nextEmpty empty p x.1))
    | none => some (m, s.miss ht bin empty)
  | .fill key val putBin ht bin p =>
    (m.slots ht bin)[p]?.map fun x =>
      (m.setSlot ht bin p (x.1, val), .bind key val putBin ht bin p)
  | .bind key _ _ ht bin p =>
    (m.slots ht bin)[p]?.map fun x => (m.setSlot ht bin p (key, x.2), .unlock ht bin (.ret 1))
  | .grow key val putBin ht bin =>
    let m' := m.countExpand ht
    let h := (m'.tables ht).ht
    some (m', .link key val putBin ht bin (h.numExpands = h.numExpandsThreshold))
  | .link key val putBin ht bin resize =>
    let c := m.chain ht bin
    let h := (m.tables ht).ht
    some (m.setChain ht bin (c.expand (raw h.version bin c.buckets.length) key val),
      .unlock ht bin (if resize then .status putBin else .ret 1))
  | .assign _ val ht bin p =>
    (m.slots ht bin)[p]?.map fun x => (m.setSlot ht bin p (x.1, val), .unlock ht bin (.ret 1))
  | .erase _ ht bin p val =>
    (m.slots ht bin)[p]?.map fun x => (m.setSlot ht bin p (0, x.2), .unlock ht bin (.ret val))
  | .clear ht bin _ 0 => some (m, .unlock ht bin (.ret 1))
  | .clear ht bin p (n + 1) =>
    (m.slots ht bin)[p]?.map fun x => (m.setSlot ht bin p (0, x.2), .clear ht bin (p + 1) n)
  | .unlock ht bin exit =>
    some (m.setLock ht bin .free,
      match exit with
      | .ret result => .done result
      | .status putBin => .status (some putBin))
  | .resize isIncrease times => some (m, .tryLock isIncrease times m.ht)
  | .tryLock isIncrease times old =>
    if m.resizeLock then some (m, .done 1)
    else do
      let h := (m.tables old).ht
      let numBucketsNew := if isIncrease then times * h.numBuckets
        else h.numBuckets / clhtRatioHalve
      -- no bins give a null pointer; more than `2^31` are beyond the index of the copy loop
      guard (numBucketsNew ≤ 2 ^ 31)
      let new ← Hashtable.create numBucketsNew
      return ({ m with resizeLock := true },
        .copy ⟨old, { new with version := h.version + 1 }, isIncrease⟩ 0)
  | .copy r b =>
    if b < m.numBuckets r.old then
      match m.lock r.old b with
      | .free => some (m.setLock r.old b .resize, .copyBucket r b 0)
      | .update => some (m, .copy r b)
      | .resize => some (m, .copy r (b + 1))
    else some (m, .swap r)
  | .copyBucket r b i =>
    match (m.chain r.old b).buckets[i]? with
    | some bucket =>
      some (m, .copyBucket { r with new := Hashtable.copySlots raw bucket r.new } b (i + 1))
    | none => some (m, .copy r (b + 1))
  | .swap r => some (m.publish r.new, .setNew r.old (r.new.numExpandsThreshold ≤ r.new.numExpands))
  | .setNew old again => some (m.setNew old, .unlockResize again)
  | .unlockResize again =>
    some ({ m with resizeLock := false }, if again then .status none else .done 1)
  | .idle | .choose _ _ | .status _ | .done _ => none

/-- The step of a thread. -/
def next (m : Mem) (pc : Pc) : Act → Option (Option Event × Mem × Pc)
  | .call op =>
    match pc with
    | .idle => some (some (.call op), m, .called op)
    | _ => none
  | .go => (go raw m pc).map fun r => (none, r)
  | .shrink =>
    match pc with
    | .status _ => some (none, m, .resize false 33)
    | _ => none
  | .enlarge e =>
    match pc with
    | .status _ => some (none, m, .resize true (2 ^ (e + 1)))
    | _ => none
  | .stop =>
    match pc with
    | .status (some putBin) => some (none, m, .reload (.eliminate putBin))
    | .status none => some (none, m, .done 1)
    | _ => none
  | .pick i =>
    match pc with
    | .choose ht bin =>
      if i < (m.chain ht bin).buckets.length then
        some (none, m, .clear ht bin (entriesPerBucket * i) entriesPerBucket)
      else none
    | _ => none
  | .leave =>
    match pc with
    | .copyBucket r b i =>
      if i < (m.chain r.old b).buckets.length ∧ !r.isIncrease then
        some (none, m, .copyBucket r b (i + 1))
      else none
    | _ => none
  | .ret =>
    match pc with
    | .done result => some (some (.ret result), m, .idle)
    | _ => none

variable {T : Type} [DecidableEq T]

/-- The threads over the table. -/
abbrev State (T : Type) := Threads T Mem Pc

def step (s : State T) (a : T × Act) : Option (Option Event × State T) :=
  Threads.step (next raw) s a

end

/-- A fresh table of a power of two of bins, and no thread in a call. -/
structure Init {T : Type} (s : State T) : Prop where
  created : ∃ n h, 2 ^ n ≤ 2 ^ 31 ∧ Hashtable.create (2 ^ n) = some h ∧ s.mem = Mem.create h
  idle : ∀ t, s.pc t = .idle

/-- No key is the one that marks free slots, and no counter of overflow buckets wraps. -/
def Ok (m : Mem) (pc : Pc) : Act → Prop
  | .call op => op.key ≠ 0
  | .go =>
    match pc with
    | .grow _ _ _ ht _ => (m.tables ht).ht.numExpands.toNat + 1 < 2 ^ 32
    | _ => True
  | _ => True

end Locks

end Epli.Clht
