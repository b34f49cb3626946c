import Mathlib.Data.List.GetD
import Mathlib.Data.List.Sort
import Epli.Nvm

/-!
# Entry: one 256 byte block of the data list

The layout and the methods of `entry.h` in the default build (neither
`USE_BITMAP` nor `USE_FGPT`). A method that writes is the trace of its stores
and flushes, in program order, computed from the memory it reads.
-/

namespace Epli

open Lib

/-- The words of an entry. `key i` and `val i` are `kvs[i].first` and
`kvs[i].second`; padding and `reserve` are never touched and left out. -/
inductive Field where
  | next
  | minKey
  | flag
  | key (i : Nat)
  | val (i : Nat)
deriving DecidableEq, Repr

/-- A word of NVM: an entry's address and one of its fields. -/
abbrev Loc := Nat × Field

/-- The visible content of NVM. -/
abbrev Mem := Loc → Nat

/-- A key with its value, `kv_type`. -/
abbrev KV := Nat × Nat

/-- `STATUS_OK`, `STATUS_FAIL` and `STATUS_OVERFLOW`. -/
inductive Status where
  | ok
  | fail
  | overflow
deriving DecidableEq, Repr

/-- `ENTRY_SIZE`, which is also `sizeof(Entry)`. -/
abbrev entrySize : Nat := 256

/-- `KVS_PER_ENTRY`, `(ENTRY_SIZE - 17) / sizeof(kv_type)`. -/
def kvsPerEntry : Nat := (entrySize - 17) / 16

theorem kvsPerEntry_eq : kvsPerEntry = 14 := rfl

/-- `INVALID_KEY`: the key of an empty slot. -/
abbrev invalidKey : Nat := 0

/-- The null pointer. -/
abbrev null : Nat := 0

/-- Byte offset of a field in its entry. -/
def Field.offset : Field → Nat
  | .next => 0
  | .minKey => 8
  | .flag => 16
  | .key i => 24 + 16 * i
  | .val i => 32 + 16 * i

/-- The cache line of a word. -/
def lineOf (l : Loc) : Nat :=
  (l.1 + l.2.offset) / cacheLineSize

/-- Traces over the words of NVM. -/
abbrev Trace := List (Ev Loc Nat)

namespace Entry

/-! ## Writing methods -/

/-- `memset(kvs, 0, sizeof(kvs))`, word by word. -/
def clearKVs (p : Nat) : Trace :=
  (List.range kvsPerEntry).flatMap fun i => [.store (p, .key i) 0, .store (p, .val i) 0]

/-- `memset(this, 0, sizeof(Entry))`, word by word. -/
def clear (p : Nat) : Trace :=
  [.store (p, .next) 0, .store (p, .minKey) 0, .store (p, .flag) 0] ++ clearKVs p

/-- The loop of `setVal(i, kvs[i].second); setKey(i, kvs[i].first)`. -/
def fillKVs (p : Nat) (kvs : List KV) (size : Nat) : Trace :=
  (List.range size).flatMap fun i =>
    [.store (p, .val i) (kvs.getD i (0, 0)).2, .store (p, .key i) (kvs.getD i (0, 0)).1]

/-- `Entry(init_min_key)`. -/
def init (p initMinKey : Nat) : Trace :=
  clear p ++ [.store (p, .minKey) initMinKey]

/-- `Entry(init_min_key, init_kvs, size)`. -/
def initKVs (p initMinKey : Nat) (kvs : List KV) (size : Nat) : Trace :=
  clear p ++ [.store (p, .minKey) initMinKey] ++ fillKVs p kvs size

/-- `setOrderedKVs`. -/
def setOrderedKVs (p : Nat) (kvs : List KV) (size : Nat) : Trace :=
  clearKVs p ++ fillKVs p kvs size ++ [.store (p, .minKey) (kvs.getD 0 (0, 0)).1]

/-- `setFlag`. -/
def setFlag (p v : Nat) : Trace :=
  [.store (p, .flag) v]

/-- `setPersistFlag`. -/
def setPersistFlag (p v : Nat) : Trace :=
  [.store (p, .flag) v] ++ clflush (p + Field.offset .flag)

/-! ## Slots -/

/-- The first slot whose key is `k`: the scan shared by `Get`, `Update` and
`Remove`, and by `MaybePut` for the first empty slot. -/
def findSlot (m : Mem) (p k : Nat) : Option Nat :=
  (List.range kvsPerEntry).find? fun i => m (p, .key i) == k

/-- `Entry::Get`: the value on `STATUS_OK`, nothing on `STATUS_FAIL`. -/
def get (m : Mem) (p k : Nat) : Option Nat :=
  (findSlot m p k).map fun i => m (p, .val i)

/-- The stores of a put at a known slot: value before key, then the line of the
slot's first byte. -/
def putAtPos (p i k v : Nat) : Trace :=
  [.store (p, .val i) v, .store (p, .key i) k] ++ clflush (p + Field.offset (.key i))

/-- `MaybePut`: put at the first empty slot. -/
def maybePut (m : Mem) (p k v : Nat) : Status × Trace :=
  match findSlot m p invalidKey with
  | none => (.overflow, [])
  | some i => (.ok, putAtPos p i k v)

/-- `Entry::Update`. -/
def update (m : Mem) (p k v : Nat) : Status × Trace :=
  match findSlot m p k with
  | none => (.fail, [])
  | some i => (.ok, [.store (p, .val i) v] ++ clflush (p + Field.offset (.key i)))

/-- `Entry::Remove`: only the key is cleared. -/
def remove (m : Mem) (p k : Nat) : Status × Trace :=
  match findSlot m p k with
  | none => (.fail, [])
  | some i => (.ok, [.store (p, .key i) invalidKey] ++ clflush (p + Field.offset (.key i)))

/-- The slots of an entry in array order. -/
def kvs (m : Mem) (p : Nat) : List KV :=
  (List.range kvsPerEntry).map fun i => (m (p, .key i), m (p, .val i))

/-- `tmp_kvs` after the copy and the sort by key. `sort` on so few elements is an insertion
sort, and so it is stable. -/
@[irreducible] def sortedKVs (m : Mem) (p : Nat) : List KV :=
  (kvs m p).insertionSort fun a b => a.1 ≤ b.1

/-- `new_min_key` of a split: the key at `tmp_kvs[KVS_PER_ENTRY / 2]`. -/
@[irreducible] def medianKey (m : Mem) (p : Nat) : Nat :=
  ((sortedKVs m p).getD (kvsPerEntry / 2) (0, 0)).1

/-! ## Effect of the writing methods on memory -/

section Effects

variable (m : Mem) (p q i n x : Nat) (kvs : List KV)

/-- The `memset` of the slots, one slot more. -/
theorem clearKVs_succ (n : Nat) :
    ((List.range (n + 1)).flatMap fun i =>
        [Ev.store ((p, .key i) : Loc) 0, .store (p, .val i) 0]) =
      ((List.range n).flatMap fun i => [.store (p, .key i) 0, .store (p, .val i) 0])
        ++ [.store (p, .key n) 0, .store (p, .val n) 0] := by
  rw [List.range_succ, List.flatMap_append]
  rfl

/-- The loop that fills the slots, one slot more. -/
theorem fillKVs_succ :
    fillKVs p kvs (n + 1) = fillKVs p kvs n ++
      [.store (p, .val n) (kvs.getD n (0, 0)).2, .store (p, .key n) (kvs.getD n (0, 0)).1] := by
  unfold fillKVs
  rw [List.range_succ, List.flatMap_append]
  rfl

/-- What a loop that writes both words of the slots `0 .. n - 1` leaves: slot
`i` of block `q` holds the pair `f i` if it was written. -/
def slotsSet (m : Mem) (p n : Nat) (f : Nat → KV) : Mem
  | (q, .key i) => if q = p ∧ i < n then (f i).1 else m (q, .key i)
  | (q, .val i) => if q = p ∧ i < n then (f i).2 else m (q, .val i)
  | l => m l

theorem slotsSet_succ_key_val (f : Nat → KV) :
    setLoc (setLoc (slotsSet m p n f) (p, .key n) (f n).1) (p, .val n) (f n).2 =
      slotsSet m p (n + 1) f := by
  funext ⟨r, fld⟩
  cases fld <;> simp only [setLoc, slotsSet, Prod.mk.injEq, reduceCtorEq, and_false, if_false,
    Field.key.injEq, Field.val.injEq] <;> grind

theorem slotsSet_succ_val_key (f : Nat → KV) :
    setLoc (setLoc (slotsSet m p n f) (p, .val n) (f n).2) (p, .key n) (f n).1 =
      slotsSet m p (n + 1) f := by
  funext ⟨r, fld⟩
  cases fld <;> simp only [setLoc, slotsSet, Prod.mk.injEq, reduceCtorEq, and_false, if_false,
    Field.key.injEq, Field.val.injEq] <;> grind

theorem slotsSet_zero (f : Nat → KV) : slotsSet m p 0 f = m := by
  funext ⟨r, fld⟩
  cases fld <;> simp [slotsSet]

/-- Run to its end, the `memset` has zeroed the slots. -/
theorem exec_clearKVs : exec m (clearKVs p) = slotsSet m p kvsPerEntry fun _ => (0, 0) := by
  unfold clearKVs
  induction kvsPerEntry with
  | zero => simp [slotsSet_zero]
  | succ n ih =>
    rw [clearKVs_succ, exec_append, ih]
    exact slotsSet_succ_key_val m p n fun _ => (0, 0)

/-- Run to its end, the loop has written the first `n` pairs. -/
theorem exec_fillKVs :
    exec m (fillKVs p kvs n) = slotsSet m p n fun i => kvs.getD i (0, 0) := by
  induction n with
  | zero => simp [fillKVs, slotsSet_zero]
  | succ n ih =>
    rw [fillKVs_succ, exec_append, ih]
    exact slotsSet_succ_val_key m p n fun i => kvs.getD i (0, 0)

/-- The slots of `p` are the first `n` pairs of `kvs`, and empty from there. -/
def Filled (m : Mem) (p : Nat) (kvs : List KV) (n : Nat) : Prop :=
  ∀ i < kvsPerEntry, m (p, .key i) = (if i < n then (kvs.getD i (0, 0)).1 else 0) ∧
    m (p, .val i) = (if i < n then (kvs.getD i (0, 0)).2 else 0)

/-- `init_kvs` touches its own block only. -/
theorem exec_initKVs_ne {r : Nat} (fld : Field) (h : r ≠ p) :
    exec m (initKVs p x kvs n) (r, fld) = m (r, fld) := by
  simp only [initKVs, clear, exec_append, exec_clearKVs, exec_fillKVs, exec_store, exec_nil]
  cases fld <;> simp [slotsSet, setLoc, h]

@[simp] theorem exec_initKVs_next : exec m (initKVs p x kvs n) (p, .next) = 0 := by
  simp [initKVs, clear, exec_clearKVs, exec_fillKVs, slotsSet, setLoc]

@[simp] theorem exec_initKVs_minKey : exec m (initKVs p x kvs n) (p, .minKey) = x := by
  simp [initKVs, clear, exec_clearKVs, exec_fillKVs, slotsSet, setLoc]

/-- Its slots hold the `n` pairs and nothing else. -/
theorem filled_initKVs : Filled (exec m (initKVs p x kvs n)) p kvs n := by
  intro i hi
  simp only [initKVs, clear, exec_append, exec_clearKVs, exec_fillKVs, exec_store, exec_nil]
  constructor <;> simp [slotsSet, setLoc] <;> grind

/-- `set_ordered_kvs` touches its own block only. -/
theorem exec_setOrderedKVs_ne {r : Nat} (fld : Field) (h : r ≠ p) :
    exec m (setOrderedKVs p kvs n) (r, fld) = m (r, fld) := by
  simp only [setOrderedKVs, exec_append, exec_clearKVs, exec_fillKVs, exec_store, exec_nil]
  cases fld <;> simp [slotsSet, setLoc, h]

@[simp] theorem exec_setOrderedKVs_next :
    exec m (setOrderedKVs p kvs n) (p, .next) = m (p, .next) := by
  simp [setOrderedKVs, exec_clearKVs, exec_fillKVs, slotsSet, setLoc]

@[simp] theorem exec_setOrderedKVs_minKey :
    exec m (setOrderedKVs p kvs n) (p, .minKey) = (kvs.getD 0 (0, 0)).1 := by
  simp [setOrderedKVs, exec_clearKVs, exec_fillKVs, setLoc]

/-- The slots hold the `n` pairs and nothing else. -/
theorem filled_setOrderedKVs : Filled (exec m (setOrderedKVs p kvs n)) p kvs n := by
  intro i hi
  simp only [setOrderedKVs, exec_append, exec_clearKVs, exec_fillKVs, exec_store, exec_nil]
  constructor <;> simp [slotsSet, setLoc] <;> grind

/-- How an entry is filled is read off its keys and values only. -/
theorem filled_congr {m m' : Mem} {p n : Nat} {kvs : List KV} (h : Filled m p kvs n)
    (hk : ∀ i, m' (p, .key i) = m (p, .key i)) (hv : ∀ i, m' (p, .val i) = m (p, .val i)) :
    Filled m' p kvs n := by
  intro i hi
  rw [hk, hv]
  exact h i hi

end Effects

end Entry

end Epli
