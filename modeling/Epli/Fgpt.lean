import Epli.Lib.BitScan
import Epli.BitmapRefine

/-!
# Fingerprints

The build with `USE_BITMAP` and `USE_FGPT`. Each `MetaData` also has one byte per slot, a
hash of the key in it, and `Get` compares all of them with the hash of its key at
once. Only slots whose bit is set and whose byte matches are looked at in NVM, so `Get`
agrees with `Entry::Get` as long as every occupied slot is marked in both ways.

Two paths do not mark what they write: `BulkLoad` sets the bits and no byte, and the put
that follows a split sets neither.
-/

namespace Epli

open Lib Entry

/-- `hashcode1B`. -/
def hashcode1B (x : Nat) : UInt8 :=
  let x := x ^^^ (x >>> 32)
  let x := x ^^^ (x >>> 16)
  let x := x ^^^ (x >>> 8)
  UInt8.ofNat (x &&& 0x0ff)

/-- `set_n_fgpt`. -/
def setNFgpt (fgpt : Nat → UInt8) (kvs : List KV) (size : Nat) : Nat → UInt8 :=
  fun i => if i < size then hashcode1B (kvs.getD i (0, 0)).1 else fgpt i

/-- State of an `EPLTree` in this build: `fgpt data` are the bytes of the `MetaData`
`data`. -/
structure FgptTree extends BitmapTree where
  fgpt : Nat → Nat → UInt8

namespace FgptTree

/-- Run a trace on the tree's memory. -/
def run (b : FgptTree) (evs : Trace) : FgptTree :=
  { b with toBitmapTree := b.toBitmapTree.run evs }

/-- `data->set_bitmap(pos)`. -/
def setBit (b : FgptTree) (data pos : Nat) : FgptTree :=
  { b with toBitmapTree := b.toBitmapTree.setBit data pos }

/-- `data->set_fgpt(pos, key_hash)`. -/
def setFgpt (b : FgptTree) (data pos : Nat) (keyHash : UInt8) : FgptTree :=
  { b with fgpt := setLoc b.fgpt data (setLoc (b.fgpt data) pos keyHash) }

/-! ## Construction -/

/-- `EPLTree(recover)`. A new `MetaData` is set to zero as a whole. -/
def create (recover : Bool) (f : Mapping) (pm : Pmem Loc Nat) : FgptTree where
  toBitmapTree := BitmapTree.create recover f pm
  fgpt := fun _ _ => 0

/-- `BulkLoad`. The fingerprints of the new `MetaData`s stay as the constructor leaves
them. -/
def bulkLoad (b : FgptTree) (bulkKvs : List KV) : Option FgptTree :=
  (b.toBitmapTree.bulkLoad bulkKvs).map fun b' =>
    { b' with fgpt := fun data => if data < b.newMetas then b.fgpt data else fun _ => 0 }

/-! ## Operations -/

/-- The first sixteen bytes of a `MetaData`. -/
def metaBytes (b : FgptTree) (data : Nat) : List UInt8 :=
  [(b.metas data).bitmap.toUInt8, ((b.metas data).bitmap >>> 8).toUInt8]
    ++ (List.range kvsPerEntry).map (b.fgpt data)

/-- The candidates of `Get`: `_mm_cmpeq_epi8` and `_mm_movemask_epi8`, without the two bits
of the bitmap, and masked with the bitmap. -/
def getMask (b : FgptTree) (data k : Nat) : BitVec 32 :=
  let mask := (BitVec.ofBoolListLE ((b.metaBytes data).map (· == hashcode1B k))).setWidth 32
  (mask >>> 2) &&& (b.metas data).bitmap.toBitVec.setWidth 32

/-- `Get`. -/
def get (b : FgptTree) (k : Nat) : Option (Status × Nat) := do
  let data ← b.lookup k
  let entry := b.entryOf data
  match ← scanBits (fun j => b.mem (entry, .key j) == k) 32 (b.getMask data k) with
  | some j => return (.ok, b.mem (entry, .val j))
  | none => return (.fail, 0)

/-- `splitEntry`. -/
def splitEntry (b : FgptTree) (data : Nat) : FgptTree :=
  let tmpKvs := sortedKVs b.mem (b.entryOf data)
  let newData := b.newMetas
  { toBitmapTree := b.toBitmapTree.splitEntry data
    fgpt := setLoc
      (setLoc b.fgpt newData
        (setNFgpt (fun _ => 0) (tmpKvs.drop (kvsPerEntry / 2)) ((kvsPerEntry + 1) / 2)))
      data (setNFgpt (b.fgpt data) tmpKvs (kvsPerEntry / 2)) }

/-- `Insert`. -/
def insert (b : FgptTree) (k v : Nat) : Option (Status × FgptTree) := do
  let data ← b.lookup k
  let data ← if b.entryOf data = null then b.lookup (k - 1) else some data
  let entry := b.entryOf data
  let keyHash := hashcode1B k
  let pos := (b.metas data).findFirstZero
  if kvsPerEntry ≤ pos then
    let b := b.splitEntry data
    let next := b.mem (entry, .next)
    let target := if b.mem (next, .minKey) ≤ k then next else entry
    let (ret, evs) := maybePut b.mem target k v
    return (ret, b.run evs)
  else
    return (.ok, ((b.run (putAtPos entry pos k v)).setBit data pos).setFgpt data pos keyHash)

/-- `Update`. -/
def update (b : FgptTree) (k v : Nat) : Option (Status × FgptTree) :=
  (b.toBitmapTree.update k v).map fun r => (r.1, { b with toBitmapTree := r.2 })

/-- `Remove`. -/
def remove (b : FgptTree) (k : Nat) : Option (Status × FgptTree) :=
  (b.toBitmapTree.remove k).map fun r => (r.1, { b with toBitmapTree := r.2 })

/-- One operation. -/
def step (b : FgptTree) : Op → Option (Answer × FgptTree)
  | .insert k v => (b.insert k v).map fun r => (⟨r.1, none⟩, r.2)
  | .update k v => (b.update k v).map fun r => (⟨r.1, none⟩, r.2)
  | .remove k => (b.remove k).map fun r => (⟨r.1, none⟩, r.2)
  | .get k => (b.get k).map fun r => (⟨r.1, some r.2⟩, b)

/-- The tree a client of this build starts with. -/
def start (f : Mapping) (pm : Pmem Loc Nat) : Tree.Start → Option FgptTree
  | .fresh => some (create false f pm)
  | .bulk kvs _ _ => (create false f pm).bulkLoad kvs

/-! ## Marked slots -/

/-- The slots of the entry `p` are candidates for their own keys: the bit of each
occupied one is set, and its byte is the hash of its key. -/
def MarkedRow (m : Mem) (p : Nat) (bitmap : UInt16) (fgpt : Nat → UInt8) : Prop :=
  ∀ i < kvsPerEntry, m (p, .key i) ≠ invalidKey →
    bitmap.toBitVec.getLsbD i = true ∧ fgpt i = hashcode1B (m (p, .key i))

/-- Every occupied slot is marked. -/
def Marked (b : FgptTree) : Prop :=
  ∀ x ∈ b.index.kvs, MarkedRow b.mem (b.entryOf x.2) (b.metas x.2).bitmap (b.fgpt x.2)

/-- `Get` delivers what `Entry::Get` delivers on the entry of the key. -/
def GetAgrees (b : FgptTree) : Prop := ∀ k, ValidKey k → b.get k = b.toBitmapTree.get k

section Row

variable {m m' : Mem} {p i k v n : Nat} {bitmap : UInt16} {fgpt : Nat → UInt8} {l : List KV}

theorem getLsbD_mask : ∀ n ≤ kvsPerEntry, ∀ i < kvsPerEntry,
    (mask n).toBitVec.getLsbD i = decide (i < n) := by
  decide +kernel

/-- Keys that are the same, or gone. -/
theorem MarkedRow.congr (h : MarkedRow m p bitmap fgpt) (hkeys : ∀ i,
    m' (p, .key i) = m (p, .key i) ∨ m' (p, .key i) = invalidKey) :
    MarkedRow m' p bitmap fgpt := by
  intro i hi hocc
  have hsame := (hkeys i).resolve_right hocc
  rw [hsame] at hocc ⊢
  exact h i hi hocc

/-- A put that sets the bit and the byte of its slot. -/
theorem MarkedRow.put (h : MarkedRow m p (mask n) fgpt) (hn : n < kvsPerEntry) (k v : Nat) :
    MarkedRow (putSlot m p n k v) p (mask (n + 1)) (setLoc fgpt n (hashcode1B k)) := by
  intro i hi hocc
  rw [putSlot_key] at hocc ⊢
  rw [getLsbD_mask _ hn i hi, decide_eq_true_iff]
  by_cases hin : i = n
  · rw [if_pos ⟨rfl, hin⟩, hin, setLoc_self]
    exact ⟨Nat.lt_succ_self n, rfl⟩
  · rw [if_neg (fun hc => hin hc.2)] at hocc ⊢
    obtain ⟨hbit, hbyte⟩ := h i hi hocc
    rw [getLsbD_mask _ hn.le i hi, decide_eq_true_iff] at hbit
    rw [setLoc_ne _ _ hin]
    exact ⟨Nat.lt_succ_of_lt hbit, hbyte⟩

/-- A put at a slot that happens to be marked for the key. -/
theorem MarkedRow.put_marked (h : MarkedRow m p bitmap fgpt) (v : Nat)
    (hbit : bitmap.toBitVec.getLsbD i = true) (hbyte : fgpt i = hashcode1B k) :
    MarkedRow (putSlot m p i k v) p bitmap fgpt := by
  intro j hj hocc
  rw [putSlot_key] at hocc ⊢
  by_cases hji : j = i
  · rw [if_pos ⟨rfl, hji⟩, hji]
    exact ⟨hbit, hbyte⟩
  · rw [if_neg (fun hc => hji hc.2)] at hocc ⊢
    exact h j hj hocc

/-- An entry filled from a list, with bits and bytes set for the slots filled. -/
theorem markedRow_filled (hn : n ≤ kvsPerEntry) (h : Filled m p l n) (fgpt : Nat → UInt8) :
    MarkedRow m p (mask n) (setNFgpt fgpt l n) := by
  intro i hi hocc
  rw [(h i hi).1] at hocc ⊢
  by_cases hin : i < n
  · rw [getLsbD_mask _ hn i hi, setNFgpt, if_pos hin, if_pos hin, decide_eq_true_iff]
    exact ⟨hin, rfl⟩
  · rw [if_neg hin] at hocc
    exact absurd rfl hocc

end Row

/-! ## Get -/

variable {b b' : FgptTree} {t : Tree} {k v s data p i n : Nat} {op : Op}

/-- The candidates are the slots whose bit is set and whose byte matches. -/
theorem getLsbD_getMask (b : FgptTree) (data k : Nat) {i : Nat} (hi : i < 32) :
    (b.getMask data k).getLsbD i = (decide (i < kvsPerEntry) &&
      (b.fgpt data i == hashcode1B k) && (b.metas data).bitmap.toBitVec.getLsbD i) := by
  have hbyte : ((b.metaBytes data).map (· == hashcode1B k)).getD (2 + i) false =
      (decide (i < kvsPerEntry) && (b.fgpt data i == hashcode1B k)) := by
    rw [metaBytes, List.map_append, List.getD_append_right _ _ _ _ (by simp), List.map_map]
    by_cases hlt : i < kvsPerEntry
    · simp [List.getD, hlt]
    · simp [List.getD, hlt]
  simp only [getMask, BitVec.getLsbD_and, BitVec.getLsbD_ushiftRight, BitVec.getLsbD_setWidth,
    BitVec.getLsbD_ofBoolListLE, hbyte, hi, decide_true, Bool.true_and]
  by_cases hlt : i < kvsPerEntry
  · have h32 : 2 + i < 32 := by
      rw [kvsPerEntry_eq] at hlt
      omega
    simp [h32]
  · simp [hlt]

/-- Where every occupied slot is marked, the first candidate with the key is the first
slot with the key. -/
theorem Marked.get_eq (h : Marked b) (hk : k ≠ invalidKey) : b.get k = b.toBitmapTree.get k := by
  unfold get BitmapTree.get BitmapTree.lookup
  cases hfl : b.index.floor k with
  | none => rfl
  | some x =>
    -- the candidates of the mask contain the slot of `k`, and the key comparison keeps no other
    have hfind : (List.range 32).find? (fun j => (b.getMask x.2 k).getLsbD j &&
        (b.mem (b.entryOf x.2, .key j) == k)) = findSlot b.mem (b.entryOf x.2) k := by
      have hmarked := h x (Multimap.floor_mem hfl)
      cases hf : findSlot b.mem (b.entryOf x.2) k with
      | none =>
        rw [findSlot_eq_none] at hf
        rw [List.find?_range_eq_none]
        intro j hj
        rw [getLsbD_getMask b x.2 k hj]
        by_cases hlt : j < kvsPerEntry
        · have hne : b.mem (b.entryOf x.2, .key j) ≠ k := fun hkj => hf ⟨j, hlt, hkj⟩
          simp [hne]
        · simp [hlt]
      | some j =>
        obtain ⟨hj, hkj, hfirst⟩ := findSlot_some hf
        have h32 : j < 32 := hj.trans (by decide)
        obtain ⟨hbit, hbyte⟩ := hmarked j hj (by rwa [hkj])
        rw [List.find?_range_eq_some]
        refine ⟨?_, List.mem_range.mpr h32, ?_⟩
        · rw [hkj] at hbyte
          simp [getLsbD_getMask b x.2 k h32, hj, hbit, hbyte, hkj]
        · intro i hi
          simp [hfirst i hi]
    simp only [Option.map_some, Option.bind_eq_bind, Option.bind_some, scanBits_eq, hfind,
      Entry.get]
    cases findSlot b.mem (b.entryOf x.2) k with
    | none => rfl
    | some j => rfl

/-! ## Operations that keep the marks -/

theorem splitEntry_toBitmapTree (b : FgptTree) (data : Nat) :
    (b.splitEntry data).toBitmapTree = b.toBitmapTree.splitEntry data := rfl

theorem marked_run {evs : Trace} : Marked (b.run evs) ↔ ∀ x ∈ b.index.kvs,
    MarkedRow (exec b.mem evs) (b.entryOf x.2) (b.metas x.2).bitmap (b.fgpt x.2) := by
  rw [← BitmapTree.run_mem]
  rfl

/-- Stores that change no key but to `INVALID_KEY`. -/
theorem Marked.run (h : Marked b) (evs : Trace) (hkeys : ∀ a i, exec b.mem evs (a, .key i) =
    b.mem (a, .key i) ∨ exec b.mem evs (a, .key i) = invalidKey) : Marked (b.run evs) :=
  marked_run.mpr fun x hx => (h x hx).congr fun i => hkeys _ i

/-- `Insert` under a clear bit marks the slot. -/
theorem Marked.put (h : Marked b) (hm : BitmapTree.Mirror t b.toBitmapTree)
    (hx : (s, data) ∈ b.index.kvs) (k v : Nat) (hn : n < kvsPerEntry)
    (hbit : (b.metas data).bitmap = mask n) :
    Marked (((b.run (putAtPos (b.entryOf data) n k v)).setBit data n).setFgpt data n
      (hashcode1B k)) := by
  intro x hx'
  have hrow := h x hx'
  show MarkedRow (b.toBitmapTree.run _).mem ((b.toBitmapTree.setBit data n).entryOf x.2)
    (setLoc b.metas data _ x.2).bitmap (setLoc b.fgpt data _ x.2)
  rw [BitmapTree.setBit_entryOf, BitmapTree.run_mem, exec_putAtPos]
  by_cases hxd : x.2 = data
  · rw [hxd, hbit] at hrow
    rw [hxd, setLoc_self, setLoc_self]
    have hput := hrow.put hn k v
    rw [← MetaData.setBitmap_mask hbit hn] at hput
    exact hput
  · -- the entry of another `MetaData` is another one
    have hne := hm.entry_ne hx' hx hxd
    rw [setLoc_ne _ _ hxd, setLoc_ne _ _ hxd]
    refine hrow.congr fun i => Or.inl ?_
    exact slotsOnly_putSlot.other _ _ hne

/-- The `MetaData`s after a split: of a half, with bits and bytes for the seven slots
just filled, or of an entry that is not split. -/
theorem split_rows (hm : BitmapTree.Mirror t b.toBitmapTree) (hx : (s, data) ∈ b.index.kvs)
    (hroom : b.alloc.used + entrySize ≤ b.alloc.mappedLen) {x : Nat × Nat}
    (hx' : x ∈ (b.splitEntry data).index.kvs) :
    (∃ l fgpt, Filled (b.splitEntry data).mem ((b.splitEntry data).entryOf x.2) l
        (kvsPerEntry / 2) ∧
      ((b.splitEntry data).metas x.2).bitmap = mask (kvsPerEntry / 2) ∧
      (b.splitEntry data).fgpt x.2 = setNFgpt fgpt l (kvsPerEntry / 2)) ∨
    (x ∈ b.index.kvs ∧ (b.splitEntry data).entryOf x.2 = b.entryOf x.2 ∧
      b.entryOf x.2 ≠ b.entryOf data ∧ b.entryOf x.2 ≠ t.alloc.currentAddr ∧
      (∀ fld, (b.splitEntry data).mem (b.entryOf x.2, fld) = b.mem (b.entryOf x.2, fld)) ∧
      (b.splitEntry data).metas x.2 = b.metas x.2 ∧
      (b.splitEntry data).fgpt x.2 = b.fgpt x.2) := by
  obtain ⟨as, hsh⟩ := hm.shape
  have hdata : data < b.newMetas := hm.fresh _ hx
  have hal : b.alloc.currentAddr % 256 = 0 := by
    rw [hm.alloc]
    exact hsh.cursor_aligned
  have heff := Tree.splitEntry_mem hsh (hm.entry_mem hsh hx)
  have hmem := (hm.split hx hroom).mem
  have hmetas := BitmapTree.splitEntry_metas b.toBitmapTree data hdata hal
  obtain ⟨hentry, hentryNew⟩ := hm.entryOf_split hsh hdata hroom
  -- the fingerprints of both halves are written, the others stay
  have hrow : (b.splitEntry data).fgpt x.2 = setLoc (setLoc b.fgpt b.newMetas
      (setNFgpt (fun _ => 0) (upperKVs b.mem (b.entryOf data)) (kvsPerEntry / 2))) data
      (setNFgpt (b.fgpt data) (sortedKVs b.mem (b.entryOf data)) (kvsPerEntry / 2)) x.2 := rfl
  rw [splitEntry_toBitmapTree,
    (BitmapTree.splitEntry_fields b.toBitmapTree data hal).2.2.2.2.1] at hx'
  rw [splitEntry_toBitmapTree, hmem, hmetas, hrow, hm.mem]
  by_cases hxd : x.2 = data
  · rw [if_pos hxd, hxd, hentry data hdata, setLoc_self]
    exact Or.inl ⟨_, _, heff.old_filled, MetaData.resetHalfBitmap_mask _, rfl⟩
  · rw [if_neg hxd, setLoc_ne _ _ hxd]
    rcases Multimap.mem_insert.mp hx' with rfl | hx'
    · rw [if_pos rfl, hentryNew, setLoc_self]
      exact Or.inl ⟨_, _, heff.new_filled, MetaData.resetHalfBitmap_mask _, rfl⟩
    · -- an entry that is not split
      have hlt := hm.fresh x hx'
      have hxe := hm.entry_ne hx' hx hxd
      have hxq := hm.entry_ne_cursor hsh hx'
      rw [if_neg (Nat.ne_of_lt hlt), hentry x.2 hlt, setLoc_ne _ _ (Nat.ne_of_lt hlt)]
      exact Or.inr ⟨hx', rfl, hxe, hxq, fun fld => heff.other _ fld hxe hxq, rfl, rfl⟩

/-- A put into the first slot of a half, with the hash of the empty key that was there. -/
theorem Marked.put_split (h : Marked b) (hm : BitmapTree.Mirror t b.toBitmapTree)
    (hx : (s, data) ∈ b.index.kvs) (hroom : b.alloc.used + entrySize ≤ b.alloc.mappedLen)
    (hp : p = t.alloc.currentAddr ∨ p = b.entryOf data)
    (hempty : (b.splitEntry data).mem (p, .key 0) = invalidKey)
    (hhash : hashcode1B k = hashcode1B invalidKey) (v : Nat) :
    Marked ((b.splitEntry data).run (putAtPos p 0 k v)) := by
  rw [marked_run, exec_putAtPos]
  intro x hx'
  have hother : (b.splitEntry data).entryOf x.2 ≠ p → ∀ i,
      putSlot (b.splitEntry data).mem p 0 k v ((b.splitEntry data).entryOf x.2, .key i) =
        (b.splitEntry data).mem ((b.splitEntry data).entryOf x.2, .key i) :=
    fun hne i => slotsOnly_putSlot.other _ _ hne
  rcases split_rows hm hx hroom hx' with ⟨l, fgpt, hfill, hbit, hrow⟩ |
    ⟨hold, hentry, hxe, hxq, hmem, hmeta, hrow⟩
  · have hmarked := markedRow_filled (by decide) hfill fgpt
    rw [hbit, hrow]
    by_cases hxp : (b.splitEntry data).entryOf x.2 = p
    · rw [hxp] at hfill hmarked ⊢
      refine hmarked.put_marked v (by decide) ?_
      -- the byte is the hash of the key the slot was filled with
      have hkey := (hfill 0 (by decide)).1
      rw [hempty, if_pos (by decide)] at hkey
      rw [setNFgpt, if_pos (by decide), ← hkey, hhash]
    · exact hmarked.congr fun i => Or.inl (hother hxp i)
  · have hne : (b.splitEntry data).entryOf x.2 ≠ p := by
      rw [hentry]
      rcases hp with rfl | rfl
      · exact hxq
      · exact hxe
    rw [hmeta, hrow]
    have hrow : MarkedRow (b.splitEntry data).mem (b.entryOf x.2) (b.metas x.2).bitmap
        (b.fgpt x.2) := (h x hold).congr fun i => Or.inl (hmem _)
    rw [← hentry] at hrow
    exact hrow.congr fun i => Or.inl (hother hne i)

/-- The entry has an empty slot on the side of `k`: empty slots sort to the front, so
with eight of them there is one in the upper half, and with fewer only in the lower
half, where keys below the median go. -/
def EmptyBeside (m : Mem) (p k : Nat) : Prop :=
  kvsPerEntry / 2 < countBelow m p 1 ∨
    (0 < countBelow m p 1 ∧ countBelow m p (k + 1) ≤ kvsPerEntry / 2)

/-- The first slot of the half that takes the key is empty. -/
theorem first_slot_empty {m m' : Mem} {q : Nat} (heff : Tree.SplitEffect m m' p q)
    (h : EmptyBeside m p k) : m' (if medianKey m p ≤ k then q else p, .key 0) = invalidKey := by
  rcases h with hmany | ⟨hsome, hbelow⟩
  · -- the median itself is empty
    have hzero : medianKey m p = 0 := by
      have := (le_medianKey_iff m p 1).not.mpr (by omega)
      omega
    rw [if_pos (by omega), (heff.new_filled 0 (by decide)).1, if_pos (by decide)]
    obtain ⟨rest, hu⟩ := upperKVs_eq_cons m p
    rw [hu, hzero]
    rfl
  · -- the key is below the median, and the smallest key is empty
    have hlt := (le_medianKey_iff m p (k + 1)).mpr hbelow
    rw [if_neg (by omega), (heff.old_filled 0 (by decide)).1, if_pos (by decide)]
    rw [countBelow_eq, List.countP_pos_iff] at hsome
    obtain ⟨x, hx, hx0⟩ := hsome
    rw [decide_eq_true_iff] at hx0
    have hsorted := sortedKVs_sorted m p
    cases hl : sortedKVs m p with
    | nil => rw [hl] at hx; cases hx
    | cons y l =>
      rw [hl, List.pairwise_cons] at hsorted
      rw [hl] at hx
      have hle : y.1 ≤ x.1 := by
        rcases List.mem_cons.mp hx with rfl | hx
        · exact le_rfl
        · exact hsorted.1 x hx
      show y.1 = 0
      omega

/-! ## Inserting -/

theorem insert_room (hm : BitmapTree.Mirror t b.toBitmapTree)
    (hx : b.index.floor k = some (s, data)) (hn : n < kvsPerEntry)
    (hbit : (b.metas data).bitmap = mask n) (v : Nat) : b.insert k v = some (.ok,
      ((b.run (putAtPos (b.entryOf data) n k v)).setBit data n).setFgpt data n
        (hashcode1B k)) := by
  obtain ⟨_, _, hfl, _, _, hlookup, _, hnull⟩ := hm.exists_floor k
  cases hx.symm.trans hfl
  have hpos := MetaData.findFirstZero_mask hbit hn.le
  have hroom : ¬ kvsPerEntry ≤ n := by omega
  simp only [insert, hlookup, hnull, if_false, hpos, if_neg hroom, Option.bind_eq_bind,
    Option.bind_some]
  rfl

theorem insert_split (hm : BitmapTree.Mirror t b.toBitmapTree)
    (hx : b.index.floor k = some (s, data)) (hfull : kvsPerEntry ≤ (b.metas data).findFirstZero)
    (hroom : b.alloc.used + entrySize ≤ b.alloc.mappedLen) (v : Nat) :
    ∃ p i, p = (if medianKey t.mem (b.entryOf data) ≤ k then t.alloc.currentAddr
        else b.entryOf data) ∧
      findSlot (t.splitEntry (b.entryOf data)).2.mem p invalidKey = some i ∧
      b.insert k v = some (.ok, (b.splitEntry data).run (putAtPos p i k v)) := by
  obtain ⟨_, _, hfl, hmem, _, hlookup, _, hnull⟩ := hm.exists_floor k
  cases hx.symm.trans hfl
  obtain ⟨p, i, hp, hslot, hput⟩ := hm.maybePut_split hmem hroom k v
  refine ⟨p, i, hp, hslot, ?_⟩
  rw [← splitEntry_toBitmapTree] at hput
  simp only [insert, hlookup, hnull, if_false, if_pos hfull, Option.bind_eq_bind,
    Option.bind_some, hput]
  rfl

/-- An `Insert` that splits puts a key with the hash of `INVALID_KEY`, and finds an empty
slot beside it in the entry it splits. -/
def FgptGuard (b : FgptTree) : Op → Prop
  | .insert k _ => ∀ s data, b.index.floor k = some (s, data) →
      kvsPerEntry ≤ (b.metas data).findFirstZero →
      hashcode1B k = hashcode1B invalidKey ∧ EmptyBeside b.mem (b.entryOf data) k
  | _ => True

instance (m : Mem) (p k : Nat) : Decidable (EmptyBeside m p k) :=
  inferInstanceAs (Decidable (_ ∨ _))

instance (b : FgptTree) : ∀ op, Decidable (FgptGuard b op)
  | .insert k _ => decidable_of_iff (∀ x ∈ b.index.floor k,
      kvsPerEntry ≤ (b.metas x.2).findFirstZero →
      hashcode1B k = hashcode1B invalidKey ∧ EmptyBeside b.mem (b.entryOf x.2) k)
      (by simp [FgptGuard])
  | .update _ _ => .isTrue trivial
  | .remove _ => .isTrue trivial
  | .get _ => .isTrue trivial

/-- An `Insert` in a marked tree. -/
theorem Marked.insert (h : Marked b) (hm : BitmapTree.Mirror t b.toBitmapTree) (k v : Nat)
    (hfits : BitmapTree.SplitFits b.toBitmapTree (.insert k v)) (hg : FgptGuard b (.insert k v)) :
    ∃ b' t', b.insert k v = some (.ok, b') ∧ BitmapTree.Mirror t' b'.toBitmapTree ∧
      Marked b' := by
  obtain ⟨s, data, hfl, hmem, _⟩ := hm.exists_floor k
  obtain ⟨n, hn, hbit⟩ := hm.bits _ hmem
  have hpos := MetaData.findFirstZero_mask hbit hn
  by_cases hfull : kvsPerEntry ≤ (b.metas data).findFirstZero
  · have hroom := hfits s data hfl hfull
    obtain ⟨hhash, hbeside⟩ := hg s data hfl hfull
    obtain ⟨p, i, hp, hslot, hins⟩ := insert_split hm hfl hfull hroom v
    obtain ⟨as, hsh⟩ := hm.shape
    -- the first slot of the half is empty, so it is the one that is found
    have hempty := first_slot_empty (Tree.splitEntry_mem hsh (hm.entry_mem hsh hmem))
      (hm.mem ▸ hbeside)
    rw [← hp] at hempty
    obtain ⟨_, _, hfirst⟩ := findSlot_some hslot
    have hi : i = 0 := by
      by_contra hne
      exact hfirst 0 (Nat.pos_of_ne_zero hne) hempty
    subst hi
    refine ⟨_, _, hins, (hm.split hmem hroom).run _ ?_, h.put_split hm hmem hroom ?_ ?_ hhash v⟩
    · intro a
      rw [exec_putAtPos]
      exact slotsOnly_putSlot.next a
    · rw [hp]
      split
      · exact Or.inl rfl
      · exact Or.inr rfl
    · rw [splitEntry_toBitmapTree, (hm.split hmem hroom).mem]
      exact hempty
  · have hn' : n < kvsPerEntry := by
      simp only at hpos
      omega
    exact ⟨_, _, insert_room hm hfl hn' hbit v, hm.put k v hn' hbit, h.put hm hmem k v hn' hbit⟩

/-- Every operation comes back with a marked tree. -/
theorem Marked.step (h : Marked b) (hm : BitmapTree.Mirror t b.toBitmapTree)
    (hfits : BitmapTree.SplitFits b.toBitmapTree op) (hg : FgptGuard b op) :
    ∃ ans b' t', b.step op = some (ans, b') ∧ BitmapTree.Mirror t' b'.toBitmapTree ∧
      Marked b' := by
  cases op with
  | insert k v =>
    obtain ⟨b', t', hins, hm', h'⟩ := h.insert hm k v hfits hg
    exact ⟨_, b', t', by rw [FgptTree.step, hins]; rfl, hm', h'⟩
  -- the other operations never store a new key, so the marks stay right
  | update k v =>
    obtain ⟨_, data, _, _, _, hlookup, _⟩ := hm.exists_floor k
    have hupd : b.update k v = some ((Entry.update b.mem (b.entryOf data) k v).1,
        b.run (Entry.update b.mem (b.entryOf data) k v).2) := by
      simp only [FgptTree.update, BitmapTree.update, hlookup]
      rfl
    refine ⟨_, _, _, by rw [FgptTree.step, hupd]; rfl, hm.run _ ?_, h.run _ ?_⟩
    · intro a
      rw [hm.mem]
      exact exec_update_next t.mem _ k v a
    · exact fun a i => Or.inl (exec_update_key b.mem _ k v a i)
  | remove k =>
    obtain ⟨_, data, _, _, _, hlookup, _⟩ := hm.exists_floor k
    have hrem : b.remove k = some ((Entry.remove b.mem (b.entryOf data) k).1,
        b.run (Entry.remove b.mem (b.entryOf data) k).2) := by
      simp only [FgptTree.remove, BitmapTree.remove, hlookup]
      rfl
    refine ⟨_, _, _, by rw [FgptTree.step, hrem]; rfl, hm.run _ ?_, h.run _ ?_⟩
    · intro a
      rw [hm.mem]
      exact exec_remove_next t.mem _ k a
    · exact fun a i => exec_remove_key b.mem _ k a i
  | get k =>
    obtain ⟨_, data, _, _, _, hlookup, _⟩ := hm.exists_floor k
    have hget : ∃ r, b.get k = some r := by
      simp only [FgptTree.get, hlookup, Option.bind_eq_bind, Option.bind_some, scanBits_eq]
      split
      · exact ⟨_, rfl⟩
      · exact ⟨_, rfl⟩
    obtain ⟨r, hr⟩ := hget
    exact ⟨_, b, t, by rw [FgptTree.step, hr]; rfl, hm, h⟩

/-! ## The states a client starts from -/

/-- The loaded keys have the fingerprint `BulkLoad` leaves to them. -/
def UnhashedStart : Tree.Start → Prop
  | .fresh => True
  | .bulk kvs _ _ => ∀ x ∈ kvs, hashcode1B x.1 = 0

theorem marked_create (f : Mapping) (pm : Pmem Loc Nat) : Marked (create false f pm) := by
  have hm := (BitmapTree.sim_create f pm).mirror
  have hhead : (Tree.create false f pm).head = f.addr := by rw [Tree.create_eq]
  intro x hx i hi hocc
  -- the head is the only entry, and it is empty
  have hmem : (create false f pm).mem = (Tree.create false f pm).mem := hm.mem
  have hentry : (create false f pm).entryOf x.2 = f.addr := by
    have := hm.entry_mem (Tree.sound_create f pm).shape hx
    rw [List.map_nil, List.mem_singleton, hhead] at this
    exact this
  rw [hmem, hentry] at hocc
  exact absurd ⟨hocc, i, hi, rfl⟩ (Tree.create_not_proper f pm _)

/-- A bulk loaded tree whose keys hash to zero. -/
theorem marked_bulkLoad (f : Mapping) (pm : Pmem Loc Nat) {kvs : List KV}
    (hlen : kvsPerEntry < kvs.length) (hasc : kvs.Pairwise fun a b => a.1 < b.1)
    (hhash : ∀ x ∈ kvs, hashcode1B x.1 = 0) (hload : (create false f pm).bulkLoad kvs = some b)
    (hroom : b.alloc.used ≤ b.alloc.mappedLen) : Marked b := by
  obtain ⟨b₁, hload₁, heq⟩ := Option.map_eq_some_iff.mp hload
  subst heq
  intro x hx i hi hocc
  obtain ⟨i₀, n, hn, hlen', hbit, hfill⟩ :=
    BitmapTree.bulkLoad_rows f pm hlen hasc hload₁ hroom x hx
  have hkey := (hfill i hi).1
  -- the loader leaves the fingerprints at 0, which is the hash of the keys that it loads
  by_cases hin : i < n
  · rw [if_pos hin, List.getD_eq_getElem _ _ (by omega)] at hkey
    have hzero : hashcode1B (b₁.mem (b₁.entryOf x.2, .key i)) = 0 := by
      rw [hkey]
      exact hhash _ (List.mem_of_mem_drop (List.getElem_mem _))
    constructor
    · show (b₁.metas x.2).bitmap.toBitVec.getLsbD i = true
      rw [hbit, getLsbD_mask n hn i hi, decide_eq_true_iff]
      exact hin
    · rw [hzero]
      show (if x.2 < _ then (create false f pm).fgpt x.2 else fun _ => 0) i = 0
      split
      · rfl
      · rfl
  · rw [if_neg hin] at hkey
    exact absurd hkey hocc

theorem marked_start (f : Mapping) (pm : Pmem Loc Nat) {start : Tree.Start}
    (hvalid : BitmapTree.ValidStart start) (hhash : UnhashedStart start) :
    ∃ b t, FgptTree.start f pm start = some b ∧ (b.alloc.used ≤ b.alloc.mappedLen →
      BitmapTree.Mirror t b.toBitmapTree ∧ Marked b) := by
  cases start with
  | fresh =>
    exact ⟨_, _, rfl, fun _ => ⟨(BitmapTree.sim_create f pm).mirror, marked_create f pm⟩⟩
  | bulk kvs long ascending =>
    obtain ⟨t, b, _, hb, hsim⟩ := BitmapTree.sim_bulkLoad f pm long ascending hvalid
    have hload := congrArg (Option.map fun b' : BitmapTree => ({ b' with
      fgpt := fun data => if data < (create false f pm).newMetas then
        (create false f pm).fgpt data else fun _ => 0 } : FgptTree)) hb
    exact ⟨_, t, hload, fun hroom => ⟨(hsim hroom).mirror,
      marked_bulkLoad f pm long ascending hhash hload hroom⟩⟩

/-- In every run that meets the condition, from a fresh tree or one whose loaded keys
hash to zero, `Get` agrees with `Entry::Get` in every state reached. -/
theorem fgpt_get_agrees (f : Mapping) (pm : Pmem Loc Nat) (start : Tree.Start)
    (hvalid : BitmapTree.ValidStart start) (hhash : UnhashedStart start) :
    ∃ b₀, FgptTree.start f pm start = some b₀ ∧
      (b₀.alloc.used ≤ b₀.alloc.mappedLen → ∀ ops : List Op,
        Along step (fun b op => BitmapTree.SplitFits b.toBitmapTree op ∧ FgptGuard b op) b₀ ops →
        ∃ answers b', runOps step b₀ ops = some (answers, b') ∧ GetAgrees b') := by
  obtain ⟨b₀, t₀, hb₀, hstart⟩ := marked_start f pm hvalid hhash
  refine ⟨b₀, hb₀, ?_⟩
  intro hroom ops hok
  obtain ⟨answers, b', hrun, t', _, h'⟩ := hok.total
    (fun b => ∃ t, BitmapTree.Mirror t b.toBitmapTree ∧ Marked b)
    (fun b op h hok => by
      obtain ⟨t, hm, h⟩ := h
      obtain ⟨ans, b', t', hstep, hm', h'⟩ := h.step hm hok.1 hok.2
      exact ⟨ans, b', hstep, t', hm', h'⟩) ⟨t₀, hstart hroom⟩
  exact ⟨answers, b', hrun, fun k hk => h'.get_eq (Nat.pos_iff_ne_zero.mp hk.1)⟩

/-- Fifteen keys that hash to zero. -/
def unhashed : Tree.Start :=
  .bulk ((List.range 15).map fun i => (257 * (i + 1), i)) (by decide) (by decide)

/-- The first `Insert` splits the head and lands in the slot of the removed key. -/
def unhashedOps : List Op :=
  [.remove 257, .insert 257 5, .insert 2500 6, .update 2500 7, .get 257, .get 2500]

set_option maxRecDepth 100000 in
theorem unhashed_get_agrees : ∃ b₀ answers b',
    FgptTree.start Tree.sampleFile Tree.blank unhashed = some b₀ ∧
      runOps step b₀ unhashedOps = some (answers, b') ∧ GetAgrees b' := by
  have hvalid : BitmapTree.ValidStart unhashed := by
    show ∀ x ∈ (List.range 15).map fun i => (257 * (i + 1), i), ValidKey x.1
    decide
  have hhash : UnhashedStart unhashed := by
    show ∀ x ∈ (List.range 15).map fun i => (257 * (i + 1), i), hashcode1B x.1 = 0
    decide
  have hroom : ∀ b ∈ FgptTree.start Tree.sampleFile Tree.blank unhashed,
      b.alloc.used ≤ b.alloc.mappedLen := by
    decide +kernel
  have hguard : ∀ b ∈ FgptTree.start Tree.sampleFile Tree.blank unhashed, Along step (fun b op =>
      BitmapTree.SplitFits b.toBitmapTree op ∧ FgptGuard b op) b unhashedOps := by
    decide +kernel
  obtain ⟨b₀, hb₀, hruns⟩ := fgpt_get_agrees Tree.sampleFile Tree.blank unhashed hvalid hhash
  obtain ⟨answers, b', hrun, hagrees⟩ := hruns (hroom b₀ hb₀) unhashedOps (hguard b₀ hb₀)
  exact ⟨b₀, answers, b', hb₀, hrun, hagrees⟩

set_option maxRecDepth 100000 in
/-- Fifteen ascending inserts: the fifteenth splits the head and puts its key without bit
and fingerprint. `Entry::Get` finds the key, the fingerprints do not. -/
theorem fgpt_misses_key : ∃ answers b,
    runOps step (create false Tree.sampleFile Tree.blank) (Tree.fillBelow 15) =
      some (answers, b) ∧ ValidKey 15 ∧ b.get 15 = some (.fail, 0) ∧
    b.toBitmapTree.get 15 = some (.ok, 15) ∧ ¬ GetAgrees b := by
  have hsome : (runOps step (create false Tree.sampleFile Tree.blank)
      (Tree.fillBelow 15)).isSome := by
    decide +kernel
  have heval : ∀ r ∈ runOps step (create false Tree.sampleFile Tree.blank) (Tree.fillBelow 15),
      r.2.get 15 = some (.fail, 0) ∧ r.2.toBitmapTree.get 15 = some (.ok, 15) := by
    decide +kernel
  obtain ⟨⟨answers, b⟩, hrun⟩ := Option.isSome_iff_exists.mp hsome
  obtain ⟨hmiss, hfound⟩ := heval _ hrun
  refine ⟨answers, b, hrun, by decide, hmiss, hfound, ?_⟩
  intro hagrees
  have := hagrees 15 (by decide)
  rw [hmiss, hfound] at this
  cases this

end FgptTree

end Epli
