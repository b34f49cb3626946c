import Epli.Client
import Epli.Bitmap

/-!
# A tree in the memory of the bitmap build

Whatever its bitmaps say, a tree of the build with `USE_BITMAP` keeps the same list and
the same index as a tree of the default build, with a `MetaData` between the index and
each entry. `Mirror` is that correspondence; it holds along every run, and the
invariants of the list carry over through it. Every bitmap is a prefix: bits are set
from the first slot on, and never cleared one by one.
-/

namespace Epli

open Lib Entry

namespace BitmapTree

variable {t t' : Tree} {b b' : BitmapTree} {as : List Nat} {k v s data p i : Nat}

/-- The list and the index of `b` are those of `t`. -/
structure Mirror (t : Tree) (b : BitmapTree) : Prop where
  shape : ∃ as, Tree.Shape t as
  vacated : t.vacated = none
  mem : b.mem = t.mem
  alloc : b.alloc = t.alloc
  head : b.head = t.head
  base : b.baseAddr = t.alloc.pmemAddr
  index : t.index.kvs = b.index.kvs.map fun x => (x.1, b.entryOf x.2)
  fresh : ∀ x ∈ b.index.kvs, x.2 < b.newMetas
  bits : ∀ x ∈ b.index.kvs, ∃ n ≤ kvsPerEntry, (b.metas x.2).bitmap = mask n

/-! ## Lookups -/

@[simp] theorem run_mem (b : BitmapTree) (evs : Trace) : (b.run evs).mem = exec b.mem evs := by
  simp [run, mem]

@[simp] theorem run_entryOf (b : BitmapTree) (evs : Trace) (data : Nat) :
    (b.run evs).entryOf data = b.entryOf data := rfl

@[simp] theorem setBit_entryOf (b : BitmapTree) (data pos x : Nat) :
    (b.setBit data pos).entryOf x = b.entryOf x := by
  unfold entryOf
  by_cases hxd : x = data
  · subst hxd
    simp [setBit, MetaData.setBitmap, MetaData.entry]
  · simp [setBit, setLoc_ne _ _ hxd]

/-- The floors of both indexes are the same, up to the data node between. -/
theorem Mirror.floor (h : Mirror t b) (k : Nat) :
    t.index.floor k = (b.index.floor k).map fun x => (x.1, b.entryOf x.2) :=
  Multimap.floor_rename h.index k

/-- Both lookups end at the same entry. -/
theorem Mirror.lookup (h : Mirror t b) (k : Nat) : t.lookup k = (b.lookup k).map b.entryOf := by
  rw [Tree.lookup_eq_floor h.vacated, h.floor, BitmapTree.lookup, Option.map_map, Option.map_map]
  rfl

/-- Every key is looked up under some `MetaData` of the index. -/
theorem Mirror.exists_floor (h : Mirror t b) (k : Nat) :
    ∃ s data, b.index.floor k = some (s, data) ∧
    (s, data) ∈ b.index.kvs ∧ t.index.floor k = some (s, b.entryOf data) ∧
    b.lookup k = some data ∧ t.lookup k = some (b.entryOf data) ∧ b.entryOf data ≠ null := by
  rcases h.shape with ⟨as, hsh⟩
  rcases hsh.exists_floor (hsh.index_ne h.vacated) k with ⟨s, p, hfl, hp⟩
  have hmap := h.floor k
  rw [hfl] at hmap
  rcases Option.map_eq_some_iff.mp hmap.symm with ⟨⟨s', data⟩, hb, heq⟩
  cases heq
  have hlb : b.lookup k = some data := by
    rw [BitmapTree.lookup, hb]
    rfl
  have hlt : t.lookup k = some (b.entryOf data) := by
    rw [h.lookup, hlb]
    rfl
  exact ⟨_, data, hb, Multimap.floor_mem hb, hfl, hlb, hlt, hsh.pos hp⟩

/-- The data nodes stand for entries of the list. -/
theorem Mirror.entry_mem (h : Mirror t b) (hsh : Tree.Shape t as) {x : Nat × Nat}
    (hx : x ∈ b.index.kvs) : b.entryOf x.2 ∈ as := by
  rw [← hsh.payloads.mem_iff, h.index, List.map_map]
  exact List.mem_append_right _ (List.mem_map_of_mem hx)

/-- Different `MetaData`s of the index have different entries. -/
theorem Mirror.entry_inj (h : Mirror t b) {x y : Nat × Nat} (hx : x ∈ b.index.kvs)
    (hy : y ∈ b.index.kvs) (heq : b.entryOf x.2 = b.entryOf y.2) : x = y := by
  rcases h.shape with ⟨as, hsh⟩
  have hnd : (b.index.kvs.map fun x => b.entryOf x.2).Nodup := by
    have hpay := hsh.payloads.nodup_iff.mpr hsh.nodup
    rw [h.vacated, h.index, List.map_map] at hpay
    exact hpay
  exact List.inj_on_of_nodup_map hnd hx hy heq

theorem Mirror.entry_ne (h : Mirror t b) {x : Nat × Nat} (hx : x ∈ b.index.kvs)
    (hdata : (s, data) ∈ b.index.kvs) (hne : x.2 ≠ data) : b.entryOf x.2 ≠ b.entryOf data :=
  fun heq => hne (congrArg Prod.snd (h.entry_inj hx hdata heq))

theorem Mirror.entry_ne_cursor (h : Mirror t b) (hsh : Tree.Shape t as) {x : Nat × Nat}
    (hx : x ∈ b.index.kvs) : b.entryOf x.2 ≠ t.alloc.currentAddr :=
  fun heq => hsh.cursor_fresh (heq ▸ h.entry_mem hsh hx)

/-- `Get` answers the same in both trees: it does not look at the bitmap. -/
theorem Mirror.get (h : Mirror t b) (k : Nat) : b.get k = t.get k := by
  rcases h.exists_floor k with ⟨_, data, _, _, _, hlb, hlt, _⟩
  simp only [BitmapTree.get, Tree.get, hlb, hlt, h.mem]
  rfl

/-! ## Stores -/

/-- Stores that leave the links alone. -/
theorem Mirror.run (h : Mirror t b) (evs : Trace)
    (hnext : ∀ a, exec t.mem evs (a, .next) = t.mem (a, .next)) :
    Mirror (t.run evs) (b.run evs) where
  shape := by
    rcases h.shape with ⟨as, hsh⟩
    exact ⟨as, hsh.run evs fun a _ => hnext a⟩
  vacated := h.vacated
  mem := by rw [run_mem, Tree.run_mem, h.mem]
  alloc := h.alloc
  head := h.head
  base := h.base
  index := h.index
  fresh := h.fresh
  bits := h.bits

/-- A put at a slot whose bit is the first clear one. -/
theorem Mirror.put (h : Mirror t b) (k v : Nat) {n : Nat} (hn : n < kvsPerEntry)
    (hbit : (b.metas data).bitmap = mask n) :
    Mirror (t.run (putAtPos (b.entryOf data) n k v))
      ((b.run (putAtPos (b.entryOf data) n k v)).setBit data n) := by
  have hrun := h.run (putAtPos (b.entryOf data) n k v)
    fun a => by rw [exec_putAtPos]; exact slotsOnly_putSlot.next a
  refine ⟨hrun.shape, hrun.vacated, hrun.mem, hrun.alloc, hrun.head, hrun.base, ?_, hrun.fresh, ?_⟩
  · simp only [setBit_entryOf]
    exact hrun.index
  · intro x hx
    show ∃ n', n' ≤ kvsPerEntry ∧ (setLoc b.metas data _ x.2).bitmap = _
    by_cases hxd : x.2 = data
    · rw [hxd, setLoc_self]
      exact ⟨n + 1, hn, MetaData.setBitmap_mask hbit hn⟩
    · rw [setLoc_ne _ _ hxd]
      exact h.bits x hx

/-! ## Splitting -/

/-- The flag that is not persisted makes no difference to the visible memory. -/
theorem exec_splitTrace (m : Mem) (p q : Nat) : exec m (splitTrace m p q) =
    exec m (Tree.splitInit m p q ++ Tree.splitLink m p q ++ Tree.splitRefill m p) := by
  have hinit : exec m (initKVs q (medianKey m p) ((sortedKVs m p).drop (kvsPerEntry / 2))
      ((kvsPerEntry + 1) / 2) ++ setFlag p 1) = exec m (Tree.splitInit m p q) := by
    rw [Tree.exec_splitInit, exec_append]
    rfl
  simp only [splitTrace, Tree.splitLink, Tree.splitRefill, exec_append, exec_memPersist]
  simp only [exec_append] at hinit
  rw [hinit]

section Split

variable (b data)

/-- The `MetaData`s after a split. -/
theorem splitEntry_metas (hdata : data < b.newMetas) (hal : b.alloc.currentAddr % 256 = 0)
    (h : Nat) : (b.splitEntry data).metas h =
      if h = data then (b.metas data).resetHalfBitmap
      else if h = b.newMetas then
        (MetaData.create b.baseAddr b.alloc.currentAddr).resetHalfBitmap
      else b.metas h := by
  have hne : data ≠ b.newMetas := by omega
  simp only [splitEntry, newMeta, BitmapTree.run, Alloc.allocAligned_of_aligned hal]
  by_cases hd : h = data
  · subst hd
    rw [setLoc_self, setLoc_ne _ _ hne, if_pos rfl]
  · rw [setLoc_ne _ _ hd, if_neg hd]
    by_cases hn : h = b.newMetas
    · subst hn
      rw [setLoc_self, if_pos rfl]
    · rw [setLoc_ne _ _ hn, if_neg hn]

/-- What a split does to the fields of the tree. -/
theorem splitEntry_fields (hal : b.alloc.currentAddr % 256 = 0) :
    (b.splitEntry data).alloc = { b.alloc with
        used := b.alloc.used + entrySize, currentAddr := b.alloc.currentAddr + entrySize } ∧
      (b.splitEntry data).head = b.head ∧ (b.splitEntry data).baseAddr = b.baseAddr ∧
      (b.splitEntry data).newMetas = b.newMetas + 1 ∧
      (b.splitEntry data).index = b.index.insert (medianKey b.mem (b.entryOf data)) b.newMetas ∧
      (b.splitEntry data).mem =
        exec b.mem (splitTrace b.mem (b.entryOf data) b.alloc.currentAddr) := by
  simp only [splitEntry, newMeta, Alloc.allocAligned_of_aligned hal, run_mem]
  simp only [BitmapTree.run, and_self]

end Split

/-- The entries behind the `MetaData`s after a split: the old ones, and the new
block, which is within reach of a six byte pointer. -/
theorem Mirror.entryOf_split (h : Mirror t b) (hsh : Tree.Shape t as) (hdata : data < b.newMetas)
    (hroom : b.alloc.used + entrySize ≤ b.alloc.mappedLen) :
    (∀ x < b.newMetas, (b.splitEntry data).entryOf x = b.entryOf x) ∧
      (b.splitEntry data).entryOf b.newMetas = t.alloc.currentAddr := by
  have hal : b.alloc.currentAddr % 256 = 0 := by
    rw [h.alloc]
    exact hsh.cursor_aligned
  have hmetas := splitEntry_metas b data hdata hal
  have hbase := (splitEntry_fields b data hal).2.2.1
  constructor
  · intro x hx
    unfold entryOf
    rw [hmetas, hbase]
    by_cases hxd : x = data
    · rw [if_pos hxd, hxd]
      rfl
    · rw [if_neg hxd, if_neg (by omega)]
  -- the new offset fits the six bytes because the mapping does
  · have hused := hsh.used
    have hle := t.alloc.mapped_le
    unfold entryOf
    rw [hmetas, hbase, if_neg (by omega), if_pos rfl]
    show (MetaData.create b.baseAddr b.alloc.currentAddr).entry b.baseAddr = _
    rw [h.alloc] at hroom ⊢
    rw [MetaData.entry_create]
    · rw [h.base, hsh.cursor]
      omega
    · rw [h.base, hsh.cursor]
      simp only [entrySize] at *
      omega

/-- The two builds split alike. -/
theorem Mirror.split (h : Mirror t b) (hx : (s, data) ∈ b.index.kvs)
    (hroom : b.alloc.used + entrySize ≤ b.alloc.mappedLen) :
    Mirror (t.splitEntry (b.entryOf data)).2 (b.splitEntry data) := by
  rcases h.shape with ⟨as, hsh⟩
  have hp := h.entry_mem hsh hx
  have hal : b.alloc.currentAddr % 256 = 0 := by
    rw [h.alloc]
    exact hsh.cursor_aligned
  have hdata : data < b.newMetas := h.fresh _ hx
  rcases splitEntry_fields b data hal with ⟨halloc, hhead, hbase, hnew, hindex, hmem⟩
  rcases h.entryOf_split hsh hdata hroom with ⟨hentry, hentryNew⟩
  constructor
  · rcases List.append_of_mem hp with ⟨pre, post, has⟩
    rw [has] at hsh
    exact ⟨_, Tree.shape_splitEntry hsh⟩
  · exact h.vacated
  · rw [hmem, exec_splitTrace, h.mem, h.alloc]
    simp [Tree.splitEntry, hsh.alloc_eq]
  · rw [halloc, Tree.splitEntry_alloc hsh, h.alloc]
  · rw [hhead, Tree.splitEntry_head, h.head]
  · rw [hbase, Tree.splitEntry_alloc hsh, h.base]
  -- index: renaming the payloads commutes with the insertion of the new pair
  · have hold : b.index.kvs.map (fun x => (x.1, b.entryOf x.2)) =
        b.index.kvs.map fun x => (x.1, (b.splitEntry data).entryOf x.2) := by
      refine List.map_congr_left fun x hx' => ?_
      rw [hentry x.2 (h.fresh x hx')]
    rw [Tree.splitEntry_index hsh, hindex, Multimap.kvs_insert, Multimap.kvs_insert,
      Multimap.insertList_rename, hentryNew, h.index, hold, h.mem]
  · intro x hx'
    rw [hindex] at hx'
    rw [hnew]
    rcases Multimap.mem_insert.mp hx' with rfl | hx'
    · exact Nat.lt_succ_self _
    · exact Nat.lt_succ_of_lt (h.fresh x hx')
  -- bitmaps: both halves of the split get the lower half of the bits, the rest keep theirs
  · intro x hx'
    have hmetas := splitEntry_metas b data hdata hal
    rw [hindex] at hx'
    by_cases hxd : x.2 = data
    · rw [hmetas, if_pos hxd]
      exact ⟨_, by decide, MetaData.resetHalfBitmap_mask _⟩
    · rcases Multimap.mem_insert.mp hx' with rfl | hx'
      · rw [hmetas, if_neg hxd, if_pos rfl]
        exact ⟨_, by decide, MetaData.resetHalfBitmap_mask _⟩
      · have hlt := h.fresh x hx'
        rw [hmetas, if_neg hxd, if_neg (by omega)]
        exact h.bits x hx'

/-! ## Operations -/

/-- `Insert` under a clear bit. -/
theorem Mirror.insert_room (h : Mirror t b) (hx : b.index.floor k = some (s, data)) {n : Nat}
    (hn : n < kvsPerEntry) (hbit : (b.metas data).bitmap = mask n) (v : Nat) :
    b.insert k v = some (.ok, (b.run (putAtPos (b.entryOf data) n k v)).setBit data n) := by
  rcases h.exists_floor k with ⟨_, _, hfl, _, _, hlookup, _, hnull⟩
  cases hx.symm.trans hfl
  have hpos := MetaData.findFirstZero_mask hbit hn.le
  have hroom : ¬ kvsPerEntry ≤ n := by omega
  simp only [BitmapTree.insert, hlookup, hnull, if_false, hpos, if_neg hroom, Option.bind_eq_bind,
    Option.bind_some]
  rfl

/-- The put that follows a split goes to an empty slot of the half on the side of
`k`. -/
theorem Mirror.maybePut_split (h : Mirror t b) (hx : (s, data) ∈ b.index.kvs)
    (hroom : b.alloc.used + entrySize ≤ b.alloc.mappedLen) (k v : Nat) :
    ∃ p i, p = (if medianKey t.mem (b.entryOf data) ≤ k then t.alloc.currentAddr
        else b.entryOf data) ∧
      findSlot (t.splitEntry (b.entryOf data)).2.mem p invalidKey = some i ∧
      maybePut (b.splitEntry data).mem (if (b.splitEntry data).mem
          ((b.splitEntry data).mem (b.entryOf data, .next), .minKey) ≤ k
        then (b.splitEntry data).mem (b.entryOf data, .next) else b.entryOf data) k v =
        (.ok, putAtPos p i k v) := by
  rcases h.shape with ⟨as, hsh⟩
  have heff := Tree.splitEntry_mem hsh (h.entry_mem hsh hx)
  have hsplit := h.split hx hroom
  -- each half has seven empty slots
  have hspace : ¬ Full (t.splitEntry (b.entryOf data)).2.mem
      (if medianKey t.mem (b.entryOf data) ≤ k then t.alloc.currentAddr
        else b.entryOf data) := by
    split
    · exact heff.room_new
    · exact heff.room_old
  rcases maybePut_room k v hspace with ⟨i, hslot, hput⟩
  refine ⟨_, i, rfl, hslot, ?_⟩
  rw [hsplit.mem, heff.old_next, heff.new_minKey]
  exact hput

/-- `Insert` under a full bitmap: a split, and a put into the half on the side of `k`. -/
theorem Mirror.insert_split (h : Mirror t b) (hx : b.index.floor k = some (s, data))
    (hfull : kvsPerEntry ≤ (b.metas data).findFirstZero)
    (hroom : b.alloc.used + entrySize ≤ b.alloc.mappedLen) (v : Nat) :
    ∃ p i, p = (if medianKey t.mem (b.entryOf data) ≤ k then t.alloc.currentAddr
        else b.entryOf data) ∧
      findSlot (t.splitEntry (b.entryOf data)).2.mem p invalidKey = some i ∧
      b.insert k v = some (.ok, (b.splitEntry data).run (putAtPos p i k v)) := by
  rcases h.exists_floor k with ⟨_, _, hfl, hmem, _, hlookup, _, hnull⟩
  cases hx.symm.trans hfl
  rcases h.maybePut_split hmem hroom k v with ⟨p, i, hp, hslot, hput⟩
  refine ⟨p, i, hp, hslot, ?_⟩
  simp only [BitmapTree.insert, hlookup, hnull, if_false, if_pos hfull, Option.bind_eq_bind,
    Option.bind_some, hput]
  rfl

/-- `Update` does the same in both trees. -/
theorem Mirror.update (h : Mirror t b) (k v : Nat) : ∃ ret evs t' b',
    t.update k v = some (ret, evs, t') ∧ b.update k v = some (ret, b') ∧ Mirror t' b' := by
  rcases h.exists_floor k with ⟨_, data, _, _, _, hlb, hlt, _⟩
  refine ⟨_, _, _, _, by simp only [Tree.update, hlt]; rfl,
    by simp only [BitmapTree.update, hlb, h.mem]; rfl, h.run _ ?_⟩
  exact exec_update_next t.mem _ k v

/-- `Remove` does the same in both trees. -/
theorem Mirror.remove (h : Mirror t b) (k : Nat) : ∃ ret evs t' b',
    t.remove k = some (ret, evs, t') ∧ b.remove k = some (ret, b') ∧ Mirror t' b' := by
  rcases h.exists_floor k with ⟨_, data, _, _, _, hlb, hlt, _⟩
  refine ⟨_, _, _, _, by simp only [Tree.remove, hlt]; rfl,
    by simp only [BitmapTree.remove, hlb, h.mem]; rfl, h.run _ ?_⟩
  exact exec_remove_next t.mem _ k

/-- A split stays within the mapping, as the allocator asserts. -/
def SplitFits (b : BitmapTree) : Op → Prop
  | .insert k _ => ∀ s data, b.index.floor k = some (s, data) →
      kvsPerEntry ≤ (b.metas data).findFirstZero → b.alloc.used + entrySize ≤ b.alloc.mappedLen
  | _ => True

instance (b : BitmapTree) : ∀ op, Decidable (SplitFits b op)
  | .insert k _ => decidable_of_iff (∀ x ∈ b.index.floor k,
      kvsPerEntry ≤ (b.metas x.2).findFirstZero → b.alloc.used + entrySize ≤ b.alloc.mappedLen)
      (by simp [SplitFits])
  | .update _ _ => .isTrue trivial
  | .remove _ => .isTrue trivial
  | .get _ => .isTrue trivial

/-- Every operation comes back with a tree that mirrors one of the default build. -/
theorem Mirror.step (h : Mirror t b) (op : Op) (hfits : SplitFits b op) :
    ∃ ans b' t', b.step op = some (ans, b') ∧ Mirror t' b' := by
  cases op with
  | insert k v =>
    rcases h.exists_floor k with ⟨s, data, hfl, hmem, _⟩
    rcases h.bits _ hmem with ⟨n, hn, hbit⟩
    -- the bitmap decides whether to split, not the keys in the entry
    by_cases hfull : kvsPerEntry ≤ n
    · have hfull' : kvsPerEntry ≤ (b.metas data).findFirstZero := by
        rw [MetaData.findFirstZero_mask hbit hn]
        exact hfull
      rcases h.insert_split hfl hfull' (hfits s data hfl hfull') v with ⟨p, i, _, _, hins⟩
      refine ⟨_, _, _, by rw [BitmapTree.step, hins]; rfl,
        (h.split hmem (hfits s data hfl hfull')).run _ ?_⟩
      intro a
      rw [exec_putAtPos]
      exact slotsOnly_putSlot.next a
    · have hins := h.insert_room hfl (by omega) hbit v
      exact ⟨_, _, _, by rw [BitmapTree.step, hins]; rfl, h.put k v (by omega) hbit⟩
  | update k v =>
    rcases h.update k v with ⟨ret, evs, t', b', _, hupd, h'⟩
    exact ⟨_, b', t', by rw [BitmapTree.step, hupd]; rfl, h'⟩
  | remove k =>
    rcases h.remove k with ⟨ret, evs, t', b', _, hrem, h'⟩
    exact ⟨_, b', t', by rw [BitmapTree.step, hrem]; rfl, h'⟩
  | get k =>
    rcases h.exists_floor k with ⟨_, data, _, _, _, hlb, _⟩
    cases hget : Entry.get b.mem (b.entryOf data) k with
    | none => exact ⟨⟨.fail, some 0⟩, b, t, by simp [BitmapTree.step, BitmapTree.get, hlb, hget], h⟩
    | some v => exact ⟨⟨.ok, some v⟩, b, t, by simp [BitmapTree.step, BitmapTree.get, hlb, hget], h⟩

end BitmapTree

end Epli
