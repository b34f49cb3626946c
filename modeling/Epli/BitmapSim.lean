import Epli.Mirror

/-!
# The bitmap build follows the default build

Both builds make the same stores as long as the bitmaps are right about the slot
an `Insert` takes. They are not right after a split: `MaybePut` fills the first
slot behind the half and leaves its bit clear, so that the next `Insert` into
that half overwrites the pair just put there.

`Sim` relates the states of the two builds: the same NVM and allocator, and an
index that leads to the same entries through `MetaData`s whose bitmaps are
prefixes that cover only occupied slots.
-/

namespace Epli

open Lib Entry

namespace BitmapTree

variable {t t' : Tree} {b b' : BitmapTree} {as : List Nat} {k v s data p i : Nat} {calls : Nat}
  {op : Op} {ops : List Op} {ans : Answer}

/-- The two builds in step. -/
structure Sim (t : Tree) (b : BitmapTree) : Prop where
  shape : ∃ as, Tree.Shape t as
  vacated : t.vacated = none
  mem : b.mem = t.mem
  alloc : b.alloc = t.alloc
  head : b.head = t.head
  base : b.baseAddr = t.alloc.pmemAddr
  index : t.index.kvs = b.index.kvs.map fun x => (x.1, b.entryOf x.2)
  fresh : ∀ x ∈ b.index.kvs, x.2 < b.newMetas
  bits : ∀ x ∈ b.index.kvs, ∃ n ≤ kvsPerEntry, (b.metas x.2).bitmap = mask n ∧
    ∀ i < n, t.mem (b.entryOf x.2, .key i) ≠ invalidKey

/-- What the client keeps to: valid keys, and no `Remove`. -/
def BitmapContract : Op → Prop
  | .insert k _ => ValidKey k
  | .update k _ => ValidKey k
  | .remove _ => False
  | .get k => ValidKey k

instance : ∀ op, Decidable (BitmapContract op)
  | .insert k _ => inferInstanceAs (Decidable (ValidKey k))
  | .update k _ => inferInstanceAs (Decidable (ValidKey k))
  | .remove _ => .isFalse id
  | .get k => inferInstanceAs (Decidable (ValidKey k))

/-- The bitmap of a `MetaData` knows of every occupied slot of its entry. -/
def Covers (b : BitmapTree) (data : Nat) : Prop :=
  ∀ i < kvsPerEntry, b.mem (b.entryOf data, .key i) ≠ invalidKey →
    (b.metas data).bitmap &&& (1 <<< UInt16.ofNat i) ≠ 0

/-- A split that puts `median` into the index: looking up `k` again, which the
default build does, leads to the half that this build picks by comparing `k` with
`median`. The entry was found under the separator `s`. -/
def SameHalf (s median k : Nat) : Prop := s ≤ median ∨ (median ≤ k ∧ k < s)

/-- An `Insert` goes to an entry whose bitmap covers its slots; if it splits, both
builds go on with the same half, and the allocator stays within the mapping, as
it asserts. -/
def BitmapGuard (b : BitmapTree) : Op → Prop
  | .insert k _ => ∀ s data, b.index.floor k = some (s, data) → Covers b data ∧
      (kvsPerEntry ≤ (b.metas data).findFirstZero →
        SameHalf s (medianKey b.mem (b.entryOf data)) k ∧
          b.alloc.used + entrySize ≤ b.alloc.mappedLen)
  | _ => True

instance (b : BitmapTree) (data : Nat) : Decidable (Covers b data) :=
  inferInstanceAs (Decidable (∀ i < kvsPerEntry, _ → _))

instance (s median k : Nat) : Decidable (SameHalf s median k) :=
  inferInstanceAs (Decidable (_ ∨ _))

instance (b : BitmapTree) : ∀ op, Decidable (BitmapGuard b op)
  | .insert k _ => decidable_of_iff (∀ x ∈ b.index.floor k, Covers b x.2 ∧
      (kvsPerEntry ≤ (b.metas x.2).findFirstZero →
        SameHalf x.1 (medianKey b.mem (b.entryOf x.2)) k ∧
          b.alloc.used + entrySize ≤ b.alloc.mappedLen))
      (by simp [BitmapGuard])
  | .update _ _ => .isTrue trivial
  | .remove _ => .isTrue trivial
  | .get _ => .isTrue trivial

theorem Sim.mirror (h : Sim t b) : Mirror t b where
  shape := h.shape
  vacated := h.vacated
  mem := h.mem
  alloc := h.alloc
  head := h.head
  base := h.base
  index := h.index
  fresh := h.fresh
  bits := by
    intro x hx
    rcases h.bits x hx with ⟨n, hn, hbit, _⟩
    exact ⟨n, hn, hbit⟩

theorem Mirror.sim (h : Mirror t b) (hbits : ∀ x ∈ b.index.kvs, ∃ n ≤ kvsPerEntry,
    (b.metas x.2).bitmap = mask n ∧ ∀ i < n, t.mem (b.entryOf x.2, .key i) ≠ invalidKey) :
    Sim t b :=
  ⟨h.shape, h.vacated, h.mem, h.alloc, h.head, h.base, h.index, h.fresh, hbits⟩

/-! ## Operations that change no bitmap -/

/-- Stores that leave the links alone and empty no slot. -/
theorem Sim.run (h : Sim t b) (evs : Trace)
    (hnext : ∀ a, exec t.mem evs (a, .next) = t.mem (a, .next))
    (hkeys : ∀ a i, t.mem (a, .key i) ≠ invalidKey → exec t.mem evs (a, .key i) ≠ invalidKey) :
    Sim (t.run evs) (b.run evs) := by
  refine (h.mirror.run evs hnext).sim ?_
  intro x hx
  rcases h.bits x hx with ⟨n, hn, hbit, hocc⟩
  refine ⟨n, hn, hbit, ?_⟩
  intro i hi
  rw [Tree.run_mem]
  exact hkeys _ i (hocc i hi)

theorem keys_putSlot (hk : k ≠ invalidKey) (m : Mem) (a j : Nat)
    (h : m (a, .key j) ≠ invalidKey) : putSlot m p i k v (a, .key j) ≠ invalidKey := by
  rw [putSlot_key]
  split
  · exact hk
  · exact h

theorem sim_update (h : Sim t b) (k v : Nat) :
    ∃ ret evs t' b', t.update k v = some (ret, evs, t') ∧ b.update k v = some (ret, b') ∧
      Sim t' b' := by
  rcases h.mirror.exists_floor k with ⟨_, data, _, _, _, hlb, hlt, _⟩
  refine ⟨_, _, _, _, by simp only [Tree.update, hlt]; rfl,
    by simp only [BitmapTree.update, hlb, h.mem]; rfl, h.run _ ?_ ?_⟩
  · intro a
    exact exec_update_next t.mem _ k v a
  · intro a i hne
    rw [exec_update_key]
    exact hne

/-! ## Splitting -/

/-- After a split both bitmaps cover the lower slots of their halves. -/
theorem Sim.bits_split (h : Sim t b) (hsh : Tree.Shape t as) (hx : (s, data) ∈ b.index.kvs)
    (hf : Full t.mem (b.entryOf data)) (hroom : b.alloc.used + entrySize ≤ b.alloc.mappedLen)
    {x : Nat × Nat} (hx' : x ∈ (b.splitEntry data).index.kvs) :
    ∃ n ≤ kvsPerEntry, ((b.splitEntry data).metas x.2).bitmap = mask n ∧ ∀ i < n,
      (t.splitEntry (b.entryOf data)).2.mem ((b.splitEntry data).entryOf x.2, .key i) ≠
        invalidKey := by
  have hdata : data < b.newMetas := h.fresh _ hx
  have hal : b.alloc.currentAddr % 256 = 0 := by
    rw [h.alloc]
    exact hsh.cursor_aligned
  have hmetas := splitEntry_metas b data hdata hal
  rcases h.mirror.entryOf_split hsh hdata hroom with ⟨hentry, hentryNew⟩
  have heff := Tree.splitEntry_mem hsh (h.mirror.entry_mem hsh hx)
  have hne0 : ∀ y ∈ sortedKVs t.mem (b.entryOf data), y.1 ≠ invalidKey := fun y hy =>
    hf.ne_invalid (mem_sortedKVs.mp hy).hasKey
  -- a full entry has no empty key, so both halves are filled with proper keys
  rw [(splitEntry_fields b data hal).2.2.2.2.1] at hx'
  rcases Multimap.mem_insert.mp hx' with rfl | hx'
  · -- the new half
    refine ⟨kvsPerEntry / 2, by decide, ?_, ?_⟩
    · rw [hmetas, if_neg (by omega), if_pos rfl]
      exact MetaData.resetHalfBitmap_mask _
    · intro i hi
      rw [hentryNew]
      refine ne_invalid_of_filled heff.new_filled (by decide) (by rw [length_upperKVs]) ?_ hi
      exact fun y hy => hne0 y (List.mem_of_mem_drop hy)
  · have hlt := h.fresh x hx'
    rw [hentry x.2 hlt]
    by_cases hxd : x.2 = data
    · -- the old half
      refine ⟨kvsPerEntry / 2, by decide, ?_, ?_⟩
      · rw [hmetas, if_pos hxd]
        exact MetaData.resetHalfBitmap_mask _
      · intro i hi
        rw [hxd]
        exact ne_invalid_of_filled heff.old_filled (by decide)
          (by rw [length_sortedKVs]; decide) hne0 hi
    · -- an entry that is not split
      rcases h.bits x hx' with ⟨n, hn, hbit, hocc⟩
      have hxe := h.mirror.entry_ne hx' hx hxd
      have hxq := h.mirror.entry_ne_cursor hsh hx'
      refine ⟨n, hn, ?_, ?_⟩
      · rw [hmetas, if_neg hxd, if_neg (by omega)]
        exact hbit
      · intro i hi
        rw [heff.other _ _ hxe hxq]
        exact hocc i hi

/-- The two builds split alike. -/
theorem sim_split (h : Sim t b) (hx : (s, data) ∈ b.index.kvs)
    (hf : Full t.mem (b.entryOf data)) (hroom : b.alloc.used + entrySize ≤ b.alloc.mappedLen) :
    Sim (t.splitEntry (b.entryOf data)).2 (b.splitEntry data) := by
  rcases h.shape with ⟨as, hsh⟩
  exact (h.mirror.split hx hroom).sim fun x hx' => h.bits_split hsh hx hf hroom hx'

/-! ## Inserting -/

/-- The first slot behind a prefix of occupied ones. -/
theorem findSlot_of_occupied {m : Mem} {n : Nat} (hn : n < kvsPerEntry)
    (hocc : ∀ i < n, m (p, .key i) ≠ invalidKey) (he : m (p, .key n) = invalidKey) :
    findSlot m p invalidKey = some n := by
  rcases findSlot_isSome ⟨n, hn, he⟩ with ⟨i, hf⟩
  rcases findSlot_some hf with ⟨_, hki, hfirst⟩
  rcases lt_trichotomy i n with hin | rfl | hin
  · exact absurd hki (hocc i hin)
  · exact hf
  · exact absurd he (hfirst n hin)

/-- An `Insert` under a clear bit whose slot is empty. -/
theorem sim_put (h : Sim t b) (hk : k ≠ invalidKey) {n : Nat} (hn : n < kvsPerEntry)
    (hbit : (b.metas data).bitmap = mask n)
    (hocc : ∀ i < n, t.mem (b.entryOf data, .key i) ≠ invalidKey) :
    Sim (t.run (putAtPos (b.entryOf data) n k v))
      ((b.run (putAtPos (b.entryOf data) n k v)).setBit data n) := by
  refine (h.mirror.put k v hn hbit).sim ?_
  intro x hx'
  rw [setBit_entryOf, run_entryOf, Tree.run_mem, exec_putAtPos]
  show ∃ n', n' ≤ kvsPerEntry ∧ (setLoc b.metas data _ x.2).bitmap = _ ∧ _
  by_cases hxd : x.2 = data
  · -- the slot just filled joins the prefix
    rw [hxd, setLoc_self]
    refine ⟨n + 1, hn, MetaData.setBitmap_mask hbit hn, ?_⟩
    intro i hi
    rcases Nat.lt_succ_iff_lt_or_eq.mp hi with hi | rfl
    · exact keys_putSlot hk _ _ _ (hocc i hi)
    · rw [putSlot_key, if_pos ⟨rfl, rfl⟩]
      exact hk
  · rw [setLoc_ne _ _ hxd]
    rcases h.bits x hx' with ⟨n', hn', hbit', hocc'⟩
    exact ⟨n', hn', hbit', fun i hi => keys_putSlot hk _ _ _ (hocc' i hi)⟩

/-- After a split both builds go on with the same half. -/
theorem lookup_after_split (hsh : Tree.Shape t as) (hfl : t.index.floor k = some (s, p))
    (hhalf : SameHalf s (medianKey t.mem p) k) : (t.splitEntry p).2.lookup k =
      some (if medianKey t.mem p ≤ k then t.alloc.currentAddr else p) := by
  have hins := Multimap.floor_insert hfl (medianKey t.mem p) t.alloc.currentAddr
  unfold SameHalf at hhalf
  have hiff : (s ≤ medianKey t.mem p ∧ medianKey t.mem p ≤ k ∨
      k < s ∧ medianKey t.mem p < s) ↔ medianKey t.mem p ≤ k := by
    omega
  rw [Tree.lookup, Tree.splitEntry_index hsh, hins]
  by_cases hmk : medianKey t.mem p ≤ k
  · rw [if_pos (hiff.mpr hmk), if_pos hmk]
    rfl
  · rw [if_neg (mt hiff.mp hmk), if_neg hmk]
    rfl

/-- A slot with a clear bit is empty if the bitmap covers the entry. -/
theorem Covers.empty (h : Covers b data) {n : Nat} (hn : n < kvsPerEntry)
    (hbit : (b.metas data).bitmap = mask n) : b.mem (b.entryOf data, .key n) = invalidKey := by
  by_contra hne
  refine h n hn hne ?_
  rw [hbit]
  exact mask_clear n hn

theorem sim_insert (h : Sim t b) (hv : ValidKey k) (hg : BitmapGuard b (.insert k v))
    (calls : Nat) : ∃ evs t' b', t.insert (calls + 2) k v = some (.ok, evs, t') ∧
      b.insert k v = some (.ok, b') ∧ Sim t' b' := by
  have hk : k ≠ invalidKey := Nat.pos_iff_ne_zero.mp hv.1
  rcases h.shape with ⟨as, hsh⟩
  rcases h.mirror.exists_floor k with ⟨s, data, hfb, hx, hft, _, hlt, _⟩
  rcases h.bits _ hx with ⟨n, hn, hbit, hocc⟩
  simp only at hbit hocc
  have hpos := MetaData.findFirstZero_mask hbit hn
  rcases hg s data hfb with ⟨hcov, hsplit⟩
  rcases Tree.insert_eq hsh hlt calls v with ⟨p', i, hp', hslot, hins⟩
  by_cases hfull : kvsPerEntry ≤ n
  · -- the bitmap is full, and so is the entry
    rw [← hpos] at hfull
    rcases hsplit hfull with ⟨hhalf, hroom⟩
    rw [h.mem] at hhalf
    have hf : Full t.mem (b.entryOf data) := fun j hj => hocc j (by omega)
    rw [Tree.makeRoom_full hf] at hp' hslot hins
    rcases h.mirror.insert_split hfb hfull hroom v with ⟨p, j, hp, hslot', hinsb⟩
    rw [lookup_after_split hsh hft hhalf, ← hp] at hp'
    cases hp'
    cases hslot.symm.trans hslot'
    refine ⟨_, _, _, hins, hinsb, (sim_split h hx hf hroom).run _ ?_ ?_⟩
    · intro a
      rw [exec_putAtPos]
      exact slotsOnly_putSlot.next a
    · intro a j hne
      rw [exec_putAtPos]
      exact keys_putSlot hk _ _ _ hne
  · -- the first clear bit is the first empty slot
    have hn' : n < kvsPerEntry := by omega
    have hempty := hcov.empty hn' hbit
    rw [h.mem] at hempty
    have hroom : ¬ Full t.mem (b.entryOf data) := not_full_iff.mpr ⟨n, hn', hempty⟩
    rw [Tree.makeRoom_room hroom] at hp' hslot hins
    cases hlt.symm.trans hp'
    cases (findSlot_of_occupied hn' hocc hempty).symm.trans hslot
    exact ⟨_, _, _, hins, h.mirror.insert_room hfb hn' hbit v, sim_put h hk hn' hbit hocc⟩

/-- One operation: the bitmap build answers as the default build does. -/
theorem sim_step (h : Sim t b) (hc : BitmapContract op) (hg : BitmapGuard b op)
    (hstep : t.step (calls + 2) op = some (ans, t')) :
    ∃ b', b.step op = some (ans, b') ∧ Sim t' b' := by
  cases op with
  | insert k v =>
    rcases sim_insert h hc hg calls with ⟨evs, t₁, b₁, ht, hb, hsim⟩
    rw [Tree.step, ht] at hstep
    cases hstep
    refine ⟨b₁, ?_, hsim⟩
    rw [step, hb]
    rfl
  | update k v =>
    rcases sim_update h k v with ⟨ret, evs, t₁, b₁, ht, hb, hsim⟩
    rw [Tree.step, ht] at hstep
    cases hstep
    refine ⟨b₁, ?_, hsim⟩
    rw [step, hb]
    rfl
  -- `Remove` leaves the bitmap as it is, and is outside the contract
  | remove k => exact absurd hc id
  | get k =>
    rw [Tree.step, ← h.mirror.get] at hstep
    rcases Option.map_eq_some_iff.mp hstep with ⟨r, hr, heq⟩
    cases heq
    refine ⟨b, ?_, h⟩
    rw [step, hr]
    rfl

end BitmapTree

end Epli
