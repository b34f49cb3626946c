import Epli.Lib.LinkedList
import Epli.Contents
import Epli.Tree

/-!
# The shape of a tree

What is true of the list, the index and the allocator in *every* state a client
can produce, whatever the separators are: the list visits each block that was
ever handed out exactly once, and the payloads of the index are those blocks.

The effect of `splitEntry` and of `Insert` on the memory is worked out here once
(`SplitEffect`, `insert_eq`); every invariant is derived from
these and never unfolds the operations again.
-/

namespace Epli

open Lib Entry

/-- `entry->next`. -/
def nextOf (m : Mem) (p : Nat) : Nat := m (p, .next)

namespace Tree

/-! ## The effect of a split on the memory -/

/-- `m'` is `m` with the full entry `p` split into itself and the new entry `q`. -/
structure SplitEffect (m m' : Mem) (p q : Nat) : Prop where
  other : ∀ r fld, r ≠ p → r ≠ q → m' (r, fld) = m (r, fld)
  old_next : m' (p, .next) = q
  old_minKey : m' (p, .minKey) = ((sortedKVs m p).getD 0 (0, 0)).1
  old_filled : Filled m' p (sortedKVs m p) (kvsPerEntry / 2)
  new_next : m' (q, .next) = m (p, .next)
  new_minKey : m' (q, .minKey) = medianKey m p
  new_filled : Filled m' q (upperKVs m p) (kvsPerEntry / 2)

/-- The memory between the link and the refill: the old entry is complete, the
new one already holds the upper half. -/
structure LinkEffect (m m' : Mem) (p q : Nat) : Prop where
  other : ∀ r fld, r ≠ p → r ≠ q → m' (r, fld) = m (r, fld)
  old_next : m' (p, .next) = q
  old_minKey : m' (p, .minKey) = m (p, .minKey)
  old_key : ∀ i, m' (p, .key i) = m (p, .key i)
  old_val : ∀ i, m' (p, .val i) = m (p, .val i)
  new_next : m' (q, .next) = m (p, .next)
  new_minKey : m' (q, .minKey) = medianKey m p
  new_filled : Filled m' q (upperKVs m p) (kvsPerEntry / 2)

variable {m : Mem} {p q : Nat}

/-- The first stage fills the new entry with the upper half and raises the flag. -/
theorem exec_splitInit (m : Mem) (p q : Nat) :
    exec m (splitInit m p q) =
      setLoc (exec m (initKVs q (medianKey m p) (upperKVs m p) (kvsPerEntry / 2)))
        (p, .flag) 1 := by
  simp only [splitInit, exec_append, setFlag, setPersistFlag, exec_clflush, exec_store, exec_nil]
  funext l
  by_cases hl : l = (p, .flag)
  · rw [hl, setLoc_self, setLoc_self]
  · rw [setLoc_ne _ _ hl, setLoc_ne _ _ hl, setLoc_ne _ _ hl]
    rfl

/-- The second stage links the new entry behind the old one. -/
theorem linkEffect (hqp : q ≠ p) :
    LinkEffect m (exec m (splitInit m p q ++ splitLink m p q)) p q := by
  have hpq : p ≠ q := fun h => hqp h.symm
  -- the new entry is a different one, so `next` of the old is still what it was
  have hnext : exec m (splitInit m p q) (p, .next) = m (p, .next) := by
    rw [exec_splitInit, setLoc_ne _ _ (by simp), exec_initKVs_ne _ _ _ _ _ _ hpq]
  have hmem : exec m (splitInit m p q ++ splitLink m p q) =
      setLoc (setLoc (exec m (splitInit m p q)) (q, .next) (m (p, .next))) (p, .next) q := by
    simp [splitLink, hnext]
  have hinit := filled_initKVs m q (kvsPerEntry / 2) (medianKey m p) (upperKVs m p)
  rw [exec_splitInit] at hmem
  rw [hmem]
  constructor
  · intro r fld hrp hrq
    simp [setLoc, hrp, hrq, exec_initKVs_ne]
  · simp [setLoc]
  · simp [setLoc, hpq, exec_initKVs_ne]
  · intro i
    simp [setLoc, hpq, exec_initKVs_ne]
  · intro i
    simp [setLoc, hpq, exec_initKVs_ne]
  · simp [setLoc, hqp]
  · simp [setLoc]
  · apply filled_congr hinit <;> intro i <;> simp [setLoc]

/-- The third stage writes the lower half back and lowers the flag. -/
theorem splitEffect (hqp : q ≠ p) :
    SplitEffect m (exec m (splitInit m p q ++ splitLink m p q ++ splitRefill m p)) p q := by
  have hlink := linkEffect (m := m) hqp
  rw [exec_append]
  generalize exec m (splitInit m p q ++ splitLink m p q) = m₁ at hlink
  have hmem : exec m₁ (splitRefill m p) =
      setLoc (exec m₁ (setOrderedKVs p (sortedKVs m p) (kvsPerEntry / 2))) (p, .flag) 0 := by
    simp [splitRefill, setFlag]
  have hrefill := filled_setOrderedKVs m₁ p (kvsPerEntry / 2) (sortedKVs m p)
  rw [hmem]
  constructor
  · intro r fld hrp hrq
    rw [setLoc_ne _ _ (by simp [hrp]), exec_setOrderedKVs_ne _ _ _ _ _ hrp]
    exact hlink.other r fld hrp hrq
  · rw [setLoc_ne _ _ (by simp), exec_setOrderedKVs_next, hlink.old_next]
  · rw [setLoc_ne _ _ (by simp), exec_setOrderedKVs_minKey]
  · apply filled_congr hrefill <;> intro i <;> simp [setLoc]
  · rw [setLoc_ne _ _ (by simp), exec_setOrderedKVs_ne _ _ _ _ _ hqp, hlink.new_next]
  · rw [setLoc_ne _ _ (by simp), exec_setOrderedKVs_ne _ _ _ _ _ hqp, hlink.new_minKey]
  · apply filled_congr hlink.new_filled <;> intro i <;>
      rw [setLoc_ne _ _ (by simp), exec_setOrderedKVs_ne _ _ _ _ _ hqp]

/-! ## Lookups and `Get` -/

section Get

variable {t t' : Tree} {s k v : Nat}

/-- With an entry at the floor, the index answers with its block. -/
theorem lookup_of_floor (h : t.index.floor k = some (s, p)) : t.lookup k = some p := by
  rw [lookup, h]
  rfl

/-- Without a payload left behind a lookup is the floor. -/
theorem lookup_eq_floor (h : t.vacated = none) (k : Nat) :
    t.lookup k = (t.index.floor k).map Prod.snd := by
  rw [lookup, h, Option.or_none]

/-- In an index that is not empty every answer comes from the floor. -/
theorem floor_of_lookup (hne : t.index.kvs ≠ []) (hp : t.lookup k = some p) :
    ∃ s, t.index.floor k = some (s, p) := by
  rcases Multimap.exists_floor hne k with ⟨x, hx⟩
  cases hp.symm.trans (lookup_of_floor hx)
  exact ⟨x.1, hx⟩

/-- `Get` succeeds with what the entry that the index names has for the key. -/
theorem get_eq_ok_iff (hp : t.lookup k = some p) :
    t.get k = some (.ok, v) ↔ Entry.get t.mem p k = some v := by
  simp only [Tree.get, hp, Option.bind_eq_bind, Option.bind_some]
  cases Entry.get t.mem p k <;> simp

/-- `Get` fails when the entry that the index names does not have the key. -/
theorem get_eq_fail_iff (hp : t.lookup k = some p) :
    t.get k = some (.fail, 0) ↔ Entry.get t.mem p k = none := by
  simp only [Tree.get, hp, Option.bind_eq_bind, Option.bind_some]
  cases Entry.get t.mem p k <;> simp

/-- `Get` answers alike where the entries do. -/
theorem get_eq_get_iff (hp : t.lookup k = some p) (hq : t'.lookup k = some q) :
    t'.get k = t.get k ↔ Entry.get t'.mem q k = Entry.get t.mem p k := by
  simp only [Tree.get, hp, hq, Option.bind_eq_bind, Option.bind_some]
  cases Entry.get t'.mem q k <;> cases Entry.get t.mem p k <;> simp

end Get

/-! ## Shape -/

/-- The shape of a tree whose list visits the entries `as`. -/
structure Shape (t : Tree) (as : List Nat) : Prop where
  base_pos : 0 < t.alloc.pmemAddr
  base_aligned : t.alloc.pmemAddr % 256 = 0
  head_eq : t.head = t.alloc.pmemAddr
  /-- Walking `next` from the head visits `as` and ends at `NULL`. -/
  walk : Walk (nextOf t.mem) null t.head as
  /-- The entries are exactly the blocks handed out so far. -/
  blocks : as.Perm ((List.range as.length).map fun j => t.alloc.pmemAddr + entrySize * j)
  cursor : t.alloc.currentAddr = t.alloc.pmemAddr + entrySize * as.length
  used : t.alloc.used = entrySize * as.length
  /-- The payloads of the index are the entries, but for a head whose separator is lost. -/
  payloads : (t.vacated.toList ++ t.index.kvs.map Prod.snd).Perm as

namespace Shape

variable {t : Tree} {as : List Nat} {a k v : Nat}

/-- The blocks of the list are the blocks given out so far. -/
theorem mem_iff (h : Shape t as) :
    a ∈ as ↔ ∃ j < as.length, a = t.alloc.pmemAddr + entrySize * j := by
  rw [h.blocks.mem_iff]
  simp [eq_comm]

/-- No block is in the list twice. -/
theorem nodup (h : Shape t as) : as.Nodup := by
  rw [h.blocks.nodup_iff]
  refine List.Nodup.map_on ?_ List.nodup_range
  intro i _ j _ hij
  simp only [entrySize] at hij
  omega

/-- No block is at address 0. -/
theorem pos (h : Shape t as) (ha : a ∈ as) : a ≠ null := by
  rcases h.mem_iff.mp ha with ⟨j, _, rfl⟩
  have := h.base_pos
  show t.alloc.pmemAddr + entrySize * j ≠ 0
  omega

/-- Every block starts on a cache line, as `mem_persist` wants it. -/
theorem aligned (h : Shape t as) (ha : a ∈ as) : a % 256 = 0 := by
  rcases h.mem_iff.mp ha with ⟨j, _, rfl⟩
  have := h.base_aligned
  simp only [entrySize]
  omega

/-- The head is a block of the list. -/
theorem head_mem (h : Shape t as) : t.head ∈ as := by
  apply walk_head_mem h.walk
  rw [h.head_eq]
  exact Nat.pos_iff_ne_zero.mp h.base_pos

/-- The block handed out next is not an entry yet. -/
theorem cursor_fresh (h : Shape t as) : t.alloc.currentAddr ∉ as := by
  rw [h.mem_iff, h.cursor]
  rintro ⟨j, hj, heq⟩
  simp only [entrySize] at heq
  omega

/-- The allocator's cursor stays aligned, so no padding is lost. -/
theorem cursor_aligned (h : Shape t as) : t.alloc.currentAddr % 256 = 0 := by
  have := h.base_aligned
  rw [h.cursor, entrySize]
  omega

/-- The cursor is past address 0. -/
theorem cursor_pos (h : Shape t as) : t.alloc.currentAddr ≠ null := by
  have := h.base_pos
  rw [h.cursor]
  show t.alloc.pmemAddr + entrySize * as.length ≠ 0
  omega

/-- An allocation takes the block at the cursor. -/
theorem alloc_eq (h : Shape t as) : t.alloc.allocAligned entrySize 256 =
    (t.alloc.currentAddr, { t.alloc with
      used := t.alloc.used + entrySize, currentAddr := t.alloc.currentAddr + entrySize }) :=
  Alloc.allocAligned_of_aligned h.cursor_aligned

/-- A lookup in the index ends in an entry of the list. -/
theorem mem_of_floor (h : Shape t as) {x : Nat × Nat} (hx : t.index.floor k = some x) :
    x.2 ∈ as := by
  rw [← h.payloads.mem_iff]
  exact List.mem_append_right _ (List.mem_map_of_mem (Multimap.floor_mem hx))

/-- Every lookup ends in an entry of the list. -/
theorem exists_lookup (h : Shape t as) (k : Nat) : ∃ p, t.lookup k = some p ∧ p ∈ as := by
  cases hx : t.index.floor k with
  | some x => exact ⟨x.2, lookup_of_floor hx, h.mem_of_floor hx⟩
  | none =>
    -- the index is empty, so its slot 0 still has the only entry
    have hpay := h.payloads
    rw [Multimap.floor_eq_none hx, List.map_nil, List.append_nil] at hpay
    cases hv : t.vacated with
    | none =>
      rw [hv] at hpay
      exact absurd (hpay.mem_iff.mpr h.head_mem) (by simp)
    | some p =>
      rw [hv] at hpay
      refine ⟨p, by rw [lookup, hx, hv]; rfl, hpay.mem_iff.mp (by simp)⟩

/-- An index with a separator for every entry has lost nothing. -/
theorem vacated_none (h : Shape t as) (hlen : t.index.kvs.length = as.length) :
    t.vacated = none := by
  have hpay := h.payloads.length_eq
  rw [List.length_append, List.length_map, hlen] at hpay
  cases hv : t.vacated with
  | none => rfl
  | some p =>
    rw [hv, Option.toList_some, List.length_singleton] at hpay
    omega

/-- An index that has lost nothing has the head. -/
theorem index_ne (h : Shape t as) (hv : t.vacated = none) : t.index.kvs ≠ [] := by
  intro hnil
  have hpay := h.payloads.mem_iff.mpr h.head_mem
  rw [hv, hnil] at hpay
  simp at hpay

/-- Every lookup ends in the index, if there is a separator. -/
theorem exists_floor (h : Shape t as) (hne : t.index.kvs ≠ []) (k : Nat) :
    ∃ s p, t.index.floor k = some (s, p) ∧ p ∈ as := by
  rcases Multimap.exists_floor hne k with ⟨⟨s, p⟩, hx⟩
  exact ⟨s, p, hx, h.mem_of_floor hx⟩

/-- Different bindings of the index lead to different entries. -/
theorem payload_inj (h : Shape t as) {x y : Nat × Nat} (hx : x ∈ t.index.kvs)
    (hy : y ∈ t.index.kvs) (heq : x.2 = y.2) : x = y := by
  have hnodup := h.payloads.nodup_iff.mpr h.nodup
  exact List.inj_on_of_nodup_map (List.nodup_append.mp hnodup).2.1 hx hy heq

/-- The index names blocks of the list only. -/
theorem lookup_mem (h : Shape t as) {p : Nat} (hp : t.lookup k = some p) : p ∈ as := by
  rcases h.exists_lookup k with ⟨p', hp', hmem⟩
  cases hp.symm.trans hp'
  exact hmem

/-- Stores that leave the links alone keep the shape. -/
theorem run (h : Shape t as) (evs : Trace)
    (hnext : ∀ a ∈ as, exec t.mem evs (a, .next) = t.mem (a, .next)) :
    Shape (t.run evs) as where
  base_pos := h.base_pos
  base_aligned := h.base_aligned
  head_eq := h.head_eq
  walk := by
    refine walk_congr (fun a ha => ?_) h.walk
    simpa [nextOf, Tree.run, Tree.mem] using hnext a ha
  blocks := h.blocks
  cursor := h.cursor
  used := h.used
  payloads := h.payloads

end Shape

/-! ## The effect of the operations -/

variable {t : Tree} {as : List Nat} {k v : Nat}

@[simp] theorem run_mem (t : Tree) (evs : Trace) : (t.run evs).mem = exec t.mem evs := by
  simp [run, mem]

@[simp] theorem run_alloc (t : Tree) (evs : Trace) : (t.run evs).alloc = t.alloc := rfl

@[simp] theorem run_head (t : Tree) (evs : Trace) : (t.run evs).head = t.head := rfl

@[simp] theorem run_index (t : Tree) (evs : Trace) : (t.run evs).index = t.index := rfl

@[simp] theorem run_vacated (t : Tree) (evs : Trace) : (t.run evs).vacated = t.vacated := rfl

/-- `SplitEntry` has the three stages' effect, with the block at the cursor as the new entry.
-/
theorem splitEntry_mem (h : Shape t as) (hp : p ∈ as) :
    SplitEffect t.mem (t.splitEntry p).2.mem p t.alloc.currentAddr := by
  have hqp : t.alloc.currentAddr ≠ p := by
    rintro rfl
    exact h.cursor_fresh hp
  have hs := splitEffect (m := t.mem) hqp
  simpa [splitEntry, h.alloc_eq] using hs

/-- The new entry is registered under the median. -/
theorem splitEntry_index (h : Shape t as) (p : Nat) :
    (t.splitEntry p).2.index = t.index.insert (medianKey t.mem p) t.alloc.currentAddr := by
  simp [splitEntry, h.alloc_eq]

/-- One block is taken. -/
theorem splitEntry_alloc (h : Shape t as) (p : Nat) :
    (t.splitEntry p).2.alloc = { t.alloc with
      used := t.alloc.used + entrySize, currentAddr := t.alloc.currentAddr + entrySize } := by
  simp [splitEntry, h.alloc_eq]

@[simp] theorem splitEntry_head (t : Tree) (p : Nat) : (t.splitEntry p).2.head = t.head := rfl

@[simp] theorem run_lookup (t : Tree) (evs : Trace) (k : Nat) :
    (t.run evs).lookup k = t.lookup k := rfl

@[simp] theorem splitEntry_vacated (t : Tree) (p : Nat) :
    (t.splitEntry p).2.vacated = t.vacated := rfl

/-- A split links the next block behind the entry it splits. -/
theorem shape_splitEntry {pre post : List Nat} (h : Shape t (pre ++ p :: post)) :
    Shape (t.splitEntry p).2 (pre ++ p :: t.alloc.currentAddr :: post) := by
  have hp : p ∈ pre ++ p :: post := by simp
  have heff := splitEntry_mem h hp
  have hfresh := h.cursor_fresh
  have hlen : (pre ++ p :: t.alloc.currentAddr :: post).length
      = (pre ++ p :: post).length + 1 := by
    simp
    omega
  have hperm : (pre ++ p :: t.alloc.currentAddr :: post).Perm
      (pre ++ p :: post ++ [t.alloc.currentAddr]) := by
    have hswap : (p :: t.alloc.currentAddr :: post).Perm
        (p :: (post ++ [t.alloc.currentAddr])) :=
      (List.perm_append_singleton t.alloc.currentAddr post).symm.cons p
    simpa using hswap.append_left pre
  constructor
  · rw [splitEntry_alloc h]
    exact h.base_pos
  · rw [splitEntry_alloc h]
    exact h.base_aligned
  · rw [splitEntry_alloc h]
    exact h.head_eq
  -- the list: the new entry is linked in right behind the old
  · refine walk_link h.cursor_pos heff.old_next heff.new_next h.nodup hfresh ?_ h.walk
    intro c hc hcp
    refine heff.other c .next hcp ?_
    rintro rfl
    exact hfresh hc
  · rw [splitEntry_alloc h, hlen, List.range_succ, List.map_append]
    refine hperm.trans ?_
    refine h.blocks.append ?_
    rw [h.cursor]
    simp
  · rw [splitEntry_alloc h, hlen]
    show t.alloc.currentAddr + entrySize = _
    rw [h.cursor]
    simp only [entrySize]
    omega
  · rw [splitEntry_alloc h, hlen]
    show t.alloc.used + entrySize = _
    rw [h.used]
    simp only [entrySize]
    omega
  -- the index: one pair more, for the new entry
  · rw [splitEntry_index h, splitEntry_vacated]
    have hins := (Multimap.insertList_perm (medianKey t.mem p) t.alloc.currentAddr
      t.index.kvs).map Prod.snd
    refine (hins.append_left _).trans ?_
    refine List.perm_middle.trans ?_
    refine (h.payloads.cons t.alloc.currentAddr).trans ?_
    refine List.Perm.trans ?_ hperm.symm
    exact (List.perm_append_singleton _ _).symm

/-- After a split the key is routed to one of the two halves. -/
theorem lookup_splitEntry (h : Shape t as) (hp : t.lookup k = some p) :
    (t.splitEntry p).2.lookup k = some p ∨
      (t.splitEntry p).2.lookup k = some t.alloc.currentAddr := by
  cases hx : t.index.floor k with
  | none =>
    -- the first separator of an index that had lost its only one
    have hnil := Multimap.floor_eq_none hx
    right
    refine lookup_of_floor (s := medianKey t.mem p) ?_
    rw [splitEntry_index h]
    have hone : (t.index.insert (medianKey t.mem p) t.alloc.currentAddr).kvs =
        [] ++ (medianKey t.mem p, t.alloc.currentAddr) :: [] := by
      rw [Multimap.kvs_insert, hnil]
      rfl
    exact Multimap.floor_of_split hone (by simp) (Or.inr rfl)
  | some x =>
    have hsnd := lookup_of_floor hx
    cases hp.symm.trans hsnd
    have hins := Multimap.floor_insert hx (medianKey t.mem x.2) t.alloc.currentAddr
    rw [← splitEntry_index h x.2] at hins
    split at hins
    · right
      exact lookup_of_floor hins
    · left
      exact lookup_of_floor hins

/-- The half that a key is routed to after a split has room. -/
theorem splitEntry_room (h : Shape t as) (hp : t.lookup k = some p) {p' : Nat}
    (hp' : (t.splitEntry p).2.lookup k = some p') : ¬ Full (t.splitEntry p).2.mem p' := by
  have heff := splitEntry_mem h (h.lookup_mem hp)
  rcases lookup_splitEntry h hp with hold | hnew
  · cases hold.symm.trans hp'
    exact not_full_of_filled heff.old_filled (by decide)
  · cases hnew.symm.trans hp'
    exact not_full_of_filled heff.new_filled (by decide)

/-- The first half of `Insert`: split the entry if it is full. -/
def makeRoom (t : Tree) (p : Nat) : Trace × Tree :=
  if Full t.mem p then t.splitEntry p else ([], t)

theorem makeRoom_full (h : Full t.mem p) : t.makeRoom p = t.splitEntry p := if_pos h

theorem makeRoom_room (h : ¬ Full t.mem p) : t.makeRoom p = ([], t) := if_neg h

/-- `Insert` is: make room, look the key up again, and put it at the first empty
slot of the entry found. The second call never splits. -/
theorem insert_eq (h : Shape t as) (hp : t.lookup k = some p) (calls v : Nat) :
    ∃ p' i, (t.makeRoom p).2.lookup k = some p' ∧
      findSlot (t.makeRoom p).2.mem p' invalidKey = some i ∧
      t.insert (calls + 2) k v = some (.ok, (t.makeRoom p).1 ++ putAtPos p' i k v,
        (t.makeRoom p).2.run (putAtPos p' i k v)) := by
  have hmem := h.lookup_mem hp
  have hne : p ≠ null := h.pos hmem
  by_cases hfull : Full t.mem p
  · rw [makeRoom_full hfull]
    rcases List.append_of_mem hmem with ⟨pre, post, rfl⟩
    have h' := shape_splitEntry h
    -- either half has room, so the second call of `Insert` does not split again
    obtain ⟨p', hp'⟩ : ∃ p', (t.splitEntry p).2.lookup k = some p' :=
      (lookup_splitEntry h hp).elim (⟨_, ·⟩) (⟨_, ·⟩)
    have hroom := splitEntry_room h hp hp'
    have hne' : p' ≠ null := h'.pos (h'.lookup_mem hp')
    rcases maybePut_room k v hroom with ⟨i, hf, hput'⟩
    have hput := maybePut_full k v hfull
    exact ⟨p', i, hp', hf, by simp [insert, hp, hput, hne, hp', hne', hput']⟩
  · rw [makeRoom_room hfull]
    rcases maybePut_room k v hfull with ⟨i, hf, hput⟩
    exact ⟨p, i, hp, hf, by simp [insert, hp, hne, hput]⟩

/-- `Update` writes the value of the slot the key is found in, if any. -/
theorem update_eq (hp : t.lookup k = some p) (v : Nat) :
    (¬ HasKey t.mem p k ∧ t.update k v = some (.fail, [], t)) ∨
    ∃ i < kvsPerEntry, t.mem (p, .key i) = k ∧ findSlot t.mem p k = some i ∧
      t.update k v = some (.ok, [.store (p, .val i) v] ++ clflush (p + Field.offset (.key i)),
        t.run ([.store (p, .val i) v] ++ clflush (p + Field.offset (.key i)))) := by
  by_cases hk : HasKey t.mem p k
  · rcases findSlot_isSome hk with ⟨i, hf⟩
    rcases findSlot_some hf with ⟨hi, hki, _⟩
    exact Or.inr ⟨i, hi, hki, hf, by simp [Tree.update, Entry.update, hp, hf]⟩
  · have hf := findSlot_eq_none.mpr hk
    exact Or.inl ⟨hk, by simp [Tree.update, Entry.update, hp, hf, Tree.run]⟩

/-- `Remove` clears the key of the slot the key is found in, if any. -/
theorem remove_eq (hp : t.lookup k = some p) :
    (¬ HasKey t.mem p k ∧ t.remove k = some (.fail, [], t)) ∨
    ∃ i < kvsPerEntry, t.mem (p, .key i) = k ∧ findSlot t.mem p k = some i ∧
      t.remove k = some (.ok,
        [.store (p, .key i) invalidKey] ++ clflush (p + Field.offset (.key i)),
        t.run ([.store (p, .key i) invalidKey] ++ clflush (p + Field.offset (.key i)))) := by
  by_cases hk : HasKey t.mem p k
  · rcases findSlot_isSome hk with ⟨i, hf⟩
    rcases findSlot_some hf with ⟨hi, hki, _⟩
    exact Or.inr ⟨i, hi, hki, hf, by simp [Tree.remove, Entry.remove, hp, hf]⟩
  · have hf := findSlot_eq_none.mpr hk
    exact Or.inl ⟨hk, by simp [Tree.remove, Entry.remove, hp, hf, Tree.run]⟩

end Tree

end Epli
