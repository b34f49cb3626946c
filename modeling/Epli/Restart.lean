import Epli.Crash
import Epli.Recover

/-!
# Inserting after a restart

The allocator of a new process hands out blocks from the start of the mapping
again, whatever the file holds. The head takes the first block, so the first
split after a restart takes the second one, and any list with more than one
entry already uses it.

Nothing is assumed of the runs before the restart: the image may come from a
fresh tree, from a `BulkLoad` of any size or from a process that was itself
restarted, as long as `Recover` comes back over it.
-/

namespace Epli

open Lib Entry

namespace Tree

variable {f : Mapping} {img : Mem} {calls loadSize : Nat} {t t₁ s : Tree} {op : Op}
  {ops : List Op} {as : List Nat} {k v p i s₀ : Nat} {rest : List (Nat × Nat)}

/-! ## Blocks handed out by a split -/

/-- The two blocks do not overlap. -/
def BlocksDisjoint (a b : Nat) : Prop := a + entrySize ≤ b ∨ b + entrySize ≤ a

/-- If the `Insert` splits, the block it gets overlaps no entry of the list. -/
def BlockFresh (t : Tree) : Op → Prop
  | .insert k _ => ∀ p, t.lookup k = some p → Full t.mem p →
      ∀ a, Reaches (nextOf t.mem) null t.head a →
        BlocksDisjoint (t.alloc.allocAligned entrySize 256).1 a
  | _ => True

/-- The `Insert` finds an empty slot. -/
def NoSplit (t : Tree) : Op → Prop
  | .insert k _ => ∀ p, t.lookup k = some p → ¬ Full t.mem p
  | _ => True

instance (t : Tree) : ∀ op, Decidable (NoSplit t op)
  | .insert k _ => decidable_of_iff (∀ p ∈ t.lookup k, ¬ Full t.mem p) (by simp [NoSplit])
  | .update _ _ => .isTrue trivial
  | .remove _ => .isTrue trivial
  | .get _ => .isTrue trivial

/-- An `Insert` of a valid key that is not stored. -/
def InsertNew (t : Tree) : Op → Prop
  | .insert k _ => ValidKey k ∧ Fresh t k
  | _ => False

theorem InsertNew.cases (h : InsertNew t op) :
    ∃ k v, op = .insert k v ∧ ValidKey k ∧ Fresh t k := by
  cases op with
  | insert k v => exact ⟨k, v, rfl, h⟩
  | update k v => exact absurd h id
  | remove k => exact absurd h id
  | get k => exact absurd h id

/-- A tree with its shape hands out fresh blocks. -/
theorem Shape.blockFresh (h : Shape t as) (op : Op) : BlockFresh t op := by
  cases op with
  | insert k v =>
    intro p _ _ a ha
    rcases h.mem_iff.mp ((reaches_iff_mem h.walk).mp ha) with ⟨j, hj, rfl⟩
    right
    rw [h.alloc_eq]
    show _ ≤ t.alloc.currentAddr
    rw [h.cursor]
    simp only [entrySize]
    omega
  | update k v => trivial
  | remove k => trivial
  | get k => trivial

/-! ## A list of one entry -/

/-- Every pair `Get` found at the start of a run it still finds at its end. -/
def KeysKept (calls : Nat) (t : Tree) (ops : List Op) : Prop :=
  ∃ answers t', runOps (step (calls + 2)) t ops = some (answers, t') ∧
    ∀ k v, ValidKey k → t.get k = some (.ok, v) → t'.get k = some (.ok, v)

/-- Inserting new keys into a sound tree destroys nothing as long as every split keeps to
the separator its entry was found under. -/
theorem inserts_sound : ∀ {ops : List Op} {t : Tree} {rest : List (Nat × Nat)},
    Sound t s₀ rest → Along (step (calls + 2)) InsertNew t ops →
    Along (step (calls + 2)) SplitGuard t ops →
    Along (step (calls + 2)) BlockFresh t ops ∧ KeysKept calls t ops := by
  intro ops
  induction ops with
  | nil =>
    intro t rest _ _ _
    exact ⟨trivial, [], t, rfl, fun _ _ _ hget => hget⟩
  | cons op ops ih =>
    intro t rest hs hnew hguard
    rcases hnew with ⟨hop, hnew⟩
    rcases hop.cases with ⟨k, v, rfl, hv, hmiss⟩
    have hk : k ≠ invalidKey := Nat.pos_iff_ne_zero.mp hv.1
    rcases insert_sound hs hk hmiss hguard.1 calls v with ⟨evs, t', rest', hins, hs', _, hst⟩
    have hstep : t.step (calls + 2) (.insert k v) = some (⟨.ok, none⟩, t') := by
      simp [step, hins]
    rcases ih hs' (hnew _ _ hstep) (hguard.2 _ _ hstep) with
      ⟨hfresh, answers, t'', hrun, hkept⟩
    refine ⟨⟨hs.shape.blockFresh _, ?_⟩, ⟨.ok, none⟩ :: answers, t'', ?_, ?_⟩
    · intro ans t₂ hstep₂
      cases hstep.symm.trans hstep₂
      exact hfresh
    · simp [runOps, hstep, hrun]
    · intro k' v' hk' hget
      refine hkept k' v' hk' ?_
      have hk0 : k' ≠ invalidKey := Nat.pos_iff_ne_zero.mp hk'.1
      -- `Get` finds exactly what is stored, and the pair is still stored
      by_cases hex : ∃ w, Stored t.mem t.head k' w
      · rcases hex with ⟨w, hw⟩
        have hw' := hs.routed.get_of_stored hk0 hw
        rw [hget] at hw'
        cases hw'
        exact hs'.routed.get_of_stored hk0 ((hst k' _ hk0).mpr (Or.inl hw))
      · have hfail := hs.routed.get_of_not_stored fun w hw => hex ⟨w, hw⟩
        rw [hget] at hfail
        cases hfail

/-- A restart over a list of one entry: only the head was handed out, so the new
allocator is right, and the only separator is the `min_key` of the head. -/
theorem reopen_single (hopen : reopen f img loadSize = some t₁)
    (hone : t₁.index.kvs.length = 1) (hd : Distinct img f.addr) :
    Sound t₁ (img (f.addr, .minKey)) [] := by
  rcases reopen_walk hopen with ⟨as, hwalk⟩
  rcases reopen_spec hwalk hopen with ⟨hmem, hhead, hindex, halloc⟩
  have hlen : as.length = 1 := by
    rw [hindex, List.length_map] at hone
    exact hone
  rcases List.length_eq_one_iff.mp hlen with ⟨a, rfl⟩
  -- the list is the head alone, and the next block is the second one: free
  have ha : f.addr = a := hwalk.1
  subst ha
  rw [create_recover_eq] at halloc
  refine ⟨⟨?_, ?_, ?_, ?_, ?_, ?_, ?_, ?_⟩, ⟨?_, ?_⟩, ?_, ?_⟩
  · rw [halloc]
    exact f.addr_pos
  · rw [halloc]
    exact mapping_aligned f
  · rw [halloc, hhead]
  · rw [hmem, hhead]
    exact hwalk
  · rw [halloc, hhead]
    simp
  · rw [halloc]
    simp
  · rw [halloc]
    simp
  · rw [hindex, hhead, reopen_vacated hopen]
    exact List.Perm.refl _
  · intro a ha
    rw [List.map_nil, List.mem_singleton] at ha
    rw [ha, hmem, hhead]
    exact hd
  · intro a ha b hb hab
    rw [List.map_nil, List.mem_singleton] at ha hb
    exact absurd (ha.trans hb.symm) hab
  · rw [hindex, hhead]
    rfl
  · refine ⟨by simp, by simp, ?_, by simp⟩
    intro x hx k _
    rw [List.mem_singleton] at hx
    rw [hx]
    exact Nat.zero_le k

/-! ## Inserts that do not split -/

/-- `s` differs from the restarted tree `t₁` at most in its slots. -/
structure Frozen (t₁ : Tree) (as : List Nat) (s : Tree) : Prop where
  index : s.index = t₁.index
  alloc : s.alloc = t₁.alloc
  walk : Walk (nextOf s.mem) null s.head as
  payloads : t₁.index.kvs.map Prod.snd = as

theorem Frozen.exists_lookup (h : Frozen t₁ as s) (hne : as ≠ []) (k : Nat) :
    ∃ p, s.lookup k = some p ∧ p ∈ as ∧ p ≠ null := by
  have hkvs : s.index.kvs ≠ [] := by
    intro hnil
    rw [h.index] at hnil
    have := h.payloads
    rw [hnil] at this
    exact hne this.symm
  rcases Multimap.exists_floor hkvs k with ⟨x, hx⟩
  have hmem : x.2 ∈ as := by
    rw [← h.payloads, ← h.index]
    exact List.mem_map_of_mem (Multimap.floor_mem hx)
  refine ⟨x.2, ?_, hmem, walk_ne_null h.walk _ hmem⟩
  exact lookup_of_floor hx

theorem insert_room (hp : s.lookup k = some p) (hne : p ≠ null) (hroom : ¬ Full s.mem p)
    (calls v : Nat) : ∃ i, findSlot s.mem p invalidKey = some i ∧
      s.step (calls + 2) (.insert k v) = some (⟨.ok, none⟩, s.run (putAtPos p i k v)) := by
  rcases maybePut_room k v hroom with ⟨i, hf, hput⟩
  exact ⟨i, hf, by simp [step, insert, hp, hne, hput]⟩

theorem Frozen.put (h : Frozen t₁ as s) : Frozen t₁ as (s.run (putAtPos p i k v)) where
  index := h.index
  alloc := h.alloc
  walk := by
    rw [run_mem, exec_putAtPos]
    exact slotsOnly_putSlot.walk h.walk
  payloads := h.payloads

/-- What a successful `Get` says about the entry it looked in. -/
theorem Frozen.get_put (h : Frozen t₁ as s) (hne : as ≠ []) (he : s.mem (p, .key i) = invalidKey)
    (hnew : Fresh s k) {k' v' : Nat} (hk' : ValidKey k') (hget : s.get k' = some (.ok, v')) :
    (s.run (putAtPos p i k v)).get k' = some (.ok, v') := by
  have hk0 : k' ≠ invalidKey := Nat.pos_iff_ne_zero.mp hk'.1
  rcases h.exists_lookup hne k' with ⟨q, hq, hqmem, _⟩
  have hg := (get_eq_ok_iff hq).mp hget
  -- the key found is stored, so it is not the new one
  have hkk : k' ≠ k := by
    rintro rfl
    have hhas : HasKey s.mem q k' := by
      by_contra hno
      rw [get_eq_none.mpr hno] at hg
      cases hg
    rcases hhas.exists_holds with ⟨w, hw⟩
    exact hnew w ((stored_iff h.walk).mpr ⟨q, hqmem, hw⟩)
  have hlookup : (s.run (putAtPos p i k v)).lookup k' = some q := hq
  rw [get_eq_ok_iff hlookup, run_mem, exec_putAtPos, get_putSlot he hkk hk0]
  exact hg

/-- Inserts that find empty slots destroy nothing. -/
theorem inserts_frozen (hne : as ≠ []) : ∀ {ops : List Op} {s : Tree}, Frozen t₁ as s →
    Along (step (calls + 2)) InsertNew s ops → Along (step (calls + 2)) NoSplit s ops →
    Along (step (calls + 2)) BlockFresh s ops ∧ KeysKept calls s ops := by
  intro ops
  induction ops with
  | nil =>
    intro s _ _ _
    exact ⟨trivial, [], s, rfl, fun _ _ _ hget => hget⟩
  | cons op ops ih =>
    intro s h hnew hroom
    rcases hnew with ⟨hop, hnew⟩
    rcases hop.cases with ⟨k, v, rfl, hv, hmiss⟩
    -- with no split the put lands in an empty slot and nothing else moves
    rcases h.exists_lookup hne k with ⟨p, hp, _, hnull⟩
    rcases insert_room hp hnull (hroom.1 p hp) calls v with ⟨i, hf, hstep⟩
    rcases findSlot_some hf with ⟨_, he, _⟩
    rcases ih h.put (hnew _ _ hstep) (hroom.2 _ _ hstep) with ⟨hfresh, answers, t', hrun, hkept⟩
    refine ⟨⟨?_, ?_⟩, ⟨.ok, none⟩ :: answers, t', ?_, ?_⟩
    · intro q hq hfull
      exact absurd hfull (hroom.1 q hq)
    · intro ans t₂ hstep₂
      cases hstep.symm.trans hstep₂
      exact hfresh
    · simp [runOps, hstep, hrun]
    · intro k' v' hk' hget
      exact hkept k' v' hk' (h.get_put hne he hmiss hk' hget)

/-- When the next block handed out is an entry of the list, only inserts that find
empty slots get fresh blocks. -/
theorem noSplit_of_blockFresh {b : Nat} (hb : b ∈ as)
    (hblock : (t₁.alloc.allocAligned entrySize 256).1 = b) : ∀ {ops : List Op} {s : Tree},
    Frozen t₁ as s → Along (step (calls + 2)) InsertNew s ops →
    Along (step (calls + 2)) BlockFresh s ops → Along (step (calls + 2)) NoSplit s ops := by
  have hne : as ≠ [] := List.ne_nil_of_mem hb
  intro ops
  induction ops with
  | nil =>
    intro s _ _ _
    trivial
  | cons op ops ih =>
    intro s h hnew hfresh
    rcases hnew with ⟨hop, hnew⟩
    rcases hop.cases with ⟨k, v, rfl, hv, hmiss⟩
    -- a split would allocate the block `b` of the list itself
    have hroom : ∀ q, s.lookup k = some q → ¬ Full s.mem q := by
      intro q hq hfull
      have hdisj := hfresh.1 q hq hfull b ((reaches_iff_mem h.walk).mpr hb)
      rw [h.alloc, hblock] at hdisj
      rcases hdisj with hdisj | hdisj
      · simp only [entrySize] at hdisj
        omega
      · simp only [entrySize] at hdisj
        omega
    refine ⟨hroom, ?_⟩
    intro ans s' hstep'
    rcases h.exists_lookup hne k with ⟨p, hp, _, hnull⟩
    rcases insert_room hp hnull (hroom p hp) calls v with ⟨i, _, hstep⟩
    cases hstep.symm.trans hstep'
    exact ih h.put (hnew _ _ hstep) (hfresh.2 _ _ hstep)

/-! ## After a restart -/

/-- A restarted tree, of whatever image it was made. -/
theorem frozen_reopen (hopen : reopen f img loadSize = some t₁) : ∃ as, as ≠ [] ∧
    Walk (nextOf img) null f.addr as ∧ Frozen t₁ as t₁ := by
  rcases reopen_walk hopen with ⟨as, hwalk⟩
  rcases reopen_spec hwalk hopen with ⟨hmem, hhead, hindex, _⟩
  refine ⟨as, ?_, hwalk, rfl, rfl, ?_, ?_⟩
  · rintro rfl
    exact Nat.pos_iff_ne_zero.mp f.addr_pos hwalk
  · rw [hmem, hhead]
    exact hwalk
  · rw [hindex, List.map_map]
    exact List.map_id as

/-- The block that the first split after a restart gets. -/
theorem reopen_block (hopen : reopen f img loadSize = some t₁) :
    (t₁.alloc.allocAligned entrySize 256).1 = f.addr + entrySize := by
  rcases reopen_walk hopen with ⟨as, hwalk⟩
  rcases reopen_spec hwalk hopen with ⟨_, _, _, halloc⟩
  rw [halloc, create_recover_eq, Alloc.allocAligned_of_aligned]
  have hpage := mapping_aligned f
  simp only [entrySize]
  omega

/-- The lists of clients of one process use the second block of the file as soon as they
have two entries. -/
theorem ReachableIf.second_block {ok : Tree → Op → Prop} {pm : Pmem Loc Nat}
    (h : ReachableIf ok f pm calls t) (hopen : reopen f t.mem loadSize = some t₁)
    (hlen : 1 < t₁.index.kvs.length) :
    Reaches (nextOf t.mem) null f.addr (f.addr + entrySize) := by
  have hhead := h.head_eq
  rcases h.base with ⟨as, hsh, _⟩
  have hwalk := hsh.walk
  rw [hhead] at hwalk
  rcases reopen_spec hwalk hopen with ⟨_, _, hindex, _⟩
  rw [hindex, List.length_map] at hlen
  rw [reaches_iff_mem hwalk, hsh.mem_iff, ← hsh.head_eq, hhead]
  exact ⟨1, hlen, by simp⟩

/-- After a restart over any image, inserting new keys takes only fresh blocks and keeps
every key if no `Insert` splits, or if the list is one entry that stores no key twice and
no split falls below the separator its entry was found under. Where the second block of
the file is an entry, only the first of these will do. -/
theorem restart_safe_iff (hopen : reopen f img loadSize = some t₁)
    (hops : Along (step (calls + 2)) InsertNew t₁ ops) :
    ((Along (step (calls + 2)) NoSplit t₁ ops ∨ t₁.index.kvs.length = 1 ∧
        Distinct img f.addr ∧ Along (step (calls + 2)) SplitGuard t₁ ops) →
      Along (step (calls + 2)) BlockFresh t₁ ops ∧ KeysKept calls t₁ ops) ∧
    (Reaches (nextOf img) null f.addr (f.addr + entrySize) →
      (Along (step (calls + 2)) BlockFresh t₁ ops ∧ KeysKept calls t₁ ops ↔
        Along (step (calls + 2)) NoSplit t₁ ops)) := by
  rcases frozen_reopen hopen with ⟨as, hne, hwalk, hfrozen⟩
  constructor
  · rintro (hroom | ⟨hone, hd, hguard⟩)
    · exact inserts_frozen hne hfrozen hops hroom
    · exact inserts_sound (reopen_single hopen hone hd) hops hguard
  · intro hsecond
    have hmem : f.addr + entrySize ∈ as := (reaches_iff_mem hwalk).mp hsecond
    constructor
    · rintro ⟨hfresh, _⟩
      exact noSplit_of_blockFresh hmem (reopen_block hopen) hfrozen hops hfresh
    · intro hroom
      exact inserts_frozen hne hfrozen hops hroom

/-- The operation is an `Insert`. -/
def IsInsert : Op → Bool
  | .insert _ _ => true
  | _ => false

/-- On a sound tree whose splits keep to the guard, the slots tell which keys are new. -/
theorem along_insertNew (h : Sound t s₀ rest)
    (hok : Along (step (calls + 2))
      (fun t op => (SplitGuard t op ∧ SlotContract t op) ∧ IsInsert op = true) t ops) :
    Along (step (calls + 2)) InsertNew t ops := by
  have hnew : ∀ t op, (∃ rest, Sound t s₀ rest) →
      (SplitGuard t op ∧ SlotContract t op) ∧ IsInsert op = true → InsertNew t op := by
    rintro t op ⟨rest, hs⟩ ⟨⟨_, hc⟩, hins⟩
    cases op with
    | insert k v => exact contract_of_slots ⟨_, hs.shape, hs.unique⟩ hs.routed.vacated hc
    | update k v => cases hins
    | remove k => cases hins
    | get k => cases hins
  refine Along.invariant (fun t => ∃ rest, Sound t s₀ rest) ?_ hnew ⟨rest, h⟩ hok
  rintro t op ans t' ⟨rest, hs⟩ hok hstep
  rcases (hnew t op ⟨rest, hs⟩ hok).cases with ⟨k, v, rfl, hv, hmiss⟩
  have hk : k ≠ invalidKey := Nat.pos_iff_ne_zero.mp hv.1
  rcases insert_sound hs hk hmiss hok.1.1 calls v with ⟨evs, t₂, rest', hins, hs', _⟩
  rw [step, hins] at hstep
  cases hstep
  exact ⟨rest', hs'⟩

/-- Fourteen inserts above the key `50`. -/
def fillAbove : List Op := (List.range 14).map fun i => .insert (51 + i) i

set_option maxRecDepth 100000 in
/-- A load of one pair, a restart, and inserts that split the head. -/
theorem restart_above_safe : ∃ t t₁, (create false sampleFile blank).bulkLoad [(50, 7)] =
      some t ∧ reopen sampleFile t.mem 1 = some t₁ ∧ ¬ Along (step 2) NoSplit t₁ fillAbove ∧
    Along (step 2) BlockFresh t₁ fillAbove ∧ KeysKept 0 t₁ fillAbove := by
  have hopens : ∀ t ∈ (create false sampleFile blank).bulkLoad [(50, 7)],
      (reopen sampleFile t.mem 1).isSome ∧ ∀ i < kvsPerEntry, ∀ j < kvsPerEntry,
        t.mem (4096, .key i) = t.mem (4096, .key j) → t.mem (4096, .key i) ≠ 0 → i = j := by
    decide +kernel
  have hone : ∀ t ∈ (create false sampleFile blank).bulkLoad [(50, 7)],
      ∀ t₁ ∈ reopen sampleFile t.mem 1, t₁.index.kvs.length = 1 ∧
        ¬ Along (step 2) NoSplit t₁ fillAbove ∧
        Along (step 2) (fun t op => (SplitGuard t op ∧ SlotContract t op) ∧ IsInsert op = true)
          t₁ fillAbove := by
    decide +kernel
  have hload : ((create false sampleFile blank).bulkLoad [(50, 7)]).isSome := by
    decide +kernel
  rcases Option.isSome_iff_exists.mp hload with ⟨t, ht⟩
  rcases hopens t ht with ⟨hopen, hd⟩
  rcases Option.isSome_iff_exists.mp hopen with ⟨t₁, hopen⟩
  rcases hone t ht t₁ hopen with ⟨hlen, hsplits, hok⟩
  have hd' : Distinct t.mem sampleFile.addr := hd
  have hnew := along_insertNew (reopen_single hopen hlen hd') hok
  have hguard := hok.mono fun _ _ h => h.1.1
  refine ⟨t, t₁, ht, hopen, hsplits, ?_⟩
  exact (restart_safe_iff hopen hnew).1 (Or.inr ⟨hlen, hd', hguard⟩)

set_option maxRecDepth 100000 in
/-- The list of `tens` has two entries, so the first split after a restart builds
its new entry over the second one, and the key `150` stored there is gone. -/
theorem restart_overwrites_entry : ∃ t t₁ t', Reachable sampleFile blank 0 t ∧
    reopen sampleFile t.mem 100 = some t₁ ∧ InsertNew t₁ (.insert 15 1) ∧
    ¬ BlockFresh t₁ (.insert 15 1) ∧ t₁.step 2 (.insert 15 1) = some (⟨.ok, none⟩, t') ∧
    t₁.get 150 = some (.ok, 14) ∧ t'.get 150 = some (.fail, 0) := by
  rcases tens.sound sampleFile blank with ⟨t, _, _, htree, _⟩
  have hopens : ∀ t ∈ tens.tree sampleFile blank, (reopen sampleFile t.mem 100).isSome := by
    decide +kernel
  -- key 15 goes to the head, which is full, and the list has a second entry
  have hblock : ∀ t ∈ tens.tree sampleFile blank, ∀ t₁ ∈ reopen sampleFile t.mem 100,
      t₁.lookup 15 = some 4096 ∧ Full t₁.mem 4096 ∧ 1 < t₁.index.kvs.length := by
    decide +kernel
  have hlost : ∀ t ∈ tens.tree sampleFile blank, ∀ t₁ ∈ reopen sampleFile t.mem 100,
      t₁.get 150 = some (.ok, 14) ∧ (t₁.step 2 (.insert 15 1)).map
        (fun x => (x.1, x.2.get 150)) = some (⟨.ok, none⟩, some (.fail, 0)) := by
    decide +kernel
  rcases Option.isSome_iff_exists.mp (hopens t htree) with ⟨t₁, hopen⟩
  rcases hblock t htree t₁ hopen with ⟨hp, hf, htwo⟩
  rcases hlost t htree t₁ hopen with ⟨hget, hafter⟩
  rcases Option.map_eq_some_iff.mp hafter with ⟨⟨ans, t'⟩, hstep, heq⟩
  rcases Prod.mk.inj heq with ⟨hans, hget'⟩
  have hans' : ans = ⟨.ok, none⟩ := hans
  subst hans'
  have hreach : Reachable sampleFile blank 0 t := reachable_start htree
  rcases reopen_walk hopen with ⟨as, hwalk⟩
  rcases reopen_spec hwalk hopen with ⟨hmem, hhead₁, _, _⟩
  have hnew : Fresh t₁ 15 := by
    intro v hv
    rw [hmem, hhead₁, ← ReachableIf.head_eq hreach] at hv
    exact fresh_start htree (by decide) (by decide) v hv
  refine ⟨t, t₁, t', hreach, hopen, ⟨by decide, hnew⟩, ?_, hstep, hget, hget'⟩
  intro hfresh
  have hsecond : Reaches (nextOf t₁.mem) null t₁.head 4352 := by
    rw [hmem, hhead₁]
    exact hreach.second_block hopen htwo
  have hdisj := hfresh 4096 hp hf 4352 hsecond
  rw [reopen_block hopen] at hdisj
  exact absurd hdisj (by unfold BlocksDisjoint; decide)

end Tree

end Epli
