import Epli.BitmapRefine

/-!
# Splits after removals in the bitmap build

`Remove` clears a key and leaves its bit, so an entry whose bitmap is full may have any
number of empty slots. They sort to the front of `tmp_kvs`: with eight of them the new
separator is `INVALID_KEY`, and with seven it is the smallest key, which may be the
separator of the entry itself. In every other case the new separator lies strictly
between the one of the entry and the next, and all keys stay where they are looked up.
-/

namespace Epli

open Lib Entry

namespace Tree

variable {t : Tree} {k v p s i : Nat} {rest : List (Nat × Nat)}

/-! ## Trees whose cells bound the keys alone -/

/-- Stores to the slots of one entry that add at most the key `k`. -/
theorem Routed.run_keys (h : Routed ProperKey t s rest) (hp : t.lookup k = some p) {evs : Trace}
    (hslots : SlotsOnly t.mem (exec t.mem evs) p)
    (hunique : Unique (exec t.mem evs) (t.head :: rest.map Prod.snd))
    (hkeys : ∀ k', k' ≠ invalidKey → HasKey (exec t.mem evs) p k' → HasKey t.mem p k' ∨ k' = k) :
    Routed ProperKey (t.run evs) s rest := by
  refine h.run hp hslots hunique (fun _ _ hk => hk) ?_
  rintro a k' ⟨hk', hh⟩
  by_cases hap : a = p
  · subst hap
    rcases hkeys k' hk' hh with hold | rfl
    · exact Or.inl ⟨hk', hold⟩
    · exact Or.inr ⟨rfl, rfl⟩
  · exact Or.inl ⟨hk', (hslots.hasKey hap).mp hh⟩

/-- A put of a new key, at a slot that may be occupied. -/
theorem Routed.put (h : Routed ProperKey t s rest) (hp : t.lookup k = some p)
    (hnew : ∀ v, ¬ Stored t.mem t.head k v) (i v : Nat) :
    Routed ProperKey (t.run (putAtPos p i k v)) s rest := by
  refine h.run_keys hp ?_ ?_ ?_
  · rw [exec_putAtPos]
    exact slotsOnly_putSlot
  · rw [exec_putAtPos]
    exact unique_putSlot h.unique h.shape.walk (h.shape.lookup_mem hp) hnew
  · intro k' _ hh
    rw [exec_putAtPos] at hh
    exact hasKey_putSlot hh

theorem Routed.remove (h : Routed ProperKey t s rest) {ret : Status} {evs : Trace} {t' : Tree}
    (hrem : t.remove k = some (ret, evs, t')) : Routed ProperKey t' s rest := by
  rcases h.shape.exists_lookup k with ⟨p, hp, _⟩
  rcases remove_eq hp with ⟨_, hsame⟩ | ⟨i, _, _, _, hclear⟩
  · rw [hsame] at hrem
    cases hrem
    exact h
  · rw [hclear] at hrem
    cases hrem
    refine h.run_keys hp slotsOnly_clearKey (unique_clearKey h.unique) ?_
    exact fun k' hk' hh => Or.inl (hasKey_clearKey hk' hh)

/-- Under the first separator `INVALID_KEY` the separator a key is looked up under is
the bound of the cell. -/
theorem Routed.cell_of_floor (h : Routed ProperKey t 0 rest)
    (hx : t.index.floor k = some (s, p)) {pre post : List (Nat × Nat)} {s' : Nat}
    (hcells : (0, t.head) :: rest = pre ++ (s', p) :: post) : s' = s := by
  have hkvs := h.index
  rw [hcells] at hkvs
  have hmem : (s', p) ∈ t.index.kvs := by simp [hkvs]
  exact congrArg Prod.fst (h.shape.payload_inj hmem (Multimap.floor_mem hx) rfl)

/-- A key of the entry that a key is looked up in lies in its cell. -/
theorem Routed.key_in_cell (h : Routed ProperKey t 0 rest) (hx : t.index.floor k = some (s, p))
    {k' : Nat} (hk' : ProperKey t.mem p k') : s ≤ k' ∧ ∀ {pre s' post},
      (0, t.head) :: rest = pre ++ (s', p) :: post → ∀ y ∈ post, k' < y.1 := by
  obtain ⟨pre, s', post, hcells, _⟩ := h.floor_cell hx
  have hsame := h.cell_of_floor hx hcells
  constructor
  · rw [← hsame]
    exact h.cells.low (s', p) (by rw [hcells]; simp) k' hk'
  · intro pre s' post hcells y hy
    have hhigh := h.cells.high
    rw [hcells, List.pairwise_append, List.pairwise_cons] at hhigh
    exact hhigh.2.1.1 y hy k' hk'

/-- A split whose separator is above the one of the entry. -/
theorem Routed.split_keys (h : Routed ProperKey t 0 rest) (hx : t.index.floor k = some (s, p))
    (hlt : s < medianKey t.mem p) :
    (∀ x ∈ t.index.kvs, x.1 ≠ medianKey t.mem p) ∧
    ∃ rest', Routed ProperKey (t.splitEntry p).2 0 rest' ∧ ∀ k' v', k' ≠ invalidKey →
      (Stored (t.splitEntry p).2.mem t.head k' v' ↔ Stored t.mem t.head k' v') := by
  have hmed : ProperKey t.mem p (medianKey t.mem p) :=
    ⟨Nat.ne_of_gt (Nat.zero_lt_of_lt hlt), medianKey_hasKey t.mem p⟩
  have habove : ∀ {pre s' post}, (0, t.head) :: rest = pre ++ (s', p) :: post →
      ∀ y ∈ post, medianKey t.mem p < y.1 := (h.key_in_cell hx hmed).2
  constructor
  · -- the separators before the entry's own are below it, the later ones above the median
    obtain ⟨pre, s', post, hcells, _⟩ := h.floor_cell hx
    have hsame := h.cell_of_floor hx hcells
    have hbounds := h.cells.bounds
    rw [hcells, List.pairwise_append] at hbounds
    intro y hy
    rw [h.index, hcells, List.mem_append, List.mem_cons] at hy
    rcases hy with hy | rfl | hy
    · have := hbounds.2.2 y hy (s', p) (by simp)
      simp only at this
      omega
    · simp only
      omega
    · exact Nat.ne_of_gt (habove hcells y hy)
  · rcases h.split hx hlt.le (fun hc => ⟨by rw [h.cell_of_floor hx hc]; exact hlt, habove hc⟩)
      (fun m' heff hd => ⟨fun _ _ hk => hk, fun k' hk => ⟨⟨hk.1, heff.hasKey_old hk.1 hk.2⟩,
          heff.lt_median hd hk.1 hk.2⟩,
        fun k' hk => ⟨⟨hk.1, heff.hasKey_new hk.1 hk.2⟩, heff.median_le hk.1 hk.2⟩,
        fun a hap haq k' hk => ⟨hk.1, (heff.hasKey_other hap haq).mp hk.2⟩⟩) with
      ⟨l₁, l₂, _, hs, hst⟩
    exact ⟨_, hs, hst⟩

end Tree

namespace BitmapTree

variable {b : BitmapTree} {k v s data : Nat} {op : Op}

/-- `Get` finds the key. -/
def Live (b : BitmapTree) (k : Nat) : Prop := (b.get k).map Prod.fst = some .ok

/-- What the client keeps to: it inserts keys that are not live, and removes keys. -/
def RemovalContract (b : BitmapTree) : Op → Prop
  | .insert k _ => ValidKey k ∧ ¬ Live b k
  | .remove k => ValidKey k
  | .update _ _ => False
  | .get _ => True

/-- The separator of a split is a new index key, and the `Insert` that splits keeps
the live keys and adds its own. -/
def SplitKeeps (b : BitmapTree) : Op → Prop
  | .insert k v => ∀ s data, b.index.floor k = some (s, data) →
      kvsPerEntry ≤ (b.metas data).findFirstZero →
      medianKey b.mem (b.entryOf data) ≠ invalidKey ∧
      (∀ x ∈ b.index.kvs, x.1 ≠ medianKey b.mem (b.entryOf data)) ∧
      ∃ b', b.insert k v = some (.ok, b') ∧
        ∀ k', ValidKey k' → Live b k' ∨ k' = k → Live b' k'
  | _ => True

/-- Of an entry that is split, at most half of the slots are empty or hold the
separator of the entry itself. -/
def SplitAbove (b : BitmapTree) : Op → Prop
  | .insert k _ => ∀ s data, b.index.floor k = some (s, data) →
      kvsPerEntry ≤ (b.metas data).findFirstZero →
      countBelow b.mem (b.entryOf data) (s + 1) ≤ kvsPerEntry / 2
  | _ => True

instance (b : BitmapTree) (k : Nat) : Decidable (Live b k) :=
  inferInstanceAs (Decidable (_ = _))

instance (b : BitmapTree) : ∀ op, Decidable (RemovalContract b op)
  | .insert k _ => inferInstanceAs (Decidable (ValidKey k ∧ ¬ Live b k))
  | .remove k => inferInstanceAs (Decidable (ValidKey k))
  | .update _ _ => .isFalse id
  | .get _ => .isTrue trivial

instance (b : BitmapTree) : ∀ op, Decidable (SplitAbove b op)
  | .insert k _ => decidable_of_iff (∀ x ∈ b.index.floor k,
      kvsPerEntry ≤ (b.metas x.2).findFirstZero →
      countBelow b.mem (b.entryOf x.2) (x.1 + 1) ≤ kvsPerEntry / 2) (by simp [SplitAbove])
  | .update _ _ => .isTrue trivial
  | .remove _ => .isTrue trivial
  | .get _ => .isTrue trivial

/-! ## The keys stay routed -/

/-- The cells of the index bound the keys of the entries behind it, and no key is
stored twice. -/
structure Keyed (t : Tree) (b : BitmapTree) (rest : List (Nat × Nat)) : Prop where
  mirror : Mirror t b
  routed : Tree.Routed ProperKey t 0 rest

theorem keyed_create (f : Mapping) (pm : Pmem Loc Nat) :
    Keyed (Tree.create false f pm) (create false f pm) [] := by
  have h := Tree.sound_create f pm
  exact ⟨(sim_create f pm).mirror, h.shape, h.unique, h.index, h.cells.mono fun _ _ => Or.inl,
    fun _ _ => id⟩

namespace Keyed

variable {t : Tree} {rest : List (Nat × Nat)}

theorem live_iff (h : Keyed t b rest) (hk : k ≠ invalidKey) :
    Live b k ↔ ∃ v, Stored t.mem t.head k v := by
  rw [Live, h.mirror.get]
  constructor
  · intro hl
    by_contra hno
    rw [h.routed.get_of_not_stored (not_exists.mp hno)] at hl
    cases hl
  · rintro ⟨v, hst⟩
    rw [h.routed.get_of_stored hk hst]
    rfl

theorem not_stored (h : Keyed t b rest) (hk : ValidKey k) (hnew : ¬ Live b k) (v : Nat) :
    ¬ Stored t.mem t.head k v :=
  fun hst => hnew ((h.live_iff (Nat.pos_iff_ne_zero.mp hk.1)).mpr ⟨v, hst⟩)

/-- The separator of a split lies above the one of the entry in the states that meet
the condition. -/
theorem lt_median_iff (h : Keyed t b rest) : countBelow b.mem (b.entryOf data) (s + 1) ≤
    kvsPerEntry / 2 ↔ s < medianKey t.mem (b.entryOf data) := by
  rw [← le_medianKey_iff, h.mirror.mem]
  exact Nat.succ_le_iff

/-- An `Insert` that splits above the separator of its entry. -/
theorem insert_split (h : Keyed t b rest) (hk : ValidKey k) (hnew : ¬ Live b k)
    (hx : b.index.floor k = some (s, data)) (hfull : kvsPerEntry ≤ (b.metas data).findFirstZero)
    (hroom : b.alloc.used + entrySize ≤ b.alloc.mappedLen)
    (hlt : s < medianKey t.mem (b.entryOf data)) :
    (∀ x ∈ b.index.kvs, x.1 ≠ medianKey t.mem (b.entryOf data)) ∧
    ∃ t' b' rest', b.insert k v = some (.ok, b') ∧ Keyed t' b' rest' ∧
      ∀ k', ValidKey k' → Live b k' ∨ k' = k → Live b' k' := by
  obtain ⟨_, _, hfl, hmem, hft, _, _, _⟩ := h.mirror.exists_floor k
  cases hx.symm.trans hfl
  obtain ⟨hsep, rest', hsplit, hst⟩ := h.routed.split_keys hft hlt
  obtain ⟨p, i, hp, hslot, hins⟩ := h.mirror.insert_split hx hfull hroom v
  obtain ⟨hi, hempty, _⟩ := findSlot_some hslot
  -- both builds go on with the half that the index leads to
  have hlookup : (t.splitEntry (b.entryOf data)).2.lookup k = some p := by
    rw [hp]
    exact lookup_after_split h.routed.shape hft (Or.inl hlt.le)
  have hhead := Tree.splitEntry_head t (b.entryOf data)
  have hkey : ∀ {k'}, ValidKey k' → k' ≠ invalidKey := fun h => Nat.pos_iff_ne_zero.mp h.1
  have hnew' : ∀ w, ¬ Stored (t.splitEntry (b.entryOf data)).2.mem
      (t.splitEntry (b.entryOf data)).2.head k w := by
    intro w
    rw [hhead, hst k w (hkey hk)]
    exact h.not_stored hk hnew w
  have hkeyed : Keyed ((t.splitEntry (b.entryOf data)).2.run (putAtPos p i k v))
      ((b.splitEntry data).run (putAtPos p i k v)) rest' := by
    refine ⟨(h.mirror.split hmem hroom).run _ ?_, hsplit.put hlookup hnew' i v⟩
    intro a
    rw [exec_putAtPos]
    exact slotsOnly_putSlot.next a
  refine ⟨?_, _, _, rest', hins, hkeyed, ?_⟩
  · intro x hx' heq
    refine hsep (x.1, b.entryOf x.2) ?_ heq
    rw [h.mirror.index]
    exact List.mem_map_of_mem hx'
  · intro k' hk' hlive
    rw [hkeyed.live_iff (hkey hk'), Tree.run_mem, Tree.run_head, exec_putAtPos]
    have hput := fun w => @stored_putSlot _ _ _ p k v k' w i hsplit.shape.walk
      (hsplit.shape.lookup_mem hlookup) hi hempty (hkey hk')
    rcases hlive with hlive | rfl
    · obtain ⟨w, hw⟩ := (h.live_iff (hkey hk')).mp hlive
      refine ⟨w, (hput w).mpr (Or.inl ?_)⟩
      rw [hhead, hst k' w (hkey hk')]
      exact hw
    · exact ⟨v, (hput v).mpr (Or.inr ⟨rfl, rfl⟩)⟩

/-- One operation of a run in which every split is above its separator. -/
theorem step (h : Keyed t b rest) (hc : RemovalContract b op) (hfits : SplitFits b op)
    (habove : SplitAbove b op) :
    ∃ ans b' t' rest', b.step op = some (ans, b') ∧ Keyed t' b' rest' := by
  cases op with
  | insert k v =>
    obtain ⟨s, data, hfl, hmem, _, _, hlookup, _⟩ := h.mirror.exists_floor k
    obtain ⟨n, hn, hbit⟩ := h.mirror.bits _ hmem
    have hpos := MetaData.findFirstZero_mask hbit hn
    by_cases hfull : kvsPerEntry ≤ (b.metas data).findFirstZero
    · have hlt := h.lt_median_iff.mp (habove s data hfl hfull)
      obtain ⟨_, t', b', rest', hins, hkeyed, _⟩ :=
        @insert_split _ k v _ _ _ _ h hc.1 hc.2 hfl hfull (hfits s data hfl hfull) hlt
      exact ⟨_, b', t', rest', by rw [BitmapTree.step, hins]; rfl, hkeyed⟩
    · -- the pair may overwrite another one, but only in the entry it is looked up in
      have hn' : n < kvsPerEntry := by
        simp only at hpos
        omega
      have hins := h.mirror.insert_room hfl hn' hbit v
      exact ⟨_, _, _, rest, by rw [BitmapTree.step, hins]; rfl, h.mirror.put k v hn' hbit,
        h.routed.put hlookup (h.not_stored hc.1 hc.2) n v⟩
  | update k v => exact absurd hc id
  | remove k =>
    obtain ⟨ret, evs, t', b', ht, hrem, hmirror⟩ := h.mirror.remove k
    exact ⟨_, b', t', rest, by rw [BitmapTree.step, hrem]; rfl, hmirror, h.routed.remove ht⟩
  | get k =>
    obtain ⟨ans, b', _, hstep, _⟩ := h.mirror.step (.get k) trivial
    obtain ⟨r, _, heq⟩ := Option.map_eq_some_iff.mp hstep
    cases heq
    exact ⟨_, b, t, rest, hstep, h⟩

/-- A split keeps the keys exactly when its separator is above the one of the entry. -/
theorem splitKeeps_iff (h : Keyed t b rest) (hc : RemovalContract b op) (hfits : SplitFits b op) :
    SplitKeeps b op ↔ SplitAbove b op := by
  cases op with
  | update k v => exact absurd hc id
  | remove k => rfl
  | get k => rfl
  | insert k v =>
    constructor
    · intro hkeeps s data hfl hfull
      obtain ⟨hne, hsep, _⟩ := hkeeps s data hfl hfull
      obtain ⟨_, _, hfl', hmem, hft, _⟩ := h.mirror.exists_floor k
      cases hfl.symm.trans hfl'
      -- the median is a key of the entry, so it is not below the separator
      have hle := (h.routed.key_in_cell hft ⟨by rwa [h.mirror.mem] at hne,
        medianKey_hasKey t.mem (b.entryOf data)⟩).1
      rw [h.lt_median_iff]
      refine lt_of_le_of_ne hle ?_
      rw [← h.mirror.mem]
      exact hsep (s, data) hmem
    · intro habove s data hfl hfull
      have hlt := h.lt_median_iff.mp (habove s data hfl hfull)
      obtain ⟨hsep, _, b', _, hins, _, hlive⟩ :=
        @insert_split _ k v _ _ _ _ h hc.1 hc.2 hfl hfull (hfits s data hfl hfull) hlt
      rw [h.mirror.mem]
      exact ⟨Nat.ne_of_gt (Nat.zero_lt_of_lt hlt), hsep, b', hins, hlive⟩

end Keyed

/-- From a fresh tree: the splits of a run keep every live key reachable exactly when
each of them finds at most half of the slots empty or under the separator of its own
entry. -/
theorem splits_keep_iff (f : Mapping) (pm : Pmem Loc Nat) (ops : List Op)
    (hc : Along step (fun b op => RemovalContract b op ∧ SplitFits b op) (create false f pm) ops) :
    (∃ answers b', runOps step (create false f pm) ops = some (answers, b')) ∧
    (Along step SplitKeeps (create false f pm) ops ↔
      Along step SplitAbove (create false f pm) ops) := by
  have h₀ := keyed_create f pm
  constructor
  · obtain ⟨answers, b', hrun, _⟩ := hc.total (fun b => ∃ t, Mirror t b)
      (fun b op h hok => by
        obtain ⟨t, h⟩ := h
        obtain ⟨ans, b', t', hstep, h'⟩ := h.step op hok.2
        exact ⟨ans, b', hstep, t', h'⟩) ⟨_, h₀.mirror⟩
    exact ⟨answers, b', hrun⟩
  · refine Along.iff_along (fun b => ∃ t rest, Keyed t b rest) ?_ ?_ ⟨_, _, h₀⟩ hc
    · rintro b op ⟨t, rest, h⟩ ⟨hcontract, hfits⟩
      exact h.splitKeeps_iff hcontract hfits
    · rintro b op ans b' ⟨t, rest, h⟩ ⟨hcontract, hfits⟩ habove hstep
      obtain ⟨_, _, t', rest', hstep', h'⟩ := h.step hcontract hfits habove
      cases hstep.symm.trans hstep'
      exact ⟨t', rest', h'⟩

/-- Two keys are removed from the upper half before `23` splits it again. -/
def fewRemovals : List Op :=
  Tree.fillBelow 22 ++ [.remove 9, .remove 17, .insert 23 23, .get 23]

set_option maxRecDepth 100000 in
theorem fewRemovals_splits_keep :
    Along step SplitKeeps (create false Tree.sampleFile Tree.blank) fewRemovals := by
  have hc : Along step (fun b op => RemovalContract b op ∧ SplitFits b op)
      (create false Tree.sampleFile Tree.blank) fewRemovals := by
    decide +kernel
  have habove : Along step SplitAbove (create false Tree.sampleFile Tree.blank) fewRemovals := by
    decide +kernel
  exact (splits_keep_iff Tree.sampleFile Tree.blank fewRemovals hc).2.mpr habove

/-- All bits of the upper half are set, and eight of its keys are removed. -/
def manyRemovals : List Op :=
  Tree.fillBelow 22 ++ [8, 9, 10, 11, 12, 13, 14, 16].map .remove

set_option maxRecDepth 100000 in
/-- The next `Insert` splits at `INVALID_KEY`: `17` was live, and neither it nor the
inserted key is found afterwards. -/
theorem split_loses_keys : ∃ answers b b',
    Along step (fun b op => RemovalContract b op ∧ SplitFits b op)
      (create false Tree.sampleFile Tree.blank) (manyRemovals ++ [.insert 23 23]) ∧
    runOps step (create false Tree.sampleFile Tree.blank) manyRemovals = some (answers, b) ∧
    medianKey b.mem (b.entryOf 1) = invalidKey ∧ b.insert 23 23 = some (.ok, b') ∧
    Live b 17 ∧ ¬ Live b' 17 ∧ ¬ Live b' 23 ∧ ¬ SplitKeeps b (.insert 23 23) := by
  have hc : Along step (fun b op => RemovalContract b op ∧ SplitFits b op)
      (create false Tree.sampleFile Tree.blank) (manyRemovals ++ [.insert 23 23]) := by
    decide +kernel
  have hsome : (runOps step (create false Tree.sampleFile Tree.blank) manyRemovals).isSome := by
    decide +kernel
  have heval : ∀ r ∈ runOps step (create false Tree.sampleFile Tree.blank) manyRemovals,
      r.2.index.floor 23 = some (8, 1) ∧ kvsPerEntry ≤ (r.2.metas 1).findFirstZero ∧
      medianKey r.2.mem (r.2.entryOf 1) = invalidKey ∧ Live r.2 17 ∧
      (r.2.insert 23 23).map (fun x => (x.1, x.2.get 17, x.2.get 23)) =
        some (.ok, some (.fail, 0), some (.fail, 0)) := by
    decide +kernel
  obtain ⟨⟨answers, b⟩, hrun⟩ := Option.isSome_iff_exists.mp hsome
  obtain ⟨hfl, hfull, hmed, hlive, hlost⟩ := heval _ hrun
  obtain ⟨⟨ret, b'⟩, hins, hgets⟩ := Option.map_eq_some_iff.mp hlost
  simp only [Prod.mk.injEq] at hgets
  obtain ⟨rfl, h17, h23⟩ := hgets
  refine ⟨answers, b, b', hc, hrun, hmed, hins, hlive, ?_, ?_, ?_⟩
  · simp [Live, h17]
  · simp [Live, h23]
  · intro hkeeps
    exact (hkeeps 8 1 hfl hfull).1 hmed

end BitmapTree

end Epli
