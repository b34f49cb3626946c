import Epli.Ordered

/-!
# Recovery

A restart maps the file at the same address, constructs `EPLTree(true)` and
calls `Recover`, which rebuilds the index from the `min_key`s of the list. The
running index keeps the separator an entry was created with, while every split
rewrites the `min_key` of the entry it splits to the smallest key present at
that moment. Between the two lies a gap: a key inserted there later is routed
by the separator, and no longer by the `min_key`.
-/

namespace Epli

open Lib Entry

namespace Tree

/-- The tree after a restart over the image `img` of the file. All of it comes
from the medium, so nothing is dirty. -/
def reopen (f : Mapping) (img : Mem) (loadSize : Nat) : Option Tree :=
  (create true f ⟨img, fun _ => false⟩).recover loadSize

variable {f : Mapping} {pm : Pmem Loc Nat} {img : Mem} {calls loadSize : Nat} {t t' t₁ : Tree}
  {op : Op} {ans : Answer} {as : List Nat} {k v s₀ : Nat} {rest : List (Nat × Nat)}

/-! ## What `Recover` computes -/

/-- The pair `Recover` puts into `index_kvs` for an entry. -/
def indexKV (m : Mem) (a : Nat) : Nat × Nat := (m (a, .minKey), a)

/-- The loop lists the entries if the array holds them all. -/
theorem recoverLoop_eq (m : Mem) : ∀ (as : List Nat) (cap p : Nat),
    Walk (nextOf m) null p as →
    recoverLoop m cap p = if as.length ≤ cap then some (as.map (indexKV m)) else none := by
  intro as
  induction as with
  | nil =>
    intro cap p hw
    have hp : p = null := hw
    cases cap with
    | zero => simp [recoverLoop, hp]
    | succ cap => simp [recoverLoop, hp]
  | cons a as ih =>
    intro cap p hw
    rcases hw with ⟨rfl, hne, hw⟩
    cases cap with
    | zero => simp [recoverLoop, hne]
    | succ cap =>
      have hrec := ih cap (m (p, .next)) hw
      rw [recoverLoop, if_neg hne, hrec]
      -- the buffer overruns here exactly when it does for the rest of the walk
      by_cases hlen : as.length ≤ cap
      · have hlen' : (p :: as).length ≤ cap + 1 := by simpa using hlen
        rw [if_pos hlen, if_pos hlen']
        rfl
      · have hlen' : ¬ (p :: as).length ≤ cap + 1 := by simpa using hlen
        rw [if_neg hlen, if_neg hlen']
        rfl

/-- A loop that stays inside the array has reached the end of the list, whatever the
file holds. -/
theorem recoverLoop_walk (m : Mem) : ∀ (cap p : Nat) {indexKvs : List (Nat × Nat)},
    recoverLoop m cap p = some indexKvs → ∃ as, Walk (nextOf m) null p as := by
  intro cap
  induction cap with
  | zero =>
    intro p indexKvs h
    by_cases hp : p = null
    · exact ⟨[], hp⟩
    · simp [recoverLoop, hp] at h
  | succ cap ih =>
    intro p indexKvs h
    by_cases hp : p = null
    · exact ⟨[], hp⟩
    · rw [recoverLoop, if_neg hp, Option.map_eq_some_iff] at h
      rcases h with ⟨kvs, hrest, _⟩
      rcases ih _ hrest with ⟨as, hw⟩
      exact ⟨p :: as, rfl, hp, hw⟩

/-- The allocator of a new process: only the head has been handed out. -/
theorem create_recover_eq (f : Mapping) (pm : Pmem Loc Nat) :
    create true f pm =
      { pm := pm
        alloc := { pmemAddr := f.addr, currentAddr := f.addr + entrySize, mappedLen := f.len
                   used := entrySize, freed := 0, mapped_le := f.len_le }
        head := f.addr
        index := Multimap.empty } := by
  simp [create, create_allocAligned]

/-- What a restart leaves, whenever it comes back. -/
theorem reopen_spec (hw : Walk (nextOf img) null f.addr as)
    (h : reopen f img loadSize = some t₁) :
    t₁.mem = img ∧ t₁.head = f.addr ∧ t₁.index.kvs = as.map (indexKV img) ∧
      t₁.alloc = (create true f ⟨img, fun _ => false⟩).alloc := by
  have hne : as ≠ [] := by
    rintro rfl
    exact Nat.pos_iff_ne_zero.mp f.addr_pos hw
  rw [reopen, create_recover_eq] at h
  simp only [recover, recoverLoop_eq img as _ f.addr hw] at h
  by_cases hlen : as.length ≤ loadSize / kvsPerEntry + 1
  · rw [if_pos hlen] at h
    simp only [Option.bind_eq_bind, Option.bind_some, Option.bind_eq_some_iff] at h
    rcases h with ⟨index, hindex, ht⟩
    cases ht
    refine ⟨rfl, rfl, ?_, by rw [create_recover_eq]⟩
    show index.kvs = _
    -- `bulk_load` accepts the pairs only as they are
    unfold Multimap.bulkLoad at hindex
    rw [if_neg (by simp [Multimap.empty, hne])] at hindex
    split at hindex
    · cases hindex
      rfl
    · cases hindex
  · rw [if_neg hlen] at h
    cases h

/-- The index of a restarted tree has lost nothing. -/
theorem reopen_vacated (h : reopen f img loadSize = some t₁) : t₁.vacated = none := by
  rw [reopen, create_recover_eq] at h
  simp only [recover, Option.bind_eq_bind, Option.bind_eq_some_iff] at h
  rcases h with ⟨_, _, _, _, ht⟩
  cases ht
  rfl

/-- A restart comes back only over a list that ends. -/
theorem reopen_walk (h : reopen f img loadSize = some t₁) :
    ∃ as, Walk (nextOf img) null f.addr as := by
  rw [reopen, create_recover_eq] at h
  simp only [recover, Option.bind_eq_bind, Option.bind_eq_some_iff] at h
  rcases h with ⟨_, hloop, _⟩
  exact recoverLoop_walk _ _ _ hloop

/-- `Recover` comes back on a list whose `min_key`s are ascending, when the array
is large enough. -/
theorem exists_reopen (hw : Walk (nextOf img) null f.addr as)
    (hlen : as.length ≤ loadSize / kvsPerEntry + 1)
    (hasc : (as.map (indexKV img)).Pairwise fun x y => x.1 < y.1) :
    ∃ t₁, reopen f img loadSize = some t₁ := by
  have hne : as ≠ [] := by
    rintro rfl
    exact Nat.pos_iff_ne_zero.mp f.addr_pos hw
  have hbulk := Multimap.bulkLoad_empty (by simpa using hne) hasc
  rw [reopen, create_recover_eq]
  simp only [recover, recoverLoop_eq img as _ f.addr hw, if_pos hlen, Option.bind_eq_bind,
    Option.bind_some]
  rw [hbulk]
  exact ⟨_, rfl⟩

/-! ## Separators rebuilt from the `min_key`s -/

/-- The cells under the `min_key`s. -/
def minCells (m : Mem) (rest : List (Nat × Nat)) : List (Nat × Nat) :=
  rest.map fun x => indexKV m x.2

theorem minCells_snd (m : Mem) (rest : List (Nat × Nat)) :
    (minCells m rest).map Prod.snd = rest.map Prod.snd := by
  rw [minCells, List.map_map]
  rfl

/-- Each `min_key` lies in its cell, so they are ascending with the separators. -/
theorem Sound.minKeys_ascending (h : Sound t s₀ rest) :
    ((t.head :: rest.map Prod.snd).map (indexKV t.mem)).Pairwise fun x y => x.1 < y.1 := by
  have hcells := h.cells
  have hsnd : t.head :: rest.map Prod.snd = ((0, t.head) :: rest).map Prod.snd := rfl
  rw [hsnd, List.map_map, List.pairwise_map]
  refine hcells.high.imp_of_mem ?_
  intro x y _ hy hxy
  have hlt := hxy _ (Or.inr rfl)
  have hle := hcells.low y hy _ (Or.inr rfl)
  exact lt_of_lt_of_le hlt hle

/-- The `min_key`s met from the head on are strictly ascending, and so is the array that
`Recover` gives to `bulk_load`. -/
def RecoversSorted (t : Tree) : Prop :=
  ∃ as, Walk (nextOf t.mem) null t.head as ∧
    (as.map fun a => t.mem (a, .minKey)).Pairwise (· < ·) ∧
    ∀ cap, as.length ≤ cap → ∃ indexKvs, recoverLoop t.mem cap t.head = some indexKvs ∧
      indexKvs.Pairwise fun x y => x.1 < y.1

theorem Sound.recoversSorted (h : Sound t s₀ rest) : RecoversSorted t := by
  have hasc := h.minKeys_ascending
  refine ⟨_, h.shape.walk, ?_, ?_⟩
  · rw [List.pairwise_map] at hasc ⊢
    exact hasc
  · intro cap hcap
    refine ⟨_, ?_, hasc⟩
    rw [recoverLoop_eq t.mem _ cap t.head h.shape.walk, if_pos hcap]

/-- No entry but the head stores a key below its `min_key`. -/
def NoKeyBelow (t : Tree) : Prop :=
  ∀ a, Reaches (nextOf t.mem) null t.head a → a ≠ t.head → ∀ k, ProperKey t.mem a k →
    t.mem (a, .minKey) ≤ k

/-- The tree a restart leaves, with the allocator of the old process. -/
theorem reopen_sound (h : Sound t s₀ rest) (hbelow : NoKeyBelow t)
    (hmem : t₁.mem = t.mem) (hhead : t₁.head = t.head)
    (hindex : t₁.index.kvs = (t.head :: rest.map Prod.snd).map (indexKV t.mem))
    (hvacated : t₁.vacated = none) :
    Sound { t₁ with alloc := t.alloc } (t.mem (t.head, .minKey)) (minCells t.mem rest) := by
  have hcells := h.cells
  have hpos := hcells.bounds
  have hhigh := hcells.high
  rw [List.pairwise_cons] at hpos hhigh
  -- `min_key` is in its own cell, so each separator moves up and none passes the next
  have hlow : ∀ x ∈ rest, x.1 ≤ t.mem (x.2, .minKey) := fun x hx =>
    hcells.low x (List.mem_cons_of_mem _ hx) _ (Or.inr rfl)
  have hasc := h.minKeys_ascending
  have hmap : (rest.map Prod.snd).map (indexKV t.mem) = minCells t.mem rest := by
    rw [minCells, List.map_map]
    rfl
  rw [List.map_cons, hmap] at hasc hindex
  rw [List.pairwise_cons] at hasc
  have hsnd := minCells_snd t.mem rest
  refine ⟨⟨h.shape.base_pos, h.shape.base_aligned, ?_, ?_, ?_, ?_, ?_, ?_⟩, ?_, ?_, ?_⟩
  · exact hhead.trans h.shape.head_eq
  · show Walk (nextOf t₁.mem) null t₁.head (t₁.head :: _)
    rw [hmem, hhead, hsnd]
    exact h.shape.walk
  · show (t₁.head :: _).Perm _
    rw [hhead, hsnd]
    exact h.shape.blocks
  · show t.alloc.currentAddr = _ + entrySize * (t₁.head :: _).length
    rw [hhead, hsnd]
    exact h.shape.cursor
  · show t.alloc.used = entrySize * (t₁.head :: _).length
    rw [hhead, hsnd]
    exact h.shape.used
  · show (t₁.vacated.toList ++ t₁.index.kvs.map Prod.snd).Perm (t₁.head :: _)
    rw [hvacated, hindex, hhead]
    exact List.Perm.refl _
  · show Unique t₁.mem (t₁.head :: _)
    rw [hmem, hhead, hsnd]
    exact h.unique
  · show t₁.index.kvs = (_, t₁.head) :: _
    rw [hindex, hhead]
    rfl
  · -- the same cells, with the bounds moved up to the `min_key`s
    show Partition ((0, t₁.head) :: _) (Bounded t₁.mem)
    rw [hmem, hhead]
    refine ⟨?_, ?_, ?_, ?_⟩
    · rw [List.map_cons, hsnd]
      exact hcells.ids
    · rw [List.pairwise_cons]
      refine ⟨?_, hasc.2⟩
      intro y hy
      rcases List.mem_map.mp hy with ⟨x, hx, rfl⟩
      exact lt_of_lt_of_le (hpos.1 x hx) (hlow x hx)
    · intro y hy k hk
      rcases List.mem_cons.mp hy with rfl | hy
      · exact Nat.zero_le k
      · rcases List.mem_map.mp hy with ⟨x, hx, rfl⟩
        rcases hk with hk | hmin
        · have hx' : x.2 ∈ t.head :: rest.map Prod.snd :=
            List.mem_cons_of_mem _ (List.mem_map_of_mem hx)
          refine hbelow x.2 ((reaches_iff_mem h.shape.walk).mpr hx') ?_ k hk
          have hids := hcells.ids
          rw [List.map_cons, List.nodup_cons] at hids
          intro heq
          exact hids.1 (List.mem_map.mpr ⟨x, hx, heq⟩)
        · exact le_of_eq hmin.symm
    · rw [List.pairwise_cons]
      constructor
      · intro y hy k hk
        rcases List.mem_map.mp hy with ⟨x, hx, rfl⟩
        exact lt_of_lt_of_le (hhigh.1 x hx k hk) (hlow x hx)
      · rw [minCells, List.pairwise_map]
        refine hhigh.2.imp_of_mem ?_
        intro x y _ hy hxy k hk
        exact lt_of_lt_of_le (hxy k hk) (hlow y hy)

/-- A stored key below the `min_key` of its entry is not found after a restart. -/
theorem reopen_misses (h : Sound t s₀ rest) (hmem : t₁.mem = t.mem)
    (hindex : t₁.index.kvs = (t.head :: rest.map Prod.snd).map (indexKV t.mem)) {a : Nat}
    (ha : a ∈ t.head :: rest.map Prod.snd) (hne : a ≠ t.head) (hk : ProperKey t.mem a k)
    (hlt : k < t.mem (a, .minKey)) : t₁.get k = some (.fail, 0) := by
  have hnonempty : t₁.index.kvs ≠ [] := by
    rw [hindex]
    simp
  rcases Multimap.exists_floor hnonempty k with ⟨y, hy⟩
  rcases Multimap.floor_split hy with ⟨pre, post, hsplit, _, hlow⟩
  rw [hindex] at hsplit
  have hmemy : y ∈ (t.head :: rest.map Prod.snd).map (indexKV t.mem) := by
    rw [hsplit]
    simp
  rcases List.mem_map.mp hmemy with ⟨b, hb, rfl⟩
  -- the entry found is another one
  have hba : b ≠ a := by
    rintro rfl
    rcases hlow with hlow | rfl
    · have hle : t.mem (b, .minKey) ≤ k := hlow
      omega
    · rw [List.map_cons, List.nil_append] at hsplit
      exact hne (congrArg Prod.snd (List.cons.inj hsplit).1).symm
  rw [get_eq_fail_iff (lookup_of_floor hy), hmem, get_eq_none]
  exact fun hbk => h.unique.disjoint b hb a ha hba k hk.1 hbk hk.2

/-- Two sound trees over one list answer every `Get` alike. -/
theorem Sound.get_congr {t₂ : Tree} {s₂ : Nat} {rest₂ : List (Nat × Nat)} (h : Sound t s₀ rest)
    (h₂ : Sound t₂ s₂ rest₂) (hmem : t₂.mem = t.mem) (hhead : t₂.head = t.head) (k : Nat) :
    t₂.get k = t.get k := by
  by_cases hk : k = invalidKey
  · -- `INVALID_KEY` is looked up in the head on both sides
    subst hk
    rw [get_eq_get_iff h.routed.lookup_zero h₂.routed.lookup_zero, hmem, hhead]
  · by_cases hst : ∃ v, Stored t.mem t.head k v
    · rcases hst with ⟨v, hst⟩
      rw [h.routed.get_of_stored hk hst]
      exact h₂.routed.get_of_stored hk (by rwa [hmem, hhead])
    · have hno : ∀ v, ¬ Stored t.mem t.head k v := fun v hv => hst ⟨v, hv⟩
      rw [h.routed.get_of_not_stored hno]
      exact h₂.routed.get_of_not_stored (by rwa [hmem, hhead])

/-- Whether `Get` gives the same answers after a restart: exactly when no entry
but the head stores a key below its `min_key`. -/
theorem recover_preserves_iff (h : ReachableIf SplitGuard f pm calls t)
    (hcap : t.index.kvs.length ≤ loadSize / kvsPerEntry + 1) :
    ∃ t₁, reopen f t.mem loadSize = some t₁ ∧
      ((∀ k, t₁.get k = t.get k) ↔ NoKeyBelow t) := by
  rcases h.sound with ⟨s₀, rest, hs⟩
  have hhead := h.head_eq
  have hwalk := hs.shape.walk
  rw [hhead] at hwalk
  have hlen : (t.head :: rest.map Prod.snd).length ≤ loadSize / kvsPerEntry + 1 := by
    rw [hs.index] at hcap
    simpa using hcap
  have hasc := hs.minKeys_ascending
  rw [hhead] at hlen hasc
  rcases exists_reopen hwalk hlen hasc with ⟨t₁, hopen⟩
  rcases reopen_spec hwalk hopen with ⟨hmem, hhead₁, hindex, _⟩
  rw [← hhead] at hhead₁ hindex
  refine ⟨t₁, hopen, ?_, ?_⟩
  -- a key below its entry's `min_key` is looked up in an earlier entry and missed
  · intro hget a ha hne k hk
    by_contra hlt
    have hmem_a := (reaches_iff_mem hs.shape.walk).mp ha
    have hmiss := reopen_misses hs hmem hindex hmem_a hne hk (by omega)
    rcases hk.2.exists_holds with ⟨v, hv⟩
    have hfound := hs.routed.get_of_stored hk.1 ⟨a, ha, hv⟩
    rw [hget k, hfound] at hmiss
    cases hmiss
  · intro hbelow k
    exact hs.get_congr (reopen_sound hs hbelow hmem hhead₁ hindex
      (reopen_vacated hopen)) hmem hhead₁ k

/-- As long as no split puts its separator below the one the entry was found under,
`Recover` gives the index ascending keys. -/
theorem recover_sorted (h : ReachableIf SplitGuard f pm calls t) : RecoversSorted t := by
  rcases h.sound with ⟨s₀, rest, hs⟩
  exact hs.recoversSorted

theorem tens_recover_sorted : ∃ t₀ t', tens.tree sampleFile blank = some t₀ ∧
    runOps (step 2) t₀ tensOps = some (tensAnswers, t') ∧ RecoversSorted t' := by
  rcases exists_tens with ⟨t₀, t', htree, hrun, hreach⟩
  exact ⟨t₀, t', htree, hrun, recover_sorted hreach⟩

set_option maxRecDepth 100000 in
/-- After a split below its separator the head is also found above it. The next split of
the head puts an entry with `min_key` `11` in front of one with `min_key` `8`. -/
theorem recover_unsorted : ∃ t, Reachable sampleFile blank 0 t ∧ ¬ RecoversSorted t := by
  rcases tens.sound sampleFile blank with ⟨t₀, _, _, htree, _⟩
  have hc : ∀ t ∈ tens.tree sampleFile blank, Along (step 2) SlotContract t
      (splitBelowOps ++ (List.range 8).map fun i => .insert (11 + i) 1) := by
    decide +kernel
  have heval : ∀ t ∈ tens.tree sampleFile blank, ∀ x ∈ runOps (step 2) t
      (splitBelowOps ++ (List.range 8).map fun i => .insert (11 + i) 1),
      recoverLoop x.2.mem 5 x.2.head =
        some [(1, 4096), (11, 5120), (8, 4864), (80, 4608), (150, 4352)] := by
    decide +kernel
  rcases reachable_of_slots htree (hc t₀ htree) with ⟨answers, t, hrun, hreach⟩
  have hloop := heval t₀ htree _ hrun
  refine ⟨t, hreach, ?_⟩
  rintro ⟨as, hwalk, _, harray⟩
  -- the array holds the list, so this is the array
  have hlen : as.length ≤ 5 := by
    by_contra hlen
    have hnone := recoverLoop_eq t.mem as 5 t.head hwalk
    rw [if_neg hlen, hloop] at hnone
    cases hnone
  rcases harray 5 hlen with ⟨indexKvs, hsome, hasc⟩
  cases hloop.symm.trans hsome
  revert hasc
  decide

/-- The condition, read off the slots of the entries in the index. -/
theorem Sound.noKeyBelow (h : Sound t s₀ rest) (hslots : ∀ x ∈ t.index.kvs, x.2 ≠ t.head →
    ∀ i < kvsPerEntry, t.mem (x.2, .key i) ≠ invalidKey →
      t.mem (x.2, .minKey) ≤ t.mem (x.2, .key i)) : NoKeyBelow t := by
  intro a ha hne k hk
  rcases hk with ⟨hk0, i, hi, rfl⟩
  have hpay := h.shape.payloads.mem_iff.mpr ((reaches_iff_mem h.shape.walk).mp ha)
  rw [h.routed.vacated, Option.toList_none, List.nil_append, List.mem_map] at hpay
  rcases hpay with ⟨x, hx, rfl⟩
  exact hslots x hx hne i hi hk0

set_option maxRecDepth 100000 in
/-- After `tensOps`, whose inserts split the head, every `Get` survives a restart. -/
theorem tens_recover_iff : ∃ t t₁, ReachableIf SplitGuard sampleFile blank 0 t ∧
    reopen sampleFile t.mem 100 = some t₁ ∧ ∀ k, t₁.get k = t.get k := by
  have hend : ∀ t ∈ tens.tree sampleFile blank, ∀ x ∈ runOps (step 2) t tensOps,
      x.2.index.kvs.length ≤ 100 / kvsPerEntry + 1 ∧
        ∀ y ∈ x.2.index.kvs, y.2 ≠ x.2.head → ∀ i < kvsPerEntry,
          x.2.mem (y.2, .key i) ≠ invalidKey → x.2.mem (y.2, .minKey) ≤ x.2.mem (y.2, .key i) := by
    decide +kernel
  rcases exists_tens with ⟨t₀, t, htree, hrun, hreach⟩
  rcases hend t₀ htree _ hrun with ⟨hcap, hslots⟩
  rcases recover_preserves_iff hreach hcap with ⟨t₁, hopen, hiff⟩
  rcases hreach.sound with ⟨s₀, rest, hs⟩
  exact ⟨t, t₁, hreach, hopen, hiff.mpr (hs.noKeyBelow hslots)⟩

/-- Fill the second entry of `tens` after its first key is gone, split it, and
insert below the `min_key` the split has written. -/
def gapOps : List Op :=
  .remove 150 :: (List.range 15).map (fun i => .insert (160 + 10 * i) 1) ++ [.insert 155 7]

set_option maxRecDepth 100000 in
/-- The key `155` lies between the separator `150` and the `min_key` `160`: it is
found before the restart and lost after it. -/
theorem recover_loses_key : ∃ t t₁, ReachableIf SplitGuard sampleFile blank 0 t ∧
    t.index.kvs.length ≤ 100 / kvsPerEntry + 1 ∧ reopen sampleFile t.mem 100 = some t₁ ∧
    t.get 155 = some (.ok, 7) ∧ t₁.get 155 = some (.fail, 0) := by
  rcases tens.sound sampleFile blank with ⟨t₀, _, _, htree, _⟩
  have hspec : (runOps Ref.step tens.ref gapOps).isSome := by
    decide +kernel
  have hsplits : ∀ t ∈ tens.tree sampleFile blank,
      Along (step 2) (fun t op => SplitGuard t op ∧ SplitGuard t op) t gapOps := by
    decide +kernel
  have hend : ∀ t ∈ tens.tree sampleFile blank, ∀ x ∈ runOps (step 2) t gapOps,
      x.2.index.kvs.length ≤ 100 / kvsPerEntry + 1 ∧ x.2.get 155 = some (.ok, 7) ∧
        (reopen sampleFile x.2.mem 100).map (fun t₁ => t₁.get 155) = some (some (.fail, 0)) := by
    decide +kernel
  rcases Option.isSome_iff_exists.mp hspec with ⟨⟨answers, r'⟩, hr⟩
  rcases reachable_of_run htree hr (hsplits t₀ htree) with ⟨t, hrun, hreach, _⟩
  rcases hend t₀ htree _ hrun with ⟨hcap, hget, hlost⟩
  rcases Option.map_eq_some_iff.mp hlost with ⟨t₁, hopen, hget₁⟩
  exact ⟨t, t₁, hreach, hcap, hopen, hget, hget₁⟩

end Tree

end Epli
