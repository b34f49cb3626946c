import Epli.Lib.Partition
import Epli.Stored

/-!
# Sound trees: the index routes every stored key to its entry

In a sound tree the index lists the entries in list order, and its separators
cut the key space into one cell per entry. The first cell reaches down to `0`
whatever the first separator is, because a lookup below every separator falls
back to the first entry.

A split of the first entry keeps a tree sound only if the new separator does not
fall below the first one (`SplitOk`): otherwise the new entry, not the head,
becomes the first of the index.
-/

namespace Epli

open Lib Entry

/-- The proper keys of an entry. -/
def ProperKey (m : Mem) (a k : Nat) : Prop := k ≠ invalidKey ∧ HasKey m a k

/-- The words of an entry that its cell bounds: its proper keys and `min_key`. -/
def Bounded (m : Mem) (a k : Nat) : Prop := ProperKey m a k ∨ k = m (a, .minKey)

theorem Entry.HasKey.bounded {m : Mem} {a k : Nat} (h : HasKey m a k) (hk : k ≠ invalidKey) :
    Bounded m a k :=
  Or.inl ⟨hk, h⟩

namespace Tree

/-- The index is `(s₀, head)` followed by `rest`, in list order, and its cells
partition the stored keys and the `min_key`s. -/
structure Sound (t : Tree) (s₀ : Nat) (rest : List (Nat × Nat)) : Prop where
  shape : Shape t (t.head :: rest.map Prod.snd)
  unique : Unique t.mem (t.head :: rest.map Prod.snd)
  index : t.index.kvs = (s₀, t.head) :: rest
  cells : Partition ((0, t.head) :: rest) (Bounded t.mem)

/-- The part of soundness that does not depend on which words of an entry its cell
bounds; these include its proper keys. -/
structure Routed (has : Mem → Nat → Nat → Prop) (t : Tree) (s₀ : Nat)
    (rest : List (Nat × Nat)) : Prop where
  shape : Shape t (t.head :: rest.map Prod.snd)
  unique : Unique t.mem (t.head :: rest.map Prod.snd)
  index : t.index.kvs = (s₀, t.head) :: rest
  cells : Partition ((0, t.head) :: rest) (has t.mem)
  keys : ∀ a k, ProperKey t.mem a k → has t.mem a k

variable {t : Tree} {s₀ k v p s : Nat} {rest pre post : List (Nat × Nat)}
  {has : Mem → Nat → Nat → Prop}

theorem Sound.routed (h : Sound t s₀ rest) : Routed Bounded t s₀ rest :=
  ⟨h.shape, h.unique, h.index, h.cells, fun _ _ => Or.inl⟩

theorem Routed.sound (h : Routed Bounded t s₀ rest) : Sound t s₀ rest :=
  ⟨h.shape, h.unique, h.index, h.cells⟩

/-- The entries of the list are the payloads of the cells. -/
theorem entries_eq (h : (0, t.head) :: rest = pre ++ (s, p) :: post) :
    t.head :: rest.map Prod.snd = pre.map Prod.snd ++ p :: post.map Prod.snd := by
  have := congrArg (List.map Prod.snd) h
  simpa using this

namespace Routed

theorem index_ne (h : Routed has t s₀ rest) : t.index.kvs ≠ [] := by simp [h.index]

theorem vacated (h : Routed has t s₀ rest) : t.vacated = none :=
  h.shape.vacated_none (by simp [h.index])

/-- A key is looked up in the cell it lies in. -/
theorem floor_cell (h : Routed has t s₀ rest) {x : Nat × Nat} (hx : t.index.floor k = some x) :
    ∃ pre s post, (0, t.head) :: rest = pre ++ (s, x.2) :: post ∧ s ≤ k ∧
      (∀ y ∈ post, k < y.1) ∧
      ((pre = [] ∧ x = (s₀, t.head)) ∨
        ∃ pre', pre = (0, t.head) :: pre' ∧ s = x.1 ∧ rest = pre' ++ x :: post) := by
  rcases Multimap.floor_split hx with ⟨pre, post, hsplit, hpost, hlow⟩
  rw [h.index] at hsplit
  cases pre with
  | nil =>
    rcases List.cons.inj hsplit with ⟨rfl, rfl⟩
    exact ⟨[], 0, rest, rfl, Nat.zero_le k, hpost, Or.inl ⟨rfl, rfl⟩⟩
  | cons y pre =>
    rcases List.cons.inj hsplit with ⟨rfl, rfl⟩
    have hxk : x.1 ≤ k := hlow.resolve_right (by simp)
    exact ⟨(0, t.head) :: pre, x.1, post, rfl, hxk, hpost, Or.inr ⟨pre, rfl, rfl, rfl⟩⟩

theorem lookup_cell (h : Routed has t s₀ rest) (hp : t.lookup k = some p) :
    ∃ pre s post, (0, t.head) :: rest = pre ++ (s, p) :: post ∧ s ≤ k ∧
      ∀ y ∈ post, k < y.1 := by
  rcases floor_of_lookup h.index_ne hp with ⟨s, hx⟩
  rcases h.floor_cell hx with ⟨pre, s, post, hcells, hs, hpost, _⟩
  exact ⟨pre, s, post, hcells, hs, hpost⟩

/-- A stored key is routed to the entry that stores it. -/
theorem lookup_of_hasKey (h : Routed has t s₀ rest) {a : Nat}
    (ha : a ∈ t.head :: rest.map Prod.snd) (hk : k ≠ invalidKey) (hh : HasKey t.mem a k) :
    t.lookup k = some a := by
  have hhigh := h.cells.high
  rw [List.pairwise_cons] at hhigh
  rcases List.mem_cons.mp ha with rfl | ha
  · have hfloor : t.index.floor k = some (s₀, t.head) :=
      Multimap.floor_of_split (h.index.trans (List.nil_append _).symm)
        (fun y hy => hhigh.1 y hy k (h.keys _ k ⟨hk, hh⟩)) (Or.inr rfl)
    exact lookup_of_floor hfloor
  · rcases List.mem_map.mp ha with ⟨x, hx, rfl⟩
    have hlow := h.cells.low x (List.mem_cons_of_mem _ hx) k (h.keys _ k ⟨hk, hh⟩)
    rcases List.append_of_mem hx with ⟨pre, post, rfl⟩
    rw [List.pairwise_append, List.pairwise_cons] at hhigh
    have hfloor : t.index.floor k = some x :=
      Multimap.floor_of_split (h.index.trans (List.cons_append ..).symm)
        (fun y hy => hhigh.2.2.1.1 y hy k (h.keys _ k ⟨hk, hh⟩)) (Or.inl hlow)
    exact lookup_of_floor hfloor

/-- The smallest word is looked up in the head. -/
theorem lookup_zero (h : Routed has t s₀ rest) : t.lookup 0 = some t.head := by
  have hbounds := h.cells.bounds
  rw [List.pairwise_cons] at hbounds
  have hfloor : t.index.floor 0 = some (s₀, t.head) :=
    Multimap.floor_of_split (h.index.trans (List.nil_append _).symm) hbounds.1 (Or.inr rfl)
  exact lookup_of_floor hfloor

/-! ## Get -/

/-- `Get` finds a pair exactly when it is stored. -/
theorem get_of_stored (h : Routed has t s₀ rest) (hk : k ≠ invalidKey)
    (hst : Stored t.mem t.head k v) : t.get k = some (.ok, v) := by
  rcases (stored_iff h.shape.walk).mp hst with ⟨a, ha, hh⟩
  have hl := h.lookup_of_hasKey ha hk hh.hasKey
  exact (get_eq_ok_iff hl).mpr ((get_eq_some (h.unique.distinct a ha) hk).mpr hh)

theorem get_of_not_stored (h : Routed has t s₀ rest) (hst : ∀ v, ¬ Stored t.mem t.head k v) :
    t.get k = some (.fail, 0) := by
  rcases h.shape.exists_lookup k with ⟨p, hp, hmem⟩
  rw [get_eq_fail_iff hp, get_eq_none]
  intro hk
  rcases hk.exists_holds with ⟨w, hw⟩
  exact hst w ((stored_iff h.shape.walk).mpr ⟨p, hmem, hw⟩)

/-! ## Splitting and putting -/

/-- Where the separator of a split lands in the index, if it lies inside the cell of
the entry. -/
theorem split_index (h : Routed has t s₀ rest) {x : Nat × Nat} (hx : t.index.floor k = some x)
    (hok : x.1 ≤ medianKey t.mem x.2)
    (habove : ∀ {pre s post}, (0, t.head) :: rest = pre ++ (s, x.2) :: post →
      ∀ y ∈ post, medianKey t.mem x.2 < y.1) :
    ∃ pre s post l₁ l₂, (0, t.head) :: rest = pre ++ (s, x.2) :: post ∧ rest = l₁ ++ l₂ ∧
      (0, t.head) :: (l₁ ++ (medianKey t.mem x.2, t.alloc.currentAddr) :: l₂) =
        pre ++ (s, x.2) :: (medianKey t.mem x.2, t.alloc.currentAddr) :: post ∧
      (t.splitEntry x.2).2.index.kvs =
        (s₀, t.head) :: (l₁ ++ (medianKey t.mem x.2, t.alloc.currentAddr) :: l₂) := by
  rcases h.floor_cell hx with ⟨pre, s, post, hcells, _, _, hwhere⟩
  have hpost := habove hcells
  -- the new separator goes behind all that are not above the median
  have hins : ∀ l : List (Nat × Nat), (∀ y ∈ l, y.1 ≤ medianKey t.mem x.2) →
      t.index.kvs = l ++ post → (t.splitEntry x.2).2.index.kvs =
        l ++ (medianKey t.mem x.2, t.alloc.currentAddr) :: post := by
    intro l hl hkvs
    rw [splitEntry_index h.shape]
    show Multimap.insertList _ _ t.index.kvs = _
    rw [hkvs, Multimap.insertList_append _ _ _ _ hl, Multimap.insertList_of_lt _ _ hpost]
  rcases hwhere with ⟨rfl, rfl⟩ | ⟨pre', rfl, rfl, rfl⟩
  · -- the head is split: the new separator comes second
    rcases List.cons.inj hcells with ⟨hs, rfl⟩
    rcases Prod.mk.inj hs with ⟨rfl, _⟩
    refine ⟨[], 0, rest, [], rest, rfl, rfl, rfl, ?_⟩
    exact hins [(s₀, t.head)] (by simpa using hok) h.index
  · -- another entry is split: the new separator comes right after its own
    refine ⟨(0, t.head) :: pre', x.1, post, pre' ++ [x], post, rfl, by simp, by simp, ?_⟩
    have hsorted := t.index.sorted
    rw [h.index, ← List.cons_append, List.pairwise_append] at hsorted
    have hle : ∀ y ∈ ((s₀, t.head) :: pre') ++ [x], y.1 ≤ medianKey t.mem x.2 := by
      intro y hy
      rcases List.mem_append.mp hy with hy | hy
      · exact (hsorted.2.2 y hy x (by simp)).trans hok
      · rw [List.mem_singleton.mp hy]
        exact hok
    exact hins _ hle (by rw [h.index]; simp)

/-- A split whose separator lies strictly inside the cell of the entry keeps every key
routed and stores the same pairs. What it does to the bounded words is left to the
caller. -/
theorem split (h : Routed has t s₀ rest) {x : Nat × Nat} (hx : t.index.floor k = some x)
    (hok : x.1 ≤ medianKey t.mem x.2)
    (hcell : ∀ {pre s post}, (0, t.head) :: rest = pre ++ (s, x.2) :: post →
      s < medianKey t.mem x.2 ∧ ∀ y ∈ post, medianKey t.mem x.2 < y.1)
    (hhas : ∀ m', SplitEffect t.mem m' x.2 t.alloc.currentAddr → Distinct t.mem x.2 →
      (∀ a k, ProperKey m' a k → has m' a k) ∧
      (∀ k, has m' x.2 k → has t.mem x.2 k ∧ k < medianKey t.mem x.2) ∧
      (∀ k, has m' t.alloc.currentAddr k → has t.mem x.2 k ∧ medianKey t.mem x.2 ≤ k) ∧
      ∀ a, a ≠ x.2 → a ≠ t.alloc.currentAddr → ∀ k, has m' a k → has t.mem a k) :
    ∃ l₁ l₂, rest = l₁ ++ l₂ ∧
      Routed has (t.splitEntry x.2).2 s₀
        (l₁ ++ (medianKey t.mem x.2, t.alloc.currentAddr) :: l₂) ∧
      ∀ k' v', k' ≠ invalidKey →
        (Stored (t.splitEntry x.2).2.mem t.head k' v' ↔ Stored t.mem t.head k' v') := by
  rcases h.split_index hx hok fun hc => (hcell hc).2 with
    ⟨pre, s, post, l₁, l₂, hcells, hrest, hcells', hindex⟩
  rcases hcell hcells with ⟨hlt, habove⟩
  -- the new cell stands right behind the old one in the index as in the list
  have hentries' : t.head :: (l₁ ++ (medianKey t.mem x.2, t.alloc.currentAddr) :: l₂).map
      Prod.snd = pre.map Prod.snd ++ x.2 :: t.alloc.currentAddr :: post.map Prod.snd := by
    have := congrArg (List.map Prod.snd) hcells'
    simpa using this
  have hshape := h.shape
  have hunique := h.unique
  rw [entries_eq hcells] at hshape hunique
  have hmem : x.2 ∈ pre.map Prod.snd ++ x.2 :: post.map Prod.snd := by simp
  have heff := splitEntry_mem hshape hmem
  have hshape' := shape_splitEntry hshape
  rcases hhas _ heff (hunique.distinct x.2 hmem) with ⟨hkeys, hold, hnew, hother⟩
  refine ⟨l₁, l₂, hrest, ⟨?_, ?_, hindex, ?_, hkeys⟩, ?_⟩
  · rw [splitEntry_head, hentries']
    exact hshape'
  · rw [splitEntry_head, hentries']
    exact heff.unique hunique hshape.cursor_fresh
  · have hcut := h.cells
    rw [hcells] at hcut
    rw [splitEntry_head, hcells']
    refine hcut.cut ?_ hlt habove hold hnew hother
    simpa using hshape.cursor_fresh
  · intro k' v' hk'
    exact heff.stored_iff hshape.walk hshape'.walk hshape.cursor_fresh hk'

/-- Stores to the slots of one entry that add at most the key `k`, looked up in
that entry, keep every key routed. -/
theorem run (h : Routed has t s₀ rest) (hp : t.lookup k = some p) {evs : Trace}
    (hslots : SlotsOnly t.mem (exec t.mem evs) p)
    (hunique : Unique (exec t.mem evs) (t.head :: rest.map Prod.snd))
    (hkeys : ∀ a k, ProperKey (exec t.mem evs) a k → has (exec t.mem evs) a k)
    (hput : ∀ a k', has (exec t.mem evs) a k' → has t.mem a k' ∨ (a = p ∧ k' = k)) :
    Routed has (t.run evs) s₀ rest := by
  rcases h.lookup_cell hp with ⟨pre, s, post, hcells, hs, hpost⟩
  refine ⟨h.shape.run evs fun a _ => hslots.next a, ?_, h.index, ?_, ?_⟩
  · rw [run_mem, run_head]
    exact hunique
  · have hparts := h.cells
    rw [hcells] at hparts
    rw [run_mem, run_head, hcells]
    exact hparts.put hs hpost hput
  · rw [run_mem]
    exact hkeys

end Routed

/-! ## The condition on splits -/

/-- If the entry that `k` is routed to is full, at most half of its keys are
below the separator it was found under. -/
def SplitOk (t : Tree) (k : Nat) : Prop :=
  ∀ s p, t.index.floor k = some (s, p) → Full t.mem p →
    countBelow t.mem p s ≤ kvsPerEntry / 2

instance (t : Tree) (k : Nat) : Decidable (SplitOk t k) :=
  decidable_of_iff (∀ x ∈ t.index.floor k, Full t.mem x.2 →
    countBelow t.mem x.2 x.1 ≤ kvsPerEntry / 2) (by simp [SplitOk])

namespace Sound

/-- The separator a split puts into the index lies strictly inside the cell. -/
theorem median_in_cell (h : Sound t s₀ rest)
    (hcells : (0, t.head) :: rest = pre ++ (s, p) :: post) (hf : Full t.mem p) :
    s < medianKey t.mem p ∧ ∀ y ∈ post, medianKey t.mem p < y.1 := by
  have hp : p ∈ t.head :: rest.map Prod.snd := by
    have : (t.head :: rest.map Prod.snd) = (pre ++ (s, p) :: post).map Prod.snd := by
      rw [← hcells]
      rfl
    rw [this]
    simp
  have hd := h.unique.distinct p hp
  have hparts := h.cells
  rw [hcells] at hparts
  have hproper : ∀ k, HasKey t.mem p k → Bounded t.mem p k := by
    rintro k ⟨i, hi, rfl⟩
    exact Or.inl ⟨hf i hi, i, hi, rfl⟩
  constructor
  · -- the smallest key is in the cell and strictly below the median
    rcases List.exists_cons_of_ne_nil (lowerKVs_ne_nil t.mem p) with ⟨x, l, hx⟩
    have hxl : x ∈ lowerKVs t.mem p := by simp [hx]
    have hmem : x ∈ sortedKVs t.mem p := by
      rw [← lower_append_upper]
      exact List.mem_append_left _ hxl
    have hkey := (mem_sortedKVs.mp hmem).hasKey
    have hlt := lt_median_of_mem_lower hd hxl (hf.ne_invalid hkey)
    have hle := hparts.low (s, p) (by simp) x.1 (hproper _ hkey)
    exact lt_of_le_of_lt hle hlt
  · intro y hy
    have hhigh := hparts.high
    rw [List.pairwise_append, List.pairwise_cons] at hhigh
    exact hhigh.2.1.1 y hy _ (hproper _ (medianKey_hasKey t.mem p))

end Sound

/-- Where the bounded words of the halves come from. -/
theorem SplitEffect.bounded_old {m m' : Mem} {q : Nat} (h : SplitEffect m m' p q)
    (hf : Full m p) (hd : Distinct m p) (hk : Bounded m' p k) :
    Bounded m p k ∧ k < medianKey m p := by
  rcases hk with ⟨hk, hh⟩ | hmin
  · exact ⟨(h.hasKey_old hk hh).bounded hk, h.lt_median hd hk hh⟩
  · -- the new `min_key` is the smallest key
    rw [h.old_minKey] at hmin
    rcases List.exists_cons_of_ne_nil (lowerKVs_ne_nil m p) with ⟨x, l, hx⟩
    have hxl : x ∈ lowerKVs m p := by simp [hx]
    have hsorted : sortedKVs m p = x :: (l ++ upperKVs m p) := by
      rw [← lower_append_upper, hx, List.cons_append]
    rw [hsorted] at hmin
    have hkey : HasKey m p x.1 :=
      (mem_sortedKVs.mp (hsorted ▸ List.mem_cons_self ..)).hasKey
    have hkx : k = x.1 := hmin
    rw [hkx]
    have hne := hf.ne_invalid hkey
    exact ⟨hkey.bounded hne, lt_median_of_mem_lower hd hxl hne⟩

theorem SplitEffect.bounded_new {m m' : Mem} {q : Nat} (h : SplitEffect m m' p q)
    (hf : Full m p) (hk : Bounded m' q k) : Bounded m p k ∧ medianKey m p ≤ k := by
  rcases hk with ⟨hk, hh⟩ | hmin
  · exact ⟨(h.hasKey_new hk hh).bounded hk, h.median_le hk hh⟩
  · rw [h.new_minKey] at hmin
    rw [hmin]
    have hkey := medianKey_hasKey m p
    exact ⟨hkey.bounded (hf.ne_invalid hkey), le_rfl⟩

theorem SplitEffect.bounded_other {m m' : Mem} {q a : Nat} (h : SplitEffect m m' p q)
    (hap : a ≠ p) (haq : a ≠ q) (hk : Bounded m' a k) : Bounded m a k := by
  rcases hk with ⟨hk, hh⟩ | hmin
  · exact ((h.hasKey_other hap haq).mp hh).bounded hk
  · rw [h.other a .minKey hap haq] at hmin
    exact Or.inr hmin

namespace Sound

/-- A split whose separator does not fall below the one its entry was found
under keeps the tree sound and stores the same pairs. -/
theorem split (h : Sound t s₀ rest) {x : Nat × Nat} (hx : t.index.floor k = some x)
    (hf : Full t.mem x.2) (hok : x.1 ≤ medianKey t.mem x.2) :
    ∃ l₁ l₂, rest = l₁ ++ l₂ ∧
      Sound (t.splitEntry x.2).2 s₀ (l₁ ++ (medianKey t.mem x.2, t.alloc.currentAddr) :: l₂) ∧
      ∀ k' v', k' ≠ invalidKey →
        (Stored (t.splitEntry x.2).2.mem t.head k' v' ↔ Stored t.mem t.head k' v') := by
  rcases h.routed.split hx hok (fun hc => h.median_in_cell hc hf) fun m' heff hd =>
    ⟨fun _ _ => Or.inl, fun _ hk => heff.bounded_old hf hd hk,
      fun _ hk => heff.bounded_new hf hk, fun _ hap haq _ hk => heff.bounded_other hap haq hk⟩
    with ⟨l₁, l₂, hrest, hs, hst⟩
  exact ⟨l₁, l₂, hrest, hs.sound, hst⟩

/-- Stores to the slots of one entry that add at most the key `k`, looked up in
that entry, keep the tree sound. -/
theorem run (h : Sound t s₀ rest) (hp : t.lookup k = some p) {evs : Trace}
    (hslots : SlotsOnly t.mem (exec t.mem evs) p)
    (hunique : Unique (exec t.mem evs) (t.head :: rest.map Prod.snd))
    (hkeys : ∀ k', k' ≠ invalidKey → HasKey (exec t.mem evs) p k' → HasKey t.mem p k' ∨ k' = k) :
    Sound (t.run evs) s₀ rest := by
  refine (h.routed.run hp hslots hunique (fun _ _ => Or.inl) ?_).sound
  intro a k' hb
  rcases hb with ⟨hk', hh⟩ | hmin
  · by_cases hap : a = p
    · subst hap
      rcases hkeys k' hk' hh with hold | rfl
      · exact Or.inl (hold.bounded hk')
      · exact Or.inr ⟨rfl, rfl⟩
    · exact Or.inl (((hslots.hasKey hap).mp hh).bounded hk')
  · -- `min_key` is not a slot
    rw [hslots.minKey] at hmin
    exact Or.inl (Or.inr hmin)

end Sound

end Tree

end Epli
