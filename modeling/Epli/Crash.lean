import Epli.Client

/-!
# Crashes inside an `Insert`

Every store is durable as soon as it is made, and a crash may hit between any
two stores of an `Insert` (`CrashImage`). An `Insert` that finds an empty slot
loses nothing. An `Insert` that splits passes through three phases:

1. the new entry is built and linked: nothing is lost, but from the link on the
   upper half is stored in *both* entries;
2. `memset` clears the old entry: from here on the lower half is stored nowhere
   in the list;
3. the old entry is refilled.
-/

namespace Epli

open Lib Entry

/-- Every pair of the list in `m` is still in the list in `img`. -/
def Keeps (m img : Mem) (head : Nat) : Prop :=
  ∀ k v, k ≠ invalidKey → Stored m head k v → Stored img head k v

variable {m m' : Mem} {as pre post : List Nat} {head p q k v i : Nat}

/-! ## The linked entry -/

namespace Tree.LinkEffect

theorem walk (h : LinkEffect m m' p q) (hq : q ≠ null)
    (hw : Walk (nextOf m) null head (pre ++ p :: post)) (hnd : (pre ++ p :: post).Nodup)
    (hfresh : q ∉ pre ++ p :: post) : Walk (nextOf m') null head (pre ++ p :: q :: post) := by
  refine walk_link hq h.old_next h.new_next hnd hfresh ?_ hw
  intro c hc hcp
  refine h.other c .next hcp ?_
  rintro rfl
  exact hfresh hc

theorem holds_old (h : LinkEffect m m' p q) : Holds m' p k v ↔ Holds m p k v :=
  holds_congr h.old_key h.old_val

theorem holds_new (h : LinkEffect m m' p q) (hk : k ≠ invalidKey) :
    Holds m' q k v ↔ (k, v) ∈ upperKVs m p := by
  rw [holds_of_filled h.new_filled (by decide) (by rw [length_upperKVs]) hk,
    List.take_of_length_le (by rw [length_upperKVs])]

end Tree.LinkEffect

namespace Tree

/-- The memory when `entry->next = new_entry` has been stored. -/
def linked (m : Mem) (p q : Nat) : Mem :=
  exec m (splitInit m p q ++ splitLink m p q)

/-- The memory when `setOrderedKVs` has cleared the old entry. -/
def cleared (m : Mem) (p q : Nat) : Mem :=
  exec (linked m p q) (clearKVs p)

/-- Both are met in the middle of a split. -/
theorem crashImage_linked (m : Mem) (p q : Nat) (evs : Trace) :
    CrashImage m (splitInit m p q ++ splitLink m p q ++ splitRefill m p ++ evs)
      (linked m p q) := by
  rw [List.append_assoc (splitInit m p q ++ splitLink m p q)]
  exact crashImage_append _ _ _

theorem crashImage_cleared (m : Mem) (p q : Nat) (evs : Trace) :
    CrashImage m (splitInit m p q ++ splitLink m p q ++ splitRefill m p ++ evs)
      (cleared m p q) := by
  have hrefill : splitRefill m p = clearKVs p ++ (fillKVs p (sortedKVs m p) (kvsPerEntry / 2)
      ++ [.store (p, .minKey) ((sortedKVs m p).getD 0 (0, 0)).1]
      ++ setFlag p 0 ++ memPersist p entrySize) := by
    simp [splitRefill, setOrderedKVs]
  have hevs : splitInit m p q ++ splitLink m p q ++ splitRefill m p ++ evs =
      (splitInit m p q ++ splitLink m p q ++ clearKVs p) ++
        ((fillKVs p (sortedKVs m p) (kvsPerEntry / 2)
          ++ [.store (p, .minKey) ((sortedKVs m p).getD 0 (0, 0)).1]
          ++ setFlag p 0 ++ memPersist p entrySize) ++ evs) := by
    rw [hrefill]
    simp only [List.append_assoc]
  have himg : cleared m p q = exec m (splitInit m p q ++ splitLink m p q ++ clearKVs p) := by
    rw [cleared, linked, exec_append m _ (clearKVs p)]
  rw [hevs, himg]
  exact crashImage_append _ _ _

/-- Once the old entry is cleared, its lower half is stored nowhere. -/
theorem cleared_loses (hq : q ≠ null) (hw : Walk (nextOf m) null head (pre ++ p :: post))
    (hnd : (pre ++ p :: post).Nodup) (hfresh : q ∉ pre ++ p :: post)
    (hu : Unique m (pre ++ p :: post)) (hf : Full m p) {x : KV} (hx : x ∈ lowerKVs m p) :
    x.1 ≠ invalidKey ∧ Stored m head x.1 x.2 ∧
      ∀ w, ¬ Stored (cleared m p q) head x.1 w := by
  have hp : p ∈ pre ++ p :: post := by simp
  have hqp : q ≠ p := by
    rintro rfl
    exact hfresh hp
  have hlink : LinkEffect m (linked m p q) p q := linkEffect hqp
  have hd := hu.distinct p hp
  have hhold : Holds m p x.1 x.2 := by
    rw [← mem_sortedKVs, ← lower_append_upper]
    exact List.mem_append_left _ hx
  have hx0 : x.1 ≠ invalidKey := hf.ne_invalid hhold.hasKey
  -- the state right after the `memset` of the old entry
  have hmem : cleared m p q = slotsSet (linked m p q) p kvsPerEntry fun _ => (0, 0) :=
    exec_clearKVs _ _
  have hwalk : Walk (nextOf (cleared m p q)) null head (pre ++ p :: q :: post) := by
    refine walk_congr ?_ (hlink.walk hq hw hnd hfresh)
    intro a _
    rw [nextOf, hmem]
    rfl
  refine ⟨hx0, (stored_iff hw).mpr ⟨p, hp, hhold⟩, ?_⟩
  intro w hst
  rcases (stored_iff hwalk).mp hst with ⟨a, ha, i, hi, hki, hvi⟩
  rw [hmem] at hki hvi
  by_cases hap : a = p
  · -- the old entry is empty
    subst hap
    simp only [slotsSet, hi, and_self, if_true] at hki
    exact hx0 hki.symm
  · simp only [slotsSet, hap, false_and, if_false] at hki hvi
    by_cases haq : a = q
    · -- the new entry holds the upper half only
      subst haq
      have hup := (hlink.holds_new hx0).mp ⟨i, hi, hki, hvi⟩
      have hlow := lt_median_of_mem_lower hd hx hx0
      have hle := median_le_of_mem_upper hup
      omega
    · -- the other entries never held the key
      have hkey : HasKey m a x.1 := by
        refine ⟨i, hi, ?_⟩
        rw [← hlink.other a _ hap haq]
        exact hki
      exact hu.disjoint a (mem_of_mem_link ha haq) p hp hap x.1 hx0 hkey hhold.hasKey

/-! ## Putting a pair at an empty slot -/

/-- Every crash point of a put at an empty slot keeps the list. -/
theorem crash_put (hw : Walk (nextOf m) null head as) (hp : p ∈ as) (hi : i < kvsPerEntry)
    (he : m (p, .key i) = invalidKey) {img : Mem} (h : CrashImage m (putAtPos p i k v) img) :
    Keeps m img head := by
  have hputSlot : Keeps m (putSlot m p i k v) head := fun k' v' hk' hst =>
    (stored_putSlot hw hp hi he hk').mpr (Or.inl hst)
  have hval : Keeps m (setLoc m (p, .val i) v) head := by
    intro k' v' hk' hst
    rcases (stored_iff hw).mp hst with ⟨a, ha, j, hj, hkj, hvj⟩
    refine (stored_iff (slotsOnly_setVal.walk hw)).mpr ⟨a, ha, j, hj, ?_, ?_⟩
    · rw [setLoc_ne _ _ (by simp)]
      exact hkj
    · -- the slot written is empty, so it is not the one of the pair
      rw [setLoc_ne]
      · exact hvj
      · intro heq
        simp only [Prod.mk.injEq, Field.val.injEq] at heq
        rw [heq.1, heq.2, he] at hkj
        exact hk' hkj.symm
  simp only [putAtPos, clflush, List.cons_append, List.nil_append, crashImage_cons,
    crashImage_nil, Ev.apply] at h
  rcases h with rfl | rfl | rfl | rfl
  · exact fun _ _ _ hst => hst
  · exact hval
  · exact hputSlot
  · exact hputSlot

/-! ## An interrupted `Insert` -/

variable {f : Mapping} {pm : Pmem Loc Nat} {calls : Nat} {t : Tree}

/-- The stores of an `Insert` that splits. -/
theorem insert_full (h : Shape t as) (hp : t.lookup k = some p) (hf : Full t.mem p)
    (calls v : Nat) : ∃ evs t', t.insert (calls + 2) k v = some (.ok,
      splitInit t.mem p t.alloc.currentAddr ++ splitLink t.mem p t.alloc.currentAddr
        ++ splitRefill t.mem p ++ evs, t') := by
  rcases insert_eq h hp calls v with ⟨p', i, _, _, hins⟩
  refine ⟨putAtPos p' i k v, (t.makeRoom p).2.run (putAtPos p' i k v), ?_⟩
  rw [hins, makeRoom_full hf]
  simp [splitEntry, h.alloc_eq]

/-- An `Insert`, of a key that is stored or not, loses no pair at any crash point
exactly when it does not split. -/
theorem crash_keeps_iff (h : Reachable f pm calls t) (hp : t.lookup k = some p) (v : Nat) :
    ∃ evs t', t.insert (calls + 2) k v = some (.ok, evs, t') ∧
      ((∀ img, CrashImage t.mem evs img → Keeps t.mem img t.head) ↔ ¬ Full t.mem p) := by
  rcases ReachableIf.base h with ⟨as, hsh, hu⟩
  by_cases hf : Full t.mem p
  · rcases insert_full hsh hp hf calls v with ⟨evs, t', hins⟩
    refine ⟨_, t', hins, ?_⟩
    constructor
    · intro hkeep
      -- the crash right after `memset` loses the lower half
      rcases List.append_of_mem (hsh.lookup_mem hp) with ⟨pre, post, rfl⟩
      rcases List.exists_mem_of_ne_nil _ (lowerKVs_ne_nil t.mem p) with ⟨x, hx⟩
      rcases cleared_loses hsh.cursor_pos hsh.walk hsh.nodup hsh.cursor_fresh hu hf hx with
        ⟨hx0, hold, hlost⟩
      exact absurd (hkeep _ (crashImage_cleared _ _ _ _) x.1 x.2 hx0 hold) (hlost x.2)
    · intro hno
      exact absurd hf hno
  · rcases insert_eq hsh hp calls v with ⟨p', i, hp', hslot, hins⟩
    rw [makeRoom_room hf] at hp' hslot hins
    refine ⟨_, _, hins, ?_⟩
    rcases findSlot_some hslot with ⟨hi, he, _⟩
    refine ⟨fun _ => hf, ?_⟩
    intro _ img himg
    exact crash_put hsh.walk (hsh.lookup_mem hp') hi he himg

theorem reachable_start {start : Start} (h : start.tree f pm = some t) :
    Reachable f pm calls t :=
  .init ⟨start, h⟩

theorem fresh_start {start : Start} (h : start.tree f pm = some t) (hk : ValidKey k)
    (hr : start.ref k = none) : Fresh t k :=
  ((rel_start h).2.none_iff (Nat.pos_iff_ne_zero.mp hk.1)).mp hr

set_option maxRecDepth 100000 in
/-- A key for the second entry, which has room, and one for the head, which is full. -/
theorem tens_crash_keeps_iff : ∃ t evs t' evs' t'', tens.tree sampleFile blank = some t ∧
    t.insert 2 160 1 = some (.ok, evs, t') ∧
    (∀ img, CrashImage t.mem evs img → Keeps t.mem img t.head) ∧
    t.insert 2 15 1 = some (.ok, evs', t'') ∧
    ¬ ∀ img, CrashImage t.mem evs' img → Keeps t.mem img t.head := by
  rcases tens.sound sampleFile blank with ⟨t, _, _, htree, _⟩
  have hlookup : ∀ t ∈ tens.tree sampleFile blank, t.lookup 160 = some 4352 ∧
      ¬ Full t.mem 4352 ∧ t.lookup 15 = some 4096 ∧ Full t.mem 4096 := by
    decide +kernel
  rcases hlookup t htree with ⟨hp, hroom, hp', hfull⟩
  rcases crash_keeps_iff (reachable_start htree) hp 1 with ⟨evs, t', hins, hiff⟩
  rcases crash_keeps_iff (reachable_start htree) hp' 1 with ⟨evs', t'', hins', hiff'⟩
  refine ⟨t, evs, t', evs', t'', htree, hins, hiff.mpr hroom, hins', ?_⟩
  rw [hiff', not_not]
  exact hfull

set_option maxRecDepth 100000 in
/-- The keys `10 .. 140` fill the head. `Insert` of `15` splits it, and a crash
after `memset` leaves a list without the key `10`. -/
theorem crash_loses_pair : ∃ t evs t' img, Reachable sampleFile blank 0 t ∧ Fresh t 15 ∧
    t.insert 2 15 1 = some (.ok, evs, t') ∧ CrashImage t.mem evs img ∧
    Stored t.mem t.head 10 0 ∧ ¬ Stored img t.head 10 0 := by
  rcases tens.sound sampleFile blank with ⟨t, _, _, htree, hs, _⟩
  have hlookup : ∀ t ∈ tens.tree sampleFile blank, t.lookup 15 = some 4096 ∧
      Full t.mem 4096 ∧ (10, 0) ∈ lowerKVs t.mem 4096 := by
    decide +kernel
  rcases hlookup t htree with ⟨hp, hf, hx⟩
  have hsh := hs.shape
  have hu := hs.unique
  rcases insert_full hsh hp hf 0 1 with ⟨evs, t', hins⟩
  rcases List.append_of_mem (hsh.lookup_mem hp) with ⟨pre, post, has⟩
  rw [has] at hsh hu
  rcases cleared_loses hsh.cursor_pos hsh.walk hsh.nodup hsh.cursor_fresh hu hf hx with
    ⟨_, hold, hlost⟩
  exact ⟨t, _, t', _, reachable_start htree, fresh_start htree (by decide) (by decide), hins,
    crashImage_cleared _ _ _ _, hold, hlost 0⟩

end Tree

end Epli
