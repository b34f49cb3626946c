import Epli.ClhtResize
import Epli.ClhtSlots

/-!
# What the threads of a CLHT do to the shared memory

`Effect` lists the changes that a step can make to the memory, with what the thread that
makes them owns. From it follows what every step leaves (`Evolves`): tables keep their
size, the keys of a bin stay in their slots, and a bin whose lock word is `LOCK_RESIZE`
never changes again; and what a step leaves that is not the owner's (`keeps`).

Owned are the bins between `LOCK_ACQ` and `LOCK_RLS`, `resize_lock`, and the *trigger*:
the one put for each table whose `IAF_U32` reaches the threshold goes to `ht_status`,
so at any time at most one thread is on its way to a resize of the current table.
-/

namespace Epli.Clht.Locks

open Lib Lib.SlotArray

variable {m m' : Mem} {pc pc' : Pc} {ht ht' bin bin' p k k' v v' : Nat} {w : LockWord}
  {t t' : SharedTable} {f : SharedTable → SharedTable}

/-! ## Reading a changed memory -/

namespace Mem

theorem tables_edit : (m.edit ht f).tables ht' =
    if ht' = ht then f (m.tables ht) else m.tables ht' := rfl

theorem lock_setLock : (m.setLock ht bin w).lock ht' bin' =
    if ht' = ht ∧ bin' = bin then w else m.lock ht' bin' := by
  unfold lock setLock
  rw [tables_edit]
  by_cases h : ht' = ht
  · subst h
    simp only [if_true, true_and]
    rfl
  · simp [h]

@[simp] theorem hashtable_setLock : ((m.setLock ht bin w).tables ht').ht = (m.tables ht').ht := by
  unfold setLock
  rw [tables_edit]
  split
  · rename_i h
    rw [h]
  · rfl

@[simp] theorem chain_setLock : (m.setLock ht bin w).chain ht' bin' = m.chain ht' bin' := by
  unfold chain
  rw [hashtable_setLock]

@[simp] theorem lock_setChain {c : Chain} :
    (m.setChain ht bin c).lock ht' bin' = m.lock ht' bin' := by
  unfold lock setChain
  rw [tables_edit]
  split
  · rename_i h
    rw [h]
  · rfl

theorem chain_setChain {c : Chain} : (m.setChain ht bin c).chain ht' bin' =
    if ht' = ht ∧ bin' = bin then c else m.chain ht' bin' := by
  unfold chain setChain
  rw [tables_edit]
  by_cases h : ht' = ht
  · subst h
    simp only [if_true, true_and]
    rfl
  · simp [h]

@[simp] theorem lock_countExpand : (m.countExpand ht).lock ht' bin' = m.lock ht' bin' := by
  unfold lock countExpand
  rw [tables_edit]
  split
  · rename_i h
    rw [h]
  · rfl

@[simp] theorem chain_countExpand : (m.countExpand ht).chain ht' bin' = m.chain ht' bin' := by
  unfold chain countExpand
  rw [tables_edit]
  split
  · rename_i h
    rw [h]
  · rfl

@[simp] theorem lock_setNew : (m.setNew ht).lock ht' bin' = m.lock ht' bin' := by
  unfold lock setNew
  rw [tables_edit]
  split
  · rename_i h
    rw [h]
  · rfl

@[simp] theorem hashtable_setNew : ((m.setNew ht).tables ht').ht = (m.tables ht').ht := by
  unfold setNew
  rw [tables_edit]
  split
  · rename_i h
    rw [h]
  · rfl

@[simp] theorem chain_setNew : (m.setNew ht).chain ht' bin' = m.chain ht' bin' := by
  unfold chain
  rw [hashtable_setNew]

/-- The swap leaves every table published so far where it is. -/
theorem tables_publish_le {new : Hashtable} (h : ht ≤ m.ht) :
    (m.publish new).tables ht = m.tables ht := setLoc_ne _ _ (by omega)

/-- The swapped-in table starts with all its locks free and its `table_new` unset. -/
theorem tables_publish_new {new : Hashtable} :
    (m.publish new).tables (m.ht + 1) = ⟨new, fun _ => .free, false⟩ := setLoc_self _ _ _

end Mem

/-! ## Ownership -/

/-- What a thread can own. -/
inductive Res where
  | bin (ht bin : Nat)
  | resizeLock
  | trigger

/-- The bin that a thread has locked. -/
def Pc.section : Pc → Option (Nat × Nat)
  | .scan _ ht bin _ _ | .fill _ _ _ ht bin _ | .bind _ _ _ ht bin _ | .grow _ _ _ ht bin
  | .link _ _ _ ht bin _ | .assign _ _ ht bin _ | .erase _ ht bin _ _ | .choose ht bin
  | .clear ht bin _ _ | .unlock ht bin _ => some (ht, bin)
  | _ => none

/-- The thread has `resize_lock`. -/
def Pc.resizing : Pc → Bool
  | .copy _ _ | .copyBucket _ _ _ | .swap _ | .setNew _ _ | .unlockResize _ => true
  | _ => false

/-- The thread goes to resize the table that is current now. -/
def Pc.triggered : Pc → Bool
  | .link _ _ _ _ _ asked => asked
  | .unlock _ _ (.status _) => true
  | .status _ | .resize _ _ | .tryLock _ _ _ | .copy _ _ | .copyBucket _ _ _ | .swap _ => true
  | .setNew _ again | .unlockResize again => again
  | _ => false

def Pc.holds (pc : Pc) : Res → Prop
  | .bin ht bin => pc.section = some (ht, bin)
  | .resizeLock => pc.resizing = true
  | .trigger => pc.triggered = true

/-- The current table has reached its threshold. -/
def Mem.Expanded (m : Mem) : Prop :=
  (m.tables m.ht).ht.numExpandsThreshold ≤ (m.tables m.ht).ht.numExpands

/-- Somebody owns the resource, or has owned the trigger of the current table. -/
def Mem.taken (m : Mem) : Res → Prop
  | .bin ht bin => ht ≤ m.ht ∧ m.lock ht bin = .update
  | .resizeLock => m.resizeLock = true
  | .trigger => m.Expanded

/-- What a step of anybody else leaves alone. -/
def keeps : Res → Mem → Mem → Prop
  | .bin ht bin, m, m' => m'.lock ht bin = m.lock ht bin ∧ m'.chain ht bin = m.chain ht bin
  | .resizeLock, m, m' => m'.ht = m.ht ∧ m'.resizeLock = m.resizeLock ∧
      ∀ bin, m'.lock m.ht bin = .resize → m.lock m.ht bin = .resize
  | .trigger, m, m' => m'.ht = m.ht

/-! ## What every step leaves -/

/-- What a step may do to a table. -/
structure SharedTable.Evolves (t t' : SharedTable) : Prop where
  numBuckets : t'.ht.numBuckets = t.ht.numBuckets
  hash : t'.ht.hash = t.ht.hash
  threshold : t'.ht.numExpandsThreshold = t.ht.numExpandsThreshold
  expands : t.ht.numExpands ≤ t'.ht.numExpands
  tableNew : t.tableNew = true → t'.tableNew = true
  fixed : ∀ bin < t.ht.numBuckets, Fixed 0 (t.ht.table bin).slots (t'.ht.table bin).slots
  length : ∀ bin, (t.ht.table bin).slots.length ≤ (t'.ht.table bin).slots.length
  frozen : ∀ bin, t.lock bin = .resize → t'.lock bin = .resize ∧ t'.ht.table bin = t.ht.table bin

structure Evolves (m m' : Mem) : Prop where
  ht : m.ht ≤ m'.ht
  table : ∀ ht ≤ m.ht, (m.tables ht).Evolves (m'.tables ht)
  swap : m.ht < m'.ht → ∀ ht ≤ m.ht, m'.tables ht = m.tables ht

theorem SharedTable.Evolves.refl (hw : t.ht.Wf) : t.Evolves t :=
  ⟨rfl, rfl, rfl, UInt32.le_refl _, id, fun _ hbin => (hw.uniq hbin).fixed, fun _ => le_refl _,
    fun _ h => ⟨h, rfl⟩⟩

/-- The tables so far are well formed, and a replaced one is frozen. -/
structure Glob (m : Mem) : Prop where
  wf : ∀ ht ≤ m.ht, (m.tables ht).ht.Wf
  frozen : ∀ ht < m.ht, ∀ bin < m.numBuckets ht, m.lock ht bin = .resize
  thawed : m.resizeLock = false → ∀ bin < m.numBuckets m.ht, m.lock m.ht bin ≠ .resize

theorem Evolves.refl (hg : Glob m) : Evolves m m :=
  ⟨le_refl _, fun _ hle => .refl (hg.wf _ hle), fun hlt => absurd hlt (lt_irrefl _)⟩

/-- A change of one table. -/
theorem Evolves.edit (hg : Glob m) (h : (m.tables ht).Evolves (f (m.tables ht))) :
    Evolves m (m.edit ht f) := by
  refine ⟨le_refl _, ?_, fun hlt => absurd hlt (lt_irrefl _)⟩
  intro ht' hle
  rw [Mem.tables_edit]
  split
  · rename_i heq
    rw [heq]
    exact h
  · exact .refl (hg.wf _ hle)

/-- A thread owns a bin. -/
structure Owns (m : Mem) (ht bin : Nat) : Prop where
  le : ht ≤ m.ht
  bin_lt : bin < m.numBuckets ht
  lock : m.lock ht bin = .update

/-- In an owned bin every non-zero key stands once. -/
theorem Owns.uniq (ho : Owns m ht bin) (hg : Glob m) : Uniq 0 (m.slots ht bin) :=
  (hg.wf _ ho.le).uniq ho.bin_lt

/-- A bin in use is one of the current table. -/
theorem Owns.current (ho : Owns m ht bin) (hg : Glob m) : ht = m.ht := by
  -- every bin of a swapped-out table is frozen, and an owned one is not
  rcases Nat.lt_or_eq_of_le ho.le with hlt | heq
  · have hfrozen := hg.frozen ht hlt bin ho.bin_lt
    rw [ho.lock] at hfrozen
    cases hfrozen
  · exact heq

/-! ## The effects -/

/-- What a step of a thread at `pc` can do to the memory. -/
inductive Effect (m : Mem) (pc : Pc) : Mem → Prop where
  | quiet : Effect m pc m
  | lock {ht bin : Nat} : ht ≤ m.ht → m.lock ht bin = .free →
      Effect m pc (m.setLock ht bin .update)
  | unlock {ht bin : Nat} : pc.section = some (ht, bin) → Owns m ht bin →
      Effect m pc (m.setLock ht bin .free)
  | freeze {bin : Nat} : pc.resizing = true → m.resizeLock = true → m.lock m.ht bin = .free →
      Effect m pc (m.setLock m.ht bin .resize)
  | write {ht bin p k v k' v' : Nat} : pc.section = some (ht, bin) → Owns m ht bin →
      (m.slots ht bin)[p]? = some (k, v) → Admits 0 (m.slots ht bin) k k' →
      (k' ≠ 0 → m.clhtHash ht k' = bin) → Effect m pc (m.setSlot ht bin p (k', v'))
  | count {ht bin : Nat} : pc.section = some (ht, bin) → Owns m ht bin →
      (m.tables ht).ht.numExpands.toNat + 1 < 2 ^ 32 → Effect m pc (m.countExpand ht)
  | link {ht bin k v : Nat} {r : Raw} : pc.section = some (ht, bin) → Owns m ht bin → k ≠ 0 →
      m.clhtHash ht k = bin → (∀ p v : Nat, (m.slots ht bin)[p]? ≠ some (k, v)) →
      Effect m pc (m.setChain ht bin ((m.chain ht bin).expand r k v))
  | takeResize : m.resizeLock = false → Effect m pc { m with resizeLock := true }
  | dropResize : pc.resizing = true → (∀ bin < m.numBuckets m.ht, m.lock m.ht bin ≠ .resize) →
      Effect m pc { m with resizeLock := false }
  | publish {new : Hashtable} : pc.resizing = true → pc.triggered = true → m.resizeLock = true →
      new.Wf → (∀ bin < m.numBuckets m.ht, m.lock m.ht bin = .resize) →
      Effect m pc (m.publish new)
  | setNew {ht : Nat} : pc.resizing = true → ht ≤ m.ht → Effect m pc (m.setNew ht)

/-- Any store to a lock word is an evolution, as long as it does not thaw a bin that a resize
froze. -/
theorem Evolves.setLock (hg : Glob m) (hle : ht ≤ m.ht) (hne : m.lock ht bin ≠ .resize) :
    Evolves m (m.setLock ht bin w) := by
  refine Evolves.edit hg ⟨rfl, rfl, rfl, UInt32.le_refl _, id,
    fun _ hbin => ((hg.wf ht hle).uniq hbin).fixed, fun _ => le_refl _, ?_⟩
  intro bin' hlock
  refine ⟨?_, rfl⟩
  -- a frozen bin keeps its lock word: the one stored to was not frozen
  have hother : bin' ≠ bin := by
    rintro rfl
    exact hne hlock
  exact (setLoc_ne _ _ hother).trans hlock

/-- The owner of a bin changes its slots. -/
theorem Evolves.setChain {c : Chain} (hg : Glob m) (ho : Owns m ht bin)
    (hfixed : Fixed 0 (m.slots ht bin) c.slots)
    (hlen : (m.slots ht bin).length ≤ c.slots.length) : Evolves m (m.setChain ht bin c) := by
  have htable : ∀ bin', ((m.tables ht).ht.setBin bin c).table bin' =
      if bin' = bin then c else (m.tables ht).ht.table bin' := fun _ => rfl
  refine Evolves.edit hg ⟨rfl, rfl, rfl, UInt32.le_refl _, id, ?_, ?_, ?_⟩
  · intro bin' hbin'
    rw [htable]
    split
    · rename_i heq
      rw [heq]
      exact hfixed
    · exact ((hg.wf ht ho.le).uniq hbin').fixed
  · intro bin'
    rw [htable]
    split
    · rename_i heq
      rw [heq]
      exact hlen
    · exact le_refl _
  · intro bin' hlock
    refine ⟨hlock, ?_⟩
    rw [htable, if_neg]
    rintro rfl
    have := ho.lock
    unfold Mem.lock at this
    rw [hlock] at this
    cases this

/-- Whatever a step writes, the tables only evolve: the frozen bins keep their chains and the
thrown-away tables stay as they are. -/
theorem Effect.evolves (hg : Glob m) (h : Effect m pc m') : Evolves m m' := by
  cases h with
  | quiet => exact .refl hg
  | lock hle hlock => exact .setLock hg hle (by rw [hlock]; decide)
  | unlock _ ho => exact .setLock hg ho.le (by rw [ho.lock]; decide)
  | freeze _ _ hlock => exact .setLock hg (le_refl _) (by rw [hlock]; decide)
  | write _ ho hp ha _ =>
    -- a key is never replaced by another one in place, so what is fixed stays fixed
    refine .setChain hg ho ?_ ?_
    · rw [Chain.slots_setSlot]
      exact fixed_set (ho.uniq hg) hp ha
    · rw [Chain.slots_setSlot, List.length_set]
      exact le_refl _
  | count _ ho hwrap =>
    refine .edit hg ⟨rfl, rfl, rfl, ?_, id, fun _ hbin => ((hg.wf _ ho.le).uniq hbin).fixed,
      fun _ => le_refl _, fun _ hlock => ⟨hlock, rfl⟩⟩
    -- `num_expands` only grows below the wrap
    rw [UInt32.le_iff_toNat_le, UInt32.toNat_add]
    have hmod := Nat.mod_eq_of_lt hwrap
    rw [show (1 : UInt32).toNat = 1 from rfl, hmod]
    exact Nat.le_succ _
  | @link _ _ _ _ r _ ho _ _ hno =>
    -- the new bucket holds the pair in its first slot, the other two are empty
    have hfree : ∀ s ∈ [(0, r.val1), (0, r.val2)], s.1 = 0 := by simp
    refine .setChain hg ho ?_ ?_
    · rw [Chain.slots_expand]
      exact fixed_append (ho.uniq hg) hfree hno
    · rw [Chain.slots_expand, List.length_append]
      exact Nat.le_add_right _ _
  | takeResize _ =>
    exact ⟨le_refl _, fun _ hle => .refl (hg.wf _ hle), fun hlt => absurd hlt (lt_irrefl _)⟩
  | dropResize _ _ =>
    exact ⟨le_refl _, fun _ hle => .refl (hg.wf _ hle), fun hlt => absurd hlt (lt_irrefl _)⟩
  | publish _ _ _ _ _ =>
    -- the swap adds a table and leaves the others as they are
    refine ⟨Nat.le_succ _, ?_, fun _ ht hle => Mem.tables_publish_le hle⟩
    intro ht hle
    rw [Mem.tables_publish_le hle]
    exact .refl (hg.wf _ hle)
  | setNew _ hle =>
    exact .edit hg ⟨rfl, rfl, rfl, UInt32.le_refl _, fun _ => rfl,
      fun _ hbin => ((hg.wf _ hle).uniq hbin).fixed, fun _ => le_refl _,
      fun _ hlock => ⟨hlock, rfl⟩⟩

/-- What belongs to others is left alone. -/
theorem Effect.keeps {x : Res} (h : Effect m pc m') (htaken : m.taken x) (hx : ¬ pc.holds x) :
    keeps x m m' := by
  cases x with
  | bin ht bin =>
    rcases htaken with ⟨hle, hlock⟩
    -- the bin is not the one that the step is about
    have hown : ∀ {ht' bin'}, pc.section = some (ht', bin') → ¬ (ht = ht' ∧ bin = bin') := by
      rintro ht' bin' hs ⟨rfl, rfl⟩
      exact hx hs
    have hfree : ∀ {ht' bin'}, m.lock ht' bin' = .free → ¬ (ht = ht' ∧ bin = bin') := by
      rintro ht' bin' hl ⟨rfl, rfl⟩
      rw [hlock] at hl
      cases hl
    cases h with
    | quiet => exact ⟨rfl, rfl⟩
    | lock _ hl => exact ⟨by rw [Mem.lock_setLock, if_neg (hfree hl)], Mem.chain_setLock⟩
    | unlock hs _ => exact ⟨by rw [Mem.lock_setLock, if_neg (hown hs)], Mem.chain_setLock⟩
    | freeze _ _ hl => exact ⟨by rw [Mem.lock_setLock, if_neg (hfree hl)], Mem.chain_setLock⟩
    | write hs _ _ _ _ => exact ⟨Mem.lock_setChain, by rw [Mem.setSlot, Mem.chain_setChain,
        if_neg (hown hs)]⟩
    | count _ _ _ => exact ⟨Mem.lock_countExpand, Mem.chain_countExpand⟩
    | link hs _ _ _ _ => exact ⟨Mem.lock_setChain, by rw [Mem.chain_setChain, if_neg (hown hs)]⟩
    | takeResize _ => exact ⟨rfl, rfl⟩
    | dropResize _ _ => exact ⟨rfl, rfl⟩
    | publish _ _ _ _ _ =>
      exact ⟨by rw [Mem.lock, Mem.tables_publish_le hle, Mem.lock],
        by rw [Mem.chain, Mem.tables_publish_le hle, Mem.chain]⟩
    | setNew _ _ => exact ⟨Mem.lock_setNew, Mem.chain_setNew⟩
  | resizeLock =>
    -- the lock's owner is the only one that freezes bins
    have hlock : ∀ {ht' bin' w}, w ≠ LockWord.resize → ∀ bin,
        (m.setLock ht' bin' w).lock m.ht bin = .resize → m.lock m.ht bin = .resize := by
      intro ht' bin' w hw bin hl
      rw [Mem.lock_setLock] at hl
      split at hl
      · exact absurd hl hw
      · exact hl
    cases h with
    | quiet => exact ⟨rfl, rfl, fun _ => id⟩
    | lock _ _ => exact ⟨rfl, rfl, hlock (by decide)⟩
    | unlock _ _ => exact ⟨rfl, rfl, hlock (by decide)⟩
    | freeze hr _ _ => exact absurd hr hx
    | write _ _ _ _ _ => exact ⟨rfl, rfl, fun _ hl => by rwa [Mem.setSlot, Mem.lock_setChain] at hl⟩
    | count _ _ _ => exact ⟨rfl, rfl, fun _ hl => by rwa [Mem.lock_countExpand] at hl⟩
    | link _ _ _ _ _ => exact ⟨rfl, rfl, fun _ hl => by rwa [Mem.lock_setChain] at hl⟩
    | takeResize hr => exact absurd (htaken.symm.trans hr) (by decide)
    | dropResize hr _ => exact absurd hr hx
    | publish hr _ _ _ _ => exact absurd hr hx
    | setNew hr _ => exact absurd hr hx
  | trigger =>
    cases h with
    -- only the swap changes which table is current, and it needs the trigger
    | publish _ htr _ _ _ => exact absurd htr hx
    | _ => rfl

/-- A change of one table that leaves it well formed. -/
theorem Glob.wf_edit (hg : Glob m) (h : (f (m.tables ht)).ht.Wf) :
    ∀ ht' ≤ (m.edit ht f).ht, ((m.edit ht f).tables ht').ht.Wf := by
  intro ht' hle
  rw [Mem.tables_edit]
  split
  · exact h
  · exact hg.wf ht' hle

/-- Every step keeps the shape of every table published so far. -/
theorem Effect.wf (hg : Glob m) (h : Effect m pc m') :
    ∀ ht ≤ m'.ht, (m'.tables ht).ht.Wf := by
  cases h with
  | quiet => exact hg.wf
  | lock hle _ => exact hg.wf_edit (hg.wf _ hle)
  | unlock _ ho => exact hg.wf_edit (hg.wf _ ho.le)
  | freeze _ _ _ => exact hg.wf_edit (hg.wf _ (le_refl _))
  | write _ ho hp ha hkey =>
    exact hg.wf_edit ((hg.wf _ ho.le).setSlot ho.bin_lt hp ha hkey)
  | count _ ho _ =>
    -- the count is no part of the shape
    have hw := hg.wf _ ho.le
    exact hg.wf_edit ⟨hw.pow, hw.bound, hw.hash, hw.keyed, hw.nodup⟩
  | @link ht bin k v r _ ho hk hkey hno =>
    subst hkey
    have hrep : Replaces [] [(k, v)] (m.chain ht (m.clhtHash ht k)).pairs
        ((m.chain ht (m.clhtHash ht k)).expand r k v).pairs := by
      rw [Chain.expand_pairs hk]
      exact ⟨_, .refl _, List.perm_append_singleton _ _⟩
    exact hg.wf_edit ((hg.wf _ ho.le).put ((hg.wf _ ho.le).absent hno) hrep).1
  | takeResize _ => exact hg.wf
  | dropResize _ _ => exact hg.wf
  | publish _ _ _ hw _ =>
    intro ht hle
    rcases Nat.lt_or_eq_of_le hle with hlt | rfl
    · rw [Mem.tables_publish_le (Nat.lt_succ_iff.mp hlt)]
      exact hg.wf ht (Nat.lt_succ_iff.mp hlt)
    -- the table that the resize filled is well formed by the effect's own condition
    · show ((m.publish _).tables (m.ht + 1)).ht.Wf
      rw [Mem.tables_publish_new]
      exact hw
  | setNew _ hle => exact hg.wf_edit (hg.wf _ hle)

/-- A step that leaves the resize lock free leaves no bin of the current table frozen. -/
theorem Effect.thawed (hg : Glob m) (h : Effect m pc m') (hfree : m'.resizeLock = false) :
    ∀ bin < m'.numBuckets m'.ht, m'.lock m'.ht bin ≠ .resize := by
  -- without a swap the bins in question are the same ones
  have hnb : m'.ht = m.ht → m'.numBuckets m'.ht = m.numBuckets m.ht := by
    intro heq
    rw [heq]
    exact ((h.evolves hg).table _ (le_refl _)).numBuckets
  cases h with
  | quiet => exact hg.thawed hfree
  | lock _ _ =>
    intro bin hbin
    rw [hnb rfl] at hbin
    rw [Mem.lock_setLock]
    split
    · decide
    · exact hg.thawed hfree bin hbin
  | unlock _ _ =>
    intro bin hbin
    rw [hnb rfl] at hbin
    rw [Mem.lock_setLock]
    split
    · decide
    · exact hg.thawed hfree bin hbin
  -- freezing and the swap need the resize lock, so they are not such steps
  | freeze _ hr _ => exact absurd (hr.symm.trans hfree) (by decide)
  | write _ _ _ _ _ =>
    intro bin hbin
    rw [hnb rfl] at hbin
    rw [Mem.setSlot, Mem.lock_setChain]
    exact hg.thawed hfree bin hbin
  | count _ _ _ =>
    intro bin hbin
    rw [hnb rfl] at hbin
    rw [Mem.lock_countExpand]
    exact hg.thawed hfree bin hbin
  | link _ _ _ _ _ =>
    intro bin hbin
    rw [hnb rfl] at hbin
    rw [Mem.lock_setChain]
    exact hg.thawed hfree bin hbin
  | takeResize _ => cases hfree
  | dropResize _ hno => exact hno
  | publish _ _ hr _ _ => exact absurd (hr.symm.trans hfree) (by decide)
  | setNew _ _ =>
    intro bin hbin
    rw [hnb rfl] at hbin
    rw [Mem.lock_setNew]
    exact hg.thawed hfree bin hbin

/-- One step keeps the whole global invariant. -/
theorem Effect.glob (hg : Glob m) (h : Effect m pc m') : Glob m' := by
  have hev := h.evolves hg
  refine ⟨h.wf hg, ?_, h.thawed hg⟩
  -- a table that has just been replaced was frozen bin by bin
  have hold : ∀ ht ≤ m.ht, (∀ bin < m.numBuckets ht, m.lock ht bin = .resize) →
      ∀ bin < m'.numBuckets ht, m'.lock ht bin = .resize := by
    intro ht hle hfrozen bin hbin
    have ht' := hev.table ht hle
    unfold Mem.numBuckets at hbin
    rw [ht'.numBuckets] at hbin
    exact (ht'.frozen bin (hfrozen bin hbin)).1
  intro ht hlt
  by_cases hle : ht < m.ht
  · exact hold ht (by omega) (hg.frozen ht hle)
  · cases h with
    | publish _ _ _ _ hall =>
      have heq : ht = m.ht := by
        have : ht < m.ht + 1 := hlt
        omega
      subst heq
      exact hold m.ht (le_refl _) hall
    | _ => exact absurd hlt hle

end Epli.Clht.Locks
