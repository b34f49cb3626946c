import Epli.Crash
import Epli.Durable
import Epli.Restart

/-!
# Lives of a tree

A tree is restarted any number of times: after a call has returned, or in the middle of one. A
client that keeps clear of the defects met so far notices nothing of it. Every call that has
returned lasts, whatever unflushed lines a crash loses, and the one that was interrupted has
happened or not (`life_explained`).

A restarted tree differs from the one before it in its allocator, which hands out the blocks of
the list again. So `Alive` takes the tree with the allocator its list was built with.
-/

namespace Epli

open Lib Entry

namespace Tree

/-! ## Calls and crashes -/

/-- What happens to a tree. After a crash `img` is what the medium holds. -/
inductive Event where
  | call (op : Op)
  /-- A crash between two calls. -/
  | crash (img : Mem) (loadSize : Nat)
  /-- A crash in the middle of a call. -/
  | torn (op : Op) (img : Mem) (loadSize : Nat)

/-- The stores of a call. -/
def stores (calls : Nat) (t : Tree) : Op → Trace
  | .insert k v => ((t.insert calls k v).map fun r => r.2.1).getD []
  | .update k v => ((t.update k v).map fun r => r.2.1).getD []
  | .remove k => ((t.remove k).map fun r => r.2.1).getD []
  | .get _ => []

/-- A call answers. After a crash the file is mapped again and `Recover` is called. -/
def live (f : Mapping) (calls : Nat) (t : Tree) : Event → Option (Option Answer × Tree)
  | .call op => (t.step calls op).map fun r => (some r.1, r.2)
  | .crash img loadSize => (reopen f img loadSize).map fun t' => (none, t')
  | .torn _ img loadSize => (reopen f img loadSize).map fun t' => (none, t')

/-- A restart finds the list as the index has it, and its buffer is large enough. -/
def Recovers (t : Tree) (loadSize : Nat) : Prop :=
  NoKeyBelow t ∧ t.index.kvs.length ≤ loadSize / kvsPerEntry + 1

/-- A state between two stores of a call. -/
def between (t : Tree) (m : Mem) : Tree := { t with pm := ⟨m, t.pm.dirty⟩ }

/-- Where none of the defects is met. The words of a slot that does not straddle reach the medium
in the order in which they are stored. -/
def Survives (calls : Nat) (t : Tree) : Event → Prop
  | .call op => Contract t op ∧ SplitGuard t op ∧ PersistGuard t op ∧ BlockFresh t op
  | .crash img loadSize => t.pm.Image img ∧ Recovers t loadSize
  | .torn op img loadSize => Contract t op ∧ PersistGuard t op ∧ NoSplit t op ∧
      ∃ m, CrashImage t.mem (t.stores calls op) m ∧ (t.between m).pm.Image img ∧
        Recovers (t.between m) loadSize

/-- A life of the map. A crash takes nothing away, and the interrupted call has happened or
not. -/
inductive Life : Ref → List Event → List (Option Answer) → Ref → Prop where
  | nil {r : Ref} : Life r [] [] r
  | call {r r₁ r' : Ref} {op : Op} {ans : Answer} {es : List Event} {as : List (Option Answer)} :
      r.step op = some (ans, r₁) → Life r₁ es as r' →
      Life r (.call op :: es) (some ans :: as) r'
  | crash {r r' : Ref} {img : Mem} {loadSize : Nat} {es : List Event}
      {as : List (Option Answer)} : Life r es as r' →
      Life r (.crash img loadSize :: es) (none :: as) r'
  | before {r r' : Ref} {op : Op} {img : Mem} {loadSize : Nat} {es : List Event}
      {as : List (Option Answer)} : Life r es as r' →
      Life r (.torn op img loadSize :: es) (none :: as) r'
  | after {r r₁ r' : Ref} {op : Op} {ans : Answer} {img : Mem} {loadSize : Nat}
      {es : List Event} {as : List (Option Answer)} :
      r.step op = some (ans, r₁) → Life r₁ es as r' →
      Life r (.torn op img loadSize :: es) (none :: as) r'

variable {f : Mapping} {pm : Pmem Loc Nat} {calls loadSize : Nat} {t t' : Tree} {r r' : Ref}
  {op : Op} {ans : Answer} {as : List Nat} {s₀ k v p i : Nat} {rest : List (Nat × Nat)}
  {img : Mem} {alloc : Alloc}

/-! ## The same list in another tree -/

/-- The words of an entry that decide what is stored in it. -/
def Counts (m : Mem) (a : Nat) : Field → Prop
  | .next => True
  | .minKey => True
  | .flag => False
  | .key i => i < kvsPerEntry
  | .val i => i < kvsPerEntry ∧ m (a, .key i) ≠ invalidKey

/-- What counts is flushed before a call returns. -/
theorem Counts.kept {m : Mem} {a : Nat} {fld : Field} (h : Counts m a fld) : Kept fld := by
  cases fld with
  | next => trivial
  | minKey => trivial
  | flag => exact h
  | key i => exact h
  | val i => exact h.1

/-- The entries of `t` are stored in `t'` as well. -/
def SameList (t t' : Tree) : Prop :=
  ∀ a, Reaches (nextOf t.mem) null t.head a → ∀ fld, Counts t.mem a fld →
    t'.mem (a, fld) = t.mem (a, fld)

/-- Equal memories have the same list. -/
theorem sameList_of_eq (h : t'.mem = t.mem) : SameList t t' := fun a _ fld _ => by rw [h]

namespace SameList

/-- A word that counts, of an entry of the list, is the same. -/
theorem on (h : SameList t t') (hw : Walk (nextOf t.mem) null t.head as) {a : Nat} (ha : a ∈ as)
    {fld : Field} (hfld : Counts t.mem a fld) : t'.mem (a, fld) = t.mem (a, fld) :=
  h a ((reaches_iff_mem hw).mpr ha) fld hfld

/-- The list runs through the same entries. -/
theorem walk (h : SameList t t') (hhead : t'.head = t.head)
    (hw : Walk (nextOf t.mem) null t.head as) : Walk (nextOf t'.mem) null t'.head as := by
  rw [hhead]
  exact walk_congr (fun a ha => h.on hw ha (show Counts t.mem a .next from trivial)) hw

/-- The entries have the same keys in the same slots. -/
theorem key (h : SameList t t') (hw : Walk (nextOf t.mem) null t.head as) {a : Nat} (ha : a ∈ as)
    (hi : i < kvsPerEntry) : t'.mem (a, .key i) = t.mem (a, .key i) :=
  h.on hw ha (show Counts t.mem a (.key i) from hi)

/-- The entries have the same keys. -/
theorem hasKey (h : SameList t t') (hw : Walk (nextOf t.mem) null t.head as) {a : Nat}
    (ha : a ∈ as) : HasKey t'.mem a k ↔ HasKey t.mem a k := by
  constructor
  · rintro ⟨i, hi, hk⟩
    exact ⟨i, hi, by rw [← h.key hw ha hi, hk]⟩
  · rintro ⟨i, hi, hk⟩
    exact ⟨i, hi, by rw [h.key hw ha hi, hk]⟩

/-- The entries hold the same pairs. -/
theorem holds (h : SameList t t') (hw : Walk (nextOf t.mem) null t.head as) {a : Nat}
    (ha : a ∈ as) (hk : k ≠ invalidKey) : Holds t'.mem a k v ↔ Holds t.mem a k v := by
  constructor
  · rintro ⟨i, hi, hki, hvi⟩
    rw [h.key hw ha hi] at hki
    refine ⟨i, hi, hki, ?_⟩
    rw [← hvi]
    exact (h.on hw ha (show Counts t.mem a (.val i) from ⟨hi, by rwa [hki]⟩)).symm
  · rintro ⟨i, hi, hki, hvi⟩
    refine ⟨i, hi, by rw [h.key hw ha hi, hki], ?_⟩
    rw [← hvi]
    exact h.on hw ha (show Counts t.mem a (.val i) from ⟨hi, by rwa [hki]⟩)

/-- The same pairs are stored. -/
theorem stored (h : SameList t t') (hhead : t'.head = t.head)
    (hw : Walk (nextOf t.mem) null t.head as) (hk : k ≠ invalidKey) :
    Stored t'.mem t'.head k v ↔ Stored t.mem t.head k v := by
  rw [stored_iff (h.walk hhead hw), stored_iff hw]
  constructor
  · rintro ⟨a, ha, hh⟩
    exact ⟨a, ha, (h.holds hw ha hk).mp hh⟩
  · rintro ⟨a, ha, hh⟩
    exact ⟨a, ha, (h.holds hw ha hk).mpr hh⟩

/-- A key that was in one slot only still is. -/
theorem unique (h : SameList t t') (hw : Walk (nextOf t.mem) null t.head as)
    (hu : Unique t.mem as) : Unique t'.mem as := by
  constructor
  · intro a ha i hi j hj
    rw [h.key hw ha hi, h.key hw ha hj]
    exact hu.distinct a ha i hi j hj
  · intro a ha b hb hab k hk
    rw [h.hasKey hw ha, h.hasKey hw hb]
    exact hu.disjoint a ha b hb hab k hk

/-- What bounds an entry in the one tree bounds it in the other. -/
theorem bounded (h : SameList t t') (hw : Walk (nextOf t.mem) null t.head as) {a : Nat}
    (ha : a ∈ as) (hb : Bounded t'.mem a k) : Bounded t.mem a k := by
  rcases hb with ⟨hk, hhas⟩ | hmin
  · exact Or.inl ⟨hk, (h.hasKey hw ha).mp hhas⟩
  · rw [h.on hw ha (show Counts t.mem a .minKey from trivial)] at hmin
    exact Or.inr hmin

/-- Soundness depends on the list and the index alone, and on the allocator. -/
theorem sound (h : SameList t t') (hs : Sound t s₀ rest) (hhead : t'.head = t.head)
    (hindex : t'.index = t.index) (halloc : t'.alloc = t.alloc)
    (hvacated : t'.vacated = t.vacated) : Sound t' s₀ rest := by
  have hw := hs.shape.walk
  have hcells := hs.cells
  have hmem : ∀ x ∈ (0, t.head) :: rest, x.2 ∈ t.head :: rest.map Prod.snd := fun x hx =>
    List.mem_map_of_mem (f := Prod.snd) hx
  refine ⟨⟨?_, ?_, ?_, ?_, ?_, ?_, ?_, ?_⟩, ?_, ?_, ?_⟩
  · rw [halloc]
    exact hs.shape.base_pos
  · rw [halloc]
    exact hs.shape.base_aligned
  · rw [halloc, hhead]
    exact hs.shape.head_eq
  · have hw' := h.walk hhead hw
    rwa [← hhead] at hw'
  · rw [halloc, hhead]
    exact hs.shape.blocks
  · rw [halloc, hhead]
    exact hs.shape.cursor
  · rw [halloc, hhead]
    exact hs.shape.used
  · rw [hindex, hhead, hvacated]
    exact hs.shape.payloads
  · rw [hhead]
    exact h.unique hw hs.unique
  · rw [hindex, hhead]
    exact hs.index
  -- the separators are the index's own; the keys are those that `SameList` keeps
  · rw [hhead]
    refine ⟨hcells.ids, hcells.bounds, ?_, ?_⟩
    · intro x hx k hk
      exact hcells.low x hx k (h.bounded hw (hmem x hx) hk)
    · refine hcells.high.imp_of_mem ?_
      intro x y hx _ hxy k hk
      exact hxy k (h.bounded hw (hmem x hx) hk)

/-- A map that agrees with the one tree agrees with the other. -/
theorem agrees (h : SameList t t') (hw : Walk (nextOf t.mem) null t.head as)
    (hhead : t'.head = t.head) (hag : Agrees t r) : Agrees t' r := by
  intro k hk v
  rw [h.stored hhead hw hk]
  exact hag k hk v

/-- No key has come to be below its entry's `min_key`. -/
theorem noKeyBelow (h : SameList t t') (hw : Walk (nextOf t.mem) null t.head as)
    (hhead : t'.head = t.head) (hbelow : NoKeyBelow t) : NoKeyBelow t' := by
  intro a ha hne k hk
  have hmem := (reaches_iff_mem (h.walk hhead hw)).mp ha
  rw [h.on hw hmem (show Counts t.mem a .minKey from trivial)]
  refine hbelow a ((reaches_iff_mem hw).mpr hmem) ?_ k ⟨hk.1, (h.hasKey hw hmem).mp hk.2⟩
  rwa [← hhead]

end SameList

/-! ## Alive -/

/-- Every word of the list is clean. -/
def CleanList (t : Tree) : Prop :=
  ∀ a, Reaches (nextOf t.mem) null t.head a → ∀ fld : Field, fld.InEntry →
    t.pm.dirty (a, fld) = false

/-- A clean list, told by walking it. -/
theorem cleanList_iff (hw : Walk (nextOf t.mem) null t.head as) :
    CleanList t ↔ Clean t.pm as := by
  constructor
  · exact fun h a ha => h a ((reaches_iff_mem hw).mpr ha)
  · exact fun h a ha => h a ((reaches_iff_mem hw).mp ha)

/-- A crash leaves the list as it is. -/
theorem CleanList.image (h : CleanList t) (himg : t.pm.Image img) : SameList t (t.between img) :=
  fun a ha fld hfld => himg (a, fld) (h a ha fld hfld.kept.inEntry)

/-- The tree stores the pairs of the map, and none of it can be lost. It is sound, maybe with the
allocator of another process; then its own one hands out the second block of the list next. -/
structure Alive (f : Mapping) (t : Tree) (r : Ref) : Prop where
  head : t.head = f.addr
  agrees : Agrees t r
  clean : CleanList t
  sound : ∃ alloc s₀ rest, Sound { t with alloc := alloc } s₀ rest ∧
    (alloc = t.alloc ∨ rest ≠ [] ∧ (t.alloc.allocAligned entrySize 256).1 = f.addr + entrySize)

/-- A tree is alive from its start on. -/
theorem alive_start {start : Start} (h : start.tree f pm = some t) : Alive f t start.ref := by
  rcases start.sound f pm with ⟨t₀, s₀, rest, htree, hs, hag, _⟩
  cases h.symm.trans htree
  rcases clean_start h with ⟨as, hsh, hc⟩
  exact ⟨start_head h, hag, (cleanList_iff hsh.walk).mpr hc, t.alloc, s₀, rest, hs, Or.inl rfl⟩

/-! ### A call -/

/-- The contract of a client of the map. -/
theorem exists_ref_step (hag : Agrees t r) (hc : Contract t op) :
    ∃ ans r', r.step op = some (ans, r') := by
  cases op with
  | insert k v =>
    have hk : k ≠ invalidKey := Nat.pos_iff_ne_zero.mp hc.1.1
    exact ⟨_, _, if_pos ⟨hc.1, (hag.none_iff hk).mpr hc.2⟩⟩
  | update k v =>
    by_cases hr : r k = none
    · exact ⟨⟨.fail, none⟩, r, by simp [Ref.step, show ValidKey k from hc, hr]⟩
    · exact ⟨⟨.ok, none⟩, r.bind k (some v), by simp [Ref.step, show ValidKey k from hc, hr]⟩
  | remove k =>
    by_cases hr : r k = none
    · exact ⟨⟨.fail, none⟩, r, by simp [Ref.step, show ValidKey k from hc, hr]⟩
    · exact ⟨⟨.ok, none⟩, r.bind k none, by simp [Ref.step, show ValidKey k from hc, hr]⟩
  | get k =>
    cases hr : r k with
    | none => exact ⟨⟨.fail, some 0⟩, r, by simp [Ref.step, show ValidKey k from hc, hr]⟩
    | some v => exact ⟨⟨.ok, some v⟩, r, by simp [Ref.step, show ValidKey k from hc, hr]⟩

/-- No call moves the head. -/
theorem step_head (h : Shape t as) (hstep : t.step (calls + 2) op = some (ans, t')) :
    t'.head = t.head := by
  cases step_effect h hstep with
  | insert _ _ _ => rw [run_head, makeRoom_head]
  | update _ _ => rfl
  | remove _ _ => rfl
  | same _ => rfl

/-- A call of a tree with its own allocator. -/
theorem call_sound (calls : Nat) (hs : Sound t s₀ rest) (hag : Agrees t r) (hclean : CleanList t)
    (hc : Contract t op) (hsplit : SplitGuard t op) (hpersist : PersistGuard t op) :
    ∃ ans t' r' s₁ rest', t.step (calls + 2) op = some (ans, t') ∧ r.step op = some (ans, r') ∧
      Sound t' s₁ rest' ∧ Agrees t' r' ∧ CleanList t' ∧ t'.head = t.head := by
  rcases exists_ref_step hag hc with ⟨ans, r', hr⟩
  rcases rel_step calls ⟨⟨s₀, rest, hs⟩, hag⟩ hsplit hr with ⟨t', hstep, ⟨s₁, rest', hs'⟩, hag'⟩
  have hcl := (cleanList_iff hs.shape.walk).mp hclean
  rcases clean_step hs.shape hcl hpersist hstep with ⟨as', hsh', hc'⟩
  exact ⟨ans, t', r', s₁, rest', hstep, hr, hs', hag', (cleanList_iff hsh'.walk).mpr hc',
    step_head hs.shape hstep⟩

/-- A call that does not split does not ask the allocator. -/
theorem step_alloc (h : Shape { t with alloc := alloc } as) (hroom : NoSplit t op)
    (hstep : step (calls + 2) { t with alloc := alloc } op = some (ans, t')) :
    t.step (calls + 2) op = some (ans, { t' with alloc := t.alloc }) ∧ t'.alloc = alloc ∧
      t'.index = t.index := by
  cases op with
  | insert k v =>
    rcases h.exists_lookup k with ⟨p, hp, hpas⟩
    have hnull := h.pos hpas
    rcases insert_room hp hnull (hroom p hp) calls v with ⟨i, hf, heq⟩
    -- the two trees differ in their allocators only, so they store the same words
    rcases insert_room (s := t) hp hnull (hroom p hp) calls v with ⟨j, hf', heq'⟩
    cases hf.symm.trans hf'
    cases hstep.symm.trans heq
    exact ⟨heq', rfl, rfl⟩
  | update k v =>
    rcases h.exists_lookup k with ⟨p, hp, _⟩
    have hp' : t.lookup k = some p := hp
    simp only [step, Tree.update, hp, Option.bind_eq_bind, Option.bind_some, Option.map_some,
      Option.some.injEq, Prod.mk.injEq, Option.pure_def] at hstep
    rcases hstep with ⟨rfl, rfl⟩
    exact ⟨by simp [step, Tree.update, hp', run], rfl, rfl⟩
  | remove k =>
    rcases h.exists_lookup k with ⟨p, hp, _⟩
    have hp' : t.lookup k = some p := hp
    simp only [step, Tree.remove, hp, Option.bind_eq_bind, Option.bind_some, Option.map_some,
      Option.some.injEq, Prod.mk.injEq, Option.pure_def] at hstep
    rcases hstep with ⟨rfl, rfl⟩
    exact ⟨by simp [step, Tree.remove, hp', run], rfl, rfl⟩
  | get k =>
    rcases Option.map_eq_some_iff.mp hstep with ⟨x, hget, hx⟩
    cases hx
    have hget' : t.get k = some x := hget
    exact ⟨by simp [step, hget'], rfl, rfl⟩

/-- The second block is an entry of a list that has more than one. -/
theorem second_mem (hs : Sound { t with alloc := alloc } s₀ rest) (hhead : t.head = f.addr)
    (hrest : rest ≠ []) : f.addr + entrySize ∈ t.head :: rest.map Prod.snd := by
  have hpos := List.length_pos_of_ne_nil hrest
  have hbase : t.head = alloc.pmemAddr := hs.shape.head_eq
  refine hs.shape.mem_iff.mpr ⟨1, ?_, ?_⟩
  · rw [List.length_cons, List.length_map]
    omega
  · show _ = alloc.pmemAddr + _
    rw [← hbase, hhead, Nat.mul_one]

/-- After a restart the next block is the second one of the list, so a call that keeps off the
blocks of the list does not split. -/
theorem noSplit_of_fresh (hs : Sound { t with alloc := alloc } s₀ rest) (hhead : t.head = f.addr)
    (hrest : rest ≠ []) (hnext : (t.alloc.allocAligned entrySize 256).1 = f.addr + entrySize)
    (hfresh : BlockFresh t op) : NoSplit t op := by
  cases op with
  | insert k v =>
    intro p hp hf
    have hmem := second_mem hs hhead hrest
    have hdisj := hfresh p hp hf _ ((reaches_iff_mem hs.shape.walk).mpr hmem)
    -- the block that the split would take is the second one of the list
    rw [hnext] at hdisj
    rcases hdisj with hdisj | hdisj
    · simp only [entrySize] at hdisj
      omega
    · simp only [entrySize] at hdisj
      omega
  | update k v => trivial
  | remove k => trivial
  | get k => trivial

/-- Without a split there is no separator to guard. -/
theorem splitGuard_of_noSplit (hroom : NoSplit t op) : SplitGuard t op := by
  cases op with
  | insert k v => exact fun s p hx hf => absurd hf (hroom p (lookup_of_floor hx))
  | update k v => trivial
  | remove k => trivial
  | get k => trivial

/-- A call that does not split, whoever the allocator belongs to. -/
theorem call_noSplit (calls : Nat) (hs : Sound { t with alloc := alloc } s₀ rest)
    (hag : Agrees t r) (hclean : CleanList t) (hc : Contract t op) (hpersist : PersistGuard t op)
    (hroom : NoSplit t op) :
    ∃ ans t' r', t.step (calls + 2) op = some (ans, t') ∧ r.step op = some (ans, r') ∧
      Sound { t' with alloc := alloc } s₀ rest ∧ Agrees t' r' ∧ CleanList t' ∧
      t'.head = t.head ∧ t'.alloc = t.alloc ∧ t'.index = t.index := by
  -- the call is made on the sound tree, with the old allocator, and carried over
  have hsplit : SplitGuard { t with alloc := alloc } op := splitGuard_of_noSplit (t := t) hroom
  rcases call_sound calls hs hag hclean hc hsplit hpersist with
    ⟨ans, t', r', s₁, rest', hstep, hr, hs', hag', hclean', hhead'⟩
  rcases step_alloc hs.shape hroom hstep with ⟨hstep', halloc, hindex⟩
  subst halloc
  -- the index has not changed, so the separators have not
  have hkvs : t'.index.kvs = (s₁, t'.head) :: rest' := hs'.index
  have hkvs' : t.index.kvs = (s₀, t.head) :: rest := hs.index
  rw [hindex, hkvs'] at hkvs
  obtain ⟨hfirst, rfl⟩ := List.cons.inj hkvs
  obtain ⟨rfl, _⟩ := Prod.mk.inj hfirst
  exact ⟨ans, { t' with alloc := t.alloc }, r', hstep', hr, hs', hag', hclean', hhead', rfl,
    hindex⟩

/-- A call answers like the map, and the tree stays alive. -/
theorem Alive.call (h : Alive f t r) (hok : Survives (calls + 2) t (.call op)) :
    ∃ ans t' r', t.step (calls + 2) op = some (ans, t') ∧ r.step op = some (ans, r') ∧
      Alive f t' r' := by
  rcases hok with ⟨hc, hsplit, hpersist, hfresh⟩
  rcases h.sound with ⟨alloc, s₀, rest, hs, rfl | ⟨hrest, hnext⟩⟩
  -- the tree of the first process owns its allocator
  · rcases call_sound calls hs h.agrees h.clean hc hsplit hpersist with
      ⟨ans, t', r', s₁, rest', hstep, hr, hs', hag', hclean', hhead'⟩
    exact ⟨ans, t', r', hstep, hr, hhead'.trans h.head, hag', hclean', t'.alloc, s₁, rest', hs',
      Or.inl rfl⟩
  -- the tree of a later one must not split any more
  · have hroom := noSplit_of_fresh hs h.head hrest hnext hfresh
    rcases call_noSplit calls hs h.agrees h.clean hc hpersist hroom with
      ⟨ans, t', r', hstep, hr, hs', hag', hclean', hhead', halloc', _⟩
    exact ⟨ans, t', r', hstep, hr, hhead'.trans h.head, hag', hclean', alloc, s₀, rest, hs',
      Or.inr ⟨hrest, by rw [halloc', hnext]⟩⟩

/-! ### A restart -/

/-- After a restart everything read is on the medium. -/
theorem reopen_pm {t₁ : Tree} (h : reopen f img loadSize = some t₁) :
    t₁.pm = ⟨img, fun _ => false⟩ := by
  rw [reopen, create_recover_eq] at h
  simp only [recover, Option.bind_eq_bind, Option.bind_eq_some_iff] at h
  rcases h with ⟨_, _, _, _, ht⟩
  cases ht
  rfl

/-- The allocator of a new process fits a list of one entry. -/
theorem Sound.own (h : Sound { t with alloc := alloc } s₀ [])
    (halloc : t.alloc = (create true f pm).alloc) (hhead : t.head = f.addr) : Sound t s₀ [] := by
  rw [create_recover_eq] at halloc
  refine ⟨⟨?_, ?_, ?_, h.shape.walk, ?_, ?_, ?_, h.shape.payloads⟩, h.unique, h.index, h.cells⟩
  · rw [halloc]
    exact f.addr_pos
  · rw [halloc]
    exact mapping_aligned f
  · rw [halloc, hhead]
  · rw [halloc, hhead]
    simp
  · rw [halloc]
    simp
  · rw [halloc]
    simp

/-- A restart over the list of a tree gives back what is stored in it. -/
theorem reopen_alive (hs : Sound { t with alloc := alloc } s₀ rest) (hag : Agrees t r)
    (hhead : t.head = f.addr) (hrec : Recovers t loadSize) :
    ∃ t₁, reopen f t.mem loadSize = some t₁ ∧ Alive f t₁ r := by
  have hwalk : Walk (nextOf t.mem) null t.head (t.head :: rest.map Prod.snd) := hs.shape.walk
  have hkvs : t.index.kvs = (s₀, t.head) :: rest := hs.index
  have hasc : ((t.head :: rest.map Prod.snd).map (indexKV t.mem)).Pairwise
      fun x y => x.1 < y.1 := hs.minKeys_ascending
  have hlen : (t.head :: rest.map Prod.snd).length ≤ loadSize / kvsPerEntry + 1 := by
    have hcap := hrec.2
    rw [hkvs] at hcap
    simpa using hcap
  -- `Recover` collects the list in its buffer and loads the index from it
  have hwalk' := hwalk
  rw [hhead] at hwalk' hlen hasc
  rcases exists_reopen hwalk' hlen hasc with ⟨t₁, hopen⟩
  rcases reopen_spec hwalk' hopen with ⟨hmem, hhead₁, hindex, halloc⟩
  rw [← hhead] at hhead₁ hindex
  have hs₁ := reopen_sound hs hrec.1 hmem hhead₁ hindex (reopen_vacated hopen)
  refine ⟨t₁, hopen, hhead₁.trans hhead, ?_, ?_, ?_⟩
  · intro k hk v
    rw [hmem, hhead₁]
    exact hag k hk v
  · intro a _ fld _
    rw [reopen_pm hopen]
  -- the new allocator's next block is the second one: free only if the list has one entry
  · by_cases hrest : rest = []
    · subst hrest
      exact ⟨_, _, _, hs₁.own halloc (hhead₁.trans hhead), Or.inl rfl⟩
    · refine ⟨_, _, _, hs₁, Or.inr ⟨?_, ?_⟩⟩
      · rw [minCells, Ne, List.map_eq_nil_iff]
        exact hrest
      · rw [halloc, create_recover_eq, Alloc.allocAligned_of_aligned]
        have hpage := mapping_aligned f
        simp only [entrySize]
        omega

/-- Whether a restart finds the list is read off the list. -/
theorem Recovers.same (h : SameList t t') (hw : Walk (nextOf t.mem) null t.head as)
    (hhead : t'.head = t.head) (hindex : t'.index = t.index) (hrec : Recovers t loadSize) :
    Recovers t' loadSize :=
  ⟨h.noKeyBelow hw hhead hrec.1, by rw [hindex]; exact hrec.2⟩

/-- A crash loses nothing of a clean list. -/
theorem reopen_image (hs : Sound { t with alloc := alloc } s₀ rest) (hag : Agrees t r)
    (hclean : CleanList t) (hhead : t.head = f.addr) (himg : t.pm.Image img)
    (hrec : Recovers t loadSize) : ∃ t₁, reopen f img loadSize = some t₁ ∧ Alive f t₁ r := by
  have hsame := hclean.image himg
  have hs' : Sound { t.between img with alloc := alloc } s₀ rest :=
    SameList.sound (t := { t with alloc := alloc }) hsame hs rfl rfl rfl rfl
  exact reopen_alive hs' (hsame.agrees hs.shape.walk rfl hag) hhead
    (hrec.same hsame hs.shape.walk rfl rfl)

/-- A crash between two calls takes nothing away. -/
theorem Alive.crash (h : Alive f t r) (hok : Survives calls t (.crash img loadSize)) :
    ∃ t₁, reopen f img loadSize = some t₁ ∧ Alive f t₁ r := by
  rcases h.sound with ⟨alloc, s₀, rest, hs, _⟩
  exact reopen_image hs h.agrees h.clean h.head hok.1 hok.2

/-! ### A restart in the middle of a call -/

/-- One store is there or not. -/
theorem crashImage_store {m img : Mem} {l : Loc} {x n : Nat}
    (h : CrashImage m ([.store l x] ++ clflush n) img) : img = m ∨ img = setLoc m l x := by
  simp only [clflush, List.cons_append, List.nil_append, crashImage_cons, crashImage_nil,
    Ev.apply] at h
  rcases h with h | h | h
  · exact Or.inl h
  · exact Or.inr h
  · exact Or.inr h

/-- Between two stores of a call that does not split, the entries are those from before it or
those from after it. -/
theorem torn_sameList (hs : Shape { t with alloc := alloc } as) (hroom : NoSplit t op)
    (hstep : t.step (calls + 2) op = some (ans, t')) {m : Mem}
    (himg : CrashImage t.mem (t.stores (calls + 2) op) m) :
    SameList t (t.between m) ∨ m = t'.mem := by
  cases op with
  | insert k v =>
    rcases hs.exists_lookup k with ⟨p, hp, hpas⟩
    have hp' : t.lookup k = some p := hp
    have hnull := hs.pos hpas
    rcases maybePut_room k v (hroom p hp) with ⟨i, hf, hput⟩
    have hins : t.insert (calls + 2) k v = some (.ok, putAtPos p i k v,
        t.run (putAtPos p i k v)) := by
      simp [insert, hp', hnull, hput]
    rw [step, hins] at hstep
    cases hstep
    rw [stores, hins] at himg
    -- the first store is the value
    change CrashImage t.mem (.store (p, .val i) v ::
      ([.store (p, .key i) k] ++ clflush (p + Field.offset (.key i)))) m at himg
    rw [crashImage_cons] at himg
    rcases himg with himg | himg
    · exact Or.inl (sameList_of_eq himg)
    · rcases crashImage_store himg with rfl | rfl
      · -- its slot is empty still
        left
        intro a _ fld hfld
        refine setLoc_ne _ _ ?_
        rintro ⟨rfl, rfl⟩
        exact hfld.2 (findSlot_some hf).2.1
      · exact Or.inr rfl
  | update k v =>
    rcases hs.exists_lookup k with ⟨p, hp, _⟩
    -- one store to the value, or none when the key is not there
    rcases update_eq (t := t) hp v with ⟨_, hupd⟩ | ⟨i, _, _, _, hupd⟩
    · rw [stores, hupd] at himg
      exact Or.inl (sameList_of_eq (crashImage_nil.mp himg))
    · rw [step, hupd] at hstep
      cases hstep
      rw [stores, hupd] at himg
      rcases crashImage_store himg with rfl | rfl
      · exact Or.inl (sameList_of_eq rfl)
      · exact Or.inr rfl
  | remove k =>
    rcases hs.exists_lookup k with ⟨p, hp, _⟩
    -- one store to the key, or none when the key is not there
    rcases remove_eq (t := t) hp with ⟨_, hrem⟩ | ⟨i, _, _, _, hrem⟩
    · rw [stores, hrem] at himg
      exact Or.inl (sameList_of_eq (crashImage_nil.mp himg))
    · rw [step, hrem] at hstep
      cases hstep
      rw [stores, hrem] at himg
      rcases crashImage_store himg with rfl | rfl
      · exact Or.inl (sameList_of_eq rfl)
      · exact Or.inr rfl
  | get k => exact Or.inl (sameList_of_eq (crashImage_nil.mp himg))

/-- After a crash in the middle of a call the tree stores what it stored before or what it would
store after it. -/
theorem Alive.torn (h : Alive f t r) (hok : Survives (calls + 2) t (.torn op img loadSize)) :
    ∃ t₁, reopen f img loadSize = some t₁ ∧
      (Alive f t₁ r ∨ ∃ ans r', r.step op = some (ans, r') ∧ Alive f t₁ r') := by
  rcases hok with ⟨hc, hpersist, hroom, m, hcrash, himg, hrec⟩
  rcases h.sound with ⟨alloc, s₀, rest, hs, _⟩
  rcases call_noSplit calls hs h.agrees h.clean hc hpersist hroom with
    ⟨ans, t', r', hstep, hr, hs', hag', _, hhead', _, hindex'⟩
  have hclean := (cleanList_iff hs.shape.walk).mp h.clean
  -- the interrupted call has not happened
  rcases torn_sameList hs.shape hroom hstep hcrash with hsame | rfl
  · have hs₁ : Sound { t.between m with alloc := alloc } s₀ rest :=
      SameList.sound (t := { t with alloc := alloc }) hsame hs rfl rfl rfl rfl
    rcases reopen_image hs₁ (hsame.agrees hs.shape.walk rfl h.agrees)
      ((cleanList_iff hs₁.shape.walk).mpr hclean) h.head himg hrec with ⟨t₁, hopen, halive⟩
    exact ⟨t₁, hopen, Or.inl halive⟩
  -- all the stores of the call were made, and only its answer is missing
  · have hsame : SameList t' (t.between t'.mem) := sameList_of_eq rfl
    have hs₁ : Sound { t.between t'.mem with alloc := alloc } s₀ rest :=
      SameList.sound (t := { t' with alloc := alloc }) hsame hs' hhead'.symm hindex'.symm rfl
        (hs.routed.vacated.trans hs'.routed.vacated.symm)
    rcases reopen_image hs₁ (hsame.agrees hs'.shape.walk hhead'.symm hag')
      ((cleanList_iff hs₁.shape.walk).mpr hclean) h.head himg hrec with ⟨t₁, hopen, halive⟩
    exact ⟨t₁, hopen, Or.inr ⟨ans, r', hr, halive⟩⟩

/-! ## A whole life -/

/-- By induction on the life: what one call and one crash keep, a whole life keeps. -/
theorem Alive.life {es : List Event} : ∀ {t : Tree} {r : Ref}, Alive f t r →
    Along (live f (calls + 2)) (Survives (calls + 2)) t es →
    ∃ as t' r', runOps (live f (calls + 2)) t es = some (as, t') ∧ Life r es as r' ∧
      Alive f t' r' := by
  induction es with
  | nil => exact fun h _ => ⟨[], _, _, rfl, .nil, h⟩
  | cons e es ih =>
    intro t r h hok
    rcases hok with ⟨hok, hrest⟩
    cases e with
    | call op =>
      rcases h.call hok with ⟨ans, t₁, r₁, hstep, hr, h₁⟩
      have hlive : live f (calls + 2) t (.call op) = some (some ans, t₁) := by
        simp [live, hstep]
      rcases ih h₁ (hrest _ _ hlive) with ⟨as, t', r', hrun, hlife, h'⟩
      exact ⟨some ans :: as, t', r', by simp [runOps, hlive, hrun], .call hr hlife, h'⟩
    | crash img loadSize =>
      rcases h.crash hok with ⟨t₁, hopen, h₁⟩
      have hlive : live f (calls + 2) t (.crash img loadSize) = some (none, t₁) := by
        simp [live, hopen]
      rcases ih h₁ (hrest _ _ hlive) with ⟨as, t', r', hrun, hlife, h'⟩
      exact ⟨none :: as, t', r', by simp [runOps, hlive, hrun], .crash hlife, h'⟩
    | torn op img loadSize =>
      rcases h.torn hok with ⟨t₁, hopen, h₁⟩
      have hlive : live f (calls + 2) t (.torn op img loadSize) = some (none, t₁) := by
        simp [live, hopen]
      -- whether the interrupted call has happened decides which map the life goes on with
      rcases h₁ with h₁ | ⟨ans, r₁, hr, h₁⟩
      · rcases ih h₁ (hrest _ _ hlive) with ⟨as, t', r', hrun, hlife, h'⟩
        exact ⟨none :: as, t', r', by simp [runOps, hlive, hrun], .before hlife, h'⟩
      · rcases ih h₁ (hrest _ _ hlive) with ⟨as, t', r', hrun, hlife, h'⟩
        exact ⟨none :: as, t', r', by simp [runOps, hlive, hrun], .after hr hlife, h'⟩

/-- In every tree that is alive `Get` answers like the map. -/
theorem Alive.get (h : Alive f t r) (hk : ValidKey k) : t.get k = some (answer r k) := by
  rcases h.sound with ⟨alloc, s₀, rest, hs, _⟩
  exact rel_get (t := { t with alloc := alloc }) ⟨⟨s₀, rest, hs⟩, h.agrees⟩ hk

/-- Every life of a tree that keeps clear of the defects is one of the map it starts with. -/
theorem life_explained (f : Mapping) (pm : Pmem Loc Nat) (start : Start) :
    ∃ t₀, start.tree f pm = some t₀ ∧ ∀ (calls : Nat) (es : List Event),
      Along (live f (calls + 2)) (Survives (calls + 2)) t₀ es →
      ∃ as t' r', runOps (live f (calls + 2)) t₀ es = some (as, t') ∧
        Life start.ref es as r' ∧ ∀ k, ValidKey k → t'.get k = some (answer r' k) := by
  rcases start.sound f pm with ⟨t₀, _, _, htree, _⟩
  refine ⟨t₀, htree, fun calls es hok => ?_⟩
  rcases (alive_start htree).life hok with ⟨as, t', r', hrun, hlife, h'⟩
  exact ⟨as, t', r', hrun, hlife, fun k hk => h'.get hk⟩

/-- The condition is about the entries behind the head. -/
theorem noKeyBelow_single (hw : Walk (nextOf t.mem) null t.head [t.head]) : NoKeyBelow t := by
  intro a ha hne
  rw [reaches_iff_mem hw, List.mem_singleton] at ha
  exact absurd ha hne

/-- The file after an `Insert` into a fresh tree that was interrupted before its flush. -/
def unflushed : Mem :=
  exec (create false sampleFile blank).mem [.store (4096, .val 0) 10, .store (4096, .key 0) 1]

set_option maxRecDepth 100000 in
theorem life_explained_torn : ∃ as t' r', runOps (live sampleFile 2)
      (create false sampleFile blank) [.torn (.insert 1 10) unflushed 100,
        .crash unflushed 100, .call (.get 1)] = some (as, t') ∧
      Life Start.fresh.ref [.torn (.insert 1 10) unflushed 100, .crash unflushed 100,
        .call (.get 1)] as r' ∧ ∀ k, ValidKey k → t'.get k = some (answer r' k) := by
  rcases life_explained sampleFile blank .fresh with ⟨t₀, htree, hlife⟩
  have ht₀ : create false sampleFile blank = t₀ := Option.some.inj htree
  subst ht₀
  -- the head has room, and slot 0 does not straddle a line
  have hslot : ∀ p ∈ (create false sampleFile blank).lookup 1,
      ¬ Full (create false sampleFile blank).mem p ∧
        ∀ i ∈ findSlot (create false sampleFile blank).mem p invalidKey, ¬ Straddles i := by
    decide +kernel
  have hstores : (create false sampleFile blank).stores 2 (.insert 1 10) =
      [.store (4096, .val 0) 10, .store (4096, .key 0) 1, .flush 64] := by
    decide +kernel
  have hone : nextOf unflushed 4096 = null ∧ (create false sampleFile blank).head = 4096 ∧
      (create false sampleFile blank).index.kvs.length = 1 := by
    decide +kernel
  -- the restarted tree has the one entry again
  have hopen : ∀ t₁ ∈ reopen sampleFile unflushed 100, t₁.head = 4096 ∧
      t₁.index.kvs.length = 1 := by
    decide +kernel
  have hwalk : Walk (nextOf unflushed) null 4096 [4096] := ⟨rfl, by decide, hone.1⟩
  refine hlife 0 _ ⟨⟨⟨by decide, ?_⟩, ?_, ?_, unflushed, ⟨2, ?_, ?_⟩, fun _ _ => rfl, ?_, ?_⟩, ?_⟩
  · exact create_not_stored sampleFile blank (by decide)
  · exact fun p hp i hi => (hslot p hp).2 i hi
  · exact fun p hp => (hslot p hp).1
  · rw [hstores]
    decide
  · rw [hstores]
    rfl
  · refine noKeyBelow_single ?_
    show Walk (nextOf unflushed) null (create false sampleFile blank).head _
    rw [hone.2.1]
    exact hwalk
  · show (create false sampleFile blank).index.kvs.length ≤ _
    rw [hone.2.2]
    decide
  · intro ans t₁ hstep
    change (reopen sampleFile unflushed 100).map _ = some (ans, t₁) at hstep
    rcases Option.map_eq_some_iff.mp hstep with ⟨t₁', hopen', heq⟩
    cases heq
    have hpm := reopen_pm hopen'
    rcases hopen t₁ hopen' with ⟨hhead, hlen⟩
    refine ⟨⟨?_, noKeyBelow_single ?_, ?_⟩, fun _ t₂ _ => ⟨⟨?_, trivial, trivial, trivial⟩, ?_⟩⟩
    · rw [hpm]
      exact fun _ _ => rfl
    · rw [mem, hpm, hhead]
      exact hwalk
    · rw [hlen]
      decide
    · show ValidKey 1
      decide
    · exact fun _ _ _ => trivial

end Tree

end Epli
