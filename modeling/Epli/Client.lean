import Epli.BulkLoad

/-!
# Clients of a tree

A client starts from a fresh or a bulk loaded tree and calls `Insert`, `Update`,
`Remove` and `Get` on valid keys, `Insert` only on keys that are not stored.

Three layers of facts about what it meets:

* in every state the list has its shape and stores no key twice (`Reachable.base`);
* as long as every split satisfies `SplitOk`, the tree answers as a finite map;
* as long as every split satisfies the stricter `SplitStrict`, the list and the
  index stay in step (`Ordered`).
-/

namespace Epli

open Lib Entry

namespace Tree

variable {f : Mapping} {pm : Pmem Loc Nat} {calls : Nat}

/-! ## Starting -/

/-- How a client starts: on a fresh tree, or after one `BulkLoad` of more than
`KVS_PER_ENTRY` strictly ascending keys. -/
inductive Start where
  | fresh
  | bulk (kvs : List KV) (long : kvsPerEntry < kvs.length)
      (ascending : kvs.Pairwise fun a b => a.1 < b.1)

namespace Start

/-- The tree a client starts with. -/
def tree (f : Mapping) (pm : Pmem Loc Nat) : Start → Option Tree
  | fresh => some (create false f pm)
  | bulk kvs _ _ => (create false f pm).bulkLoad kvs

/-- The map a client starts with. -/
def ref : Start → Ref
  | fresh => fun _ => none
  | bulk kvs _ _ => fun k => kvs.lookup k

theorem lookup_eq_some_iff : ∀ {kvs : List KV}, (kvs.Pairwise fun a b => a.1 < b.1) →
    ∀ {k v : Nat}, kvs.lookup k = some v ↔ (k, v) ∈ kvs
  | [], _, _, _ => by simp
  | (a, b) :: kvs, h, k, v => by
    rw [List.pairwise_cons] at h
    have ih := lookup_eq_some_iff h.2 (k := k) (v := v)
    rw [List.lookup_cons, List.mem_cons, Prod.mk.injEq]
    by_cases hk : k = a
    · subst hk
      have hno : (k, v) ∉ kvs := fun hmem => lt_irrefl k (h.1 _ hmem)
      simp [hno, eq_comm]
    · have hk' : (k == a) = false := by simpa using hk
      rw [hk', ih]
      simp [hk]

/-- Every start gives a sound tree that stores the map's pairs. The first
separator is `INVALID_KEY` on a fresh tree, and below all others in any case. -/
theorem sound (start : Start) (f : Mapping) (pm : Pmem Loc Nat) :
    ∃ t s₀ rest, start.tree f pm = some t ∧ Sound t s₀ rest ∧ Agrees t start.ref ∧
      (∀ x ∈ rest, s₀ < x.1) ∧ (start = fresh → s₀ = 0) := by
  cases start with
  | fresh =>
    refine ⟨_, 0, [], rfl, sound_create f pm, ?_, by simp, fun _ => rfl⟩
    intro k hk v
    simp [ref, create_not_stored f pm hk v]
  | bulk kvs long ascending =>
    rcases sound_bulkLoad f pm long ascending with ⟨t, hbulk, hs, hst⟩
    refine ⟨t, _, _, hbulk, hs, ?_, ?_, by simp⟩
    · intro k hk v
      rw [hst k v hk]
      exact lookup_eq_some_iff ascending
    · intro x hx
      rcases List.mem_map.mp hx with ⟨j, hj, rfl⟩
      rw [List.mem_range] at hj
      refine chunkKey_lt ascending (Nat.succ_pos j) ?_
      exact lt_of_le_of_lt (Nat.mul_le_mul_right _ hj) (lastChunk_lt (Nat.zero_lt_of_lt long))

end Start

/-! ## The client's contract -/

/-- The key is not stored in the list. -/
def Fresh (t : Tree) (k : Nat) : Prop := ∀ v, ¬ Stored t.mem t.head k v

/-- What a client keeps to. -/
def Contract (t : Tree) : Op → Prop
  | .insert k _ => ValidKey k ∧ Fresh t k
  | .update k _ => ValidKey k
  | .remove k => ValidKey k
  | .get k => ValidKey k

/-- The states a client can meet whose calls also satisfy `ok`. -/
def ReachableIf (ok : Tree → Op → Prop) (f : Mapping) (pm : Pmem Loc Nat) (calls : Nat) :
    Tree → Prop :=
  Reach (fun t => ∃ start : Start, start.tree f pm = some t) (step (calls + 2))
    fun t op => Contract t op ∧ ok t op

/-- The states a client can meet. -/
def Reachable (f : Mapping) (pm : Pmem Loc Nat) (calls : Nat) : Tree → Prop :=
  ReachableIf (fun _ _ => True) f pm calls

/-! ## What a step does -/

/-- The tree a step leaves, apart from its answer. -/
inductive Effect (t : Tree) : Op → Tree → Prop where
  | insert {k v p p' i : Nat} : t.lookup k = some p → (t.makeRoom p).2.lookup k = some p' →
      findSlot (t.makeRoom p).2.mem p' invalidKey = some i →
      Effect t (.insert k v) ((t.makeRoom p).2.run (putAtPos p' i k v))
  | update {k v p i : Nat} : t.lookup k = some p → findSlot t.mem p k = some i →
      Effect t (.update k v)
        (t.run ([.store (p, .val i) v] ++ clflush (p + Field.offset (.key i))))
  | remove {k p i : Nat} : t.lookup k = some p → findSlot t.mem p k = some i →
      Effect t (.remove k)
        (t.run ([.store (p, .key i) invalidKey] ++ clflush (p + Field.offset (.key i))))
  | same {op : Op} : (∀ k v, op ≠ .insert k v) → Effect t op t

variable {t t' : Tree} {as : List Nat} {op : Op} {ans : Answer} {k v p s₀ : Nat}
  {rest : List (Nat × Nat)}

theorem step_effect (h : Shape t as) (hstep : t.step (calls + 2) op = some (ans, t')) :
    Effect t op t' := by
  cases op with
  -- a put always finds room, after at most one split
  | insert k v =>
    rcases h.exists_lookup k with ⟨p, hp, _⟩
    rcases insert_eq h hp calls v with ⟨p', i, hp', hf, hins⟩
    rw [step, hins] at hstep
    cases hstep
    exact .insert hp hp' hf
  | update k v =>
    rcases h.exists_lookup k with ⟨p, hp, _⟩
    rcases update_eq hp v with ⟨_, hupd⟩ | ⟨i, _, _, hf, hupd⟩
    · rw [step, hupd] at hstep
      cases hstep
      exact .same (by simp)
    · rw [step, hupd] at hstep
      cases hstep
      exact .update hp hf
  | remove k =>
    rcases h.exists_lookup k with ⟨p, hp, _⟩
    rcases remove_eq hp with ⟨_, hrem⟩ | ⟨i, _, _, hf, hrem⟩
    · rw [step, hrem] at hstep
      cases hstep
      exact .same (by simp)
    · rw [step, hrem] at hstep
      cases hstep
      exact .remove hp hf
  | get k =>
    rcases Option.map_eq_some_iff.mp hstep with ⟨r, _, hr⟩
    cases hr
    exact .same (by simp)

/-- Only `BulkLoad` changes what the index has lost. -/
theorem step_vacated (h : Shape t as) (hstep : t.step (calls + 2) op = some (ans, t')) :
    t'.vacated = t.vacated := by
  cases step_effect h hstep with
  | insert _ _ _ => rw [run_vacated, makeRoom_vacated]
  | update _ _ => rfl
  | remove _ _ => rfl
  | same _ => rfl

/-- On a tree with its shape every operation comes back. -/
theorem exists_step (h : Shape t as) (calls : Nat) (op : Op) :
    ∃ ans t', t.step (calls + 2) op = some (ans, t') := by
  have hsome : (t.step (calls + 2) op).isSome := by
    cases op with
    | insert k v =>
      rcases h.exists_lookup k with ⟨p, hp, _⟩
      rcases insert_eq h hp calls v with ⟨p', i, _, _, hins⟩
      simp [step, hins]
    | update k v =>
      rcases h.exists_lookup k with ⟨p, hp, _⟩
      simp [step, Tree.update, hp]
    | remove k =>
      rcases h.exists_lookup k with ⟨p, hp, _⟩
      simp [step, Tree.remove, hp]
    | get k =>
      rcases h.exists_lookup k with ⟨p, hp, _⟩
      cases hg : Entry.get t.mem p k with
      | some v => simp [step, Tree.get, hp, hg]
      | none => simp [step, Tree.get, hp, hg]
  rcases Option.isSome_iff_exists.mp hsome with ⟨⟨ans, t'⟩, hstep⟩
  exact ⟨ans, t', hstep⟩

/-! ## The shape and uniqueness -/

/-- Making room keeps the shape. -/
theorem makeRoom_shape (h : Shape t as) (hp : p ∈ as) :
    ∃ as', Shape (t.makeRoom p).2 as' ∧ p ∈ as' ∧
      (Unique t.mem as → Unique (t.makeRoom p).2.mem as') ∧
      ∀ k' v', k' ≠ invalidKey →
        (Stored (t.makeRoom p).2.mem t.head k' v' ↔ Stored t.mem t.head k' v') := by
  by_cases hf : Full t.mem p
  · rw [makeRoom_full hf]
    rcases List.append_of_mem hp with ⟨pre, post, rfl⟩
    have heff := splitEntry_mem h hp
    have h' := shape_splitEntry h
    refine ⟨_, h', by simp, ?_, ?_⟩
    · intro hu
      exact heff.unique hu h.cursor_fresh
    · intro k' v' hk'
      exact heff.stored_iff h.walk h'.walk h.cursor_fresh hk'
  · rw [makeRoom_room hf]
    exact ⟨as, h, hp, id, fun _ _ _ => Iff.rfl⟩

/-- Any operation keeps the shape, whether or not the client keeps to its
contract. -/
theorem shape_step (h : Shape t as) (hstep : t.step (calls + 2) op = some (ans, t')) :
    ∃ as', Shape t' as' := by
  cases step_effect h hstep with
  | @insert k v p p' i hp hp' hf =>
    rcases makeRoom_shape h (h.lookup_mem hp) with ⟨as', h', _, _, _⟩
    refine ⟨as', h'.run _ fun a _ => ?_⟩
    rw [exec_putAtPos]
    exact slotsOnly_putSlot.next a
  | @update k v p i hp hf => exact ⟨as, h.run _ fun a _ => slotsOnly_setVal.next a⟩
  | @remove k p i hp hf => exact ⟨as, h.run _ fun a _ => slotsOnly_clearKey.next a⟩
  | same _ => exact ⟨as, h⟩

/-- On a tree with its shape every run comes back. -/
theorem exists_run (h : Shape t as) (calls : Nat) (ops : List Op) :
    ∃ answers t', runOps (step (calls + 2)) t ops = some (answers, t') := by
  have htotal : ∀ (t : Tree) (op : Op), (∃ as, Shape t as) →
      ∃ ans t', t.step (calls + 2) op = some (ans, t') ∧ ∃ as, Shape t' as := by
    rintro t op ⟨as, h⟩
    rcases exists_step h calls op with ⟨ans, t', hstep⟩
    exact ⟨ans, t', hstep, shape_step h hstep⟩
  rcases runOps_total _ htotal ops ⟨as, h⟩ with ⟨answers, t', hrun, _⟩
  exact ⟨answers, t', hrun⟩

/-- The list has its shape and stores no key twice. -/
def Base (t : Tree) : Prop := ∃ as, Shape t as ∧ Unique t.mem as

theorem base_step (h : Base t) (hc : Contract t op)
    (hstep : t.step (calls + 2) op = some (ans, t')) : Base t' := by
  rcases h with ⟨as, hsh, hu⟩
  cases step_effect hsh hstep with
  | @insert k v p p' i hp hp' hf =>
    have hk : k ≠ invalidKey := Nat.pos_iff_ne_zero.mp hc.1.1
    rcases makeRoom_shape hsh (hsh.lookup_mem hp) with ⟨as', hsh', _, hu', hst⟩
    rcases findSlot_some hf with ⟨hi, he, _⟩
    refine ⟨as', hsh'.run _ fun a _ => ?_, ?_⟩
    · rw [exec_putAtPos]
      exact slotsOnly_putSlot.next a
    -- the contract says the key is new, and the split has not brought it in
    · rw [run_mem, exec_putAtPos]
      refine unique_putSlot (hu' hu) hsh'.walk (hsh'.lookup_mem hp') ?_
      intro w hw
      rw [makeRoom_head, hst k w hk] at hw
      exact hc.2 w hw
  | @update k v p i hp hf =>
    refine ⟨as, hsh.run _ fun a _ => slotsOnly_setVal.next a, ?_⟩
    rw [run_mem]
    exact unique_setVal hu
  | @remove k p i hp hf =>
    refine ⟨as, hsh.run _ fun a _ => slotsOnly_clearKey.next a, ?_⟩
    rw [run_mem]
    exact unique_clearKey hu
  | same _ => exact ⟨as, hsh, hu⟩

theorem base_start {start : Start} (h : start.tree f pm = some t) : Base t := by
  rcases start.sound f pm with ⟨t₀, s₀, rest, htree, hs, _⟩
  cases h.symm.trans htree
  exact ⟨_, hs.shape, hs.unique⟩

/-- A start leaves nothing lost in the index. -/
theorem start_vacated {start : Start} (h : start.tree f pm = some t) : t.vacated = none := by
  rcases start.sound f pm with ⟨t₀, s₀, rest, htree, hs, _⟩
  cases h.symm.trans htree
  exact hs.routed.vacated

/-- In every state a client can meet the list has its shape and stores no key
twice. -/
theorem ReachableIf.base {ok : Tree → Op → Prop} (h : ReachableIf ok f pm calls t) : Base t := by
  refine Reach.invariant Base ?_ ?_ h
  · rintro t ⟨start, hstart⟩
    exact base_start hstart
  · intro t op ans t' hb hok hstep
    exact base_step hb hok.1 hstep

/-- In every state a client can meet every entry has a separator. -/
theorem ReachableIf.vacated {ok : Tree → Op → Prop} (h : ReachableIf ok f pm calls t) :
    t.vacated = none := by
  have hinv : Base t ∧ t.vacated = none := by
    refine Reach.invariant (fun t => Base t ∧ t.vacated = none) ?_ ?_ h
    · rintro t ⟨start, hstart⟩
      exact ⟨base_start hstart, start_vacated hstart⟩
    · rintro t op ans t' ⟨hb, hv⟩ hok hstep
      refine ⟨base_step hb hok.1 hstep, ?_⟩
      rcases hb with ⟨as, hsh, _⟩
      rw [step_vacated hsh hstep, hv]
  exact hinv.2

theorem start_head {start : Start} (h : start.tree f pm = some t) : t.head = f.addr := by
  cases start with
  | fresh =>
    cases h
    rw [create_eq]
  | bulk kvs long ascending =>
    rcases bulkLoad_loaded f pm long ascending with ⟨t₀, hbulk, _, _, hhead, _⟩
    cases h.symm.trans hbulk
    exact hhead

/-- The head never moves. -/
theorem ReachableIf.head_eq {ok : Tree → Op → Prop} (h : ReachableIf ok f pm calls t) :
    t.head = f.addr := by
  have hinv : Base t ∧ t.head = f.addr := by
    refine Reach.invariant (fun t => Base t ∧ t.head = f.addr) ?_ ?_ h
    · rintro t ⟨start, hstart⟩
      exact ⟨base_start hstart, start_head hstart⟩
    · rintro t op ans t' ⟨hb, hhead⟩ hok hstep
      refine ⟨base_step hb hok.1 hstep, ?_⟩
      rcases hb with ⟨as, hsh, _⟩
      cases step_effect hsh hstep with
      | insert _ _ _ => rw [run_head, makeRoom_head, hhead]
      | update _ _ => exact hhead
      | remove _ _ => exact hhead
      | same _ => exact hhead
  exact hinv.2

/-! ## The finite map -/

/-- On a tree whose first separator is `INVALID_KEY` every split is fine. -/
theorem splitOk_of_zero (h : Sound t 0 rest) (k : Nat) : SplitOk t k := by
  intro s p hx hf
  rcases h.routed.floor_cell hx with ⟨pre, s', post, hcells, _, _, hwhere⟩
  have hlt := (h.median_in_cell hcells hf).1
  rw [← le_medianKey_iff]
  rcases hwhere with ⟨_, hx⟩ | ⟨_, _, rfl, _⟩
  · rw [(Prod.mk.inj hx).1]
    exact Nat.zero_le _
  · exact le_of_lt hlt

theorem rel_start {start : Start} (h : start.tree f pm = some t) : Rel t start.ref := by
  rcases start.sound f pm with ⟨t₀, s₀, rest, htree, hs, hag, _⟩
  cases h.symm.trans htree
  exact ⟨⟨s₀, rest, hs⟩, hag⟩

/-- A run: the tree answers as the map does. -/
theorem rel_run (calls : Nat) {ops : List Op} {r r' : Ref} {answers : List Answer}
    (h : Rel t r) (hok : Along (step (calls + 2)) SplitGuard t ops)
    (hrun : runOps Ref.step r ops = some (answers, r')) :
    ∃ t', runOps (step (calls + 2)) t ops = some (answers, t') ∧ Rel t' r' := by
  have hsim : ∀ (t : Tree) (r : Ref) (op : Op) (ans : Answer) (r' : Ref), Rel t r →
      SplitGuard t op → r.step op = some (ans, r') →
      ∃ t', t.step (calls + 2) op = some (ans, t') ∧ Rel t' r' :=
    fun t r op ans r' hrel hok hstep => rel_step calls hrel hok hstep
  exact run_simulates Rel hsim ops t r answers r' h hok hrun

/-- As long as no split puts its separator below the one the entry was found
under, a tree answers every call as the finite map does, and two nested calls of
`Insert` are enough. -/
theorem tree_refines_map (f : Mapping) (pm : Pmem Loc Nat) (start : Start) :
    ∃ t₀, start.tree f pm = some t₀ ∧
      ∀ (calls : Nat) (ops : List Op) (answers : List Answer) (r' : Ref),
        runOps Ref.step start.ref ops = some (answers, r') →
        Along (step (calls + 2)) SplitGuard t₀ ops →
        ∃ t', runOps (step (calls + 2)) t₀ ops = some (answers, t') ∧
          ∀ k, ValidKey k → t'.get k = some (answer r' k) := by
  rcases start.sound f pm with ⟨t₀, _, _, htree, _⟩
  refine ⟨t₀, htree, ?_⟩
  intro calls ops answers r' hrun hok
  rcases rel_run calls (rel_start htree) hok hrun with ⟨t', hrun', hrel'⟩
  exact ⟨t', hrun', fun k hk => rel_get hrel' hk⟩

/-- A file mapped for the examples, and blank NVM. -/
def sampleFile : Mapping := ⟨4096, 1048576, by decide, by decide, by decide⟩

def blank : Pmem Loc Nat := ⟨fun _ => 0, fun _ => false⟩

/-- Keys `10, 20, .. 150`, bulk loaded into two entries. -/
def tens : Start :=
  .bulk ((List.range 15).map fun i => (10 * (i + 1), i)) (by decide) (by decide)

def tensOps : List Op :=
  [.insert 15 1, .insert 5 2, .get 15, .update 5 3, .get 5, .remove 15, .get 15, .get 80]

def tensAnswers : List Answer :=
  [⟨.ok, none⟩, ⟨.ok, none⟩, ⟨.ok, some 1⟩, ⟨.ok, none⟩, ⟨.ok, some 3⟩, ⟨.ok, none⟩,
    ⟨.fail, some 0⟩, ⟨.ok, some 7⟩]

theorem tens_spec : (runOps Ref.step tens.ref tensOps).map Prod.fst = some tensAnswers := by
  decide +kernel

set_option maxRecDepth 100000 in
theorem tens_splits : ∀ t ∈ tens.tree sampleFile blank,
    Along (step 2) SplitGuard t tensOps := by
  decide +kernel

theorem tens_refines_map : ∃ t₀ r' t', tens.tree sampleFile blank = some t₀ ∧
    runOps Ref.step tens.ref tensOps = some (tensAnswers, r') ∧
    runOps (step 2) t₀ tensOps = some (tensAnswers, t') ∧
    ∀ k, ValidKey k → t'.get k = some (answer r' k) := by
  rcases tree_refines_map sampleFile blank tens with ⟨t₀, htree, href⟩
  rcases Option.map_eq_some_iff.mp tens_spec with ⟨⟨_, r'⟩, hr, rfl⟩
  rcases href 0 tensOps _ r' hr (tens_splits t₀ htree) with ⟨t', hrun, hget⟩
  exact ⟨t₀, r', t', htree, hr, hrun, hget⟩

/-- Keys `101 .. 115`, bulk loaded into two entries: the first separator is `101`. -/
def hundreds : Start :=
  .bulk ((List.range 15).map fun i => (101 + i, i)) (by decide) (by decide)

/-- Insert the keys `1 .. n`. -/
def fillBelow (n : Nat) : List Op :=
  (List.range n).map fun i => .insert (i + 1) (i + 1)

set_option maxRecDepth 100000 in
/-- Fifteen inserts below the first separator: the head is split twice, the second
time at a key below that separator, and `Get` is from then on sent past the head. -/
theorem tree_loses_key :
    (runOps Ref.step hundreds.ref (fillBelow 15 ++ [.get 1])).map Prod.fst =
        some (List.replicate 15 ⟨.ok, none⟩ ++ [⟨.ok, some 1⟩]) ∧
      ((hundreds.tree sampleFile blank).bind fun t =>
          runOps (step 2) t (fillBelow 15 ++ [.get 1])).map Prod.fst =
        some (List.replicate 15 ⟨.ok, none⟩ ++ [⟨.fail, some 0⟩]) := by
  decide +kernel

/-! ## Clients of the map are clients of the tree -/

theorem contract_of_ref {r r' : Ref} (h : Rel t r) (hstep : r.step op = some (ans, r')) :
    Contract t op := by
  rcases h with ⟨_, hag⟩
  cases op with
  | insert k v =>
    simp only [Ref.step, Option.ite_none_right_eq_some] at hstep
    rcases hstep with ⟨⟨hv, hr⟩, _⟩
    exact ⟨hv, (hag.none_iff (Nat.pos_iff_ne_zero.mp hv.1)).mp hr⟩
  | update k v =>
    simp only [Ref.step, Option.ite_none_right_eq_some] at hstep
    exact hstep.1
  | remove k =>
    simp only [Ref.step, Option.ite_none_right_eq_some] at hstep
    exact hstep.1
  | get k =>
    simp only [Ref.step, Option.ite_none_right_eq_some] at hstep
    exact hstep.1

/-- A client that keeps to its contract with the map keeps to its contract with
the tree, as long as the splits are fine. -/
theorem along_contract {ok : Tree → Op → Prop} : ∀ {ops : List Op} {t : Tree} {r r' : Ref}
    {answers : List Answer}, Rel t r → runOps Ref.step r ops = some (answers, r') →
    Along (step (calls + 2)) (fun t op => SplitGuard t op ∧ ok t op) t ops →
    Along (step (calls + 2)) (fun t op => Contract t op ∧ ok t op) t ops := by
  intro ops
  induction ops with
  | nil =>
    intro t r r' answers _ _ _
    trivial
  | cons op ops ih =>
    intro t r r' answers hrel hrun hok
    simp only [runOps, Option.bind_eq_some_iff, Option.map_eq_some_iff] at hrun
    rcases hrun with ⟨⟨ans, r₁⟩, hr, ⟨_, _⟩, hrun, _⟩
    refine ⟨⟨contract_of_ref hrel hr, hok.1.2⟩, ?_⟩
    intro ans' t' hstep
    rcases rel_step calls hrel hok.1.1 hr with ⟨t'', hstep', hrel'⟩
    cases hstep.symm.trans hstep'
    exact ih hrel' hrun (hok.2 _ _ hstep)

/-- The state after a run of a map client is one a client of the tree can meet. -/
theorem reachable_of_run {start : Start} {ok : Tree → Op → Prop} {t₀ : Tree} {ops : List Op}
    {answers : List Answer} {r' : Ref} (hstart : start.tree f pm = some t₀)
    (hrun : runOps Ref.step start.ref ops = some (answers, r'))
    (hok : Along (step (calls + 2)) (fun t op => SplitGuard t op ∧ ok t op) t₀ ops) :
    ∃ t', runOps (step (calls + 2)) t₀ ops = some (answers, t') ∧
      ReachableIf ok f pm calls t' ∧ Rel t' r' := by
  have hrel := rel_start hstart
  rcases rel_run calls hrel (hok.mono fun _ _ h => h.1) hrun with ⟨t', hrun', hrel'⟩
  exact ⟨t', hrun', Reach.run (.init ⟨start, hstart⟩) (along_contract hrel hrun hok) hrun', hrel'⟩

/-- The same for the trees that a start can leave. -/
theorem exists_reached {start : Start} {ok : Tree → Op → Prop} {ops : List Op}
    {answers : List Answer} (hspec : (runOps Ref.step start.ref ops).map Prod.fst = some answers)
    (hok : ∀ t ∈ start.tree f pm,
      Along (step (calls + 2)) (fun t op => SplitGuard t op ∧ ok t op) t ops) :
    ∃ t₀ t', start.tree f pm = some t₀ ∧
      runOps (step (calls + 2)) t₀ ops = some (answers, t') ∧ ReachableIf ok f pm calls t' := by
  rcases start.sound f pm with ⟨t₀, _, _, htree, _⟩
  rcases Option.map_eq_some_iff.mp hspec with ⟨⟨_, r'⟩, hr, rfl⟩
  rcases reachable_of_run htree hr (hok t₀ htree) with ⟨t', hrun, hreach, _⟩
  exact ⟨t₀, t', htree, hrun, hreach⟩

/-- The calls of `tensOps` keep to the guard of the splits. -/
theorem exists_tens : ∃ t₀ t', tens.tree sampleFile blank = some t₀ ∧
    runOps (step 2) t₀ tensOps = some (tensAnswers, t') ∧
    ReachableIf SplitGuard sampleFile blank 0 t' :=
  exists_reached tens_spec fun t htree => (tens_splits t htree).mono fun _ _ h => ⟨h, h⟩

/-! ## A contract that can be run

Where the splits are not fine the tree is no longer the map, but the client can still
see from the slots which keys are stored. -/

/-- The client's contract, read off the entries in the index. -/
def SlotContract (t : Tree) : Op → Prop
  | .insert k _ => ValidKey k ∧ ∀ x ∈ t.index.kvs, ∀ i < kvsPerEntry, t.mem (x.2, .key i) ≠ k
  | .update k _ => ValidKey k
  | .remove k => ValidKey k
  | .get k => ValidKey k

instance (t : Tree) : (op : Op) → Decidable (SlotContract t op)
  | .insert k _ => inferInstanceAs (Decidable (ValidKey k ∧ _))
  | .update k _ => inferInstanceAs (Decidable (ValidKey k))
  | .remove k => inferInstanceAs (Decidable (ValidKey k))
  | .get k => inferInstanceAs (Decidable (ValidKey k))

theorem contract_of_slots (h : Base t) (hv : t.vacated = none) (hc : SlotContract t op) :
    Contract t op := by
  cases op with
  | insert k v =>
    rcases h with ⟨as, hsh, _⟩
    refine ⟨hc.1, ?_⟩
    intro w hst
    rcases (stored_iff hsh.walk).mp hst with ⟨a, ha, i, hi, hkey, _⟩
    -- every entry of the list is in the index
    have hpay := hsh.payloads.mem_iff.mpr ha
    rw [hv, Option.toList_none, List.nil_append, List.mem_map] at hpay
    rcases hpay with ⟨x, hx, rfl⟩
    exact hc.2 x hx i hi hkey
  | update k v => exact hc
  | remove k => exact hc
  | get k => exact hc

/-- A run that keeps to the contract comes back. -/
theorem reachable_of_slots {start : Start} {t₀ : Tree} {ops : List Op}
    (hstart : start.tree f pm = some t₀) (hc : Along (step (calls + 2)) SlotContract t₀ ops) :
    ∃ answers t', runOps (step (calls + 2)) t₀ ops = some (answers, t') ∧
      Reachable f pm calls t' := by
  have hbase := base_start hstart
  rcases hbase with ⟨as, hsh, hu⟩
  rcases exists_run hsh calls ops with ⟨answers, t', hrun⟩
  refine ⟨answers, t', hrun, Reach.run (.init ⟨start, hstart⟩) ?_ hrun⟩
  refine Along.invariant (fun t => Base t ∧ t.vacated = none) ?_ ?_
    ⟨⟨as, hsh, hu⟩, start_vacated hstart⟩ hc
  · rintro t op ans t' ⟨hb, hv⟩ hok hstep
    refine ⟨base_step hb (contract_of_slots hb hv hok) hstep, ?_⟩
    rcases hb with ⟨as, hsh, _⟩
    rw [step_vacated hsh hstep, hv]
  · rintro t op ⟨hb, hv⟩ hok
    exact ⟨contract_of_slots hb hv hok, trivial⟩

/-- Nine keys below the first separator of `tens`, with one key removed in between: the
head is split twice, the second time at `8`, below its separator `10`. -/
def splitBelowOps : List Op := fillBelow 7 ++ [.remove 70, .insert 8 8, .insert 9 9]

end Tree

end Epli
