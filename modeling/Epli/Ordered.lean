import Epli.Client

/-!
# The list and the index in step

`Ordered` is the invariant a reader of `splitEntry` has in mind: the list visits
the payloads of the index in the order of their separators, every key lies
between its entry's separator and the next, and no key is stored twice.

It needs more than the finite map does: a split of the head whose new separator
*equals* the first one still routes every key, but the separators are then no
longer strictly increasing.
-/

namespace Epli

open Lib Entry

namespace Tree

/-- The list visits the payloads of the index once each, in strictly increasing
order of their separators, which bound the keys stored in between. -/
structure Ordered (t : Tree) : Prop where
  walk : Walk (nextOf t.mem) null t.head (t.index.kvs.map Prod.snd)
  once : (t.index.kvs.map Prod.snd).Nodup
  increasing : t.index.kvs.Pairwise fun x y => x.1 < y.1
  low : ∀ x ∈ t.index.kvs.tail, ∀ k, ProperKey t.mem x.2 k → x.1 ≤ k
  high : t.index.kvs.Pairwise fun x y => ∀ k, ProperKey t.mem x.2 k → k < y.1
  unique : Unique t.mem (t.index.kvs.map Prod.snd)

/-- If the entry that `k` is routed to is full, at most half of its keys are at
or below the separator it was found under. -/
def SplitStrict (t : Tree) (k : Nat) : Prop :=
  ∀ s p, t.index.floor k = some (s, p) → Full t.mem p →
    countBelow t.mem p (s + 1) ≤ kvsPerEntry / 2

instance (t : Tree) (k : Nat) : Decidable (SplitStrict t k) :=
  decidable_of_iff (∀ x ∈ t.index.floor k, Full t.mem x.2 →
    countBelow t.mem x.2 (x.1 + 1) ≤ kvsPerEntry / 2) (by simp [SplitStrict])

/-- Every split of a run is strict. -/
def StrictGuard (t : Tree) : Op → Prop
  | .insert k _ => SplitStrict t k
  | _ => True

instance (t : Tree) : ∀ op, Decidable (StrictGuard t op)
  | .insert k _ => inferInstanceAs (Decidable (SplitStrict t k))
  | .update _ _ => .isTrue trivial
  | .remove _ => .isTrue trivial
  | .get _ => .isTrue trivial

variable {f : Mapping} {pm : Pmem Loc Nat} {calls : Nat} {t t' : Tree} {op : Op} {ans : Answer}
  {k v s₀ : Nat} {rest : List (Nat × Nat)}

theorem SplitStrict.lt_median (h : SplitStrict t k) {s p : Nat}
    (hx : t.index.floor k = some (s, p)) (hf : Full t.mem p) : s < medianKey t.mem p := by
  have := h s p hx hf
  rw [← le_medianKey_iff] at this
  omega

theorem SplitStrict.splitOk (h : SplitStrict t k) : SplitOk t k := by
  intro s p hx hf
  rw [← le_medianKey_iff]
  exact le_of_lt (h.lt_median hx hf)

theorem StrictGuard.splitGuard (h : StrictGuard t op) : SplitGuard t op := by
  cases op with
  | insert k v => exact SplitStrict.splitOk h
  | update k v => trivial
  | remove k => trivial
  | get k => trivial

/-- Every operation within the contract keeps the tree sound. The separators are
the old ones, and the median of the entry an `Insert` splits. -/
theorem sound_step (h : Sound t s₀ rest) (hc : Contract t op) (hok : SplitGuard t op)
    (hstep : t.step (calls + 2) op = some (ans, t')) :
    ∃ rest', Sound t' s₀ rest' ∧ ∀ x ∈ rest', x ∈ rest ∨
      ∃ k v s p, op = .insert k v ∧ t.index.floor k = some (s, p) ∧ Full t.mem p ∧
        x.1 = medianKey t.mem p := by
  have heff := step_effect h.shape hstep
  cases heff with
  -- a separator is only ever added by the split of an insert
  | @insert k v p p' i hp hp' hf =>
    have hk : k ≠ invalidKey := Nat.pos_iff_ne_zero.mp hc.1.1
    rcases insert_sound h hk hc.2 hok calls v with ⟨evs, t₁, rest', hins, hs, hrest, _⟩
    rw [step, hins] at hstep
    cases hstep
    refine ⟨rest', hs, ?_⟩
    intro x hx
    rcases hrest x hx with hx | ⟨s, q, hfl, hfull, hmed⟩
    · exact Or.inl hx
    · exact Or.inr ⟨k, v, s, q, rfl, hfl, hfull, hmed⟩
  | @update k v p i hp hf =>
    refine ⟨rest, ?_, fun x hx => Or.inl hx⟩
    apply h.run hp
    · exact slotsOnly_setVal
    · exact unique_setVal h.unique
    · rintro k' _ ⟨j, hj, hkj⟩
      exact Or.inl ⟨j, hj, by simpa [setLoc] using hkj⟩
  | @remove k p i hp hf =>
    refine ⟨rest, ?_, fun x hx => Or.inl hx⟩
    apply h.run hp
    · exact slotsOnly_clearKey
    · exact unique_clearKey h.unique
    · intro k' hk' hh
      exact Or.inl (hasKey_clearKey hk' hh)
  | same _ => exact ⟨rest, h, fun x hx => Or.inl hx⟩

/-- Splits that are fine keep the tree sound. -/
theorem ReachableIf.sound (h : ReachableIf SplitGuard f pm calls t) :
    ∃ s₀ rest, Sound t s₀ rest := by
  refine Reach.invariant (fun t => ∃ s₀ rest, Sound t s₀ rest) ?_ ?_ h
  · rintro t ⟨start, hstart⟩
    rcases start.sound f pm with ⟨t₀, s₀, rest, htree, hs, _⟩
    cases hstart.symm.trans htree
    exact ⟨s₀, rest, hs⟩
  · rintro t op ans t' ⟨s₀, rest, hs⟩ hok hstep
    rcases sound_step hs hok.1 hok.2 hstep with ⟨rest', hs', _⟩
    exact ⟨s₀, rest', hs'⟩

/-- A sound tree whose first separator is below all others. -/
def Strict (t : Tree) : Prop :=
  ∃ s₀ rest, Sound t s₀ rest ∧ ∀ x ∈ rest, s₀ < x.1

theorem Strict.ordered (h : Strict t) : Ordered t := by
  rcases h with ⟨s₀, rest, hs, hfirst⟩
  have hbounds := hs.cells.bounds
  have hhigh := hs.cells.high
  rw [List.pairwise_cons] at hbounds hhigh
  have hsnd : t.index.kvs.map Prod.snd = t.head :: rest.map Prod.snd := by
    rw [hs.index, List.map_cons]
  constructor
  · rw [hsnd]
    exact hs.shape.walk
  · rw [hsnd]
    exact hs.shape.nodup
  · rw [hs.index, List.pairwise_cons]
    exact ⟨hfirst, hbounds.2⟩
  · intro x hx k hk
    rw [hs.index, List.tail_cons] at hx
    exact hs.cells.low x (List.mem_cons_of_mem _ hx) k (Or.inl hk)
  · rw [hs.index, List.pairwise_cons]
    exact ⟨fun y hy k hk => hhigh.1 y hy k (Or.inl hk),
      hhigh.2.imp fun hxy k hk => hxy k (Or.inl hk)⟩
  · rw [hsnd]
    exact hs.unique

theorem strict_step (h : Strict t) (hc : Contract t op) (hok : StrictGuard t op)
    (hstep : t.step (calls + 2) op = some (ans, t')) : Strict t' := by
  rcases h with ⟨s₀, rest, hs, hfirst⟩
  rcases sound_step hs hc hok.splitGuard hstep with ⟨rest', hs', hrest⟩
  refine ⟨s₀, rest', hs', ?_⟩
  intro x hx
  rcases hrest x hx with hx | ⟨k, v, s, p, rfl, hfl, hfull, hmed⟩
  · exact hfirst x hx
  · -- a new separator is above the one it was split off from, hence above the first
    have hlt := SplitStrict.lt_median hok hfl hfull
    have hmem := Multimap.floor_mem hfl
    rw [hs.index] at hmem
    rw [hmed]
    rcases List.mem_cons.mp hmem with heq | hmem
    · exact (Prod.mk.inj heq).1 ▸ hlt
    · exact (hfirst _ hmem).trans hlt

/-- In every state a client meets whose splits are all strict, the list and the
index are in step. -/
theorem reachable_ordered (h : ReachableIf StrictGuard f pm calls t) : Ordered t := by
  refine Strict.ordered (Reach.invariant Strict ?_ ?_ h)
  · rintro t ⟨start, hstart⟩
    rcases start.sound f pm with ⟨t₀, s₀, rest, htree, hs, _, hfirst, _⟩
    cases hstart.symm.trans htree
    exact ⟨s₀, rest, hs, hfirst⟩
  · intro t op ans t' hinv hok hstep
    exact strict_step hinv hok.1 hok.2 hstep

set_option maxRecDepth 100000 in
theorem tens_ordered : ∃ t₀ t', tens.tree sampleFile blank = some t₀ ∧
    runOps (step 2) t₀ tensOps = some (tensAnswers, t') ∧ Ordered t' := by
  have hsplits : ∀ t ∈ tens.tree sampleFile blank,
      Along (step 2) (fun t op => SplitGuard t op ∧ StrictGuard t op) t tensOps := by
    decide +kernel
  rcases exists_reached tens_spec hsplits with ⟨t₀, t', htree, hrun, hreach⟩
  exact ⟨t₀, t', htree, hrun, reachable_ordered hreach⟩

set_option maxRecDepth 100000 in
/-- The fifteenth insert below the first separator puts a new entry in front of
the head in the index. -/
theorem reachable_not_ordered : ∃ t, Reachable sampleFile blank 0 t ∧ ¬ Ordered t := by
  rcases hundreds.sound sampleFile blank with ⟨t₀, _, _, htree, _⟩
  have hspec : (runOps Ref.step hundreds.ref (fillBelow 14)).map (fun x => x.2 15) = some none := by
    decide +kernel
  have hsplits : ∀ t ∈ hundreds.tree sampleFile blank,
      Along (step 2) (fun t op => SplitGuard t op ∧ True) t (fillBelow 14) := by
    decide +kernel
  have hlast : ∀ t ∈ hundreds.tree sampleFile blank, ∀ x ∈ runOps (step 2) t (fillBelow 14),
      (x.2.step 2 (.insert 15 15)).map (fun y => (y.2.index.kvs.head?, y.2.head)) =
        some (some (8, 5120), 4096) := by
    decide +kernel
  rcases Option.map_eq_some_iff.mp hspec with ⟨⟨answers, r'⟩, hr, hnone⟩
  rcases reachable_of_run htree hr (hsplits t₀ htree) with ⟨t, hrun, hreach, hrel⟩
  rcases Option.map_eq_some_iff.mp (hlast t₀ htree _ hrun) with ⟨⟨ans, t'⟩, hstep, heq⟩
  rcases Prod.mk.inj heq with ⟨hfirst, hhead⟩
  have hinsert : r'.step (.insert 15 15) = some (⟨.ok, none⟩, r'.bind 15 (some 15)) :=
    if_pos ⟨by decide, hnone⟩
  refine ⟨t', .step hreach ⟨contract_of_ref hrel hinsert, trivial⟩ hstep, ?_⟩
  intro hord
  have hwalk := hord.walk
  cases hkvs : t'.index.kvs with
  | nil =>
    rw [hkvs] at hfirst
    cases hfirst
  | cons x l =>
    rw [hkvs] at hfirst hwalk
    cases hfirst
    rw [hhead] at hwalk
    exact absurd hwalk.1 (by decide)

/-! ## From a fresh tree -/

/-- The states a client of a fresh tree can meet. -/
def ReachableFresh (f : Mapping) (pm : Pmem Loc Nat) (calls : Nat) : Tree → Prop :=
  Reach (fun t => t = create false f pm) (step (calls + 2)) Contract

/-- A client of a fresh tree only meets sound trees: the first separator is
`INVALID_KEY`, so no split can fall below it. -/
theorem ReachableFresh.sound (h : ReachableFresh f pm calls t) : ∃ rest, Sound t 0 rest := by
  refine Reach.invariant (fun t => ∃ rest, Sound t 0 rest) ?_ ?_ h
  · rintro t rfl
    exact ⟨[], sound_create f pm⟩
  · rintro t op ans t' ⟨rest, hs⟩ hc hstep
    have hok : SplitGuard t op := by
      cases op with
      | insert k v => exact splitOk_of_zero hs k
      | update k v => trivial
      | remove k => trivial
      | get k => trivial
    rcases sound_step hs hc hok hstep with ⟨rest', hs', _⟩
    exact ⟨rest', hs'⟩

/-- A run of a map client from the empty map is a run of a client of a fresh tree. -/
theorem reachableFresh_of_run {ops : List Op} {answers : List Answer} {r' : Ref}
    (hrun : runOps Ref.step Start.fresh.ref ops = some (answers, r'))
    (hok : Along (step (calls + 2)) SplitGuard (create false f pm) ops) :
    ∃ t', runOps (step (calls + 2)) (create false f pm) ops = some (answers, t') ∧
      ReachableFresh f pm calls t' := by
  have hrel : Rel (create false f pm) Start.fresh.ref := @rel_start _ _ _ .fresh rfl
  rcases rel_run calls hrel hok hrun with ⟨t', hrun', _⟩
  refine ⟨t', hrun', Reach.run (.init rfl) ?_ hrun'⟩
  have htriv : Along (step (calls + 2)) (fun t op => SplitGuard t op ∧ True) (create false f pm)
      ops := hok.mono fun _ _ h => ⟨h, trivial⟩
  exact (along_contract hrel hrun htriv).mono fun _ _ h => h.1

end Tree

end Epli
