import Epli.Client
import Epli.SWTable

/-!
# EPLI with the SW-Table

The build with `USE_SWTABLE` and `SWTABLE_AUTO_CLOSE`: the tree, and the SW-Table in
front of it as a cache of hot pairs. A `Get` that misses asks the tree and, for every
`SAMPLE_M`-th call, puts what the tree answered into the table, a `0` for an absent
key too. `Update` goes to both levels whatever the tree says, so an `Update` of an
absent key whose `0` is in the table makes up a pair that the tree does not have.
-/

namespace Epli

open Lib Clht Entry

/-- `EPLI`. `hit_cnt` is a `double` that only counts. -/
structure EPLI where
  tree : Tree
  table : SWTable
  tableOn : Bool
  hitCnt : Nat
  totGet : Nat

/-- Calls of an `EPLI`. -/
inductive EPLIOp where
  | put (key val : Nat)
  | update (key val : Nat)
  | remove (key : Nat)
  | get (key : Nat)
  | reset
deriving DecidableEq, Repr

namespace EPLI

/-- `SAMPLE_M`. -/
def sampleM : Nat := 20

/-- `Init()`. -/
def init (f : Mapping) (pm : Pmem Loc Nat) (lt : UInt32) : Option EPLI :=
  (SWTable.init lt).map fun table =>
    { tree := Tree.create false f pm, table := table, tableOn := true, hitCnt := 0, totGet := 0 }

section

/-! `raw` is what `memalign` leaves in a bucket, `calls` bounds the nested calls, and
`lowRate hit_cnt tot_get` stands for the comparison `hit_cnt < MIN_HIT_RATE * tot_get`
of two `double`s. -/

variable (raw : Nat → Nat → Nat → Raw) (calls : Nat) (lowRate : Nat → Nat → Bool)

/-- `Put`. -/
def put (e : EPLI) (key val : Nat) : Option EPLI :=
  (e.tree.step calls (.insert key val)).map fun r => { e with tree := r.2 }

/-- `Update`. -/
def update (e : EPLI) (key val : Nat) : Option EPLI :=
  let table := (e.table.update key val).2
  (e.tree.step calls (.update key val)).map fun r => { e with table := table, tree := r.2 }

/-- `Remove`. -/
def remove (e : EPLI) (key : Nat) : Option EPLI :=
  let table := (e.table.remove key).2
  (e.tree.step calls (.remove key)).map fun r => { e with table := table, tree := r.2 }

/-- The search of `Get` in the table and, on a miss, in the tree. -/
def search (e : EPLI) (key : Nat) : Option (Nat × EPLI) := do
  let (val, table) := e.table.get key
  let e := { e with table := table }
  if val ≠ 0 then return (val, { e with hitCnt := e.hitCnt + 1 })
  else
    let (_, val) ← e.tree.get key
    if e.totGet % sampleM = 0 then
      let (_, table) ← e.table.put raw calls key val
      return (val, { e with table := table })
    else return (val, e)

/-- The end of `Get`: close the table when the hit rate is too low. -/
def autoClose (e : EPLI) : EPLI :=
  let e := { e with totGet := (e.totGet + 1) % 2 ^ 64 }
  if 0 < e.hitCnt ∧ lowRate e.hitCnt e.totGet then { e with tableOn := false } else e

/-- `Get`. -/
def get (e : EPLI) (key : Nat) : Option (Nat × EPLI) :=
  if e.tableOn then (e.search raw calls key).map fun r => (r.1, autoClose lowRate r.2)
  else (e.tree.get key).map fun r => (r.2, e)

/-- `Reset`. -/
def reset (e : EPLI) : EPLI := { e with tableOn := true, totGet := 0, hitCnt := 0 }

/-- One call, with the value that `Get` delivers. -/
def step (e : EPLI) : EPLIOp → Option (Option Nat × EPLI)
  | .put key val => (e.put calls key val).map fun e => (none, e)
  | .update key val => (e.update calls key val).map fun e => (none, e)
  | .remove key => (e.remove calls key).map fun e => (none, e)
  | .get key => (e.get raw calls lowRate key).map fun r => (some r.1, r.2)
  | .reset => some (none, e.reset)

end

/-! ## The client -/

/-- `EPLTree::Get` finds the key. -/
def Live (t : Tree) (k : Nat) : Prop := (t.get k).map Prod.fst = some .ok

instance (t : Tree) (k : Nat) : Decidable (Live t k) := inferInstanceAs (Decidable (_ = _))

/-- Valid keys, and `Put` only of keys that are not live. -/
def CacheContract (e : EPLI) : EPLIOp → Prop
  | .put k _ => ValidKey k ∧ ¬ Live e.tree k
  | .update k _ => ValidKey k
  | .remove k => ValidKey k
  | .get k => ValidKey k
  | .reset => True

/-- The table has no slot of a key that is not live when it is updated, unless the
value is `0`. -/
def UpdateGuard (e : EPLI) : EPLIOp → Prop
  | .update k v => Live e.tree k ∨ v = 0 ∨
      (e.table.hashtable.table (e.table.hashtable.clhtHash k)).bucketExists k = false
  | _ => True

instance (e : EPLI) : ∀ op, Decidable (CacheContract e op)
  | .put k _ => inferInstanceAs (Decidable (ValidKey k ∧ ¬ Live e.tree k))
  | .update k _ => inferInstanceAs (Decidable (ValidKey k))
  | .remove k => inferInstanceAs (Decidable (ValidKey k))
  | .get k => inferInstanceAs (Decidable (ValidKey k))
  | .reset => .isTrue trivial

instance (e : EPLI) : ∀ op, Decidable (UpdateGuard e op)
  | .put _ _ => .isTrue trivial
  | .update k v => inferInstanceAs (Decidable (Live e.tree k ∨ v = 0 ∨ _ = false))
  | .remove _ => .isTrue trivial
  | .get _ => .isTrue trivial
  | .reset => .isTrue trivial

/-- Each pair of the table with a value is a pair of the tree. -/
def TableLive (e : EPLI) : Prop :=
  ∀ x ∈ e.table.hashtable.pairs, x.2 ≠ 0 → Stored e.tree.mem e.tree.head x.1 x.2

/-- `Get` delivers what the tree would. -/
def DeliversTree (raw : Nat → Nat → Nat → Raw) (calls : Nat) (lowRate : Nat → Nat → Bool)
    (e : EPLI) : EPLIOp → Prop
  | .get k => ∀ ans e', e.step raw calls lowRate (.get k) = some (ans, e') →
      ans = (e.tree.get k).map Prod.snd
  | _ => True

/-- The invariant: a sound tree below a well-formed table without made-up pairs. -/
structure Coherent (e : EPLI) : Prop where
  sound : ∃ rest, Tree.Sound e.tree 0 rest
  wf : e.table.hashtable.Wf
  live : TableLive e

variable {e : EPLI} {k v : Nat} {t : Tree} {s₀ : Nat} {rest : List (Nat × Nat)} {op : EPLIOp}

/-! ## The tree below -/

theorem live_iff (hs : Tree.Sound t s₀ rest) (hk : k ≠ invalidKey) :
    Live t k ↔ ∃ v, Stored t.mem t.head k v := by
  unfold Live
  constructor
  · intro hlive
    by_contra hno
    rw [hs.routed.get_of_not_stored (not_exists.mp hno)] at hlive
    cases hlive
  · rintro ⟨v, hst⟩
    rw [hs.routed.get_of_stored hk hst]
    rfl

/-- `EPLTree::Get` delivers a stored value, or `0`. -/
theorem get_sound (hs : Tree.Sound t s₀ rest) (hk : k ≠ invalidKey) :
    ∃ st v, t.get k = some (st, v) ∧ (v ≠ 0 → Stored t.mem t.head k v) := by
  by_cases hlive : ∃ v, Stored t.mem t.head k v
  · rcases hlive with ⟨v, hst⟩
    exact ⟨.ok, v, hs.routed.get_of_stored hk hst, fun _ => hst⟩
  · exact ⟨.fail, 0, hs.routed.get_of_not_stored (not_exists.mp hlive), fun h0 => absurd rfl h0⟩

theorem ne_invalid_of_mem {x : Nat × Nat} (hx : x ∈ e.table.hashtable.pairs) :
    x.1 ≠ invalidKey := by
  rcases Hashtable.mem_pairs.mp hx with ⟨bin, _, hx⟩
  rcases Chain.mem_pairs.mp hx with ⟨b, _, _, hne⟩
  exact hne

/-! ## One call -/

variable (raw : Nat → Nat → Nat → Raw) (calls : Nat) (lowRate : Nat → Nat → Bool)

/-- A new pair in the tree. The table is not told, and has no value for the key. -/
theorem coherent_put (h : Coherent e) (hc : CacheContract e (.put k v)) :
    ∃ e', e.put (calls + 2) k v = some e' ∧ Coherent e' := by
  rcases hc with ⟨hv, hnew⟩
  have hk : k ≠ invalidKey := Nat.pos_iff_ne_zero.mp hv.1
  rcases h.sound with ⟨rest, hs⟩
  rw [live_iff hs hk, not_exists] at hnew
  rcases Tree.insert_sound hs hk hnew (Tree.splitOk_of_zero hs k) calls v with
    ⟨evs, t', rest', hins, hs', _, hst⟩
  refine ⟨{ e with tree := t' }, by simp [put, Tree.step, hins], ⟨rest', hs'⟩, h.wf, ?_⟩
  intro x hx hne
  exact (hst x.1 x.2 (ne_invalid_of_mem hx)).mpr (Or.inl (h.live x hx hne))

/-- A new value in both levels. -/
theorem coherent_update (h : Coherent e) (hc : CacheContract e (.update k v))
    (hg : UpdateGuard e (.update k v)) :
    ∃ e', e.update (calls + 2) k v = some e' ∧ Coherent e' := by
  have hk : k ≠ invalidKey := Nat.pos_iff_ne_zero.mp hc.1
  rcases h.sound with ⟨rest, hs⟩
  rcases Hashtable.update_spec h.wf hk v with ⟨hw, hpairs⟩
  by_cases hlive : ∃ w, Stored e.tree.mem e.tree.head k w
  · rcases hlive with ⟨w, hst⟩
    rcases Tree.update_sound hs hk hst v with ⟨evs, t', hupd, hs', hst'⟩
    refine ⟨{ e with table := (e.table.update k v).2, tree := t' },
      by simp [update, Tree.step, hupd], ⟨rest, hs'⟩, hw, ?_⟩
    intro x hx hne
    rw [hst']
    -- the pair of `k`, if it is cached, has the new value in both
    rcases hpairs x hx with ⟨rfl, _⟩ | ⟨hx, hxk⟩
    · exact Or.inr ⟨rfl, rfl⟩
    · exact Or.inl ⟨hxk, h.live x hx hne⟩
  · -- the tree has no such key: the guard keeps the table from making it up
    have hupd := Tree.update_absent hs (not_exists.mp hlive) v
    refine ⟨{ e with table := (e.table.update k v).2 }, by simp [update, Tree.step, hupd],
      ⟨rest, hs⟩, hw, ?_⟩
    intro x hx hne
    rcases hpairs x hx with ⟨rfl, w, hmem⟩ | ⟨hx, _⟩
    · rcases hg with hl | h0 | hno
      · exact absurd ((live_iff hs hk).mp hl) hlive
      · exact absurd h0 hne
      · exact absurd hmem (h.wf.not_mem (Chain.bucketExists_eq_false hno))
    · exact h.live x hx hne

/-- A removed key leaves both levels. -/
theorem coherent_remove (h : Coherent e) (hc : CacheContract e (.remove k)) :
    ∃ e', e.remove (calls + 2) k = some e' ∧ Coherent e' := by
  have hk : k ≠ invalidKey := Nat.pos_iff_ne_zero.mp hc.1
  rcases h.sound with ⟨rest, hs⟩
  rcases Hashtable.remove_spec h.wf hk with ⟨hw, hpairs⟩
  by_cases hlive : ∃ w, Stored e.tree.mem e.tree.head k w
  · rcases hlive with ⟨w, hst⟩
    rcases Tree.remove_sound hs hk hst with ⟨evs, t', hrem, hs', hst'⟩
    refine ⟨{ e with table := (e.table.remove k).2, tree := t' },
      by simp [remove, Tree.step, hrem], ⟨rest, hs'⟩, hw, ?_⟩
    intro x hx hne
    rcases hpairs x hx with ⟨hx, hxk⟩
    exact (hst' x.1 x.2 (ne_invalid_of_mem hx)).mpr ⟨hxk, h.live x hx hne⟩
  · have hrem := Tree.remove_absent hs (not_exists.mp hlive)
    refine ⟨{ e with table := (e.table.remove k).2 }, by simp [remove, Tree.step, hrem],
      ⟨rest, hs⟩, hw, ?_⟩
    intro x hx hne
    exact h.live x (hpairs x hx).1 hne

/-- The search delivers the tree's value and may put it into the table. -/
theorem coherent_search (h : Coherent e) (hk : k ≠ invalidKey) :
    ∃ val e', e.search raw calls k = some (val, e') ∧ Coherent e' ∧
      some val = (e.tree.get k).map Prod.snd := by
  rcases h.sound with ⟨rest, hs⟩
  rcases Hashtable.get_spec h.wf hk (e.table.lt + 1) with ⟨hw, hperm, hval⟩
  have hlive : ∀ x ∈ (e.table.get k).2.hashtable.pairs, x.2 ≠ 0 →
      Stored e.tree.mem e.tree.head x.1 x.2 := fun x hx => h.live x (hperm.mem_iff.mp hx)
  unfold search
  by_cases hhit : (e.table.get k).1 = 0
  · -- a miss
    rcases get_sound hs hk with ⟨st, v, hget, hst⟩
    rw [hget]
    by_cases hsample : e.totGet % sampleM = 0
    · rcases Hashtable.put_spec raw calls hw hk v (e.table.lt + 1) with
        ⟨done, ht, hput, hw', hfalse, htrue⟩
      have hput' : (e.table.get k).2.put raw calls k v = some (done, ⟨ht, e.table.lt + 1⟩) := by
        unfold SWTable.put SWTable.get
        simp only
        rw [hput]
        rfl
      refine ⟨v, { e with table := ⟨ht, e.table.lt + 1⟩ }, by simp [hhit, hsample, hput', hget],
        ⟨⟨rest, hs⟩, hw', ?_⟩, rfl⟩
      intro x hx hne
      cases done with
      | false =>
        rw [hfalse rfl] at hx
        exact hlive x hx hne
      | true =>
        rcases (htrue rfl).2 x hx with rfl | hx
        · exact hst hne
        · exact hlive x hx hne
    · exact ⟨v, { e with table := (e.table.get k).2 }, by simp [hhit, hsample, hget],
        ⟨⟨rest, hs⟩, hw, hlive⟩, rfl⟩
  · -- a hit: the value is in the tree
    have hmem : (k, (e.table.get k).1) ∈ e.table.hashtable.pairs := hval.resolve_left hhit
    refine ⟨(e.table.get k).1, { e with table := (e.table.get k).2, hitCnt := e.hitCnt + 1 },
      by simp [hhit], ⟨⟨rest, hs⟩, hw, hlive⟩, ?_⟩
    rw [hs.routed.get_of_stored hk (h.live _ hmem hhit)]
    rfl

/-- Closing the table changes no pair. -/
theorem coherent_autoClose (h : Coherent e) : Coherent (autoClose lowRate e) := by
  unfold autoClose
  simp only
  split
  · exact ⟨h.sound, h.wf, h.live⟩
  · exact ⟨h.sound, h.wf, h.live⟩

theorem coherent_get (h : Coherent e) (hk : k ≠ invalidKey) :
    ∃ val e', e.get raw calls lowRate k = some (val, e') ∧ Coherent e' ∧
      some val = (e.tree.get k).map Prod.snd := by
  unfold get
  split
  · rcases coherent_search raw calls h hk with ⟨val, e', hsearch, h', hval⟩
    exact ⟨val, autoClose lowRate e', by rw [hsearch]; rfl, coherent_autoClose lowRate h', hval⟩
  · rcases h.sound with ⟨rest, hs⟩
    rcases get_sound hs hk with ⟨st, v, hget, _⟩
    exact ⟨v, e, by rw [hget]; rfl, h, by rw [hget]; rfl⟩

/-- One call comes back, keeps the levels coherent, and delivers what the tree would. -/
theorem coherent_step (h : Coherent e) (hc : CacheContract e op) (hg : UpdateGuard e op) :
    ∃ ans e', e.step raw (calls + 2) lowRate op = some (ans, e') ∧ Coherent e' ∧
      DeliversTree raw (calls + 2) lowRate e op := by
  cases op with
  | put k v =>
    rcases coherent_put calls h hc with ⟨e', hput, h'⟩
    exact ⟨none, e', by rw [step, hput]; rfl, h', trivial⟩
  | update k v =>
    rcases coherent_update calls h hc hg with ⟨e', hupd, h'⟩
    exact ⟨none, e', by rw [step, hupd]; rfl, h', trivial⟩
  | remove k =>
    rcases coherent_remove calls h hc with ⟨e', hrem, h'⟩
    exact ⟨none, e', by rw [step, hrem]; rfl, h', trivial⟩
  -- only `Get` delivers a value, so only there is anything to say about one
  | get k =>
    have hk : k ≠ invalidKey := Nat.pos_iff_ne_zero.mp hc.1
    rcases coherent_get raw (calls + 2) lowRate h hk with ⟨val, e', hget, h', hval⟩
    have hstep : e.step raw (calls + 2) lowRate (.get k) = some (some val, e') := by
      rw [step, hget]
      rfl
    refine ⟨some val, e', hstep, h', ?_⟩
    intro ans e'' hstep'
    cases hstep.symm.trans hstep'
    exact hval
  | reset => exact ⟨none, e.reset, rfl, ⟨h.sound, h.wf, h.live⟩, trivial⟩

/-! ## Runs -/

/-- An empty `EPLI`, whatever has been sampled so far. -/
theorem coherent_init (f : Mapping) (pm : Pmem Loc Nat) (lt : UInt32) :
    ∃ e, init f pm lt = some e ∧ ∀ tableOn hitCnt totGet,
      Coherent { e with tableOn := tableOn, hitCnt := hitCnt, totGet := totGet } := by
  rcases SWTable.init_wf lt with ⟨s, hinit, hw, hempty⟩
  refine ⟨_, by rw [init, hinit]; rfl, ?_⟩
  intro tableOn hitCnt totGet
  refine ⟨⟨[], Tree.sound_create f pm⟩, hw, ?_⟩
  unfold TableLive
  simp [hempty]

/-- As long as every `Update` is of a live key, or with `0`, or of a key that the table
has no slot for, `Get` delivers what the tree would, and the table has no pair that
the tree has not. -/
theorem cache_coherent (f : Mapping) (pm : Pmem Loc Nat) (lt : UInt32) (tableOn : Bool)
    (hitCnt totGet : Nat) :
    ∃ e₀, init f pm lt = some e₀ ∧ ∀ ops : List EPLIOp,
      Along (step raw (calls + 2) lowRate) (fun e op => CacheContract e op ∧ UpdateGuard e op)
        { e₀ with tableOn := tableOn, hitCnt := hitCnt, totGet := totGet } ops →
      Along (step raw (calls + 2) lowRate) (DeliversTree raw (calls + 2) lowRate)
        { e₀ with tableOn := tableOn, hitCnt := hitCnt, totGet := totGet } ops ∧
      ∃ answers e, runOps (step raw (calls + 2) lowRate)
          { e₀ with tableOn := tableOn, hitCnt := hitCnt, totGet := totGet } ops =
        some (answers, e) ∧ TableLive e := by
  rcases coherent_init f pm lt with ⟨e₀, hinit, hcoh⟩
  -- the invariant is `Coherent`: the table only holds live pairs of the tree
  have hstep : ∀ (e : EPLI) (op : EPLIOp) (ans : Option Nat) (e' : EPLI), Coherent e →
      CacheContract e op ∧ UpdateGuard e op →
      e.step raw (calls + 2) lowRate op = some (ans, e') → Coherent e' := by
    intro e op ans e' h hok hs
    rcases coherent_step raw calls lowRate h hok.1 hok.2 with ⟨ans₁, e₁, hs₁, h₁, _⟩
    cases hs.symm.trans hs₁
    exact h₁
  refine ⟨e₀, hinit, ?_⟩
  intro ops hok
  constructor
  · refine hok.invariant Coherent hstep ?_ (hcoh tableOn hitCnt totGet)
    intro e op h hok
    rcases coherent_step raw calls lowRate h hok.1 hok.2 with ⟨_, _, _, _, hdel⟩
    exact hdel
  · have htotal := hok.total Coherent ?_ (hcoh tableOn hitCnt totGet)
    · rcases htotal with ⟨answers, e, hrun, h⟩
      exact ⟨answers, e, hrun, h.live⟩
    · intro e op h hok
      rcases coherent_step raw calls lowRate h hok.1 hok.2 with ⟨ans, e', hs, h', _⟩
      exact ⟨ans, e', hs, h'⟩

/-- The hit rate is never too low. -/
def goodRate : Nat → Nat → Bool := fun _ _ => false

/-- A live key is sampled and updated, an absent key is sampled and then put. -/
def sampledOps : List EPLIOp :=
  [.put 1 5, .get 1, .update 1 6, .get 1, .remove 1, .reset, .get 2, .put 2 7, .get 2,
    .update 3 4]

set_option maxRecDepth 100000 in
theorem sampled_coherent : ∃ e₀ answers e,
    init Tree.sampleFile Tree.blank 0 = some e₀ ∧
    Along (step SWTable.dirty 2 goodRate) (DeliversTree SWTable.dirty 2 goodRate) e₀ sampledOps ∧
    runOps (step SWTable.dirty 2 goodRate) e₀ sampledOps = some (answers, e) ∧
    answers = [none, some 5, none, some 6, none, none, some 0, none, some 7, none] ∧
    TableLive e := by
  have hguard : ∀ e ∈ init Tree.sampleFile Tree.blank 0,
      Along (step SWTable.dirty 2 goodRate) (fun e op => CacheContract e op ∧ UpdateGuard e op)
        e sampledOps := by
    decide +kernel
  have hanswers : ((init Tree.sampleFile Tree.blank 0).bind fun e =>
      runOps (step SWTable.dirty 2 goodRate) e sampledOps).map Prod.fst =
        some [none, some 5, none, some 6, none, none, some 0, none, some 7, none] := by
    decide +kernel
  rcases cache_coherent SWTable.dirty 0 goodRate Tree.sampleFile Tree.blank 0 true 0 0 with
    ⟨e₀, hinit, hruns⟩
  have hsame : { e₀ with tableOn := true, hitCnt := 0, totGet := 0 } = e₀ := by
    rcases Option.map_eq_some_iff.mp hinit with ⟨table, _, rfl⟩
    rfl
  rw [hsame] at hruns
  rcases hruns sampledOps (hguard e₀ hinit) with ⟨hdel, answers, e, hrun, hlive⟩
  rw [hinit, Option.bind_some, hrun] at hanswers
  cases hanswers
  exact ⟨e₀, _, e, hinit, hdel, hrun, rfl, hlive⟩

set_option maxRecDepth 100000 in
/-- The `0` of an absent key is sampled, an `Update` gives it a value, and `Get`
delivers that value from the table. -/
theorem cache_makes_up_pair :
    ((init Tree.sampleFile Tree.blank 0).bind fun e =>
        runOps (step SWTable.dirty 2 goodRate) e [.get 1, .update 1 5, .get 1]).map
      (fun r => (r.1, r.2.tree.get 1)) =
    some ([some 0, none, some 5], some (.fail, 0)) := by
  decide +kernel

end EPLI

end Epli
