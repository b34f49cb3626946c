import Epli.Lib.Machine
import Epli.ClhtResize

/-!
# SW-Table

The DRAM cache of hot pairs: a CLHT table of `16384` bins and a logical time. The
table may drop pairs whenever it resizes, but it never gives back a value that is
not the last one it was told.
-/

namespace Epli

open Lib Clht

/-- `SWTable`: the current table of `hashtable`, and `lt`. -/
structure SWTable where
  hashtable : Hashtable
  lt : UInt32

/-- Calls of an `SWTable`. -/
inductive SWOp where
  | put (key val : Nat)
  | update (key val : Nat)
  | remove (key : Nat)
  | get (key : Nat)
deriving DecidableEq, Repr

/-- The key of a call. -/
def SWOp.key : SWOp → Nat
  | put key _ => key
  | update key _ => key
  | remove key => key
  | get key => key

/-- What the CLHT function behind a call returns. -/
inductive SWAnswer where
  | done (ok : Bool)
  | val (v : Nat)
deriving DecidableEq, Repr

namespace SWTable

/-- `num_buckets`. -/
def numBuckets : Nat := 16384

/-- `Init`, which asserts that there is a table. `lt` is never initialised. -/
def init (lt : UInt32) : Option SWTable :=
  (Hashtable.create numBuckets).map fun ht => ⟨ht, lt⟩

/-- `Put`, with the answer of `clht_put` that it drops. -/
def put (raw : Nat → Nat → Nat → Raw) (calls : Nat) (s : SWTable) (key val : Nat) :
    Option (Bool × SWTable) :=
  (s.hashtable.clhtPut raw calls key val s.lt).map fun r => (r.1, { s with hashtable := r.2 })

/-- `Update`, with the answer of `clht_update` that it drops. -/
def update (s : SWTable) (key val : Nat) : Bool × SWTable :=
  let (ok, ht) := s.hashtable.clhtUpdate key val
  (ok, { s with hashtable := ht })

/-- `Get`. -/
def get (s : SWTable) (key : Nat) : Nat × SWTable :=
  let lt := s.lt + 1
  let (val, ht) := s.hashtable.clhtGet key lt
  (val, { hashtable := ht, lt := lt })

/-- `Remove`. -/
def remove (s : SWTable) (key : Nat) : Nat × SWTable :=
  let (val, ht) := s.hashtable.clhtRemove key
  (val, { s with hashtable := ht })

/-- One call. -/
def step (raw : Nat → Nat → Nat → Raw) (calls : Nat) (s : SWTable) :
    SWOp → Option (SWAnswer × SWTable)
  | .put key val => (s.put raw calls key val).map fun r => (.done r.1, r.2)
  | .update key val => some (.done (s.update key val).1, (s.update key val).2)
  | .remove key => some (.val (s.remove key).1, (s.remove key).2)
  | .get key => some (.val (s.get key).1, (s.get key).2)

/-! ## What the table has been told -/

/-- The map after a call and its answer: `Put` counts if `clht_put` answers `true`. -/
def refStep (ref : Nat → Option Nat) : SWOp → SWAnswer → Nat → Option Nat
  | .put key val, .done true => setLoc ref key (some val)
  | .update key val, _ => if (ref key).isSome then setLoc ref key (some val) else ref
  | .remove key, _ => setLoc ref key none
  | _, _ => ref

/-- `Get` returns `0` or the value of the map, and `0` for a key outside the map. -/
def FreshAnswer (ref : Nat → Option Nat) : SWOp → SWAnswer → Prop
  | .get key, .val v => (v = 0 ∨ ref key = some v) ∧ (ref key = none → v = 0)
  | _, _ => True

/-- Every answer of a run is fresh. -/
def NeverStale : (Nat → Option Nat) → List SWOp → List SWAnswer → Prop
  | _, [], [] => True
  | ref, op :: ops, ans :: answers =>
    FreshAnswer ref op ans ∧ NeverStale (refStep ref op ans) ops answers
  | _, _, _ => False

/-- The table is well formed and knows only pairs of the map. -/
def Tracks (s : SWTable) (ref : Nat → Option Nat) : Prop :=
  s.hashtable.Wf ∧ ∀ x ∈ s.hashtable.pairs, ref x.1 = some x.2

variable (raw : Nat → Nat → Nat → Raw) (calls : Nat) {s : SWTable} {op : SWOp}
  {ref : Nat → Option Nat}

/-- The table a run starts with. -/
theorem init_wf (lt : UInt32) :
    ∃ s, init lt = some s ∧ s.hashtable.Wf ∧ s.hashtable.pairs = [] := by
  have hpos : 0 < numBuckets := by decide
  rcases Hashtable.copied_create hpos with ⟨ht, hcreate, hcopied⟩
  have hc := hcopied ht.version
  refine ⟨⟨ht, lt⟩, by rw [init, hcreate]; rfl, ⟨⟨14, hc.buckets⟩, ?_, hc.hash, hc.keyed, ?_⟩, ?_⟩
  · show ht.numBuckets ≤ 2 ^ 31
    rw [hc.buckets]
    decide
  · show (ht.pairs.map Prod.fst).Nodup
    rw [hc.perm.eq_nil]
    exact List.nodup_nil
  · exact hc.perm.eq_nil

/-- One call. The pairs of the table are among those of the map before it, so what is left to say
is which of them the call keeps: all but those of its own key. -/
theorem tracks_step (h : Tracks s ref) (hk : op.key ≠ 0) :
    ∃ ans s', s.step raw calls op = some (ans, s') ∧ FreshAnswer ref op ans ∧
      Tracks s' (refStep ref op ans) := by
  rcases h with ⟨hw, href⟩
  cases op with
  | put k v =>
    change k ≠ 0 at hk
    rcases Hashtable.put_spec raw calls hw hk v s.lt with ⟨ans, ht, hput, hw', hfalse, htrue⟩
    refine ⟨.done ans, { s with hashtable := ht }, by simp [step, put, hput], trivial, hw', ?_⟩
    cases ans with
    | false =>
      -- the key is there already, and nothing is put
      rw [hfalse rfl]
      exact href
    | true =>
      -- a resize may have dropped pairs; the key was not there, so its old value is forgotten
      intro x hx
      rcases (htrue rfl).2 x hx with rfl | hx
      · exact setLoc_self _ _ _
      · have hne : x.1 ≠ k := by
          rintro rfl
          exact (htrue rfl).1 x.2 hx
        show setLoc ref k (some v) x.1 = _
        rw [setLoc_ne _ _ hne]
        exact href x hx
  | update k v =>
    change k ≠ 0 at hk
    rcases Hashtable.update_spec hw hk v with ⟨hw', hpairs⟩
    refine ⟨_, _, rfl, trivial, hw', ?_⟩
    intro x hx
    show (if (ref k).isSome then setLoc ref k (some v) else ref) x.1 = _
    rcases hpairs x hx with ⟨rfl, w, hmem⟩ | ⟨hx, hne⟩
    · -- a pair of the key is in the table, so the map has the key too
      have hin : (ref k).isSome := by
        rw [href _ hmem]
        rfl
      rw [if_pos hin]
      exact setLoc_self _ _ _
    · split
      · rw [setLoc_ne _ _ hne]
        exact href x hx
      · exact href x hx
  | remove k =>
    change k ≠ 0 at hk
    rcases Hashtable.remove_spec hw hk with ⟨hw', hpairs⟩
    refine ⟨_, _, rfl, trivial, hw', ?_⟩
    intro x hx
    rcases hpairs x hx with ⟨hx, hne⟩
    show setLoc ref k none x.1 = _
    rw [setLoc_ne _ _ hne]
    exact href x hx
  | get k =>
    change k ≠ 0 at hk
    rcases Hashtable.get_spec hw hk (s.lt + 1) with ⟨hw', hperm, hval⟩
    -- a value that is found is that of a pair, and a pair is one of the map
    have hfresh : (s.get k).1 = 0 ∨ ref k = some (s.get k).1 := hval.imp_right (href _)
    refine ⟨_, _, rfl, ⟨hfresh, ?_⟩, hw', ?_⟩
    · intro hnone
      rcases hfresh with h0 | hsome
      · exact h0
      · rw [hnone] at hsome
        cases hsome
    · intro x hx
      exact href x (hperm.mem_iff.mp hx)

/-- A run from a table that tracks the map. -/
theorem tracks_run : ∀ {ops : List SWOp} {s : SWTable} {ref : Nat → Option Nat}, Tracks s ref →
    (∀ op ∈ ops, op.key ≠ 0) → ∃ answers s', runOps (step raw calls) s ops = some (answers, s') ∧
      NeverStale ref ops answers ∧ s'.hashtable.Wf := by
  intro ops
  induction ops with
  | nil =>
    intro s ref h _
    exact ⟨[], s, rfl, trivial, h.1⟩
  | cons op ops ih =>
    intro s ref h hk
    rw [List.forall_mem_cons] at hk
    rcases tracks_step raw calls h hk.1 with ⟨ans, s₁, hstep, hfresh, h₁⟩
    rcases ih h₁ hk.2 with ⟨answers, s', hrun, hstale, hw⟩
    refine ⟨ans :: answers, s', ?_, ⟨hfresh, hstale⟩, hw⟩
    simp [runOps, hstep, hrun]

/-- The SW-Table never returns a stale value, and no key has two slots, whatever the
table has dropped in between. -/
theorem swtable_never_stale (lt : UInt32) (ops : List SWOp) (hk : ∀ op ∈ ops, op.key ≠ 0) :
    ∃ s₀ answers s, init lt = some s₀ ∧ runOps (step raw calls) s₀ ops = some (answers, s) ∧
      NeverStale (fun _ => none) ops answers ∧ (s.hashtable.pairs.map Prod.fst).Nodup := by
  rcases init_wf lt with ⟨s₀, hinit, hw, hempty⟩
  have htracks : Tracks s₀ fun _ => none := by
    refine ⟨hw, ?_⟩
    rw [hempty]
    simp
  rcases tracks_run raw calls htracks hk with ⟨answers, s, hrun, hstale, hw'⟩
  exact ⟨s₀, answers, s, hinit, hrun, hstale, hw'.nodup⟩

/-- What `memalign` may leave. -/
def dirty : Nat → Nat → Nat → Raw := fun _ _ _ => ⟨9, 4, 1, 2, 3⟩

/-- Four keys of one bin, so that the last takes an overflow bucket. -/
def oneBinOps : List SWOp :=
  [.put 5 7, .put 16389 8, .put 32773 9, .put 49157 10, .put 5 6, .get 49157, .update 16389 11,
    .get 16389, .remove 5, .get 5]

def oneBinAnswers : List SWAnswer :=
  [.done true, .done true, .done true, .done true, .done false, .val 10, .done true, .val 11,
    .val 7, .val 0]

theorem one_bin_never_stale : ∃ s₀ s, init 0 = some s₀ ∧
    runOps (step dirty 0) s₀ oneBinOps = some (oneBinAnswers, s) ∧
    NeverStale (fun _ => none) oneBinOps oneBinAnswers ∧
    (s.hashtable.pairs.map Prod.fst).Nodup := by
  have hrun : ((init 0).bind fun s => runOps (step dirty 0) s oneBinOps).map Prod.fst =
      some oneBinAnswers := by
    decide +kernel
  rcases swtable_never_stale dirty 0 0 oneBinOps (by decide) with
    ⟨s₀, answers, s, hinit, hs, hstale, hnd⟩
  rw [hinit, Option.bind_some, hs] at hrun
  cases hrun
  exact ⟨s₀, s, hinit, hs, hstale, hnd⟩

end SWTable

end Epli
