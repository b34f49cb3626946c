import Mathlib.Algebra.Group.Int.Defs
import Epli.Ordered

/-!
# Range queries

`RangeScan` and `Scan` of `epltree.h` in the default build. Both start in the
entry the lower bound is looked up in and follow `next`; both come back on every
list that ends at `NULL`, given as many rounds as the list has entries.

Neither filters what its middle loop pushes. In `RangeScan` that loop starts at
the entry that was already scanned, so the query is exact only within one entry.
In `Scan` it pushes the sorted copy of the start entry over and over, so the
query is exact only when that loop does not run, or has nothing to push.
-/

namespace Epli

open Lib Entry

namespace Tree

/-! ## The operations -/

/-- The loop that pushes the pairs of an entry with a key in the range. -/
def slotsInRange (m : Mem) (p startKey endKey : Nat) : List KV :=
  (kvs m p).filter fun x => startKey ≤ x.1 ∧ x.1 ≤ endKey

/-- The loop of `RangeScan` over the middle entries, with at most `rounds`
rounds. Following `next` from `NULL` has no meaning. -/
def rangeMiddle (m : Mem) (endEntry : Nat) : Nat → Nat → List KV → Option (List KV)
  | 0, entry, results => if entry = endEntry then some results else none
  | rounds + 1, entry, results =>
    if entry = endEntry then some results
    else if entry = null then none
    else rangeMiddle m endEntry rounds (m (entry, .next)) (results ++ kvs m entry)

/-- `RangeScan`: the status and `results`. -/
def rangeScan (t : Tree) (rounds startKey endKey : Nat) (results : List KV) :
    Option (Status × List KV) := do
  let startEntry ← t.lookup startKey
  let endEntry ← t.lookup endKey
  let results := results ++ slotsInRange t.mem startEntry startKey endKey
  if startEntry = endEntry then return (.ok, results)
  let results ← rangeMiddle t.mem endEntry rounds startEntry results
  return (.ok, results ++ slotsInRange t.mem endEntry startKey endKey)

/-- The pairs of a sorted copy that are not empty. -/
def liveOf (tmpKvs : List KV) : List KV := tmpKvs.filter fun x => x.1 ≠ invalidKey

/-- The loop of `Scan` over the middle entries: the results if it returns from
`Scan`, else `entry`, `cnt` and the results it leaves. It pushes `tmp_kvs`, which
it does not set. -/
def scanMiddle (m : Mem) (tmpKvs : List KV) (size : Int) :
    Nat → Nat → Int → List KV → Option (List KV ⊕ Nat × Int × List KV)
  | 0, _, _, _ => none
  | rounds + 1, entry, cnt, results =>
    if entry ≠ null ∧ kvsPerEntry ≤ size - cnt then
      let results := results ++ liveOf tmpKvs
      let cnt := cnt + (liveOf tmpKvs).length
      if cnt = size then some (.inl results)
      else scanMiddle m tmpKvs size rounds (m (entry, .next)) cnt results
    else some (.inr (entry, cnt, results))

/-- The loop of `Scan` over the slots of one end entry: whether it returns from
`Scan`, and `cnt` and the results it leaves. -/
def scanSlots (size : Int) : List KV → Int → List KV → Bool × Int × List KV
  | [], cnt, results => (false, cnt, results)
  | x :: tmpKvs, cnt, results =>
    if x.1 ≠ invalidKey then
      if cnt + 1 = size then (true, cnt + 1, results ++ [x])
      else scanSlots size tmpKvs (cnt + 1) (results ++ [x])
    else scanSlots size tmpKvs cnt results

/-- The loop of `Scan` over the end entries, with at most `rounds` rounds. -/
def scanEnd (m : Mem) (size : Int) : Nat → Nat → Int → List KV → Option (List KV)
  | 0, entry, _, results => if entry = null then some results else none
  | rounds + 1, entry, cnt, results =>
    if entry = null then some results
    else
      match scanSlots size (sortedKVs m entry) cnt results with
      | (true, _, results) => some results
      | (false, cnt, results) => scanEnd m size rounds (m (entry, .next)) cnt results

/-- `Scan` behind its middle loop. -/
def scanTail (m : Mem) (size : Int) (rounds : Nat) :
    List KV ⊕ Nat × Int × List KV → Option (List KV)
  | .inl results => some results
  | .inr (entry, cnt, results) => scanEnd m size rounds entry cnt results

/-- `Scan` behind its start entry. -/
def scanRest (m : Mem) (tmpKvs : List KV) (size : Int) (rounds entry : Nat) (cnt : Int)
    (results : List KV) : Option (List KV) :=
  (scanMiddle m tmpKvs size rounds entry cnt results).bind (scanTail m size rounds)

/-- The first value an `int` cannot hold. -/
abbrev intBound : Int := 2 ^ 31

/-- `Scan`: the status and `results`. An `int` that overflows has no meaning;
`cnt` never gets there before `size`. -/
def scan (t : Tree) (rounds startKey : Nat) (size : Int) (results : List KV) :
    Option (Status × List KV) := do
  let entry ← t.lookup startKey
  if entry = null then return (.ok, results)
  let tmpKvs := sortedKVs t.mem entry
  match tmpKvs.findIdx? fun x => startKey ≤ x.1 with
  | some startPos =>
    if intBound ≤ startPos + size then none
    else
      let endPos := min (startPos + size) kvsPerEntry
      let results := results ++ (tmpKvs.drop startPos).take (endPos - startPos).toNat
      let cnt := endPos - startPos
      if cnt = size then return (.ok, results)
      let results ← scanRest t.mem tmpKvs size rounds (t.mem (entry, .next)) cnt results
      return (.ok, results)
  | none =>
    let results ← scanRest t.mem tmpKvs size rounds (t.mem (entry, .next)) 0 results
    return (.ok, results)

/-! ## What they are for -/

/-- The answer of a range query: each stored pair with a key in the range once. -/
structure RangeExact (t : Tree) (startKey endKey : Nat) (res : List KV) : Prop where
  once : res.Nodup
  mem_iff : ∀ x, x ∈ res ↔ startKey ≤ x.1 ∧ x.1 ≤ endKey ∧ Stored t.mem t.head x.1 x.2

/-- The stored pairs from a key on, in ascending order. -/
structure LiveFrom (t : Tree) (startKey : Nat) (live : List KV) : Prop where
  ascending : live.Pairwise fun a b => a.1 < b.1
  mem_iff : ∀ x, x ∈ live ↔ startKey ≤ x.1 ∧ Stored t.mem t.head x.1 x.2

variable {m : Mem} {t : Tree} {as : List Nat} {p startKey s s₀ : Nat}
  {rest pre post : List (Nat × Nat)}

/-! ## The stored pairs from a key on -/

/-- The pairs of a sorted copy from a key on. -/
def liveAbove (m : Mem) (p startKey : Nat) : List KV :=
  (sortedKVs m p).filter fun x => startKey ≤ x.1

theorem liveAbove_ascending (hd : Distinct m p) (hs : 0 < startKey) :
    (liveAbove m p startKey).Pairwise fun a b => a.1 < b.1 := by
  rw [liveAbove, List.pairwise_filter]
  refine (sortedKVs_proper hd).imp ?_
  intro a b hlt ha _
  have : startKey ≤ a.1 := by simpa using ha
  exact hlt (by show a.1 ≠ 0; omega)

namespace Sound

/-- The keys of the cells on either side of a cell. -/
theorem cell_bounds (h : Sound t s₀ rest)
    (hcells : (0, t.head) :: rest = pre ++ (s, p) :: post) :
    (∀ x ∈ pre, ∀ k, ProperKey t.mem x.2 k → k < s) ∧
      (∀ k, ProperKey t.mem p k → s ≤ k) ∧
      (∀ x ∈ post, ∀ k, ProperKey t.mem x.2 k → x.1 ≤ k) ∧
      (∀ x ∈ post, ∀ k, ProperKey t.mem p k → k < x.1) ∧
      post.Pairwise fun x y => ∀ k, ProperKey t.mem x.2 k → k < y.1 := by
  have hparts := h.cells
  rw [hcells] at hparts
  have hhigh := hparts.high
  rw [List.pairwise_append, List.pairwise_cons] at hhigh
  refine ⟨?_, ?_, ?_, ?_, ?_⟩
  · intro x hx k hk
    exact hhigh.2.2 x hx (s, p) (by simp) k (Or.inl hk)
  · intro k hk
    exact hparts.low (s, p) (by simp) k (Or.inl hk)
  · intro x hx k hk
    exact hparts.low x (by simp [hx]) k (Or.inl hk)
  · intro x hx k hk
    exact hhigh.2.1.1 x hx k (Or.inl hk)
  · exact hhigh.2.1.2.imp fun hxy k hk => hxy k (Or.inl hk)

end Sound

end Tree

end Epli
