import Mathlib.Order.Monotone.Defs
import Epli.AlexRefine
import Epli.Lib.Machine

/-!
# The leaves of the index

The data nodes of ALEX are linked in the order of their keys. The model nodes above them send
a key to one of the leaves; this is taken as a monotone function here, for the model nodes
compute in floating point. `get_leaf` itself moves on to a neighbour where rounding has sent a
key to the wrong side of a boundary (`ALEX_SAFE_LOOKUP`); the function stands for the result.
A leaf that has become too costly is split in two where its parent cuts it.

A sequence of operations answers like the ordered multimap that the tree takes its index for
(`run_explained`).
-/

namespace Epli.Alex

open Lib DataNode

variable {K P : Type} [LinearOrder K] [OrderTop K]

/-- The linked leaves, and the leaf that `get_leaf` returns for a key. -/
structure Leaves (K P : Type) [LinearOrder K] where
  list : List (DataNode K P)
  getLeaf : K → Nat
  mono : Monotone getLeaf
  lt : ∀ k, getLeaf k < list.length

/-- Which keys a parent sends to the right one of two leaves. -/
structure Cut (K : Type) [LinearOrder K] where
  right : K → Bool
  rise : ∀ k k', k ≤ k' → right k = true → right k' = true

namespace Leaves

/-- The index that has only a root, which is a leaf. -/
def root (leaf : DataNode K P) : Leaves K P where
  list := [leaf]
  getLeaf := fun _ => 0
  mono := fun _ _ _ => le_rfl
  lt := fun _ => Nat.one_pos

/-! ## Lookup -/

/-- The loop through the previous leaves, the nearest first. -/
def walkBack : List (DataNode K P) → DataNode K P → P
  | [], leaf => leaf.payloadSlots leaf.firstPos
  | prev :: more, _ =>
    if prev.numKeys > 0 then prev.payloadSlots prev.lastPos else walkBack more prev

/-- The leaf of a key. -/
def leafOf (t : Leaves K P) (key : K) : DataNode K P := t.list.get ⟨t.getLeaf key, t.lt key⟩

def getPayloadLastNoGreaterThan (t : Leaves K P) (key : K) : P :=
  let leaf := t.leafOf key
  let ub := leaf.upperBound key
  if 0 < ub then leaf.payloadSlots (ub - 1)
  else walkBack (t.list.take (t.getLeaf key)).reverse leaf

/-- `get_payload`. -/
def getPayload (t : Leaves K P) (key : K) : Option P :=
  ((t.leafOf key).findKey key).map (t.leafOf key).payloadSlots

/-! ## Update -/

/-- Put another node in the place of the leaf of a key. -/
def setLeaf (t : Leaves K P) (key : K) (leaf : DataNode K P) : Leaves K P :=
  { t with
    list := t.list.set (t.getLeaf key) leaf
    lt := fun k => by
      rw [List.length_set]
      exact t.lt k }

/-- One attempt of `insert`. -/
def insert (t : Leaves K P) (c : Costs) (b : Build K P) (key : K) (payload : P) :
    Option (Leaves K P × Except Nat Nat) :=
  ((t.leafOf key).insert c b key payload).map fun r => (t.setLeaf key r.1, r.2)

/-- `erase`. It calls `merge` on a leaf it has emptied, which returns at once if the leaf is
the root. -/
def erase (t : Leaves K P) (b : Build K P) (key : K) : Leaves K P × Nat :=
  let r := (t.leafOf key).erase b key
  (t.setLeaf key r.1, r.2)

/-- `resize` of the leaf of a key, to expand it or to train its model again. -/
def resize (t : Leaves K P) (b : Build K P) (key : K) : Leaves K P :=
  t.setLeaf key ((t.leafOf key).resize b)

/-! ## Splitting a leaf -/

/-- "Account for off-by-one errors due to floating-point precision issues." -/
def rightBoundary (cut : Cut K) (leaf : DataNode K P) : Nat → Nat → Nat
  | 0, boundary => boundary
  | n + 1, boundary =>
    if boundary < leaf.dataCapacity ∧ leaf.keySlots boundary ≠ ⊤ ∧
        cut.right (leaf.keySlots boundary) = false then
      rightBoundary cut leaf n
        (min (leaf.getNextFilledPosition boundary false + 1) leaf.dataCapacity)
    else boundary

/-- `bulk_load_leaf_node_from_existing`: the keys are counted before if the model is reused. -/
def bulkLoadLeaf (reuse : Bool) (b : Build K P) (leaf : DataNode K P) (left right : Nat) :
    DataNode K P :=
  bulkLoadFromExisting b leaf left right
    (if reuse then some (leaf.numKeysInRange left right) else none)

/-- The two nodes of `create_two_new_data_nodes`. The boundary is where a search for a key
computed in floating point has come to. -/
def createTwoNewDataNodes (cut : Cut K) (reuse : Bool) (b b' : Build K P) (boundary : Nat)
    (leaf : DataNode K P) : DataNode K P × DataNode K P :=
  let boundary := rightBoundary cut leaf leaf.dataCapacity boundary
  (bulkLoadLeaf reuse b leaf 0 boundary, bulkLoadLeaf reuse b' leaf boundary leaf.dataCapacity)

/-- Where a key goes after leaf `i` has been split. -/
def splitRoute (cut : Cut K) (i n : Nat) (key : K) : Nat :=
  if n < i ∨ n = i ∧ cut.right key = false then n else n + 1

/-- Replace the leaf of a key by its two halves. Where a fanout tree was computed,
`create_new_data_nodes` makes the leaves: a tree of two nodes, the most that
`splitting_policy_method = 1` asks for, gives these two but for their models, which are
parameters. Larger fanouts are left out. -/
def split (t : Leaves K P) (cut : Cut K) (reuse : Bool) (b b' : Build K P) (boundary : Nat)
    (key : K) : Leaves K P :=
  let r := createTwoNewDataNodes cut reuse b b' boundary (t.leafOf key)
  let i := t.getLeaf key
  { list := t.list.take i ++ r.1 :: r.2 :: t.list.drop (i + 1)
    getLeaf := fun k => splitRoute cut i (t.getLeaf k) k
    mono := by
      intro k k' hle
      have hmono := t.mono hle
      have hrise := cut.rise k k' hle
      show splitRoute cut i (t.getLeaf k) k ≤ splitRoute cut i (t.getLeaf k') k'
      unfold splitRoute
      split
      · split <;> omega
      · split
        · rename_i hk hk'
          rcases hk' with hlt | ⟨heq, hright⟩
          · omega
          · have hsame : t.getLeaf k = i := by omega
            rw [hrise (by simpa [hsame] using hk)] at hright
            cases hright
        · omega
    lt := by
      intro k
      have hk := t.lt k
      have hi := t.lt key
      rw [List.length_append, List.length_cons, List.length_cons, List.length_take,
        List.length_drop]
      show splitRoute cut i (t.getLeaf k) k < _
      unfold splitRoute
      split <;> omega }

/-! ## The entries of all leaves -/

def entries (t : Leaves K P) : List (K × P) := t.list.flatMap DataNode.entries

/-- Every leaf is well formed and holds what is sent to it. -/
structure Sound (t : Leaves K P) : Prop where
  leaf : ∀ leaf ∈ t.list, leaf.WellFormed
  routed : ∀ i leaf, t.list[i]? = some leaf → ∀ x ∈ leaf.entries, t.getLeaf x.1 = i

variable {t : Leaves K P} {key : K} {payload : P} {b b' : Build K P} {leaf : DataNode K P}

/-- One leaf for all keys is sound when it is well formed. -/
theorem root_sound (h : leaf.WellFormed) : (root leaf).Sound := by
  constructor
  · intro d hd
    rwa [List.mem_singleton.mp hd]
  · intro i d hi x _
    have hlt := (List.getElem?_eq_some_iff.mp hi).1
    rw [root, List.length_singleton] at hlt
    show 0 = i
    omega

omit [OrderTop K] in
theorem root_entries (leaf : DataNode K P) : (root leaf).entries = leaf.entries :=
  List.append_nil _

omit [OrderTop K] in
/-- A key that is sent further to the right is greater. -/
theorem lt_of_getLeaf_lt {k k' : K} (h : t.getLeaf k < t.getLeaf k') : k < k' := by
  by_contra hle
  exact absurd (t.mono (not_lt.mp hle)) (by omega)

/-- Sound leaves hold their entries in key order. -/
theorem Sound.ordered (h : t.Sound) : Ordered t.entries := by
  unfold Ordered entries
  rw [List.pairwise_flatMap]
  constructor
  · exact fun leaf hleaf => (h.leaf leaf hleaf).ordered
  · rw [List.pairwise_iff_getElem]
    intro i j hi hj hij x hx y hy
    have hxi := h.routed i _ (List.getElem?_eq_getElem hi) x hx
    have hyj := h.routed j _ (List.getElem?_eq_getElem hj) y hy
    exact (lt_of_getLeaf_lt (t := t) (by omega)).le

/-- The multimap that the leaves stand for. -/
def Sound.map (h : t.Sound) : Multimap K P := ⟨t.entries, h.ordered⟩

/-- The multimap of a tree is its list of entries. -/
theorem Sound.map_eq (h : t.Sound) {m : Multimap K P} (heq : t.entries = m.kvs) : h.map = m := by
  cases m with
  | mk kvs sorted =>
    unfold Sound.map
    rw [Multimap.mk.injEq]
    exact heq

/-- The leaf of a key, the smaller keys before it and the greater ones behind it. -/
theorem Sound.around (h : t.Sound) (key : K) : ∃ before after,
    t.list = before ++ t.leafOf key :: after ∧ before.length = t.getLeaf key ∧
      (∀ x ∈ before.flatMap DataNode.entries, x.1 < key) ∧
      ∀ x ∈ after.flatMap DataNode.entries, key < x.1 := by
  have hlt := t.lt key
  refine ⟨t.list.take (t.getLeaf key), t.list.drop (t.getLeaf key + 1), ?_, ?_, ?_, ?_⟩
  · unfold leafOf
    rw [List.get_eq_getElem, List.getElem_cons_drop, List.take_append_drop]
  · rw [List.length_take]
    omega
  · intro x hx
    obtain ⟨leaf, hleaf, hx⟩ := List.mem_flatMap.mp hx
    obtain ⟨i, hi, rfl⟩ := List.mem_take_iff_getElem.mp hleaf
    have hroute := h.routed i _ (List.getElem?_eq_getElem (by omega)) x hx
    exact lt_of_getLeaf_lt (t := t) (by omega)
  · intro x hx
    obtain ⟨leaf, hleaf, hx⟩ := List.mem_flatMap.mp hx
    obtain ⟨i, hi, rfl⟩ := List.mem_drop_iff_getElem.mp hleaf
    have hroute := h.routed _ _ (List.getElem?_eq_getElem (by omega)) x hx
    exact lt_of_getLeaf_lt (t := t) (by omega)

/-! ## Lookup finds the floor -/

/-- The last entry of a node. -/
theorem lastPos_entry (h : leaf.WellFormed) (hpos : 0 < leaf.numKeys) : ∃ pre,
    leaf.entries = pre ++ [(leaf.keySlots leaf.lastPos, leaf.payloadSlots leaf.lastPos)] := by
  have hscan := scanDown_spec leaf.checkExists leaf.dataCapacity
  unfold DataNode.lastPos
  split at hscan
  · rename_i g heq
    obtain ⟨hlt, hf, hgaps⟩ := hscan
    rw [heq, Option.getD_some]
    have hlast := entries_split (f := fun i => (leaf.keySlots i, leaf.payloadSlots i)) hf
      (Nat.zero_le g) hlt
    have hnil : Lib.entries leaf.checkExists (fun i => (leaf.keySlots i, leaf.payloadSlots i))
        (g + 1) leaf.dataCapacity = [] := entries_gaps fun i hi hi' => hgaps i hi hi'
    rw [hnil] at hlast
    exact ⟨_, hlast⟩
  · have hnone : leaf.entries = [] := entries_gaps fun i _ hi => hscan i hi
    rw [← h.count, hnone] at hpos
    exact absurd hpos (Nat.lt_irrefl 0)

omit [LinearOrder K] [OrderTop K] in
/-- The first entry of a node. -/
theorem firstPos_entry (hne : leaf.entries ≠ []) : ∃ post,
    leaf.entries = (leaf.keySlots leaf.firstPos, leaf.payloadSlots leaf.firstPos) :: post := by
  have hscan := scanUp_spec leaf.checkExists leaf.dataCapacity 0
  unfold DataNode.firstPos
  split at hscan
  · rename_i g heq
    obtain ⟨_, hlt, hf, hgaps⟩ := hscan
    rw [heq, Option.getD_some]
    have hfirst := entries_split (f := fun i => (leaf.keySlots i, leaf.payloadSlots i)) hf
      (Nat.zero_le g) (show g < leaf.dataCapacity by omega)
    rw [entries_gaps hgaps, List.nil_append] at hfirst
    exact ⟨_, hfirst⟩
  · exact absurd (entries_gaps fun i hi hi' => hscan i hi (by omega)) hne

/-- The way back comes to the last entry before the leaf, or to the first leaf of all. -/
theorem walkBack_spec : ∀ (before : List (DataNode K P)) (leaf : DataNode K P),
    (∀ d ∈ before, d.WellFormed) →
      (∃ pre x, before.reverse.flatMap DataNode.entries = pre ++ [x] ∧
        walkBack before leaf = x.2) ∨
      before.reverse.flatMap DataNode.entries = [] ∧ ∃ first rest,
        before.reverse ++ [leaf] = first :: rest ∧
        walkBack before leaf = first.payloadSlots first.firstPos := by
  intro before
  induction before with
  | nil => exact fun leaf _ => Or.inr ⟨rfl, leaf, [], rfl, rfl⟩
  | cons prev more ih =>
    intro leaf hwell
    rw [List.forall_mem_cons] at hwell
    unfold walkBack
    rw [List.reverse_cons, List.flatMap_append, List.flatMap_singleton]
    by_cases hpos : prev.numKeys > 0
    · rw [if_pos hpos]
      obtain ⟨pre, heq⟩ := lastPos_entry hwell.1 hpos
      left
      refine ⟨more.reverse.flatMap DataNode.entries ++ pre,
        (prev.keySlots prev.lastPos, prev.payloadSlots prev.lastPos), ?_, rfl⟩
      rw [heq, List.append_assoc]
    -- an empty leaf is passed, unless it is the first of all
    · rw [if_neg hpos]
      have hempty : prev.entries = [] := by
        rw [← List.length_eq_zero_iff, hwell.1.count]
        omega
      rw [hempty, List.append_nil]
      rcases ih prev hwell.2 with hlast | ⟨hnone, first, rest, heq, hwalk⟩
      · exact Or.inl hlast
      · refine Or.inr ⟨hnone, first, rest ++ [leaf], ?_, hwalk⟩
        rw [heq, List.cons_append]

omit [LinearOrder K] [OrderTop K] in
/-- The first position of a node without entries. -/
theorem firstPos_none (hnone : leaf.entries = []) : leaf.firstPos = 0 := by
  have hscan := scanUp_spec leaf.checkExists leaf.dataCapacity 0
  unfold DataNode.firstPos
  split at hscan
  · rename_i g heq
    obtain ⟨_, hlt, hf, _⟩ := hscan
    have hmem : (leaf.keySlots g, leaf.payloadSlots g) ∈ leaf.entries :=
      mem_entries.mpr ⟨g, Nat.zero_le g, by omega, hf, rfl⟩
    rw [hnone] at hmem
    cases hmem
  · rename_i heq
    rw [heq]
    rfl

/-- What a lookup comes to: the last entry with a key that is not above, or the first leaf if all
keys are above. -/
theorem Sound.lookup_cases (h : t.Sound) (hkey : key < ⊤) :
    (∃ pre x post, t.entries = pre ++ x :: post ∧ (∀ y ∈ post, key < y.1) ∧ x.1 ≤ key ∧
      t.getPayloadLastNoGreaterThan key = x.2) ∨
    (∀ x ∈ t.entries, key < x.1) ∧ ∃ first rest, t.list = first :: rest ∧
      t.getPayloadLastNoGreaterThan key = first.payloadSlots first.firstPos := by
  obtain ⟨before, after, hlist, hlen, hbefore, hafter⟩ := h.around key
  have hmem : ∀ {d}, d ∈ before ++ t.leafOf key :: after → d.WellFormed := by
    intro d hd
    refine h.leaf d ?_
    rwa [hlist]
  -- the floor in the leaf of the key, if it has one
  have hfloor := (hmem (List.mem_append_right _ List.mem_cons_self)).floor hkey
  have hentries : t.entries = before.flatMap DataNode.entries ++ ((t.leafOf key).entries ++
      after.flatMap DataNode.entries) := by
    unfold entries
    rw [hlist, List.flatMap_append, List.flatMap_cons]
  unfold getPayloadLastNoGreaterThan
  simp only
  by_cases hub : (t.leafOf key).upperBound key = 0
  · -- the loop goes through the leaves before
    rw [if_pos hub] at hfloor
    have htake : t.list.take (t.getLeaf key) = before := by
      rw [hlist, ← hlen, List.take_left]
    have hhigh : ∀ x ∈ (t.leafOf key).entries ++ after.flatMap DataNode.entries, key < x.1 :=
      List.forall_mem_append.mpr ⟨hfloor, hafter⟩
    have hwalk := walkBack_spec before.reverse (t.leafOf key) fun d hd =>
      hmem (List.mem_append_left _ (List.mem_reverse.mp hd))
    rw [List.reverse_reverse] at hwalk
    rw [if_neg (by omega), htake]
    rcases hwalk with ⟨pre, x, hlast, hwalk⟩ | ⟨hnone, first, rest, hfirst, hwalk⟩
    · refine Or.inl ⟨pre, x, _, ?_, hhigh, ?_, hwalk⟩
      · rw [hentries, hlast, List.append_assoc, List.singleton_append]
      · refine (hbefore x ?_).le
        rw [hlast]
        exact List.mem_append_right _ List.mem_cons_self
    · refine Or.inr ⟨?_, first, rest ++ after, ?_, hwalk⟩
      · rwa [hentries, hnone]
      · rw [hlist, List.append_cons, hfirst, List.cons_append]
  -- the floor is in the leaf itself
  · rw [if_neg hub] at hfloor
    rw [if_pos (by omega)]
    obtain ⟨pre, post, hsplit, _, hle, hpost⟩ := hfloor
    refine Or.inl ⟨before.flatMap DataNode.entries ++ pre,
      ((t.leafOf key).keySlots ((t.leafOf key).upperBound key - 1),
        (t.leafOf key).payloadSlots ((t.leafOf key).upperBound key - 1)),
      post ++ after.flatMap DataNode.entries, ?_, ?_, hle, rfl⟩
    · rw [hentries, hsplit]
      simp only [List.append_assoc, List.cons_append]
    · exact List.forall_mem_append.mpr ⟨hpost, hafter⟩

/-- There is something to find: a key that is not above, or an entry in the first leaf. -/
def Finds (t : Leaves K P) (key : K) : Prop :=
  (∃ x ∈ t.entries, x.1 ≤ key) ∨ ∃ first rest, t.list = first :: rest ∧ first.entries ≠ []

/-- The lookup of the tree finds the floor. -/
theorem Sound.floor (h : t.Sound) (hkey : key < ⊤) (hne : t.Finds key) :
    ∃ x, h.map.floor key = some x ∧ t.getPayloadLastNoGreaterThan key = x.2 := by
  rcases h.lookup_cases hkey with ⟨pre, x, post, hsplit, hpost, hle, hget⟩ |
    ⟨hhigh, first, rest, hlist, hget⟩
  · exact ⟨x, Multimap.floor_of_split hsplit hpost (Or.inl hle), hget⟩
  · have hfirst : first.entries ≠ [] := by
      rcases hne with ⟨x, hx, hle⟩ | ⟨first', rest', heq, hne⟩
      · exact absurd hle (not_le.mpr (hhigh x hx))
      · rw [hlist] at heq
        cases heq
        exact hne
    obtain ⟨post, hpost⟩ := firstPos_entry hfirst
    have hsplit : t.entries = [] ++ (first.keySlots first.firstPos,
        first.payloadSlots first.firstPos) :: (post ++ rest.flatMap DataNode.entries) := by
      unfold entries
      rw [hlist, List.flatMap_cons, hpost]
      rfl
    refine ⟨_, Multimap.floor_of_split hsplit (fun y hy => hhigh y ?_) (Or.inr rfl), hget⟩
    rw [hsplit]
    exact List.mem_cons_of_mem _ hy

/-- Where there is nothing to find, the lookup comes to the first leaf, which is empty, and returns
what its first slot holds. -/
theorem Sound.floor_lost (h : t.Sound) (hkey : key < ⊤) (hlost : ¬t.Finds key) :
    ∃ first rest, t.list = first :: rest ∧ first.entries = [] ∧
      t.getPayloadLastNoGreaterThan key = first.payloadSlots 0 := by
  rcases h.lookup_cases hkey with ⟨pre, x, post, hsplit, _, hle, _⟩ |
    ⟨_, first, rest, hlist, hget⟩
  · refine absurd (Or.inl ⟨x, ?_, hle⟩) hlost
    rw [hsplit]
    exact List.mem_append_right _ List.mem_cons_self
  · have hempty : first.entries = [] := by
      by_contra hne
      exact hlost (Or.inr ⟨first, rest, hlist, hne⟩)
    rw [firstPos_none hempty] at hget
    exact ⟨first, rest, hlist, hempty, hget⟩

/-! ## Updates -/

omit [OrderTop K] in
/-- Putting a leaf back in its own place changes nothing. -/
theorem setLeaf_self (t : Leaves K P) (key : K) : t.setLeaf key (t.leafOf key) = t := by
  cases t with
  | mk list getLeaf mono lt =>
    simp only [setLeaf, leafOf, List.get_eq_getElem, List.set_getElem_self]

omit [LinearOrder K] [OrderTop K] in
/-- The entries of a list of leaves, around one of them. -/
theorem flatMap_around (before after : List (DataNode K P)) (leaf : DataNode K P) :
    (before ++ leaf :: after).flatMap DataNode.entries =
      before.flatMap DataNode.entries ++ (leaf.entries ++ after.flatMap DataNode.entries) := by
  rw [List.flatMap_append, List.flatMap_cons]

omit [OrderTop K] in
/-- A leaf that is set takes the old one's place. -/
theorem list_setLeaf {before after : List (DataNode K P)}
    (hlist : t.list = before ++ t.leafOf key :: after) (hlen : before.length = t.getLeaf key)
    (leaf : DataNode K P) : (t.setLeaf key leaf).list = before ++ leaf :: after := by
  show t.list.set (t.getLeaf key) leaf = _
  rw [← hlen]
  conv_lhs => rw [hlist]
  rw [List.set_append_right _ _ (le_refl _), Nat.sub_self, List.set_cons_zero]

/-- A leaf may be replaced by one whose entries are sent to it. -/
theorem Sound.setLeaf (h : t.Sound) (hwell : leaf.WellFormed)
    (hrouted : ∀ x ∈ leaf.entries, t.getLeaf x.1 = t.getLeaf key) :
    (t.setLeaf key leaf).Sound := by
  constructor
  · intro d hd
    rcases List.mem_or_eq_of_mem_set hd with hd | rfl
    · exact h.leaf d hd
    · exact hwell
  · intro i d hi x hx
    change (t.list.set (t.getLeaf key) leaf)[i]? = some d at hi
    show t.getLeaf x.1 = i
    rw [List.getElem?_set] at hi
    split at hi
    · rename_i heq
      rw [if_pos (heq ▸ t.lt key), Option.some.injEq] at hi
      subst hi
      rw [hrouted x hx, heq]
    · exact h.routed i d hi x hx

/-- The entries of the leaf of a key are sent to it. -/
theorem Sound.routed_leafOf (h : t.Sound) (key : K) :
    ∀ x ∈ (t.leafOf key).entries, t.getLeaf x.1 = t.getLeaf key := by
  refine h.routed _ _ ?_
  unfold leafOf
  rw [List.get_eq_getElem]
  exact List.getElem?_eq_getElem (t.lt key)

/-- The leaf of a key is well formed. -/
theorem Sound.wellFormed_leafOf (h : t.Sound) (key : K) : (t.leafOf key).WellFormed :=
  h.leaf _ (List.get_mem _ _)

/-- An insertion into the leaf of the key is one into the multimap. -/
theorem Sound.insert (h : t.Sound) (c : Costs) (b : Build K P) (key : K) (payload : P) :
    match c.fail (t.leafOf key) with
    | some flag => t.insert c b key payload = some (t, .error flag)
    | none => ∃ t' pos, t.insert c b key payload = some (t', .ok pos) ∧ t'.Sound ∧
        t'.entries = Multimap.insertList key payload t.entries := by
  have hins := (h.wellFormed_leafOf key).insert c b key payload
  unfold Leaves.insert
  split
  · rename_i flag hfail
    rw [hfail] at hins
    simp only at hins
    -- the leaf asks to be split or resized first, and nothing has changed
    rw [hins, Option.map_some, setLeaf_self]
  · rename_i hfail
    rw [hfail] at hins
    obtain ⟨leaf, pos, hleaf, hwell, hentries, _⟩ := hins
    obtain ⟨before, after, hlist, hlen, hbefore, hafter⟩ := h.around key
    refine ⟨t.setLeaf key leaf, pos, by rw [hleaf]; rfl, h.setLeaf hwell ?_, ?_⟩
    · intro x hx
      rw [hentries] at hx
      rcases Multimap.mem_insertList.mp hx with rfl | hx
      · rfl
      · exact h.routed_leafOf key x hx
    -- the leaves before hold smaller keys and those after larger ones, so the insertion is in
    -- this leaf
    · unfold Leaves.entries
      rw [list_setLeaf hlist hlen leaf, flatMap_around, hentries]
      conv_rhs => rw [hlist]
      rw [flatMap_around, Multimap.insertList_append _ _ _ _ fun x hx => (hbefore x hx).le,
        Multimap.insertList_append_of_lt _ _ hafter]

/-- Entries with other keys are not erased. -/
theorem Sound.erase (h : t.Sound) (b : Build K P) (key : K) :
    (t.erase b key).1.Sound ∧
      (t.erase b key).1.entries = t.entries.filter (fun x => ¬x.1 = key) ∧
      (t.erase b key).2 = (t.entries.filter fun x => x.1 = key).length := by
  obtain ⟨hwell, hentries, hcount⟩ := (h.wellFormed_leafOf key).erase b key
  obtain ⟨before, after, hlist, hlen, hbefore, hafter⟩ := h.around key
  unfold Leaves.erase
  simp only
  generalize DataNode.erase (t.leafOf key) b key = r at hwell hentries hcount
  -- only the key's own leaf has entries to erase
  have hne : ∀ x ∈ before.flatMap DataNode.entries, ¬x.1 = key := fun x hx => (hbefore x hx).ne
  have hne' : ∀ x ∈ after.flatMap DataNode.entries, ¬x.1 = key := fun x hx => (hafter x hx).ne'
  refine ⟨h.setLeaf hwell ?_, ?_, ?_⟩
  · intro x hx
    rw [hentries] at hx
    exact h.routed_leafOf key x (List.mem_filter.mp hx).1
  · unfold Leaves.entries
    rw [list_setLeaf hlist hlen r.1, flatMap_around, hentries]
    conv_rhs => rw [hlist]
    rw [flatMap_around, List.filter_append, List.filter_append,
      List.filter_eq_self.mpr fun x hx => decide_eq_true (hne x hx),
      List.filter_eq_self.mpr fun x hx => decide_eq_true (hne' x hx)]
  · rw [hcount]
    unfold Leaves.entries
    conv_rhs => rw [hlist]
    have hnil : (before.flatMap DataNode.entries).filter (fun x => x.1 = key) = [] :=
      List.filter_eq_nil_iff.mpr fun x hx => by simpa using hne x hx
    have hnil' : (after.flatMap DataNode.entries).filter (fun x => x.1 = key) = [] :=
      List.filter_eq_nil_iff.mpr fun x hx => by simpa using hne' x hx
    rw [flatMap_around, List.filter_append, List.filter_append, hnil, hnil', List.nil_append,
      List.append_nil]

/-- A resize of a leaf keeps the entries of the tree. -/
theorem Sound.resize (h : t.Sound) (b : Build K P) (key : K) :
    (t.resize b key).Sound ∧ (t.resize b key).entries = t.entries := by
  obtain ⟨hwell, hentries, _⟩ := (h.wellFormed_leafOf key).resize b
  obtain ⟨before, after, hlist, hlen, _, _⟩ := h.around key
  unfold Leaves.resize
  refine ⟨h.setLeaf hwell ?_, ?_⟩
  · rw [hentries]
    exact h.routed_leafOf key
  · unfold Leaves.entries
    rw [list_setLeaf hlist hlen, flatMap_around, hentries]
    conv_rhs => rw [hlist]
    rw [flatMap_around]

/-! ## Splitting a leaf -/

/-- Where a cut may start: what is before the boundary goes to the left. The greatest key goes to
the right, if there is an entry of it. -/
structure Boundary (cut : Cut K) (leaf : DataNode K P) (boundary : Nat) : Prop where
  le : boundary ≤ leaf.dataCapacity
  left : ∀ i < boundary, leaf.checkExists i = true → cut.right (leaf.keySlots i) = false
  top : cut.right ⊤ = true ∨ ∀ x ∈ leaf.entries, x.1 ≠ ⊤

/-- The loop passes over the entries that go to the left. -/
theorem rightBoundary_spec {cut : Cut K} (h : leaf.WellFormed) : ∀ {n boundary : Nat},
    leaf.dataCapacity ≤ boundary + n → Boundary cut leaf boundary →
      Boundary cut leaf (rightBoundary cut leaf n boundary) ∧
        ∀ i, rightBoundary cut leaf n boundary ≤ i → i < leaf.dataCapacity →
          leaf.checkExists i = true → cut.right (leaf.keySlots i) = true := by
  intro n
  induction n with
  | zero =>
    intro boundary hn hb
    exact ⟨hb, fun i hi hi' => absurd hi (by have := hb.le; unfold rightBoundary; omega)⟩
  | succ n ih =>
    intro boundary hn hb
    unfold rightBoundary
    by_cases hgo : boundary < leaf.dataCapacity ∧ leaf.keySlots boundary ≠ ⊤ ∧
        cut.right (leaf.keySlots boundary) = false
    · rw [if_pos hgo]
      -- the loop skips to the next entry, which is left of the cut as well
      have hnext := h.nextFilled hb.le
      generalize leaf.getNextFilledPosition boundary false = r at hnext
      have hle := hnext.le
      refine ih (by omega) ⟨by omega, fun i hi hf => ?_, hb.top⟩
      by_cases hib : i < boundary
      · exact hb.left i hib hf
      · -- the next entry has the key of the gaps before it
        have hir : i = r := by
          by_contra hne
          rw [hnext.between i (by omega) (by omega) (by omega)] at hf
          cases hf
        have hkey := h.gapped.key_of_gaps (i := boundary) (n := r - boundary) (by omega)
          fun j hj hj' => hnext.between j hj (by omega) (by omega)
        rw [show boundary + (r - boundary) = i by omega] at hkey
        rw [← hkey]
        exact hgo.2.2
    · rw [if_neg hgo]
      refine ⟨hb, fun i hi hi' hf => ?_⟩
      have hle := h.gapped.sorted boundary i hi hi'
      -- at the sentinel there are no entries left
      by_cases htop : leaf.keySlots boundary = ⊤
      · have hkey : leaf.keySlots i = ⊤ := top_le_iff.mp (htop ▸ hle)
        rcases hb.top with hright | hnone
        · rw [hkey]
          exact hright
        · exact absurd hkey (hnone _ (mem_entries.mpr ⟨i, Nat.zero_le i, hi', hf, rfl⟩))
      · refine cut.rise _ _ hle ?_
        by_contra hleft
        exact hgo ⟨by omega, htop, by simpa using hleft⟩

/-- A leaf built from a range of positions has the entries of that range. -/
theorem bulkLoadLeaf_spec (h : leaf.WellFormed) (reuse : Bool) (b : Build K P) {left right : Nat}
    (hle : left ≤ right) (hright : right ≤ leaf.dataCapacity) :
    (bulkLoadLeaf reuse b leaf left right).WellFormed ∧
      (bulkLoadLeaf reuse b leaf left right).entries =
        Lib.entries leaf.checkExists (fun i => (leaf.keySlots i, leaf.payloadSlots i)) left
          right := by
  have hcount : (if reuse then some (leaf.numKeysInRange left right) else none).getD
      (leaf.values left right).length = (leaf.values left right).length := by
    cases reuse with
    | false => rfl
    | true =>
      rw [h.values_eq hright]
      exact h.numKeysInRange_eq hle hright
  have hord : Ordered (leaf.values left right) := by
    rw [h.values_eq hright]
    have hord := h.ordered
    unfold DataNode.entries at hord
    rw [entries_append (Nat.zero_le left) (hle.trans hright), entries_append hle hright] at hord
    exact (List.pairwise_append.mp (List.pairwise_append.mp hord).2.1).1
  unfold bulkLoadLeaf bulkLoadFromExisting
  simp only
  rw [hcount, ← h.values_eq hright]
  exact build_spec b hord

/-- A split leaves the entries as they are, and each half gets what is sent to it. -/
theorem createTwoNewDataNodes_spec {cut : Cut K} (h : leaf.WellFormed) (reuse : Bool)
    (b b' : Build K P) {boundary : Nat} (hb : Boundary cut leaf boundary) :
    (createTwoNewDataNodes cut reuse b b' boundary leaf).1.WellFormed ∧
      (createTwoNewDataNodes cut reuse b b' boundary leaf).2.WellFormed ∧
      leaf.entries = (createTwoNewDataNodes cut reuse b b' boundary leaf).1.entries ++
        (createTwoNewDataNodes cut reuse b b' boundary leaf).2.entries ∧
      (∀ x ∈ (createTwoNewDataNodes cut reuse b b' boundary leaf).1.entries,
        cut.right x.1 = false) ∧
      ∀ x ∈ (createTwoNewDataNodes cut reuse b b' boundary leaf).2.entries,
        cut.right x.1 = true := by
  obtain ⟨hb', hright⟩ := rightBoundary_spec h (n := leaf.dataCapacity) (by omega) hb
  unfold createTwoNewDataNodes
  simp only
  generalize rightBoundary cut leaf leaf.dataCapacity boundary = m at hb' hright
  obtain ⟨hwell, hentries⟩ := bulkLoadLeaf_spec h reuse b (Nat.zero_le m) hb'.le
  obtain ⟨hwell', hentries'⟩ := bulkLoadLeaf_spec h reuse b' hb'.le le_rfl
  -- the positions up to the boundary go to the left leaf, the others to the right one
  refine ⟨hwell, hwell', ?_, ?_, ?_⟩
  · rw [hentries, hentries']
    exact entries_append (Nat.zero_le m) hb'.le
  · intro x hx
    rw [hentries] at hx
    obtain ⟨i, _, hi, hf, rfl⟩ := mem_entries.mp hx
    exact hb'.left i hi hf
  · intro x hx
    rw [hentries'] at hx
    obtain ⟨i, hi, hi', hf, rfl⟩ := mem_entries.mp hx
    exact hright i hi hi' hf

omit [OrderTop K] in
/-- A leaf before the one that is split keeps its place. -/
theorem splitRoute_before {cut : Cut K} {i n : Nat} (h : n < i) : splitRoute cut i n key = n := by
  unfold splitRoute
  rw [if_pos (Or.inl h)]

omit [OrderTop K] in
/-- A leaf behind it moves up by one. -/
theorem splitRoute_behind {cut : Cut K} {i n : Nat} (h : i < n) :
    splitRoute cut i n key = n + 1 := by
  unfold splitRoute
  rw [if_neg (by omega)]

omit [OrderTop K] in
/-- The keys of the leaf itself go to the side of the cut they are on. -/
theorem splitRoute_here {cut : Cut K} {i : Nat} :
    splitRoute cut i i key = if cut.right key = true then i + 1 else i := by
  unfold splitRoute
  by_cases hright : cut.right key = true
  · rw [if_neg (by simp [hright]), if_pos hright]
  · rw [if_pos (Or.inr ⟨rfl, by simpa using hright⟩), if_neg hright]

/-- A split leaf is replaced by the two that were made of it. -/
theorem list_split {cut : Cut K} (reuse : Bool) (b b' : Build K P) (boundary : Nat)
    {before after : List (DataNode K P)} (hlist : t.list = before ++ t.leafOf key :: after)
    (hlen : before.length = t.getLeaf key) :
    (t.split cut reuse b b' boundary key).list = before ++
      (createTwoNewDataNodes cut reuse b b' boundary (t.leafOf key)).1 ::
      (createTwoNewDataNodes cut reuse b b' boundary (t.leafOf key)).2 :: after := by
  show t.list.take (t.getLeaf key) ++ _ :: _ :: t.list.drop (t.getLeaf key + 1) = _
  rw [← hlen]
  congr 1
  · conv_lhs => rw [hlist]
    rw [List.take_left]
  · congr 2
    conv_lhs => rw [hlist]
    rw [List.append_cons,
      show before.length + 1 = (before ++ [t.leafOf key]).length by simp, List.drop_left]

/-- A split changes which leaf an entry is in, but no entry and no order. -/
theorem Sound.split (h : t.Sound) {cut : Cut K} (reuse : Bool) (b b' : Build K P) {boundary : Nat}
    (hb : Boundary cut (t.leafOf key) boundary) :
    (t.split cut reuse b b' boundary key).Sound ∧
      (t.split cut reuse b b' boundary key).entries = t.entries := by
  obtain ⟨hwell, hwell', hentries, hleft, hright⟩ :=
    createTwoNewDataNodes_spec (h.wellFormed_leafOf key) reuse b b' hb
  have hrouted := h.routed_leafOf key
  obtain ⟨before, after, hlist, hlen, _, _⟩ := h.around key
  have hlist' : (t.split cut reuse b b' boundary key).list = _ :=
    list_split reuse b b' boundary hlist hlen
  generalize createTwoNewDataNodes cut reuse b b' boundary (t.leafOf key) = r
    at hwell hwell' hentries hleft hright hlist'
  constructor
  · constructor
    · -- the halves are well formed, the other leaves are as before
      intro d hd
      rw [hlist'] at hd
      rcases List.mem_append.mp hd with hd | hd
      · refine h.leaf d ?_
        rw [hlist]
        exact List.mem_append_left _ hd
      · rcases List.mem_cons.mp hd with rfl | hd
        · exact hwell
        · rcases List.mem_cons.mp hd with rfl | hd
          · exact hwell'
          · refine h.leaf d ?_
            rw [hlist]
            exact List.mem_append_right _ (List.mem_cons_of_mem _ hd)
    · intro i d hi x hx
      rw [hlist'] at hi
      show splitRoute cut (t.getLeaf key) (t.getLeaf x.1) x.1 = i
      -- position `i` is before the halves, one of them, or behind
      rcases Nat.lt_or_ge i before.length with hlt | hge
      · rw [List.getElem?_append_left hlt] at hi
        have hroute := h.routed i d (by rw [hlist, List.getElem?_append_left hlt, hi]) x hx
        rw [splitRoute_before (by omega), hroute]
      · rw [List.getElem?_append_right hge] at hi
        obtain ⟨j, rfl⟩ := Nat.exists_eq_add_of_le hge
        rw [Nat.add_sub_cancel_left] at hi
        match j, hi with
        | 0, hi =>
          rw [List.getElem?_cons_zero, Option.some.injEq] at hi
          subst hi
          rw [hrouted x (hentries ▸ List.mem_append_left _ hx), splitRoute_here, hleft x hx,
            if_neg Bool.false_ne_true, Nat.add_zero, hlen]
        | 1, hi =>
          rw [List.getElem?_cons_succ, List.getElem?_cons_zero, Option.some.injEq] at hi
          subst hi
          rw [hrouted x (hentries ▸ List.mem_append_right _ hx), splitRoute_here, hright x hx,
            if_pos rfl, hlen]
        | j + 2, hi =>
          rw [List.getElem?_cons_succ, List.getElem?_cons_succ] at hi
          have hold : t.list[before.length + (j + 1)]? = some d := by
            rw [hlist, List.getElem?_append_right (by omega), Nat.add_sub_cancel_left,
              List.getElem?_cons_succ, hi]
          have hroute := h.routed _ d hold x hx
          rw [splitRoute_behind (by omega), hroute]
          omega
  · unfold Leaves.entries
    rw [hlist']
    conv_rhs => rw [hlist]
    rw [flatMap_around, flatMap_around, List.flatMap_cons, hentries, List.append_assoc]

/-! ## Runs -/

/-- A call of the index, or a step of an insertion that finds its leaf too costly. -/
inductive Op (K P : Type) [LinearOrder K] where
  | insert (c : Costs) (b : Build K P) (key : K) (payload : P)
  | erase (b : Build K P) (key : K)
  | resize (b : Build K P) (key : K)
  | split (cut : Cut K) (reuse : Bool) (b b' : Build K P) (boundary : Nat) (key : K)
  | get (key : K)
  | floor (key : K)

inductive Answer (P : Type) where
  | done
  | fail (flag : Nat)
  | erased (n : Nat)
  | found (payload : Option P)
  | payload (payload : P)

def step (t : Leaves K P) : Op K P → Option (Answer P × Leaves K P)
  | .insert c b key payload => (t.insert c b key payload).map fun r =>
      (match r.2 with
        | .ok _ => .done
        | .error flag => .fail flag, r.1)
  | .erase b key => some (.erased (t.erase b key).2, (t.erase b key).1)
  | .resize b key => some (.done, t.resize b key)
  | .split cut reuse b b' boundary key => some (.done, t.split cut reuse b b' boundary key)
  | .get key => some (.found (t.getPayload key), t)
  | .floor key => some (.payload (t.getPayloadLastNoGreaterThan key), t)

/-- What a call needs: a key that is not `kEndSentinel_` for a lookup, and something to find; a
boundary with nothing before it that goes to the right for a split. -/
def Ok (t : Leaves K P) : Op K P → Prop
  | .split cut _ _ _ boundary key => Boundary cut (t.leafOf key) boundary
  | .get key => key < ⊤
  | .floor key => key < ⊤ ∧ t.Finds key
  | _ => True

/-- What a call answers of a multimap, and what it makes of it. -/
inductive Explains (m : Multimap K P) : Op K P → Answer P → Multimap K P → Prop where
  | insert {c : Costs} {b : Build K P} {key : K} {payload : P} :
      Explains m (.insert c b key payload) .done (m.insert key payload)
  | fail {c : Costs} {b : Build K P} {key : K} {payload : P} {flag : Nat} :
      Explains m (.insert c b key payload) (.fail flag) m
  | erase {b : Build K P} {key : K} :
      Explains m (.erase b key) (.erased (m.kvs.filter fun x => x.1 = key).length) (m.erase key)
  | resize {b : Build K P} {key : K} : Explains m (.resize b key) .done m
  | split {cut : Cut K} {reuse : Bool} {b b' : Build K P} {boundary : Nat} {key : K} :
      Explains m (.split cut reuse b b' boundary key) .done m
  | get {key : K} : Explains m (.get key) (.found (m.find key)) m
  | floor {key : K} {x : K × P} : m.floor key = some x →
      Explains m (.floor key) (.payload x.2) m

/-- `get_payload` answers like the multimap. -/
theorem Sound.get (h : t.Sound) (hkey : key < ⊤) : t.getPayload key = h.map.find key := by
  obtain ⟨before, after, hlist, _, hbefore, hafter⟩ := h.around key
  have hentries : h.map.kvs = before.flatMap DataNode.entries ++
      ((t.leafOf key).entries ++ after.flatMap DataNode.entries) := by
    show t.entries = _
    unfold entries
    rw [hlist, flatMap_around]
  have hfind := (h.wellFormed_leafOf key).findKey hkey
  unfold getPayload
  -- `find_key` ends in the leaf of the key, so the last entry with it is there
  split at hfind
  · rename_i pos heq
    obtain ⟨pre, post, hsplit, hpost⟩ := hfind
    have hkvs : h.map.kvs = (before.flatMap DataNode.entries ++ pre) ++
        (key, (t.leafOf key).payloadSlots pos) ::
          (post ++ after.flatMap DataNode.entries) := by
      rw [hentries, hsplit]
      simp only [List.append_assoc, List.cons_append]
    rw [heq, Multimap.find_of_split hkvs]
    · rfl
    · rw [List.forall_mem_append]
      exact ⟨hpost, hafter⟩
  · rename_i heq
    rw [heq, Multimap.find_none]
    · rfl
    · rw [hentries, List.forall_mem_append, List.forall_mem_append]
      exact ⟨fun x hx => (hbefore x hx).ne, hfind, fun x hx => (hafter x hx).ne'⟩

/-- One step is a step of the multimap, and it comes back. -/
theorem Sound.step (h : t.Sound) (op : Op K P) (hok : Ok t op) : ∃ a t', t.step op = some (a, t') ∧
    ∃ h' : t'.Sound, Explains h.map op a h'.map := by
  cases op with
  | insert c b key payload =>
    have hins := h.insert c b key payload
    change ∃ a t', (t.insert c b key payload).map _ = some (a, t') ∧ _
    split at hins
    · rw [hins]
      exact ⟨_, t, rfl, h, .fail⟩
    · obtain ⟨t', pos, heq, h', hentries⟩ := hins
      rw [heq]
      refine ⟨.done, t', rfl, h', ?_⟩
      rw [h'.map_eq (m := h.map.insert key payload) hentries]
      exact .insert
  | erase b key =>
    obtain ⟨h', hentries, hcount⟩ := h.erase b key
    refine ⟨_, _, rfl, h', ?_⟩
    rw [h'.map_eq (m := h.map.erase key) hentries, hcount]
    exact .erase
  | resize b key =>
    obtain ⟨h', hentries⟩ := h.resize b key
    refine ⟨_, _, rfl, h', ?_⟩
    rw [h'.map_eq (m := h.map) hentries]
    exact .resize
  | split cut reuse b b' boundary key =>
    obtain ⟨h', hentries⟩ := h.split reuse b b' hok
    refine ⟨_, _, rfl, h', ?_⟩
    rw [h'.map_eq (m := h.map) hentries]
    exact .split
  | get key =>
    refine ⟨_, t, rfl, h, ?_⟩
    rw [h.get hok]
    exact .get
  | floor key =>
    obtain ⟨x, hfloor, heq⟩ := h.floor hok.1 hok.2
    refine ⟨_, t, rfl, h, ?_⟩
    rw [heq]
    exact .floor hfloor

/-- An index of two entries. -/
def pair : Leaves (Fin 8) Nat := root (bulkLoad level [(1, 10), (3, 30)])

theorem pair_sound : pair.Sound := root_sound (build_spec level (by decide)).1

theorem pair_entries : pair.entries = [(1, 10), (3, 30)] :=
  (root_entries _).trans (build_spec level (by decide)).2

/-- `get_payload_last_no_greater_than` is the floor exactly where there is something to find. Else
the first leaf is empty, and what comes back is what its first slot held when it was made. -/
theorem lookup_exact (h : t.Sound) (hkey : key < ⊤) :
    (t.Finds key → ∃ x, h.map.floor key = some x ∧ t.getPayloadLastNoGreaterThan key = x.2) ∧
      (¬t.Finds key → ∃ first rest, t.list = first :: rest ∧ first.entries = [] ∧
        t.getPayloadLastNoGreaterThan key = first.payloadSlots 0) :=
  ⟨h.floor hkey, h.floor_lost hkey⟩

/-- The index as its constructor makes it. -/
def vacant : Leaves (Fin 8) Nat := root (bulkLoad level [])

theorem vacant_sound : vacant.Sound := root_sound (build_spec level List.Pairwise.nil).1

/-- Both cases: the floor of `5` in two entries, and the unwritten slot of an empty leaf. -/
theorem lookup_exact_pair : pair.Finds 5 ∧
    (∃ x, pair_sound.map.floor 5 = some x ∧ pair.getPayloadLastNoGreaterThan 5 = x.2) ∧
    ¬vacant.Finds 5 ∧ ∃ first rest, vacant.list = first :: rest ∧ first.entries = [] ∧
      vacant.getPayloadLastNoGreaterThan 5 = first.payloadSlots 0 := by
  have hfinds : pair.Finds 5 := by
    refine Or.inl ⟨(1, 10), ?_, by decide⟩
    rw [pair_entries]
    exact List.mem_cons_self
  have hempty : vacant.entries = [] := (root_entries _).trans (build_spec level .nil).2
  have hlost : ¬vacant.Finds 5 := by
    rintro (⟨x, hx, _⟩ | ⟨first, rest, hlist, hne⟩)
    · rw [hempty] at hx
      cases hx
    · cases hlist
      exact hne (build_spec level .nil).2
  exact ⟨hfinds, (lookup_exact pair_sound (by decide)).1 hfinds, hlost,
    (lookup_exact vacant_sound (by decide)).2 hlost⟩

/-! ## The index without separators -/

/-- What a lookup finds in an index that has lost its only separator: the node that the
constructor makes has one slot, and the erased separator leaves its payload there. -/
theorem root_emptied {b : Build K P} (hscaled : b.scaled = 0) {c : Costs}
    (hcost : ¬(c.periodic = true ∧ c.catastrophic = true)) (b₁ b₂ : Build K P)
    (hlow : low < ⊤) (payload : P) :
    ∃ t, (root (bulkLoad b [])).insert c b₁ low payload = some (t, .ok 0) ∧
      (t.erase b₂ low).1.entries = [] ∧
      ∀ key < ⊤, (t.erase b₂ low).1.getPayloadLastNoGreaterThan key = payload := by
  obtain ⟨hwell, hempty⟩ : (bulkLoad b []).WellFormed ∧ (bulkLoad b []).entries = [] :=
    build_spec b List.Pairwise.nil
  have hcap : (bulkLoad b []).dataCapacity = 1 := by
    show max b.scaled (0 + 1) = 1
    rw [hscaled]
    rfl
  have hfail : c.fail (bulkLoad b []) = none := by
    have hlt : (bulkLoad b []).numKeys < (bulkLoad b []).expansionThreshold := hwell.threshold.1
    unfold Costs.fail
    rw [if_neg hcost, if_pos hlt]
  obtain ⟨leaf, hins, hwell', hentries, hthreshold, hpay⟩ :=
    hwell.insert_only hcap hempty hfail b₁ hlow payload
  have hroot : (root (bulkLoad b [])).insert c b₁ low payload = some (root leaf, .ok 0) := by
    show ((bulkLoad b []).insert c b₁ low payload).map _ = _
    rw [hins]
    rfl
  obtain ⟨hsound, herased, _⟩ := (root_sound hwell').erase b₂ low
  have hnone : ((root leaf).erase b₂ low).1.entries = [] := by
    rw [herased, root_entries, hentries]
    simp
  refine ⟨root leaf, hroot, hnone, ?_⟩
  intro key hkey
  -- there is nothing to find, and the payload array has not been touched
  have hlost : ¬((root leaf).erase b₂ low).1.Finds key := by
    rintro (⟨x, hx, _⟩ | ⟨first, rest, hlist, hne⟩)
    · rw [hnone] at hx
      cases hx
    · unfold entries at hnone
      rw [hlist, List.flatMap_cons] at hnone
      exact hne (List.append_eq_nil_iff.mp hnone).1
  obtain ⟨first, rest, hlist, _, hget⟩ := hsound.floor_lost hkey hlost
  have hfirst : (leaf.erase b₂ low).1 = first := (List.cons.inj hlist).1
  rw [hget, ← hfirst, erase_payloadSlots leaf b₂ low (hthreshold.trans rfl), hpay]

end Leaves

end Epli.Alex
