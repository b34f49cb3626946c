import Mathlib.Data.List.Basic
import Mathlib.Order.Defs.LinearOrder
import Mathlib.Order.Lattice
import Mathlib.Order.Monotone.Basic

/-!
# Ordered multimaps with floor lookup

A multimap is the list of its bindings in ascending key order; equal keys keep
the order in which they were added. `floor k` is the binding of the largest key
that is at most `k`, the most recent one among equals, and falls back to the
first binding when every key is above `k`.

The two facts that carry everything below are `floor_split`, which says where
in the list a floor lies, and its converse `floor_of_split`.
-/

namespace Epli.Lib

variable {K P : Type} [LinearOrder K]

/-- Bindings in ascending key order. -/
structure Multimap (K P : Type) [LinearOrder K] where
  kvs : List (K × P)
  sorted : kvs.Pairwise (fun a b => a.1 ≤ b.1)

namespace Multimap

/-- The map without bindings. -/
def empty : Multimap K P := ⟨[], List.Pairwise.nil⟩

/-! ## Insertion -/

/-- Insert a binding to the right of every key that is at most `k`. -/
def insertList (k : K) (p : P) : List (K × P) → List (K × P)
  | [] => [(k, p)]
  | x :: l => if k < x.1 then (k, p) :: x :: l else x :: insertList k p l

theorem mem_insertList {k : K} {p : P} {x : K × P} :
    ∀ {l : List (K × P)}, x ∈ insertList k p l ↔ x = (k, p) ∨ x ∈ l
  | [] => by simp [insertList]
  | y :: l => by
    unfold insertList
    split
    · simp
    · rw [List.mem_cons, mem_insertList, List.mem_cons]
      tauto

/-- An insertion keeps the list in order. -/
theorem pairwise_insertList (k : K) (p : P) :
    ∀ l : List (K × P), l.Pairwise (fun a b => a.1 ≤ b.1) →
      (insertList k p l).Pairwise (fun a b => a.1 ≤ b.1)
  | [], _ => by simp [insertList]
  | y :: l, h => by
    rw [List.pairwise_cons] at h
    unfold insertList
    split
    · rename_i hlt
      rw [List.pairwise_cons, List.pairwise_cons]
      refine ⟨?_, h⟩
      intro x hx
      rcases List.mem_cons.mp hx with rfl | hx
      · exact hlt.le
      · exact hlt.le.trans (h.1 x hx)
    · rename_i hlt
      rw [List.pairwise_cons]
      refine ⟨?_, pairwise_insertList k p l h.2⟩
      intro x hx
      rcases mem_insertList.mp hx with rfl | hx
      · exact not_lt.mp hlt
      · exact h.1 x hx

/-- Insertion passes over a prefix of keys at most `k`. -/
theorem insertList_append (k : K) (p : P) (post : List (K × P)) :
    ∀ pre : List (K × P), (∀ x ∈ pre, x.1 ≤ k) →
      insertList k p (pre ++ post) = pre ++ insertList k p post
  | [], _ => rfl
  | y :: pre, hpre => by
    have hy : ¬ k < y.1 := not_lt.mpr (hpre y (by simp))
    have ih := insertList_append k p post pre (fun x hx => hpre x (by simp [hx]))
    simp [insertList, hy, ih]

/-- Insertion in front of a list of keys above `k`. -/
theorem insertList_of_lt (k : K) (p : P) {post : List (K × P)}
    (hpost : ∀ x ∈ post, k < x.1) : insertList k p post = (k, p) :: post := by
  cases post with
  | nil => rfl
  | cons x post => simp [insertList, hpost x (by simp)]

/-- Insertion in front of a suffix of keys above `k`. -/
theorem insertList_append_of_lt (k : K) (p : P) {post : List (K × P)}
    (hpost : ∀ x ∈ post, k < x.1) :
    ∀ pre : List (K × P), insertList k p (pre ++ post) = insertList k p pre ++ post
  | [] => insertList_of_lt k p hpost
  | y :: pre => by
    have ih := insertList_append_of_lt k p hpost pre
    by_cases hy : k < y.1
    · simp [insertList, hy]
    · simp [insertList, hy, ih]

/-- Insertion of a key below `x` leaves `x` and what follows it in place. -/
theorem insertList_before {k : K} (p : P) {x : K × P} (hx : k < x.1) (post : List (K × P)) :
    ∀ pre : List (K × P), ∃ pre', insertList k p (pre ++ x :: post) = pre' ++ x :: post
  | [] => ⟨[(k, p)], by simp [insertList, hx]⟩
  | y :: pre => by
    by_cases hy : k < y.1
    · exact ⟨(k, p) :: y :: pre, by simp [insertList, hy]⟩
    · rcases insertList_before p hx post pre with ⟨pre', hpre'⟩
      exact ⟨y :: pre', by simp [insertList, hy, hpre']⟩

/-- Add a binding. -/
def insert (m : Multimap K P) (k : K) (p : P) : Multimap K P :=
  ⟨insertList k p m.kvs, pairwise_insertList k p m.kvs m.sorted⟩

theorem kvs_insert (m : Multimap K P) (k : K) (p : P) :
    (m.insert k p).kvs = insertList k p m.kvs := rfl

theorem mem_insert {m : Multimap K P} {k : K} {p : P} {x : K × P} :
    x ∈ (m.insert k p).kvs ↔ x = (k, p) ∨ x ∈ m.kvs :=
  mem_insertList

/-- The payloads after an insertion are the old ones and the new one. -/
theorem insertList_perm (k : K) (p : P) :
    ∀ l : List (K × P), (insertList k p l).Perm ((k, p) :: l)
  | [] => by simp [insertList]
  | x :: l => by
    unfold insertList
    split
    · exact List.Perm.refl _
    · exact ((insertList_perm k p l).cons x).trans (List.Perm.swap _ _ _)

/-! ## Removal and bulk construction -/

/-- Remove every binding of `k`. -/
def erase (m : Multimap K P) (k : K) : Multimap K P :=
  ⟨m.kvs.filter (fun x => x.1 ≠ k), m.sorted.filter _⟩

/-- Build a map from an array. It is only meant for an empty map and an array
in strictly ascending key order: it does nothing when there is something in the
map or nothing in the array, and it has no meaning on an array out of order. -/
def bulkLoad (m : Multimap K P) (l : List (K × P)) : Option (Multimap K P) :=
  if m.kvs ≠ [] ∨ l = [] then some m
  else if h : l.Pairwise (fun a b => a.1 < b.1) then
    some ⟨l, h.imp le_of_lt⟩
  else none

/-- Loading strictly ascending pairs into an empty map gives these pairs. -/
theorem bulkLoad_empty {l : List (K × P)} (hne : l ≠ [])
    (h : l.Pairwise (fun a b => a.1 < b.1)) :
    (empty : Multimap K P).bulkLoad l = some ⟨l, h.imp le_of_lt⟩ := by
  simp [bulkLoad, empty, hne, h]

/-! ## Floor lookup -/

/-- The last binding of the leading run of keys at most `k`. -/
def lastLE (k : K) : List (K × P) → Option (K × P)
  | [] => none
  | x :: l => if x.1 ≤ k then some ((lastLE k l).getD x) else none

/-- The binding of the largest key at most `k`, or else the first binding. -/
def floor (m : Multimap K P) (k : K) : Option (K × P) :=
  (lastLE k m.kvs).or m.kvs.head?

/-- Below all keys there is no floor. -/
theorem lastLE_none_of_lt {k : K} : ∀ {l : List (K × P)}, (∀ x ∈ l, k < x.1) →
    lastLE k l = none
  | [], _ => rfl
  | x :: l, h => by simp [lastLE, not_le.mpr (h x (by simp))]

/-- The floor is the last pair that is not above `k`. -/
theorem lastLE_of_split {k : K} {x : K × P} {post : List (K × P)} (hx : x.1 ≤ k)
    (hpost : ∀ y ∈ post, k < y.1) : ∀ pre : List (K × P), (∀ y ∈ pre, y.1 ≤ k) →
      lastLE k (pre ++ x :: post) = some x
  | [], _ => by simp [lastLE, hx, lastLE_none_of_lt hpost]
  | y :: pre, hpre => by
    have ih := lastLE_of_split hx hpost pre (fun z hz => hpre z (by simp [hz]))
    simp [lastLE, hpre y (by simp), ih]

/-- A binding is the floor of `k` when every binding after it is above `k` and
it is either at most `k` itself or the first one. -/
theorem floor_of_split {m : Multimap K P} {k : K} {pre post : List (K × P)} {x : K × P}
    (hm : m.kvs = pre ++ x :: post) (hpost : ∀ y ∈ post, k < y.1)
    (hx : x.1 ≤ k ∨ pre = []) : m.floor k = some x := by
  have hs := m.sorted
  rw [hm, List.pairwise_append] at hs
  by_cases hk : x.1 ≤ k
  · have hpre : ∀ y ∈ pre, y.1 ≤ k := fun y hy => (hs.2.2 y hy x (by simp)).trans hk
    simp [floor, hm, lastLE_of_split hk hpost pre hpre]
  · have hpre : pre = [] := hx.resolve_left hk
    subst hpre
    simp [floor, hm, lastLE, hk]

/-- A sorted list is cut by `k` into the keys at most `k` and the keys above. -/
theorem exists_cut (k : K) : ∀ l : List (K × P), l.Pairwise (fun a b => a.1 ≤ b.1) →
    ∃ low high, l = low ++ high ∧ (∀ y ∈ low, y.1 ≤ k) ∧ (∀ y ∈ high, k < y.1)
  | [], _ => ⟨[], [], rfl, by simp, by simp⟩
  | x :: l, hs => by
    rw [List.pairwise_cons] at hs
    by_cases hx : x.1 ≤ k
    · rcases exists_cut k l hs.2 with ⟨low, high, rfl, hlow, hhigh⟩
      refine ⟨x :: low, high, rfl, ?_, hhigh⟩
      intro y hy
      rcases List.mem_cons.mp hy with rfl | hy
      · exact hx
      · exact hlow y hy
    · refine ⟨[], x :: l, rfl, by simp, ?_⟩
      intro y hy
      rcases List.mem_cons.mp hy with rfl | hy
      · exact not_le.mp hx
      · exact (not_le.mp hx).trans_le (hs.1 y hy)

/-- Every map is cut by `k` at its floor. -/
theorem floor_split {m : Multimap K P} {k : K} {x : K × P} (h : m.floor k = some x) :
    ∃ pre post, m.kvs = pre ++ x :: post ∧ (∀ y ∈ post, k < y.1) ∧
      (x.1 ≤ k ∨ pre = []) := by
  rcases exists_cut k m.kvs m.sorted with ⟨low, high, hcut, hlow, hhigh⟩
  rcases List.eq_nil_or_concat low with rfl | ⟨pre, y, rfl⟩
  · cases high with
    | nil => simp [floor, hcut, lastLE] at h
    | cons y post =>
      have hpost : ∀ z ∈ post, k < z.1 := fun z hz => hhigh z (by simp [hz])
      have hcut' : m.kvs = [] ++ y :: post := hcut
      have hy : m.floor k = some y := floor_of_split hcut' hpost (Or.inr rfl)
      cases h.symm.trans hy
      exact ⟨[], post, hcut, hpost, Or.inr rfl⟩
  · have hcut' : m.kvs = pre ++ y :: high := by simpa using hcut
    have hyk : y.1 ≤ k := hlow y (by simp)
    have hy : m.floor k = some y := floor_of_split hcut' hhigh (Or.inl hyk)
    cases h.symm.trans hy
    exact ⟨pre, high, hcut', hhigh, Or.inl hyk⟩

/-- A floor is one of the pairs. -/
theorem floor_mem {m : Multimap K P} {k : K} {x : K × P} (h : m.floor k = some x) :
    x ∈ m.kvs := by
  rcases floor_split h with ⟨pre, post, hm, _, _⟩
  simp [hm]

/-- The floor is the largest key at most `k`, if there is one. -/
theorem le_floor_of_mem {m : Multimap K P} {k : K} {x y : K × P} (h : m.floor k = some x)
    (hy : y ∈ m.kvs) (hk : y.1 ≤ k) : y.1 ≤ x.1 ∧ x.1 ≤ k := by
  rcases floor_split h with ⟨pre, post, hm, hpost, hx⟩
  have hs := m.sorted
  rw [hm, List.pairwise_append] at hs
  rw [hm, List.mem_append, List.mem_cons] at hy
  rcases hy with hy | rfl | hy
  · exact ⟨hs.2.2 y hy x (by simp), hx.resolve_right (List.ne_nil_of_mem hy)⟩
  · exact ⟨le_rfl, hk⟩
  · exact absurd hk (not_le.mpr (hpost y hy))

/-- Keys above the floor of `k` are above `k`. -/
theorem lt_of_floor_lt {m : Multimap K P} {k : K} {x y : K × P} (h : m.floor k = some x)
    (hy : y ∈ m.kvs) (hlt : x.1 < y.1) : k < y.1 := by
  by_contra hle
  exact absurd (le_floor_of_mem h hy (not_lt.mp hle)).1 (not_le.mpr hlt)

/-- A floor is the floor of its own key. -/
theorem floor_floor {m : Multimap K P} {k : K} {x : K × P} (h : m.floor k = some x)
    (hx : x.1 ≤ k) : m.floor x.1 = some x := by
  rcases floor_split h with ⟨pre, post, hm, hpost, _⟩
  exact floor_of_split hm (fun y hy => hx.trans_lt (hpost y hy)) (Or.inl le_rfl)

/-- The last binding of `k` itself. -/
def find (m : Multimap K P) (k : K) : Option P :=
  (m.floor k).bind fun x => if x.1 = k then some x.2 else none

/-- Of the pairs of a key the last one is found. -/
theorem find_of_split {m : Multimap K P} {k : K} {p : P} {pre post : List (K × P)}
    (hm : m.kvs = pre ++ (k, p) :: post) (hpost : ∀ y ∈ post, k < y.1) : m.find k = some p := by
  unfold find
  rw [floor_of_split hm hpost (Or.inl le_rfl), Option.bind_some, if_pos rfl]

/-- A key in no pair is not found. -/
theorem find_none {m : Multimap K P} {k : K} (h : ∀ x ∈ m.kvs, x.1 ≠ k) : m.find k = none := by
  unfold find
  cases hf : m.floor k with
  | none => rfl
  | some x => rw [Option.bind_some, if_neg (h x (floor_mem hf))]

/-- With a pair in the map a lookup always lands somewhere. -/
theorem exists_floor {m : Multimap K P} (hne : m.kvs ≠ []) (k : K) :
    ∃ x, m.floor k = some x := by
  cases hm : m.kvs with
  | nil => exact absurd hm hne
  | cons x l =>
    unfold floor
    rw [hm]
    cases h : lastLE k (x :: l) with
    | none => exact ⟨x, by simp⟩
    | some y => exact ⟨y, by simp⟩

/-- Only an empty map has no floor. -/
theorem floor_eq_none {m : Multimap K P} {k : K} (h : m.floor k = none) : m.kvs = [] := by
  by_contra hne
  rcases exists_floor hne k with ⟨x, hx⟩
  rw [h] at hx
  cases hx

/-- The floor of `k` after an insertion, case by case on where the new key lies
with respect to `k` and to the old floor. -/
theorem floor_insert {m : Multimap K P} {k : K} {x : K × P} (h : m.floor k = some x)
    (s : K) (p : P) :
    (m.insert s p).floor k =
      if (x.1 ≤ s ∧ s ≤ k) ∨ (k < x.1 ∧ s < x.1) then some (s, p) else some x := by
  rcases floor_split h with ⟨pre, post, hm, hpost, hx⟩
  have hs := m.sorted
  rw [hm, List.pairwise_append, List.pairwise_cons] at hs
  by_cases hle : x.1 ≤ s
  · have hpre : ∀ y ∈ pre ++ [x], y.1 ≤ s := by
      intro y hy
      rcases List.mem_append.mp hy with hy | hy
      · exact (hs.2.2 y hy x (by simp)).trans hle
      · rw [List.mem_singleton.mp hy]
        exact hle
    have hins : (m.insert s p).kvs = (pre ++ [x]) ++ insertList s p post := by
      rw [← insertList_append s p post (pre ++ [x]) hpre]
      simp [insert, hm]
    by_cases hsk : s ≤ k
    · -- the new key lands right behind the old floor
      rw [insertList_of_lt s p (fun y hy => hsk.trans_lt (hpost y hy))] at hins
      rw [floor_of_split hins hpost (Or.inl hsk), if_pos (Or.inl ⟨hle, hsk⟩)]
    · -- the new key lands further right, above `k`
      have habove : ∀ y ∈ insertList s p post, k < y.1 := by
        intro y hy
        rcases mem_insertList.mp hy with rfl | hy
        · exact not_le.mp hsk
        · exact hpost y hy
      rw [floor_of_split (by simpa using hins) habove hx, if_neg]
      rintro (⟨_, h⟩ | ⟨_, h⟩)
      · exact hsk h
      · exact not_lt.mpr hle h
  · have hlt : s < x.1 := not_le.mp hle
    by_cases hxk : x.1 ≤ k
    · -- the new key lands left of the old floor
      rcases insertList_before p hlt post pre with ⟨pre', hpre'⟩
      have hins : (m.insert s p).kvs = pre' ++ x :: post := by
        simpa [insert, hm] using hpre'
      rw [floor_of_split hins hpost (Or.inl hxk), if_neg]
      rintro (⟨h, _⟩ | ⟨h, _⟩)
      · exact hle h
      · exact not_lt.mpr hxk h
    · -- `k` was below every key; the new key becomes the first binding
      have hpre : pre = [] := hx.resolve_left hxk
      subst hpre
      have hins : (m.insert s p).kvs = [] ++ (s, p) :: x :: post := by
        simp [insert, hm, insertList, hlt]
      have habove : ∀ y ∈ x :: post, k < y.1 := by
        intro y hy
        rcases List.mem_cons.mp hy with rfl | hy
        · exact not_le.mp hxk
        · exact hpost y hy
      rw [floor_of_split hins habove (Or.inr rfl), if_pos (Or.inr ⟨not_le.mp hxk, hlt⟩)]

/-! ## Renaming payloads -/

section Rename

variable {Q : Type} {g : P → Q}

/-- Renaming the payloads commutes with insertion. -/
theorem insertList_rename (k : K) (p : P) : ∀ l : List (K × P),
    (insertList k p l).map (fun x => (x.1, g x.2)) =
      insertList k (g p) (l.map fun x => (x.1, g x.2))
  | [] => rfl
  | x :: l => by
    have ih := insertList_rename k p l
    unfold insertList
    by_cases hx : k < x.1
    · simp [hx]
    · simp [hx, ih]

/-- Renaming the payloads commutes with the floor. -/
theorem lastLE_rename (k : K) : ∀ l : List (K × P),
    lastLE k (l.map fun x => (x.1, g x.2)) = (lastLE k l).map fun x => (x.1, g x.2)
  | [] => rfl
  | x :: l => by
    have ih := lastLE_rename k l
    by_cases hx : x.1 ≤ k
    · cases h : lastLE k l with
      | none => simp [lastLE, hx, ih, h]
      | some y => simp [lastLE, hx, ih, h]
    · simp [lastLE, hx]

/-- A lookup does not depend on what the payloads are. -/
theorem floor_rename {m : Multimap K P} {m' : Multimap K Q}
    (h : m'.kvs = m.kvs.map fun x => (x.1, g x.2)) (k : K) :
    m'.floor k = (m.floor k).map fun x => (x.1, g x.2) := by
  unfold floor
  rw [h, lastLE_rename]
  cases lastLE k m.kvs with
  | none => simp
  | some y => simp

end Rename

/-! ## Renaming keys -/

section Embed

variable {L : Type} [LinearOrder L] {g : K → L}

/-- A strictly monotone change of the keys commutes with insertion. -/
theorem insertList_embed (hg : StrictMono g) (k : K) (p : P) : ∀ l : List (K × P),
    (insertList k p l).map (fun x => (g x.1, x.2)) =
      insertList (g k) p (l.map fun x => (g x.1, x.2))
  | [] => rfl
  | x :: l => by
    have ih := insertList_embed hg k p l
    unfold insertList
    by_cases hx : k < x.1
    · simp [hx, hg.lt_iff_lt]
    · simp [hx, hg.lt_iff_lt, ih]

/-- A floor stays where it is if the keys get other names in the same order. -/
theorem floor_embed (hg : StrictMono g) {m : Multimap K P} {m' : Multimap L P}
    (h : m'.kvs = m.kvs.map fun x => (g x.1, x.2)) {k : K} {x : K × P}
    (hx : m.floor k = some x) : m'.floor (g k) = some (g x.1, x.2) := by
  rcases floor_split hx with ⟨pre, post, hm, hpost, hlow⟩
  rw [hm, List.map_append, List.map_cons] at h
  refine floor_of_split h ?_ ?_
  · rw [List.forall_mem_map]
    exact fun y hy => hg (hpost y hy)
  · rcases hlow with hle | rfl
    · exact Or.inl (hg.monotone hle)
    · exact Or.inr rfl

end Embed

end Multimap

end Epli.Lib
