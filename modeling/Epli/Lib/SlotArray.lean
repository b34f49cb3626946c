import Mathlib.Data.List.Basic

/-!
# Arrays of slots

A list of slots `(key, value)`, where one key marks the slots that are free. A key sits
in at most one slot (`Uniq`), and a reader that goes through the slots one by one while
others write can rely on this: no single write moves a key from one slot to another
(`Fixed`). Every write of a hash table bin is one slot set (`uniq_set`) or free slots
with one new pair put at the end (`uniq_append`).
-/

namespace Epli.Lib.SlotArray

variable {K V : Type} {nil : K} {l l' xs : List (K × V)} {p q : Nat} {k k' x : K} {v v' w : V}

/-- No key other than the free one is in two slots. -/
def Uniq (nil : K) (l : List (K × V)) : Prop :=
  ∀ (p q : Nat) (k : K) (v w : V), k ≠ nil → l[p]? = some (k, v) → l[q]? = some (k, w) → p = q

/-- No key sits in one slot before and in another one after. -/
def Fixed (nil : K) (l l' : List (K × V)) : Prop :=
  ∀ (p q : Nat) (k : K) (v w : V), k ≠ nil → l[p]? = some (k, v) → l'[q]? = some (k, w) → p = q

/-- The key sits in a slot at `p` or behind. -/
def From (l : List (K × V)) (k : K) (p : Nat) : Prop :=
  ∃ (q : Nat) (v : V), p ≤ q ∧ l[q]? = some (k, v)

/-- The key is not among the first `p` slots. -/
def NotBelow (l : List (K × V)) (k : K) (p : Nat) : Prop :=
  ∀ (q : Nat) (v : V), q < p → l[q]? ≠ some (k, v)

theorem Uniq.fixed (h : Uniq nil l) : Fixed nil l l := h

/-- A scan that passes a slot with another key has not passed `k`. -/
theorem NotBelow.succ (h : NotBelow l k p) (hp : l[p]? = some (x, v)) (hne : x ≠ k) :
    NotBelow l k (p + 1) := by
  intro q w hq hk
  rcases Nat.lt_succ_iff_lt_or_eq.mp hq with hlt | rfl
  · exact h q w hlt hk
  · rw [hp] at hk
    cases hk
    exact hne rfl

theorem notBelow_zero (l : List (K × V)) (k : K) : NotBelow l k 0 :=
  fun _ _ hq => absurd hq (Nat.not_lt_zero _)

/-- A scan that has passed the last slot has seen all of them. -/
theorem NotBelow.all (h : NotBelow l k p) (hend : l[p]? = none) :
    ∀ (q : Nat) (v : V), l[q]? ≠ some (k, v) := by
  intro q v hq
  have hle : l.length ≤ p := List.getElem?_eq_none_iff.mp hend
  have hlt : q < l.length := (List.getElem?_eq_some_iff.mp hq).1
  exact h q v (by omega) hq

/-- Past a slot with another key, `k` is still ahead. -/
theorem From.succ (h : From l k p) (hp : l[p]? = some (x, v)) (hne : x ≠ k) : From l k (p + 1) := by
  rcases h with ⟨q, w, hle, hq⟩
  refine ⟨q, w, ?_, hq⟩
  rcases Nat.lt_or_eq_of_le hle with hlt | rfl
  · exact hlt
  · rw [hp] at hq
    cases hq
    exact absurd rfl hne

/-- Nothing is ahead of the end. -/
theorem not_from_end (hend : l[p]? = none) : ¬ From l k p := by
  rintro ⟨q, v, hle, hq⟩
  have hlen : l.length ≤ p := List.getElem?_eq_none_iff.mp hend
  have hlt : q < l.length := (List.getElem?_eq_some_iff.mp hq).1
  omega

section

variable [DecidableEq K]

/-- The value of a key. -/
def lookup (l : List (K × V)) (k : K) : Option V := (l.find? fun s => s.1 = k).map Prod.snd

/-- A value that is found is in a slot with its key. -/
theorem mem_of_lookup (h : lookup l k = some v) : ∃ p : Nat, l[p]? = some (k, v) := by
  rcases Option.map_eq_some_iff.mp h with ⟨⟨k', v'⟩, hf, rfl⟩
  have hk : k' = k := by simpa using List.find?_some hf
  subst hk
  exact List.mem_iff_getElem?.mp (List.mem_of_find?_eq_some hf)

/-- Nothing is found exactly when no slot has the key. -/
theorem lookup_eq_none : lookup l k = none ↔ ∀ (p : Nat) (v : V), l[p]? ≠ some (k, v) := by
  unfold lookup
  rw [Option.map_eq_none_iff, List.find?_eq_none]
  constructor
  · intro h p v hp
    exact h (k, v) (List.mem_iff_getElem?.mpr ⟨p, hp⟩) (by simp)
  · rintro h ⟨k', v⟩ hmem
    rcases List.mem_iff_getElem?.mp hmem with ⟨p, hp⟩
    simp only [decide_eq_true_eq]
    rintro rfl
    exact h p v hp

/-- With unique keys, the value in any slot of the key is the one found. -/
theorem Uniq.lookup (h : Uniq nil l) (hk : k ≠ nil) (hp : l[p]? = some (k, v)) :
    SlotArray.lookup l k = some v := by
  cases hl : SlotArray.lookup l k with
  | none => exact absurd hp (lookup_eq_none.mp hl p v)
  | some w =>
    rcases mem_of_lookup hl with ⟨q, hq⟩
    cases h p q k v w hk hp hq
    rw [hp] at hq
    cases hq
    rfl

/-- With unique keys, looking up is reading the one slot. -/
theorem Uniq.lookup_iff (h : Uniq nil l) (hk : k ≠ nil) :
    SlotArray.lookup l k = some v ↔ ∃ p : Nat, l[p]? = some (k, v) :=
  ⟨mem_of_lookup, fun ⟨_, hp⟩ => h.lookup hk hp⟩

/-- A key that stays where it is: either it is gone, or it is still in its slot. -/
theorem Fixed.stays (hf : Fixed nil l l') (hk : k ≠ nil) (hp : l[p]? = some (k, v)) :
    lookup l' k = none ∨ ∃ w : V, l'[p]? = some (k, w) := by
  cases hl : lookup l' k with
  | none => exact Or.inl rfl
  | some w =>
    rcases mem_of_lookup hl with ⟨q, hq⟩
    cases hf p q k v w hk hp hq
    exact Or.inr ⟨w, hq⟩

/-- A key that is in a slot now was there before, or was in no slot. -/
theorem Fixed.came (hf : Fixed nil l l') (hk : k ≠ nil) (hp : l'[p]? = some (k, v)) :
    lookup l k = none ∨ ∃ w : V, l[p]? = some (k, w) := by
  cases hl : lookup l k with
  | none => exact Or.inl rfl
  | some w =>
    rcases mem_of_lookup hl with ⟨q, hq⟩
    cases hf q p k w v hk hq hp
    exact Or.inr ⟨w, hq⟩

/-- What a reader behind `p` may still find after a step. -/
theorem Fixed.from (hf : Fixed nil l l') (hk : k ≠ nil) (h : From l k p) :
    lookup l' k = none ∨ From l' k p := by
  rcases h with ⟨q, v, hle, hq⟩
  rcases hf.stays hk hq with hnone | ⟨w, hw⟩
  · exact Or.inl hnone
  · exact Or.inr ⟨q, w, hle, hw⟩

/-! ### One slot is written -/

/-- The key that a write puts into a slot is the free one, the old one or a new one. -/
def Admits (nil : K) (l : List (K × V)) (k k' : K) : Prop :=
  k' = nil ∨ k' = k ∨ ∀ (p : Nat) (v : V), l[p]? ≠ some (k', v)

omit [DecidableEq K] in
/-- A slot that is written reads back, the others are as they were. -/
theorem getElem?_set_some (hp : l[p]? = some (k, v)) (q : Nat) :
    (l.set p (k', v'))[q]? = if q = p then some (k', v') else l[q]? := by
  have hlt : p < l.length := (List.getElem?_eq_some_iff.mp hp).1
  rw [List.getElem?_set]
  by_cases hq : q = p
  · subst hq
    simp [hlt]
  · rw [if_neg (Ne.symm hq), if_neg hq]

omit [DecidableEq K] in
/-- An admitted change of one slot puts no key into a second slot. -/
theorem uniq_set (h : Uniq nil l) (hp : l[p]? = some (k, v)) (ha : Admits nil l k k') :
    Uniq nil (l.set p (k', v')) := by
  intro q r x w w' hx hq hr
  rw [getElem?_set_some hp] at hq hr
  -- a key in another slot is not the new one, unless it is the old one
  have hother : ∀ (i : Nat) (w : V), i ≠ p → k' ≠ nil → l[i]? ≠ some (k', w) := by
    intro i w hi hne hl
    rcases ha with rfl | rfl | hno
    · exact hne rfl
    · exact hi (h i p k' w v hne hl hp)
    · exact hno i w hl
  split at hq
  · rename_i heq
    cases hq
    split at hr
    · rename_i heq'
      rw [heq, heq']
    · exact absurd hr (hother r w' ‹_› hx)
  · split at hr
    · cases hr
      exact absurd hq (hother q w ‹_› hx)
    · exact h q r x w w' hx hq hr

omit [DecidableEq K] in
/-- An admitted change moves no key from one slot to another. -/
theorem fixed_set (h : Uniq nil l) (hp : l[p]? = some (k, v)) (ha : Admits nil l k k') :
    Fixed nil l (l.set p (k', v')) := by
  intro q r x w w' hx hq hr
  rw [getElem?_set_some hp] at hr
  split at hr
  · rename_i heq
    cases hr
    subst heq
    rcases ha with rfl | rfl | hno
    · exact absurd rfl hx
    · exact h q r k' w v hx hq hp
    · exact absurd hq (hno q w)
  · exact h q r x w w' hx hq hr

/-- What the lookups find after one slot has changed. -/
theorem lookup_set (h : Uniq nil l) (hp : l[p]? = some (k, v)) (ha : Admits nil l k k')
    (hx : x ≠ nil) : lookup (l.set p (k', v')) x =
      if x = k' then some v' else if x = k then none else lookup l x := by
  have hu : Uniq nil (l.set p (k', v')) := uniq_set h hp ha
  split
  · rename_i heq
    subst heq
    exact hu.lookup hx (by rw [getElem?_set_some hp, if_pos rfl])
  · rename_i hne
    split
    · -- the old key has left its slot, and it was in no other one
      rename_i heq
      subst heq
      rw [lookup_eq_none]
      intro q w hq
      rw [getElem?_set_some hp] at hq
      split at hq
      · cases hq
        exact hne rfl
      · rename_i hqp
        exact hqp (h q p x w v hx hq hp)
    -- any other key is in the slots where it was
    · rename_i hne'
      have hsame : ∀ (q : Nat) (w : V),
          (l.set p (k', v'))[q]? = some (x, w) ↔ l[q]? = some (x, w) := by
        intro q w
        rw [getElem?_set_some hp]
        split
        · rename_i heq
          subst heq
          rw [hp]
          simp [Ne.symm hne, Ne.symm hne']
        · rfl
      refine Option.ext fun w => ?_
      rw [hu.lookup_iff hx, h.lookup_iff hx]
      exact exists_congr fun q => hsame q w

/-! ### Slots are put at the end -/

omit [DecidableEq K] in
/-- Where a key sits after free slots with one new pair have been put at the end. -/
theorem getElem?_append_free (hfree : ∀ s ∈ xs, s.1 = nil) (hx : x ≠ nil) :
    (l ++ (k, v) :: xs)[q]? = some (x, w) ↔
      l[q]? = some (x, w) ∨ (q = l.length ∧ x = k ∧ w = v) := by
  rcases Nat.lt_or_ge q l.length with hlt | hge
  · rw [List.getElem?_append_left hlt]
    constructor
    · exact Or.inl
    · rintro (h | ⟨rfl, _⟩)
      · exact h
      · exact absurd hlt (Nat.lt_irrefl _)
  · rw [List.getElem?_append_right hge, List.getElem?_eq_none hge]
    constructor
    · intro h
      rcases Nat.eq_or_lt_of_le hge with heq | hlt
      · rw [heq, Nat.sub_self, List.getElem?_cons_zero] at h
        cases h
        exact Or.inr ⟨heq.symm, rfl, rfl⟩
      · rw [show q - l.length = (q - l.length - 1) + 1 by omega, List.getElem?_cons_succ] at h
        exact absurd (hfree _ (List.mem_of_getElem? h)) hx
    · rintro (h | ⟨rfl, rfl, rfl⟩)
      · cases h
      · simp

omit [DecidableEq K] in
/-- Appending a new key, with free slots behind it, repeats none. -/
theorem uniq_append (h : Uniq nil l) (hfree : ∀ s ∈ xs, s.1 = nil)
    (hno : ∀ (p : Nat) (v : V), l[p]? ≠ some (k, v)) : Uniq nil (l ++ (k, v) :: xs) := by
  intro q r x w w' hx hq hr
  rw [getElem?_append_free hfree hx] at hq hr
  rcases hq with hq | ⟨rfl, rfl, rfl⟩
  · rcases hr with hr | ⟨rfl, rfl, rfl⟩
    · exact h q r x w w' hx hq hr
    · exact absurd hq (hno q w)
  · rcases hr with hr | ⟨rfl, _, _⟩
    · exact absurd hr (hno r w')
    · rfl

omit [DecidableEq K] in
/-- Appending moves no key. -/
theorem fixed_append (h : Uniq nil l) (hfree : ∀ s ∈ xs, s.1 = nil)
    (hno : ∀ (p : Nat) (v : V), l[p]? ≠ some (k, v)) : Fixed nil l (l ++ (k, v) :: xs) := by
  intro q r x w w' hx hq hr
  rw [getElem?_append_free hfree hx] at hr
  rcases hr with hr | ⟨rfl, rfl, rfl⟩
  · exact h q r x w w' hx hq hr
  · exact absurd hq (hno q w)

/-- What the lookups find after a new key is appended. -/
theorem lookup_append (h : Uniq nil l) (hfree : ∀ s ∈ xs, s.1 = nil)
    (hno : ∀ (p : Nat) (v : V), l[p]? ≠ some (k, v)) (hx : x ≠ nil) :
    lookup (l ++ (k, v) :: xs) x = if x = k then some v else lookup l x := by
  refine Option.ext fun w => ?_
  rw [(uniq_append h hfree hno).lookup_iff hx]
  simp only [getElem?_append_free hfree hx]
  split
  · rename_i heq
    subst heq
    simp only [Option.some.injEq]
    constructor
    · rintro ⟨q, hq | ⟨_, _, rfl⟩⟩
      · exact absurd hq (hno q w)
      · rfl
    · rintro rfl
      exact ⟨_, Or.inr ⟨rfl, trivial, rfl⟩⟩
  · rename_i hne
    rw [h.lookup_iff hx]
    constructor
    · rintro ⟨q, hq | ⟨_, heq, _⟩⟩
      · exact ⟨q, hq⟩
      · exact absurd heq hne
    · rintro ⟨q, hq⟩
      exact ⟨q, Or.inl hq⟩

end

end Epli.Lib.SlotArray
