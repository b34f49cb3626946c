import Mathlib.Data.List.Basic
import Mathlib.Data.List.Nodup
import Mathlib.Order.Defs.LinearOrder
import Mathlib.Order.Lattice

/-!
# Ordered partitions of a key space

A list of cells, each with a lower bound and an identifier, cuts a linear order
into the half-open intervals between consecutive bounds. `Partition cells has`
says that every key of a cell lies in the cell's interval; `has a k` is read as
"`k` is a key of `a`".

Three changes preserve a partition: dropping keys (`Partition.mono`), adding a
key to the cell it belongs to (`Partition.put`), and cutting a cell in two at a
key above its bound (`Partition.cut`).
-/

namespace Epli.Lib

variable {K A : Type} [LinearOrder K]

/-- Every key lies in the interval of its cell. -/
structure Partition (cells : List (K × A)) (has : A → K → Prop) : Prop where
  ids : (cells.map Prod.snd).Nodup
  bounds : cells.Pairwise fun x y => x.1 < y.1
  low : ∀ x ∈ cells, ∀ k, has x.2 k → x.1 ≤ k
  high : cells.Pairwise fun x y => ∀ k, has x.2 k → k < y.1

namespace Partition

variable {cells pre post : List (K × A)} {has has' : A → K → Prop} {c : K × A} {k s : K} {a b : A}

/-- Dropping keys. -/
theorem mono (h : Partition cells has) (hsub : ∀ a k, has' a k → has a k) :
    Partition cells has' where
  ids := h.ids
  bounds := h.bounds
  low := fun x hx k hk => h.low x hx k (hsub _ _ hk)
  high := h.high.imp fun hxy k hk => hxy k (hsub _ _ hk)

/-- The identifier of the middle cell differs from all others. -/
theorem id_ne (h : Partition (pre ++ c :: post) has) {x : K × A} (hx : x ∈ pre ++ post) :
    x.2 ≠ c.2 := by
  have hids := h.ids
  rw [List.map_append, List.map_cons, List.nodup_middle, ← List.map_append,
    List.nodup_cons] at hids
  intro heq
  exact hids.1 (heq ▸ List.mem_map_of_mem hx)

/-- Adding the key `k` to the cell it belongs to. -/
theorem put (h : Partition (pre ++ c :: post) has) (hlow : c.1 ≤ k)
    (hpost : ∀ y ∈ post, k < y.1)
    (hput : ∀ a k', has' a k' → has a k' ∨ (a = c.2 ∧ k' = k)) :
    Partition (pre ++ c :: post) has' := by
  -- the key comes to cell `c` only
  have hother : ∀ x ∈ pre ++ post, ∀ k', has' x.2 k' → has x.2 k' := by
    intro x hx k' hk'
    rcases hput _ _ hk' with hk' | ⟨ha, _⟩
    · exact hk'
    · exact absurd ha (h.id_ne hx)
  have hhigh := h.high
  rw [List.pairwise_append, List.pairwise_cons] at hhigh
  refine ⟨h.ids, h.bounds, ?_, ?_⟩
  · intro x hx k' hk'
    rcases hput _ _ hk' with hk' | ⟨ha, rfl⟩
    · exact h.low x hx k' hk'
    · rcases List.mem_append.mp hx with hx' | hx'
      · exact absurd ha (h.id_ne (List.mem_append_left _ hx'))
      · rcases List.mem_cons.mp hx' with rfl | hx'
        · exact hlow
        · exact absurd ha (h.id_ne (List.mem_append_right _ hx'))
  · rw [List.pairwise_append, List.pairwise_cons]
    refine ⟨?_, ⟨?_, ?_⟩, ?_⟩
    · exact hhigh.1.imp_of_mem fun hx _ hxy k' hk' =>
        hxy k' (hother _ (List.mem_append_left _ hx) k' hk')
    · intro y hy k' hk'
      rcases hput _ _ hk' with hk' | ⟨_, rfl⟩
      · exact hhigh.2.1.1 y hy k' hk'
      · exact hpost y hy
    · exact hhigh.2.1.2.imp_of_mem fun hx _ hxy k' hk' =>
        hxy k' (hother _ (List.mem_append_right _ hx) k' hk')
    · intro x hx y hy k' hk'
      exact hhigh.2.2 x hx y hy k' (hother x (List.mem_append_left _ hx) k' hk')

/-- Cutting the cell `c` at `s`: the keys below `s` stay, the others move to the
new cell `(s, b)`. -/
theorem cut (h : Partition (pre ++ c :: post) has) (hb : b ∉ (pre ++ c :: post).map Prod.snd)
    (hs : c.1 < s) (hpost : ∀ y ∈ post, s < y.1)
    (hold : ∀ k, has' c.2 k → has c.2 k ∧ k < s)
    (hnew : ∀ k, has' b k → has c.2 k ∧ s ≤ k)
    (hother : ∀ a, a ≠ c.2 → a ≠ b → ∀ k, has' a k → has a k) :
    Partition (pre ++ c :: (s, b) :: post) has' := by
  -- only `c` and the new cell differ from before
  have hmid : ∀ x ∈ pre ++ post, ∀ k, has' x.2 k → has x.2 k := by
    intro x hx k hk
    refine hother x.2 (h.id_ne hx) ?_ k hk
    rintro rfl
    refine hb (List.mem_map_of_mem ?_)
    rcases List.mem_append.mp hx with hx | hx
    · exact List.mem_append_left _ hx
    · exact List.mem_append_right _ (List.mem_cons_of_mem _ hx)
  have hb' := h.bounds
  have hhigh := h.high
  have hids := h.ids
  rw [List.pairwise_append, List.pairwise_cons] at hb' hhigh
  refine ⟨?_, ?_, ?_, ?_⟩
  -- no two cells are of one entry
  · have hperm : (pre ++ c :: (s, b) :: post).Perm ((s, b) :: (pre ++ c :: post)) := by
      have hswap : (c :: (s, b) :: post).Perm ((s, b) :: c :: post) := List.Perm.swap _ _ _
      exact (hswap.append_left pre).trans List.perm_middle
    rw [(hperm.map Prod.snd).nodup_iff, List.map_cons, List.nodup_cons]
    exact ⟨hb, hids⟩
  · rw [List.pairwise_append, List.pairwise_cons, List.pairwise_cons]
    refine ⟨hb'.1, ⟨?_, hpost, hb'.2.1.2⟩, ?_⟩
    · intro y hy
      rcases List.mem_cons.mp hy with rfl | hy
      · exact hs
      · exact hb'.2.1.1 y hy
    · intro x hx y hy
      rcases List.mem_cons.mp hy with rfl | hy
      · exact hb'.2.2 x hx y (by simp)
      · rcases List.mem_cons.mp hy with rfl | hy
        · exact (hb'.2.2 x hx c (by simp)).trans hs
        · exact hb'.2.2 x hx y (by simp [hy])
  · intro x hx k hk
    rcases List.mem_append.mp hx with hx | hx
    · exact h.low x (by simp [hx]) k (hmid x (by simp [hx]) k hk)
    · rcases List.mem_cons.mp hx with rfl | hx
      · exact h.low x (by simp) k (hold k hk).1
      · rcases List.mem_cons.mp hx with rfl | hx
        · exact (hnew k hk).2
        · exact h.low x (by simp [hx]) k (hmid x (by simp [hx]) k hk)
  · rw [List.pairwise_append, List.pairwise_cons, List.pairwise_cons]
    refine ⟨?_, ⟨?_, ?_, ?_⟩, ?_⟩
    · exact hhigh.1.imp_of_mem fun hx _ hxy k hk => hxy k (hmid _ (by simp [hx]) k hk)
    · intro y hy k hk
      rcases List.mem_cons.mp hy with rfl | hy
      · exact (hold k hk).2
      · exact hhigh.2.1.1 y hy k (hold k hk).1
    · intro y hy k hk
      exact hhigh.2.1.1 y hy k (hnew k hk).1
    · exact hhigh.2.1.2.imp_of_mem fun hx _ hxy k hk => hxy k (hmid _ (by simp [hx]) k hk)
    · intro x hx y hy k hk
      have hk' := hmid x (by simp [hx]) k hk
      rcases List.mem_cons.mp hy with rfl | hy
      · exact hhigh.2.2 x hx y (by simp) k hk'
      · rcases List.mem_cons.mp hy with rfl | hy
        · exact (hhigh.2.2 x hx c (by simp) k hk').trans hs
        · exact hhigh.2.2 x hx y (by simp [hy]) k hk'

end Partition

end Epli.Lib
