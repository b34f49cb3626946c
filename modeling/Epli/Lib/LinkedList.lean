import Mathlib.Data.List.Basic
import Mathlib.Data.List.Nodup

/-!
# Singly linked lists in a memory

A list is given by a successor function `nxt` and a null address. `Walk nxt null
p as` says that following `nxt` from `p` visits exactly `as` and then ends at
`null`; `Reaches` is membership in such a walk, without mentioning it.

The one mutation needed is linking a fresh node behind an existing one
(`walk_link`).
-/

namespace Epli.Lib

variable {A : Type}

/-- Following `nxt` from `p` visits `as` and ends at `null`. -/
def Walk (nxt : A → A) (null : A) : A → List A → Prop
  | p, [] => p = null
  | p, a :: as => p = a ∧ a ≠ null ∧ Walk nxt null (nxt a) as

/-- `a` is a node met when following `nxt` from `p`. -/
inductive Reaches (nxt : A → A) (null : A) : A → A → Prop where
  | here {p : A} : p ≠ null → Reaches nxt null p p
  | next {p a : A} : p ≠ null → Reaches nxt null (nxt p) a → Reaches nxt null p a

variable {nxt nxt' : A → A} {null : A}

theorem walk_ne_null : ∀ {as : List A} {p : A}, Walk nxt null p as → ∀ a ∈ as, a ≠ null
  | [], _, _, _, ha => by simp at ha
  | b :: as, _, h, a, ha => by
    rcases List.mem_cons.mp ha with rfl | ha
    · exact h.2.1
    · exact walk_ne_null h.2.2 a ha

/-- A walk is not changed by a successor function that agrees on its nodes. -/
theorem walk_congr : ∀ {as : List A} {p : A}, (∀ a ∈ as, nxt' a = nxt a) →
    Walk nxt null p as → Walk nxt' null p as
  | [], _, _, h => h
  | a :: as, p, hag, h => by
    refine ⟨h.1, h.2.1, ?_⟩
    rw [hag a (by simp)]
    exact walk_congr (fun b hb => hag b (by simp [hb])) h.2.2

/-- The nodes met when following `nxt` are those of the walk. -/
theorem reaches_iff_mem : ∀ {as : List A} {p a : A}, Walk nxt null p as →
    (Reaches nxt null p a ↔ a ∈ as)
  | [], p, a, h => by
    have hp : p = null := h
    constructor
    · intro hr
      cases hr with
      | here hne => exact absurd hp hne
      | next hne _ => exact absurd hp hne
    · intro ha
      simp at ha
  | b :: as, p, a, h => by
    rcases h with ⟨rfl, hne, h⟩
    have ih := reaches_iff_mem (a := a) h
    constructor
    · intro hr
      -- each step of `Reaches` is one element of the walk
      cases hr with
      | here _ => simp
      | next _ hr => exact List.mem_cons_of_mem _ (ih.mp hr)
    · intro ha
      rcases List.mem_cons.mp ha with rfl | ha
      · exact .here hne
      · exact .next hne (ih.mpr ha)

/-- The start of a walk is its first node, or `null`. -/
theorem walk_head_mem {as : List A} {p : A} (h : Walk nxt null p as) (hp : p ≠ null) :
    p ∈ as := by
  cases as with
  | nil => exact absurd h hp
  | cons a as => simp [h.1]

/-- The nodes around a linked one. -/
theorem mem_of_mem_link {a b c : A} {pre post : List A} (h : c ∈ pre ++ a :: b :: post)
    (hcb : c ≠ b) : c ∈ pre ++ a :: post := by
  rcases List.mem_append.mp h with h | h
  · exact List.mem_append_left _ h
  · rcases List.mem_cons.mp h with rfl | h
    · simp
    · rcases List.mem_cons.mp h with h | h
      · exact absurd h hcb
      · exact List.mem_append_right _ (List.mem_cons_of_mem _ h)

/-- Linking a fresh node `b` behind the node `a` of a walk. -/
theorem walk_link {a b : A} {post : List A} (hb : b ≠ null) (hab : nxt' a = b)
    (hbn : nxt' b = nxt a) : ∀ {pre : List A} {p : A},
    (pre ++ a :: post).Nodup → b ∉ pre ++ a :: post →
    (∀ c ∈ pre ++ a :: post, c ≠ a → nxt' c = nxt c) →
    Walk nxt null p (pre ++ a :: post) → Walk nxt' null p (pre ++ a :: b :: post)
  | [], p, hnd, hfresh, hag, h => by
    rcases h with ⟨rfl, hne, h⟩
    refine ⟨rfl, hne, hab, hb, ?_⟩
    rw [hbn]
    refine walk_congr (fun c hc => hag c (by simp [hc]) ?_) h
    rintro rfl
    exact (List.nodup_cons.mp hnd).1 hc
  | c :: pre, p, hnd, hfresh, hag, h => by
    rcases h with ⟨rfl, hne, h⟩
    rw [List.cons_append, List.nodup_cons] at hnd
    have hca : p ≠ a := by
      rintro rfl
      exact hnd.1 (by simp)
    refine ⟨rfl, hne, ?_⟩
    rw [hag p (by simp) hca]
    refine walk_link hb hab hbn hnd.2 ?_ ?_ h
    · intro hmem
      exact hfresh (List.mem_cons_of_mem _ hmem)
    · intro d hd
      exact hag d (List.mem_cons_of_mem _ hd)

/-- Appending a fresh last node to a walk that ends at `a`. -/
theorem walk_snoc {a b : A} (hb : b ≠ null) (hab : nxt' a = b) (hbn : nxt' b = null)
    {pre : List A} {p : A} (hnd : (pre ++ [a]).Nodup) (hfresh : b ∉ pre ++ [a])
    (hend : nxt a = null) (hag : ∀ c ∈ pre ++ [a], c ≠ a → nxt' c = nxt c)
    (h : Walk nxt null p (pre ++ [a])) : Walk nxt' null p (pre ++ [a, b]) :=
  walk_link hb hab (hbn.trans hend.symm) hnd hfresh hag h

/-- The rest of a walk, from one of its nodes on. -/
theorem walk_from : ∀ {pre post : List A} {a p : A}, Walk nxt null p (pre ++ a :: post) →
    Walk nxt null a (a :: post)
  | [], _, _, _, h => ⟨rfl, h.2.1, h.2.2⟩
  | _ :: _, _, _, _, h => walk_from h.2.2

theorem walk_last : ∀ {pre : List A} {a p : A}, Walk nxt null p (pre ++ [a]) → nxt a = null
  | [], _, _, h => h.2.2
  | _ :: _, _, _, h => walk_last h.2.2

end Epli.Lib
