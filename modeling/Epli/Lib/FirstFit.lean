import Mathlib.Data.List.Perm.Basic
import Mathlib.Data.List.Range
import Mathlib.Data.List.Nodup

/-!
# First-fit edits of nested lists

A container made of lists of lists of slots (bins of buckets of slots, say) is
edited at the first place that fits. `modifyFirst` is the edit of one level;
`Replaces old new l l'` is what an edit does to the flattened content: the items
`old` leave and the items `new` come, up to order. It goes through `flatMap`, and
so from a slot to the whole container.
-/

namespace Epli.Lib

variable {α β γ : Type} {f : α → Option (β × α)} {l l' : List α} {a : β}

/-- Edit the first element on which `f` is defined. -/
def modifyFirst (f : α → Option (β × α)) : List α → Option (β × List α)
  | [] => none
  | x :: xs =>
    match f x with
    | some (a, x') => some (a, x' :: xs)
    | none => (modifyFirst f xs).map fun r => (r.1, x :: r.2)

theorem modifyFirst_none (h : modifyFirst f l = none) : ∀ x ∈ l, f x = none := by
  induction l with
  | nil => simp
  | cons x xs ih =>
    unfold modifyFirst at h
    cases hx : f x with
    | some r => simp [hx] at h
    | none =>
      simp only [hx, Option.map_eq_none_iff] at h
      intro y hy
      rcases List.mem_cons.mp hy with rfl | hy
      · exact hx
      · exact ih h y hy

theorem modifyFirst_some (h : modifyFirst f l = some (a, l')) :
    ∃ pre x x' post, l = pre ++ x :: post ∧ l' = pre ++ x' :: post ∧ f x = some (a, x') := by
  induction l generalizing l' with
  | nil => simp [modifyFirst] at h
  | cons x xs ih =>
    unfold modifyFirst at h
    cases hx : f x with
    | some r =>
      simp only [hx, Option.some.injEq, Prod.mk.injEq] at h
      rcases h with ⟨rfl, rfl⟩
      exact ⟨[], x, r.2, xs, rfl, rfl, hx⟩
    | none =>
      simp only [hx, Option.map_eq_some_iff, Prod.mk.injEq, Prod.exists] at h
      rcases h with ⟨b, l₁, hl, rfl, rfl⟩
      rcases ih hl with ⟨pre, y, y', post, rfl, rfl, hy⟩
      exact ⟨x :: pre, y, y', post, rfl, rfl, hy⟩

theorem modifyFirst_length (h : modifyFirst f l = some (a, l')) : l'.length = l.length := by
  rcases modifyFirst_some h with ⟨pre, x, x', post, rfl, rfl, _⟩
  simp

/-- The edit is at the first element on which `f` is defined. -/
theorem modifyFirst_findIdx? (h : modifyFirst f l = some (a, l')) :
    ∃ i x x', (l.findIdx? fun x => (f x).isSome) = some i ∧ l[i]? = some x ∧
      f x = some (a, x') ∧ l' = l.set i x' := by
  induction l generalizing l' with
  | nil => simp [modifyFirst] at h
  | cons x xs ih =>
    unfold modifyFirst at h
    cases hx : f x with
    | some r =>
      simp only [hx, Option.some.injEq, Prod.mk.injEq] at h
      rcases h with ⟨rfl, rfl⟩
      exact ⟨0, x, r.2, by simp [List.findIdx?_cons, hx], rfl, hx, rfl⟩
    | none =>
      simp only [hx, Option.map_eq_some_iff, Prod.mk.injEq, Prod.exists] at h
      rcases h with ⟨b, l₁, hl, rfl, rfl⟩
      rcases ih hl with ⟨i, y, y', hi, hget, hy, rfl⟩
      exact ⟨i + 1, y, y', by simp [List.findIdx?_cons, hx, hi], hget, hy, rfl⟩

/-- A field that `f` leaves alone. -/
theorem modifyFirst_map {g : α → γ} (hg : ∀ x a x', f x = some (a, x') → g x' = g x)
    (h : modifyFirst f l = some (a, l')) : l'.map g = l.map g := by
  rcases modifyFirst_some h with ⟨pre, x, x', post, rfl, rfl, hx⟩
  simp [hg x a x' hx]

/-- The items `old` are exchanged for the items `new`, up to order. -/
def Replaces (old new l l' : List γ) : Prop :=
  ∃ rest, l.Perm (old ++ rest) ∧ l'.Perm (new ++ rest)

namespace Replaces

variable {old new items items' : List γ} {g g' : α → List γ}

theorem append {k k' : List γ} (h : Replaces old new k k') (pre post : List γ) :
    Replaces old new (pre ++ k ++ post) (pre ++ k' ++ post) := by
  rcases h with ⟨rest, hk, hk'⟩
  have hmove : ∀ x : List γ, (pre ++ (x ++ rest) ++ post).Perm (x ++ (pre ++ rest ++ post)) := by
    intro x
    simp only [List.append_assoc]
    exact List.perm_append_comm_assoc pre x _
  refine ⟨pre ++ rest ++ post, ?_, ?_⟩
  · exact ((hk.append_left pre).append_right post).trans (hmove old)
  · exact ((hk'.append_left pre).append_right post).trans (hmove new)

/-- Editing one element edits the flattened list alike. -/
theorem flatMap {x x' : α} (h : Replaces old new (g x) (g x')) (pre post : List α) :
    Replaces old new ((pre ++ x :: post).flatMap g) ((pre ++ x' :: post).flatMap g) := by
  simp only [List.flatMap_append, List.flatMap_cons, ← List.append_assoc]
  exact h.append _ _

/-- Changing a function at one place edits its flattened values alike. -/
theorem update {bins : List α} {x : α} (hnd : bins.Nodup) (hx : x ∈ bins)
    (h : Replaces old new (g x) (g' x)) (hother : ∀ y, y ≠ x → g' y = g y) :
    Replaces old new (bins.flatMap g) (bins.flatMap g') := by
  rcases List.append_of_mem hx with ⟨pre, post, rfl⟩
  rw [List.nodup_append, List.nodup_cons] at hnd
  have hpre : pre.flatMap g' = pre.flatMap g := by
    refine List.flatMap_congr fun y hy => hother y ?_
    rintro rfl
    exact hnd.2.2 y hy y List.mem_cons_self rfl
  have hpost : post.flatMap g' = post.flatMap g := by
    refine List.flatMap_congr fun y hy => hother y ?_
    rintro rfl
    exact hnd.2.1.1 hy
  simp only [List.flatMap_append, List.flatMap_cons, hpre, hpost, ← List.append_assoc]
  exact h.append _ _

/-- What is in the new content was there before, or has just come. -/
theorem mem_of_mem {x : γ} (h : Replaces old new items items') (hx : x ∈ items') :
    x ∈ new ∨ x ∈ items := by
  rcases h with ⟨rest, hl, hl'⟩
  rw [hl'.mem_iff, List.mem_append] at hx
  rw [hl.mem_iff, List.mem_append]
  exact hx.imp_right Or.inr

/-- If the new items have no labels but those of the old ones, labels stay unique. -/
theorem nodup_map (label : γ → β) (h : Replaces old new items items')
    (hsub : (new.map label).Sublist (old.map label)) (hnd : (items.map label).Nodup) :
    (items'.map label).Nodup := by
  rcases h with ⟨rest, hl, hl'⟩
  rw [(hl.map label).nodup_iff, List.map_append] at hnd
  rw [(hl'.map label).nodup_iff, List.map_append]
  exact hnd.sublist (hsub.append_right _)

/-- Nothing leaves: the new items join the old content. -/
theorem perm (h : Replaces [] new items items') : items'.Perm (new ++ items) := by
  rcases h with ⟨rest, hl, hl'⟩
  exact hl'.trans (hl.symm.append_left new)

end Replaces

end Epli.Lib
