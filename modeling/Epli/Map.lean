import Epli.Lib.Machine
import Epli.Sound

/-!
# Sound trees behave as finite maps

`Ref` is the client's view: a finite map from keys to values, whose operations
are undefined outside the client's contract. `Rel` ties a sound tree to the map
of its stored pairs, and `rel_step` is the simulation: as long as every split
satisfies `SplitOk`, each operation answers as the map does.
-/

namespace Epli

open Lib Entry

/-- Keys a client may use: neither the empty-slot key nor the largest word,
which ALEX reserves. -/
def ValidKey (k : Nat) : Prop := 0 < k ∧ k < 2 ^ 64 - 1

instance (k : Nat) : Decidable (ValidKey k) := inferInstanceAs (Decidable (_ ∧ _))

/-- The map a client believes to be talking to. -/
abbrev Ref := Nat → Option Nat

namespace Ref

/-- Bind or unbind one key. -/
def bind (r : Ref) (k : Nat) (x : Option Nat) : Ref := setLoc r k x

/-- One operation on the map; a call outside the client's contract (a key that
is not valid, an `Insert` of a bound key) has no meaning. -/
def step (r : Ref) : Op → Option (Answer × Ref)
  | .insert k v =>
    if ValidKey k ∧ r k = none then some (⟨.ok, none⟩, r.bind k (some v)) else none
  | .update k v =>
    if ValidKey k then
      if r k = none then some (⟨.fail, none⟩, r) else some (⟨.ok, none⟩, r.bind k (some v))
    else none
  | .remove k =>
    if ValidKey k then
      if r k = none then some (⟨.fail, none⟩, r) else some (⟨.ok, none⟩, r.bind k none)
    else none
  | .get k =>
    if ValidKey k then
      match r k with
      | some v => some (⟨.ok, some v⟩, r)
      | none => some (⟨.fail, some 0⟩, r)
    else none

end Ref

namespace Tree

variable {t : Tree} {r r' : Ref} {s₀ k v p : Nat} {rest : List (Nat × Nat)} {calls : Nat}

/-- The map holds exactly the stored pairs. -/
def Agrees (t : Tree) (r : Ref) : Prop :=
  ∀ k, k ≠ invalidKey → ∀ v, r k = some v ↔ Stored t.mem t.head k v

theorem Agrees.none_iff (h : Agrees t r) (hk : k ≠ invalidKey) :
    r k = none ↔ ∀ v, ¬ Stored t.mem t.head k v := by
  constructor
  · intro hn v hst
    rw [(h k hk v).mpr hst] at hn
    cases hn
  · intro hst
    cases hr : r k with
    | none => rfl
    | some v => exact absurd ((h k hk v).mp hr) (hst v)

/-- What a client may rely on, whatever the operation: only an `Insert` can
split. -/
def SplitGuard (t : Tree) : Op → Prop
  | .insert k _ => SplitOk t k
  | _ => True

instance (t : Tree) : ∀ op, Decidable (SplitGuard t op)
  | .insert k _ => inferInstanceAs (Decidable (SplitOk t k))
  | .update _ _ => .isTrue trivial
  | .remove _ => .isTrue trivial
  | .get _ => .isTrue trivial

/-! ## Effect of the operations on a sound tree -/

/-- Making room keeps the tree sound and stores the same pairs. The separators
are the old ones, and the median of the entry if it was split. -/
theorem makeRoom_sound (h : Sound t s₀ rest) (hp : t.lookup k = some p) (hok : SplitOk t k) :
    ∃ rest', Sound (t.makeRoom p).2 s₀ rest' ∧
      (∀ x ∈ rest', x ∈ rest ∨
        ∃ s, t.index.floor k = some (s, p) ∧ Full t.mem p ∧ x.1 = medianKey t.mem p) ∧
      ∀ k' v', k' ≠ invalidKey →
        (Stored (t.makeRoom p).2.mem t.head k' v' ↔ Stored t.mem t.head k' v') := by
  by_cases hf : Full t.mem p
  · rw [makeRoom_full hf]
    rcases floor_of_lookup h.routed.index_ne hp with ⟨s, hx⟩
    -- the guard, in terms of the separator: the median stays inside the cell
    have hle : s ≤ medianKey t.mem p := by
      rw [le_medianKey_iff]
      exact hok s p hx hf
    rcases h.split hx hf hle with ⟨l₁, l₂, hrest, hs, hst⟩
    refine ⟨_, hs, ?_, hst⟩
    intro x hmem
    rw [hrest]
    simp only [List.mem_append, List.mem_cons] at hmem ⊢
    rcases hmem with hmem | rfl | hmem
    · exact Or.inl (Or.inl hmem)
    · exact Or.inr ⟨s, hx, hf, rfl⟩
    · exact Or.inl (Or.inr hmem)
  · rw [makeRoom_room hf]
    exact ⟨rest, h, fun x hx => Or.inl hx, fun _ _ _ => Iff.rfl⟩

/-- Putting a new key at the empty slot found for it. -/
theorem put_sound (h : Sound t s₀ rest) (hp : t.lookup k = some p)
    (hnew : ∀ v, ¬ Stored t.mem t.head k v) {i : Nat}
    (hf : findSlot t.mem p invalidKey = some i) (v : Nat) :
    Sound (t.run (putAtPos p i k v)) s₀ rest ∧ ∀ k' v', k' ≠ invalidKey →
      (Stored (t.run (putAtPos p i k v)).mem t.head k' v' ↔
        Stored t.mem t.head k' v' ∨ (k' = k ∧ v' = v)) := by
  have hmem := h.shape.lookup_mem hp
  rcases findSlot_some hf with ⟨hi, he, _⟩
  constructor
  · apply h.run hp
    · rw [exec_putAtPos]
      exact slotsOnly_putSlot
    · rw [exec_putAtPos]
      exact unique_putSlot h.unique h.shape.walk hmem hnew
    · intro k' _ hh
      rw [exec_putAtPos] at hh
      exact hasKey_putSlot hh
  · intro k' v' hk'
    rw [run_mem, exec_putAtPos]
    exact stored_putSlot h.shape.walk hmem hi he hk'

@[simp] theorem makeRoom_vacated (t : Tree) (p : Nat) :
    (t.makeRoom p).2.vacated = t.vacated := by
  unfold makeRoom
  split <;> rfl

@[simp] theorem makeRoom_head (t : Tree) (p : Nat) : (t.makeRoom p).2.head = t.head := by
  unfold makeRoom
  split <;> rfl

/-- `Insert` of a key that is not stored answers `STATUS_OK` and stores one more
pair. -/
theorem insert_sound (h : Sound t s₀ rest) (hk : k ≠ invalidKey)
    (hnew : ∀ v, ¬ Stored t.mem t.head k v) (hok : SplitOk t k) (calls v : Nat) :
    ∃ evs t' rest', t.insert (calls + 2) k v = some (.ok, evs, t') ∧ Sound t' s₀ rest' ∧
      (∀ x ∈ rest', x ∈ rest ∨ ∃ s p, t.index.floor k = some (s, p) ∧ Full t.mem p ∧
        x.1 = medianKey t.mem p) ∧
      ∀ k' v', k' ≠ invalidKey → (Stored t'.mem t'.head k' v' ↔
        Stored t.mem t.head k' v' ∨ (k' = k ∧ v' = v)) := by
  rcases h.shape.exists_lookup k with ⟨p, hp, _⟩
  rcases insert_eq h.shape hp calls v with ⟨p', i, hp', hf, hins⟩
  -- first the split, which stores nothing new, then the put into the free slot
  rcases makeRoom_sound h hp hok with ⟨rest', hroom, hrest', hst⟩
  have hnew' : ∀ w, ¬ Stored (t.makeRoom p).2.mem (t.makeRoom p).2.head k w := by
    intro w hw
    rw [makeRoom_head, hst k w hk] at hw
    exact hnew w hw
  rcases put_sound hroom hp' hnew' hf v with ⟨hs, hput⟩
  refine ⟨_, _, rest', hins, hs, ?_, ?_⟩
  · intro x hx
    rcases hrest' x hx with hx | ⟨s, hfl, hfull, hmed⟩
    · exact Or.inl hx
    · exact Or.inr ⟨s, p, hfl, hfull, hmed⟩
  · intro k' v' hk'
    rw [run_head, hput k' v' hk', makeRoom_head, hst k' v' hk']

/-- `Update` answers `STATUS_OK` and rebinds a stored key. -/
theorem update_sound (h : Sound t s₀ rest) (hk : k ≠ invalidKey) {w : Nat}
    (hst : Stored t.mem t.head k w) (v : Nat) :
    ∃ evs t', t.update k v = some (.ok, evs, t') ∧ Sound t' s₀ rest ∧
      ∀ k' v', Stored t'.mem t'.head k' v' ↔
        (k' ≠ k ∧ Stored t.mem t.head k' v') ∨ (k' = k ∧ v' = v) := by
  rcases (stored_iff h.shape.walk).mp hst with ⟨a, ha, hh⟩
  have hp := h.routed.lookup_of_hasKey ha hk hh.hasKey
  rcases update_eq hp v with ⟨hno, _⟩ | ⟨i, hi, hki, _, hupd⟩
  · exact absurd hh.hasKey hno
  · refine ⟨_, _, hupd, ?_, ?_⟩
    · apply h.run hp
      · exact slotsOnly_setVal
      · exact unique_setVal h.unique
      · rintro k' _ ⟨j, hj, hkj⟩
        exact Or.inl ⟨j, hj, by simpa [setLoc] using hkj⟩
    · intro k' v'
      rw [run_mem, run_head]
      exact stored_setVal h.unique h.shape.walk ha hi hki hk

/-- `Remove` answers `STATUS_OK` and unbinds a stored key. -/
theorem remove_sound (h : Sound t s₀ rest) (hk : k ≠ invalidKey) {w : Nat}
    (hst : Stored t.mem t.head k w) :
    ∃ evs t', t.remove k = some (.ok, evs, t') ∧ Sound t' s₀ rest ∧
      ∀ k' v', k' ≠ invalidKey →
        (Stored t'.mem t'.head k' v' ↔ k' ≠ k ∧ Stored t.mem t.head k' v') := by
  rcases (stored_iff h.shape.walk).mp hst with ⟨a, ha, hh⟩
  have hp := h.routed.lookup_of_hasKey ha hk hh.hasKey
  rcases remove_eq hp with ⟨hno, _⟩ | ⟨i, hi, hki, _, hrem⟩
  · exact absurd hh.hasKey hno
  · refine ⟨_, _, hrem, ?_, ?_⟩
    · apply h.run hp
      · exact slotsOnly_clearKey
      · exact unique_clearKey h.unique
      · intro k' hk' hh'
        exact Or.inl (hasKey_clearKey hk' hh')
    · intro k' v' hk'
      rw [run_mem, run_head]
      exact stored_clearKey h.unique h.shape.walk ha hi hki hk hk'

/-- `Update` and `Remove` of a key that is not stored change nothing. -/
theorem update_absent (h : Sound t s₀ rest) (hst : ∀ v, ¬ Stored t.mem t.head k v) (v : Nat) :
    t.update k v = some (.fail, [], t) := by
  rcases h.shape.exists_lookup k with ⟨p, hp, hmem⟩
  rcases update_eq hp v with ⟨_, hupd⟩ | ⟨i, hi, hki, _, _⟩
  · exact hupd
  · exact absurd ((stored_iff h.shape.walk).mpr ⟨p, hmem, i, hi, hki, rfl⟩) (hst _)

theorem remove_absent (h : Sound t s₀ rest) (hst : ∀ v, ¬ Stored t.mem t.head k v) :
    t.remove k = some (.fail, [], t) := by
  rcases h.shape.exists_lookup k with ⟨p, hp, hmem⟩
  rcases remove_eq hp with ⟨_, hrem⟩ | ⟨i, hi, hki, _, _⟩
  · exact hrem
  · exact absurd ((stored_iff h.shape.walk).mpr ⟨p, hmem, i, hi, hki, rfl⟩) (hst _)

/-! ## The simulation -/

/-- A sound tree and the map of its stored pairs. -/
def Rel (t : Tree) (r : Ref) : Prop :=
  (∃ s₀ rest, Sound t s₀ rest) ∧ Agrees t r

/-- What `Get` answers according to the map. -/
def answer (r : Ref) (k : Nat) : Status × Nat :=
  match r k with
  | some v => (.ok, v)
  | none => (.fail, 0)

theorem rel_get (h : Rel t r) (hk : ValidKey k) : t.get k = some (answer r k) := by
  rcases h with ⟨⟨s₀, rest, hs⟩, hag⟩
  have hk0 : k ≠ invalidKey := Nat.pos_iff_ne_zero.mp hk.1
  unfold answer
  cases hr : r k with
  | some v => exact hs.routed.get_of_stored hk0 ((hag k hk0 v).mp hr)
  | none => exact hs.routed.get_of_not_stored ((hag.none_iff hk0).mp hr)

/-- One operation: the tree answers as the map does. -/
theorem rel_step (calls : Nat) (h : Rel t r) {op : Op} (hok : SplitGuard t op) {ans : Answer}
    (hstep : r.step op = some (ans, r')) :
    ∃ t', t.step (calls + 2) op = some (ans, t') ∧ Rel t' r' := by
  have hget := fun k (hk : ValidKey k) => rel_get h hk
  rcases h with ⟨⟨s₀, rest, hs⟩, hag⟩
  cases op with
  | insert k v =>
    simp only [Ref.step, Option.ite_none_right_eq_some, Option.some.injEq, Prod.mk.injEq] at hstep
    rcases hstep with ⟨⟨hv, hr⟩, rfl, rfl⟩
    have hk : k ≠ invalidKey := Nat.pos_iff_ne_zero.mp hv.1
    -- the reference map has no `k`, so no entry of the list holds it
    rcases insert_sound hs hk ((hag.none_iff hk).mp hr) hok calls v with
      ⟨evs, t', rest', hins, hs', _, hst⟩
    refine ⟨t', by simp [step, hins], ⟨s₀, rest', hs'⟩, ?_⟩
    intro k' hk' v'
    rw [hst k' v' hk', ← hag k' hk' v']
    by_cases hkk : k' = k
    · subst hkk
      simp [Ref.bind, hr, eq_comm]
    · simp [Ref.bind, hkk]
  | update k v =>
    simp only [Ref.step, Option.ite_none_right_eq_some] at hstep
    rcases hstep with ⟨hv, hstep⟩
    have hk : k ≠ invalidKey := Nat.pos_iff_ne_zero.mp hv.1
    -- `Update` answers by whether the key is there
    cases hr : r k with
    | none =>
      rw [if_pos hr, Option.some.injEq, Prod.mk.injEq] at hstep
      rcases hstep with ⟨rfl, rfl⟩
      have hupd := update_absent hs ((hag.none_iff hk).mp hr) v
      exact ⟨t, by simp [step, hupd], ⟨s₀, rest, hs⟩, hag⟩
    | some w =>
      rw [if_neg (by simp [hr]), Option.some.injEq, Prod.mk.injEq] at hstep
      rcases hstep with ⟨rfl, rfl⟩
      rcases update_sound hs hk ((hag k hk w).mp hr) v with ⟨evs, t', hupd, hs', hst⟩
      refine ⟨t', by simp [step, hupd], ⟨s₀, rest, hs'⟩, ?_⟩
      intro k' hk' v'
      rw [hst k' v', ← hag k' hk' v']
      by_cases hkk : k' = k
      · subst hkk
        simp [Ref.bind, eq_comm]
      · simp [Ref.bind, hkk]
  | remove k =>
    simp only [Ref.step, Option.ite_none_right_eq_some] at hstep
    rcases hstep with ⟨hv, hstep⟩
    have hk : k ≠ invalidKey := Nat.pos_iff_ne_zero.mp hv.1
    -- and so does `Remove`
    cases hr : r k with
    | none =>
      rw [if_pos hr, Option.some.injEq, Prod.mk.injEq] at hstep
      rcases hstep with ⟨rfl, rfl⟩
      have hrem := remove_absent hs ((hag.none_iff hk).mp hr)
      exact ⟨t, by simp [step, hrem], ⟨s₀, rest, hs⟩, hag⟩
    | some w =>
      rw [if_neg (by simp [hr]), Option.some.injEq, Prod.mk.injEq] at hstep
      rcases hstep with ⟨rfl, rfl⟩
      rcases remove_sound hs hk ((hag k hk w).mp hr) with ⟨evs, t', hrem, hs', hst⟩
      refine ⟨t', by simp [step, hrem], ⟨s₀, rest, hs'⟩, ?_⟩
      intro k' hk' v'
      rw [hst k' v' hk', ← hag k' hk' v']
      by_cases hkk : k' = k
      · subst hkk
        simp [Ref.bind]
      · simp [Ref.bind, hkk]
  | get k =>
    simp only [Ref.step, Option.ite_none_right_eq_some] at hstep
    rcases hstep with ⟨hv, hstep⟩
    have hg := hget k hv
    refine ⟨t, ?_, ?_⟩
    · cases hr : r k with
      | some w =>
        rw [hr] at hstep
        cases hstep
        simp [step, hg, answer, hr]
      | none =>
        rw [hr] at hstep
        cases hstep
        simp [step, hg, answer, hr]
    · cases hr : r k with
      | some w =>
        rw [hr] at hstep
        cases hstep
        exact ⟨⟨s₀, rest, hs⟩, hag⟩
      | none =>
        rw [hr] at hstep
        cases hstep
        exact ⟨⟨s₀, rest, hs⟩, hag⟩

end Tree

end Epli
