import Mathlib.Data.Nat.Init

/-!
# Searching positions

Search for the first position at which a predicate holds that stays true once it is true.
The search starts anywhere: it doubles a bound until the position lies between two
positions that it has looked at, and then halves what is between them. Where it starts
decides how long it takes, and not what it finds (`expSearch_first`). Linear search needs no
order.
-/

namespace Epli.Lib

variable {p q : Nat → Bool} {n m l r b size : Nat}

/-- The predicate stays true below `n`. -/
def Rising (p : Nat → Bool) (n : Nat) : Prop := ∀ i j, i ≤ j → j < n → p i = true → p j = true

/-- `r` is the first position below `n` at which `p` holds, or `n` if there is none. -/
structure First (p : Nat → Bool) (n r : Nat) : Prop where
  le : r ≤ n
  below : ∀ i < r, p i = false
  here : r < n → p r = true

/-- Where `p` does not hold yet, it does not hold before. -/
theorem Rising.not_of_le {i j : Nat} (h : Rising p n) (hj : j < n) (hij : i ≤ j)
    (hp : p j = false) : p i = false := by
  rw [Bool.eq_false_iff]
  intro hi
  rw [h i j hij hj hi] at hp
  cases hp

/-! ## Linear search -/

/-- The last position below a bound at which `p` holds. -/
def scanDown (p : Nat → Bool) : Nat → Option Nat
  | 0 => none
  | i + 1 => if p i then some i else scanDown p i

/-- The first of `n` positions from `i` on at which `p` holds. -/
def scanUp (p : Nat → Bool) : Nat → Nat → Option Nat
  | 0, _ => none
  | n + 1, i => if p i then some i else scanUp p n (i + 1)

/-- The scan down ends at the last position at which `p` holds, if there is one. -/
theorem scanDown_spec (p : Nat → Bool) (n : Nat) : match scanDown p n with
    | some g => g < n ∧ p g = true ∧ ∀ i, g < i → i < n → p i = false
    | none => ∀ i < n, p i = false := by
  induction n with
  | zero => exact fun i hi => absurd hi (by omega)
  | succ n ih =>
    unfold scanDown
    by_cases hn : p n = true
    · rw [if_pos hn]
      exact ⟨by omega, hn, fun i hi hi' => absurd hi' (by omega)⟩
    · rw [if_neg hn]
      have hn' : p n = false := by simpa using hn
      split
      · rename_i g heq
        rw [heq] at ih
        obtain ⟨hlt, hg, hb⟩ := ih
        refine ⟨by omega, hg, fun i hi hi' => ?_⟩
        rcases Nat.lt_succ_iff_lt_or_eq.mp hi' with hlt' | heq'
        · exact hb i hi hlt'
        · rw [heq', hn']
      · rename_i heq
        rw [heq] at ih
        intro i hi
        rcases Nat.lt_succ_iff_lt_or_eq.mp hi with hlt' | heq'
        · exact ih i hlt'
        · rw [heq', hn']

/-- The scan up ends at the first position at which `p` holds, if there is one. -/
theorem scanUp_spec (p : Nat → Bool) : ∀ n l : Nat, match scanUp p n l with
    | some g => l ≤ g ∧ g < l + n ∧ p g = true ∧ ∀ i, l ≤ i → i < g → p i = false
    | none => ∀ i, l ≤ i → i < l + n → p i = false := by
  intro n
  induction n with
  | zero => exact fun l i hi hi' => absurd hi' (by omega)
  | succ n ih =>
    intro l
    unfold scanUp
    by_cases hl : p l = true
    · rw [if_pos hl]
      exact ⟨Nat.le_refl l, by omega, hl, fun i hi hi' => absurd hi' (by omega)⟩
    · rw [if_neg hl]
      have hl' : p l = false := by simpa using hl
      have hrec := ih (l + 1)
      split
      · rename_i g heq
        rw [heq] at hrec
        obtain ⟨hle, hlt, hg, hb⟩ := hrec
        refine ⟨by omega, by omega, hg, fun i hi hi' => ?_⟩
        rcases Nat.lt_or_eq_of_le hi with hlt' | heq'
        · exact hb i hlt' hi'
        · rw [← heq', hl']
      · rename_i heq
        rw [heq] at hrec
        intro i hi hi'
        rcases Nat.lt_or_eq_of_le hi with hlt' | heq'
        · exact hrec i hlt' (by omega)
        · rw [← heq', hl']

/-! ## Binary search -/

/-- Halve `[l, r)` until it is empty. -/
def binarySearch (p : Nat → Bool) (l r : Nat) : Nat :=
  if l < r then
    let mid := l + (r - l) / 2
    if p mid then binarySearch p l mid else binarySearch p (mid + 1) r
  else l
termination_by r - l

/-- Halving finds the first position at which a rising `p` holds. -/
theorem binarySearch_first (h : Rising p n) : l ≤ r → r ≤ n → (∀ i < l, p i = false) →
    (r < n → p r = true) → First p n (binarySearch p l r) := by
  fun_induction binarySearch p l r with
  | case1 l r hlr mid hmid ih =>
    intro _ hrn hbelow _
    exact ih (by omega) (by omega) hbelow fun _ => hmid
  | case2 l r hlr mid hmid ih =>
    intro _ hrn _ hhere
    have hmid' : p mid = false := by simpa using hmid
    refine ih (by omega) hrn ?_ hhere
    intro i hi
    exact h.not_of_le (j := mid) (by omega) (by omega) hmid'
  | case3 l r hlr =>
    intro hle hrn hbelow hhere
    have heq : l = r := by omega
    subst heq
    exact ⟨hrn, hbelow, hhere⟩

/-! ## Doubling -/

/-- Double the bound while it is below `size` and `q` holds there. -/
def gallop (q : Nat → Bool) (bound size : Nat) : Nat :=
  if 0 < bound ∧ bound < size ∧ q bound = true then gallop q (bound * 2) size else bound
termination_by size - bound

/-- Where the doubling stops: `q` holds at half of the bound, and not at the bound. -/
structure Galloped (q : Nat → Bool) (size b : Nat) : Prop where
  pos : 0 < b
  half : b / 2 = 0 ∨ b / 2 < size ∧ q (b / 2) = true
  stop : size ≤ b ∨ q b = false

/-- The bound is doubled until `q` fails or the end is reached. -/
theorem gallop_spec (q : Nat → Bool) (bound size : Nat) : 0 < bound →
    (bound / 2 = 0 ∨ bound / 2 < size ∧ q (bound / 2) = true) →
    Galloped q size (gallop q bound size) := by
  fun_induction gallop q bound size with
  | case1 b hb ih =>
    intro _ _
    refine ih (by omega) (Or.inr ?_)
    rw [Nat.mul_div_cancel b (by decide)]
    exact hb.2
  | case2 b hb =>
    intro hpos hhalf
    refine ⟨hpos, hhalf, ?_⟩
    by_cases hlt : b < size
    · refine Or.inr ?_
      rw [Bool.eq_false_iff]
      exact fun hq => hb ⟨hpos, hlt, hq⟩
    · exact Or.inl (Nat.not_lt.mp hlt)

/-! ## Exponential search -/

/-- Search from `m`, to the left if `p` holds there and else to the right. -/
def expSearch (p : Nat → Bool) (n m : Nat) : Nat :=
  if p m then
    let bound := gallop (fun b => p (m - b)) 1 m
    binarySearch p (m - min bound m) (m - bound / 2)
  else
    let bound := gallop (fun b => !p (m + b)) 1 (n - m)
    binarySearch p (m + bound / 2) (m + min bound (n - m))

/-- From any start, exponential search finds the first position at which a rising `p` holds.
-/
theorem expSearch_first (h : Rising p n) (hm : m < n) : First p n (expSearch p n m) := by
  unfold expSearch
  split
  · rename_i hpm
    -- `p` holds at `m`: the first position is at `m` or to the left, within the bound
    have hs := gallop_spec (fun b => p (m - b)) 1 m (by decide) (Or.inl rfl)
    generalize gallop (fun b => p (m - b)) 1 m = b at hs
    refine binarySearch_first h (by have := hs.pos; omega) (by omega) ?_ ?_
    · intro i hi
      rcases hs.stop with hle | hstop
      · omega
      · exact h.not_of_le (j := m - b) (by omega) (by omega) hstop
    · intro _
      rcases hs.half with hzero | ⟨_, hhalf⟩
      · rw [hzero]
        exact hpm
      · exact hhalf
  · rename_i hpm
    have hpm' : p m = false := by simpa using hpm
    have hs := gallop_spec (fun b => !p (m + b)) 1 (n - m) (by decide) (Or.inl rfl)
    generalize gallop (fun b => !p (m + b)) 1 (n - m) = b at hs
    -- `p` fails at `m`, and still at half of the bound to the right
    have hhalf : m + b / 2 < n ∧ p (m + b / 2) = false := by
      rcases hs.half with hzero | ⟨hlt, hhalf⟩
      · rw [hzero]
        exact ⟨hm, hpm'⟩
      · exact ⟨by omega, by simpa using hhalf⟩
    refine binarySearch_first h (by have := hs.pos; omega) (by omega) ?_ ?_
    · intro i hi
      exact h.not_of_le hhalf.1 (by omega) hhalf.2
    · intro hlt
      rcases hs.stop with hle | hstop
      · omega
      · have hmin : min b (n - m) = b := by omega
        rw [hmin]
        simpa using hstop

end Epli.Lib
