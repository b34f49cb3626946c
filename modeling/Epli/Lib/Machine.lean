import Mathlib.Logic.Basic

/-!
# Machines, invariants and forward simulation

A machine is a partial step function with answers; `none` is a step that has no
meaning. `Reach` are the states met when every step satisfies a guard, `Along`
says that a run of given operations keeps to the guard.

Two rules: an inductive invariant holds in every reachable state
(`Reach.invariant`), and a step-wise simulation lifts to whole runs with the
same answers (`run_simulates`).
-/

namespace Epli.Lib

variable {σ τ α ρ : Type}

/-- Run a list of operations, collecting the answers. -/
def runOps (step : σ → α → Option (ρ × σ)) : σ → List α → Option (List ρ × σ)
  | s, [] => some ([], s)
  | s, a :: as => (step s a).bind fun r =>
      (runOps step r.2 as).map fun rs => (r.1 :: rs.1, rs.2)

/-- A run goes on from where the first part of it ends. -/
theorem runOps_append {step : σ → α → Option (ρ × σ)} {bs : List α} : ∀ {as : List α} {s s' : σ}
    {rs : List ρ}, runOps step s as = some (rs, s') →
    runOps step s (as ++ bs) = (runOps step s' bs).map fun r => (rs ++ r.1, r.2) := by
  intro as
  induction as with
  | nil =>
    intro s s' rs hrun
    cases hrun
    simp
  | cons a as ih =>
    intro s s' rs hrun
    simp only [runOps, Option.bind_eq_some_iff, Option.map_eq_some_iff, Prod.mk.injEq] at hrun
    rcases hrun with ⟨⟨r, s₁⟩, hs, ⟨rs₁, s₂⟩, hrun, rfl, rfl⟩
    simp only [List.cons_append, runOps, hs, Option.bind_some, ih hrun, Option.map_map]
    rfl

/-- Every step of the run of `as` from `s` satisfies the guard. -/
def Along (step : σ → α → Option (ρ × σ)) (ok : σ → α → Prop) : σ → List α → Prop
  | _, [] => True
  | s, a :: as => ok s a ∧ ∀ r s', step s a = some (r, s') → Along step ok s' as

/-- If the step comes back, it is with such a state. -/
def After (step : σ → α → Option (ρ × σ)) (p : σ → Prop) (s : σ) (a : α) : Prop :=
  ∀ r s', step s a = some (r, s') → p s'

theorem Along.mono {step : σ → α → Option (ρ × σ)} {ok ok' : σ → α → Prop}
    (himp : ∀ s a, ok s a → ok' s a) : ∀ {as : List α} {s : σ}, Along step ok s as →
    Along step ok' s as := by
  intro as
  induction as with
  | nil =>
    intro s _
    trivial
  | cons a as ih =>
    intro s h
    exact ⟨himp s a h.1, fun r s' hs => ih (h.2 r s' hs)⟩

/-- A run keeps to the guard if both parts of it do. -/
theorem along_append {step : σ → α → Option (ρ × σ)} {ok : σ → α → Prop} {bs : List α} :
    ∀ {as : List α} {s s' : σ} {rs : List ρ}, runOps step s as = some (rs, s') →
    (Along step ok s (as ++ bs) ↔ Along step ok s as ∧ Along step ok s' bs) := by
  intro as
  induction as with
  | nil =>
    intro s s' rs hrun
    cases hrun
    simp [Along]
  | cons a as ih =>
    intro s s' rs hrun
    simp only [runOps, Option.bind_eq_some_iff, Option.map_eq_some_iff, Prod.mk.injEq] at hrun
    rcases hrun with ⟨⟨r, s₁⟩, hs, ⟨rs₁, s₂⟩, hrun, _, rfl⟩
    simp only [List.cons_append, Along, hs, Option.some.injEq, Prod.mk.injEq, and_imp,
      forall_eq', forall_apply_eq_imp_iff, ih hrun, and_assoc]

/-- A property that every step of a run leaves holds at its end. -/
theorem Along.after_run {step : σ → α → Option (ρ × σ)} {p : σ → Prop} : ∀ {as : List α}
    {s s' : σ} {rs : List ρ}, p s → Along step (After step p) s as →
    runOps step s as = some (rs, s') → p s' := by
  intro as
  induction as with
  | nil =>
    intro s s' rs hp _ hrun
    cases hrun
    exact hp
  | cons a as ih =>
    intro s s' rs hp h hrun
    simp only [runOps, Option.bind_eq_some_iff, Option.map_eq_some_iff, Prod.mk.injEq] at hrun
    rcases hrun with ⟨⟨r, s₁⟩, hs, ⟨rs₁, s₂⟩, hrun, _, rfl⟩
    exact ih (h.1 r s₁ hs) (h.2 r s₁ hs) hrun

instance Along.decidable (step : σ → α → Option (ρ × σ)) (ok : σ → α → Prop)
    [∀ s a, Decidable (ok s a)] : ∀ s as, Decidable (Along step ok s as)
  | _, [] => .isTrue trivial
  | s, a :: as =>
    match h : step s a with
    | none => decidable_of_iff (ok s a) (by simp [Along, h])
    | some (r, s') =>
      have := Along.decidable step ok s' as
      decidable_of_iff (ok s a ∧ Along step ok s' as) (by simp [Along, h])

/-- A condition on the operations alone. -/
theorem along_of_mem {step : σ → α → Option (ρ × σ)} {p : α → Prop} :
    ∀ {as : List α}, (∀ a ∈ as, p a) → ∀ s : σ, Along step (fun _ a => p a) s as := by
  intro as
  induction as with
  | nil =>
    intro _ _
    trivial
  | cons a as ih =>
    intro hp s
    rw [List.forall_mem_cons] at hp
    exact ⟨hp.1, fun _ s' _ => ih hp.2 s'⟩

theorem Along.and {step : σ → α → Option (ρ × σ)} {ok ok' : σ → α → Prop} : ∀ {as : List α}
    {s : σ}, Along step ok s as → Along step ok' s as →
      Along step (fun s a => ok s a ∧ ok' s a) s as := by
  intro as
  induction as with
  | nil =>
    intro s _ _
    trivial
  | cons a as ih =>
    intro s h h'
    exact ⟨⟨h.1, h'.1⟩, fun r s' hs => ih (h.2 r s' hs) (h'.2 r s' hs)⟩

/-- What follows from the guard under an invariant of guarded steps holds along
the run. -/
theorem Along.invariant {step : σ → α → Option (ρ × σ)} {ok ok' : σ → α → Prop}
    (inv : σ → Prop) (hstep : ∀ s a r s', inv s → ok s a → step s a = some (r, s') → inv s')
    (himp : ∀ s a, inv s → ok s a → ok' s a) :
    ∀ {as : List α} {s : σ}, inv s → Along step ok s as → Along step ok' s as := by
  intro as
  induction as with
  | nil =>
    intro s _ _
    trivial
  | cons a as ih =>
    intro s hinv h
    refine ⟨himp s a hinv h.1, ?_⟩
    intro r s' hs
    exact ih (hstep s a r s' hinv h.1 hs) (h.2 r s' hs)

/-- Two guards that agree under an invariant hold along the same runs, if the steps that
satisfy them keep the invariant. The contract `c` is what the run keeps to in any case. -/
theorem Along.iff_along {step : σ → α → Option (ρ × σ)} {c ok ok' : σ → α → Prop}
    (inv : σ → Prop) (hiff : ∀ s a, inv s → c s a → (ok s a ↔ ok' s a))
    (hstep : ∀ s a r s', inv s → c s a → ok' s a → step s a = some (r, s') → inv s')
    {as : List α} {s : σ} (h : inv s) (hc : Along step c s as) :
    Along step ok s as ↔ Along step ok' s as := by
  constructor
  · intro hok
    exact Along.invariant inv
      (fun s a r s' hs ho => hstep s a r s' hs ho.1 ((hiff s a hs ho.1).mp ho.2))
      (fun s a hs ho => (hiff s a hs ho.1).mp ho.2) h (hc.and hok)
  · intro hok
    exact Along.invariant inv (fun s a r s' hs ho => hstep s a r s' hs ho.1 ho.2)
      (fun s a hs ho => (hiff s a hs ho.1).mpr ho.2) h (hc.and hok)

/-- If guarded steps from good states come back with good states, so does a guarded
run. -/
theorem Along.total {step : σ → α → Option (ρ × σ)} {ok : σ → α → Prop} (inv : σ → Prop)
    (hstep : ∀ s a, inv s → ok s a → ∃ r s', step s a = some (r, s') ∧ inv s') :
    ∀ {as : List α} {s : σ}, inv s → Along step ok s as →
      ∃ rs s', runOps step s as = some (rs, s') ∧ inv s' := by
  intro as
  induction as with
  | nil =>
    intro s hinv _
    exact ⟨[], s, rfl, hinv⟩
  | cons a as ih =>
    intro s hinv h
    rcases hstep s a hinv h.1 with ⟨r, s₁, hs, h₁⟩
    rcases ih h₁ (h.2 r s₁ hs) with ⟨rs, s', hrun, h'⟩
    exact ⟨r :: rs, s', by simp [runOps, hs, hrun], h'⟩

/-- If every step from a good state comes back with a good state, so does every run. -/
theorem runOps_total {step : σ → α → Option (ρ × σ)} (inv : σ → Prop)
    (hstep : ∀ s a, inv s → ∃ r s', step s a = some (r, s') ∧ inv s') (as : List α) {s : σ}
    (h : inv s) : ∃ rs s', runOps step s as = some (rs, s') ∧ inv s' :=
  (along_of_mem (fun _ _ => trivial) s).total inv (fun s a h _ => hstep s a h) h

/-- An operation repeated: the invariant counts the rounds, and each round below the bound
keeps to the guard. -/
theorem runOps_replicate {step : σ → α → Option (ρ × σ)} {ok : σ → α → Prop} {a : α}
    (bound : Nat) (inv : Nat → σ → Prop) (hstep : ∀ n s, n < bound → inv n s →
      ok s a ∧ ∃ r s', step s a = some (r, s') ∧ inv (n + 1) s') :
    ∀ (k : Nat) {n : Nat} {s : σ}, inv n s → n + k ≤ bound →
      ∃ rs s', runOps step s (List.replicate k a) = some (rs, s') ∧ inv (n + k) s' ∧
        Along step ok s (List.replicate k a) := by
  intro k
  induction k with
  | zero =>
    intro n s hinv _
    exact ⟨[], s, rfl, hinv, trivial⟩
  | succ k ih =>
    intro n s hinv hle
    rcases hstep n s (by omega) hinv with ⟨hok, r, s₁, hs, h₁⟩
    rcases ih h₁ (by omega) with ⟨rs, s', hrun, h', halong⟩
    refine ⟨r :: rs, s', by simp [List.replicate_succ, runOps, hs, hrun], ?_, hok, ?_⟩
    · rw [Nat.add_succ, ← Nat.succ_add]
      exact h'
    · intro r' s₂ hs'
      cases hs.symm.trans hs'
      exact halong

/-- The states reached from an initial one by steps that satisfy the guard. -/
inductive Reach (init : σ → Prop) (step : σ → α → Option (ρ × σ)) (ok : σ → α → Prop) :
    σ → Prop where
  | init {s : σ} : init s → Reach init step ok s
  | step {s s' : σ} {a : α} {r : ρ} : Reach init step ok s → ok s a →
      step s a = some (r, s') → Reach init step ok s'

/-- A run that keeps to the guard stays among the reachable states. -/
theorem Reach.run {init : σ → Prop} {step : σ → α → Option (ρ × σ)} {ok : σ → α → Prop} :
    ∀ {as : List α} {s s' : σ} {rs : List ρ}, Reach init step ok s → Along step ok s as →
      runOps step s as = some (rs, s') → Reach init step ok s' := by
  intro as
  induction as with
  | nil =>
    intro s s' rs h _ hrun
    simp only [runOps, Option.some.injEq, Prod.mk.injEq] at hrun
    exact hrun.2 ▸ h
  | cons a as ih =>
    intro s s' rs h hok hrun
    simp only [runOps, Option.bind_eq_some_iff, Option.map_eq_some_iff, Prod.mk.injEq] at hrun
    rcases hrun with ⟨⟨r, s₁⟩, hs, ⟨rs₁, s₂⟩, hrun, _, rfl⟩
    exact ih (.step h hok.1 hs) (hok.2 r s₁ hs) hrun

/-- An inductive invariant holds in every reachable state. -/
theorem Reach.invariant {init : σ → Prop} {step : σ → α → Option (ρ × σ)}
    {ok : σ → α → Prop} (inv : σ → Prop) (hinit : ∀ s, init s → inv s)
    (hstep : ∀ s a r s', inv s → ok s a → step s a = some (r, s') → inv s') {s : σ}
    (h : Reach init step ok s) : inv s := by
  induction h with
  | init h => exact hinit _ h
  | step _ hok hs ih => exact hstep _ _ _ _ ih hok hs

/-- Forward simulation: a step of the specification is matched by a step of the
implementation with the same answer. -/
theorem run_simulates {step : σ → α → Option (ρ × σ)} {spec : τ → α → Option (ρ × τ)}
    {ok : σ → α → Prop} (rel : σ → τ → Prop)
    (hstep : ∀ s x a r x', rel s x → ok s a → spec x a = some (r, x') →
      ∃ s', step s a = some (r, s') ∧ rel s' x') :
    ∀ (as : List α) (s : σ) (x : τ) (rs : List ρ) (x' : τ), rel s x → Along step ok s as →
      runOps spec x as = some (rs, x') → ∃ s', runOps step s as = some (rs, s') ∧ rel s' x' := by
  intro as
  induction as with
  | nil =>
    intro s x rs x' hrel _ hrun
    simp only [runOps, Option.some.injEq, Prod.mk.injEq] at hrun
    rcases hrun with ⟨rfl, rfl⟩
    exact ⟨s, rfl, hrel⟩
  | cons a as ih =>
    intro s x rs x' hrel hok hrun
    simp only [runOps, Option.bind_eq_some_iff, Option.map_eq_some_iff, Prod.mk.injEq] at hrun
    rcases hrun with ⟨⟨r, x₁⟩, hx, ⟨rs₁, x₂⟩, hrun, rfl, rfl⟩
    rcases hstep s x a r x₁ hrel hok.1 hx with ⟨s₁, hs, hrel₁⟩
    rcases ih s₁ x₁ rs₁ x₂ hrel₁ (hok.2 r s₁ hs) hrun with ⟨s', hs', hrel'⟩
    exact ⟨s', by simp [runOps, hs, hs'], hrel'⟩

end Epli.Lib
