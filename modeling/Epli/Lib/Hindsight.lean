import Mathlib.Data.Set.Insert
import Epli.Lib.Machine
import Epli.Lib.Pmem

/-!
# Concurrent objects

An abstract object that threads call: each call takes effect in one step between its
invocation and its return (`commit`), or it changes nothing and answers from what the
object looked like at moments of the call (`answer`). A pending call remembers these
moments as the set `seen` of its views, so that a call which reads several places of a
real data structure can be explained by a moment that has passed already: hindsight
instead of a linearization point in the code. The object may also lose content at any
time, as a cache does.

`run_refines` lifts a step-wise simulation to histories of calls and returns, and
`run_hindsight` says of a concrete run that the views are those of the states between.
-/

namespace Epli.Lib

variable {T Op Ret S V σ α ρ : Type}

/-- What calls see of the state, and what they may do and answer. -/
structure Object (Op Ret S V : Type) where
  view : Op → S → V
  effect : Op → S → Ret → S → Prop
  answer : Op → Set V → Ret → Prop
  loses : S → S → Prop

namespace Object

/-- What a thread is doing. -/
inductive Status (Op Ret V : Type) where
  | idle
  | pending (op : Op) (seen : Set V)
  | done (result : Ret)

/-- What the callers see. -/
inductive Event (Op Ret : Type) where
  | call (op : Op)
  | ret (result : Ret)
deriving DecidableEq

structure Config (T Op Ret S V : Type) where
  state : S
  status : T → Status Op Ret V

variable (o : Object Op Ret S V)

/-- A pending call sees the state. -/
def observe (s : S) : Status Op Ret V → Status Op Ret V
  | .pending op seen => .pending op (insert (o.view op s) seen)
  | st => st

variable [DecidableEq T]

/-- A step, with the event that it shows. -/
inductive Step : Config T Op Ret S V → Option (T × Event Op Ret) → Config T Op Ret S V → Prop where
  | call {c : Config T Op Ret S V} {t : T} {op : Op} : c.status t = .idle →
      Step c (some (t, .call op))
        ⟨c.state, setLoc c.status t (.pending op {o.view op c.state})⟩
  | ret {c : Config T Op Ret S V} {t : T} {r : Ret} : c.status t = .done r →
      Step c (some (t, .ret r)) ⟨c.state, setLoc c.status t .idle⟩
  | commit {c : Config T Op Ret S V} {t : T} {op : Op} {seen : Set V} {r : Ret} {s : S} :
      c.status t = .pending op seen → o.effect op c.state r s →
      Step c none ⟨s, setLoc (fun u => o.observe s (c.status u)) t (.done r)⟩
  | answer {c : Config T Op Ret S V} {t : T} {op : Op} {seen : Set V} {r : Ret} :
      c.status t = .pending op seen → o.answer op seen r →
      Step c none ⟨c.state, setLoc c.status t (.done r)⟩
  | lose {c : Config T Op Ret S V} {s : S} : o.loses c.state s →
      Step c none ⟨s, fun u => o.observe s (c.status u)⟩

/-- Runs, with the history of calls and returns. -/
inductive Run : Config T Op Ret S V → List (T × Event Op Ret) → Config T Op Ret S V → Prop where
  | refl (c : Config T Op Ret S V) : Run c [] c
  | silent {c c' c'' : Config T Op Ret S V} {es : List (T × Event Op Ret)} :
      o.Step c none c' → Run c' es c'' → Run c es c''
  | visible {c c' c'' : Config T Op Ret S V} {e : T × Event Op Ret}
      {es : List (T × Event Op Ret)} :
      o.Step c (some e) c' → Run c' es c'' → Run c (e :: es) c''

variable {o} {c c' c'' : Config T Op Ret S V} {es es' : List (T × Event Op Ret)}

theorem Run.trans (h : o.Run c es c') (h' : o.Run c' es' c'') : o.Run c (es ++ es') c'' := by
  induction h with
  | refl _ => exact h'
  | silent hs _ ih => exact .silent hs (ih h')
  | visible hs _ ih => exact .visible hs (ih h')

theorem Step.run_silent (h : o.Step c none c') : o.Run c [] c' := .silent h (.refl _)

theorem Step.run_visible {e : T × Event Op Ret} (h : o.Step c (some e) c') : o.Run c [e] c' :=
  .visible h (.refl _)

/-- The events that the steps of a machine show. -/
def history (ev : α → ρ → Option (T × Event Op Ret)) : List α → List ρ → List (T × Event Op Ret)
  | a :: as, r :: rs => (ev a r).toList ++ history ev as rs
  | _, _ => []

/-- Step-wise simulation of a machine by the object lifts to histories. -/
theorem run_refines {step : σ → α → Option (ρ × σ)} {ok : σ → α → Prop}
    {ev : α → ρ → Option (T × Event Op Ret)} (rel : σ → Config T Op Ret S V → Prop)
    (hstep : ∀ s c a r s', rel s c → ok s a → step s a = some (r, s') →
      ∃ c', o.Run c (ev a r).toList c' ∧ rel s' c') :
    ∀ {as : List α} {s s' : σ} {rs : List ρ} {c : Config T Op Ret S V}, rel s c →
      Along step ok s as → runOps step s as = some (rs, s') →
      ∃ c', o.Run c (history ev as rs) c' ∧ rel s' c' := by
  intro as
  induction as with
  | nil =>
    intro s s' rs c hrel _ hrun
    cases hrun
    exact ⟨c, .refl c, hrel⟩
  | cons a as ih =>
    intro s s' rs c hrel hok hrun
    simp only [runOps, Option.bind_eq_some_iff, Option.map_eq_some_iff, Prod.mk.injEq] at hrun
    rcases hrun with ⟨⟨r, s₁⟩, hs, ⟨rs₁, s₂⟩, hrun, rfl, rfl⟩
    rcases hstep s c a r s₁ hrel hok.1 hs with ⟨c₁, hc₁, hrel₁⟩
    rcases ih hrel₁ (hok.2 r s₁ hs) hrun with ⟨c₂, hc₂, hrel₂⟩
    exact ⟨c₂, hc₁.trans hc₂, hrel₂⟩

end Object

/-! ## Hindsight on concrete runs -/

/-- A state of the run satisfies `p`, the first or the last one or one between. -/
def Visits (step : σ → α → Option (ρ × σ)) (p : σ → Prop) : σ → List α → Prop
  | s, [] => p s
  | s, a :: as => p s ∨ ∃ r s', step s a = some (r, s') ∧ Visits step p s' as

theorem Visits.head {step : σ → α → Option (ρ × σ)} {p : σ → Prop} {s : σ} {as : List α}
    (h : p s) : Visits step p s as := by
  cases as with
  | nil => exact h
  | cons a as => exact Or.inl h

/-- If a reader's knowledge grows by the view of each state that the run comes to, then at
the end it knows what it can know from the views of the whole run. -/
theorem run_hindsight {step : σ → α → Option (ρ × σ)} {ok : σ → α → Prop} {view : σ → V}
    (knows : σ → Set V → Prop)
    (hmono : ∀ {s : σ} {seen seen' : Set V}, seen ⊆ seen' → knows s seen → knows s seen')
    (hstep : ∀ {s s' : σ} {a : α} {r : ρ} {seen : Set V}, knows s seen → ok s a →
      step s a = some (r, s') → knows s' (insert (view s') seen)) :
    ∀ {as : List α} {s s' : σ} {rs : List ρ} {seen : Set V}, knows s seen →
      Along step ok s as → runOps step s as = some (rs, s') →
      knows s' (seen ∪ {x | Visits step (fun s => view s = x) s as}) := by
  intro as
  induction as with
  | nil =>
    intro s s' rs seen h _ hrun
    cases hrun
    exact hmono Set.subset_union_left h
  | cons a as ih =>
    intro s s' rs seen h hok hrun
    simp only [runOps, Option.bind_eq_some_iff, Option.map_eq_some_iff, Prod.mk.injEq] at hrun
    rcases hrun with ⟨⟨r, s₁⟩, hs, ⟨rs₁, s₂⟩, hrun, rfl, rfl⟩
    refine hmono ?_ (ih (hstep h hok.1 hs) (hok.2 r s₁ hs) hrun)
    rintro x ((rfl | hx) | hx)
    · exact Or.inr (Or.inr ⟨r, s₁, hs, .head rfl⟩)
    · exact Or.inl hx
    · exact Or.inr (Or.inr ⟨r, s₁, hs, hx⟩)

end Epli.Lib
