import Mathlib.Algebra.Group.Nat.Defs
import Mathlib.Data.List.Basic
import Mathlib.Logic.Basic

/-!
# Persistent memory with cache lines

Locations hold one word each and sit on cache lines. A program acts on the
memory through a trace of events: a `store` changes the visible word of one
location, a `flush` writes one line back to the medium.

Two crash models are built on the same traces:

* **program order** — every store is durable at once, so a crash leaves the
  memory after some prefix of the trace (`CrashImage`);
* **write back** — a store is certain to survive only when its line has been
  flushed since; until then the location is *dirty*, and a crash leaves it with
  an arbitrary word (`Pmem.Image`).
-/

namespace Epli.Lib

variable {L V : Type} [DecidableEq L]

/-- Functional update of a memory at one location. -/
def setLoc (m : L → V) (l : L) (x : V) : L → V :=
  fun l' => if l' = l then x else m l'

@[simp] theorem setLoc_self (m : L → V) (l : L) (x : V) : setLoc m l x l = x := by
  simp [setLoc]

@[simp] theorem setLoc_ne (m : L → V) {l l' : L} (x : V) (h : l' ≠ l) :
    setLoc m l x l' = m l' := by
  simp [setLoc, h]

/-- Writing what is there already. -/
theorem setLoc_eq_self (m : L → V) {l : L} {x : V} (h : m l = x) : setLoc m l x = m := by
  funext l'
  by_cases hl : l' = l
  · rw [hl, setLoc_self, h]
  · rw [setLoc_ne _ _ hl]

/-- One event of a trace: a store to a location, or a write back of a line. -/
inductive Ev (L V : Type) where
  | store (l : L) (x : V)
  | flush (line : Nat)
deriving DecidableEq, Repr

/-- Effect of an event on the visible memory. -/
def Ev.apply (m : L → V) : Ev L V → L → V
  | .store l x => setLoc m l x
  | .flush _ => m

/-- The visible memory after a trace. -/
def exec (m : L → V) (evs : List (Ev L V)) : L → V :=
  evs.foldl Ev.apply m

@[simp] theorem exec_nil (m : L → V) : exec m [] = m := rfl

@[simp] theorem exec_store (m : L → V) (l : L) (x : V) (evs : List (Ev L V)) :
    exec m (.store l x :: evs) = exec (setLoc m l x) evs := rfl

@[simp] theorem exec_flush (m : L → V) (n : Nat) (evs : List (Ev L V)) :
    exec m (.flush n :: evs) = exec m evs := rfl

@[simp] theorem exec_append (m : L → V) (evs₁ evs₂ : List (Ev L V)) :
    exec m (evs₁ ++ evs₂) = exec (exec m evs₁) evs₂ := by
  simp [exec, List.foldl_append]

/-- A trace writes only locations that satisfy `p`. -/
def WritesOnly (p : L → Prop) (evs : List (Ev L V)) : Prop :=
  ∀ l x, Ev.store l x ∈ evs → p l

omit [DecidableEq L] in
/-- Two traces that keep to some locations keep to them together. -/
theorem WritesOnly.append {p : L → Prop} {evs₁ evs₂ : List (Ev L V)} (h₁ : WritesOnly p evs₁)
    (h₂ : WritesOnly p evs₂) : WritesOnly p (evs₁ ++ evs₂) := by
  intro l x hx
  rcases List.mem_append.mp hx with hx | hx
  · exact h₁ l x hx
  · exact h₂ l x hx

/-! ## Crashes in program order -/

/-- `img` is what a crash inside `evs` can leave when every store is durable as
soon as it is made: the memory after some prefix of the trace. -/
def CrashImage (m : L → V) (evs : List (Ev L V)) (img : L → V) : Prop :=
  ∃ n, n ≤ evs.length ∧ img = exec m (evs.take n)

/-- A crash between two halves of a trace. -/
theorem crashImage_append (m : L → V) (evs₁ evs₂ : List (Ev L V)) :
    CrashImage m (evs₁ ++ evs₂) (exec m evs₁) :=
  ⟨evs₁.length, by simp, by simp⟩

/-- Before the first event there is one image. -/
theorem crashImage_nil {m img : L → V} : CrashImage m [] img ↔ img = m := by
  constructor
  · rintro ⟨n, _, h⟩
    simpa using h
  · rintro rfl
    exact ⟨0, by simp, by simp⟩

/-- The crash points of `e :: evs` are: before `e`, or a crash point of `evs`
in the memory `e` leaves. -/
theorem crashImage_cons {m img : L → V} {e : Ev L V} {evs : List (Ev L V)} :
    CrashImage m (e :: evs) img ↔ img = m ∨ CrashImage (e.apply m) evs img := by
  constructor
  · rintro ⟨n, hn, h⟩
    cases n with
    | zero => exact Or.inl (by simpa using h)
    | succ n => exact Or.inr ⟨n, by simpa using hn, by simpa [exec] using h⟩
  · rintro (h | ⟨n, hn, h⟩)
    · exact ⟨0, by simp, by simpa using h⟩
    · exact ⟨n + 1, by simpa using hn, by simpa [exec] using h⟩

/-! ## Crashes with write back -/

/-- A memory together with the set of locations stored to since their line was
last flushed. -/
structure Pmem (L V : Type) where
  vol : L → V
  dirty : L → Bool

namespace Pmem

/-- Effect of an event; `line` maps a location to its cache line. -/
def apply (line : L → Nat) (p : Pmem L V) : Ev L V → Pmem L V
  | .store l x => ⟨setLoc p.vol l x, setLoc p.dirty l true⟩
  | .flush n => ⟨p.vol, fun l => p.dirty l && line l != n⟩

/-- The memory after a trace. -/
def exec (line : L → Nat) (p : Pmem L V) (evs : List (Ev L V)) : Pmem L V :=
  evs.foldl (apply line) p

variable {line : L → Nat}

@[simp] theorem exec_nil (p : Pmem L V) : p.exec line [] = p := rfl

@[simp] theorem exec_cons (p : Pmem L V) (e : Ev L V) (evs : List (Ev L V)) :
    p.exec line (e :: evs) = (p.apply line e).exec line evs := rfl

@[simp] theorem exec_append (p : Pmem L V) (evs₁ evs₂ : List (Ev L V)) :
    p.exec line (evs₁ ++ evs₂) = (p.exec line evs₁).exec line evs₂ := by
  simp [exec, List.foldl_append]

@[simp] theorem vol_apply (p : Pmem L V) (e : Ev L V) :
    (p.apply line e).vol = e.apply p.vol := by
  cases e <;> rfl

@[simp] theorem vol_exec (evs : List (Ev L V)) :
    ∀ p : Pmem L V, (p.exec line evs).vol = Lib.exec p.vol evs := by
  induction evs with
  | nil => intro p; rfl
  | cons e evs ih =>
    intro p
    rw [exec_cons, ih, vol_apply]
    rfl

/-- A clean location outside a trace's footprint stays clean. -/
theorem dirty_frame {q : L → Prop} {l : L} (hl : ¬ q l) :
    ∀ (evs : List (Ev L V)) (p : Pmem L V), WritesOnly q evs → p.dirty l = false →
      (p.exec line evs).dirty l = false := by
  intro evs
  induction evs with
  | nil =>
    intro p _ hp
    exact hp
  | cons e evs ih =>
    intro p hw hp
    have hw' : WritesOnly q evs := fun l' x h => hw l' x (List.mem_cons_of_mem _ h)
    refine ih _ hw' ?_
    cases e with
    | store l' x =>
      have hne : l ≠ l' := by
        rintro rfl
        exact hl (hw l x (by simp))
      show setLoc p.dirty l' true l = false
      rw [setLoc_ne _ _ hne]
      exact hp
    | flush n => simp [apply, hp]

/-- Flushing its line cleans a location. -/
theorem dirty_flushed {l : L} : ∀ (lines : List Nat) (p : Pmem L V), line l ∈ lines →
    (p.exec line (lines.map .flush)).dirty l = false := by
  intro lines
  induction lines with
  | nil =>
    intro p hmem
    simp at hmem
  | cons n lines ih =>
    intro p hmem
    rw [List.map_cons, exec_cons]
    by_cases hn : line l = n
    · -- clean from here on: the other flushes store nothing
      refine dirty_frame (q := fun _ => False) id _ _ ?_ ?_
      · intro l' x hx
        simp at hx
      · simp [apply, hn]
    · rcases List.mem_cons.mp hmem with h | h
      · exact absurd h hn
      · exact ih _ h

/-- An image a crash can leave: it agrees with the visible memory on every
location that is not dirty, and may hold anything elsewhere. -/
def Image (p : Pmem L V) (img : L → V) : Prop :=
  ∀ l, p.dirty l = false → img l = p.vol l

end Pmem

end Epli.Lib
