import Epli.Lib.Machine
import Epli.Lib.Pmem

/-!
# Threads over a shared memory

Every thread runs the same code: `next` takes the thread at a place of the code one
step on, and may change the shared memory. A run picks in each step the thread that
goes on and the choice that its step makes, so every interleaving is a run.

The proof rule is rely and guarantee with ownership. A thread owns resources while it
is at certain places. Each step may change what is free or its own, and leaves alone
what another thread owns; an assertion about a place is stable if it survives what
others may do. `Contract.Respected.invariant` puts these together.
-/

namespace Epli.Lib

variable {T M P α ε X : Type} [DecidableEq T]

/-- The memory and the place of each thread. -/
structure Threads (T M P : Type) where
  mem : M
  pc : T → P

namespace Threads

/-- Thread `a.1` takes its next step, with the choice `a.2`. -/
def step (next : M → P → α → Option (ε × M × P)) (s : Threads T M P) (a : T × α) :
    Option (ε × Threads T M P) :=
  (next s.mem (s.pc a.1) a.2).map fun r => (r.1, ⟨r.2.1, setLoc s.pc a.1 r.2.2⟩)

/-- A step is a step of the code of one thread; the others stay where they are. -/
theorem step_cases {next : M → P → α → Option (ε × M × P)} {s s' : Threads T M P} {a : T × α}
    {e : ε} (h : step next s a = some (e, s')) :
    ∃ m p, next s.mem (s.pc a.1) a.2 = some (e, m, p) ∧ s' = ⟨m, setLoc s.pc a.1 p⟩ := by
  rcases Option.map_eq_some_iff.mp h with ⟨⟨e', m, p⟩, hn, heq⟩
  cases heq
  exact ⟨m, p, hn, rfl⟩

/-- A condition on the code of the thread that takes the step. -/
def lift (ok : M → P → α → Prop) (s : Threads T M P) (a : T × α) : Prop :=
  ok s.mem (s.pc a.1) a.2

end Threads

/-- An invariant by rely and guarantee. `holds p x`: a thread at `p` owns the resource
`x`; `taken m x`: the memory says that somebody owns it. `glob` is about the memory
alone, `loc` about the memory as a thread at `p` sees it. `evolves` is what every step
does to the memory, `keeps x` what a step of anybody but the owner of `x` does. -/
structure Contract (M P X : Type) where
  holds : P → X → Prop
  taken : M → X → Prop
  glob : M → Prop
  loc : M → P → Prop
  evolves : M → M → Prop
  keeps : X → M → M → Prop

namespace Contract

/-- The code keeps to the contract. -/
structure Respected (c : Contract M P X) (next : M → P → α → Option (ε × M × P))
    (ok : M → P → α → Prop) : Prop where
  taken : ∀ {m p x}, c.loc m p → c.holds p x → c.taken m x
  acquire : ∀ {m m' p p' a e x}, c.glob m → c.loc m p → ok m p a →
    next m p a = some (e, m', p') → c.holds p' x → c.holds p x ∨ ¬ c.taken m x
  own : ∀ {m m' p p' a e}, c.glob m → c.loc m p → ok m p a →
    next m p a = some (e, m', p') → c.glob m' ∧ c.loc m' p'
  evolves : ∀ {m m' p p' a e}, c.glob m → c.loc m p → ok m p a →
    next m p a = some (e, m', p') → c.evolves m m'
  keeps : ∀ {m m' p p' a e x}, c.glob m → c.loc m p → ok m p a →
    next m p a = some (e, m', p') → c.taken m x → ¬ c.holds p x → c.keeps x m m'
  stable : ∀ {m m' p}, c.glob m → c.loc m p → c.evolves m m' →
    (∀ x, c.holds p x → c.keeps x m m') → c.loc m' p

/-- What holds in every reachable state: the assertions of all places at which there are
threads, and no resource has two owners. -/
structure Inv (c : Contract M P X) (s : Threads T M P) : Prop where
  glob : c.glob s.mem
  loc : ∀ t, c.loc s.mem (s.pc t)
  exclusive : ∀ t u x, c.holds (s.pc t) x → c.holds (s.pc u) x → t = u

variable {c : Contract M P X} {next : M → P → α → Option (ε × M × P)} {ok : M → P → α → Prop}

omit [DecidableEq T] in
/-- What a step does to the threads that do not take it: their resources are kept. -/
theorem Respected.others (hc : c.Respected next ok) {s : Threads T M P} {t u : T} {a : α} {e : ε}
    {m' : M} {p' : P} (hi : c.Inv s) (hok : ok s.mem (s.pc t) a)
    (hn : next s.mem (s.pc t) a = some (e, m', p')) (hut : u ≠ t) :
    ∀ x, c.holds (s.pc u) x → c.keeps x s.mem m' := by
  intro x hx
  refine hc.keeps hi.glob (hi.loc t) hok hn (hc.taken (hi.loc u) hx) ?_
  intro ht
  exact hut (hi.exclusive u t x hx ht)

theorem Respected.step (hc : c.Respected next ok) {s s' : Threads T M P} {a : T × α} {e : ε}
    (hi : c.Inv s) (hok : Threads.lift ok s a) (hs : Threads.step next s a = some (e, s')) :
    c.Inv s' := by
  rcases Threads.step_cases hs with ⟨m', p', hn, rfl⟩
  rcases hc.own hi.glob (hi.loc a.1) hok hn with ⟨hglob, hown⟩
  refine ⟨hglob, ?_, ?_⟩
  · intro u
    show c.loc m' (setLoc s.pc a.1 p' u)
    by_cases hu : u = a.1
    · rw [hu, setLoc_self]
      exact hown
    · rw [setLoc_ne _ _ hu]
      exact hc.stable hi.glob (hi.loc u) (hc.evolves hi.glob (hi.loc a.1) hok hn)
        (hc.others hi hok hn hu)
  · -- what the thread has acquired was free, so no other thread owned it
    have hnew : ∀ u x, u ≠ a.1 → c.holds p' x → ¬ c.holds (s.pc u) x := by
      intro u x hu hp' hx
      rcases hc.acquire hi.glob (hi.loc a.1) hok hn hp' with hold | hfree
      · exact hu (hi.exclusive u a.1 x hx hold)
      · exact hfree (hc.taken (hi.loc u) hx)
    intro t u x ht hu
    change c.holds (setLoc s.pc a.1 p' t) x at ht
    change c.holds (setLoc s.pc a.1 p' u) x at hu
    by_cases hta : t = a.1
    · by_cases hua : u = a.1
      · rw [hta, hua]
      · rw [hta, setLoc_self] at ht
        rw [setLoc_ne _ _ hua] at hu
        exact absurd hu (hnew u x hua ht)
    · rw [setLoc_ne _ _ hta] at ht
      by_cases hua : u = a.1
      · rw [hua, setLoc_self] at hu
        exact absurd ht (hnew t x hta hu)
      · rw [setLoc_ne _ _ hua] at hu
        exact hi.exclusive t u x ht hu

theorem Respected.invariant (hc : c.Respected next ok) {init : Threads T M P → Prop}
    (hinit : ∀ s, init s → c.Inv s) {s : Threads T M P}
    (h : Reach init (Threads.step next) (Threads.lift ok) s) : c.Inv s :=
  h.invariant c.Inv hinit fun _ _ _ _ hi hok hs => hc.step hi hok hs

omit [DecidableEq T] in
/-- If the threads start at places that own nothing, no resource has two owners. -/
theorem Inv.idle {s : Threads T M P} (hglob : c.glob s.mem) (hloc : ∀ t, c.loc s.mem (s.pc t))
    (hfree : ∀ t x, ¬ c.holds (s.pc t) x) : c.Inv s :=
  ⟨hglob, hloc, fun t _ x ht _ => absurd ht (hfree t x)⟩

/-- Every resource of the kind `kind` that is taken has an owner. -/
def Owned (c : Contract M P X) (kind : X → Prop) (s : Threads T M P) : Prop :=
  ∀ x, kind x → c.taken s.mem x → ∃ t, c.holds (s.pc t) x

/-- A step that leaves a resource taken has taken it, or it was another thread's. -/
theorem Owned.step {kind : X → Prop} {s s' : Threads T M P} {a : T × α} {e : ε}
    (ho : Owned c kind s) (hstep : ∀ {m m' p p' a e x}, c.glob m → c.loc m p →
      ok m p a → next m p a = some (e, m', p') → kind x → c.taken m' x →
      c.holds p' x ∨ c.taken m x ∧ ¬ c.holds p x)
    (hi : c.Inv s) (hok : Threads.lift ok s a) (hs : Threads.step next s a = some (e, s')) :
    Owned c kind s' := by
  rcases Threads.step_cases hs with ⟨m', p', hn, rfl⟩
  intro x hx htaken
  rcases hstep hi.glob (hi.loc a.1) hok hn hx htaken with hown | ⟨hold, hnot⟩
  · exact ⟨a.1, show c.holds (setLoc s.pc a.1 p' a.1) x by rwa [setLoc_self]⟩
  · rcases ho x hx hold with ⟨u, hu⟩
    have hne : u ≠ a.1 := by
      rintro rfl
      exact hnot hu
    exact ⟨u, show c.holds (setLoc s.pc a.1 p' u) x by rwa [setLoc_ne _ _ hne]⟩

end Contract

end Epli.Lib
