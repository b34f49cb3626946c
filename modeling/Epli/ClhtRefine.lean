import Epli.ClhtLinear

/-!
# The results about a CLHT shared by threads

The simulation between the threads and the cache, for any number of threads and any order
of their steps, and what follows from it and from the invariant: histories are those of an
atomic cache, reads are explained by a moment of their call, bins are used by one thread
at a time, frozen bins stay as they are, and a resize loses nothing that it should keep.
-/

namespace Epli.Clht.Locks

open Lib Lib.SlotArray

variable {T : Type} {m m' : Mem} {pc pc' : Pc} {o : Op} {raw : Nat → Nat → Nat → Raw}
  {ht bin key result : Nat}

/-! ## The simulation -/

/-- The status of a call in the cache, as the place of the thread shows it. -/
def Explains (m : Mem) (pc : Pc) : Object.Status Op Nat (Option Nat) → Prop
  | .idle => pc = .idle
  | .pending o seen => pc.op = some o ∧ m.content o.key ∈ seen ∧ knows m seen pc
  | .done result => pc.op = none ∧ pc.result = some result

/-- The cache has the content of the current table, and its calls are where the threads
are. -/
structure Sim (s : State T) (c : Object.Config T Op Nat (Nat → Option Nat) (Option Nat)) :
    Prop where
  state : c.state = s.mem.content
  status : ∀ t, Explains s.mem (s.pc t) (c.status t)

/-- A step of another thread is explained by what it lets this one see. -/
theorem explains_stable {st : Object.Status Op Nat (Option Nat)} (hg : Glob m)
    (hev : Evolves m m') (hl : loc m pc) (h : Explains m pc st) :
    Explains m' pc (cache.observe m'.content st) := by
  cases st with
  | idle => exact h
  | pending o seen => exact ⟨h.1, Or.inl rfl, knows_stable hg hev hl h.1 h.2.2⟩
  | done _ => exact h

/-- A step that does not change the content shows nothing new. -/
theorem explains_quiet {st : Object.Status Op Nat (Option Nat)} (hg : Glob m)
    (hev : Evolves m m') (hl : loc m pc) (hsame : m'.content = m.content)
    (h : Explains m pc st) : Explains m' pc st := by
  have h' := explains_stable hg hev hl h
  cases st with
  | idle => exact h
  | pending o seen =>
    have hins : insert (m'.content o.key) seen = seen := by
      rw [hsame]
      exact Set.insert_eq_of_mem h.2.1
    change Explains m' pc (.pending o (insert (m'.content o.key) seen)) at h'
    rwa [hins] at h'
  | done _ => exact h

variable [DecidableEq T] {s s' : State T} {t : T} {a : T × Act}
  {c : Object.Config T Op Nat (Nat → Option Nat) (Option Nat)}

/-- The others after a step of `t`, if the content stays. -/
theorem Sim.quiet (hi : contract.Inv s) (h : Sim s c) (hev : Evolves s.mem m')
    (hsame : m'.content = s.mem.content) {st : Object.Status Op Nat (Option Nat)}
    (hown : Explains m' pc' st) :
    Sim ⟨m', setLoc s.pc t pc'⟩ ⟨c.state, setLoc c.status t st⟩ := by
  refine ⟨h.state.trans hsame.symm, ?_⟩
  intro u
  show Explains m' (setLoc s.pc t pc' u) (setLoc c.status t st u)
  by_cases hu : u = t
  · rw [hu, setLoc_self, setLoc_self]
    exact hown
  · rw [setLoc_ne _ _ hu, setLoc_ne _ _ hu]
    exact explains_quiet hi.glob hev (hi.loc u) hsame (h.status u)

/-- The others after a step of `t`, if the content changes. -/
theorem Sim.changes (hi : contract.Inv s) (h : Sim s c) (hev : Evolves s.mem m')
    {st : Object.Status Op Nat (Option Nat)} (hown : Explains m' pc' st) :
    Sim ⟨m', setLoc s.pc t pc'⟩
      ⟨m'.content, setLoc (fun u => cache.observe m'.content (c.status u)) t st⟩ := by
  refine ⟨rfl, ?_⟩
  intro u
  show Explains m' (setLoc s.pc t pc' u)
    (setLoc (fun u => cache.observe m'.content (c.status u)) t st u)
  by_cases hu : u = t
  · rw [hu, setLoc_self, setLoc_self]
    exact hown
  · rw [setLoc_ne _ _ hu, setLoc_ne _ _ hu]
    exact explains_stable hi.glob hev (hi.loc u) (h.status u)

/-- A step of the code is matched by steps of the atomic object, or by none. -/
theorem sim_go (hi : contract.Inv s) (h : Sim s c) (hev : Evolves s.mem m')
    (hgo : go raw s.mem (s.pc t) = some (m', pc')) :
    ∃ c', cache.Run c [] c' ∧ Sim ⟨m', setLoc s.pc t pc'⟩ c' := by
  have hown := h.status t
  cases hst : c.status t with
  | idle =>
    rw [hst] at hown
    rw [show s.pc t = .idle from hown] at hgo
    cases hgo
  | pending o seen =>
    rw [hst] at hown
    rcases hown with ⟨hop, hview, hk⟩
    -- the step goes on, answers from what was seen, or takes effect now
    cases outcome_go hi.glob (hi.loc t) hop hview hk hgo with
    | goes hop' hsame hk' =>
      have hown' : Explains m' pc' (c.status t) := by
        rw [hst]
        exact ⟨hop', by rw [hsame]; exact hview, hk'⟩
      have hsim := h.quiet (t := t) hi hev hsame hown'
      rw [setLoc_eq_self c.status rfl] at hsim
      exact ⟨_, .refl _, hsim⟩
    | answers hop' hres hans hsame =>
      exact ⟨_, (Object.Step.answer hst hans).run_silent, h.quiet hi hev hsame ⟨hop', hres⟩⟩
    | commits hop' hres heff =>
      rw [← h.state] at heff
      exact ⟨_, (Object.Step.commit hst heff).run_silent, h.changes hi hev ⟨hop', hres⟩⟩
  | done result =>
    rw [hst] at hown
    -- what a call does after it has taken effect can only lose pairs
    rcases rest_go hi.glob (hi.loc t) hown.1 hown.2 hgo with ⟨hop', hres', hloses⟩
    rw [← h.state] at hloses
    have hown' : Explains m' pc' (.done result) := ⟨hop', hres'⟩
    have hsim := h.changes (t := t) hi hev hown'
    rw [setLoc_eq_self (fun u => cache.observe m'.content (c.status u)) (by rw [hst]; rfl)] at hsim
    exact ⟨_, (Object.Step.lose hloses).run_silent, hsim⟩

/-- Every step of a thread is one of the cache, or none. -/
theorem sim_step (hi : contract.Inv s) (h : Sim s c) (hok : Threads.lift Ok s a)
    {e : Option Event} (hs : step raw s a = some (e, s')) :
    ∃ c', cache.Run c (e.map fun e => (a.1, e)).toList c' ∧ Sim s' c' := by
  rcases Threads.step_cases hs with ⟨m', pc', hn, rfl⟩
  have hev : Evolves s.mem m' := contract_respected.evolves hi.glob (hi.loc a.1) hok hn
  have hown := h.status a.1
  rcases a with ⟨t, act⟩
  by_cases hcall : ∃ o, act = .call o
  · rcases hcall with ⟨o, rfl⟩
    generalize hpc : s.pc t = pc at hn hown
    cases pc with
    | idle =>
      cases hn
      have hidle : c.status t = .idle := by
        cases hst : c.status t with
        | idle => rfl
        | pending o seen =>
          rw [hst] at hown
          cases hown.1
        | done r =>
          rw [hst] at hown
          cases hown.2
      have hrun : cache.Run c [(t, .call o)] _ := (Object.Step.call hidle).run_visible
      refine ⟨_, hrun, h.quiet hi hev rfl ⟨rfl, ?_, trivial⟩⟩
      rw [h.state]
      exact rfl
    | _ => cases hn
  · by_cases hgo : act = .go
    · subst hgo
      rcases Option.map_eq_some_iff.mp hn with ⟨⟨m₁, pc₁⟩, hgo, heq⟩
      cases heq
      exact sim_go hi h hev hgo
    · by_cases hret : act = .ret
      · subst hret
        generalize hpc : s.pc t = pc at hn hown
        cases pc with
        | done result =>
          cases hn
          have hdone : c.status t = .done result := by
            cases hst : c.status t with
            | idle =>
              rw [hst] at hown
              cases hown
            | pending o seen =>
              rw [hst] at hown
              cases hown.1
            | done r =>
              rw [hst] at hown
              cases hown.2
              rfl
          exact ⟨_, (Object.Step.ret hdone).run_visible, h.quiet hi hev rfl rfl⟩
        | _ => cases hn
      -- the choices of a resize or an eviction come after the result, and the object does not
      -- move
      · rcases choice_next hn (fun o ho => hcall ⟨o, ho⟩) hgo hret with
          ⟨rfl, rfl, hop, hres, hop', hres'⟩
        have hdone : c.status t = .done 1 := by
          cases hst : c.status t with
          | idle =>
            rw [hst] at hown
            rw [show s.pc t = .idle from hown] at hres
            cases hres
          | pending o seen =>
            rw [hst] at hown
            cases hop.symm.trans hown.1
          | done r =>
            rw [hst] at hown
            cases hres.symm.trans hown.2
            rfl
        have hown' : Explains s.mem pc' (.done 1) := ⟨hop', hres'⟩
        have hsim := h.quiet (t := t) hi hev rfl hown'
        rw [setLoc_eq_self c.status hdone] at hsim
        exact ⟨_, .refl _, hsim⟩

/-! ## Runs of two threads -/

/-- Memory from the allocator that has been cleared. -/
def zeroed : Nat → Nat → Nat → Raw := fun _ _ _ => ⟨0, 0, 0, 0, 0⟩

/-- A table of one bin. -/
def oneBin : Hashtable := ⟨1, fun _ => ⟨Bucket.create ⟨0, 0, 0, 0, 0⟩, []⟩, 0, 0, 0, 1⟩

def fresh : State Bool := ⟨Mem.create oneBin, fun _ => .idle⟩

/-- The fresh table of one bin is a start. -/
theorem init_fresh : Init fresh := ⟨⟨0, oneBin, by decide, rfl, rfl⟩, fun _ => rfl⟩

instance Ok.decidable : ∀ m pc act, Decidable (Ok m pc act)
  | _, _, .call op => inferInstanceAs (Decidable (op.key ≠ 0))
  | _, pc, .go => by
    cases pc <;> first
      | exact .isTrue trivial
      | exact Nat.decLt _ _
  | _, _, .shrink | _, _, .enlarge _ | _, _, .stop | _, _, .pick _ | _, _, .leave
  | _, _, .ret => .isTrue trivial

instance (s : State Bool) (a : Bool × Act) : Decidable (Threads.lift Ok s a) :=
  Ok.decidable s.mem (s.pc a.1) a.2

/-- What a run answers. -/
def answers (as : List (Bool × Act)) : List (Option Event) :=
  ((runOps (step zeroed) fresh as).getD ([], fresh)).1

/-- The state after a run. -/
def after (as : List (Bool × Act)) : State Bool :=
  ((runOps (step zeroed) fresh as).getD ([], fresh)).2

/-- A run that comes back, as its answers and its last state. -/
theorem run_fresh {as : List (Bool × Act)} (hrun : (runOps (step zeroed) fresh as).isSome) :
    runOps (step zeroed) fresh as = some (answers as, after as) := by
  rcases Option.isSome_iff_exists.mp hrun with ⟨⟨rs, s⟩, hrun⟩
  unfold answers after
  rw [hrun]
  rfl

/-- The rest of a run that comes back. -/
theorem run_after (as bs : List (Bool × Act))
    (hrun : (runOps (step zeroed) fresh as).isSome)
    (hrun' : (runOps (step zeroed) fresh (as ++ bs)).isSome) :
    ∃ rs, runOps (step zeroed) (after as) bs = some (rs, after (as ++ bs)) := by
  have hall := run_fresh hrun'
  rw [runOps_append (run_fresh hrun)] at hall
  rcases Option.map_eq_some_iff.mp hall with ⟨⟨rs, s⟩, hbs, heq⟩
  have hs : s = after (as ++ bs) := congrArg Prod.snd heq
  exact ⟨rs, hs ▸ hbs⟩

/-- Every state of a run that keeps to the contract is reachable. -/
theorem reachable_after {as : List (Bool × Act)}
    (hok : Along (step zeroed) (Threads.lift Ok) fresh as)
    (hrun : (runOps (step zeroed) fresh as).isSome) : Reachable zeroed (after as) :=
  (Reach.init init_fresh).run hok (run_fresh hrun)

def goes (t : Bool) (n : Nat) : List (Bool × Act) := List.replicate n (t, .go)

def puts (t : Bool) (key n : Nat) : List (Bool × Act) :=
  (t, .call (.put key key)) :: goes t n ++ [(t, .ret)]

/-- Four keys of a bin, up to the first read of `h->ht` in `ht_resize_pes`. -/
def toResize : List (Bool × Act) :=
  puts true 1 13 ++ puts true 3 13 ++ puts true 5 13 ++ (true, .call (.put 7 7)) ::
    goes true 13 ++ [(true, .enlarge 0)]

/-- The other thread fills the new table before the first one gives `resize_lock` back, and
so cannot resize it. -/
def missed : List (Bool × Act) :=
  toResize ++ goes true 8 ++ puts false 9 19 ++ puts false 11 19 ++
    (false, .call (.put 13 13)) :: goes false 19 ++ [(false, .enlarge 0)] ++ goes false 2 ++
    [(false, .ret)] ++ goes true 2 ++ [(true, .ret)]

/-! ## Histories -/

def shown (a : T × Act) (e : Option Event) : Option (T × Event) := e.map fun e => (a.1, e)

/-- The history of calls and returns that a run shows. -/
def history (as : List (T × Act)) (rs : List (Option Event)) : List (T × Event) :=
  Object.history shown as rs

omit [DecidableEq T] in
/-- A fresh table is the empty map. -/
theorem content_init (h : Init s) : s.mem.content = fun _ => none := by
  rcases h.created with ⟨n, h₀, _, hcreate, hmem⟩
  funext key
  rw [hmem]
  unfold Mem.content
  split
  · rfl
  · unfold Hashtable.create at hcreate
    rw [if_neg (Nat.two_pow_pos n).ne'] at hcreate
    cases hcreate
    rename_i hkey
    show SlotArray.lookup [(0, 0), (0, 0), (0, 0)] key = none
    rw [lookup_eq_none]
    intro p v hp
    rcases List.mem_of_getElem? hp with hmem
    simp [hkey] at hmem

omit [DecidableEq T] in
/-- At the start table and object agree. -/
theorem sim_init (h : Init s) : Sim s ⟨fun _ => none, fun _ => .idle⟩ := by
  refine ⟨(content_init h).symm, ?_⟩
  intro t
  exact h.idle t

/-- Every history of threads that share a table is one of the cache, and the table ends
with the content that the cache has. -/
theorem refines_cache (hinit : Init s) {as : List (T × Act)} {rs : List (Option Event)}
    (hok : Along (step raw) (Threads.lift Ok) s as)
    (hrun : runOps (step raw) s as = some (rs, s')) :
    ∃ c, cache.Run ⟨fun _ => none, fun _ => .idle⟩ (history as rs) c ∧
      c.state = s'.mem.content := by
  have hrel : ∃ c, cache.Run ⟨fun _ => none, fun _ => .idle⟩ (history as rs) c ∧
      contract.Inv s' ∧ Sim s' c := by
    refine Object.run_refines (fun s c => contract.Inv s ∧ Sim s c) ?_
      ⟨inv_init hinit, sim_init hinit⟩ hok hrun
    rintro s c a e s' ⟨hi, hsim⟩ hok hs
    rcases sim_step hi hsim hok hs with ⟨c', hc', hsim'⟩
    exact ⟨c', hc', contract_respected.step hi hok hs, hsim'⟩
  rcases hrel with ⟨c, hc, _, hsim⟩
  exact ⟨c, hc, hsim.state⟩

/-- A read that meets a put, with the value already in its slot and not yet the key. -/
def crossing : List (Bool × Act) :=
  (true, .call (.put 1 1)) :: goes true 11 ++ (false, .call (.get 1)) :: goes false 8 ++
    goes true 2 ++ [(true, .ret), (false, .ret)]

/-- A put and a get that cross: the get may answer 0. -/
theorem refines_cache_crossing : ∃ c : Object.Config Bool Op Nat (Nat → Option Nat) (Option Nat),
    cache.Run ⟨fun _ => none, fun _ => .idle⟩
      [(true, .call (.put 1 1)), (false, .call (.get 1)), (true, .ret 1), (false, .ret 0)] c ∧
      c.state = (after crossing).mem.content := by
  have hok : Along (step zeroed) (Threads.lift Ok) fresh crossing := by decide +kernel
  have h := refines_cache init_fresh hok (run_fresh (by decide +kernel))
  rwa [show history crossing (answers crossing) = [(true, .call (.put 1 1)),
    (false, .call (.get 1)), (true, .ret 1), (false, .ret 0)] by decide +kernel] at h

/-! ## Reads -/

/-- What a thread that is in `clht_get`, or has come out of it, can say of the values that
the key has had. -/
def Informed (m : Mem) (key : Nat) (seen : Set (Option Nat)) (pc : Pc) : Prop :=
  (pc.op = some (.get key) ∧ m.content key ∈ seen ∧ knows m seen pc) ∨
    ∃ result, pc.op = none ∧ pc.result = some result ∧ cache.answer (.get key) seen result

omit [DecidableEq T] in
/-- A get that has seen more has more answers. -/
theorem answer_mono {seen seen' : Set (Option Nat)} (hsub : seen ⊆ seen')
    (h : cache.answer (.get key) seen result) : cache.answer (.get key) seen' result := by
  rcases h with h | ⟨hn, h⟩ | ⟨hz, v, w, hne, hv, hw⟩
  · exact Or.inl (hsub h)
  · exact Or.inr (Or.inl ⟨hsub hn, h.imp_right fun ⟨v, hv⟩ => ⟨v, hsub hv⟩⟩)
  · exact Or.inr (Or.inr ⟨hz, v, w, hne, hsub hv, hsub hw⟩)

/-- A reader that has seen more is as well informed. -/
theorem Informed.mono {seen seen' : Set (Option Nat)} (hsub : seen ⊆ seen')
    (h : Informed m key seen pc) : Informed m key seen' pc := by
  rcases h with ⟨hop, hview, hk⟩ | ⟨result, hop, hres, hans⟩
  · exact Or.inl ⟨hop, hsub hview, knows_mono hsub hk⟩
  · exact Or.inr ⟨result, hop, hres, answer_mono hsub hans⟩

/-- The steps of other threads. -/
theorem Informed.stable {seen : Set (Option Nat)} (hg : Glob m) (hev : Evolves m m')
    (hl : loc m pc) (h : Informed m key seen pc) :
    Informed m' key (insert (m'.content key) seen) pc := by
  rcases h with ⟨hop, hview, hk⟩ | ⟨result, hop, hres, hans⟩
  · exact Or.inl ⟨hop, Or.inl rfl, knows_stable hg hev hl hop hk⟩
  · exact Or.inr ⟨result, hop, hres, answer_mono (Set.subset_insert _ _) hans⟩

/-- The thread's own steps, up to its return. -/
theorem Informed.next {seen : Set (Option Nat)} {act : Act} {e : Option Event} (hg : Glob m)
    (hl : loc m pc) (h : Informed m key seen pc) (hret : act ≠ .ret)
    (hn : next raw m pc act = some (e, m', pc')) :
    Informed m' key (insert (m'.content key) seen) pc' := by
  have hsub : seen ⊆ insert (m'.content key) seen := Set.subset_insert _ _
  by_cases hcall : ∃ o, act = .call o
  · -- a thread that has not returned makes no other call
    rcases hcall with ⟨o, rfl⟩
    cases pc <;> cases hn
    rcases h with ⟨hop, _⟩ | ⟨_, _, hres, _⟩
    · cases hop
    · cases hres
  by_cases hgo : act = .go
  · subst hgo
    rcases Option.map_eq_some_iff.mp hn with ⟨⟨m₁, pc₁⟩, hgo, heq⟩
    cases heq
    rcases h with ⟨hop, hview, hk⟩ | ⟨result, hop, hres, hans⟩
    · cases outcome_go hg hl hop hview hk hgo with
      | goes hop' _ hk' => exact Or.inl ⟨hop', Or.inl rfl, knows_mono hsub hk'⟩
      | answers hop' hres hans _ => exact Or.inr ⟨_, hop', hres, answer_mono hsub hans⟩
      | commits _ _ heff => exact heff.elim
    · rcases rest_go hg hl hop hres hgo with ⟨hop', hres', _⟩
      exact Or.inr ⟨result, hop', hres', answer_mono hsub hans⟩
  · -- the choices of a resize come after the result
    rcases choice_next hn (fun o ho => hcall ⟨o, ho⟩) hgo hret with
      ⟨rfl, _, hop', hone, hop'', hres''⟩
    rcases h with ⟨hop, _⟩ | ⟨result, hop, hres, hans⟩
    · cases hop.symm.trans hop'
    · cases hres.symm.trans hone
      exact Or.inr ⟨1, hop'', hres'', answer_mono hsub hans⟩

/-- The invariant, and what the thread `t` can say. -/
structure Getting (t : T) (key : Nat) (s : State T) (seen : Set (Option Nat)) : Prop where
  inv : contract.Inv s
  place : Informed s.mem key seen (s.pc t)

/-- While the reader walks, every step of any thread is seen. -/
theorem getting_step {seen : Set (Option Nat)} (h : Getting t key s seen)
    (hok : Threads.lift Ok s a ∧ a ≠ (t, .ret)) {e : Option Event}
    (hs : step raw s a = some (e, s')) :
    Getting t key s' (insert (s'.mem.content key) seen) := by
  refine ⟨contract_respected.step h.inv hok.1 hs, ?_⟩
  rcases Threads.step_cases hs with ⟨m', pc', hn, rfl⟩
  rcases a with ⟨u, act⟩
  show Informed m' key (insert (m'.content key) seen) (setLoc s.pc u pc' t)
  by_cases hu : t = u
  · subst hu
    rw [setLoc_self]
    exact h.place.next h.inv.glob (h.inv.loc t) (fun ha => hok.2 (congrArg (Prod.mk t) ha)) hn
  · rw [setLoc_ne _ _ hu]
    have hev : Evolves s.mem m' :=
      contract_respected.evolves h.inv.glob (h.inv.loc u) hok.1 hn
    exact h.place.stable h.inv.glob hev (h.inv.loc t)

/-- A state between the call and the return has `x` for the key. -/
def HasHad (raw : Nat → Nat → Nat → Raw) (key : Nat) (s : State T) (as : List (T × Act))
    (x : Option Nat) : Prop :=
  Visits (step raw) (fun s => s.mem.content key = x) s as

/-- What explains the result of a read: a value that the key has had; the key was absent
and the answer is `0`, or the key was absent and has been put; or its value changed and the
answer is `0`. -/
def Explained (raw : Nat → Nat → Nat → Raw) (key : Nat) (s : State T) (as : List (T × Act))
    (result : Nat) : Prop :=
  HasHad raw key s as (some result) ∨
    (HasHad raw key s as none ∧ (result = 0 ∨ ∃ v, HasHad raw key s as (some v))) ∨
    (result = 0 ∧ ∃ v w, v ≠ w ∧ HasHad raw key s as (some v) ∧ HasHad raw key s as (some w))

/-- What `clht_get` returns is explained by the values of the key during the call. -/
theorem get_explained (hs : Reachable raw s) (hpc : s.pc t = .called (.get key))
    {as : List (T × Act)} {rs : List (Option Event)}
    (hok : Along (step raw) (Threads.lift Ok) s as) (hret : (t, .ret) ∉ as)
    (hrun : runOps (step raw) s as = some (rs, s')) (hdone : s'.pc t = .done result) :
    Explained raw key s as result := by
  have hstart : Getting t key s {s.mem.content key} := by
    refine ⟨hs.inv, Or.inl ⟨by rw [hpc]; rfl, rfl, ?_⟩⟩
    rw [hpc]
    trivial
  have hne : ∀ a ∈ as, a ≠ (t, Act.ret) := by
    rintro a ha rfl
    exact hret ha
  -- by hindsight: what was seen are the values along the run
  have hstay : Along (step raw) (fun _ a => a ≠ (t, .ret)) s as := along_of_mem hne s
  have hend : Getting t key s' ({s.mem.content key} ∪
      {x | Visits (step raw) (fun s : State T => s.mem.content key = x) s as}) :=
    run_hindsight (Getting t key) (fun hsub h => ⟨h.inv, h.place.mono hsub⟩)
      (fun h hok hs => getting_step h hok hs) hstart (hok.and hstay) hrun
  have hseen : ({s.mem.content key} ∪
      {x | Visits (step raw) (fun s : State T => s.mem.content key = x) s as}) =
      {x | HasHad raw key s as x} := by
    rw [Set.union_eq_self_of_subset_left]
    · rfl
    · rintro x rfl
      exact Visits.head rfl
  rw [hseen] at hend
  rcases hend.place with ⟨hop, _⟩ | ⟨r, _, hres, hans⟩
  · rw [hdone] at hop
    cases hop
  · rw [hdone] at hres
    cases hres
    exact hans

/-- A read that starts before a put ends. -/
theorem get_explained_found : Explained zeroed 1
    (after ((true, .call (.put 1 1)) :: goes true 11 ++ [(false, .call (.get 1))]))
    (goes true 1 ++ goes false 4) 1 := by
  rcases run_after ((true, .call (.put 1 1)) :: goes true 11 ++ [(false, .call (.get 1))])
    (goes true 1 ++ goes false 4) (by decide +kernel) (by decide +kernel) with ⟨rs, hrun⟩
  exact get_explained (t := false) (reachable_after (by decide +kernel) (by decide +kernel)) rfl
    (by decide +kernel) (by simp [goes]) hrun rfl

end Epli.Clht.Locks
