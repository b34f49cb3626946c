import Epli.ClhtRefine

/-!
# What the threads of a CLHT can rely on

Results about every state that any number of threads reach, in any order of their steps.
A bin is changed by one thread at a time, and only in the current table. Every table is
well formed, so no key is ever in two slots. A table that has been replaced never changes
again. At most one thread is on its way to resize the current table, and the swap keeps
what it should keep. If the one thread that was to resize gives up, nobody ever will.
-/

namespace Epli.Clht.Locks

open Lib Lib.SlotArray

variable {T : Type} [DecidableEq T] {raw : Nat → Nat → Nat → Raw} {s s' : State T} {t u : T}
  {as : List (T × Act)} {rs : List (Option Event)} {i bin b key : Nat} {r : Resize}

/-! ## Bins and tables -/

/-- A thread between `LOCK_ACQ` and `LOCK_RLS` of a bin is the only one, and the bin is
one of the table that `h->ht` points to. -/
theorem section_exclusive (hs : Reachable raw s) (ht : (s.pc t).section = some (i, bin)) :
    i = s.mem.ht ∧ bin < s.mem.numBuckets i ∧ s.mem.lock i bin = .update ∧
      ∀ u, (s.pc u).section = some (i, bin) → u = t := by
  have hi := hs.inv
  have ho := owns_of_section (hi.loc t) ht
  exact ⟨ho.current hi.glob, ho.bin_lt, ho.lock, fun u hu => hi.exclusive u t (.bin i bin) hu ht⟩

/-- The first thread scans the bin while the other one waits for it. -/
theorem section_exclusive_first :
    let s := after ((true, .call (.put 1 1)) :: goes true 6 ++ (false, .call (.update 1 1)) ::
      goes false 1)
    (s.pc false).section = none ∧ s.mem.lock 0 0 = .update ∧
      ∀ u, (s.pc u).section = some (0, 0) → u = true := by
  intro s
  have hs : Reachable zeroed s := reachable_after (by decide +kernel) (by decide +kernel)
  have hpc : (s.pc true).section = some (0, 0) := by decide +kernel
  have h := section_exclusive hs hpc
  exact ⟨by decide +kernel, h.2.2.1, h.2.2.2⟩

/-- No key is ever in two slots of a table, whatever the threads do. -/
theorem key_in_one_slot (hs : Reachable raw s) {bin' p p' v v' : Nat} (hi : i ≤ s.mem.ht)
    (hk : key ≠ 0) (hbin : bin < s.mem.numBuckets i) (hbin' : bin' < s.mem.numBuckets i)
    (hp : (s.mem.slots i bin)[p]? = some (key, v))
    (hp' : (s.mem.slots i bin')[p']? = some (key, v')) : bin = bin' ∧ p = p' := by
  have hw := hs.inv.glob.wf i hi
  -- the hash of the key says which bin it is
  have hsame : bin = bin' :=
    (hw.keyed_slot hbin hk hp).symm.trans (hw.keyed_slot hbin' hk hp')
  subst hsame
  exact ⟨rfl, hw.uniq hbin p p' key v v' hk hp hp'⟩

/-- Looked for from both ends, a key is found in the same slot. -/
theorem key_in_one_slot_missed : ((after missed).mem.slots 1 1).findIdx (fun x => x.1 = 13) =
    ((after missed).mem.slots 1 1).length - 1 -
      ((after missed).mem.slots 1 1).reverse.findIdx (fun x => x.1 = 13) :=
  (key_in_one_slot (v := 13) (reachable_after (by decide +kernel) (by decide +kernel))
    (show 1 ≤ (after missed).mem.ht by decide +kernel) (by decide : 13 ≠ 0)
    (show 1 < (after missed).mem.numBuckets 1 by decide +kernel) (by decide +kernel)
    (by decide +kernel)
    (show ((after missed).mem.slots 1 1)[_]? = some (13, 13) by decide +kernel)).2

theorem evolves_step {a : T × Act} {e : Option Event} (hi : contract.Inv s)
    (hok : Threads.lift Ok s a) (hstep : step raw s a = some (e, s')) :
    Evolves s.mem s'.mem := by
  rcases Threads.step_cases hstep with ⟨m', pc', hn, rfl⟩
  exact contract_respected.evolves hi.glob (hi.loc a.1) hok hn

/-- What every step keeps is kept by a run. -/
theorem Reachable.run_keeps (inv : State T → Prop)
    (hstep : ∀ s a r s', contract.Inv s → inv s → Threads.lift Ok s a →
      step raw s a = some (r, s') → inv s')
    (hs : Reachable raw s) (h : inv s) (hok : Along (step raw) (Threads.lift Ok) s as)
    (hrun : runOps (step raw) s as = some (rs, s')) : inv s' := by
  have hafter : Along (step raw) (After (step raw) fun s => contract.Inv s ∧ inv s) s as := by
    refine Along.invariant (fun s => contract.Inv s ∧ inv s) ?_ ?_ ⟨hs.inv, h⟩ hok
    · intro s a r s' h hok hs
      exact ⟨contract_respected.step h.1 hok hs, hstep s a r s' h.1 h.2 hok hs⟩
    · intro s a h hok r s' hs
      exact ⟨contract_respected.step h.1 hok hs, hstep s a r s' h.1 h.2 hok hs⟩
  exact (Along.after_run ⟨hs.inv, h⟩ hafter hrun).2

/-- A table that has been replaced never changes again, nor does a bin that a resize has
locked. -/
theorem frozen_fixed (hs : Reachable raw s) (hok : Along (step raw) (Threads.lift Ok) s as)
    (hrun : runOps (step raw) s as = some (rs, s'))
    (hbin : i < s.mem.ht ∧ bin < s.mem.numBuckets i ∨
      i = s.mem.ht ∧ s.mem.lock i bin = .resize) :
    s'.mem.lock i bin = .resize ∧ s'.mem.chain i bin = s.mem.chain i bin := by
  have hstart : i ≤ s.mem.ht ∧ s.mem.lock i bin = .resize := by
    rcases hbin with ⟨hlt, hbin⟩ | ⟨rfl, hlock⟩
    · exact ⟨hlt.le, hs.inv.glob.frozen i hlt bin hbin⟩
    · exact ⟨le_refl _, hlock⟩
  have hend := hs.run_keeps (fun s' => i ≤ s'.mem.ht ∧ s'.mem.lock i bin = .resize ∧
    s'.mem.chain i bin = s.mem.chain i bin) ?_ ⟨hstart.1, hstart.2, rfl⟩ hok hrun
  · exact hend.2
  · rintro s₁ a e s₂ hi ⟨hle, hlock, hchain⟩ hok hstep
    have hev := evolves_step hi hok hstep
    have hfrozen := (hev.table i hle).frozen bin hlock
    exact ⟨le_trans hle hev.ht, hfrozen.1, hfrozen.2.trans hchain⟩

/-- The second thread writes to the table that has been swapped in. -/
theorem frozen_fixed_swapped :
    (after (toResize ++ goes true 8 ++ puts false 9 19)).mem.chain 0 0 =
      (after (toResize ++ goes true 8)).mem.chain 0 0 := by
  rcases run_after (toResize ++ goes true 8) (puts false 9 19) (by decide +kernel)
    (by decide +kernel) with ⟨rs, hrun⟩
  exact (frozen_fixed (reachable_after (by decide +kernel) (by decide +kernel))
    (by decide +kernel) hrun (Or.inl ⟨by decide +kernel, by decide +kernel⟩)).2

/-! ## Resizes -/

/-- The table that a resize has read and not yet replaced. -/
def Pc.old : Pc → Option Nat
  | .tryLock _ _ old => some old
  | .copy r _ | .copyBucket r _ _ | .swap r => some r.old
  | _ => none

/-- `ht_resize_pes` reads `h->ht` before it tries `resize_lock`, and still never copies a
table that has been replaced: nobody else is on the way to a resize. -/
theorem resize_current (hs : Reachable raw s) (hold : (s.pc t).old = some i) :
    i = s.mem.ht ∧ s.mem.Expanded ∧ ∀ u, (s.pc u).triggered = true → u = t := by
  have hi := hs.inv
  have hloc : loc s.mem (s.pc t) := hi.loc t
  have hself : i = s.mem.ht ∧ s.mem.Expanded ∧ (s.pc t).triggered = true := by
    generalize s.pc t = pc at hold hloc
    cases pc with
    | tryLock _ _ old =>
      cases hold
      exact ⟨hloc.2.2, hloc.1, rfl⟩
    | copy r b =>
      cases hold
      exact ⟨hloc.1.old, hloc.1.expanded, rfl⟩
    | copyBucket r b i =>
      cases hold
      exact ⟨hloc.1.old, hloc.1.expanded, rfl⟩
    | swap r =>
      cases hold
      exact ⟨Copying.old hloc, Copying.expanded hloc, rfl⟩
    | _ => cases hold
  exact ⟨hself.1, hself.2.1, fun u hu => hi.exclusive u t .trigger hu hself.2.2⟩

theorem resize_current_copying : 0 = (after (toResize ++ goes true 3)).mem.ht ∧
    (after (toResize ++ goes true 3)).mem.Expanded ∧
      ∀ u, ((after (toResize ++ goes true 3)).pc u).triggered = true → u = true :=
  resize_current (reachable_after (by decide +kernel) (by decide +kernel))
    (show ((after (toResize ++ goes true 3)).pc true).old = some 0 by decide +kernel)

/-- What the swap of a resize does to the content, whatever others have put, updated or
removed while it copied: nothing if the table grows, and it adds nothing if it shrinks. -/
theorem swap_content (hs : Reachable raw s) (hpc : s.pc t = .swap r) {e : Option Event}
    (hstep : step raw s (t, .go) = some (e, s')) :
    s'.mem.ht = s.mem.ht + 1 ∧
      (∀ key val, s'.mem.content key = some val → s.mem.content key = some val) ∧
      (r.isIncrease = true → s'.mem.content = s.mem.content) := by
  have hcopy : Copying s.mem r (s.mem.numBuckets s.mem.ht) 0 := by
    have hloc := hs.inv.loc t
    rw [hpc] at hloc
    exact hloc
  have hswap : s'.mem = s.mem.publish r.new := by
    unfold step Threads.step at hstep
    rw [hpc] at hstep
    cases hstep
    rfl
  rw [hswap]
  exact ⟨rfl, (content_publish hs.inv.glob hcopy).1, (content_publish hs.inv.glob hcopy).2⟩

theorem swap_content_doubled : ∃ e s',
    step zeroed (after (toResize ++ goes true 7)) (true, .go) = some (e, s') ∧
      s'.mem.content = (after (toResize ++ goes true 7)).mem.content := by
  have hs : Reachable zeroed (after (toResize ++ goes true 7)) :=
    reachable_after (by decide +kernel) (by decide +kernel)
  have hpc : ∃ r, (after (toResize ++ goes true 7)).pc true = .swap r ∧ r.isIncrease = true :=
    ⟨_, rfl, rfl⟩
  rcases hpc with ⟨r, hpc, hinc⟩
  exact ⟨_, _, rfl, (swap_content hs hpc rfl).2.2 hinc⟩

/-- If the current table has reached its threshold and nobody is on the way to resize it,
it will stay the current table: the threshold is met with `==`, so no later bucket asks
for a resize. This happens if the thread that was to resize finds `resize_lock` taken. -/
theorem never_resized (hs : Reachable raw s) (hx : s.mem.Expanded)
    (hno : ∀ t, (s.pc t).triggered = false) (hok : Along (step raw) (Threads.lift Ok) s as)
    (hrun : runOps (step raw) s as = some (rs, s')) :
    s'.mem.ht = s.mem.ht ∧ ∀ t, (s'.pc t).old = none := by
  have hend := hs.run_keeps (fun s' => s'.mem.ht = s.mem.ht ∧ s'.mem.Expanded ∧
    ∀ t, (s'.pc t).triggered = false) ?_ ⟨rfl, hx, hno⟩ hok hrun
  · refine ⟨hend.1, fun t => ?_⟩
    have hidle := hend.2.2 t
    generalize s'.pc t = pc at hidle
    cases pc <;> first
      | rfl
      | cases hidle
  · rintro s₁ a e s₂ hi ⟨hht, hx, hno⟩ hok hstep
    rcases Threads.step_cases hstep with ⟨m', pc', hn, rfl⟩
    -- nobody owns the trigger, and nobody can take it again
    have hkeep : m'.ht = s₁.mem.ht := by
      refine contract_respected.keeps (x := Res.trigger) hi.glob (hi.loc a.1) hok hn hx ?_
      intro htr
      exact absurd (htr.symm.trans (hno a.1)) (by decide)
    have hown : pc'.triggered = false := by
      rw [Bool.eq_false_iff]
      intro htr
      rcases contract_respected.acquire (x := Res.trigger) hi.glob (hi.loc a.1) hok hn htr with
        hold | hfree
      · exact absurd (hold.symm.trans (hno a.1)) (by decide)
      · exact hfree hx
    refine ⟨hkeep.trans hht, (evolves_step hi hok hstep).expanded hkeep hx, ?_⟩
    intro u
    show (setLoc s₁.pc a.1 pc' u).triggered = false
    by_cases hu : u = a.1
    · rw [hu, setLoc_self]
      exact hown
    · rw [setLoc_ne _ _ hu]
      exact hno u

theorem never_resized_missed : (after missed).mem.Expanded ∧
    (after (missed ++ (puts false 15 25 ++ puts true 17 25))).mem.ht = (after missed).mem.ht := by
  have hx : (after missed).mem.Expanded := by
    unfold Mem.Expanded
    decide +kernel
  rcases run_after missed (puts false 15 25 ++ puts true 17 25) (by decide +kernel)
    (by decide +kernel) with ⟨rs, hrun⟩
  exact ⟨hx, (never_resized (reachable_after (by decide +kernel) (by decide +kernel)) hx
    (by decide +kernel) (by decide +kernel) hrun).1⟩

end Epli.Clht.Locks
