import Epli.ClhtShared

/-!
# No deadlock among the threads of a CLHT

A thread waits in three places: for a bin that is in use, for `table_new` of a table that
is being copied, and, while it copies, for a bin that is in use. In each case some other
thread can go on: what is taken has an owner, an owner of a bin never waits, and a table
that has been replaced gets its `table_new`. So the threads never wait for each other in a
circle, unless one of them is about to leave its memory.
-/

namespace Epli.Clht.Locks

open Lib Lib.SlotArray

variable {m m' : Mem} {pc pc' : Pc} {raw : Nat → Nat → Nat → Raw} {ht bin : Nat} {act : Act}
  {e : Option Event}

/-! ## Places at which a thread goes on -/

/-- The thread is in a call and can come to another place. -/
def Moves (raw : Nat → Nat → Nat → Raw) (m : Mem) (pc : Pc) : Prop :=
  pc ≠ .idle ∧ ∃ act e m' pc', next raw m pc act = some (e, m', pc') ∧ pc' ≠ pc

/-- The thread waits. -/
def Pc.Spins (m : Mem) : Pc → Prop
  | .acquire _ ht bin => bin < m.numBuckets ht ∧ m.lock ht bin = .update
  | .await _ ht => (m.tables ht).tableNew = false
  | .copy r b => b < m.numBuckets r.old ∧ m.lock r.old b = .update
  | _ => False

/-- The thread is about to lock a bin that the table does not have, or to use a table that
`clht_hashtable_create` could not make. -/
def Pc.Faults (m : Mem) : Pc → Prop
  | .acquire (.eliminate _) ht bin => m.numBuckets ht ≤ bin
  | .tryLock isIncrease times old =>
    let n := if isIncrease then times * m.numBuckets old else m.numBuckets old / clhtRatioHalve
    n = 0 ∨ 2 ^ 31 < n
  | _ => False

theorem moves_go {n : Mem} {q : Pc} (h : go raw m pc = some (n, q)) (hne : q ≠ pc) :
    Moves raw m pc := by
  refine ⟨?_, .go, none, n, q, congrArg (Option.map _) h, hne⟩
  rintro rfl
  cases h

theorem exists_slot {l : List (Nat × Nat)} {p : Nat} (h : p < l.length) : ∃ x, l[p]? = some x :=
  ⟨l[p], List.getElem?_eq_getElem h⟩

/-- An owner of a bin never waits. -/
theorem moves_of_section (h : loc m pc) (hs : pc.section = some (ht, bin)) :
    Moves raw m pc := by
  cases pc with
  | scan s i b p empty =>
    cases hp : (m.slots i b)[p]? with
    | some x =>
      refine moves_go (n := m) (by rw [go, hp]) ?_
      split
      · cases s <;> simp [Section.hit]
      · simp
    | none =>
      refine moves_go (n := m) (by rw [go, hp]) ?_
      cases s <;> cases empty <;> simp [Section.miss]
  -- the slots that the place relies on are there, so the store goes through
  | fill key val putBin i b p =>
    rcases h.2.2.2 with ⟨v, hp⟩
    exact moves_go (by rw [go, hp, Option.map_some]) (by simp)
  | bind key val putBin i b p => exact moves_go (by rw [go, h.2.2.2, Option.map_some]) (by simp)
  | grow => exact moves_go rfl (by simp)
  | link => exact moves_go rfl (by simp)
  | assign key val i b p =>
    rcases h.2.2 with ⟨v, hp⟩
    exact moves_go (by rw [go, hp, Option.map_some]) (by simp)
  | erase key i b p val => exact moves_go (by rw [go, h.2.2, Option.map_some]) (by simp)
  | choose i b =>
    -- every chain has its first bucket to choose
    have hpos : 0 < (m.chain i b).buckets.length := Nat.succ_pos _
    have hpick : next raw m (.choose i b) (.pick 0) =
        some (none, m, .clear i b (entriesPerBucket * 0) entriesPerBucket) := by
      rw [next, if_pos hpos]
    exact ⟨by simp, _, _, _, _, hpick, by simp⟩
  | clear i b p n =>
    cases n with
    | zero => exact moves_go rfl (by simp)
    | succ n =>
      have hlt : p < (m.slots i b).length := by
        have := h.2
        omega
      rcases exists_slot hlt with ⟨x, hp⟩
      exact moves_go (by rw [go, hp, Option.map_some]) (by simp)
  | unlock i b exit =>
    refine moves_go rfl ?_
    cases exit <;> simp
  | _ => cases hs

/-- A thread in a call goes on, or waits, or is about to leave its memory. -/
theorem moves_or_waits (raw : Nat → Nat → Nat → Raw) (hg : Glob m) (h : loc m pc)
    (hbusy : pc ≠ .idle) : Moves raw m pc ∨ pc.Spins m ∨ pc.Faults m := by
  cases hs : pc.section with
  | some x => exact Or.inl (moves_of_section h hs)
  | none =>
    cases pc with
    | idle => exact absurd rfl hbusy
    | called op => exact Or.inl (moves_go rfl (by cases op <;> simp [Op.start]))
    | getVal key i b p =>
      cases hp : (m.slots i b)[p]? with
      | some x => exact Or.inl (moves_go (n := m) (by rw [go, hp]) (by simp))
      | none => exact Or.inl (moves_go (n := m) (by rw [go, hp]) (by simp))
    | getKey key i b p val =>
      rcases exists_slot h.2 with ⟨x, hp⟩
      refine Or.inl (moves_go (by rw [go, hp, Option.map_some]) ?_)
      split <;> simp
    | getAgain key i b p val =>
      rcases exists_slot h.2 with ⟨x, hp⟩
      exact Or.inl (moves_go (by rw [go, hp, Option.map_some]) (by simp))
    | bucketExists s i b p =>
      have hchecked : ∀ found, s.checked i b found ≠ .bucketExists s i b p := by
        intro found
        cases s <;> cases found <;> simp [Section.checked]
      cases hp : (m.slots i b)[p]? with
      | some x =>
        refine Or.inl (moves_go (n := m) (by rw [go, hp]) ?_)
        split
        · exact hchecked true
        · simp
      | none => exact Or.inl (moves_go (n := m) (by rw [go, hp]) (hchecked false))
    | acquire s i b =>
      by_cases hb : b < m.numBuckets i
      · cases hl : m.lock i b with
        | free =>
          refine Or.inl (moves_go (by rw [go, if_pos hb, hl]) ?_)
          cases s <;> simp [Section.enter]
        | update => exact Or.inr (Or.inl ⟨hb, hl⟩)
        | resize => exact Or.inl (moves_go (n := m) (by rw [go, if_pos hb, hl]) (by simp))
      -- after a shrink the bin to evict from may not exist any more: this is the fault
      · cases s with
        | eliminate putBin => exact Or.inr (Or.inr (Nat.not_lt.mp hb))
        | _ => exact absurd ((h.2 (by simp [Section.op])).bin_lt hg) hb
    -- `table_new` is what the thread spins on
    | await s i =>
      cases hn : (m.tables i).tableNew with
      | true => exact Or.inl (moves_go (n := m) (by rw [go, hn, if_pos rfl]) (by simp))
      | false => exact Or.inr (Or.inl hn)
    | reload s => exact Or.inl (moves_go rfl (by simp))
    | status putBin =>
      cases putBin with
      | some b => exact Or.inl ⟨by simp, .stop, none, m, _, rfl, by simp⟩
      | none => exact Or.inl ⟨by simp, .stop, none, m, _, rfl, by simp⟩
    | resize isIncrease times => exact Or.inl (moves_go rfl (by simp))
    | tryLock isIncrease times old =>
      cases hl : m.resizeLock with
      | true => exact Or.inl (moves_go (n := m) (by rw [go, hl, if_pos rfl]) (by simp))
      | false =>
        -- a table of no bins or of more than `2^31` cannot be made
        by_cases hfault : (Pc.tryLock isIncrease times old).Faults m
        · exact Or.inr (Or.inr hfault)
        · simp only [Pc.Faults, not_or, Nat.not_lt] at hfault
          rcases Hashtable.copied_create (Nat.pos_of_ne_zero hfault.1) with ⟨new, hnew, _⟩
          refine Or.inl (moves_go (n := { m with resizeLock := true })
            (q := .copy ⟨old, { new with version := (m.tables old).ht.version + 1 },
              isIncrease⟩ 0) ?_ (by simp))
          have hbound := hfault.2
          unfold Mem.numBuckets at hnew hbound
          rw [go, hl, if_neg Bool.false_ne_true]
          simp only [guard, if_pos hbound, hnew]
          rfl
    | copy r b =>
      by_cases hb : b < m.numBuckets r.old
      · cases hl : m.lock r.old b with
        | free => exact Or.inl (moves_go (by rw [go, if_pos hb, hl]) (by simp))
        | update => exact Or.inr (Or.inl ⟨hb, hl⟩)
        | resize => exact Or.inl (moves_go (n := m) (by rw [go, if_pos hb, hl]) (by simp))
      · exact Or.inl (moves_go (n := m) (by rw [go, if_neg hb]) (by simp))
    | copyBucket r b i =>
      cases hp : (m.chain r.old b).buckets[i]? with
      | some bucket => exact Or.inl (moves_go (n := m) (by rw [go, hp]) (by simp))
      | none => exact Or.inl (moves_go (n := m) (by rw [go, hp]) (by simp))
    | swap r => exact Or.inl (moves_go rfl (by simp))
    | setNew old again => exact Or.inl (moves_go rfl (by simp))
    | unlockResize again =>
      refine Or.inl (moves_go rfl ?_)
      cases again <;> simp
    | done result => exact Or.inl ⟨by simp, .ret, _, m, .idle, rfl, by simp⟩
    | _ => cases hs

/-! ## What is taken has an owner -/

/-- The locks. -/
def Res.IsLock : Res → Prop
  | .trigger => False
  | _ => True

/-- What a step leaves taken. -/
def Keeps (m : Mem) (pc : Pc) (m' : Mem) (pc' : Pc) : Prop :=
  ∀ x : Res, x.IsLock → m'.taken x → pc'.holds x ∨ m.taken x ∧ ¬ pc.holds x

/-- A step that leaves the locks and what the thread owns of them. -/
theorem Keeps.same (hht : m'.ht = m.ht) (hlock : ∀ i b, m'.lock i b = m.lock i b)
    (hresize : m'.resizeLock = m.resizeLock) (hsec : pc'.section = pc.section)
    (hres : pc'.resizing = pc.resizing) : Keeps m pc m' pc' := by
  have htaken : ∀ x : Res, x.IsLock → m'.taken x → m.taken x := by
    intro x hx h
    cases x with
    | bin i b => exact ⟨hht ▸ h.1, (hlock i b).symm.trans h.2⟩
    | resizeLock => exact hresize.symm.trans h
    | trigger => exact hx.elim
  have hholds : ∀ x : Res, x.IsLock → (pc'.holds x ↔ pc.holds x) := by
    intro x hx
    cases x with
    | bin i b => exact iff_of_eq (congrArg (· = some (i, b)) hsec)
    | resizeLock => exact iff_of_eq (congrArg (· = true) hres)
    | trigger => exact hx.elim
  intro x hx h
  by_cases hown : pc.holds x
  · exact Or.inl ((hholds x hx).mpr hown)
  · exact Or.inr ⟨htaken x hx h, hown⟩

/-- A step that takes no lock, by a thread that has none. -/
theorem Keeps.quiet (hsec : pc.section = none) (hres : pc.resizing = false) :
    Keeps m pc m pc' := by
  intro x hx h
  refine Or.inr ⟨h, ?_⟩
  cases x with
  | bin i b =>
    intro hown
    cases hsec.symm.trans hown
  | resizeLock =>
    intro hown
    cases hres.symm.trans hown
  | trigger => exact hx.elim

/-- It is enough to look at the bins and at `resize_lock`. -/
theorem Keeps.of_locks
    (hbin : ∀ i b, i ≤ m'.ht → m'.lock i b = .update → pc'.section = some (i, b) ∨
      (i ≤ m.ht ∧ m.lock i b = .update) ∧ pc.section ≠ some (i, b))
    (hresize : m'.resizeLock = true → pc'.resizing = true ∨
      m.resizeLock = true ∧ pc.resizing ≠ true) : Keeps m pc m' pc' := by
  intro x hx htaken
  cases x with
  | bin i b => exact hbin i b htaken.1 htaken.2
  | resizeLock => exact hresize htaken
  | trigger => exact hx.elim

/-- `LOCK_ACQ`: the bin that is newly taken is the thread's own. -/
theorem Keeps.acquire (hsec : pc.section = none) (hres : pc.resizing = false)
    (hnew : pc'.section = some (ht, bin)) : Keeps m pc (m.setLock ht bin .update) pc' := by
  refine .of_locks ?_ ?_
  · intro i b hle hl
    rw [Mem.lock_setLock] at hl
    split at hl
    · rename_i heq
      rw [hnew, heq.1, heq.2]
      exact Or.inl rfl
    · rw [hsec]
      exact Or.inr ⟨⟨hle, hl⟩, nofun⟩
  · intro htaken
    rw [hres]
    exact Or.inr ⟨htaken, Bool.false_ne_true⟩

/-- `LOCK_RLS`: no other bin is the thread's own. -/
theorem Keeps.unlock (hsec : pc.section = some (ht, bin)) (hres : pc.resizing = false) :
    Keeps m pc (m.setLock ht bin .free) pc' := by
  refine .of_locks ?_ ?_
  · intro i b hle hl
    rw [Mem.lock_setLock] at hl
    split at hl
    · cases hl
    · rename_i hne
      refine Or.inr ⟨⟨hle, hl⟩, ?_⟩
      intro hown
      cases hsec.symm.trans hown
      exact hne ⟨rfl, rfl⟩
  · intro htaken
    rw [hres]
    exact Or.inr ⟨htaken, Bool.false_ne_true⟩

/-- `TRYLOCK_ACQ`: the thread has `resize_lock`, and the bins are as before. -/
theorem Keeps.lockResize (hsec : pc.section = none) (hnew : pc'.resizing = true) :
    Keeps m pc { m with resizeLock := true } pc' := by
  refine .of_locks ?_ fun _ => Or.inl hnew
  intro i b hle hl
  rw [hsec]
  exact Or.inr ⟨⟨hle, hl⟩, nofun⟩

/-- `LOCK_ACQ_RES`: a bin that is being copied is not in use. -/
theorem Keeps.freeze (hsec : pc.section = none) (hnew : pc'.resizing = true) :
    Keeps m pc (m.setLock ht bin .resize) pc' := by
  refine .of_locks ?_ fun _ => Or.inl hnew
  intro i b hle hl
  rw [Mem.lock_setLock] at hl
  split at hl
  · cases hl
  · rw [hsec]
    exact Or.inr ⟨⟨hle, hl⟩, nofun⟩

/-- `SWAP_U64`: no bin of the new table is in use. -/
theorem Keeps.publish {new : Hashtable} (hsec : pc.section = none) (hnew : pc'.resizing = true) :
    Keeps m pc (m.publish new) pc' := by
  refine .of_locks ?_ fun _ => Or.inl hnew
  intro i b hle hl
  rw [hsec]
  refine Or.inr ⟨?_, nofun⟩
  unfold Mem.lock at hl
  rcases Nat.lt_or_eq_of_le hle with hlt | heq
  · have hle' : i ≤ m.ht := Nat.le_of_lt_succ hlt
    rw [Mem.tables_publish_le hle'] at hl
    exact ⟨hle', hl⟩
  · rw [show i = m.ht + 1 from heq, Mem.tables_publish_new] at hl
    cases hl

/-- `TRYLOCK_RLS`. -/
theorem Keeps.unlockResize (hsec : pc.section = none) :
    Keeps m pc { m with resizeLock := false } pc' := by
  refine .of_locks ?_ nofun
  intro i b hle hl
  rw [hsec]
  exact Or.inr ⟨⟨hle, hl⟩, nofun⟩

/-- One access to the memory: the four kinds of steps on a lock, and the steps that leave the
locks alone, with a bin in hand or without. -/
theorem keeps_go (h : loc m pc) (hgo : go raw m pc = some (m', pc')) : Keeps m pc m' pc' := by
  cases pc with
  | acquire s i b =>
    rw [go] at hgo
    split at hgo
    · split at hgo
      · cases hgo
        exact .acquire rfl rfl (by cases s <;> rfl)
      · cases hgo
        exact .quiet rfl rfl
      · cases hgo
        exact .quiet rfl rfl
    · cases hgo
  | unlock i b exit =>
    cases hgo
    exact .unlock rfl rfl
  | tryLock isIncrease times old =>
    rw [go] at hgo
    split at hgo
    · cases hgo
      exact .quiet rfl rfl
    · simp only [Option.bind_eq_bind, Option.bind_eq_some_iff, Option.guard_eq_some',
        Option.pure_def, Option.some.injEq] at hgo
      rcases hgo with ⟨_, _, new, _, heq⟩
      cases heq
      exact .lockResize rfl rfl
  | copy r b =>
    rw [go] at hgo
    split at hgo
    · split at hgo
      · cases hgo
        exact .freeze rfl rfl
      · cases hgo
        exact .same rfl (fun _ _ => rfl) rfl rfl rfl
      · cases hgo
        exact .same rfl (fun _ _ => rfl) rfl rfl rfl
    · cases hgo
      exact .same rfl (fun _ _ => rfl) rfl rfl rfl
  | swap r =>
    cases hgo
    exact .publish rfl rfl
  | unlockResize again =>
    cases hgo
    exact .unlockResize rfl
  -- the loop over the slots reads only
  | scan s i b p empty =>
    rw [go] at hgo
    split at hgo
    · cases hgo
      refine .same rfl (fun _ _ => rfl) rfl ?_ ?_
      · split
        · cases s <;> rfl
        · rfl
      · split
        · cases s <;> rfl
        · rfl
    · cases hgo
      exact .same rfl (fun _ _ => rfl) rfl (by cases s <;> cases empty <;> rfl)
        (by cases s <;> cases empty <;> rfl)
  -- stores to the bin in hand
  | fill | bind | assign | erase =>
    rcases Option.map_eq_some_iff.mp hgo with ⟨x, _, heq⟩
    cases heq
    exact .same rfl (fun _ _ => Mem.lock_setChain) rfl rfl rfl
  | link =>
    cases hgo
    exact .same rfl (fun _ _ => Mem.lock_setChain) rfl rfl rfl
  | clear i b p n =>
    cases n with
    | zero =>
      cases hgo
      exact .same rfl (fun _ _ => rfl) rfl rfl rfl
    | succ n =>
      rcases Option.map_eq_some_iff.mp hgo with ⟨x, _, heq⟩
      cases heq
      exact .same rfl (fun _ _ => Mem.lock_setChain) rfl rfl rfl
  | grow =>
    cases hgo
    exact .same rfl (fun _ _ => Mem.lock_countExpand) rfl rfl rfl
  -- the rest of the copy
  | copyBucket r b i =>
    rw [go] at hgo
    split at hgo
    · cases hgo
      exact .same rfl (fun _ _ => rfl) rfl rfl rfl
    · cases hgo
      exact .same rfl (fun _ _ => rfl) rfl rfl rfl
  | setNew old again =>
    cases hgo
    exact .same rfl (fun _ _ => Mem.lock_setNew) rfl rfl rfl
  -- a thread that owns nothing
  | idle | choose | status | done => cases hgo
  | called | await | reload | resize =>
    cases hgo
    exact .quiet rfl rfl
  | getVal | bucketExists =>
    rw [go] at hgo
    split at hgo
    · cases hgo
      exact .quiet rfl rfl
    · cases hgo
      exact .quiet rfl rfl
  | getKey | getAgain =>
    rcases Option.map_eq_some_iff.mp hgo with ⟨x, _, heq⟩
    cases heq
    exact .quiet rfl rfl

/-- Whatever a step chooses. -/
theorem keeps_next (h : loc m pc) (hn : next raw m pc act = some (e, m', pc')) :
    Keeps m pc m' pc' := by
  cases act with
  | call op =>
    cases pc with
    | idle =>
      cases hn
      exact .quiet rfl rfl
    | _ => cases hn
  | go =>
    rcases Option.map_eq_some_iff.mp hn with ⟨⟨m₁, pc₁⟩, hgo, heq⟩
    cases heq
    exact keeps_go h hgo
  | shrink | enlarge =>
    cases pc with
    | status putBin =>
      cases hn
      exact .quiet rfl rfl
    | _ => cases hn
  | stop =>
    cases pc with
    | status putBin =>
      cases putBin <;>
        (cases hn
         exact .quiet rfl rfl)
    | _ => cases hn
  | pick i =>
    cases pc with
    | choose i' b =>
      rw [next] at hn
      split at hn
      · cases hn
        exact .same rfl (fun _ _ => rfl) rfl rfl rfl
      · cases hn
    | _ => cases hn
  | leave =>
    cases pc with
    | copyBucket r b i =>
      rw [next] at hn
      split at hn
      · cases hn
        exact .same rfl (fun _ _ => rfl) rfl rfl rfl
      · cases hn
    | _ => cases hn
  | ret =>
    cases pc with
    | done result =>
      cases hn
      exact .quiet rfl rfl
    | _ => cases hn

/-! ## Waiting for a table that is being replaced -/

/-- A thread that waits for `table_new` has met a bin that a resize has locked. -/
def Pc.Waits (m : Mem) : Pc → Prop
  | .await _ ht => ht ≤ m.ht ∧ ∃ bin < m.numBuckets ht, m.lock ht bin = .resize
  | _ => True

theorem Pc.Waits.stable (hev : Evolves m m') (h : pc.Waits m) : pc.Waits m' := by
  cases pc with
  | await s i =>
    rcases h with ⟨hle, bin, hbin, hl⟩
    refine ⟨le_trans hle hev.ht, bin, ?_, ((hev.table i hle).frozen bin hl).1⟩
    rwa [hev.numBuckets hle]
  | _ => trivial

/-- Only `LOCK_ACQ` begins to wait for `table_new`. -/
theorem await_go {s : Section} {i : Nat} (hgo : go raw m pc = some (m', .await s i)) :
    m' = m ∧ (pc = .await s i ∨ ∃ bin, pc = .acquire s i bin ∧ bin < m.numBuckets i ∧
      m.lock i bin = .resize) := by
  -- only a thread that met a frozen bin waits, and it goes on waiting
  cases pc with
  | await s' i' =>
    rw [go] at hgo
    split at hgo
    · cases hgo
    · cases hgo
      exact ⟨rfl, Or.inl rfl⟩
  | acquire s' i' b =>
    rw [go] at hgo
    split at hgo
    · rename_i hb
      split at hgo
      · cases s' <;> cases hgo
      · cases hgo
      · rename_i hl
        cases hgo
        exact ⟨rfl, Or.inr ⟨b, rfl, hb, hl⟩⟩
    · cases hgo
  | called op => cases op <;> cases hgo
  | unlock _ _ exit => cases exit <;> cases hgo
  | unlockResize again => cases again <;> cases hgo
  | clear i' b p n =>
    cases n with
    | zero => cases hgo
    | succ n =>
      rcases Option.map_eq_some_iff.mp hgo with ⟨x, _, heq⟩
      cases heq
  | getVal | copyBucket =>
    rw [go] at hgo
    split at hgo <;> cases hgo
  | bucketExists s' i' b p =>
    rw [go] at hgo
    split at hgo
    · split at hgo
      · cases s' <;> cases hgo
      · cases hgo
    · cases s' <;> cases hgo
  | scan s' i' b p empty =>
    rw [go] at hgo
    split at hgo
    · split at hgo
      · cases s' <;> cases hgo
      · cases hgo
    · cases s' <;> cases empty <;> cases hgo
  | copy r b =>
    rw [go] at hgo
    split at hgo
    · split at hgo <;> cases hgo
    · cases hgo
  | tryLock isIncrease times old =>
    rw [go] at hgo
    split at hgo
    · cases hgo
    · simp only [Option.bind_eq_bind, Option.bind_eq_some_iff, Option.guard_eq_some',
        Option.pure_def, Option.some.injEq] at hgo
      rcases hgo with ⟨_, _, new, _, heq⟩
      cases heq
  | getKey key i' b p val =>
    rcases Option.map_eq_some_iff.mp hgo with ⟨x, _, heq⟩
    split at heq <;> cases heq
  | getAgain | fill | bind | assign | erase =>
    rcases Option.map_eq_some_iff.mp hgo with ⟨x, _, heq⟩
    cases heq
  | _ => cases hgo

theorem waits_next (h : loc m pc) (hw : pc.Waits m)
    (hn : next raw m pc act = some (e, m', pc')) : pc'.Waits m' := by
  -- only a step that comes to `await` has something to show
  by_cases hawait : ∃ s i, pc' = .await s i
  · rcases hawait with ⟨s, i, rfl⟩
    cases act with
    | go =>
      rcases Option.map_eq_some_iff.mp hn with ⟨⟨m₁, pc₁⟩, hgo, heq⟩
      cases heq
      rcases await_go hgo with ⟨rfl, rfl | ⟨bin, rfl, hbin, hl⟩⟩
      · exact hw
      · exact ⟨h.1, bin, hbin, hl⟩
    | stop =>
      cases pc with
      | status putBin => cases putBin <;> cases hn
      | _ => cases hn
    | pick i' =>
      cases pc with
      | choose =>
        rw [next] at hn
        split at hn <;> cases hn
      | _ => cases hn
    | leave =>
      cases pc with
      | copyBucket =>
        rw [next] at hn
        split at hn <;> cases hn
      | _ => cases hn
    | _ => cases pc <;> cases hn
  · cases pc' with
    | await s i => exact absurd ⟨s, i, rfl⟩ hawait
    | _ => trivial

/-- Only the swap changes `h->ht`. -/
theorem ht_go (hgo : go raw m pc = some (m', pc')) : m'.ht = m.ht ∨ ∃ r, pc = .swap r := by
  cases pc with
  | swap r => exact Or.inr ⟨r, rfl⟩
  | getVal | bucketExists | scan | copyBucket =>
    rw [go] at hgo
    split at hgo <;> (cases hgo; exact Or.inl rfl)
  | acquire s i b =>
    rw [go] at hgo
    split at hgo
    · split at hgo <;> (cases hgo; exact Or.inl rfl)
    · cases hgo
  | copy r b =>
    rw [go] at hgo
    split at hgo
    · split at hgo <;> (cases hgo; exact Or.inl rfl)
    · cases hgo
      exact Or.inl rfl
  | getKey | getAgain | fill | bind | assign | erase =>
    rcases Option.map_eq_some_iff.mp hgo with ⟨x, _, heq⟩
    cases heq
    exact Or.inl rfl
  | clear i b p n =>
    cases n with
    | zero =>
      cases hgo
      exact Or.inl rfl
    | succ n =>
      rcases Option.map_eq_some_iff.mp hgo with ⟨x, _, heq⟩
      cases heq
      exact Or.inl rfl
  | tryLock isIncrease times old =>
    rw [go] at hgo
    split at hgo
    · cases hgo
      exact Or.inl rfl
    · simp only [Option.bind_eq_bind, Option.bind_eq_some_iff, Option.guard_eq_some',
        Option.pure_def, Option.some.injEq] at hgo
      rcases hgo with ⟨_, _, new, _, heq⟩
      cases heq
      exact Or.inl rfl
  | _ =>
    cases hgo <;> exact Or.inl rfl

/-- A choice changes nothing in the memory. -/
theorem mem_next (hn : next raw m pc act = some (e, m', pc')) (hact : act ≠ .go) : m' = m := by
  cases act with
  | go => exact absurd rfl hact
  | stop =>
    cases pc with
    | status putBin => cases putBin <;> (cases hn; rfl)
    | _ => cases hn
  | pick i =>
    cases pc with
    | choose =>
      rw [next] at hn
      split at hn <;> (cases hn; try rfl)
    | _ => cases hn
  | leave =>
    cases pc with
    | copyBucket =>
      rw [next] at hn
      split at hn <;> (cases hn; try rfl)
    | _ => cases hn
  | _ => cases pc <;> (cases hn; try rfl)

/-! ## Progress -/

section

variable {T : Type} [DecidableEq T] {s s' : State T} {t : T} {a : T × Act}

/-- A table that has been replaced has its `table_new`, or some thread is about to set it. -/
def Marked (s : State T) : Prop :=
  ∀ i < s.mem.ht, (s.mem.tables i).tableNew = true ∨ ∃ u again, s.pc u = .setNew i again

/-- What progress rests on. -/
structure Live (s : State T) : Prop where
  inv : contract.Inv s
  owned : contract.Owned Res.IsLock s
  waits : ∀ t, (s.pc t).Waits s.mem
  marked : Marked s

theorem Marked.step (hi : contract.Inv s) (h : Marked s) (hok : Threads.lift Ok s a)
    (hs : step raw s a = some (e, s')) : Marked s' := by
  have hev := evolves_step hi hok hs
  rcases Threads.step_cases hs with ⟨m', pc', hn, rfl⟩
  rcases a with ⟨t, act⟩
  intro i hlt
  show (m'.tables i).tableNew = true ∨ ∃ u again, setLoc s.pc t pc' u = .setNew i again
  -- tables that were replaced before the step
  have hold : i < s.mem.ht →
      (m'.tables i).tableNew = true ∨ ∃ u again, setLoc s.pc t pc' u = .setNew i again := by
    intro hlt
    rcases h i hlt with hnew | ⟨u, again, hu⟩
    · exact Or.inl ((hev.table i hlt.le).tableNew hnew)
    · by_cases hut : u = t
      · subst hut
        cases act with
        | go =>
          rw [hu] at hn
          cases hn
          refine Or.inl ?_
          show (if i = i then _ else s.mem.tables i).tableNew = true
          rw [if_pos rfl]
        | _ =>
          rw [hu] at hn
          cases hn
      · exact Or.inr ⟨u, again, by rw [setLoc_ne _ _ hut, hu]⟩
  by_cases hgo : act = .go
  · subst hgo
    rcases Option.map_eq_some_iff.mp hn with ⟨⟨m₁, pc₁⟩, hgo, heq⟩
    cases heq
    rcases ht_go hgo with hht | ⟨r, hr⟩
    · exact hold (hht ▸ hlt)
    · have hcopy : Copying s.mem r (s.mem.numBuckets s.mem.ht) 0 := by
        have hloc := hi.loc t
        rw [hr] at hloc
        exact hloc
      rw [hr] at hgo
      cases hgo
      rcases Nat.lt_or_eq_of_le (Nat.le_of_lt_succ hlt) with hlt' | rfl
      · exact hold hlt'
      · exact Or.inr ⟨t, _, by rw [setLoc_self, hcopy.old]⟩
  · have hmem := mem_next hn hgo
    subst hmem
    exact hold hlt

theorem Live.step (h : Live s) (hok : Threads.lift Ok s a) (hs : step raw s a = some (e, s')) :
    Live s' := by
  refine ⟨contract_respected.step h.inv hok hs, ?_, ?_, h.marked.step h.inv hok hs⟩
  · exact h.owned.step (fun _ hl _ hn hx htaken => keeps_next hl hn _ hx htaken) h.inv hok hs
  · have hev := evolves_step h.inv hok hs
    rcases Threads.step_cases hs with ⟨m', pc', hn, rfl⟩
    intro u
    show (setLoc s.pc a.1 pc' u).Waits m'
    by_cases hu : u = a.1
    · rw [hu, setLoc_self]
      exact waits_next (h.inv.loc a.1) (h.waits a.1) hn
    · rw [setLoc_ne _ _ hu]
      exact (h.waits u).stable hev

omit [DecidableEq T] in
theorem live_init (h : Init s) : Live s := by
  refine ⟨inv_init h, ?_, ?_, ?_⟩
  · rcases h.created with ⟨n, h₀, _, _, hmem⟩
    intro x hx htaken
    change s.mem.taken x at htaken
    rw [hmem] at htaken
    cases x with
    | bin i b => cases htaken.2
    | resizeLock => cases htaken
    | trigger => exact hx.elim
  · intro t
    rw [h.idle t]
    trivial
  · rcases h.created with ⟨n, h₀, _, _, hmem⟩
    intro i hlt
    rw [hmem] at hlt
    exact absurd hlt (Nat.not_lt_zero _)

theorem Reachable.live (h : Reachable raw s) : Live s :=
  Reach.invariant Live (fun _ => live_init) (fun _ _ _ _ hl hok hs => hl.step hok hs) h

omit [DecidableEq T] in
/-- The owner of a bin in use goes on. -/
theorem Live.owner (h : Live s) {i b : Nat} (hle : i ≤ s.mem.ht) (hl : s.mem.lock i b = .update) :
    ∃ u, Moves raw s.mem (s.pc u) := by
  rcases h.owned (.bin i b) trivial ⟨hle, hl⟩ with ⟨u, hu⟩
  exact ⟨u, moves_of_section (h.inv.loc u) hu⟩

omit [DecidableEq T] in
/-- Some thread goes on while a resize is under way. -/
theorem Live.resizer (h : Live s) (hl : s.mem.resizeLock = true) :
    ∃ u, Moves raw s.mem (s.pc u) := by
  rcases h.owned .resizeLock trivial hl with ⟨u, hu⟩
  have hloc : loc s.mem (s.pc u) := h.inv.loc u
  have hu : (s.pc u).resizing = true := hu
  have hbusy : s.pc u ≠ .idle := by
    intro hidle
    rw [hidle] at hu
    cases hu
  rcases moves_or_waits raw h.inv.glob hloc hbusy with hmoves | hspins | hfaults
  · exact ⟨u, hmoves⟩
  · generalize s.pc u = pc at hu hloc hspins
    cases pc with
    | copy r b =>
      refine h.owner (i := r.old) ?_ hspins.2
      rw [hloc.1.old]
    | acquire => cases hu
    | await => cases hu
    | _ => exact hspins.elim
  · generalize s.pc u = pc at hu hfaults
    cases pc with
    | acquire => cases hu
    | tryLock => cases hu
    | _ => exact hfaults.elim

/-- The threads never wait for each other in a circle: while some thread is in a call, some
thread can go on, or is about to leave its memory. -/
theorem no_deadlock (hs : Reachable raw s) (hbusy : s.pc t ≠ .idle) :
    ∃ u, Moves raw s.mem (s.pc u) ∨ (s.pc u).Faults s.mem := by
  have hlive := hs.live
  have hloc : loc s.mem (s.pc t) := hlive.inv.loc t
  rcases moves_or_waits raw hlive.inv.glob hloc hbusy with hmoves | hspins | hfaults
  · exact ⟨t, Or.inl hmoves⟩
  · have hwaits := hlive.waits t
    have hother : ∃ u, Moves raw s.mem (s.pc u) := by
      generalize s.pc t = pc at hloc hspins hwaits
      -- a thread that spins waits for another one: the owner of the bin, or the one that resizes
      cases pc with
      | acquire s i b => exact hlive.owner hloc.1 hspins.2
      | copy r b =>
        refine hlive.owner (i := r.old) ?_ hspins.2
        rw [hloc.1.old]
      | await s' i =>
        rcases hwaits with ⟨hle, bin, hbin, hl⟩
        rcases Nat.lt_or_eq_of_le hle with hlt | rfl
        · -- the table has been replaced, and `table_new` is about to be set
          rcases hlive.marked i hlt with hnew | ⟨u, again, hu⟩
          · cases hnew.symm.trans hspins
          · refine ⟨u, ?_⟩
            rw [hu]
            exact moves_go rfl (by simp)
        · -- the table is being copied
          refine hlive.resizer ?_
          by_contra hfree
          exact hlive.inv.glob.thawed (by simpa using hfree) bin hbin hl
      | _ => exact hspins.elim
    rcases hother with ⟨u, hu⟩
    exact ⟨u, Or.inl hu⟩
  · exact ⟨t, Or.inr hfaults⟩

/-- A thread waits for the bin that the other one has. -/
theorem no_deadlock_waiting :
    let s := after ((true, .call (.put 1 1)) :: goes true 6 ++ (false, .call (.update 1 1)) ::
      goes false 1)
    (s.pc false).Spins s.mem ∧ ∃ u, Moves zeroed s.mem (s.pc u) ∨ (s.pc u).Faults s.mem := by
  have hs : Reachable zeroed (after ((true, .call (.put 1 1)) :: goes true 6 ++
      (false, .call (.update 1 1)) :: goes false 1)) :=
    reachable_after (by decide +kernel) (by decide +kernel)
  refine ⟨⟨by decide +kernel, by decide +kernel⟩, no_deadlock (t := false) hs ?_⟩
  intro hidle
  cases hidle

end

end Epli.Clht.Locks
