import Epli.Restart

/-!
# A crash in the middle of a split

From the store `entry->next = new_entry` until `setOrderedKVs` clears the old
entry, the upper half of a split is in both entries. The flag of the old entry
marks exactly this window and is persisted, but nothing reads it back: `Recover`
takes the list as it finds it.
-/

namespace Epli

open Lib Entry

namespace Tree

variable {f : Mapping} {pm : Pmem Loc Nat} {calls loadSize : Nat} {t t₁ : Tree} {r : Ref}
  {alloc : Alloc} {as pre post : List Nat} {k v p q head : Nat}

/-- What a recovery owes after a crash in which the map `r` was held: no key is
stored in two entries, and from then on the tree, with an allocator `alloc` that
hands out fresh blocks, behaves as that map. -/
structure Restored (calls : Nat) (alloc : Alloc) (r : Ref) (t : Tree) : Prop where
  unique : ∀ a b, Reaches (nextOf t.mem) null t.head a → Reaches (nextOf t.mem) null t.head b →
    a ≠ b → ∀ k, k ≠ invalidKey → HasKey t.mem a k → ¬ HasKey t.mem b k
  refines : ∀ ops answers r', runOps Ref.step r ops = some (answers, r') →
    ∃ t', runOps (step (calls + 2)) { t with alloc := alloc } ops = some (answers, t')

/-- In the window the median is stored in both entries. -/
theorem LinkEffect.median_twice {m m' : Mem} (h : LinkEffect m m' p q) (hf : Full m p) :
    medianKey m p ≠ invalidKey ∧ HasKey m' p (medianKey m p) ∧
      HasKey m' q (medianKey m p) := by
  have hkey := medianKey_hasKey m p
  have hne := hf.ne_invalid hkey
  refine ⟨hne, ?_, ?_⟩
  · rcases hkey.exists_holds with ⟨v, hv⟩
    exact (h.holds_old.mpr hv).hasKey
  · rcases upperKVs_eq_cons m p with ⟨l, hupper⟩
    have hup : (medianKey m p, medianVal m p) ∈ upperKVs m p := by
      rw [hupper]
      simp
    exact ((h.holds_new hne).mpr hup).hasKey

/-- A crash in the window is never repaired: whatever the entry that is split, the
size of the array and the allocator, the recovered tree stores a key twice. -/
theorem split_crash_never_restored (h : Reachable f pm calls t) (hp : t.lookup k = some p)
    (hf : Full t.mem p) (v : Nat) :
    ∃ evs t', t.insert (calls + 2) k v = some (.ok, evs, t') ∧
      CrashImage t.mem evs (linked t.mem p t.alloc.currentAddr) ∧
      ∀ loadSize t₁, reopen f (linked t.mem p t.alloc.currentAddr) loadSize = some t₁ →
        ∀ calls alloc r, ¬ Restored calls alloc r t₁ := by
  have hhead := ReachableIf.head_eq h
  rcases ReachableIf.base h with ⟨as, hsh, _⟩
  have hpmem := hsh.lookup_mem hp
  rcases insert_full hsh hp hf calls v with ⟨evs, t', hins⟩
  refine ⟨_, t', hins, crashImage_linked _ _ _ _, ?_⟩
  intro loadSize t₁ hopen calls alloc r hres
  have hqp : t.alloc.currentAddr ≠ p := by
    intro heq
    exact hsh.cursor_fresh (heq ▸ hpmem)
  have hlink : LinkEffect t.mem (linked t.mem p t.alloc.currentAddr) p t.alloc.currentAddr :=
    linkEffect hqp
  rcases List.append_of_mem hpmem with ⟨pre, post, has⟩
  rw [has] at hsh
  have hwalk := hlink.walk hsh.cursor_pos hsh.walk hsh.nodup hsh.cursor_fresh
  rw [hhead] at hwalk
  rcases reopen_spec hwalk hopen with ⟨hmem, hhead₁, _, _⟩
  -- the upper half is in both entries until the lower one is rewritten
  rcases hlink.median_twice hf with ⟨hne, hold, hnew⟩
  have hreach : ∀ a ∈ pre ++ p :: t.alloc.currentAddr :: post,
      Reaches (nextOf t₁.mem) null t₁.head a := by
    intro a ha
    rw [hmem, hhead₁]
    exact (reaches_iff_mem hwalk).mpr ha
  refine hres.unique p t.alloc.currentAddr (hreach p (by simp)) (hreach _ (by simp))
    (fun heq => hqp heq.symm) (medianKey t.mem p) hne ?_ ?_
  · rw [hmem]
    exact hold
  · rw [hmem]
    exact hnew

set_option maxRecDepth 100000 in
theorem tens_never_restored : ∃ t t₁, tens.tree sampleFile blank = some t ∧
    reopen sampleFile (linked t.mem 4096 t.alloc.currentAddr) 100 = some t₁ ∧
    ∀ calls alloc r, ¬ Restored calls alloc r t₁ := by
  rcases tens.sound sampleFile blank with ⟨t, _, _, htree, _⟩
  have hsplit : ∀ t ∈ tens.tree sampleFile blank, t.lookup 15 = some 4096 ∧
      Full t.mem 4096 ∧
      (reopen sampleFile (linked t.mem 4096 t.alloc.currentAddr) 100).isSome := by
    decide +kernel
  rcases hsplit t htree with ⟨hp, hf, hopens⟩
  rcases Option.isSome_iff_exists.mp hopens with ⟨t₁, hopen⟩
  have hreach : Reachable sampleFile blank 0 t := reachable_start htree
  rcases split_crash_never_restored hreach hp hf 1 with ⟨evs, t', _, _, hnever⟩
  exact ⟨t, t₁, htree, hopen, hnever 100 t₁ hopen⟩

/-- After the restart: remove a key of the upper half, then split the old entry,
which still holds it, once more. -/
def returnOps : List Op := [.remove 140, .insert 15 1, .get 140]

set_option maxRecDepth 100000 in
/-- `Insert` of `15` into `tens` crashes in the window. After the restart the key
`80` is stored in two entries, and the removed key `140` comes back when the old
entry is split again. The allocator goes on where the old process stopped. -/
theorem removed_key_returns : ∃ t t₁ evs t', Reachable sampleFile blank 0 t ∧ Fresh t 15 ∧
    t.insert 2 15 1 = some (.ok, evs, t') ∧
    CrashImage t.mem evs (linked t.mem 4096 t.alloc.currentAddr) ∧
    reopen sampleFile (linked t.mem 4096 t.alloc.currentAddr) 100 = some t₁ ∧
    HasKey t₁.mem 4096 80 ∧ HasKey t₁.mem 4608 80 ∧
    (runOps Ref.step tens.ref returnOps).map Prod.fst =
      some [⟨.ok, none⟩, ⟨.ok, none⟩, ⟨.fail, some 0⟩] ∧
    (runOps (step 2) { t₁ with alloc := (t.alloc.allocAligned entrySize 256).2 }
      returnOps).map Prod.fst = some [⟨.ok, none⟩, ⟨.ok, none⟩, ⟨.ok, some 13⟩] := by
  rcases tens.sound sampleFile blank with ⟨t, _, _, htree, hs, _⟩
  have hsplit : ∀ t ∈ tens.tree sampleFile blank, t.lookup 15 = some 4096 ∧
      Full t.mem 4096 ∧
      (reopen sampleFile (linked t.mem 4096 t.alloc.currentAddr) 100).isSome := by
    decide +kernel
  have hback : ∀ t ∈ tens.tree sampleFile blank,
      ∀ t₁ ∈ reopen sampleFile (linked t.mem 4096 t.alloc.currentAddr) 100,
        HasKey t₁.mem 4096 80 ∧ HasKey t₁.mem 4608 80 ∧
        (runOps (step 2) { t₁ with alloc := (t.alloc.allocAligned entrySize 256).2 }
          returnOps).map Prod.fst = some [⟨.ok, none⟩, ⟨.ok, none⟩, ⟨.ok, some 13⟩] := by
    decide +kernel
  rcases hsplit t htree with ⟨hp, hf, hopens⟩
  rcases Option.isSome_iff_exists.mp hopens with ⟨t₁, hopen⟩
  rcases hback t htree t₁ hopen with ⟨hold, hnew, hrun⟩
  rcases insert_full hs.shape hp hf 0 1 with ⟨evs, t', hins⟩
  exact ⟨t, t₁, _, t', reachable_start htree, fresh_start htree (by decide) (by decide), hins,
    crashImage_linked _ _ _ _, hopen, hold, hnew, by decide +kernel, hrun⟩

end Tree

end Epli
