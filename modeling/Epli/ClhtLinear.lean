import Epli.Lib.Hindsight
import Epli.ClhtPlaces

/-!
# A CLHT shared by threads is an atomic cache

`cache` says what the table is for: a map from keys to values that may lose pairs, where
each put, update and remove takes effect at one moment between its call and its return.
What a thread finds without a lock it has seen at some moment of its call: the table that
it reads may have been replaced since, and then is what it was when it was replaced.

The code refines the cache (`refines_cache`). The value that `clht_get` returns is one that
the key had during the call, unless the key was absent at some moment of it: a value that
is read, replaced and written again by others is not noticed by the second comparison.
-/

namespace Epli.Clht.Locks

open Lib Lib.SlotArray

variable {m m' : Mem} {pc pc' : Pc} {o : Op} {s : Section} {r : Resize}
  {ht bin p key val k v k' v' : Nat} {seen seen' : Set (Option Nat)}

/-! ## The cache -/

/-- A map that may lose pairs. -/
def cache : Object Op Nat (Nat → Option Nat) (Option Nat) where
  view op s := s op.key
  effect op s result s' :=
    match op with
    | .get _ => False
    | .put key val => s key = none ∧ result = 1 ∧ s' = setLoc s key (some val)
    | .update key val => s key ≠ none ∧ result = 1 ∧ s' = setLoc s key (some val)
    | .remove key => s key = some result ∧ s' = setLoc s key none
  answer op seen result :=
    match op with
    | .get _ => some result ∈ seen ∨ (none ∈ seen ∧ (result = 0 ∨ ∃ v, some v ∈ seen)) ∨
        (result = 0 ∧ ∃ v w, v ≠ w ∧ some v ∈ seen ∧ some w ∈ seen)
    | .put _ _ => result = 0 ∧ ∃ v, some v ∈ seen
    | .update _ _ | .remove _ => result = 0 ∧ none ∈ seen
  loses s s' := ∀ key val, s' key = some val → s key = some val

/-- What a table has for a key. -/
def Mem.find (m : Mem) (ht key : Nat) : Option Nat := (m.tables ht).ht.lookup key

/-- What the table is as a map. -/
def Mem.content (m : Mem) (key : Nat) : Option Nat := if key = 0 then none else m.find m.ht key

theorem content_of_ne (hk : key ≠ 0) : m.content key = m.find m.ht key := if_neg hk

/-! ### What writes do to it -/

/-- The content is read off the current table's bins and hash mask. -/
theorem content_congr (hht : m'.ht = m.ht)
    (htable : (m'.tables m.ht).ht.table = (m.tables m.ht).ht.table)
    (hhash : (m'.tables m.ht).ht.hash = (m.tables m.ht).ht.hash) : m'.content = m.content := by
  funext key
  unfold Mem.content Mem.find Hashtable.lookup Hashtable.clhtHash
  rw [hht, htable, hhash]

theorem content_setLock {w : LockWord} : (m.setLock ht bin w).content = m.content :=
  content_congr rfl (by rw [Mem.hashtable_setLock]) (by rw [Mem.hashtable_setLock])

theorem content_setNew : (m.setNew ht).content = m.content :=
  content_congr rfl (by rw [Mem.hashtable_setNew]) (by rw [Mem.hashtable_setNew])

theorem content_countExpand : (m.countExpand ht).content = m.content := by
  refine content_congr rfl ?_ ?_
  · unfold Mem.countExpand
    rw [Mem.tables_edit]
    split
    · rename_i heq
      rw [heq]
    · rfl
  · unfold Mem.countExpand
    rw [Mem.tables_edit]
    split
    · rename_i heq
      rw [heq]
    · rfl

/-- The owner of a bin gives it other slots. -/
theorem find_setChain {c : Chain} {x : Nat} :
    (m.setChain ht bin c).find ht x =
      if m.clhtHash ht x = bin then SlotArray.lookup c.slots x else m.find ht x := by
  unfold Mem.find Mem.setChain
  rw [Mem.tables_edit, if_pos rfl]
  show SlotArray.lookup ((setLoc (m.tables ht).ht.table bin c) (m.clhtHash ht x)).slots x = _
  split
  · rename_i heq
    rw [heq, setLoc_self]
  · rename_i hne
    rw [setLoc_ne _ _ hne]
    rfl

/-- A store to a slot, from the outside: the new key gets the value, the old one leaves. -/
theorem content_setSlot (hg : Glob m) (ho : Owns m ht bin)
    (hp : (m.slots ht bin)[p]? = some (k, v)) (ha : Admits 0 (m.slots ht bin) k k')
    (hkey : k' ≠ 0 → m.clhtHash ht k' = bin) {x : Nat} (hx : x ≠ 0) :
    (m.setSlot ht bin p (k', v')).content x =
      if x = k' then some v' else if x = k then none else m.content x := by
  have hcur := ho.current hg
  subst hcur
  rw [content_of_ne hx, content_of_ne hx]
  show (m.setChain m.ht bin _).find m.ht x = _
  rw [find_setChain, Chain.slots_setSlot]
  split
  · rename_i hbin
    rw [show (m.chain m.ht bin).slots = m.slots m.ht bin from rfl,
      lookup_set (ho.uniq hg) hp ha hx]
    subst hbin
    rfl
  · -- the key is in another bin
    rename_i hbin
    rw [if_neg, if_neg]
    · rintro rfl
      exact hbin ((hg.wf m.ht (le_refl _)).keyed_slot ho.bin_lt hx hp)
    · rintro rfl
      exact hbin (hkey hx)

/-- Linking a bucket with a new key binds it, and it alone. -/
theorem content_expand (hg : Glob m) (ho : Owns m ht bin) (hreads : Reads m key ht bin)
    (habsent : Absent m key ht bin) (raw : Raw) :
    (m.setChain ht bin ((m.chain ht bin).expand raw key val)).content =
      setLoc m.content key (some val) := by
  have hcur := ho.current hg
  subst hcur
  funext x
  by_cases hx : x = 0
  · subst hx
    rw [setLoc_ne _ _ (Ne.symm hreads.ne_zero)]
    rfl
  -- in the bin itself the pair is appended, and other bins are not touched
  · have hfree : ∀ s ∈ [(0, raw.val1), (0, raw.val2)], s.1 = 0 := by simp
    rw [content_of_ne hx]
    show (m.setChain m.ht bin _).find m.ht x = _
    rw [find_setChain, Chain.slots_expand]
    split
    · rename_i hbin
      rw [show (m.chain m.ht bin).slots = m.slots m.ht bin from rfl,
        lookup_append (ho.uniq hg) hfree habsent hx]
      split
      · rename_i heq
        rw [heq, setLoc_self]
      · rename_i hne
        rw [setLoc_ne _ _ hne, content_of_ne hx]
        subst hbin
        rfl
    · rename_i hbin
      rw [setLoc_ne, content_of_ne hx]
      rintro rfl
      exact hbin hreads.hash

/-- A free slot that stays free. -/
theorem content_fill (hg : Glob m) (ho : Owns m ht bin)
    (hp : (m.slots ht bin)[p]? = some (0, v)) :
    (m.setSlot ht bin p (0, val)).content = m.content := by
  funext x
  by_cases hx : x = 0
  · rw [hx]
    rfl
  · rw [content_setSlot hg ho hp (Or.inl rfl) (fun hne => absurd rfl hne) hx, if_neg hx, if_neg hx]

/-- A free slot, or the one of the key, gets the pair. -/
theorem content_bind (hg : Glob m) (ho : Owns m ht bin) (hreads : Reads m key ht bin)
    (hp : (m.slots ht bin)[p]? = some (k, v)) (ha : Admits 0 (m.slots ht bin) k key)
    (hk : k = 0 ∨ k = key) :
    (m.setSlot ht bin p (key, val)).content = setLoc m.content key (some val) := by
  funext x
  by_cases hx : x = 0
  · subst hx
    rw [setLoc_ne _ _ (Ne.symm hreads.ne_zero)]
    rfl
  · rw [content_setSlot hg ho hp ha (fun _ => hreads.hash) hx]
    by_cases hkey : x = key
    · rw [if_pos hkey, hkey, setLoc_self]
    · rw [if_neg hkey, setLoc_ne _ _ hkey, if_neg]
      rintro rfl
      rcases hk with hk | hk
      · exact hx hk
      · exact hkey hk

/-- A slot is emptied. -/
theorem content_erase (hg : Glob m) (ho : Owns m ht bin)
    (hp : (m.slots ht bin)[p]? = some (k, v)) :
    (m.setSlot ht bin p (0, val)).content = setLoc m.content k none := by
  funext x
  by_cases hx : x = 0
  · subst hx
    by_cases hk : 0 = k
    · rw [← hk, setLoc_self]
      rfl
    · rw [setLoc_ne _ _ hk]
      rfl
  · rw [content_setSlot hg ho hp (Or.inl rfl) (fun hne => absurd rfl hne) hx, if_neg hx]
    by_cases hk : x = k
    · rw [if_pos hk, hk, setLoc_self]
    · rw [if_neg hk, setLoc_ne _ _ hk]

/-- The swap: what the new table has was in the old one, and all of it if the resize is an
increase. -/
theorem content_publish (hg : Glob m) (h : Copying m r (m.numBuckets m.ht) 0) :
    cache.loses m.content (m.publish r.new).content ∧
      (r.isIncrease = true → (m.publish r.new).content = m.content) := by
  have hw := hg.wf m.ht (le_refl _)
  have hnew := h.wf hg
  have hfind : ∀ x, (m.publish r.new).find (m.publish r.new).ht x = r.new.lookup x := by
    intro x
    unfold Mem.find
    rw [show (m.publish r.new).ht = m.ht + 1 from rfl, Mem.tables_publish_new]
  rcases h.copied with ⟨thr, xs, hc, hsub, hall⟩
  rw [Mem.numBuckets, passed_all] at hsub hall
  -- what was copied is what the old table had, or some of it when it shrinks
  have hmem : ∀ {x : Nat × Nat}, x ∈ r.new.pairs ↔ x ∈ xs.reverse := by
    intro x
    rw [hc.perm.mem_iff, List.mem_reverse]
  constructor
  · intro key val hval
    unfold Mem.content at hval ⊢
    split
    · rename_i hk
      rw [if_pos hk] at hval
      cases hval
    · rename_i hk
      rw [if_neg hk, hfind, hnew.lookup_iff hk, hmem] at hval
      exact (hw.lookup_iff hk).mpr (hsub.subset hval)
  · intro hinc
    funext key
    unfold Mem.content
    split
    · rfl
    · rename_i hk
      rw [hfind]
      refine Option.ext fun val => ?_
      rw [hnew.lookup_iff hk, hmem, hall hinc]
      exact (hw.lookup_iff hk).symm

/-! ## What a pending call has seen -/

/-- The call that has not taken effect yet. -/
def Pc.op : Pc → Option Op
  | .called op => some op
  | .getVal key _ _ _ | .getKey key _ _ _ _ | .getAgain key _ _ _ _ => some (.get key)
  | .bucketExists s _ _ _ | .acquire s _ _ | .await s _ | .reload s | .scan s _ _ _ _ => s.op
  | .fill key val _ _ _ _ | .bind key val _ _ _ _ | .grow key val _ _ _
  | .link key val _ _ _ _ => some (.put key val)
  | .assign key val _ _ _ => some (.update key val)
  | .erase key _ _ _ _ => some (.remove key)
  | _ => none

/-- The result of a call that has taken effect. Whoever resizes or eliminates is a put that
returns `true` afterwards. -/
def Pc.result : Pc → Option Nat
  | .bucketExists s _ _ _ | .acquire s _ _ | .await s _ | .reload s | .scan s _ _ _ _ =>
    if s.op = none then some 1 else none
  | .choose _ _ | .clear _ _ _ _ | .status _ | .resize _ _ | .tryLock _ _ _ | .copy _ _
  | .copyBucket _ _ _ | .swap _ | .setNew _ _ | .unlockResize _ | .unlock _ _ (.status _) => some 1
  | .unlock _ _ (.ret result) | .done result => some result
  | _ => none

/-- A scan has missed the key at some moment, or has not passed it yet. -/
def Ahead (m : Mem) (seen : Set (Option Nat)) (key ht bin p : Nat) : Prop :=
  none ∈ seen ∨ From (m.slots ht bin) key p

/-- What the reads without a lock have shown. -/
def knows (m : Mem) (seen : Set (Option Nat)) : Pc → Prop
  | .getVal key ht bin p => m.find ht key ∈ seen ∧ Ahead m seen key ht bin p
  | .getKey key ht bin p val => m.find ht key ∈ seen ∧ Ahead m seen key ht bin p ∧
    (none ∈ seen ∨ some val ∈ seen ∨ ∀ v, (m.slots ht bin)[p]? ≠ some (key, v))
  | .getAgain key ht bin p val => m.find ht key ∈ seen ∧ (∃ v, some v ∈ seen) ∧
    (none ∈ seen ∨ (some val ∈ seen ∧ ∃ v, (m.slots ht bin)[p]? = some (key, v)))
  | .bucketExists s ht bin p => m.find ht s.key ∈ seen ∧ Ahead m seen s.key ht bin p
  | _ => True

/-- What is ahead of a reader stays so as more is seen. -/
theorem Ahead.mono (h : Ahead m seen key ht bin p) (hsub : seen ⊆ seen') :
    Ahead m seen' key ht bin p := h.imp_left fun hn => hsub hn

/-- What a place knows stays true as more is seen. -/
theorem knows_mono (hsub : seen ⊆ seen') (h : knows m seen pc) : knows m seen' pc := by
  cases pc with
  | getVal _ _ _ _ => exact ⟨hsub h.1, h.2.mono hsub⟩
  | getKey _ _ _ _ _ =>
    exact ⟨hsub h.1, h.2.1.mono hsub, h.2.2.imp (fun hn => hsub hn) (Or.imp_left fun hv => hsub hv)⟩
  | getAgain _ _ _ _ _ =>
    exact ⟨hsub h.1, h.2.1.imp fun _ hv => hsub hv,
      h.2.2.imp (fun hn => hsub hn) (And.imp_left fun hv => hsub hv)⟩
  | bucketExists _ _ _ _ => exact ⟨hsub h.1, h.2.mono hsub⟩
  | _ => trivial

/-- A slot that holds the key shows its value in the table. -/
theorem Reads.find (h : Reads m key ht bin) (hg : Glob m)
    (hp : (m.slots ht bin)[p]? = some (key, v)) : m.find ht key = some v := by
  have hu := (hg.wf ht h.le).uniq (h.bin_lt hg)
  unfold Mem.find Hashtable.lookup
  rw [show (m.tables ht).ht.clhtHash key = bin from h.hash]
  exact hu.lookup h.ne_zero hp

/-- A key's value is found in its bin. -/
theorem Reads.find_eq (h : Reads m key ht bin) :
    m.find ht key = SlotArray.lookup (m.slots ht bin) key := by
  unfold Mem.find Hashtable.lookup
  rw [show (m.tables ht).ht.clhtHash key = bin from h.hash]
  rfl

/-- What a table has for a key stays among the views: a replaced table does not change, and
the current one is the view. -/
theorem find_seen (hg : Glob m) (hev : Evolves m m') (hreads : Reads m key ht bin)
    (h : m.find ht key ∈ seen) : m'.find ht key ∈ insert (m'.content key) seen := by
  by_cases hswap : m.ht < m'.ht
  · refine Or.inr ?_
    unfold Mem.find
    rw [hev.swap hswap ht hreads.le]
    exact h
  · rcases Nat.lt_or_eq_of_le hreads.le with hlt | rfl
    · refine Or.inr ?_
      have hsame : m'.find ht key = m.find ht key := by
        rw [(hreads.stable hev).find_eq, hreads.find_eq]
        have hfrozen := hg.frozen ht hlt bin (hreads.bin_lt hg)
        rw [show m'.slots ht bin = m.slots ht bin from
          congrArg Chain.slots ((hev.table ht hreads.le).frozen bin hfrozen).2]
      rw [hsame]
      exact h
    · have hht : m'.ht = m.ht := le_antisymm (Nat.not_lt.mp hswap) hev.ht
      exact Or.inl (by rw [content_of_ne hreads.ne_zero, hht])

/-- A step of any thread keeps it: a value that shows up ahead of the reader is the map's own
at that moment. -/
theorem Ahead.stable (hg : Glob m) (hev : Evolves m m') (hreads : Reads m key ht bin)
    (hfind : m.find ht key ∈ seen) (h : Ahead m seen key ht bin p) :
    Ahead m' (insert (m'.content key) seen) key ht bin p := by
  rcases h with hn | hf
  · exact Or.inl (Or.inr hn)
  · have hfixed := (hev.table ht hreads.le).fixed bin (hreads.bin_lt hg)
    rcases hfixed.from hreads.ne_zero hf with hnone | hf'
    · have hseen := find_seen hg hev hreads hfind
      rw [(hreads.stable hev).find_eq,
        show SlotArray.lookup (m'.slots ht bin) key = none from hnone] at hseen
      exact Or.inl hseen
    · exact Or.inr hf'

/-- What a thread knows survives a step of another thread, once it has seen its outcome. -/
theorem knows_stable (hg : Glob m) (hev : Evolves m m') (hl : loc m pc) (hop : pc.op = some o)
    (h : knows m seen pc) : knows m' (insert (m'.content o.key) seen) pc := by
  cases pc with
  | getVal _ _ _ _ =>
    cases hop
    exact ⟨find_seen hg hev hl h.1, h.2.stable hg hev hl h.1⟩
  | getKey key ht bin p val =>
    cases hop
    refine ⟨find_seen hg hev hl.1 h.1, h.2.1.stable hg hev hl.1 h.1, ?_⟩
    rcases h.2.2 with hn | hv | hne
    · exact Or.inl (Or.inr hn)
    · exact Or.inr (Or.inl (Or.inr hv))
    · -- if the key has come to the slot, it was nowhere before
      by_cases hkey : ∃ v, (m'.slots ht bin)[p]? = some (key, v)
      · rcases hkey with ⟨v, hv⟩
        have hfixed := (hev.table ht hl.1.le).fixed bin (hl.1.bin_lt hg)
        rcases hfixed.came hl.1.ne_zero hv with hnone | ⟨w, hw⟩
        · refine Or.inl (Or.inr ?_)
          have hseen := h.1
          rw [hl.1.find_eq, show SlotArray.lookup (m.slots ht bin) key = none from hnone] at hseen
          exact hseen
        · exact absurd hw (hne w)
      · exact Or.inr (Or.inr (not_exists.mp hkey))
  | getAgain key ht bin p val =>
    cases hop
    refine ⟨find_seen hg hev hl.1 h.1, h.2.1.imp fun _ hv => Or.inr hv, ?_⟩
    -- the key stays in its slot or leaves the table, and then its absence has been seen
    rcases h.2.2 with hn | ⟨hv, w, hw⟩
    · exact Or.inl (Or.inr hn)
    · have hfixed := (hev.table ht hl.1.le).fixed bin (hl.1.bin_lt hg)
      rcases hfixed.stays hl.1.ne_zero hw with hnone | hstay
      · have hseen := find_seen hg hev hl.1 h.1
        rw [(hl.1.stable hev).find_eq,
          show SlotArray.lookup (m'.slots ht bin) key = none from hnone] at hseen
        exact Or.inl hseen
      · exact Or.inr ⟨Or.inr hv, hstay⟩
  | bucketExists s _ _ _ =>
    have hkey : s.key = o.key := by cases s <;> cases hop <;> rfl
    rw [← hkey]
    exact ⟨find_seen hg hev hl.2 h.1, h.2.stable hg hev hl.2 h.1⟩
  | _ => trivial

/-! ## The steps of a call -/

/-- What a step of a call that has not taken effect comes to. -/
inductive Outcome (m m' : Mem) (pc' : Pc) (o : Op) (seen : Set (Option Nat)) : Prop where
  | goes : pc'.op = some o → m'.content = m.content → knows m' seen pc' → Outcome m m' pc' o seen
  | answers {result : Nat} : pc'.op = none → pc'.result = some result →
      cache.answer o seen result → m'.content = m.content → Outcome m m' pc' o seen
  | commits {result : Nat} : pc'.op = none → pc'.result = some result →
      cache.effect o m.content result m'.content → Outcome m m' pc' o seen

variable {raw : Nat → Nat → Nat → Raw}

/-- At the first slot the whole bin is ahead. -/
theorem ahead_zero (hreads : Reads m key ht bin) (h : m.find ht key ∈ seen) :
    Ahead m seen key ht bin 0 := by
  rw [hreads.find_eq] at h
  cases hl : SlotArray.lookup (m.slots ht bin) key with
  | none =>
    rw [hl] at h
    exact Or.inl h
  | some v =>
    rcases mem_of_lookup hl with ⟨q, hq⟩
    exact Or.inr ⟨q, v, Nat.zero_le _, hq⟩

/-- A scan that comes to the end has missed the key. -/
theorem Ahead.none_seen (h : Ahead m seen key ht bin p) (hend : (m.slots ht bin)[p]? = none) :
    none ∈ seen := h.resolve_right (not_from_end hend)

/-- A scan goes on behind a slot with another key. -/
theorem Ahead.succ {x : Nat × Nat} (h : Ahead m seen key ht bin p)
    (hp : (m.slots ht bin)[p]? = some x) (hne : x.1 ≠ key) : Ahead m seen key ht bin (p + 1) :=
  h.imp_right fun hf => hf.succ (x := x.1) (v := x.2) hp hne

/-- An owner finds its key in the current table. -/
theorem Owns.content_some (ho : Owns m ht bin) (hg : Glob m) (hreads : Reads m key ht bin)
    (hp : (m.slots ht bin)[p]? = some (key, v)) : m.content key = some v := by
  rw [content_of_ne hreads.ne_zero, ← ho.current hg]
  exact hreads.find hg hp

/-- A key that is nowhere in an owned bin is not in the map. -/
theorem Owns.content_none (ho : Owns m ht bin) (hg : Glob m) (hreads : Reads m key ht bin)
    (habsent : Absent m key ht bin) : m.content key = none := by
  rw [content_of_ne hreads.ne_zero, ← ho.current hg, hreads.find_eq]
  exact lookup_eq_none.mpr habsent

/-- Entering the operation loads the table whose content was seen. -/
theorem outcome_called (h : o.key ≠ 0) (hview : m.content o.key ∈ seen) :
    Outcome m m (o.start m) o seen := by
  rw [content_of_ne h] at hview
  have hahead := ahead_zero ⟨le_refl _, h, rfl⟩ hview
  cases o with
  | get _ => exact .goes rfl rfl ⟨hview, hahead⟩
  | put _ _ => exact .goes rfl rfl ⟨hview, hahead⟩
  | update _ _ => exact .goes rfl rfl trivial
  | remove _ => exact .goes rfl rfl ⟨hview, hahead⟩

/-- The value read is remembered; past the last slot the key was absent at some moment. -/
theorem outcome_getVal (hg : Glob m) (hl : Reads m key ht bin)
    (hk : m.find ht key ∈ seen ∧ Ahead m seen key ht bin p)
    (hgo : go raw m (.getVal key ht bin p) = some (m', pc')) :
    Outcome m m' pc' (.get key) seen := by
  rw [go] at hgo
  split at hgo
  · rename_i x hx
    cases hgo
    refine .goes rfl rfl ⟨hk.1, hk.2, Or.inr ?_⟩
    by_cases hkey : x.1 = key
    · refine Or.inl ?_
      have hfind := hl.find (v := x.2) hg (by rw [hx, ← hkey])
      rw [← hfind]
      exact hk.1
    · refine Or.inr ?_
      intro v hv
      rw [hx] at hv
      cases hv
      exact hkey rfl
  · rename_i hend
    cases hgo
    exact .answers rfl rfl (Or.inr (Or.inl ⟨hk.2.none_seen hend, Or.inl rfl⟩)) rfl

/-- With the key found the map has had it at some moment, and the value is read once more. -/
theorem outcome_getKey (hg : Glob m) (hl : Reads m key ht bin)
    (hk : knows m seen (.getKey key ht bin p val))
    (hgo : go raw m (.getKey key ht bin p val) = some (m', pc')) :
    Outcome m m' pc' (.get key) seen := by
  rcases hk with ⟨hfind, hahead, hval⟩
  rcases Option.map_eq_some_iff.mp hgo with ⟨x, hx, heq⟩
  cases heq
  split
  · rename_i hkey
    have hslot : (m.slots ht bin)[p]? = some (key, x.2) := by rw [hx, ← hkey]
    refine .goes rfl rfl ⟨hfind, ⟨x.2, hl.find hg hslot ▸ hfind⟩, ?_⟩
    rcases hval with hn | hv | hne
    · exact Or.inl hn
    · exact Or.inr ⟨hv, x.2, hslot⟩
    · exact absurd hslot (hne x.2)
  · rename_i hkey
    exact .goes rfl rfl ⟨hfind, hahead.succ hx hkey⟩

/-- The second comparison of `clht_get`. -/
theorem outcome_getAgain (hg : Glob m) (hl : Reads m key ht bin)
    (hk : knows m seen (.getAgain key ht bin p val))
    (hgo : go raw m (.getAgain key ht bin p val) = some (m', pc')) :
    Outcome m m' pc' (.get key) seen := by
  rcases hk with ⟨hfind, hpresent, hval⟩
  rcases Option.map_eq_some_iff.mp hgo with ⟨x, hx, heq⟩
  cases heq
  refine .answers rfl rfl ?_ rfl
  rcases hval with hn | ⟨hv, w, hw⟩
  · exact Or.inr (Or.inl ⟨hn, Or.inr hpresent⟩)
  · split
    · exact Or.inl hv
    · -- the value has changed since the first read
      rename_i hne
      rw [hx] at hw
      cases hw
      rw [hl.find hg hx] at hfind
      exact Or.inr (Or.inr ⟨rfl, val, w, Ne.symm hne, hv, hfind⟩)

/-- The search before the lock has seen the key or its absence. -/
theorem outcome_bucketExists (hg : Glob m) (hl : Reads m s.key ht bin) (hop : s.op = some o)
    (hk : m.find ht s.key ∈ seen ∧ Ahead m seen s.key ht bin p)
    (hgo : go raw m (.bucketExists s ht bin p) = some (m', pc')) :
    Outcome m m' pc' o seen := by
  rw [go] at hgo
  split at hgo
  · rename_i x hx
    cases hgo
    split
    · rename_i hkey
      have hfind := hl.find (v := x.2) hg (by rw [hx, ← hkey])
      have hsome : some x.2 ∈ seen := hfind ▸ hk.1
      cases s with
      | put _ _ _ =>
        cases hop
        exact .answers rfl rfl ⟨rfl, x.2, hsome⟩ rfl
      | update _ _ => exact .goes hop rfl trivial
      | remove _ => exact .goes hop rfl trivial
      | eliminate _ => cases hop
    · rename_i hkey
      exact .goes hop rfl ⟨hk.1, hk.2.succ hx hkey⟩
  · rename_i hend
    cases hgo
    have hn := hk.2.none_seen hend
    cases s with
    | put _ _ _ => exact .goes hop rfl trivial
    | update _ _ => exact .goes hop rfl trivial
    | remove _ =>
      cases hop
      exact .answers rfl rfl ⟨rfl, hn⟩ rfl
    | eliminate _ => cases hop

/-- Taking the lock changes no content. -/
theorem outcome_acquire (hop : s.op = some o)
    (hgo : go raw m (.acquire s ht bin) = some (m', pc')) : Outcome m m' pc' o seen := by
  rw [go] at hgo
  split at hgo
  · split at hgo
    · cases hgo
      cases s with
      | put _ _ _ => exact .goes hop content_setLock trivial
      | update _ _ => exact .goes hop content_setLock trivial
      | remove _ => exact .goes hop content_setLock trivial
      | eliminate _ => cases hop
    · cases hgo
      exact .goes hop rfl trivial
    · cases hgo
      exact .goes hop rfl trivial
  · cases hgo

/-- Under the lock the scan sees what the map has now. -/
theorem outcome_scan (hg : Glob m) {empty : Option Nat} (hl : loc m (.scan s ht bin p empty))
    (hop : s.op = some o) (hview : m.content o.key ∈ seen)
    (hgo : go raw m (.scan s ht bin p empty) = some (m', pc')) : Outcome m m' pc' o seen := by
  rcases hl with ⟨ho, _, hreads, hbelow, _⟩
  have hkey : s.key = o.key := by cases s <;> cases hop <;> rfl
  rw [go] at hgo
  split at hgo
  · rename_i x hx
    cases hgo
    split
    · rename_i hx'
      -- a put that finds its key answers 0
      have hsome := ho.content_some (v := x.2) hg hreads (by rw [hx, ← hx'])
      rw [hkey] at hsome
      cases s with
      | put _ _ _ =>
        cases hop
        exact .answers rfl rfl ⟨rfl, x.2, hsome ▸ hview⟩ rfl
      | update _ _ =>
        cases hop
        exact .goes rfl rfl trivial
      | remove _ =>
        cases hop
        exact .goes rfl rfl trivial
      | eliminate _ => cases hop
    · exact .goes hop rfl trivial
  · rename_i hend
    cases hgo
    -- the whole bin was scanned under the lock: the key is not in the map
    have hnone := ho.content_none hg hreads (hbelow.all hend)
    rw [hkey] at hnone
    rw [hnone] at hview
    cases s with
    | put _ _ _ =>
      cases hop
      cases empty <;> exact .goes rfl rfl trivial
    | update _ _ =>
      cases hop
      exact .answers rfl rfl ⟨rfl, hview⟩ rfl
    | remove _ =>
      cases hop
      exact .answers rfl rfl ⟨rfl, hview⟩ rfl
    | eliminate _ => cases hop

/-- One step of a call that has not taken effect. It does now with the step that makes the last
change other threads can see: the store of the key for `clht_put` (or the link of a new bucket),
the store of the value for `clht_update`, the store of `0` for `clht_remove`. All other steps
leave the content alone; a call that changes nothing takes effect where it learns so. -/
theorem outcome_go (hg : Glob m) (hl : loc m pc) (hop : pc.op = some o)
    (hview : m.content o.key ∈ seen) (hk : knows m seen pc)
    (hgo : go raw m pc = some (m', pc')) : Outcome m m' pc' o seen := by
  cases pc with
  | called _ =>
    cases hop
    cases hgo
    exact outcome_called hl hview
  | getVal _ _ _ _ =>
    cases hop
    exact outcome_getVal hg hl hk hgo
  | getKey _ _ _ _ _ =>
    cases hop
    exact outcome_getKey hg hl.1 hk hgo
  | getAgain _ _ _ _ _ =>
    cases hop
    exact outcome_getAgain hg hl.1 hk hgo
  | bucketExists _ _ _ _ => exact outcome_bucketExists hg hl.2 hop hk hgo
  | acquire _ _ _ => exact outcome_acquire hop hgo
  | await _ _ =>
    cases hgo
    split
    · exact .goes hop rfl trivial
    · exact .goes hop rfl trivial
  | reload _ =>
    cases hgo
    exact .goes hop rfl trivial
  | scan _ _ _ _ _ => exact outcome_scan hg hl hop hview hgo
  | fill _ _ _ _ _ _ =>
    -- the value alone, in a slot whose key is still `0`
    rcases hl with ⟨ho, _, _, v, hp⟩
    rw [go, hp] at hgo
    cases hop
    cases hgo
    exact .goes rfl (content_fill hg ho hp) trivial
  | bind _ _ _ _ _ _ =>
    rcases hl with ⟨ho, hreads, habsent, hp⟩
    rw [go, hp] at hgo
    cases hop
    cases hgo
    exact .commits rfl rfl ⟨ho.content_none hg hreads habsent, rfl,
      content_bind hg ho hreads hp (Or.inr (Or.inr habsent)) (Or.inl rfl)⟩
  | grow _ _ _ _ _ =>
    -- the new bucket is not linked yet
    cases hop
    cases hgo
    exact .goes rfl content_countExpand trivial
  | link _ _ _ _ _ asked =>
    rcases hl with ⟨ho, hreads, habsent, _⟩
    cases hop
    cases hgo
    cases asked <;> exact .commits rfl rfl ⟨ho.content_none hg hreads habsent, rfl,
      content_expand hg ho hreads habsent _⟩
  | assign _ _ _ _ _ =>
    rcases hl with ⟨ho, hreads, v, hp⟩
    rw [go, hp] at hgo
    cases hop
    cases hgo
    refine .commits rfl rfl ⟨?_, rfl,
      content_bind hg ho hreads hp (Or.inr (Or.inl rfl)) (Or.inr rfl)⟩
    rw [ho.content_some hg hreads hp]
    exact Option.some_ne_none v
  | erase _ _ _ _ _ =>
    rcases hl with ⟨ho, hreads, hp⟩
    rw [go, hp] at hgo
    cases hop
    cases hgo
    exact .commits rfl rfl ⟨ho.content_some hg hreads hp, content_erase hg ho hp⟩
  -- elsewhere the call has taken effect
  | unlock _ _ exit => cases exit <;> cases hop
  | _ => cases hop

theorem loses_of_eq {f g : Nat → Option Nat} (h : g = f) : cache.loses f g :=
  fun _ _ hv => by rwa [h] at hv

/-- A call that has taken effect keeps its result; what it still does to the table loses
pairs at most. -/
theorem rest_go (hg : Glob m) (hl : loc m pc) (hop : pc.op = none) {result : Nat}
    (hres : pc.result = some result) (hgo : go raw m pc = some (m', pc')) :
    pc'.op = none ∧ pc'.result = some result ∧ cache.loses m.content m'.content := by
  cases pc with
  | idle => cases hres
  | called _ => cases hres
  | getVal _ _ _ _ => cases hres
  | getKey _ _ _ _ _ => cases hres
  | getAgain _ _ _ _ _ => cases hres
  | bucketExists _ _ _ _ => exact absurd hop hl.1
  | acquire s _ _ =>
    cases s with
    | eliminate _ =>
      rw [go] at hgo
      split at hgo
      · split at hgo
        · cases hgo
          exact ⟨rfl, hres, loses_of_eq content_setLock⟩
        · cases hgo
          exact ⟨rfl, hres, fun _ _ => id⟩
        · cases hgo
          exact ⟨rfl, hres, fun _ _ => id⟩
      · cases hgo
    | _ => cases hop
  | await s _ =>
    cases hgo
    split
    · exact ⟨hop, hres, fun _ _ => id⟩
    · exact ⟨hop, hres, fun _ _ => id⟩
  | reload s =>
    cases hgo
    exact ⟨hop, hres, fun _ _ => id⟩
  | scan _ _ _ _ _ => exact absurd hop hl.2.1
  | fill _ _ _ _ _ _ => cases hres
  | bind _ _ _ _ _ _ => cases hres
  | grow _ _ _ _ _ => cases hres
  | link _ _ _ _ _ _ => cases hres
  | assign _ _ _ _ _ => cases hres
  | erase _ _ _ _ _ => cases hres
  | choose _ _ => cases hgo
  | clear _ _ _ n =>
    cases n with
    | zero =>
      cases hgo
      exact ⟨rfl, hres, fun _ _ => id⟩
    | succ n =>
      rw [go] at hgo
      rcases Option.map_eq_some_iff.mp hgo with ⟨⟨k, v⟩, hp, heq⟩
      cases heq
      refine ⟨rfl, hres, ?_⟩
      -- eviction after the put: pairs are lost, which the cache may do
      rw [content_erase hg hl.1 hp]
      intro key val hval
      by_cases hk : key = k
      · rw [hk, setLoc_self] at hval
        cases hval
      · rwa [setLoc_ne _ _ hk] at hval
  | unlock _ _ exit =>
    cases exit with
    | ret _ =>
      cases hgo
      exact ⟨rfl, hres, loses_of_eq content_setLock⟩
    | status _ =>
      cases hgo
      exact ⟨rfl, hres, loses_of_eq content_setLock⟩
  | status _ => cases hgo
  | resize _ _ =>
    cases hgo
    exact ⟨rfl, hres, fun _ _ => id⟩
  | tryLock _ _ _ =>
    rw [go] at hgo
    split at hgo
    · cases hgo
      exact ⟨rfl, hres, fun _ _ => id⟩
    · simp only [Option.bind_eq_bind, Option.bind_eq_some_iff, Option.guard_eq_some',
        Option.pure_def, Option.some.injEq] at hgo
      rcases hgo with ⟨_, _, _, _, heq⟩
      cases heq
      exact ⟨rfl, hres, fun _ _ => id⟩
  | copy _ _ =>
    rw [go] at hgo
    split at hgo
    · split at hgo
      · cases hgo
        exact ⟨rfl, hres, loses_of_eq content_setLock⟩
      · cases hgo
        exact ⟨rfl, hres, fun _ _ => id⟩
      · cases hgo
        exact ⟨rfl, hres, fun _ _ => id⟩
    · cases hgo
      exact ⟨rfl, hres, fun _ _ => id⟩
  | copyBucket _ _ _ =>
    rw [go] at hgo
    split at hgo
    · cases hgo
      exact ⟨rfl, hres, fun _ _ => id⟩
    · cases hgo
      exact ⟨rfl, hres, fun _ _ => id⟩
  | swap _ =>
    cases hgo
    -- a shrink may leave pairs behind, which the cache may do
    exact ⟨rfl, hres, (content_publish hg hl).1⟩
  | setNew _ _ =>
    cases hgo
    exact ⟨rfl, hres, loses_of_eq content_setNew⟩
  | unlockResize again =>
    cases hgo
    cases again with
    | true => exact ⟨rfl, hres, fun _ _ => id⟩
    | false => exact ⟨rfl, hres, fun _ _ => id⟩
  | done _ => cases hgo

/-- A step with a choice is made after the call has taken effect, and reads at most. -/
theorem choice_next {a : Act} {e : Option Event} (hn : next raw m pc a = some (e, m', pc'))
    (hcall : ∀ o, a ≠ .call o) (hgo : a ≠ .go) (hret : a ≠ .ret) :
    e = none ∧ m' = m ∧ pc.op = none ∧ pc.result = some 1 ∧ pc'.op = none ∧
      pc'.result = some 1 := by
  cases a with
  | call o => exact absurd rfl (hcall o)
  | go => exact absurd rfl hgo
  | ret => exact absurd rfl hret
  | shrink =>
    cases pc with
    | status _ =>
      cases hn
      exact ⟨rfl, rfl, rfl, rfl, rfl, rfl⟩
    | _ => cases hn
  | enlarge _ =>
    cases pc with
    | status _ =>
      cases hn
      exact ⟨rfl, rfl, rfl, rfl, rfl, rfl⟩
    | _ => cases hn
  | stop =>
    cases pc with
    | status putBin =>
      cases putBin <;> cases hn <;> exact ⟨rfl, rfl, rfl, rfl, rfl, rfl⟩
    | _ => cases hn
  | pick i =>
    cases pc with
    | choose _ _ =>
      rcases Option.ite_none_right_eq_some.mp hn with ⟨_, heq⟩
      cases heq
      exact ⟨rfl, rfl, rfl, rfl, rfl, rfl⟩
    | _ => cases hn
  | leave =>
    cases pc with
    | copyBucket _ _ _ =>
      rcases Option.ite_none_right_eq_some.mp hn with ⟨_, heq⟩
      cases heq
      exact ⟨rfl, rfl, rfl, rfl, rfl, rfl⟩
    | _ => cases hn

end Epli.Clht.Locks
