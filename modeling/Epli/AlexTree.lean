import Epli.AlexLeaves
import Epli.Ordered

/-!
# The tree over its leaves

The tree is proved right over an ordered multimap. Here its operations find their entries through
the leaves of ALEX instead, and a split of an entry adds the separator to them, by as many attempts
as `insert` of the index makes. A key `k` of the index is the number `val k` of the tree, and `⊤` is
`kEndSentinel_`. The root never grows for keys out of its domain.

The multimap holds what the leaves hold (`Backs`), and so every run over the leaves is a run of the
tree with the same answers (`run_backed`). From the constructors on it answers as a finite map does
(`leaves_refine_map`).
-/

namespace Epli

open Lib

namespace Alex.Leaves

open DataNode

variable {K P : Type} [LinearOrder K] [OrderTop K]

/-- `insert` of the index: a leaf that refuses the key is expanded or split, and it is tried
again. -/
inductive Inserts (key : K) (payload : P) : Leaves K P → Leaves K P → Prop where
  | done {c : Costs} {b : Build K P} {pos : Nat} {s s' : Leaves K P} :
      s.insert c b key payload = some (s', .ok pos) → Inserts key payload s s'
  | fail {c : Costs} {b : Build K P} {flag : Nat} {s s₁ s' : Leaves K P} :
      s.insert c b key payload = some (s₁, .error flag) → Inserts key payload s₁ s' →
      Inserts key payload s s'
  | resize {b : Build K P} {s s' : Leaves K P} :
      Inserts key payload (s.resize b key) s' → Inserts key payload s s'
  | split {cut : Cut K} {reuse : Bool} {b b' : Build K P} {boundary : Nat} {s s' : Leaves K P} :
      Boundary cut (s.leafOf key) boundary →
      Inserts key payload (s.split cut reuse b b' boundary key) s' → Inserts key payload s s'

variable {key : K} {payload : P} {s s' : Leaves K P}

/-- However often it is tried, the key is inserted once. -/
theorem Inserts.entries (hins : Inserts key payload s s') (h : s.Sound) :
    s'.Sound ∧ s'.entries = Multimap.insertList key payload s.entries := by
  -- a failed attempt, a resize and a split keep the entries; the last attempt adds its own
  induction hins with
  | @done c b pos s s' hdone =>
    have hins := h.insert c b key payload
    split at hins
    · rw [hdone] at hins
      cases hins
    · obtain ⟨t', pos', heq, h', hentries⟩ := hins
      rw [hdone] at heq
      cases heq
      exact ⟨h', hentries⟩
  | @fail c b flag s s₁ s' hfail _ ih =>
    have hins := h.insert c b key payload
    split at hins
    · rw [hfail] at hins
      cases hins
      exact ih h
    · obtain ⟨t', pos', heq, _⟩ := hins
      rw [hfail] at heq
      cases heq
  | @resize b s s' _ ih =>
    obtain ⟨h', hentries⟩ := h.resize b key
    rw [← hentries]
    exact ih h'
  | @split cut reuse b b' boundary s s' hb _ ih =>
    obtain ⟨h', hentries⟩ := h.split reuse b b' hb
    rw [← hentries]
    exact ih h'

/-- A key can always be inserted. -/
theorem Sound.exists_inserts (h : s.Sound) (b : Build K P) (key : K) (payload : P) :
    ∃ s', Inserts key payload s s' := by
  have hins := h.insert ⟨false, false, false, false⟩ b key payload
  have hnone : Costs.fail (s.leafOf key) ⟨false, false, false, false⟩ = none := by
    unfold Costs.fail
    simp
  rw [hnone] at hins
  obtain ⟨s', pos, hdone, _⟩ := hins
  exact ⟨s', .done hdone⟩

end Alex.Leaves

namespace AlexTree

open Epli.Alex Epli.Tree
open Epli.Alex.DataNode (Build)
open Epli.Alex.Leaves (Inserts)

/-! ## The operations over the leaves -/

/-- A call of the tree. -/
inductive Call (K : Type) where
  | insert (key : K) (v : Nat)
  | update (key : K) (v : Nat)
  | remove (key : K)
  | get (key : K)

namespace Call

variable {K : Type}

def key : Call K → K
  | insert key _ => key
  | update key _ => key
  | remove key => key
  | get key => key

/-- The call with the number of its key. -/
def op (val : K → Nat) : Call K → Op
  | insert key v => .insert (val key) v
  | update key v => .update (val key) v
  | remove key => .remove (val key)
  | get key => .get (val key)

end Call

variable {K : Type} [LinearOrder K] [OrderTop K]

/-- The entry where `Insert` puts a key. Where there is none it looks for `key - 1`. -/
inductive EntryOf (val : K → Nat) (s : Leaves K Nat) (key : K) : Nat → Prop where
  | found : s.getPayloadLastNoGreaterThan key ≠ null →
      EntryOf val s key (s.getPayloadLastNoGreaterThan key)
  | before {k : K} : s.getPayloadLastNoGreaterThan key = null → val k = val key - 1 →
      EntryOf val s key (s.getPayloadLastNoGreaterThan k)

/-- `Insert`: a full entry is split, its separator goes to the leaves, and `Insert` calls itself. -/
inductive Inserted (val : K → Nat) (key : K) (v : Nat) :
    Tree → Leaves K Nat → Status → Tree → Leaves K Nat → Prop where
  | put {t : Tree} {s : Leaves K Nat} {entry : Nat} {ret : Status} {evs : Trace} :
      EntryOf val s key entry → Entry.maybePut t.mem entry (val key) v = (ret, evs) →
      ret ≠ .overflow → Inserted val key v t s ret (t.run evs) s
  | overflow {t t' : Tree} {s s₁ s' : Leaves K Nat} {entry : Nat} {evs : Trace} {sep : K}
      {ret : Status} :
      EntryOf val s key entry → Entry.maybePut t.mem entry (val key) v = (.overflow, evs) →
      val sep = Entry.medianKey t.mem entry →
      Inserts sep (t.alloc.allocAligned entrySize 256).1 s s₁ →
      Inserted val key v (t.splitEntry entry).2 s₁ ret t' s' → Inserted val key v t s ret t' s'

/-- A call that finds its entries through the leaves. -/
inductive Step (val : K → Nat) (t : Tree) (s : Leaves K Nat) :
    Call K → Answer → Tree → Leaves K Nat → Prop where
  | insert {key : K} {v : Nat} {ret : Status} {t' : Tree} {s' : Leaves K Nat} :
      Inserted val key v t s ret t' s' → Step val t s (.insert key v) ⟨ret, none⟩ t' s'
  | update {key : K} {v : Nat} {ret : Status} {evs : Trace} :
      Entry.update t.mem (s.getPayloadLastNoGreaterThan key) (val key) v = (ret, evs) →
      Step val t s (.update key v) ⟨ret, none⟩ (t.run evs) s
  | remove {key : K} {ret : Status} {evs : Trace} :
      Entry.remove t.mem (s.getPayloadLastNoGreaterThan key) (val key) = (ret, evs) →
      Step val t s (.remove key) ⟨ret, none⟩ (t.run evs) s
  | hit {key : K} {v : Nat} :
      Entry.get t.mem (s.getPayloadLastNoGreaterThan key) (val key) = some v →
      Step val t s (.get key) ⟨.ok, some v⟩ t s
  | miss {key : K} :
      Entry.get t.mem (s.getPayloadLastNoGreaterThan key) (val key) = none →
      Step val t s (.get key) ⟨.fail, some 0⟩ t s

/-- A run of calls with their answers. -/
inductive Runs (val : K → Nat) :
    Tree → Leaves K Nat → List (Call K) → List Answer → Tree → Leaves K Nat → Prop where
  | nil {t : Tree} {s : Leaves K Nat} : Runs val t s [] [] t s
  | cons {t t₁ t' : Tree} {s s₁ s' : Leaves K Nat} {c : Call K} {a : Answer} {cs : List (Call K)}
      {answers : List Answer} : Step val t s c a t₁ s₁ → Runs val t₁ s₁ cs answers t' s' →
      Runs val t s (c :: cs) (a :: answers) t' s'

/-! ## The multimap holds what the leaves hold -/

/-- The leaves stand for the index of the tree, which has a separator that is not above `lo`. -/
structure Backs (val : K → Nat) (lo : K) (s : Leaves K Nat) (t : Tree) : Prop where
  sound : s.Sound
  index : t.index.kvs = s.entries.map fun x => (val x.1, x.2)
  low : ∃ x ∈ s.entries, x.1 ≤ lo

variable {val : K → Nat} {lo key : K} {s s' : Leaves K Nat} {t t' : Tree} {as : List Nat}

/-- The leaves find the entry that the index finds. -/
theorem Backs.lookup (hval : StrictMono val) (hb : Backs val lo s t) (hlo : lo ≤ key)
    (htop : key < ⊤) : t.lookup (val key) = some (s.getPayloadLastNoGreaterThan key) := by
  obtain ⟨y, hy, hle⟩ := hb.low
  obtain ⟨x, hfloor, heq⟩ := hb.sound.floor htop (Or.inl ⟨y, hy, hle.trans hlo⟩)
  rw [heq]
  exact lookup_of_floor (Multimap.floor_embed hval hb.index hfloor)

/-- Running a trace does not go through the index. -/
theorem Backs.run (hb : Backs val lo s t) (evs : Trace) : Backs val lo s (t.run evs) :=
  ⟨hb.sound, hb.index, hb.low⟩

/-- The separator of a split goes to the index and to the leaves. -/
theorem Backs.split (hval : StrictMono val) (h : Shape t as) (hb : Backs val lo s t) {entry : Nat}
    {sep : K} (hsep : val sep = Entry.medianKey t.mem entry)
    (hadd : Inserts sep (t.alloc.allocAligned entrySize 256).1 s s') :
    Backs val lo s' (t.splitEntry entry).2 := by
  obtain ⟨hsound, hentries⟩ := hadd.entries hb.sound
  rw [h.alloc_eq] at hentries
  refine ⟨hsound, ?_, ?_⟩
  · rw [splitEntry_index h, Multimap.kvs_insert, hb.index, hentries, ← hsep,
      Multimap.insertList_embed hval]
  · obtain ⟨x, hx, hle⟩ := hb.low
    refine ⟨x, ?_, hle⟩
    rw [hentries]
    exact Multimap.mem_insertList.mpr (Or.inr hx)

/-- A split keeps the shape of the list. -/
theorem split_shape (h : Shape t as) {entry : Nat} (hmem : entry ∈ as) :
    ∃ as', Shape (t.splitEntry entry).2 as' := by
  obtain ⟨pre, post, rfl⟩ := List.append_of_mem hmem
  exact ⟨_, shape_splitEntry h⟩

/-- There is always an entry, and so `Insert` never takes the one before. -/
theorem EntryOf.lookup (hval : StrictMono val) (h : Shape t as) (hb : Backs val lo s t)
    (hlo : lo ≤ key) (htop : key < ⊤) {entry : Nat} (he : EntryOf val s key entry) :
    t.lookup (val key) = some entry ∧ entry ≠ null := by
  have hfound := hb.lookup hval hlo htop
  cases he with
  | found hne => exact ⟨hfound, hne⟩
  | before hnull _ => exact absurd hnull (h.pos (h.lookup_mem hfound))

/-- `Insert` over the leaves is `Insert` of the tree, with enough calls of itself. -/
theorem Inserted.backed (hval : StrictMono val) (hlo : lo ≤ key) (htop : key < ⊤) {v : Nat}
    {ret : Status} (hins : Inserted val key v t s ret t' s') (h : Shape t as)
    (hb : Backs val lo s t) : Backs val lo s' t' ∧ ∃ calls evs, ∀ n, calls ≤ n →
      t.insert n (val key) v = some (ret, evs, t') := by
  induction hins generalizing as with
  | @put t s entry ret evs he hput hret =>
    obtain ⟨hlookup, hne⟩ := he.lookup hval h hb hlo htop
    refine ⟨hb.run evs, 1, evs, fun n hn => ?_⟩
    obtain ⟨n, rfl⟩ := Nat.exists_eq_add_of_le' hn
    cases ret with
    | overflow => exact absurd rfl hret
    | _ => simp [Tree.insert, hlookup, hne, hput]
  | @overflow t t' s s₁ s' entry evs sep ret he hput hsep hadd _ ih =>
    obtain ⟨hlookup, hne⟩ := he.lookup hval h hb hlo htop
    obtain ⟨as₁, h₁⟩ := split_shape h (h.lookup_mem hlookup)
    obtain ⟨hb', calls, evs', hcalls⟩ := ih h₁ (hb.split hval h hsep hadd)
    refine ⟨hb', calls + 1, (t.splitEntry entry).1 ++ evs', fun n hn => ?_⟩
    cases n with
    | zero => omega
    | succ n =>
      have hrec := hcalls n (by omega)
      simp [Tree.insert, hlookup, hne, hput, hrec]

/-- How many calls of itself `Insert` is allowed does not matter. -/
theorem insert_calls (h : Shape t as) (k v calls calls' : Nat) :
    t.insert (calls + 2) k v = t.insert (calls' + 2) k v := by
  obtain ⟨p, hp, _⟩ := h.exists_lookup k
  obtain ⟨q, i, hq, hi, hins⟩ := insert_eq h hp calls v
  obtain ⟨q', i', hq', hi', hins'⟩ := insert_eq h hp calls' v
  rw [hq] at hq'
  cases hq'
  rw [hi] at hi'
  cases hi'
  rw [hins, hins']

/-- A step over the leaves is a step of the tree. -/
theorem Step.backed (hval : StrictMono val) (h : Shape t as) (hb : Backs val lo s t) {c : Call K}
    (hlo : lo ≤ c.key) (htop : c.key < ⊤) {a : Answer} (hstep : Step val t s c a t' s')
    (calls : Nat) : t.step (calls + 2) (c.op val) = some (a, t') ∧ Backs val lo s' t' := by
  cases hstep with
  | @insert key v ret t' s' hins =>
    obtain ⟨hb', n, evs, hcalls⟩ := hins.backed hval hlo htop h hb
    refine ⟨?_, hb'⟩
    -- one retry is enough, so the number of calls allowed does not matter
    have hmore : t.insert (n + 2) (val key) v = some (ret, evs, t') := hcalls _ (by omega)
    rw [insert_calls h (val key) v n calls] at hmore
    simp [Call.op, step, hmore]
  | @update key v ret evs hupd =>
    refine ⟨?_, hb.run evs⟩
    have hfound : t.lookup (val key) = some _ := hb.lookup hval hlo htop
    simp [Call.op, step, Tree.update, hfound, hupd]
  | @remove key ret evs hrem =>
    refine ⟨?_, hb.run evs⟩
    have hfound : t.lookup (val key) = some _ := hb.lookup hval hlo htop
    simp [Call.op, step, Tree.remove, hfound, hrem]
  | @hit key v hget =>
    refine ⟨?_, hb⟩
    have hfound : t.lookup (val key) = some _ := hb.lookup hval hlo htop
    simp [Call.op, step, Tree.get, hfound, hget]
  | @miss key hget =>
    refine ⟨?_, hb⟩
    have hfound : t.lookup (val key) = some _ := hb.lookup hval hlo htop
    simp [Call.op, step, Tree.get, hfound, hget]

/-! ## Runs over the leaves -/

/-- Every key that the tree stores is one of the leaves' keys. -/
def Named (val : K → Nat) (t : Tree) : Prop :=
  ∀ k v, k ≠ invalidKey → Stored t.mem t.head k v → ∃ key, val key = k

omit [LinearOrder K] [OrderTop K] in
/-- Every proper key in an entry is one that the client has. -/
theorem Named.of_hasKey (hn : Named val t) (h : Shape t as) {p k : Nat} (hp : p ∈ as)
    (hk : k ≠ invalidKey) (hhas : Entry.HasKey t.mem p k) : ∃ key, val key = k := by
  obtain ⟨v, hv⟩ := hhas.exists_holds
  exact hn k v hk ((stored_iff h.walk).mpr ⟨p, hp, hv⟩)

omit [LinearOrder K] [OrderTop K] in
/-- The keys stay named if a step brings no new ones. -/
theorem Named.of_keys (hn : Named val t) (h : Shape t as) {evs : Trace}
    (hnext : ∀ a ∈ as, exec t.mem evs (a, .next) = t.mem (a, .next))
    (hkeys : ∀ a ∈ as, ∀ k, k ≠ invalidKey → Entry.HasKey (exec t.mem evs) a k →
      Entry.HasKey t.mem a k) : Named val (t.run evs) := by
  intro k v hk hst
  obtain ⟨a, ha, hv⟩ := (stored_iff (h.run evs hnext).walk).mp hst
  rw [run_mem] at hv
  exact hn.of_hasKey h ha hk (hkeys a ha k hk hv.hasKey)

omit [LinearOrder K] [OrderTop K] in
/-- No call brings in a key that the client does not have. -/
theorem Named.step (hn : Named val t) (h : Shape t as) {c : Call K} {calls : Nat} {a : Answer}
    (hstep : t.step (calls + 2) (c.op val) = some (a, t')) : Named val t' := by
  generalize hop : c.op val = op at hstep
  cases step_effect h hstep with
  | @insert k v p p' i hp hp' hf =>
    have hkey : ∃ key, val key = k := by
      cases c with
      | insert key v =>
        cases hop
        exact ⟨key, rfl⟩
      | _ => cases hop
    obtain ⟨as', h', _, _, hst⟩ := makeRoom_shape h (h.lookup_mem hp)
    obtain ⟨hi, he, _⟩ := Entry.findSlot_some hf
    intro k' v' hk' hput
    rw [run_mem, Entry.exec_putAtPos, run_head] at hput
    rcases (stored_putSlot h'.walk (h'.lookup_mem hp') hi he hk').mp hput with hold | ⟨rfl, _⟩
    · rw [makeRoom_head, hst k' v' hk'] at hold
      exact hn k' v' hk' hold
    · exact hkey
  -- the other calls bring no key
  | @update k v p i hp hf =>
    refine hn.of_keys h (fun a _ => slotsOnly_setVal.next a) fun a _ k' _ hhas => ?_
    obtain ⟨j, hj, hkj⟩ := hhas
    refine ⟨j, hj, ?_⟩
    rw [← hkj]
    simp
  | @remove k p i hp hf =>
    refine hn.of_keys h (fun a _ => slotsOnly_clearKey.next a) fun a _ k' hk' hhas => ?_
    by_cases hap : a = p
    · subst hap
      exact hasKey_clearKey hk' hhas
    · exact (slotsOnly_clearKey.hasKey hap).mp hhas
  | same _ => exact hn

/-- There is a step for every call. -/
theorem Backs.exists_step (hval : StrictMono val) (h : Shape t as) (hb : Backs val lo s t)
    (hn : Named val t) (b : Build K Nat) {c : Call K} (hlo : lo ≤ c.key) (htop : c.key < ⊤) :
    ∃ a t' s', Step val t s c a t' s' := by
  cases c with
  | insert key v =>
    have hfound : t.lookup (val key) = some _ := hb.lookup hval hlo htop
    have hmem := h.lookup_mem hfound
    have he : EntryOf val s key _ := .found (h.pos hmem)
    by_cases hfull : Entry.Full t.mem (s.getPayloadLastNoGreaterThan key)
    · have hhas := Entry.medianKey_hasKey t.mem (s.getPayloadLastNoGreaterThan key)
      -- a full entry has valid keys only, and its median is one of them
      have hvalid : Entry.medianKey t.mem (s.getPayloadLastNoGreaterThan key) ≠ invalidKey := by
        intro heq
        rw [heq] at hhas
        exact Entry.not_full_iff.mpr hhas hfull
      obtain ⟨sep, hsep⟩ := hn.of_hasKey h hmem hvalid hhas
      obtain ⟨s₁, hadd⟩ := hb.sound.exists_inserts b sep
        (t.alloc.allocAligned entrySize 256).1
      obtain ⟨as₁, h₁⟩ := split_shape h hmem
      have hfound₁ : (t.splitEntry _).2.lookup (val key) = some _ :=
        (hb.split hval h hsep hadd).lookup hval hlo htop
      have he₁ : EntryOf val s₁ key _ := .found (h₁.pos (h₁.lookup_mem hfound₁))
      have hroom := splitEntry_room h hfound hfound₁
      obtain ⟨i, _, hput⟩ := Entry.maybePut_room (val key) v hroom
      have hover := Entry.maybePut_full (val key) v hfull
      exact ⟨_, _, _, .insert (.overflow he hover hsep hadd (.put he₁ hput (by decide)))⟩
    · obtain ⟨i, _, hput⟩ := Entry.maybePut_room (val key) v hfull
      exact ⟨_, _, _, .insert (.put he hput (by decide))⟩
  | update key v => exact ⟨_, _, _, .update rfl⟩
  | remove key => exact ⟨_, _, _, .remove rfl⟩
  | get key =>
    cases hget : Entry.get t.mem (s.getPayloadLastNoGreaterThan key) (val key) with
    | some v => exact ⟨_, _, _, .hit hget⟩
    | none => exact ⟨_, _, _, .miss hget⟩

/-- The tree and the leaves belong together. -/
structure Joined (val : K → Nat) (lo : K) (t : Tree) (s : Leaves K Nat) : Prop where
  shape : ∃ as, Shape t as
  backs : Backs val lo s t
  named : Named val t

/-- A step of the composed system is a call of the tree, and the two stay joined. -/
theorem Joined.step (hval : StrictMono val) (hj : Joined val lo t s) {c : Call K}
    (hlo : lo ≤ c.key) (htop : c.key < ⊤) {a : Answer} (hstep : Step val t s c a t' s')
    (calls : Nat) : t.step (calls + 2) (c.op val) = some (a, t') ∧ Joined val lo t' s' := by
  obtain ⟨as, h⟩ := hj.shape
  obtain ⟨hs, hb'⟩ := hstep.backed hval h hj.backs hlo htop calls
  exact ⟨hs, shape_step h hs, hb', hj.named.step h hs⟩

/-- Every run over the leaves is a run of the tree with the same answers. -/
theorem run_backed (hval : StrictMono val) (hj : Joined val lo t s) {cs : List (Call K)}
    (hkeys : ∀ c ∈ cs, lo ≤ c.key ∧ c.key < ⊤) {answers : List Answer}
    (hrun : Runs val t s cs answers t' s') (calls : Nat) :
    runOps (step (calls + 2)) t (cs.map (Call.op val)) = some (answers, t') ∧
      Joined val lo t' s' := by
  induction hrun with
  | nil => exact ⟨rfl, hj⟩
  | @cons t t₁ t' s s₁ s' c a cs answers hstep _ ih =>
    rw [List.forall_mem_cons] at hkeys
    obtain ⟨hs, hj₁⟩ := hj.step hval hkeys.1.1 hkeys.1.2 hstep calls
    obtain ⟨hrest, hj'⟩ := ih hj₁ hkeys.2
    exact ⟨by simp [runOps, hs, hrest], hj'⟩

/-- Every list of calls has a run over the leaves. -/
theorem Joined.exists_run (hval : StrictMono val) (b : Build K Nat) {cs : List (Call K)}
    (hkeys : ∀ c ∈ cs, lo ≤ c.key ∧ c.key < ⊤) (hj : Joined val lo t s) :
    ∃ answers t' s', Runs val t s cs answers t' s' := by
  induction cs generalizing t s with
  | nil => exact ⟨[], t, s, .nil⟩
  | cons c cs ih =>
    rw [List.forall_mem_cons] at hkeys
    obtain ⟨as, h⟩ := hj.shape
    obtain ⟨a, t₁, s₁, hstep⟩ :=
      hj.backs.exists_step hval h hj.named b hkeys.1.1 hkeys.1.2
    have hj₁ := (hj.step hval hkeys.1.1 hkeys.1.2 hstep 0).2
    obtain ⟨answers, t', s', hrun⟩ := ih hkeys.2 hj₁
    exact ⟨a :: answers, t', s', .cons hstep hrun⟩

/-! ## From the constructors -/

variable {zero : K} {f : Mapping} {pm : Pmem Loc Nat}

/-- The leaves of a new index, with the separator of a new tree. -/
theorem backs_create (b : Build K Nat) (hzero : val zero = invalidKey)
    (hins : Inserts zero f.addr (Leaves.root (DataNode.bulkLoad b [])) s) :
    Backs val zero s (create false f pm) := by
  obtain ⟨hwell, hnone⟩ := DataNode.build_spec b (l := []) List.Pairwise.nil
  obtain ⟨hsound, hentries⟩ := hins.entries (Leaves.root_sound hwell)
  have hone : s.entries = [(zero, f.addr)] := by
    rw [hentries, Leaves.root_entries]
    exact congrArg _ hnone
  refine ⟨hsound, ?_, (zero, f.addr), ?_, le_rfl⟩
  · rw [create_eq, hone, List.map_singleton, hzero]
    rfl
  · rw [hone]
    exact List.mem_singleton_self _

/-- The constructors leave the tree and the leaves together. -/
theorem joined_create (b : Build K Nat) (hzero : val zero = invalidKey)
    (hins : Inserts zero f.addr (Leaves.root (DataNode.bulkLoad b [])) s) :
    Joined val zero (create false f pm) s where
  shape := ⟨_, (sound_create f pm).shape⟩
  backs := backs_create b hzero hins
  named := fun _ v hk hst => absurd hst (create_not_stored f pm hk v)

/-- A tree with the first separator `INVALID_KEY` answers as the map does. -/
theorem fresh_step {t : Tree} {r r' : Ref} {op : Op} {ans : Answer} {rest : List (Nat × Nat)}
    (hs : Tree.Sound t 0 rest) (hag : Agrees t r) (calls : Nat)
    (hstep : r.step op = some (ans, r')) : ∃ t', t.step (calls + 2) op = some (ans, t') ∧
      (∃ rest', Tree.Sound t' 0 rest') ∧ Agrees t' r' := by
  have hrel : Rel t r := ⟨⟨0, rest, hs⟩, hag⟩
  have hok : SplitGuard t op := by
    cases op with
    | insert k v => exact splitOk_of_zero hs k
    | _ => trivial
  obtain ⟨t', hs', _, hag'⟩ := rel_step calls hrel hok hstep
  obtain ⟨rest', hsound, _⟩ := sound_step hs (contract_of_ref hrel hstep) hok hs'
  exact ⟨t', hs', ⟨rest', hsound⟩, hag'⟩

/-- Every run of the map is a run of a new tree. -/
theorem fresh_run (f : Mapping) (pm : Pmem Loc Nat) (calls : Nat) {ops : List Op}
    {answers : List Answer} {r : Ref}
    (href : runOps Ref.step Start.fresh.ref ops = some (answers, r)) :
    ∃ t', runOps (step (calls + 2)) (create false f pm) ops = some (answers, t') := by
  have hag : Agrees (create false f pm) Start.fresh.ref := (@rel_start f pm _ .fresh rfl).2
  have hsim : ∀ (t : Tree) (r : Ref) (op : Op) (ans : Answer) (r' : Ref),
      ((∃ rest, Tree.Sound t 0 rest) ∧ Agrees t r) → True → r.step op = some (ans, r') →
      ∃ t', t.step (calls + 2) op = some (ans, t') ∧ (∃ rest, Tree.Sound t' 0 rest) ∧
        Agrees t' r' :=
    fun _ _ _ _ _ ⟨⟨_, hs⟩, hag⟩ _ hstep => fresh_step hs hag calls hstep
  obtain ⟨t', hrun, _⟩ := run_simulates _ hsim ops _ _ answers r ⟨⟨[], sound_create f pm⟩, hag⟩
    (along_of_mem (fun _ _ => trivial) _) href
  exact ⟨t', hrun⟩

/-- On a new tree every list of calls that the map takes has a run over the leaves, and each of its
runs answers as the map does, however the leaves were expanded and split meanwhile. -/
theorem leaves_refine_map (hval : StrictMono val) (hzero : val zero = invalidKey) (f : Mapping)
    (pm : Pmem Loc Nat) (b : Build K Nat)
    (hins : Inserts zero f.addr (Leaves.root (DataNode.bulkLoad b [])) s) {cs : List (Call K)}
    (hkeys : ∀ c ∈ cs, c.key < ⊤) {answers : List Answer} {r : Ref}
    (href : runOps Ref.step Start.fresh.ref (cs.map (Call.op val)) = some (answers, r)) :
    (∃ t' s', Runs val (create false f pm) s cs answers t' s') ∧ ∀ answers' t' s',
      Runs val (create false f pm) s cs answers' t' s' → answers' = answers := by
  have hkeys' : ∀ c ∈ cs, zero ≤ c.key ∧ c.key < ⊤ := by
    refine fun c hc => ⟨?_, hkeys c hc⟩
    rw [← hval.le_iff_le, hzero]
    exact Nat.zero_le _
  have hj : Joined val zero (create false f pm) s := joined_create b hzero hins
  obtain ⟨t, hrun⟩ := fresh_run f pm 0 href
  have hsame : ∀ answers' t' s', Runs val (create false f pm) s cs answers' t' s' →
      answers' = answers := by
    intro answers' t' s' hruns
    have hrun' := (run_backed hval hj hkeys' hruns 0).1
    rw [hrun] at hrun'
    cases hrun'
    rfl
  refine ⟨?_, hsame⟩
  obtain ⟨answers', t', s', hruns⟩ := hj.exists_run hval b hkeys'
  rw [hsame _ _ _ hruns] at hruns
  exact ⟨t', s', hruns⟩

/-- Nodes for keys below 32. -/
def broad : Build (Fin 32) Nat where
  predict := fun _ => 0
  scaled := 4
  mostly := 3
  least := 1
  keySlots := fun _ => 0
  payloadSlots := fun _ => 0
  behind := fun _ => 0#64

/-- More keys than the first entry takes. -/
def fifteen : List (Call (Fin 32)) :=
  ((List.range 15).map fun i => .insert (Fin.ofNat 32 (i + 1)) i) ++ [.get 1, .get 20]

def fifteenAnswers : List Answer :=
  List.replicate 15 ⟨.ok, none⟩ ++ [⟨.ok, some 0⟩, ⟨.fail, some 0⟩]

/-- What the map answers to the fifteen inserts and a lookup. -/
theorem fifteen_spec : (runOps Ref.step Start.fresh.ref (fifteen.map (Call.op Fin.val))).map
    Prod.fst = some fifteenAnswers := by
  decide +kernel

/-- The fifteenth insert splits the head, and the leaves route the lookup behind the split. -/
theorem leaves_refine_map_fifteen : ∃ s,
    Inserts (0 : Fin 32) sampleFile.addr (Leaves.root (DataNode.bulkLoad broad [])) s ∧
    (∃ t' s', Runs Fin.val (create false sampleFile blank) s fifteen fifteenAnswers t' s') ∧
    ∀ answers' t' s', Runs Fin.val (create false sampleFile blank) s fifteen answers' t' s' →
      answers' = fifteenAnswers := by
  have hwell := (DataNode.build_spec broad (l := []) List.Pairwise.nil).1
  obtain ⟨s, hins⟩ := (Leaves.root_sound hwell).exists_inserts broad 0 sampleFile.addr
  obtain ⟨⟨_, r⟩, href, rfl⟩ := Option.map_eq_some_iff.mp fifteen_spec
  exact ⟨s, hins, leaves_refine_map Fin.val_strictMono rfl sampleFile blank broad hins
    (by decide) href⟩

end AlexTree

end Epli
