import Epli.Query

/-!
# RangeScan

The query comes back whenever the list and the index agree on the order of the
entries, that is, until a split puts its separator below the one its entry was found
under. It is exact if and only if both bounds are looked up in the same entry:
the middle loop starts with the entry that was already scanned, and pushes all of
its slots.
-/

namespace Epli

open Lib Entry

namespace Tree

variable {m : Mem} {t : Tree} {rounds startKey endKey p q s s₀ : Nat}
  {rest pre post : List (Nat × Nat)}

/-- The middle loop pushes every slot of the entries before the end entry. -/
theorem rangeMiddle_eq {endEntry : Nat} {post : List Nat} : ∀ {mid : List Nat} {rounds entry : Nat}
    (results : List KV), Walk (nextOf m) null entry (mid ++ endEntry :: post) → endEntry ∉ mid →
    mid.length ≤ rounds →
    rangeMiddle m endEntry rounds entry results = some (results ++ mid.flatMap (kvs m)) := by
  intro mid
  induction mid with
  | nil =>
    intro rounds entry results hw _ _
    rcases hw with ⟨rfl, _, _⟩
    cases rounds with
    | zero => simp [rangeMiddle]
    | succ rounds => simp [rangeMiddle]
  | cons a mid ih =>
    intro rounds entry results hw hend hlen
    rcases hw with ⟨rfl, hne, hw⟩
    -- the walk meets the end entry once, after all of `mid`
    have hea : entry ≠ endEntry := fun h => hend (by simp [h])
    have hend' : endEntry ∉ mid := fun h => hend (by simp [h])
    cases rounds with
    | zero => simp at hlen
    | succ rounds =>
      have hnull : entry ≠ null := hne
      have hloop := @ih rounds _ (results ++ kvs m entry) hw hend' (by simpa using hlen)
      rw [nextOf] at hloop
      rw [rangeMiddle, if_neg hea, if_neg hnull, hloop, List.flatMap_cons, List.append_assoc]

theorem mem_slotsInRange {x : KV} : x ∈ slotsInRange m p startKey endKey ↔
    Holds m p x.1 x.2 ∧ startKey ≤ x.1 ∧ x.1 ≤ endKey := by
  simp [slotsInRange, mem_kvs]

theorem slotsInRange_nodup (hd : Distinct m p) (hs : 0 < startKey) :
    (slotsInRange m p startKey endKey).Nodup := by
  have hperm : (slotsInRange m p startKey endKey).Perm
      ((liveAbove m p startKey).filter fun x => x.1 ≤ endKey) := by
    rw [liveAbove, List.filter_filter, slotsInRange]
    refine ((sortedKVs_perm m p).symm.filter _).trans (List.Perm.of_eq ?_)
    apply List.filter_congr
    intro x _
    rw [Bool.and_comm, Bool.decide_and]
  rw [hperm.nodup_iff]
  refine ((liveAbove_ascending hd hs).filter _).imp ?_
  intro a b hab heq
  rw [heq] at hab
  exact lt_irrefl _ hab

namespace Sound

/-- The entry of an upper bound is the entry of the lower bound or a later one. -/
theorem later_cell (h : Sound t s₀ rest) (hle : startKey ≤ endKey)
    (hcells : (0, t.head) :: rest = pre ++ (s, p) :: post) (hlow : s ≤ startKey)
    (hq : t.lookup endKey = some q) (hne : p ≠ q) :
    ∃ mid post', post.map Prod.snd = mid ++ q :: post' := by
  rcases h.routed.lookup_cell hq with ⟨pre', s', post', hcells', hlow', hpost'⟩
  have hbounds := h.cells.bounds
  have hmem : (s', q) ∈ pre ++ (s, p) :: post := by
    rw [← hcells, hcells']
    simp
  have hmem' : (s, p) ∈ pre' ++ (s', q) :: post' := by
    rw [← hcells', hcells]
    simp
  have hlater : (s', q) ∈ post := by
    rcases List.mem_append.mp hmem with hpre | hpost
    · -- its separator would be below `s`, and `s` above the upper bound
      have hb := hbounds
      rw [hcells, List.pairwise_append] at hb
      have hlt : s' < s := hb.2.2 _ hpre (s, p) (by simp)
      have hb' := hbounds
      rw [hcells', List.pairwise_append] at hb'
      rcases List.mem_append.mp hmem' with hm | hm
      · have : s < s' := hb'.2.2 _ hm (s', q) (by simp)
        omega
      · rcases List.mem_cons.mp hm with heq | hm
        · exact absurd (Prod.mk.inj heq).2 hne
        · have : endKey < s := hpost' _ hm
          omega
    · rcases List.mem_cons.mp hpost with heq | hpost
      · exact absurd (Prod.mk.inj heq).2.symm hne
      · exact hpost
  rcases List.append_of_mem (List.mem_map_of_mem (f := Prod.snd) hlater) with ⟨mid, post₂, heq⟩
  exact ⟨mid, post₂, heq⟩

/-- The walk from the entry of the lower bound meets the entry of the upper bound. -/
theorem walk_between (h : Sound t s₀ rest) (hle : startKey ≤ endKey)
    (hp : t.lookup startKey = some p) (hq : t.lookup endKey = some q) (hne : p ≠ q) :
    ∃ mid post, Walk (nextOf t.mem) null p (p :: mid ++ q :: post) ∧ q ∉ p :: mid ∧
      (p :: mid).length ≤ rest.length + 1 := by
  rcases h.routed.lookup_cell hp with ⟨pre, s, post, hcells, hlow, _⟩
  rcases h.later_cell hle hcells hlow hq hne with ⟨mid, post', hmid⟩
  have hwalk := h.shape.walk
  have hnd := h.shape.nodup
  have hlen := congrArg List.length (entries_eq hcells)
  rw [entries_eq hcells, hmid] at hwalk hnd
  rw [hmid] at hlen
  simp only [List.length_cons, List.length_append, List.length_map] at hlen
  refine ⟨mid, post', walk_from hwalk, ?_, ?_⟩
  · have hnd' := (List.nodup_append.mp hnd).2.1
    rw [← List.cons_append, List.nodup_append] at hnd'
    intro hmem
    exact hnd'.2.2 q hmem q (by simp) rfl
  · rw [List.length_cons]
    omega

/-- A key between two bounds that are looked up in one entry is stored in that
entry, if at all. -/
theorem holds_between (h : Sound t s₀ rest) (hp : t.lookup startKey = some p)
    (hq : t.lookup endKey = some p) {k v : Nat} (hk : k ≠ invalidKey) (h₁ : startKey ≤ k)
    (h₂ : k ≤ endKey) (hst : Stored t.mem t.head k v) : Holds t.mem p k v := by
  rcases h.routed.lookup_cell hp with ⟨pre, s, post, hcells, hlow, _⟩
  rcases h.routed.lookup_cell hq with ⟨pre', s', post', hcells', _, hpost'⟩
  -- the entry has one separator
  have hsep : (s, p) = (s', p) := by
    refine List.inj_on_of_nodup_map h.cells.ids ?_ ?_ rfl
    · rw [hcells]
      simp
    · rw [hcells']
      simp
  have hs : s = s' := (Prod.mk.inj hsep).1
  rcases h.cell_bounds hcells' with ⟨hpre, _, hlater, _, _⟩
  rcases (stored_iff h.shape.walk).mp hst with ⟨a, ha, hh⟩
  rw [entries_eq hcells'] at ha
  rcases List.mem_append.mp ha with ha | ha
  · rcases List.mem_map.mp ha with ⟨y, hy, rfl⟩
    have := hpre y hy k ⟨hk, hh.hasKey⟩
    omega
  · rcases List.mem_cons.mp ha with rfl | ha
    · exact hh
    · rcases List.mem_map.mp ha with ⟨y, hy, rfl⟩
      have hy' := hpost' y hy
      have := hlater y hy k ⟨hk, hh.hasKey⟩
      omega

/-- Within one entry `RangeScan` is exact. -/
theorem rangeScan_same (h : Sound t s₀ rest) (hs : 0 < startKey)
    (hp : t.lookup startKey = some p) (hq : t.lookup endKey = some p) :
    RangeExact t startKey endKey (slotsInRange t.mem p startKey endKey) := by
  have hmem := h.shape.lookup_mem hp
  refine ⟨slotsInRange_nodup (h.unique.distinct p hmem) hs, ?_⟩
  intro x
  rw [mem_slotsInRange]
  constructor
  · rintro ⟨hh, h₁, h₂⟩
    exact ⟨h₁, h₂, (stored_iff h.shape.walk).mpr ⟨p, hmem, hh⟩⟩
  · rintro ⟨h₁, h₂, hst⟩
    have hx : x.1 ≠ invalidKey := by show x.1 ≠ 0; omega
    exact ⟨h.holds_between hp hq hx h₁ h₂ hst, h₁, h₂⟩

/-- `RangeScan` comes back, and is exact if and only if both bounds are looked up
in the same entry. -/
theorem rangeScan_iff (h : Sound t s₀ rest) (hs : 0 < startKey) (hle : startKey ≤ endKey)
    (hrounds : rest.length + 1 ≤ rounds) :
    ∃ res, t.rangeScan rounds startKey endKey [] = some (.ok, res) ∧
      (RangeExact t startKey endKey res ↔ t.lookup startKey = t.lookup endKey) := by
  rcases h.shape.exists_lookup startKey with ⟨p, hp, _⟩
  rcases h.shape.exists_lookup endKey with ⟨q, hq, _⟩
  by_cases hpq : p = q
  · subst hpq
    refine ⟨slotsInRange t.mem p startKey endKey, by simp [rangeScan, hp, hq], ?_⟩
    exact iff_of_true (h.rangeScan_same hs hp hq) (hp.trans hq.symm)
  · rcases h.walk_between hle hp hq hpq with ⟨mid, post, hwalk, hqmid, hlen⟩
    have hloop := rangeMiddle_eq (slotsInRange t.mem p startKey endKey) hwalk hqmid
      (hlen.trans hrounds)
    refine ⟨_, by simp [rangeScan, hp, hq, hpq, hloop]; rfl, iff_of_false ?_ ?_⟩
    · -- the first slot of the start entry is out of range, or pushed twice
      intro hex
      rcases List.exists_mem_of_ne_nil (kvs t.mem p) (by simp [kvs, kvsPerEntry_eq]) with ⟨x, hx⟩
      have hin := (hex.mem_iff x).mp (by simp [hx])
      have hfirst : x ∈ slotsInRange t.mem p startKey endKey :=
        mem_slotsInRange.mpr ⟨mem_kvs.mp hx, hin.1, hin.2.1⟩
      have honce := hex.once
      rw [List.nodup_append] at honce
      exact honce.2.2 x hfirst x (by simp [hx]) rfl
    · rw [hp, hq]
      exact fun heq => hpq (Option.some.inj heq)

end Sound

/-! ## Coming back -/

/-- For all bounds in order, `RangeScan` comes back: the entry of the upper bound is met
when following `next` from the entry of the lower bound. -/
def RangeSafe (t : Tree) : Prop :=
  ∀ startKey endKey, startKey ≤ endKey → endKey < 2 ^ 64 - 1 → ∃ startEntry endEntry,
    t.lookup startKey = some startEntry ∧ t.lookup endKey = some endEntry ∧
      Reaches (nextOf t.mem) null startEntry endEntry ∧
      ∃ n, ∀ rounds, n ≤ rounds → ∀ results, ∃ res,
        t.rangeScan rounds startKey endKey results = some (.ok, res)

theorem Sound.rangeSafe (h : Sound t s₀ rest) : RangeSafe t := by
  intro startKey endKey hle _
  rcases h.shape.exists_lookup startKey with ⟨p, hp, hpmem⟩
  rcases h.shape.exists_lookup endKey with ⟨q, hq, _⟩
  refine ⟨p, q, hp, hq, ?_⟩
  by_cases hpq : p = q
  · subst hpq
    refine ⟨.here (walk_ne_null h.shape.walk p hpmem), 0, ?_⟩
    intro rounds _ results
    exact ⟨_, by simp [rangeScan, hp, hq]; rfl⟩
  · rcases h.walk_between hle hp hq hpq with ⟨mid, post, hwalk, hqmid, hlen⟩
    refine ⟨(reaches_iff_mem hwalk).mpr (by simp), rest.length + 1, ?_⟩
    intro rounds hrounds results
    have hloop := rangeMiddle_eq (results ++ slotsInRange t.mem p startKey endKey) hwalk hqmid
      (hlen.trans hrounds)
    exact ⟨_, by simp [rangeScan, hp, hq, hpq, hloop]; rfl⟩

section Client

variable {f : Mapping} {pm : Pmem Loc Nat} {calls : Nat}

/-- As long as no split puts its separator below the one the entry was found under,
`RangeScan` comes back. -/
theorem rangeScan_safe (h : ReachableIf SplitGuard f pm calls t) : RangeSafe t := by
  rcases h.sound with ⟨s₀, rest, hs⟩
  exact hs.rangeSafe

theorem tens_rangeScan_safe : ∃ t₀ t', tens.tree sampleFile blank = some t₀ ∧
    runOps (step 2) t₀ tensOps = some (tensAnswers, t') ∧ RangeSafe t' := by
  rcases exists_tens with ⟨t₀, t', htree, hrun, hreach⟩
  exact ⟨t₀, t', htree, hrun, rangeScan_safe hreach⟩

set_option maxRecDepth 100000 in
/-- The entry of `8` comes before the head in the index and behind it in the list: a scan
from `8` to `10` runs into `NULL`. -/
theorem rangeScan_unsafe : ∃ t, Reachable sampleFile blank 0 t ∧ ¬ RangeSafe t := by
  rcases tens.sound sampleFile blank with ⟨t₀, _, _, htree, _⟩
  have hc : ∀ t ∈ tens.tree sampleFile blank, Along (step 2) SlotContract t splitBelowOps := by
    decide +kernel
  have heval : ∀ t ∈ tens.tree sampleFile blank, ∀ x ∈ runOps (step 2) t splitBelowOps,
      x.2.lookup 8 = some 4864 ∧ x.2.lookup 10 = some 4096 ∧ x.2.mem (4864, .next) = 4608 ∧
        x.2.mem (4608, .next) = 4352 ∧ x.2.mem (4352, .next) = null := by
    decide +kernel
  rcases reachable_of_slots htree (hc t₀ htree) with ⟨answers, t, hrun, hreach⟩
  rcases heval t₀ htree _ hrun with ⟨hstart, hend, hnext₁, hnext₂, hnext₃⟩
  refine ⟨t, hreach, ?_⟩
  intro hsafe
  rcases hsafe 8 10 (by decide) (by decide) with ⟨p, q, hp, hq, hreaches, _⟩
  cases hp.symm.trans hstart
  cases hq.symm.trans hend
  have hwalk : Walk (nextOf t.mem) null 4864 [4864, 4608, 4352] := by
    simp only at hnext₁ hnext₂ hnext₃
    simp [Walk, nextOf, hnext₁, hnext₂, hnext₃]
  have hmem := (reaches_iff_mem hwalk).mp hreaches
  simp at hmem

end Client

section Fresh

variable {f : Mapping} {pm : Pmem Loc Nat} {calls : Nat}

/-- From a fresh tree on, `RangeScan` comes back, and returns exactly the stored
pairs of the range if and only if both bounds are looked up in the same entry. -/
theorem rangeScan_exact_iff (h : ReachableFresh f pm calls t) (hs : 0 < startKey)
    (hle : startKey ≤ endKey) : ∃ n, ∀ rounds, n ≤ rounds →
      ∃ res, t.rangeScan rounds startKey endKey [] = some (.ok, res) ∧
        (RangeExact t startKey endKey res ↔ t.lookup startKey = t.lookup endKey) := by
  rcases h.sound with ⟨rest, hsound⟩
  exact ⟨rest.length + 1, fun rounds hr => hsound.rangeScan_iff hs hle hr⟩

/-- A client of a fresh tree that inserts the keys `1 .. 15`: the last one splits
the head. -/
theorem fillBelow_reachable : ∃ answers t,
    runOps (step 2) (create false sampleFile blank) (fillBelow 15) = some (answers, t) ∧
      ReachableFresh sampleFile blank 0 t := by
  have hspec : (runOps Ref.step Start.fresh.ref (fillBelow 15)).map Prod.fst =
      some (List.replicate 15 ⟨.ok, none⟩) := by
    decide +kernel
  have hsplits : Along (step 2) SplitGuard (create false sampleFile blank) (fillBelow 15) := by
    decide +kernel
  rcases Option.map_eq_some_iff.mp hspec with ⟨⟨_, r'⟩, hr, rfl⟩
  rcases reachableFresh_of_run hr hsplits with ⟨t, hrun, hreach⟩
  exact ⟨_, t, hrun, hreach⟩

set_option maxRecDepth 100000 in
theorem fillBelow_rangeScan : ∃ t n, ReachableFresh sampleFile blank 0 t ∧
    t.lookup 9 = t.lookup 14 ∧ ∀ rounds, n ≤ rounds →
      ∃ res, t.rangeScan rounds 9 14 [] = some (.ok, res) ∧ RangeExact t 9 14 res := by
  have heval : ∀ x ∈ runOps (step 2) (create false sampleFile blank) (fillBelow 15),
      x.2.lookup 9 = x.2.lookup 14 := by
    decide +kernel
  rcases fillBelow_reachable with ⟨answers, t, hrun, hreach⟩
  have hsame := heval _ hrun
  rcases rangeScan_exact_iff hreach (by decide : 0 < 9) (by decide : 9 ≤ 14) with
    ⟨n, hn⟩
  refine ⟨t, n, hreach, hsame, ?_⟩
  intro rounds hr
  rcases hn rounds hr with ⟨res, hres, hiff⟩
  exact ⟨res, hres, hiff.mpr hsame⟩

set_option maxRecDepth 100000 in
/-- The keys `1 .. 7` are in the head and pushed twice, followed by its seven
empty slots. -/
theorem rangeScan_repeats : ∃ t res, ReachableFresh sampleFile blank 0 t ∧
    t.rangeScan 2 1 15 [] = some (.ok, res) ∧ ¬ RangeExact t 1 15 res := by
  have heval : ∀ x ∈ runOps (step 2) (create false sampleFile blank) (fillBelow 15),
      (x.2.rangeScan 2 1 15 []).map (fun r => (r.1, r.2.map Prod.fst)) =
        some (.ok, [1, 2, 3, 4, 5, 6, 7] ++ ([1, 2, 3, 4, 5, 6, 7] ++ List.replicate 7 0) ++
          [8, 9, 10, 11, 12, 13, 14, 15]) := by
    decide +kernel
  rcases fillBelow_reachable with ⟨answers, t, hrun, hreach⟩
  rcases Option.map_eq_some_iff.mp (heval _ hrun) with ⟨⟨st, res⟩, hres, heq⟩
  rcases Prod.mk.inj heq with ⟨hst, hkeys⟩
  simp only at hst hkeys
  subst hst
  refine ⟨t, res, hreach, hres, ?_⟩
  intro hex
  -- a slot with key `INVALID_KEY` was pushed
  have hzero : (0 : Nat) ∈ res.map Prod.fst := by
    rw [hkeys]
    decide
  rcases List.mem_map.mp hzero with ⟨x, hx, hx0⟩
  have := ((hex.mem_iff x).mp hx).1
  omega

end Fresh

end Tree

end Epli
