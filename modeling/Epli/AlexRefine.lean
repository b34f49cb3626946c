import Epli.AlexSearch

/-!
# A data node is an ordered list of entries

Every operation of a node keeps it well formed and does to its entries what its name says:
an insertion inserts behind the equal keys, an erasure erases, a rebuild changes nothing. The
models, the capacities and the decisions of the cost model may be any.
-/

namespace Epli.Alex

open Lib

variable {K P : Type} [LinearOrder K] [OrderTop K]

/-- In order of the keys. -/
abbrev Ordered (l : List (K × P)) : Prop := l.Pairwise fun a b => a.1 ≤ b.1

namespace DataNode

/-- What a node keeps from one operation to the next. -/
structure WellFormed (d : DataNode K P) : Prop extends d.Bits where
  gapped : Gapped d.dataCapacity d.checkExists d.keySlots
  count : d.entries.length = d.numKeys
  threshold : 0 < d.expansionThreshold ∧ d.expansionThreshold ≤ d.dataCapacity

variable {d d' : DataNode K P} {b : Build K P} {pos g n : Nat} {key : K} {payload : P}
  {pre l : List (K × P)} {x : K × P}

omit [OrderTop K] in
/-- Entries in order of their positions are in order of their keys. -/
theorem ordered_entries (h : ∀ i j, i ≤ j → j < d.dataCapacity → d.keySlots i ≤ d.keySlots j) :
    Ordered d.entries := by
  unfold Ordered entries Lib.entries
  rw [List.pairwise_filterMap]
  refine List.Pairwise.imp_of_mem ?_ (List.pairwise_lt_range' (s := 0) (n := d.dataCapacity - 0))
  intro i j hi hj hij y hy z hz
  rw [List.mem_range'_1] at hj
  split at hy
  · split at hz
    · cases hy
      cases hz
      exact h i j hij.le (by omega)
    · cases hz
  · cases hy

theorem WellFormed.ordered (h : d.WellFormed) : Ordered d.entries := ordered_entries h.gapped.sorted

/-! ## Building a node -/

/-- The entries `pre` have been laid out in `s`. -/
structure Placed (size : Nat) (s : Slots K P) (pre : List (K × P)) : Prop where
  laid : Laid size (bitAt s.bitmap) s.keySlots s.next
  entries : Lib.entries (bitAt s.bitmap) (fun i => (s.keySlots i, s.payloadSlots i)) 0 s.next = pre

omit [LinearOrder K] [OrderTop K] in
theorem Slots.put_keys (s : Slots K P) (hpos : s.next ≤ pos) (x : K × P) (i : Nat) :
    (s.put pos x).keySlots i = if s.next ≤ i ∧ i ≤ pos then x.1 else s.keySlots i := by
  unfold Slots.put
  by_cases hi : i = pos
  · rw [hi, if_pos ⟨hpos, le_rfl⟩]
    exact setLoc_self _ _ _
  · simp only [setLoc_ne _ _ hi, fillFrom_apply]
    by_cases hin : s.next ≤ i ∧ i ≤ pos
    · rw [if_pos hin, if_pos (by omega)]
    · rw [if_neg hin, if_neg (by omega)]

omit [OrderTop K] in
theorem Placed.put {size : Nat} {s : Slots K P} (h : Placed size s pre) (hpos : s.next ≤ pos)
    (hsize : pos < size) (hle : ∀ y ∈ pre, y.1 ≤ x.1) :
    Placed size (s.put pos x) (pre ++ [x]) := by
  have hkeys := s.put_keys hpos x
  have hbits : ∀ i, bitAt (s.put pos x).bitmap i = if i = pos then true else bitAt s.bitmap i :=
    bitAt_setBit s.bitmap pos
  have hpays : ∀ i, (s.put pos x).payloadSlots i = if i = pos then x.2 else s.payloadSlots i :=
    fun i => rfl
  constructor
  · refine h.laid.step hpos ?_ hkeys hbits
    intro i hi hf
    have hmem : (s.keySlots i, s.payloadSlots i) ∈ pre := by
      rw [← h.entries]
      exact mem_entries.mpr ⟨i, Nat.zero_le i, hi, hf, rfl⟩
    exact hle _ hmem
  · rw [← h.entries]
    exact h.laid.entries_step hpos hsize hkeys hbits hpays

omit [OrderTop K] in
/-- The rest of the store is filled contiguously. -/
theorem Placed.fill {size : Nat} : ∀ {l pre : List (K × P)} {s : Slots K P}, Placed size s pre →
    Ordered (pre ++ l) → s.next + l.length ≤ size →
      Placed size (l.foldl (fun s y => s.put s.next y) s) (pre ++ l) ∧
        (l.foldl (fun s y => s.put s.next y) s).next = s.next + l.length := by
  intro l
  induction l with
  | nil =>
    intro pre s h _ _
    rw [List.append_nil]
    exact ⟨h, rfl⟩
  | cons x l ih =>
    intro pre s h hord hsize
    rw [List.length_cons] at hsize
    have hle : ∀ y ∈ pre, y.1 ≤ x.1 :=
      fun y hy => (List.pairwise_append.mp hord).2.2 y hy x (List.mem_cons_self)
    have hput := h.put (x := x) le_rfl (by omega) hle
    rw [List.append_cons] at hord ⊢
    obtain ⟨hplaced, hnext⟩ := ih hput hord (by simp only [Slots.put]; omega)
    refine ⟨hplaced, ?_⟩
    rw [List.foldl_cons, hnext, List.length_cons]
    simp only [Slots.put]
    omega

omit [OrderTop K] in
/-- The model-based inserts lay out all entries, and they fit. -/
theorem Placed.place (predict : K → Int) {size capacity : Nat} (hcap : capacity ≤ size) :
    ∀ {l pre : List (K × P)} {s : Slots K P}, Placed size s pre → Ordered (pre ++ l) →
      s.next + l.length ≤ capacity →
        Placed size (place predict capacity l l.length s) (pre ++ l) ∧
          (place predict capacity l l.length s).next ≤ capacity := by
  intro l
  induction l with
  | nil =>
    intro pre s h _ hfit
    rw [List.append_nil]
    exact ⟨h, hfit⟩
  | cons x l ih =>
    intro pre s h hord hfit
    rw [List.length_cons] at hfit
    have hle : ∀ y ∈ pre, y.1 ≤ x.1 :=
      fun y hy => (List.pairwise_append.mp hord).2.2 y hy x (List.mem_cons_self)
    rw [List.append_cons] at hord ⊢
    unfold DataNode.place
    simp only [List.length_cons, Nat.add_sub_cancel]
    split
    · -- what remains fits exactly
      have hput : Placed size (s.put (capacity - (l.length + 1)) x) (pre ++ [x]) :=
        h.put (by omega) (by omega) hle
      obtain ⟨hplaced, hnext⟩ := hput.fill hord (by simp only [Slots.put]; omega)
      refine ⟨hplaced, ?_⟩
      rw [hnext]
      simp only [Slots.put]
      omega
    -- the model's position, unless that is taken already
    · have hput : Placed size (s.put (max (predict x.1).toNat s.next) x) (pre ++ [x]) :=
        h.put (by omega) (by omega) hle
      exact ih hput hord (by simp only [Slots.put]; omega)

/-- The node that all entries have been laid out for. -/
theorem Placed.node {s : Slots K P} (b : Build K P)
    (h : Placed (64 * bitmapWords (b.capacity l.length)) s l)
    (hnext : s.next ≤ b.capacity l.length) :
    (s.node b l.length).WellFormed ∧ (s.node b l.length).entries = l := by
  have hcap : l.length + 1 ≤ b.capacity l.length := Nat.le_max_right _ _
  have hwords : b.capacity l.length ≤ 64 * bitmapWords (b.capacity l.length) := by
    unfold bitmapWords
    omega
  -- behind the last key the sentinel is filled in
  have hkeys : ∀ i, (s.node b l.length).keySlots i =
      if s.next ≤ i ∧ i < b.capacity l.length then ⊤ else s.keySlots i := by
    intro i
    show fillFrom s.keySlots s.next ⊤ (b.capacity l.length - s.next) i = _
    rw [fillFrom_apply, show s.next + (b.capacity l.length - s.next) = b.capacity l.length by omega]
  have hexists : (s.node b l.length).checkExists = bitAt s.bitmap := by
    funext i
    exact checkExists_eq i
  have hentries : (s.node b l.length).entries = l := by
    unfold DataNode.entries
    rw [hexists]
    exact (h.laid.entries_gapped hnext hwords hkeys).trans h.entries
  refine ⟨⟨⟨rfl, ?_, ?_⟩, ?_, ?_, ?_⟩, hentries⟩
  · show 0 < b.capacity l.length
    omega
  · intro i hi hi'
    rw [hexists]
    exact h.laid.rest i (hnext.trans hi) hi'
  · rw [hexists]
    exact h.laid.gapped hnext hkeys
  · rw [hentries]
    rfl
  · unfold Slots.node
    simp only
    split <;> omega

/-- A new node is well formed and has the entries it was built from. -/
theorem build_spec (b : Build K P) (hord : Ordered l) :
    (build b l l.length).WellFormed ∧ (build b l l.length).entries = l := by
  have hwords : b.capacity l.length ≤ 64 * bitmapWords (b.capacity l.length) := by
    unfold bitmapWords
    omega
  have hvalues : (if l.length = 0 then [] else l) = l := by
    cases l with
    | nil => rfl
    | cons x l => rfl
  have hblank : Placed (64 * bitmapWords (b.capacity l.length)) (Slots.blank b l.length) [] := by
    constructor
    · refine Laid.zero fun i hi => ?_
      unfold bitAt Slots.blank
      simp only
      rw [if_pos (by omega), BitVec.getLsbD_zero]
    · exact entries_gaps fun i _ hi => absurd hi (Nat.not_lt_zero i)
  have hfit : (Slots.blank b l.length).next + l.length ≤ b.capacity l.length := by
    show 0 + l.length ≤ max b.scaled (l.length + 1)
    omega
  obtain ⟨hplaced, hnext⟩ := hblank.place b.predict hwords (l := l) hord hfit
  unfold build
  rw [hvalues]
  exact hplaced.node b hnext

theorem WellFormed.resize (h : d.WellFormed) (b : Build K P) :
    (d.resize b).WellFormed ∧ (d.resize b).entries = d.entries ∧
      (d.resize b).numKeys < (d.resize b).dataCapacity := by
  unfold DataNode.resize
  split
  · rename_i hzero
    refine ⟨h, rfl, ?_⟩
    rw [hzero]
    exact h.pos
  · have hvalues : d.values 0 d.dataCapacity = d.entries := h.values_eq le_rfl
    rw [hvalues, ← h.count]
    obtain ⟨hwell, hentries⟩ := build_spec b h.ordered
    refine ⟨hwell, hentries, ?_⟩
    show d.entries.length < max b.scaled (d.entries.length + 1)
    omega

theorem WellFormed.contract (h : d.WellFormed) (b : Build K P) :
    (d.contract b).WellFormed ∧ (d.contract b).entries = d.entries := by
  unfold DataNode.contract
  split
  · exact ⟨(h.resize b).1, (h.resize b).2.1⟩
  · exact ⟨h, rfl⟩

/-! ## Storing an entry -/

omit [LinearOrder K] [OrderTop K] in
/-- Only keys of gaps that lead up to the position are written. -/
theorem overwriteGaps_eq (key : K) : ∀ (pos : Nat) (d : DataNode K P),
    overwriteGaps key pos d = { d with keySlots := (overwriteGaps key pos d).keySlots } ∧
      (∀ j, (pos ≤ j ∨ ∃ i, j ≤ i ∧ i < pos ∧ d.checkExists i = true) →
        (overwriteGaps key pos d).keySlots j = d.keySlots j) ∧
      ∀ j < pos, (∀ i, j ≤ i → i < pos → d.checkExists i = false) →
        (overwriteGaps key pos d).keySlots j = key := by
  intro pos
  induction pos with
  | zero => exact fun d => ⟨rfl, fun _ _ => rfl, fun j hj => absurd hj (Nat.not_lt_zero j)⟩
  | succ pos ih =>
    intro d
    unfold overwriteGaps
    by_cases hf : d.checkExists pos = true
    · rw [if_pos hf]
      -- an entry at `pos` stops the loop
      refine ⟨rfl, fun _ _ => rfl, fun j hj hgaps => ?_⟩
      rw [hgaps pos (by omega) (by omega)] at hf
      cases hf
    · rw [if_neg hf]
      -- a gap is overwritten, and the loop goes on to its left
      obtain ⟨heq, hrest, hrun⟩ := ih { d with keySlots := setLoc d.keySlots pos key }
      refine ⟨heq, ?_, ?_⟩
      · rintro j (hj | ⟨i, hji, hi, hfi⟩)
        · rw [hrest j (Or.inl (by omega))]
          exact setLoc_ne _ _ (by omega)
        · have hne : i ≠ pos := by
            rintro rfl
            exact hf hfi
          rw [hrest j (Or.inr ⟨i, hji, by omega, hfi⟩)]
          exact setLoc_ne _ _ (by omega)
      · intro j hj hgaps
        by_cases hjp : j = pos
        · rw [hrest j (Or.inl (by omega)), hjp]
          exact setLoc_self _ _ _
        · exact hrun j (by omega) fun i hji hi => hgaps i hji (by omega)

/-- The node after an entry has been stored: the same but for the arrays. -/
structure Stored (d d' : DataNode K P) (pos : Nat) (key : K) (payload : P) : Prop where
  same : d' = { d with
    keySlots := d'.keySlots, payloadSlots := d'.payloadSlots, bitmap := d'.bitmap }
  keys : Written d.checkExists d.keySlots d'.keySlots key pos
  payloads : ∀ i, d'.payloadSlots i = if i = pos then payload else d.payloadSlots i
  exist : ∀ i, d'.checkExists i = if i = pos then true else d.checkExists i

omit [LinearOrder K] [OrderTop K] in
theorem insertElementAt_stored (d : DataNode K P) (key : K) (payload : P) (pos : Nat) :
    Stored d (d.insertElementAt key payload pos) pos key payload := by
  unfold insertElementAt
  generalize hd : { d with
      keySlots := setLoc d.keySlots pos key
      payloadSlots := setLoc d.payloadSlots pos payload
      bitmap := setBit d.bitmap pos } = d₁
  have hexist : ∀ i, d₁.checkExists i = if i = pos then true else d.checkExists i := by
    intro i
    rw [checkExists_eq, checkExists_eq, ← hd]
    exact bitAt_setBit d.bitmap pos i
  have hkeys : d₁.keySlots = setLoc d.keySlots pos key := by rw [← hd]
  obtain ⟨heq, hrest, hrun⟩ := overwriteGaps_eq key pos d₁
  refine ⟨?_, ⟨?_, ?_⟩, ?_, ?_⟩
  · rw [heq, ← hd]
  · intro j hj hgaps
    by_cases hjp : j = pos
    · rw [hrest j (Or.inl (by omega)), hkeys, hjp, setLoc_self]
    · refine hrun j (by omega) fun i hji hi => ?_
      rw [hexist, if_neg (by omega)]
      exact hgaps i hji hi
  · rintro j (hj | ⟨i, hji, hi, hf⟩)
    · rw [hrest j (Or.inl (by omega)), hkeys, setLoc_ne _ _ (by omega)]
    · rw [hrest j (Or.inr ⟨i, hji, hi, by rw [hexist, if_neg (by omega), hf]⟩), hkeys,
        setLoc_ne _ _ (by omega)]
  · intro i
    rw [heq, ← hd]
    rfl
  · intro i
    rw [← hexist]
    rw [checkExists_eq, checkExists_eq, heq]

theorem shiftUp_eq {α : Type} (pos : Nat) : ∀ (n : Nat) (a : Nat → α),
    shiftUp a pos n = shiftRight a pos (pos + n) := by
  intro n
  induction n with
  | zero =>
    intro a
    funext i
    exact (if_neg (by omega)).symm
  | succ n ih =>
    intro a
    rw [shiftUp, ih]
    funext i
    unfold shiftRight
    by_cases hlast : i = pos + n + 1
    · rw [hlast, if_neg (by omega), setLoc_self, if_pos (by omega)]
      rfl
    · rw [setLoc_ne _ _ hlast]
      by_cases hin : pos < i ∧ i ≤ pos + n
      · rw [if_pos hin, if_pos (by omega), setLoc_ne _ _ (by omega)]
      · rw [if_neg hin, if_neg (by omega)]

theorem shiftDown_eq {α : Type} : ∀ (n g : Nat) (a : Nat → α),
    shiftDown a g n = shiftLeft a g (g + n) := by
  intro n
  induction n with
  | zero =>
    intro g a
    funext i
    exact (if_neg (by omega)).symm
  | succ n ih =>
    intro g a
    rw [shiftDown, ih]
    funext i
    unfold shiftLeft
    by_cases hfirst : i = g
    · rw [hfirst, if_neg (by omega), setLoc_self, if_pos (by omega)]
    · rw [setLoc_ne _ _ hfirst]
      by_cases hin : g + 1 ≤ i ∧ i < g + 1 + n
      · rw [if_pos hin, if_pos (by omega), setLoc_ne _ _ (by omega)]
      · rw [if_neg hin, if_neg (by omega)]

/-- The key fits at its upper bound. -/
theorem first_fits {u : Nat} (h : Gapped d.dataCapacity d.checkExists d.keySlots)
    (hu : First (above d.keySlots key) d.dataCapacity u) :
    (∀ i < u, d.checkExists i = true → d.keySlots i ≤ key) ∧
      ∀ i, u ≤ i → i < d.dataCapacity → d.checkExists i = true → key < d.keySlots i :=
  ⟨fun _ hi _ => hu.le_of_lt hi, fun _ hi hi' _ => hu.lt_of_le h hi hi'⟩

/-- What an insertion has to achieve. -/
structure Inserted (d d' : DataNode K P) (pos : Nat) (key : K) (payload : P) : Prop where
  same : d' = { d with
    keySlots := d'.keySlots, payloadSlots := d'.payloadSlots, bitmap := d'.bitmap }
  gapped : Gapped d.dataCapacity d'.checkExists d'.keySlots
  entries : d'.entries = Multimap.insertList key payload d.entries
  lt : pos < d.dataCapacity
  exist : ∀ i, d.dataCapacity ≤ i → d'.checkExists i = d.checkExists i
  here : d'.checkExists pos = true ∧ d'.keySlots pos = key ∧ d'.payloadSlots pos = payload

/-- An entry stored in a gap between the upper bound and the next entry. -/
theorem WellFormed.store (h : d.WellFormed) {u : Nat}
    (hu : First (above d.keySlots key) d.dataCapacity u) (hpos : pos < d.dataCapacity)
    (hle : u ≤ pos) (hgaps : ∀ i, u ≤ i → i ≤ pos → d.checkExists i = false)
    (hs : Stored d d' pos key payload) : Inserted d d' pos key payload := by
  have hcap : d'.dataCapacity = d.dataCapacity := by rw [hs.same]
  have hbefore : ∀ i < pos, d.checkExists i = true → d.keySlots i ≤ key := by
    intro i hi hf
    by_cases hiu : i < u
    · exact hu.le_of_lt hiu
    · rw [hgaps i (by omega) hi.le] at hf
      cases hf
  refine ⟨hs.same, ?_, ?_, hpos, ?_, ?_⟩
  · exact (h.gapped.vacant pos).insert hbefore
      (fun i hi hi' => (hu.lt_of_le h.gapped (by omega) hi').le) hs.keys hpos hs.exist
  · obtain ⟨hlow, hhigh⟩ := first_fits h.gapped hu
    unfold DataNode.entries
    have hgap : Lib.entries d.checkExists (fun i => (d.keySlots i, d.payloadSlots i)) u (pos + 1) =
        [] := entries_gaps fun i hi hi' => hgaps i hi (by omega)
    have hgap' : Lib.entries d.checkExists (fun i => (d.keySlots i, d.payloadSlots i)) u pos =
        [] := entries_gaps fun i hi hi' => hgaps i hi (by omega)
    rw [hcap, hs.keys.entries_insert hpos hs.exist hs.payloads,
      insertList_entries hu.le hlow hhigh, entries_append (Nat.zero_le u) hle, hgap',
      List.append_nil, entries_append (show u ≤ pos + 1 by omega) hpos, hgap, List.nil_append]
  · intro i hi
    rw [hs.exist, if_neg (by omega)]
  · rw [hs.exist, if_pos rfl, hs.payloads, if_pos rfl]
    exact ⟨rfl, hs.keys.run pos le_rfl fun i hi hi' => absurd hi' (by omega), rfl⟩

/-- An entry stored in the position that a moved gap has left vacant. -/
theorem Stored.vacant {d₁ : DataNode K P} {filled : Nat → Bool}
    (hs : Stored d₁ d' pos key payload) (hv : Vacant d₁.dataCapacity filled d₁.keySlots pos)
    (hfilled : ∀ i, i ≠ pos → d₁.checkExists i = filled i)
    (hbelow : ∀ j < pos, filled j = true → d₁.keySlots j ≤ key)
    (habove : ∀ j, pos < j → j < d₁.dataCapacity → key ≤ d₁.keySlots j)
    (hpos : pos < d₁.dataCapacity) :
    Gapped d₁.dataCapacity d'.checkExists d'.keySlots ∧ d'.entries =
      Lib.entries filled (fun i => (d₁.keySlots i, d₁.payloadSlots i)) 0 pos ++ (key, payload) ::
        Lib.entries filled (fun i => (d₁.keySlots i, d₁.payloadSlots i)) (pos + 1)
          d₁.dataCapacity := by
  have hexist : ∀ i, d'.checkExists i = if i = pos then true else filled i := by
    intro i
    rw [hs.exist]
    by_cases hi : i = pos
    · rw [if_pos hi, if_pos hi]
    · rw [if_neg hi, if_neg hi, hfilled i hi]
  have hkeys : Written filled d₁.keySlots d'.keySlots key pos := by
    constructor
    · intro j hj hgaps
      refine hs.keys.run j hj fun i hji hi => ?_
      rw [hfilled i (by omega)]
      exact hgaps i hji hi
    · rintro j (hj | ⟨i, hji, hi, hf⟩)
      · exact hs.keys.rest j (Or.inl hj)
      · refine hs.keys.rest j (Or.inr ⟨i, hji, hi, ?_⟩)
        rw [hfilled i (by omega)]
        exact hf
  refine ⟨hv.insert hbelow habove hkeys hpos hexist, ?_⟩
  have hcap : d'.dataCapacity = d₁.dataCapacity := by rw [hs.same]
  unfold DataNode.entries
  rw [hcap]
  exact hkeys.entries_insert hpos hexist hs.payloads

/-- A gap behind the upper bound takes the entries between them, one position each. -/
theorem WellFormed.shift_right (h : d.WellFormed) {u : Nat}
    (hu : First (above d.keySlots key) d.dataCapacity u) (hug : u < g) (hg : g < d.dataCapacity)
    (hgap : d.checkExists g = false) (hfull : ∀ i, u ≤ i → i < g → d.checkExists i = true)
    (hs : Stored { d with
      bitmap := setBit d.bitmap g
      keySlots := shiftUp d.keySlots u (g - u)
      payloadSlots := shiftUp d.payloadSlots u (g - u) } d' u key payload) :
    Inserted d d' u key payload := by
  -- the loop of the source is the shift of the library
  have hkeys : shiftUp d.keySlots u (g - u) = shiftRight d.keySlots u g := by
    rw [shiftUp_eq, show u + (g - u) = g by omega]
  have hpays : shiftUp d.payloadSlots u (g - u) = shiftRight d.payloadSlots u g := by
    rw [shiftUp_eq, show u + (g - u) = g by omega]
  rw [hkeys, hpays] at hs
  obtain ⟨hlow, hhigh⟩ := first_fits h.gapped hu
  -- the gap's bit is set; that of `u` is set by the insertion itself
  have hfilled : ∀ i, i ≠ u → bitAt (setBit d.bitmap g) i = moveGap d.checkExists g u i := by
    intro i hi
    unfold moveGap
    rw [bitAt_setBit, if_neg hi, checkExists_eq]
  have hbelow : ∀ j < u, moveGap d.checkExists g u j = true →
      shiftRight d.keySlots u g j ≤ key := by
    intro j hj _
    rw [shiftRight_before hj.le]
    exact hu.le_of_lt hj
  have habove : ∀ j, u < j → j < d.dataCapacity → key ≤ shiftRight d.keySlots u g j := by
    intro j hj hj'
    unfold shiftRight
    split
    · exact (hu.lt_of_le h.gapped (by omega) (by omega)).le
    · exact (hu.lt_of_le h.gapped (by omega) hj').le
  obtain ⟨hgapped, hentries⟩ := hs.vacant (h.gapped.vacant_shiftRight hfull)
    (fun i hi => (checkExists_eq i).trans (hfilled i hi)) hbelow habove (hug.trans hg)
  -- the entries before `u` and those behind it, with the new one in between
  obtain ⟨hbefore, hbehind⟩ := entries_shiftRight
    (a := fun i => (d.keySlots i, d.payloadSlots i)) hfull hug.le hg hgap
  have hpair : ∀ i, (shiftRight d.keySlots u g i, shiftRight d.payloadSlots u g i) =
      shiftRight (fun i => (d.keySlots i, d.payloadSlots i)) u g i := by
    intro i
    unfold shiftRight
    split <;> rfl
  refine ⟨?_, hgapped, ?_, hug.trans hg, ?_, ?_⟩
  · rw [hs.same]
  · rw [hentries]
    simp only [hpair]
    rw [hbefore, hbehind]
    exact (insertList_entries hu.le hlow hhigh).symm
  · intro i hi
    rw [hs.exist, if_neg (by omega), checkExists_eq, checkExists_eq, bitAt_setBit,
      if_neg (by omega)]
  · rw [hs.exist, if_pos rfl, hs.payloads, if_pos rfl]
    exact ⟨rfl, hs.keys.run u le_rfl fun i hi hi' => absurd hi' (by omega), rfl⟩

/-- A gap before the upper bound takes the entries between them. -/
theorem WellFormed.shift_left (h : d.WellFormed) {u : Nat}
    (hu : First (above d.keySlots key) d.dataCapacity u) (hgu : g < u)
    (hgap : d.checkExists g = false) (hfull : ∀ i, g < i → i < u → d.checkExists i = true)
    (hs : Stored { d with
      bitmap := setBit d.bitmap g
      keySlots := shiftDown d.keySlots g (u - 1 - g)
      payloadSlots := shiftDown d.payloadSlots g (u - 1 - g) } d' (u - 1) key payload) :
    Inserted d d' (u - 1) key payload := by
  have hle := hu.le
  have hcap : u - 1 < d.dataCapacity := by omega
  -- the mirror image: the keys up to `u - 1` move down by one
  have hkeys : shiftDown d.keySlots g (u - 1 - g) = shiftLeft d.keySlots g (u - 1) := by
    rw [shiftDown_eq, show g + (u - 1 - g) = u - 1 by omega]
  have hpays : shiftDown d.payloadSlots g (u - 1 - g) = shiftLeft d.payloadSlots g (u - 1) := by
    rw [shiftDown_eq, show g + (u - 1 - g) = u - 1 by omega]
  rw [hkeys, hpays] at hs
  obtain ⟨hlow, hhigh⟩ := first_fits h.gapped hu
  have hfull' : ∀ i, g < i → i ≤ u - 1 → d.checkExists i = true :=
    fun i hi hi' => hfull i hi (by omega)
  have hfilled : ∀ i, i ≠ u - 1 →
      bitAt (setBit d.bitmap g) i = moveGap d.checkExists g (u - 1) i := by
    intro i hi
    unfold moveGap
    rw [bitAt_setBit, if_neg hi, checkExists_eq]
  have hbelow : ∀ j < u - 1, moveGap d.checkExists g (u - 1) j = true →
      shiftLeft d.keySlots g (u - 1) j ≤ key := by
    intro j hj _
    unfold shiftLeft
    split
    · exact hu.le_of_lt (by omega)
    · exact hu.le_of_lt (by omega)
  have habove : ∀ j, u - 1 < j → j < d.dataCapacity →
      key ≤ shiftLeft d.keySlots g (u - 1) j := by
    intro j hj hj'
    rw [shiftLeft_behind hj.le]
    exact (hu.lt_of_le h.gapped (by omega) hj').le
  obtain ⟨hgapped, hentries⟩ := hs.vacant
    (h.gapped.vacant_shiftLeft (by omega) hcap hgap hfull')
    (fun i hi => (checkExists_eq i).trans (hfilled i hi)) hbelow habove hcap
  -- what is before the new entry now starts one position earlier
  obtain ⟨hbefore, hbehind⟩ := entries_shiftLeft d.dataCapacity
    (a := fun i => (d.keySlots i, d.payloadSlots i)) hfull' (by omega) hgap
  have hpair : ∀ i, (shiftLeft d.keySlots g (u - 1) i, shiftLeft d.payloadSlots g (u - 1) i) =
      shiftLeft (fun i => (d.keySlots i, d.payloadSlots i)) g (u - 1) i := by
    intro i
    unfold shiftLeft
    split <;> rfl
  refine ⟨?_, hgapped, ?_, hcap, ?_, ?_⟩
  · rw [hs.same]
  · rw [hentries]
    simp only [hpair]
    rw [hbefore, hbehind, show u - 1 + 1 = u by omega]
    exact (insertList_entries hle hlow hhigh).symm
  · intro i hi
    rw [hs.exist, if_neg (by omega), checkExists_eq, checkExists_eq, bitAt_setBit,
      if_neg (by omega)]
  · rw [hs.exist, if_pos rfl, hs.payloads, if_pos rfl]
    exact ⟨rfl, hs.keys.run _ le_rfl fun i hi hi' => absurd hi' (by omega), rfl⟩

/-- `insert_using_shifts` finds a gap, if there are fewer keys than positions. -/
theorem WellFormed.insertUsingShifts (h : d.WellFormed) {u : Nat}
    (hu : First (above d.keySlots key) d.dataCapacity u) (payload : P)
    (hfull : u < d.dataCapacity → d.checkExists u = true) (hroom : d.numKeys < d.dataCapacity) :
    ∃ d' pos, d.insertUsingShifts key payload u = some (d', pos) ∧
      Inserted d d' pos key payload := by
  have hle := hu.le
  have hfound := h.closestGap_found u
  unfold DataNode.insertUsingShifts
  cases hg : d.closestGap u with
  | none =>
    -- there are fewer keys than positions, so there is a gap
    rw [hg] at hfound
    rw [← h.count] at hroom
    have hfew : (Lib.entries d.checkExists (fun i => (d.keySlots i, d.payloadSlots i)) 0
        d.dataCapacity).length < d.dataCapacity - 0 := hroom
    obtain ⟨i, _, hi, hf⟩ := exists_gap hfew
    rw [hfound i hi] at hf
    cases hf
  | some g =>
    rw [hg] at hfound
    have hlt := hfound.lt
    have hgap := hfound.gap
    have hbetween : ∀ i, g < i ∧ i ≤ min u (d.dataCapacity - 1) ∨
        min u (d.dataCapacity - 1) ≤ i ∧ i < g → d.checkExists i = true :=
      fun i hi => hfound.between (by omega) hi
    simp only
    split
    -- the gap is to the right; position `u` itself holds an entry
    · have hne : g ≠ u := by
        rintro rfl
        rw [hfull hlt] at hgap
        cases hgap
      refine ⟨_, _, rfl, h.shift_right hu (by omega) hlt hgap (fun i hi hi' => ?_)
        (insertElementAt_stored _ _ _ _)⟩
      exact hbetween i (by omega)
    · refine ⟨_, _, rfl, h.shift_left hu (by omega) hgap (fun i hi hi' => ?_)
        (insertElementAt_stored _ _ _ _)⟩
      exact hbetween i (by omega)

/-! ## Insert -/

/-- A key goes to its upper bound, or to a gap behind it that no entry comes before. -/
theorem WellFormed.findInsertPosition (h : d.WellFormed) (key : K) :
    (d.findInsertPosition key).1 = d.upperBound key ∨
      d.upperBound key ≤ (d.findInsertPosition key).1 ∧
        (d.findInsertPosition key).1 < d.dataCapacity ∧
        ∀ i, d.upperBound key ≤ i → i ≤ (d.findInsertPosition key).1 →
          d.checkExists i = false := by
  have hpred := predictPosition_lt h.pos key
  have heq : d.findInsertPosition key =
      if d.predictPosition key ≤ d.upperBound key ∨ d.checkExists (d.upperBound key) = true then
        (d.upperBound key, d.upperBound key)
      else (min (d.predictPosition key) (d.getNextFilledPosition (d.upperBound key) true - 1),
        d.upperBound key) := rfl
  rw [heq]
  split
  · exact Or.inl rfl
  · rename_i hno
    have hlt : d.upperBound key < d.predictPosition key := by
      by_contra hle
      exact hno (Or.inl (by omega))
    have hgap : d.checkExists (d.upperBound key) = false := by
      by_contra hf
      exact hno (Or.inr (by simpa using hf))
    have hnext := h.nextFilled_exclusive (hlt.trans hpred)
    have hle := hnext.le
    right
    simp only
    refine ⟨by omega, by omega, fun i hi hi' => ?_⟩
    rcases Nat.lt_or_eq_of_le hi with hlt' | heq
    · exact hnext.between i hlt' (by omega) (by omega)
    · rw [← heq]
      exact hgap

/-- A node with one entry more. -/
theorem Inserted.wellFormed (h : d.WellFormed) (hi : Inserted d d' pos key payload) :
    ({ d' with numKeys := d'.numKeys + 1 } : DataNode K P).WellFormed := by
  have hcap : d'.dataCapacity = d.dataCapacity := by rw [hi.same]
  have hsize : d'.bitmapSize = d.bitmapSize := by rw [hi.same]
  refine ⟨⟨?_, ?_, ?_⟩, ?_, ?_, ?_⟩
  · show d'.bitmapSize = bitmapWords d'.dataCapacity
    rw [hsize, hcap]
    exact h.size
  · show 0 < d'.dataCapacity
    rw [hcap]
    exact h.pos
  · intro i hi' hi''
    change d'.dataCapacity ≤ i at hi'
    change i < 64 * d'.bitmapSize at hi''
    rw [hcap] at hi'
    rw [hsize] at hi''
    exact (hi.exist i hi').trans (h.clear i hi' hi'')
  · show Gapped d'.dataCapacity d'.checkExists d'.keySlots
    rw [hcap]
    exact hi.gapped
  · show d'.entries.length = d'.numKeys + 1
    rw [hi.entries, (Multimap.insertList_perm key payload d.entries).length_eq, hi.same,
      List.length_cons, h.count]
  · show 0 < d'.expansionThreshold ∧ d'.expansionThreshold ≤ d'.dataCapacity
    rw [hi.same]
    exact h.threshold

/-- `insert` of a node that has room: the entry comes behind the keys that equal it. -/
theorem WellFormed.insertRoom (h : d.WellFormed) (key : K) (payload : P)
    (hroom : d.numKeys < d.dataCapacity) :
    ∃ d' pos, d.insertRoom key payload = some (d', pos) ∧ d'.WellFormed ∧
      d'.entries = Multimap.insertList key payload d.entries ∧ pos < d'.dataCapacity ∧
      d'.checkExists pos = true ∧ d'.keySlots pos = key ∧ d'.payloadSlots pos = payload := by
  have hu := upperBound_first h.gapped h.pos key
  -- the insertion in place or by shifts, and one more key counted
  have hunfold : d.insertRoom key payload =
      (if (d.findInsertPosition key).1 < d.dataCapacity ∧
          d.checkExists (d.findInsertPosition key).1 = false then
        some (d.insertElementAt key payload (d.findInsertPosition key).1,
          (d.findInsertPosition key).1)
      else d.insertUsingShifts key payload (d.findInsertPosition key).1).map
        fun r => ({ r.1 with numKeys := r.1.numKeys + 1 }, r.2) := rfl
  have hinserted : ∃ d' pos, (if (d.findInsertPosition key).1 < d.dataCapacity ∧
      d.checkExists (d.findInsertPosition key).1 = false then
        some (d.insertElementAt key payload (d.findInsertPosition key).1,
          (d.findInsertPosition key).1)
      else d.insertUsingShifts key payload (d.findInsertPosition key).1) = some (d', pos) ∧
        Inserted d d' pos key payload := by
    split
    · rename_i hgap
      refine ⟨_, _, rfl, ?_⟩
      -- a gap at the upper bound, or the middle of the gaps before it
      rcases h.findInsertPosition key with heq | ⟨hle, hlt, hgaps⟩
      · refine h.store hu hgap.1 heq.ge (fun i hi hi' => ?_) (insertElementAt_stored _ _ _ _)
        rw [show i = (d.findInsertPosition key).1 by omega]
        exact hgap.2
      · exact h.store hu hlt hle hgaps (insertElementAt_stored _ _ _ _)
    · rename_i hno
      -- no gap there: the position found is the upper bound
      rcases h.findInsertPosition key with heq | ⟨hle, hlt, hgaps⟩
      · rw [heq] at hno ⊢
        refine h.insertUsingShifts hu payload (fun hlt => ?_) hroom
        by_contra hf
        exact hno ⟨hlt, by simpa using hf⟩
      · exact absurd ⟨hlt, hgaps _ hle le_rfl⟩ hno
  obtain ⟨d', pos, heq, hi⟩ := hinserted
  have hcap : d'.dataCapacity = d.dataCapacity := by rw [hi.same]
  refine ⟨_, pos, ?_, hi.wellFormed h, hi.entries, ?_, hi.here⟩
  · rw [hunfold, heq]
    rfl
  · show pos < d'.dataCapacity
    rw [hcap]
    exact hi.lt

/-- `insert`: a fail flag and nothing done, or the entry inserted. -/
theorem WellFormed.insert (h : d.WellFormed) (c : Costs) (b : Build K P) (key : K)
    (payload : P) : match c.fail d with
    | some flag => d.insert c b key payload = some (d, .error flag)
    | none => ∃ d' pos, d.insert c b key payload = some (d', .ok pos) ∧ d'.WellFormed ∧
        d'.entries = Multimap.insertList key payload d.entries ∧ pos < d'.dataCapacity ∧
        d'.checkExists pos = true ∧ d'.keySlots pos = key ∧ d'.payloadSlots pos = payload := by
  unfold DataNode.insert
  cases c.fail d with
  | some flag => rfl
  | none =>
    have hroom : ∃ room : DataNode K P,
        (if d.numKeys < d.expansionThreshold then d else d.resize b) = room ∧ room.WellFormed ∧
          room.entries = d.entries ∧ room.numKeys < room.dataCapacity := by
      split
      · rename_i hlt
        exact ⟨d, rfl, h, rfl, hlt.trans_le h.threshold.2⟩
      · exact ⟨_, rfl, h.resize b⟩
    obtain ⟨room, heq, hwell, hentries, hlt⟩ := hroom
    obtain ⟨d', pos, hins, hwell', hentries', hrest⟩ := hwell.insertRoom key payload hlt
    refine ⟨d', pos, ?_, hwell', ?_, hrest⟩
    · simp only
      rw [heq, hins]
      rfl
    · rw [hentries', hentries]

/-- The first entry of a node with one slot goes to that slot. -/
theorem WellFormed.insert_only (h : d.WellFormed) (hcap : d.dataCapacity = 1)
    (hempty : d.entries = []) {c : Costs} (hcost : c.fail d = none) (b : Build K P)
    (hkey : key < ⊤) (payload : P) : ∃ d', d.insert c b key payload = some (d', .ok 0) ∧
      d'.WellFormed ∧ d'.entries = [(key, payload)] ∧
      d'.contractionThreshold = d.contractionThreshold ∧ d'.payloadSlots 0 = payload := by
  have hnum : d.numKeys = 0 := by rw [← h.count, hempty, List.length_nil]
  have hlt : d.numKeys < d.expansionThreshold := by
    rw [hnum]
    exact h.threshold.1
  -- the one slot is a gap, so its key is `kEndSentinel_`
  have hgap : d.checkExists 0 = false := by
    by_contra hf
    have hmem : (d.keySlots 0, d.payloadSlots 0) ∈ d.entries :=
      mem_entries.mpr ⟨0, Nat.zero_le _, h.pos, by simpa using hf, rfl⟩
    rw [hempty] at hmem
    cases hmem
  have htop : d.keySlots 0 = ⊤ := by
    rw [h.gapped.gap 0 h.pos hgap, nextKey, if_neg (by omega)]
  have hzero : d.upperBound key = 0 := by
    by_contra hne
    have hbelow := (upperBound_first h.gapped h.pos key).below 0 (Nat.pos_of_ne_zero hne)
    rw [above, htop] at hbelow
    simp [hkey] at hbelow
  have hpos : (d.findInsertPosition key).1 = 0 := by
    rcases h.findInsertPosition key with heq | ⟨_, hlt, _⟩
    · exact heq.trans hzero
    · omega
  have hstore : d.insert c b key payload = some ({ d.insertElementAt key payload 0 with
      numKeys := (d.insertElementAt key payload 0).numKeys + 1 }, .ok 0) := by
    unfold DataNode.insert
    rw [hcost]
    simp only
    rw [if_pos hlt]
    unfold DataNode.insertRoom
    simp only
    rw [hpos, if_pos ⟨h.pos, hgap⟩]
    rfl
  have hins := h.insert c b key payload
  rw [hcost] at hins
  obtain ⟨d', pos, heq, hwell, hentries, _⟩ := hins
  cases hstore.symm.trans heq
  have hst := insertElementAt_stored d key payload 0
  refine ⟨_, hstore, hwell, ?_, ?_, ?_⟩
  · rw [hentries, hempty]
    rfl
  · show (d.insertElementAt key payload 0).contractionThreshold = _
    rw [hst.same]
  · exact (hst.payloads 0).trans (if_pos rfl)

/-! ## Lookup -/

/-- The entries before the upper bound of a key and those from there on. -/
theorem WellFormed.cut (h : d.WellFormed) (key : K) :
    ∃ pre post, d.entries = pre ++ post ∧ (∀ x ∈ pre, x.1 ≤ key) ∧ (∀ x ∈ post, key < x.1) ∧
      pre = Lib.entries d.checkExists (fun i => (d.keySlots i, d.payloadSlots i)) 0
        (d.upperBound key) := by
  have hu := upperBound_first h.gapped h.pos key
  refine ⟨_, _, entries_append (Nat.zero_le _) hu.le, ?_, ?_, rfl⟩
  · intro x hx
    obtain ⟨i, _, hi, _, rfl⟩ := mem_entries.mp hx
    exact hu.le_of_lt hi
  · intro x hx
    obtain ⟨i, hi, hi', _, rfl⟩ := mem_entries.mp hx
    exact hu.lt_of_le h.gapped hi hi'

/-- The position before the upper bound has the last entry whose key is at most `key`, if there
is a position. -/
theorem WellFormed.floor (h : d.WellFormed) (hkey : key < ⊤) :
    if d.upperBound key = 0 then ∀ x ∈ d.entries, key < x.1
    else ∃ pre post, d.entries = pre ++ (d.keySlots (d.upperBound key - 1),
        d.payloadSlots (d.upperBound key - 1)) :: post ∧
      (∀ x ∈ pre, x.1 ≤ key) ∧ d.keySlots (d.upperBound key - 1) ≤ key ∧
      ∀ x ∈ post, key < x.1 := by
  have hu := upperBound_first h.gapped h.pos key
  obtain ⟨pre, post, heq, hpre, hpost, hcut⟩ := h.cut key
  split
  · rename_i hzero
    rw [hzero, entries_gaps fun i _ hi => absurd hi (Nat.not_lt_zero i)] at hcut
    rw [heq, hcut]
    exact hpost
  · rename_i hne
    have hf := h.gapped.filled_before hu (by omega) hkey
    have hlast : pre = Lib.entries d.checkExists (fun i => (d.keySlots i, d.payloadSlots i)) 0
        (d.upperBound key - 1) ++
          [(d.keySlots (d.upperBound key - 1), d.payloadSlots (d.upperBound key - 1))] := by
      have hsplit := entries_split (f := fun i => (d.keySlots i, d.payloadSlots i)) hf
        (Nat.zero_le _) (show d.upperBound key - 1 < d.upperBound key by omega)
      have hnil : Lib.entries d.checkExists (fun i => (d.keySlots i, d.payloadSlots i))
          (d.upperBound key - 1 + 1) (d.upperBound key) = [] :=
        entries_gaps fun i hi hi' => absurd hi' (by omega)
      rw [hcut, hsplit, hnil]
    rw [heq, hlast, List.append_assoc, List.singleton_append]
    refine ⟨_, post, rfl, ?_, hu.le_of_lt (by omega), hpost⟩
    intro x hx
    refine hpre x ?_
    rw [hlast]
    exact List.mem_append_left _ hx

/-- `find_key` finds the last entry of the key, and there is none if it finds none. -/
theorem WellFormed.findKey (h : d.WellFormed) (hkey : key < ⊤) : match d.findKey key with
    | some pos => ∃ pre post, d.entries = pre ++ (key, d.payloadSlots pos) :: post ∧
        ∀ x ∈ post, key < x.1
    | none => ∀ x ∈ d.entries, x.1 ≠ key := by
  have hfloor := h.floor hkey
  have heq : d.findKey key = if d.upperBound key = 0 then none
      else if d.keySlots (d.upperBound key - 1) = key then some (d.upperBound key - 1)
      else none := rfl
  rw [heq]
  by_cases hzero : d.upperBound key = 0
  · rw [if_pos hzero] at hfloor ⊢
    exact fun x hx => (hfloor x hx).ne'
  · rw [if_neg hzero] at hfloor ⊢
    obtain ⟨pre, post, hsplit, hpre, hle, hpost⟩ := hfloor
    by_cases hhere : d.keySlots (d.upperBound key - 1) = key
    · rw [if_pos hhere]
      rw [hhere] at hsplit
      exact ⟨pre, post, hsplit, hpost⟩
    · rw [if_neg hhere]
      intro x hx
      have hord := h.ordered
      rw [hsplit] at hx hord
      rcases List.mem_append.mp hx with hx | hx
      · have hlt := (List.pairwise_append.mp hord).2.2 x hx _ List.mem_cons_self
        exact (hlt.trans_lt (lt_of_le_of_ne hle hhere)).ne
      · rcases List.mem_cons.mp hx with rfl | hx
        · exact hhere
        · exact (hpost x hx).ne'

/-! ## Erase -/

omit [LinearOrder K] [OrderTop K] in
/-- The erasing loop stops at the first key, from above, that fails the test. -/
theorem eraseDown_eq (test : K → Bool) (nextKey : K) : ∀ (u : Nat) (d : DataNode K P), ∃ lo ≤ u,
    (∀ i, lo ≤ i → i < u → test (d.keySlots i) = true) ∧
      (∀ i, i + 1 = lo → test (d.keySlots i) = false) ∧
      (eraseDown test nextKey u d).2 =
        (Lib.entries d.checkExists (fun i => (d.keySlots i, d.payloadSlots i)) lo u).length ∧
      (eraseDown test nextKey u d).1 = { d with
        keySlots := (eraseDown test nextKey u d).1.keySlots
        bitmap := (eraseDown test nextKey u d).1.bitmap } ∧
      (∀ i, (eraseDown test nextKey u d).1.keySlots i =
        if lo ≤ i ∧ i < u then nextKey else d.keySlots i) ∧
      ∀ i, (eraseDown test nextKey u d).1.checkExists i =
        if lo ≤ i ∧ i < u then false else d.checkExists i := by
  intro u
  induction u with
  | zero =>
    intro d
    refine ⟨0, le_rfl, fun i _ hi => absurd hi (Nat.not_lt_zero i), fun i hi => by omega, rfl, rfl,
      fun i => ?_, fun i => ?_⟩
    · rw [if_neg (by omega)]
      rfl
    · rw [if_neg (by omega)]
      rfl
  | succ u ih =>
    intro d
    unfold eraseDown
    by_cases htest : test (d.keySlots u) = true
    · rw [if_pos htest]
      -- position `u` becomes a gap with the key behind the range
      generalize hd : { d with
        keySlots := setLoc d.keySlots u nextKey, bitmap := unsetBit d.bitmap u } = d₁
      have hkeys : ∀ i < u, d₁.keySlots i = d.keySlots i := by
        intro i hi
        rw [← hd]
        exact setLoc_ne _ _ (by omega)
      have hexist : ∀ i, d₁.checkExists i = if i = u then false else d.checkExists i := by
        intro i
        rw [checkExists_eq, checkExists_eq, ← hd]
        exact bitAt_unsetBit d.bitmap u i
      have hpays : d₁.payloadSlots = d.payloadSlots := by rw [← hd]
      obtain ⟨lo, hle, hall, hstop, hcount, hsame, hkeys', hexist'⟩ := ih d₁
      refine ⟨lo, by omega, ?_, ?_, ?_, ?_, ?_, ?_⟩
      · intro i hi hi'
        rcases Nat.lt_succ_iff_lt_or_eq.mp hi' with hlt | heq
        · rw [← hkeys i hlt]
          exact hall i hi hlt
        · rw [heq]
          exact htest
      · intro i hi
        rw [← hkeys i (by omega)]
        exact hstop i hi
      -- a gap among the positions erased is not counted
      · have hlast : (Lib.entries d.checkExists (fun i => (d.keySlots i, d.payloadSlots i)) u
            (u + 1)).length = if d.checkExists u = true then 1 else 0 := by
          split
          · rename_i hf
            rw [entries_single hf]
            rfl
          · rename_i hf
            rw [entries_gaps fun i hi hi' => ?_]
            · rfl
            · rw [show i = u by omega]
              simpa using hf
        simp only
        rw [entries_append hle (Nat.le_succ u), List.length_append, hlast, hcount]
        congr 2
        refine entries_congr (fun i _ hi => ?_) fun i _ hi _ => ?_
        · rw [hexist, if_neg (by omega)]
        · rw [hkeys i hi, hpays]
      · simp only
        rw [hsame, ← hd]
      · intro i
        simp only
        rw [hkeys']
        by_cases hin : lo ≤ i ∧ i < u
        · rw [if_pos hin, if_pos (by omega)]
        · rw [if_neg hin, ← hd]
          by_cases hi : i = u
          · rw [if_pos (by omega), hi]
            exact setLoc_self _ _ _
          · rw [if_neg (by omega)]
            exact setLoc_ne _ _ hi
      · intro i
        simp only
        rw [hexist', hexist]
        by_cases hin : lo ≤ i ∧ i < u
        · rw [if_pos hin, if_pos (by omega)]
        · rw [if_neg hin]
          by_cases hi : i = u
          · rw [if_pos hi, if_pos (by omega)]
          · rw [if_neg hi, if_neg (by omega)]
    -- the first key that fails the test ends the loop
    · rw [if_neg htest]
      refine ⟨u + 1, le_rfl, fun i hi hi' => absurd hi' (by omega), fun i hi => ?_, ?_, rfl,
        fun i => ?_, fun i => ?_⟩
      · rw [show i = u by omega]
        simpa using htest
      · rw [entries_gaps fun i hi hi' => absurd hi' (by omega)]
        rfl
      · rw [if_neg (by omega)]
      · rw [if_neg (by omega)]

/-- The keys of a range that ends at `u` are erased. Before `u`, the test holds from some key
on; it is `inRange` there. -/
theorem WellFormed.eraseBefore (h : d.WellFormed) (b : Build K P) {test : K → Bool}
    (inRange : K → Prop) [DecidablePred inRange] {u : Nat} (hu : u ≤ d.dataCapacity)
    (htest : ∀ i < u, test (d.keySlots i) = true ↔ inRange (d.keySlots i))
    (hrise : ∀ i j, i ≤ j → j < u → test (d.keySlots i) = true → test (d.keySlots j) = true)
    (hbehind : ∀ i, u ≤ i → i < d.dataCapacity → ¬inRange (d.keySlots i)) :
    (d.eraseBefore b test u).1.WellFormed ∧
      (d.eraseBefore b test u).1.entries = d.entries.filter (fun x => ¬inRange x.1) ∧
      (d.eraseBefore b test u).2 = (d.entries.filter fun x => inRange x.1).length := by
  obtain ⟨lo, hle, hall, hstop, hcount, hsame, hkeys, hexist⟩ := eraseDown_eq test
    (if u = d.dataCapacity then ⊤ else d.keySlots u) u d
  unfold DataNode.eraseBefore
  simp only
  generalize eraseDown test (if u = d.dataCapacity then ⊤ else d.keySlots u) u d = r
    at hcount hsame hkeys hexist
  have hlow : ∀ i < lo, ¬inRange (d.keySlots i) := by
    intro i hi hin
    have htrue := hrise i (lo - 1) (by omega) (by omega) ((htest i (by omega)).mpr hin)
    rw [hstop (lo - 1) (by omega)] at htrue
    cases htrue
  have hless : ∀ i, i + 1 = lo → lo < u → d.keySlots i < d.keySlots lo := by
    intro i hi hlu
    refine lt_of_le_of_ne (h.gapped.sorted i lo (by omega) (by omega)) fun heq => ?_
    have hfalse := hstop i hi
    rw [heq, hall lo le_rfl hlu] at hfalse
    cases hfalse
  have hkeys' : ∀ i, r.1.keySlots i = if lo ≤ i ∧ i < u then
      (if u < d.dataCapacity then d.keySlots u else ⊤) else d.keySlots i := by
    intro i
    rw [hkeys]
    by_cases hcap : u = d.dataCapacity
    · rw [if_pos hcap, if_neg (show ¬u < d.dataCapacity by omega)]
    · rw [if_neg hcap, if_pos (show u < d.dataCapacity by omega)]
  -- what is before `lo` and what is behind `u` stays, what is between them goes
  have hsplit : d.entries =
      Lib.entries d.checkExists (fun i => (d.keySlots i, d.payloadSlots i)) 0 lo ++
        Lib.entries d.checkExists (fun i => (d.keySlots i, d.payloadSlots i)) lo u ++
        Lib.entries d.checkExists (fun i => (d.keySlots i, d.payloadSlots i)) u d.dataCapacity := by
    unfold DataNode.entries
    rw [entries_append (Nat.zero_le u) hu, entries_append (Nat.zero_le lo) hle]
  have hout : ∀ x ∈ Lib.entries d.checkExists (fun i => (d.keySlots i, d.payloadSlots i)) 0 lo ++
      Lib.entries d.checkExists (fun i => (d.keySlots i, d.payloadSlots i)) u d.dataCapacity,
      ¬inRange x.1 := by
    intro x hx
    rcases List.mem_append.mp hx with hx | hx
    · obtain ⟨i, _, hi, _, rfl⟩ := mem_entries.mp hx
      exact hlow i hi
    · obtain ⟨i, hi, hi', _, rfl⟩ := mem_entries.mp hx
      exact hbehind i hi hi'
  have hin : ∀ x ∈ Lib.entries d.checkExists (fun i => (d.keySlots i, d.payloadSlots i)) lo u,
      inRange x.1 := by
    intro x hx
    obtain ⟨i, hi, hi', _, rfl⟩ := mem_entries.mp hx
    exact (htest i hi').mp (hall i hi hi')
  rw [List.forall_mem_append] at hout
  have hkept : d.entries.filter (fun x => ¬inRange x.1) =
      Lib.entries d.checkExists (fun i => (d.keySlots i, d.payloadSlots i)) 0 lo ++
        Lib.entries d.checkExists (fun i => (d.keySlots i, d.payloadSlots i)) u
          d.dataCapacity := by
    rw [hsplit, List.filter_append, List.filter_append,
      List.filter_eq_self.mpr fun x hx => decide_eq_true (hout.1 x hx),
      List.filter_eq_self.mpr fun x hx => decide_eq_true (hout.2 x hx),
      List.filter_eq_nil_iff.mpr fun x hx => ?_, List.append_nil]
    rw [decide_eq_true_eq, not_not]
    exact hin x hx
  have hgone : d.entries.filter (fun x => inRange x.1) =
      Lib.entries d.checkExists (fun i => (d.keySlots i, d.payloadSlots i)) lo u := by
    rw [hsplit, List.filter_append, List.filter_append,
      List.filter_eq_self.mpr fun x hx => decide_eq_true (hin x hx),
      List.filter_eq_nil_iff.mpr fun x hx => ?_, List.filter_eq_nil_iff.mpr fun x hx => ?_,
      List.nil_append, List.append_nil]
    · rw [decide_eq_true_eq]
      exact hout.2 x hx
    · rw [decide_eq_true_eq]
      exact hout.1 x hx
  have hpays : r.1.payloadSlots = d.payloadSlots := by rw [hsame]
  have hcap : r.1.dataCapacity = d.dataCapacity := by rw [hsame]
  have hsize : r.1.bitmapSize = d.bitmapSize := by rw [hsame]
  have hentries : r.1.entries = d.entries.filter (fun x => ¬inRange x.1) := by
    unfold DataNode.entries at hkept ⊢
    rw [hkept, hcap, hpays]
    exact entries_eraseRange hle hu (fun i hi => by rw [hkeys, if_neg (by omega)]) hexist
  have hwell : ({ r.1 with numKeys := r.1.numKeys - r.2 } : DataNode K P).WellFormed := by
    refine ⟨⟨?_, ?_, ?_⟩, ?_, ?_, ?_⟩
    · show r.1.bitmapSize = bitmapWords r.1.dataCapacity
      rw [hsize, hcap]
      exact h.size
    · show 0 < r.1.dataCapacity
      rw [hcap]
      exact h.pos
    · intro i hi hi'
      change r.1.dataCapacity ≤ i at hi
      change i < 64 * r.1.bitmapSize at hi'
      rw [hcap] at hi
      rw [hsize] at hi'
      refine (hexist i).trans ?_
      rw [if_neg (by omega)]
      exact h.clear i hi hi'
    · show Gapped r.1.dataCapacity r.1.checkExists r.1.keySlots
      rw [hcap]
      exact h.gapped.eraseRange hu hless hkeys' hexist
    · show r.1.entries.length = r.1.numKeys - r.2
      have hnum : r.1.numKeys = d.numKeys := by rw [hsame]
      rw [hentries, hkept, hcount, hnum, ← h.count, hsplit]
      simp only [List.length_append]
      omega
    · show 0 < r.1.expansionThreshold ∧ r.1.expansionThreshold ≤ r.1.dataCapacity
      rw [hsame]
      exact h.threshold
  obtain ⟨hwell', hentries'⟩ := hwell.contract b
  refine ⟨hwell', ?_, ?_⟩
  · rw [hentries']
    exact hentries
  · rw [hgone]
    exact hcount

/-- `erase` erases all entries of the key. -/
theorem WellFormed.erase (h : d.WellFormed) (b : Build K P) (key : K) :
    (d.erase b key).1.WellFormed ∧
      (d.erase b key).1.entries = d.entries.filter (fun x => ¬x.1 = key) ∧
      (d.erase b key).2 = (d.entries.filter fun x => x.1 = key).length := by
  have hu := upperBound_first h.gapped h.pos key
  unfold DataNode.erase
  simp only
  split
  · rename_i hno
    -- the position before the upper bound has another key, so no position has this one
    have hnone : ∀ x ∈ d.entries, ¬x.1 = key := by
      intro x hx heq
      obtain ⟨i, _, hi, _, rfl⟩ := mem_entries.mp hx
      have hiu : i < d.upperBound key := by
        by_contra hle
        exact (hu.lt_of_le h.gapped (by omega) hi).ne' heq
      rcases hno with hzero | hne
      · omega
      · have hlast : d.keySlots i ≤ d.keySlots (d.upperBound key - 1) :=
          h.gapped.sorted _ _ (by omega) (by have := hu.le; omega)
        exact hne (le_antisymm (hu.le_of_lt (by omega)) (heq ▸ hlast))
    refine ⟨h, ?_, ?_⟩
    · rw [List.filter_eq_self.mpr fun x hx => decide_eq_true (hnone x hx)]
    · rw [List.filter_eq_nil_iff.mpr fun x hx => by
        rw [decide_eq_true_eq]
        exact hnone x hx]
      rfl
  -- the entries with this key are the last ones before the upper bound
  · refine h.eraseBefore b (fun k => k = key) hu.le ?_ ?_ ?_
    · intro i _
      rw [decide_eq_true_eq]
    · intro i j hij hj hi
      rw [decide_eq_true_eq] at hi ⊢
      refine le_antisymm (hu.le_of_lt hj) ?_
      rw [← hi]
      exact h.gapped.sorted i j hij (hj.trans_le hu.le)
    · intro i hi hi'
      exact (hu.lt_of_le h.gapped hi hi').ne'

/-- A node that never contracts keeps its payload array, whatever is erased. -/
theorem erase_payloadSlots (d : DataNode K P) (b : Build K P) (key : K)
    (hzero : d.contractionThreshold = 0) : (d.erase b key).1.payloadSlots = d.payloadSlots := by
  unfold DataNode.erase
  simp only
  split
  · rfl
  · obtain ⟨_, _, _, _, _, hsame, _, _⟩ := eraseDown_eq (fun k => decide (k = key))
      (if d.upperBound key = d.dataCapacity then ⊤ else d.keySlots (d.upperBound key))
      (d.upperBound key) d
    unfold DataNode.eraseBefore contract
    simp only
    rw [if_neg]
    · rw [hsame]
    · rw [hsame, hzero]
      exact Nat.not_lt_zero _

/-- `erase_range` erases the entries of the range, and counts them. -/
theorem eraseRange_filter (h : d.WellFormed) (b : Build K P) (startKey endKey : K)
    (inclusive : Bool) :
    (d.eraseRange b startKey endKey inclusive).1.WellFormed ∧
      (d.eraseRange b startKey endKey inclusive).1.entries = d.entries.filter (fun x =>
        ¬(startKey ≤ x.1 ∧ if inclusive then x.1 ≤ endKey else x.1 < endKey)) ∧
      (d.eraseRange b startKey endKey inclusive).2 = (d.entries.filter fun x =>
        startKey ≤ x.1 ∧ if inclusive then x.1 ≤ endKey else x.1 < endKey).length := by
  -- where the range ends, inclusive or not
  have hu : ∃ u, (if inclusive then d.upperBound endKey else d.lowerBound endKey) = u ∧
      u ≤ d.dataCapacity ∧ ∀ i < d.dataCapacity, i < u ↔
        if inclusive then d.keySlots i ≤ endKey else d.keySlots i < endKey := by
    cases inclusive with
    | true =>
      have hu := upperBound_first h.gapped h.pos endKey
      refine ⟨d.upperBound endKey, rfl, hu.le, fun i hi => ⟨fun hlt => hu.le_of_lt hlt, ?_⟩⟩
      intro hle
      by_contra hge
      exact absurd hle (not_le.mpr (hu.lt_of_le h.gapped (by omega) hi))
    | false =>
      have hu := lowerBound_first h.gapped h.pos endKey
      refine ⟨d.lowerBound endKey, rfl, hu.le, fun i hi => ⟨fun hlt => ?_, fun hlt => ?_⟩⟩
      · have hbelow := hu.below i hlt
        simpa [atLeast] using hbelow
      · by_contra hge
        have hhere := hu.here (by omega)
        simp only [atLeast, decide_eq_true_eq] at hhere
        have hle := hhere.trans (h.gapped.sorted _ i (by omega) hi)
        exact absurd hlt (not_lt.mpr hle)
  obtain ⟨u, heq, hle, hiff⟩ := hu
  unfold DataNode.eraseRange
  simp only
  rw [heq]
  split
  · rename_i hzero
    -- no key is below the end of the range
    have hnone : ∀ x ∈ d.entries,
        ¬(startKey ≤ x.1 ∧ if inclusive then x.1 ≤ endKey else x.1 < endKey) := by
      intro x hx hin
      obtain ⟨i, _, hi, _, rfl⟩ := mem_entries.mp hx
      have hlt := (hiff i hi).mpr hin.2
      omega
    refine ⟨h, ?_, ?_⟩
    · rw [List.filter_eq_self.mpr fun x hx => decide_eq_true (hnone x hx)]
    · rw [List.filter_eq_nil_iff.mpr fun x hx => by
        rw [decide_eq_true_eq]
        exact hnone x hx]
      rfl
  · refine h.eraseBefore b (fun k =>
      startKey ≤ k ∧ if inclusive then k ≤ endKey else k < endKey) hle ?_ ?_ ?_
    · intro i hi
      rw [decide_eq_true_eq]
      exact ⟨fun hs => ⟨hs, (hiff i (by omega)).mp hi⟩, fun hin => hin.1⟩
    · intro i j hij hj hi
      rw [decide_eq_true_eq] at hi ⊢
      exact hi.trans (h.gapped.sorted i j hij (by omega))
    · intro i hi hi' hin
      have hlt := (hiff i hi').mpr hin.2
      omega

/-- A node built with a model that sends every key to the first position. -/
def level : Build (Fin 8) Nat where
  predict := fun _ => 0
  scaled := 4
  mostly := 3
  least := 1
  keySlots := fun _ => 0
  payloadSlots := fun _ => 0
  behind := fun _ => 0#64

theorem eraseRange_filter_pair :
    ((bulkLoad level [(1, 10), (3, 30)]).eraseRange level 2 5 false).1.WellFormed ∧
      ((bulkLoad level [(1, 10), (3, 30)]).eraseRange level 2 5 false).1.entries =
        (bulkLoad level [(1, 10), (3, 30)]).entries.filter (fun x =>
          ¬(2 ≤ x.1 ∧ if false then x.1 ≤ 5 else x.1 < 5)) ∧
      ((bulkLoad level [(1, 10), (3, 30)]).eraseRange level 2 5 false).2 =
        ((bulkLoad level [(1, 10), (3, 30)]).entries.filter fun x =>
          2 ≤ x.1 ∧ if false then x.1 ≤ 5 else x.1 < 5).length :=
  eraseRange_filter (build_spec level (by decide)).1 level 2 5 false

/-! ## The check of a node -/

/-- `validate_structure` finds fault with a node in use only if the last position holds an entry
with the key `kEndSentinel_`. -/
theorem validateStructure_iff (h : d.WellFormed) : d.validateStructure = true ↔
    ¬(d.keySlots (d.dataCapacity - 1) = ⊤ ∧ d.checkExists (d.dataCapacity - 1) = true) := by
  obtain ⟨_, hcap, _⟩ := h.bounds
  have hpos := h.pos
  -- keys in order, and gaps with the key of their successor
  have hpairs : ((List.range (d.dataCapacity - 1)).all fun i =>
      if d.keySlots (i + 1) < d.keySlots i then false
      else if d.keySlots i < d.keySlots (i + 1) ∧ d.checkExists i = false then false
      else true) = true := by
    rw [List.all_eq_true]
    intro i hi
    rw [List.mem_range] at hi
    have hle := h.gapped.sorted i (i + 1) (by omega) (by omega)
    rw [if_neg (not_lt.mpr hle), if_neg]
    rintro ⟨hlt, hf⟩
    have hgap := h.gapped.gap i (by omega) hf
    unfold nextKey at hgap
    rw [if_pos (by omega)] at hgap
    exact hlt.ne hgap
  have hlast : d.checkExists (d.dataCapacity - 1) = false →
      d.keySlots (d.dataCapacity - 1) = ⊤ := by
    intro hf
    have hgap := h.gapped.gap _ (by omega) hf
    unfold nextKey at hgap
    rwa [if_neg (by omega)] at hgap
  -- the bits beyond the capacity are clear, so the words count the entries
  have hcount : ((List.range' 0 d.bitmapSize).map fun i => countOnes (d.bitmap i)).sum =
      d.numKeys := by
    unfold countOnes
    rw [sum_cpop, Nat.zero_add, Nat.mul_zero, countBits_append (Nat.zero_le _) hcap,
      countBits_eq, countBits_eq, ← h.count,
      entries_gaps fun i hi hi' => h.clear i hi hi', List.length_nil]
    rfl
  -- what remains is the last position: a gap there has the sentinel, and an entry must not
  unfold validateStructure
  rw [hpairs, decide_eq_true hcount]
  cases hf : d.checkExists (d.dataCapacity - 1) with
  | false => simp [hlast hf]
  | true => simp

/-- A node built with a model that sends the greatest key to the last position. -/
def steep : Build (Fin 8) Nat := { level with predict := fun k => if k = ⊤ then 3 else 0 }

/-- A node passes, unless `kEndSentinel_` is a key in its last position. -/
theorem validateStructure_iff_pair :
    (bulkLoad level [(1, 10), (3, 30)]).validateStructure = true ∧
      (bulkLoad steep [(1, 10), (⊤, 30)]).validateStructure ≠ true := by
  have hpass := validateStructure_iff (d := bulkLoad level [(1, 10), (3, 30)])
    (build_spec level (by decide)).1
  have hfail := validateStructure_iff (d := bulkLoad steep [(1, 10), (⊤, 30)])
    (build_spec steep (by decide)).1
  constructor
  · exact hpass.mpr (by decide)
  · rw [Ne, hfail, not_not]
    decide

end DataNode

end Epli.Alex
