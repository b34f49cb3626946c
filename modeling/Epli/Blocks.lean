import Mathlib.Data.List.Basic
import Epli.Lib.Machine
import Epli.Nvm

/-!
# The blocks of the NVM allocator

A client of `NVM::Alloc` calls `alloc`, `alloc_aligned` and `Free`, the last one on
blocks it holds. The blocks it holds should never overlap.

`alloc_aligned` starts its block at the cursor rounded up, and counts the gap in
`used_`, but moves the cursor by the size of the block alone: after a gap the cursor
stands inside the block just handed out, or in front of it. As long as there is never
a gap the cursor is at the end of everything handed out, and all is well (`Packed`).
-/

namespace Epli

open Lib

/-- A block that was handed out, and the alignment that was asked for. -/
structure Block where
  addr : Nat
  size : Nat
  align : Nat
deriving DecidableEq, Repr

/-- No byte is in both blocks. -/
def Block.Apart (b c : Block) : Prop := b.addr + b.size ≤ c.addr ∨ c.addr + c.size ≤ b.addr

/-- Calls of an allocator. -/
inductive AllocOp where
  | alloc (size : Nat)
  | allocAligned (size align : Nat)
  | free (b : Block)
deriving DecidableEq, Repr

/-- An allocator and the blocks its client holds. -/
structure Arena where
  alloc : Alloc
  held : List Block

namespace Arena

/-- A fresh allocator. -/
def create (f : Mapping) : Arena := ⟨Alloc.create f, []⟩

/-- The client holds one more block. The assertion `used_ <= mapped_len_` stops the run. -/
def hold (h : Arena) (size align : Nat) (r : Nat × Alloc) : Option (Nat × Arena) :=
  if r.2.used ≤ r.2.mappedLen then some (r.1, ⟨r.2, ⟨r.1, size, align⟩ :: h.held⟩) else none

/-- One call, with the address it returns. `Free` returns nothing. -/
def step (h : Arena) : AllocOp → Option (Nat × Arena)
  | .alloc size => h.hold size 1 (h.alloc.alloc size)
  | .allocAligned size align => h.hold size align (h.alloc.allocAligned size align)
  | .free b => some (0, ⟨h.alloc.free b.addr b.size, h.held.erase b⟩)

/-- What a client keeps to: sizes are positive, alignments are powers of two, only
blocks that are held are freed, and the mapping is long enough. -/
def Contract (h : Arena) : AllocOp → Prop
  | .alloc size => 0 < size ∧ (h.alloc.alloc size).2.used ≤ h.alloc.mappedLen
  | .allocAligned size align => 0 < size ∧ align.isPowerOfTwo ∧
      (h.alloc.allocAligned size align).2.used ≤ h.alloc.mappedLen
  | .free b => b ∈ h.held

instance (h : Arena) : (op : AllocOp) → Decidable (Contract h op)
  | .alloc _ => inferInstanceAs (Decidable (_ ∧ _))
  | .allocAligned _ _ => inferInstanceAs (Decidable (_ ∧ _ ∧ _))
  | .free b => inferInstanceAs (Decidable (b ∈ h.held))

/-- The blocks a client holds have no byte in common, start where they should, and lie
in the part of the mapping that is in use. -/
structure Separate (h : Arena) : Prop where
  apart : h.held.Pairwise Block.Apart
  aligned : ∀ b ∈ h.held, b.align ∣ b.addr
  within : ∀ b ∈ h.held,
    h.alloc.pmemAddr ≤ b.addr ∧ b.addr + b.size ≤ h.alloc.pmemAddr + h.alloc.used

/-- `alloc_aligned` finds the cursor aligned. -/
def NoGap (h : Arena) : AllocOp → Prop
  | .allocAligned _ align => h.alloc.currentAddr % align = 0
  | _ => True

instance (h : Arena) : (op : AllocOp) → Decidable (NoGap h op)
  | .allocAligned _ _ => inferInstanceAs (Decidable (_ = _))
  | .alloc _ => .isTrue trivial
  | .free _ => .isTrue trivial

/-- The cursor is at the end of everything handed out. -/
structure Packed (h : Arena) : Prop extends Separate h where
  base_pos : 0 < h.alloc.pmemAddr
  cursor : h.alloc.currentAddr = h.alloc.pmemAddr + h.alloc.used
  size_pos : ∀ b ∈ h.held, 0 < b.size

variable {h h' : Arena} {size align : Nat} {b : Block}

theorem packed_create (f : Mapping) : Packed (create f) where
  apart := List.Pairwise.nil
  aligned := by simp [create]
  within := by simp [create]
  base_pos := f.addr_pos
  cursor := rfl
  size_pos := by simp [create]

/-- A block taken at the cursor. -/
theorem Packed.hold (hp : Packed h) (hsize : 0 < size) (halign : align ∣ h.alloc.currentAddr)
    (hfits : h.alloc.used + size ≤ h.alloc.mappedLen) :
    ∃ h', h.hold size align (h.alloc.alloc size) = some (h.alloc.currentAddr, h') ∧ Packed h' := by
  have hcursor := hp.cursor
  refine ⟨_, if_pos hfits, ⟨⟨?_, ?_, ?_⟩, hp.base_pos, ?_, ?_⟩⟩
  · refine List.pairwise_cons.mpr ⟨?_, hp.apart⟩
    intro c hc
    have hend := (hp.within c hc).2
    exact Or.inr (by simpa [Alloc.alloc, hcursor] using hend)
  · exact List.forall_mem_cons.mpr ⟨halign, hp.aligned⟩
  · refine List.forall_mem_cons.mpr ⟨?_, ?_⟩
    · show h.alloc.pmemAddr ≤ h.alloc.currentAddr ∧
        h.alloc.currentAddr + size ≤ h.alloc.pmemAddr + (h.alloc.used + size)
      omega
    · intro c hc
      have hin := hp.within c hc
      show h.alloc.pmemAddr ≤ c.addr ∧ c.addr + c.size ≤ h.alloc.pmemAddr + (h.alloc.used + size)
      omega
  · show h.alloc.currentAddr + size = h.alloc.pmemAddr + (h.alloc.used + size)
    omega
  · exact List.forall_mem_cons.mpr ⟨hsize, hp.size_pos⟩

/-- A block given back. -/
theorem Packed.free (hp : Packed h) (hb : b ∈ h.held) :
    Packed ⟨h.alloc.free b.addr b.size, h.held.erase b⟩ := by
  have hsub := List.erase_sublist (l := h.held) (a := b)
  have hmem : ∀ c ∈ h.held.erase b, c ∈ h.held := fun c hc => hsub.subset hc
  have hapart := hp.apart.sublist hsub
  have hin := hp.within b hb
  have hpos := hp.base_pos
  have hcursor := hp.cursor
  have hne : ¬ b.addr = 0 := by omega
  unfold Alloc.free
  rw [if_neg hne]
  split
  · -- the cursor moves back: every other block ends where this one starts
    rename_i hlast
    have hperm := List.perm_cons_erase hb
    have hother : ∀ c ∈ h.held.erase b, b.Apart c := by
      have hcons := hperm.pairwise hp.apart (fun hxy => hxy.symm)
      exact (List.pairwise_cons.mp hcons).1
    refine ⟨⟨hapart, fun c hc => hp.aligned c (hmem c hc), ?_⟩, hpos, ?_,
      fun c hc => hp.size_pos c (hmem c hc)⟩
    · intro c hc
      have hinc := hp.within c (hmem c hc)
      have hposc := hp.size_pos c (hmem c hc)
      have hb' := hother c hc
      unfold Block.Apart at hb'
      show h.alloc.pmemAddr ≤ c.addr ∧
        c.addr + c.size ≤ h.alloc.pmemAddr + (h.alloc.used - b.size)
      omega
    · show b.addr = h.alloc.pmemAddr + (h.alloc.used - b.size)
      omega
  · exact ⟨⟨hapart, fun c hc => hp.aligned c (hmem c hc), fun c hc => hp.within c (hmem c hc)⟩,
      hpos, hcursor, fun c hc => hp.size_pos c (hmem c hc)⟩

/-- Without gaps every call comes back and leaves the cursor at the end. -/
theorem Packed.step {op : AllocOp} (hp : Packed h) (hc : Contract h op) (hg : NoGap h op) :
    ∃ p h', h.step op = some (p, h') ∧ Packed h' := by
  cases op with
  | alloc size =>
    rcases hp.hold hc.1 (Nat.one_dvd _) hc.2 with ⟨h', hstep, hp'⟩
    exact ⟨_, h', hstep, hp'⟩
  | allocAligned size align =>
    have heq : h.alloc.allocAligned size align = h.alloc.alloc size :=
      Alloc.allocAligned_of_aligned hg
    have hfits := hc.2.2
    rw [heq] at hfits
    rcases hp.hold hc.1 (Nat.dvd_of_mod_eq_zero hg) hfits with ⟨h', hstep, hp'⟩
    refine ⟨h.alloc.currentAddr, h', ?_, hp'⟩
    rw [Arena.step, heq]
    exact hstep
  | free b => exact ⟨_, _, rfl, hp.free hc⟩

/-- As long as `alloc_aligned` finds the cursor aligned, the blocks held after any calls
are separate. -/
theorem blocks_separate (f : Mapping) {ops : List AllocOp}
    (hc : Along step Contract (create f) ops) (hg : Along step NoGap (create f) ops) :
    ∃ addrs h', runOps step (create f) ops = some (addrs, h') ∧ Separate h' := by
  rcases (hc.and hg).total Packed (fun h op hp hok => hp.step hok.1 hok.2) (packed_create f) with
    ⟨addrs, h', hrun, hp'⟩
  exact ⟨addrs, h', hrun, hp'.toSeparate⟩

/-- A mapping of four pages. -/
def fourPages : Mapping := ⟨8192, 16384, by decide, by decide, by decide⟩

/-- Entries of the tree, and a small block in front of the cursor. -/
def entryOps : List AllocOp :=
  [.allocAligned 256 256, .allocAligned 256 256, .free ⟨8192, 256, 256⟩, .alloc 8,
    .free ⟨8704, 8, 1⟩, .allocAligned 512 256]

theorem entries_separate : ∃ addrs h', runOps step (create fourPages) entryOps =
    some (addrs, h') ∧ Separate h' := by
  refine blocks_separate fourPages ?_ ?_
  · decide +kernel
  · decide +kernel

/-- A block, an aligned one behind a gap, and a third. -/
def gapOps : List AllocOp := [.alloc 1, .allocAligned 256 256, .alloc 1]

/-- The third block starts inside the second. -/
theorem gap_overlaps : Along step Contract (create fourPages) gapOps ∧ ∃ addrs h',
    runOps step (create fourPages) gapOps = some (addrs, h') ∧ ¬ Separate h' := by
  refine ⟨by decide +kernel, _, _, rfl, ?_⟩
  intro h
  have hfirst := (List.pairwise_cons.mp h.apart).1
  have hapart : Block.Apart ⟨8449, 1, 1⟩ ⟨8448, 256, 256⟩ := hfirst _ List.mem_cons_self
  simp [Block.Apart] at hapart

end Arena

end Epli
