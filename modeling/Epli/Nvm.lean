import Epli.Lib.Pmem

/-!
# NVM: the bump allocator and the flush primitives

`nvm_alloc.h` maps one file and hands out blocks by moving a cursor over the
mapping; `pmem.h` wraps the cache line instructions. Addresses are natural
numbers in an unbounded address space: the assertion `used_ <= mapped_len_` of
the allocator only ever stops a run, it never changes an address.
-/

namespace Epli

open Lib

/-- A file mapped by `pmem_map_file`: the mapping is page aligned, never at the
null address, and lies in a 48 bit address space. -/
structure Mapping where
  addr : Nat
  len : Nat
  addr_pos : 0 < addr
  addr_page : addr % 4096 = 0
  len_le : len ≤ 2 ^ 48
deriving DecidableEq

/-- The fields of `NVM::Alloc`. -/
structure Alloc where
  pmemAddr : Nat
  currentAddr : Nat
  mappedLen : Nat
  used : Nat
  freed : Nat
  mapped_le : mappedLen ≤ 2 ^ 48
deriving DecidableEq, Repr

namespace Alloc

/-- `Alloc::Alloc`: the cursor starts at the beginning of the mapping, whatever
the file already holds. -/
def create (f : Mapping) : Alloc where
  pmemAddr := f.addr
  currentAddr := f.addr
  mappedLen := f.len
  used := 0
  freed := 0
  mapped_le := f.len_le

/-- `Alloc::alloc`. -/
def alloc (a : Alloc) (size : Nat) : Nat × Alloc :=
  (a.currentAddr, { a with used := a.used + size, currentAddr := a.currentAddr + size })

/-- `Alloc::alloc_aligned`. The block starts at the cursor rounded up, but the
cursor moves by `size` alone. -/
def allocAligned (a : Alloc) (size : Nat) (align : Nat) : Nat × Alloc :=
  let reserve := if a.currentAddr % align = 0 then 0 else align - a.currentAddr % align
  (a.currentAddr + reserve,
    { a with used := a.used + (size + reserve), currentAddr := a.currentAddr + size })

/-- `Alloc::Free`: the cursor moves back over the block in front of it; any other
block is only counted. -/
def free (a : Alloc) (p size : Nat) : Alloc :=
  if p = 0 then a
  else if p + size = a.currentAddr then { a with currentAddr := p, used := a.used - size }
  else { a with freed := a.freed + size }

/-- At an aligned cursor there is no gap: the block is the cursor. -/
theorem allocAligned_of_aligned {a : Alloc} {size align : Nat} (h : a.currentAddr % align = 0) :
    a.allocAligned size align =
      (a.currentAddr, { a with used := a.used + size, currentAddr := a.currentAddr + size }) := by
  simp [allocAligned, h]

end Alloc

/-! ## Cache lines -/

/-- `CACHE_LINE_SIZE`. -/
abbrev cacheLineSize : Nat := 64

/-- `clflush`: write back the line that holds the byte `addr`. -/
def clflush {L : Type} (addr : Nat) : List (Ev L Nat) :=
  [.flush (addr / cacheLineSize)]

/-- `NVM::Mem_persist`: write back every line of the `len` bytes at `addr`. -/
def memPersist {L : Type} (addr len : Nat) : List (Ev L Nat) :=
  (List.range ((addr + len - 1) / cacheLineSize - addr / cacheLineSize + 1)).map
    fun j => .flush (addr / cacheLineSize + j)

@[simp] theorem exec_clflush {L : Type} [DecidableEq L] (m : L → Nat) (addr : Nat) :
    exec m (clflush addr) = m := rfl

/-- Flushes change nothing that the program reads. -/
theorem exec_map_flush {L : Type} [DecidableEq L] (g : Nat → Nat) :
    ∀ (js : List Nat) (m : L → Nat), exec m (js.map fun j => .flush (g j)) = m := by
  intro js
  induction js with
  | nil => intro m; rfl
  | cons j js ih =>
    intro m
    rw [List.map_cons, exec_flush, ih]

@[simp] theorem exec_memPersist {L : Type} [DecidableEq L] (m : L → Nat) (addr len : Nat) :
    exec m (memPersist addr len) = m :=
  exec_map_flush _ _ _

end Epli
