import Epli.RangeScan

/-!
# Scan

`Scan` looks at its start entry, at whole middle entries and at end entries in
three loops. The middle loop is meant to push an entry of which all pairs are
wanted, but pushes the copy of the start entry instead; the end loop counts up to
`size` and passes it by if it starts there. `ScanOk` says when neither happens.
-/

namespace Epli

open Lib Entry

namespace Tree

variable {m : Mem} {t : Tree} {as : List Nat} {tmpKvs results res live : List KV}
  {size cnt : Int} {rounds entry startKey p s₀ : Nat} {rest : List (Nat × Nat)}

/-! ## The loops -/

theorem LiveFrom.unique {live' : List KV} (h : LiveFrom t startKey live)
    (h' : LiveFrom t startKey live') : live = live' := by
  have hnd : ∀ {l : List KV}, l.Pairwise (fun a b => a.1 < b.1) → l.Nodup := by
    intro l hl
    refine hl.imp ?_
    intro a b hab heq
    rw [heq] at hab
    exact lt_irrefl _ hab
  have hperm : live.Perm live' := by
    rw [List.perm_ext_iff_of_nodup (hnd h.ascending) (hnd h'.ascending)]
    intro x
    rw [h.mem_iff, h'.mem_iff]
  refine hperm.eq_of_pairwise ?_ h.ascending h'.ascending
  intro a b _ _ hab hba
  omega

namespace Sound

end Sound

section Fresh

variable {f : Mapping} {pm : Pmem Loc Nat} {calls : Nat}

end Fresh

end Tree

end Epli
