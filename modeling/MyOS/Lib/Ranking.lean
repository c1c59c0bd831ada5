import Mathlib.Algebra.BigOperators.Group.Finset.Basic
import Mathlib.Tactic.Ring
import MyOS.Lib.Run

/-!
# Rankings

A rank that every step lowers bounds the runs, so that each goes on, in whatever order, until no
step is possible. Where a step is one of a few parts of a system, the rank is a sum over the parts.
-/

namespace Ranking

variable {σ α : Type*} {step : σ → α → σ → Prop} {rank : σ → ℕ} {P : σ → Prop}

/-- Every step lowers the rank and keeps `P`. -/
def Lowers (step : σ → α → σ → Prop) (rank : σ → ℕ) (P : σ → Prop) : Prop :=
  ∀ s a s', P s → step s a s' → P s' ∧ rank s' < rank s

theorem Lowers.of_run (hl : Lowers step rank P) {s s' : σ} {tr : List α} (hs : P s)
    (hr : Run (· = s) step tr s') : P s' ∧ tr.length + rank s' ≤ rank s := by
  refine hr.invariant (P := fun tr s' => P s' ∧ tr.length + rank s' ≤ rank s) ?_ ?_
  · rintro _ rfl
    exact ⟨hs, (Nat.zero_add _).le⟩
  · rintro tr s₁ a s₂ ⟨h1, hle⟩ hstep
    obtain ⟨h2, hlt⟩ := hl s₁ a s₂ h1 hstep
    refine ⟨h2, ?_⟩
    rw [List.length_cons]
    omega

/-- A sum changes as the part that changes. -/
theorem sum_add_of_ne {ι : Type*} [Fintype ι] [DecidableEq ι] {f g : ι → ℕ} {i : ι}
    (h : ∀ j, j ≠ i → f j = g j) : (∑ j, f j) + g i = (∑ j, g j) + f i := by
  rw [← Finset.add_sum_erase Finset.univ f (Finset.mem_univ i),
    ← Finset.add_sum_erase Finset.univ g (Finset.mem_univ i),
    Finset.sum_congr rfl fun j hj => h j (Finset.ne_of_mem_erase hj)]
  ring

end Ranking
