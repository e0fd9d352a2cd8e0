import Mathlib.Algebra.BigOperators.Group.Finset.Basic
import Muduo.Machine

/-! # Potentials

How many steps of one kind a run can make. A potential pays for them, and steps of other kinds may add to it.
-/

namespace Machine

variable {σ ℓ : Type*} {step : σ → ℓ → Option σ} {I : σ → Prop} {μ : σ → Nat}

/-- What the labels of a run come to. -/
def total (f : ℓ → Nat) : List ℓ → Nat
  | [] => 0
  | l :: ls => f l + total f ls

@[simp]
theorem total_nil (f : ℓ → Nat) : total f [] = 0 := rfl

@[simp]
theorem total_cons (f : ℓ → Nat) (l : ℓ) (ls : List ℓ) : total f (l :: ls) = f l + total f ls := rfl

/-- If every step pays its cost out of the potential and what it brings in, so does a run. -/
theorem run_potential {cost gain : ℓ → Nat} (keep : ∀ t l u, I t → step t l = some u → I u)
    (pay : ∀ t l u, I t → step t l = some u → cost l + μ u ≤ μ t + gain l) {s u : σ} {ls : List ℓ} (hs : I s)
    (hrun : run step s ls = some u) : total cost ls + μ u ≤ μ s + total gain ls := by
  induction ls generalizing s with
  | nil =>
    rw [run_nil, Option.some.injEq] at hrun
    simp [hrun]
  | cons l ls ih =>
    obtain ⟨t, ht, hrest⟩ := run_cons_some.mp hrun
    have hstep := pay s l t hs ht
    have htail := ih (keep s l t hs ht) hrest
    simp only [total_cons]
    omega

theorem sum_changed {ι M : Type*} [AddCommMonoid M] [DecidableEq ι] {parties : Finset ι} {f g : ι → M} {i : ι}
    (hi : i ∈ parties) (hsame : ∀ j, j ≠ i → g j = f j) :
    ∑ j ∈ parties, g j + f i = ∑ j ∈ parties, f j + g i := by
  have hrest : ∑ j ∈ parties.erase i, g j = ∑ j ∈ parties.erase i, f j :=
    Finset.sum_congr rfl fun j hj => hsame j (Finset.ne_of_mem_erase hj)
  rw [← Finset.add_sum_erase parties f hi, ← Finset.add_sum_erase parties g hi, hrest]
  ac_rfl

/-! ## Coming to rest -/

/-- No step of the kind `C` is possible. -/
def AtRest (step : σ → ℓ → Option σ) (C : ℓ → Prop) (s : σ) : Prop := ∀ l, C l → step s l = none

theorem length_le_potential {C : ℓ → Prop} (keep : ∀ t l u, I t → step t l = some u → I u)
    (lower : ∀ t l u, I t → C l → step t l = some u → μ u < μ t) {s u : σ} {ls : List ℓ} (hs : I s)
    (hC : ∀ l ∈ ls, C l) (hrun : run step s ls = some u) : ls.length + μ u ≤ μ s := by
  induction ls generalizing s with
  | nil =>
    rw [run_nil, Option.some.injEq] at hrun
    simp [hrun]
  | cons l ls ih =>
    obtain ⟨t, ht, hrest⟩ := run_cons_some.mp hrun
    have hstep := lower s l t hs (hC l List.mem_cons_self) ht
    have htail := ih (keep s l t hs ht) (fun m hm => hC m (List.mem_cons_of_mem l hm)) hrest
    rw [List.length_cons]
    omega

theorem exists_rest {C : ℓ → Prop} (keep : ∀ t l u, I t → step t l = some u → I u)
    (lower : ∀ t l u, I t → C l → step t l = some u → μ u < μ t) {s : σ} (hs : I s) :
    ∃ ls u, (∀ l ∈ ls, C l) ∧ run step s ls = some u ∧ AtRest step C u := by
  induction hμ : μ s using Nat.strongRecOn generalizing s with
  | ind n ih =>
    by_cases hrest : AtRest step C s
    · exact ⟨[], s, by simp, rfl, hrest⟩
    · simp only [AtRest, not_forall] at hrest
      obtain ⟨l, hl, hstep⟩ := hrest
      obtain ⟨t, ht⟩ := Option.ne_none_iff_exists'.mp hstep
      have hlower := lower s l t hs hl ht
      obtain ⟨ls, u, hls, hrun, hu⟩ := ih (μ t) (hμ ▸ hlower) (keep s l t hs ht) rfl
      refine ⟨l :: ls, u, ?_, run_cons_some.mpr ⟨t, ht, hrun⟩, hu⟩
      simpa using ⟨hl, hls⟩

end Machine
