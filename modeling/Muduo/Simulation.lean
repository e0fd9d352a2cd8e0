import Muduo.Machine

/-! # Simulations

A machine that does what another one allows: each of its steps is a few steps of the other, or none.
-/

namespace Machine

variable {σ ℓ τ κ : Type*} {step : σ → ℓ → Option σ} {step' : τ → κ → Option τ} {C : τ → κ → Prop} {R : σ → τ → Prop}

theorem meets_append {D : σ → ℓ → Prop} {s t : σ} {ls ms : List ℓ} (hrun : run step s ls = some t)
    (h : Meets step D s ls) (h' : Meets step D t ms) : Meets step D s (ls ++ ms) := by
  induction ls generalizing s with
  | nil =>
    rw [run_nil, Option.some.injEq] at hrun
    exact hrun ▸ h'
  | cons l ls ih =>
    obtain ⟨u, hu, hrest⟩ := run_cons_some.mp hrun
    obtain ⟨hl, hls⟩ := (meets_cons hu).mp h
    exact (meets_cons hu).mpr ⟨hl, ih hrest hls⟩

theorem meets_singleton {D : σ → ℓ → Prop} {s t : σ} {l : ℓ} (hstep : step s l = some t) (h : D s l) :
    Meets step D s [l] :=
  (meets_cons hstep).mpr ⟨h, meets_nil t⟩

theorem meets_of_forall {D : ℓ → Prop} {s : σ} {ls : List ℓ} (h : ∀ l ∈ ls, D l) : Meets step (fun _ l => D l) s ls :=
  fun _ l _ hpre _ => h l (hpre.subset (by simp))

/-- The other machine gets from `t` to `v` by steps that meet `C`. -/
def Reaches (step : σ → ℓ → Option σ) (D : σ → ℓ → Prop) (s u : σ) : Prop :=
  ∃ ls, run step s ls = some u ∧ Meets step D s ls

theorem reaches_refl {D : σ → ℓ → Prop} (s : σ) : Reaches step D s s := ⟨[], rfl, meets_nil s⟩

theorem reaches_step {D : σ → ℓ → Prop} {s u : σ} {l : ℓ} (hstep : step s l = some u) (h : D s l) :
    Reaches step D s u :=
  ⟨[l], by rw [run_cons, hstep]; rfl, meets_singleton hstep h⟩

theorem Reaches.trans {D : σ → ℓ → Prop} {s t u : σ} (h : Reaches step D s t) (h' : Reaches step D t u) :
    Reaches step D s u := by
  obtain ⟨ls, hrun, hmeets⟩ := h
  obtain ⟨ms, hrun', hmeets'⟩ := h'
  exact ⟨ls ++ ms, run_append_some.mpr ⟨t, hrun, hrun'⟩, meets_append hrun hmeets hmeets'⟩

theorem Reaches.mono {D E : σ → ℓ → Prop} {s u : σ} (h : Reaches step D s u) (himp : ∀ t l, D t l → E t l) :
    Reaches step E s u := by
  obtain ⟨ls, hrun, hmeets⟩ := h
  exact ⟨ls, hrun, fun pre l t hpre ht => himp t l (hmeets pre l t hpre ht)⟩

theorem Reaches.invariant {I : σ → Prop} {D : σ → ℓ → Prop} {s u : σ} (h : Reaches step D s u)
    (keep : ∀ t l u, I t → D t l → step t l = some u → I u) (hs : I s) : I u := by
  obtain ⟨ls, hrun, hmeets⟩ := h
  exact run_invariant_of_meets keep hs hmeets hrun

/-- Every step is matched by steps of the other machine that meet `C`. -/
def Simulates (step : σ → ℓ → Option σ) (step' : τ → κ → Option τ) (C : τ → κ → Prop) (R : σ → τ → Prop) : Prop :=
  ∀ s l u t, R s t → step s l = some u → ∃ v, Reaches step' C t v ∧ R u v

/-- What is simulated step by step is simulated run by run. -/
theorem Simulates.run (h : Simulates step step' C R) {s u : σ} {t : τ} {ls : List ℓ} (hs : R s t)
    (hrun : Machine.run step s ls = some u) : ∃ v, Reaches step' C t v ∧ R u v := by
  induction ls generalizing s t with
  | nil =>
    rw [run_nil, Option.some.injEq] at hrun
    exact ⟨t, reaches_refl t, hrun ▸ hs⟩
  | cons l ls ih =>
    obtain ⟨w, hw, hrest⟩ := run_cons_some.mp hrun
    obtain ⟨v, hv, hR⟩ := h s l w t hs hw
    obtain ⟨v', hv', hR'⟩ := ih hR hrest
    exact ⟨v', hv.trans hv', hR'⟩

end Machine
