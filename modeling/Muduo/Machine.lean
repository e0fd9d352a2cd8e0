import Mathlib.Data.List.Infix

/-! # Runs of a step function

A machine is a function `σ → ℓ → Option σ`. The label holds everything the machine does not decide
itself, so a run is fixed by its labels; `none` means that the label is not possible in that state.
-/

namespace Machine

variable {σ ℓ : Type*} {step : σ → ℓ → Option σ}

/-- The state after a list of labels. -/
def run (step : σ → ℓ → Option σ) (s : σ) : List ℓ → Option σ
  | [] => some s
  | l :: ls => (step s l).bind fun t => run step t ls

@[simp]
theorem run_nil (s : σ) : run step s [] = some s := rfl

theorem run_cons (s : σ) (l : ℓ) (ls : List ℓ) :
    run step s (l :: ls) = (step s l).bind fun t => run step t ls := rfl

theorem run_cons_some {s u : σ} {l : ℓ} {ls : List ℓ} :
    run step s (l :: ls) = some u ↔ ∃ t, step s l = some t ∧ run step t ls = some u := by
  rw [run_cons, Option.bind_eq_some_iff]

theorem run_append (s : σ) (ls ms : List ℓ) :
    run step s (ls ++ ms) = (run step s ls).bind fun t => run step t ms := by
  induction ls generalizing s with
  | nil => rfl
  | cons l ls ih =>
    rw [List.cons_append, run_cons, run_cons, Option.bind_assoc]
    congr 1
    funext t
    exact ih t

theorem run_append_some {s u : σ} {ls ms : List ℓ} :
    run step s (ls ++ ms) = some u ↔ ∃ t, run step s ls = some t ∧ run step t ms = some u := by
  rw [run_append, Option.bind_eq_some_iff]

theorem guard_some {p : Prop} [Decidable p] {t u : σ} :
    (if p then some t else none) = some u ↔ p ∧ t = u := by
  rw [Option.ite_none_right_eq_some, Option.some.injEq]

/-! ## Invariants -/

/-- What holds at the start and is kept by every step holds after every run. -/
theorem run_invariant {I : σ → Prop} (keep : ∀ t l u, I t → step t l = some u → I u)
    {s u : σ} {ls : List ℓ} (hs : I s) (hrun : run step s ls = some u) : I u := by
  induction ls generalizing s with
  | nil =>
    rw [run_nil, Option.some.injEq] at hrun
    exact hrun ▸ hs
  | cons l ls ih =>
    obtain ⟨t, ht, hrest⟩ := run_cons_some.mp hrun
    exact ih (keep s l t hs ht) hrest

/-- What the steps of a run put out, in order. -/
def outputs {ω : Type*} (step : σ → ℓ → Option σ) (out : σ → ℓ → List ω) (s : σ) : List ℓ → List ω
  | [] => []
  | l :: ls =>
    match step s l with
    | some t => out s l ++ outputs step out t ls
    | none => []

theorem outputs_cons {ω : Type*} {out : σ → ℓ → List ω} {s t : σ} {l : ℓ} {ls : List ℓ} (hstep : step s l = some t) :
    outputs step out s (l :: ls) = out s l ++ outputs step out t ls := by
  rw [outputs, hstep]

theorem mem_outputs {ω : Type*} {out : σ → ℓ → List ω} {s : σ} {ls : List ℓ} {o : ω}
    (ho : o ∈ outputs step out s ls) :
    ∃ pre l t, pre ++ [l] <+: ls ∧ run step s pre = some t ∧ o ∈ out t l := by
  induction ls generalizing s with
  | nil => cases ho
  | cons l ls ih =>
    cases hstep : step s l with
    | some t =>
      rw [outputs_cons hstep, List.mem_append] at ho
      rcases ho with ho | ho
      · exact ⟨[], l, s, by simp, rfl, ho⟩
      · obtain ⟨pre, m, u, hpre, hrun, hout⟩ := ih ho
        exact ⟨l :: pre, m, u, List.cons_prefix_cons.mpr ⟨rfl, hpre⟩, run_cons_some.mpr ⟨t, hstep, hrun⟩, hout⟩
    | none =>
      rw [outputs, hstep] at ho
      cases ho

/-- `P` holds in every state that the run visits. -/
def Always (step : σ → ℓ → Option σ) (P : σ → Prop) (s : σ) (ls : List ℓ) : Prop :=
  ∀ pre t, pre <+: ls → run step s pre = some t → P t

theorem not_always {P : σ → Prop} (test : σ → Bool) {s : σ} {ls : List ℓ} (hP : ∀ u, P u → test u = false)
    (h : (run step s ls).map test = some true) : ¬ Always step P s ls := by
  obtain ⟨u, hrun, hfails⟩ := Option.map_eq_some_iff.mp h
  intro halways
  rw [hP u (halways ls u (List.prefix_refl ls) hrun)] at hfails
  cases hfails

/-- Every step of the run is taken in a state where `C` allows it. -/
def Meets (step : σ → ℓ → Option σ) (C : σ → ℓ → Prop) (s : σ) (ls : List ℓ) : Prop :=
  ∀ pre l t, pre ++ [l] <+: ls → run step s pre = some t → C t l

theorem always_nil {P : σ → Prop} {s : σ} : Always step P s [] ↔ P s := by
  constructor
  · intro h
    exact h [] s List.nil_prefix rfl
  · intro hP pre t hpre hrun
    rw [List.prefix_nil] at hpre
    rw [hpre, run_nil, Option.some.injEq] at hrun
    exact hrun ▸ hP

theorem always_stuck {P : σ → Prop} {s : σ} {l : ℓ} {ls : List ℓ} (hstep : step s l = none) :
    Always step P s (l :: ls) ↔ P s := by
  constructor
  · intro h
    exact h [] s List.nil_prefix rfl
  · intro hP pre t hpre hrun
    cases pre with
    | nil =>
      rw [run_nil, Option.some.injEq] at hrun
      exact hrun ▸ hP
    | cons m pre =>
      obtain ⟨rfl, -⟩ := List.cons_prefix_cons.mp hpre
      rw [run_cons, hstep] at hrun
      cases hrun

theorem always_cons {P : σ → Prop} {s t : σ} {l : ℓ} {ls : List ℓ} (hstep : step s l = some t) :
    Always step P s (l :: ls) ↔ P s ∧ Always step P t ls := by
  constructor
  · intro h
    refine ⟨h [] s List.nil_prefix rfl, fun pre u hpre hrun => ?_⟩
    exact h (l :: pre) u (List.cons_prefix_cons.mpr ⟨rfl, hpre⟩) (by rw [run_cons, hstep]; exact hrun)
  · rintro ⟨hs, h⟩ pre u hpre hrun
    cases pre with
    | nil =>
      rw [run_nil, Option.some.injEq] at hrun
      exact hrun ▸ hs
    | cons m pre =>
      obtain ⟨rfl, hrest⟩ := List.cons_prefix_cons.mp hpre
      rw [run_cons, hstep] at hrun
      exact h pre u hrest hrun

theorem meets_cons {C : σ → ℓ → Prop} {s t : σ} {l : ℓ} {ls : List ℓ} (hstep : step s l = some t) :
    Meets step C s (l :: ls) ↔ C s l ∧ Meets step C t ls := by
  constructor
  · intro h
    refine ⟨h [] l s (by simp) rfl, fun pre m u hpre hrun => ?_⟩
    exact h (l :: pre) m u (List.cons_prefix_cons.mpr ⟨rfl, hpre⟩) (by rw [run_cons, hstep]; exact hrun)
  · rintro ⟨hs, h⟩ pre m u hpre hrun
    cases pre with
    | nil =>
      rw [run_nil, Option.some.injEq] at hrun
      obtain ⟨rfl, -⟩ := List.cons_prefix_cons.mp hpre
      exact hrun ▸ hs
    | cons k pre =>
      obtain ⟨rfl, hrest⟩ := List.cons_prefix_cons.mp hpre
      rw [run_cons, hstep] at hrun
      exact h pre m u hrest hrun

theorem meets_stuck {C : σ → ℓ → Prop} {s : σ} {l : ℓ} {ls : List ℓ} (hstep : step s l = none) :
    Meets step C s (l :: ls) ↔ C s l := by
  constructor
  · intro h
    exact h [] l s (by simp) rfl
  · intro hC pre m u hpre hrun
    cases pre with
    | nil =>
      rw [run_nil, Option.some.injEq] at hrun
      obtain ⟨rfl, -⟩ := List.cons_prefix_cons.mp hpre
      exact hrun ▸ hC
    | cons k pre =>
      obtain ⟨rfl, -⟩ := List.cons_prefix_cons.mp hpre
      rw [run_cons, hstep] at hrun
      cases hrun

theorem meets_nil {C : σ → ℓ → Prop} (s : σ) : Meets step C s [] := by
  intro pre l t hpre _
  simp at hpre

theorem Meets.of_append {C : σ → ℓ → Prop} {s t : σ} {ls ms : List ℓ} (h : Meets step C s (ls ++ ms))
    (hrun : run step s ls = some t) : Meets step C s ls ∧ Meets step C t ms := by
  constructor
  · intro pre l u hpre hu
    exact h pre l u (hpre.trans (List.prefix_append ls ms)) hu
  · intro pre l u hpre hu
    refine h (ls ++ pre) l u ?_ (run_append_some.mpr ⟨t, hrun, hu⟩)
    rw [List.append_assoc]
    exact (List.prefix_append_right_inj ls).mpr hpre

/-- Whether a run meets a condition can be computed. -/
instance decideMeets {C : σ → ℓ → Prop} [∀ s l, Decidable (C s l)] :
    (s : σ) → (ls : List ℓ) → Decidable (Meets step C s ls)
  | s, [] => .isTrue (meets_nil s)
  | s, l :: ls =>
    match h : step s l with
    | some t =>
      have := decideMeets (C := C) t ls
      decidable_of_iff (C s l ∧ Meets step C t ls) (meets_cons h).symm
    | none => decidable_of_iff (C s l) (meets_stuck h).symm

/-- Whether a run keeps to states with `P` can be computed. -/
instance decideAlways {P : σ → Prop} [∀ s, Decidable (P s)] :
    (s : σ) → (ls : List ℓ) → Decidable (Always step P s ls)
  | _, [] => decidable_of_iff _ always_nil.symm
  | s, l :: ls =>
    match h : step s l with
    | some t =>
      have := decideAlways (P := P) t ls
      decidable_of_iff (P s ∧ Always step P t ls) (always_cons h).symm
    | none => decidable_of_iff (P s) (always_stuck h).symm

theorem outputs_nil {ω : Type*} {out : σ → ℓ → List ω} {s : σ} {ls : List ℓ}
    (h : Meets step (fun t l => out t l = []) s ls) : outputs step out s ls = [] := by
  induction ls generalizing s with
  | nil => rfl
  | cons l ls ih =>
    cases hstep : step s l with
    | some t =>
      obtain ⟨hl, hrest⟩ := (meets_cons hstep).mp h
      rw [outputs_cons hstep, hl, ih hrest, List.nil_append]
    | none => rw [outputs, hstep]

/-- What holds at the start and is kept by every step that meets `C` holds after every run whose
steps all meet `C`. -/
theorem run_invariant_of_meets {I : σ → Prop} {C : σ → ℓ → Prop}
    (keep : ∀ t l u, I t → C t l → step t l = some u → I u)
    {s u : σ} {ls : List ℓ} (hs : I s) (hmeets : Meets step C s ls) (hrun : run step s ls = some u) :
    I u := by
  induction ls generalizing s with
  | nil =>
    rw [run_nil, Option.some.injEq] at hrun
    exact hrun ▸ hs
  | cons l ls ih =>
    obtain ⟨t, ht, hrest⟩ := run_cons_some.mp hrun
    obtain ⟨hl, hmeets⟩ := (meets_cons ht).mp hmeets
    exact ih (keep s l t hs hl ht) hmeets hrest

theorem run_outputs_of_meets {ω : Type*} {out : σ → ℓ → List ω} {R : List ω → σ → Prop} {C : σ → ℓ → Prop}
    (keep : ∀ os t l u, R os t → C t l → step t l = some u → R (os ++ out t l) u) {s u : σ} {ls : List ℓ}
    {os : List ω} (hs : R os s) (hmeets : Meets step C s ls) (hrun : run step s ls = some u) :
    R (os ++ outputs step out s ls) u := by
  induction ls generalizing s os with
  | nil =>
    rw [run_nil, Option.some.injEq] at hrun
    rw [outputs, List.append_nil]
    exact hrun ▸ hs
  | cons l ls ih =>
    obtain ⟨t, ht, hrest⟩ := run_cons_some.mp hrun
    obtain ⟨hl, hmeets⟩ := (meets_cons ht).mp hmeets
    rw [outputs_cons ht, ← List.append_assoc]
    exact ih (keep os s l t hs hl ht) hmeets hrest

theorem run_outputs {ω : Type*} {out : σ → ℓ → List ω} {R : List ω → σ → Prop}
    (keep : ∀ os t l u, R os t → step t l = some u → R (os ++ out t l) u) {s u : σ} {ls : List ℓ} {os : List ω}
    (hs : R os s) (hrun : run step s ls = some u) : R (os ++ outputs step out s ls) u :=
  run_outputs_of_meets (C := fun _ _ => True) (fun os t l u hR _ hstep => keep os t l u hR hstep) hs
    (fun _ _ _ _ _ => trivial) hrun

theorem always_of_meets {I P : σ → Prop} {C : σ → ℓ → Prop} (keep : ∀ t l u, I t → C t l → step t l = some u → I u)
    (imp : ∀ t, I t → P t) {s : σ} {ls : List ℓ} (hs : I s) (hmeets : Meets step C s ls) : Always step P s ls := by
  intro pre t hpre hrun
  refine imp t (run_invariant_of_meets keep hs (fun pre' l v hpre' hv => ?_) hrun)
  exact hmeets pre' l v (hpre'.trans hpre) hv

theorem always_of_always {I P Q : σ → Prop} (keep : ∀ t l u, I t → P u → step t l = some u → I u)
    (imp : ∀ t, I t → Q t) {s : σ} {ls : List ℓ} (hs : I s) (h : Always step P s ls) : Always step Q s ls := by
  induction ls generalizing s with
  | nil => exact always_nil.mpr (imp s hs)
  | cons l ls ih =>
    cases hstep : step s l with
    | some t =>
      obtain ⟨-, hrest⟩ := (always_cons hstep).mp h
      have hP : P t := hrest [] t List.nil_prefix rfl
      exact (always_cons hstep).mpr ⟨imp s hs, ih (keep s l t hs hP hstep) hrest⟩
    | none => exact (always_stuck hstep).mpr (imp s hs)

theorem meets_of_meets {I : σ → Prop} {C D : σ → ℓ → Prop} (keep : ∀ t l u, I t → C t l → step t l = some u → I u)
    (imp : ∀ t l, I t → C t l → D t l) {s : σ} {ls : List ℓ} (hs : I s) (hmeets : Meets step C s ls) :
    Meets step D s ls := by
  induction ls generalizing s with
  | nil => exact meets_nil s
  | cons l ls ih =>
    cases hstep : step s l with
    | some t =>
      obtain ⟨hl, hrest⟩ := (meets_cons hstep).mp hmeets
      exact (meets_cons hstep).mpr ⟨imp s l hs hl, ih (keep s l t hs hl hstep) hrest⟩
    | none => exact (meets_stuck hstep).mpr (imp s l hs ((meets_stuck hstep).mp hmeets))

/-- If one step that meets `D` keeps `P` exactly when it meets `C`, then `P` holds all along a run whose steps meet
`D` exactly when they all meet `C`. `I` is an invariant that the step's argument may use. -/
theorem always_iff_meets_of_meets {I P : σ → Prop} {C D : σ → ℓ → Prop}
    (keep : ∀ t l u, I t → P t → D t l → C t l → step t l = some u → I u)
    (exact : ∀ t l u, I t → P t → D t l → step t l = some u → (P u ↔ C t l))
    {s u : σ} {ls : List ℓ} (hI : I s) (hP : P s) (hmeets : Meets step D s ls) (hrun : run step s ls = some u) :
    Always step P s ls ↔ Meets step C s ls := by
  induction ls generalizing s with
  | nil =>
    constructor
    · intro _
      exact meets_nil s
    · intro _
      exact always_nil.mpr hP
  | cons l ls ih =>
    obtain ⟨t, ht, hrest⟩ := run_cons_some.mp hrun
    obtain ⟨hD, hmeets⟩ := (meets_cons ht).mp hmeets
    rw [always_cons ht, meets_cons ht]
    constructor
    · rintro ⟨-, hall⟩
      have hPt : P t := hall [] t List.nil_prefix rfl
      have hC : C s l := (exact s l t hI hP hD ht).mp hPt
      exact ⟨hC, (ih (keep s l t hI hP hD hC ht) hPt hmeets hrest).mp hall⟩
    · rintro ⟨hC, hall⟩
      have hPt : P t := (exact s l t hI hP hD ht).mpr hC
      exact ⟨hP, (ih (keep s l t hI hP hD hC ht) hPt hmeets hrest).mpr hall⟩

theorem always_iff_meets {I P : σ → Prop} {C : σ → ℓ → Prop}
    (keep : ∀ t l u, I t → P t → C t l → step t l = some u → I u)
    (exact : ∀ t l u, I t → P t → step t l = some u → (P u ↔ C t l))
    {s u : σ} {ls : List ℓ} (hI : I s) (hP : P s) (hrun : run step s ls = some u) :
    Always step P s ls ↔ Meets step C s ls :=
  always_iff_meets_of_meets (D := fun _ _ => True) (fun t l u hI hP _ => keep t l u hI hP)
    (fun t l u hI hP _ => exact t l u hI hP) hI hP (fun _ _ _ _ _ => trivial) hrun

theorem meets_congr {I : σ → Prop} {C D : σ → ℓ → Prop} (keep : ∀ t l u, I t → step t l = some u → I u)
    (congr : ∀ t l u, I t → step t l = some u → (C t l ↔ D t l))
    {s u : σ} {ls : List ℓ} (hI : I s) (hrun : run step s ls = some u) :
    Meets step C s ls ↔ Meets step D s ls := by
  induction ls generalizing s with
  | nil => exact ⟨fun _ => meets_nil s, fun _ => meets_nil s⟩
  | cons l ls ih =>
    obtain ⟨t, ht, hrest⟩ := run_cons_some.mp hrun
    rw [meets_cons ht, meets_cons ht, congr s l t hI ht, ih (keep s l t hI ht) hrest]

/-! ## Histories -/

section

variable {ω : Type*} {reads begins ends : ω → Prop}

/-- A history closes a thing at most once: behind what begins to close it nothing reads it, and behind what ends the
closing nothing more happens to it. -/
structure ClosesOnce (reads begins ends : ω → Prop) (os : List ω) : Prop where
  once : os.Pairwise fun o p =>
    (begins o → ¬ reads p ∧ ¬ begins p) ∧ (ends o → ¬ reads p ∧ ¬ begins p ∧ ¬ ends p)
  within : ∀ o ∈ os, ends o → ∃ p ∈ os, begins p

theorem closesOnce_open {os : List ω} (h : ∀ o ∈ os, ¬ begins o ∧ ¬ ends o) : ClosesOnce reads begins ends os where
  once := List.pairwise_of_forall_mem_list fun o ho _ _ =>
    ⟨fun hbegins => absurd hbegins (h o ho).1, fun hends => absurd hends (h o ho).2⟩
  within := fun o ho hends => absurd hends (h o ho).2

theorem ClosesOnce.append {os ps : List ω} (h : ClosesOnce reads begins ends os) (k : ClosesOnce reads begins ends ps)
    (hclosed : ∀ o ∈ os, begins o → ∀ p ∈ ps, ¬ reads p ∧ ¬ begins p ∧ ¬ ends p) :
    ClosesOnce reads begins ends (os ++ ps) := by
  refine ⟨List.pairwise_append.mpr ⟨h.once, k.once, fun o ho p hp => ⟨fun hbegins => ?_, fun hends => ?_⟩⟩, ?_⟩
  · obtain ⟨hreads, hbegins, -⟩ := hclosed o ho hbegins p hp
    exact ⟨hreads, hbegins⟩
  · obtain ⟨b, hb, hbegins⟩ := h.within o ho hends
    exact hclosed b hb hbegins p hp
  · intro o ho hends
    rcases List.mem_append.mp ho with ho | ho
    · obtain ⟨b, hb, hbegins⟩ := h.within o ho hends
      exact ⟨b, List.mem_append_left ps hb, hbegins⟩
    · obtain ⟨b, hb, hbegins⟩ := k.within o ho hends
      exact ⟨b, List.mem_append_right os hb, hbegins⟩

/-- From `s` to `u` the history closes the thing once at most. What closes it leaves it closed, and where it is closed
it stays so and nothing happens to it. -/
structure Settles (reads begins ends : ω → Prop) (history : σ → List ω) (closed : σ → Prop) (s u : σ) : Prop where
  stays : closed s → closed u
  grows : ∃ os, history u = history s ++ os ∧ ClosesOnce reads begins ends os ∧ ((∃ o ∈ os, begins o) → closed u) ∧
    (closed s → ∀ o ∈ os, ¬ reads o ∧ ¬ begins o ∧ ¬ ends o)

variable {history : σ → List ω} {closed : σ → Prop} {s t u : σ}

theorem Settles.silent (hclosed : closed s → closed u)
    (h : ∃ os, history u = history s ++ os ∧ ∀ o ∈ os, ¬ reads o ∧ ¬ begins o ∧ ¬ ends o) :
    Settles reads begins ends history closed s u := by
  obtain ⟨os, hhistory, hos⟩ := h
  refine ⟨hclosed, os, hhistory, closesOnce_open fun o ho => (hos o ho).2, ?_, fun _ => hos⟩
  rintro ⟨o, ho, hbegins⟩
  exact absurd hbegins (hos o ho).2.1

theorem Settles.refl (s : σ) : Settles reads begins ends history closed s s :=
  .silent id ⟨[], by simp, by simp⟩

theorem Settles.trans (h : Settles reads begins ends history closed s t)
    (k : Settles reads begins ends history closed t u) : Settles reads begins ends history closed s u := by
  obtain ⟨os, hs, honce, hcloses, hsilent⟩ := h.grows
  obtain ⟨ps, ht, honce', hcloses', hsilent'⟩ := k.grows
  refine ⟨k.stays ∘ h.stays, os ++ ps, by rw [ht, hs, List.append_assoc], ?_, ?_, ?_⟩
  · exact honce.append honce' fun o ho hbegins => hsilent' (hcloses ⟨o, ho, hbegins⟩)
  · rintro ⟨o, ho, hbegins⟩
    rcases List.mem_append.mp ho with ho | ho
    · exact k.stays (hcloses ⟨o, ho, hbegins⟩)
    · exact hcloses' ⟨o, ho, hbegins⟩
  · intro hclosed o ho
    exact (List.mem_append.mp ho).elim (hsilent hclosed o) (hsilent' (h.stays hclosed) o)

/-- Where all steps that meet `C` settle it, a thing whose closing has begun stays closed behind that. -/
theorem run_settles {I : σ → Prop} {C : σ → ℓ → Prop} (keep : ∀ t l u, I t → C t l → step t l = some u → I u)
    (settles : ∀ t l u, I t → C t l → step t l = some u → Settles reads begins ends history closed t u)
    {ls ms : List ℓ} (hs : I s) (hempty : history s = []) (hmeets : Meets step C s (ls ++ ms))
    (hrun : run step s ls = some t) (hbegins : ∃ o ∈ history t, begins o) (hlater : run step t ms = some u) :
    I u ∧ closed u ∧ (∀ o ∈ (history u).drop (history t).length, ¬ reads o ∧ ¬ begins o ∧ ¬ ends o) ∧
      ClosesOnce reads begins ends (history u) := by
  have hboth : ∀ {s u : σ} {ls : List ℓ}, I s → Meets step C s ls → run step s ls = some u →
      I u ∧ Settles reads begins ends history closed s u := by
    intro s u ls hs hmeets hrun
    exact run_invariant_of_meets (I := fun t => I t ∧ Settles reads begins ends history closed s t)
      (fun t l v ht hl hstep => ⟨keep t l v ht.1 hl hstep, ht.2.trans (settles t l v ht.1 hl hstep)⟩)
      ⟨hs, .refl s⟩ hmeets hrun
  obtain ⟨hmeets, hmeets'⟩ := hmeets.of_append hrun
  obtain ⟨ht, hbefore⟩ := hboth hs hmeets hrun
  obtain ⟨hu, hbehind⟩ := hboth ht hmeets' hlater
  obtain ⟨os, hos, -, hcloses, -⟩ := hbefore.grows
  rw [hos, hempty, List.nil_append] at hbegins
  have hclosed := hcloses hbegins
  obtain ⟨ps, hps, -, -, hsilent⟩ := hbehind.grows
  obtain ⟨qs, hqs, honce, -⟩ := (hbefore.trans hbehind).grows
  refine ⟨hu, hbehind.stays hclosed, ?_, ?_⟩
  · rw [hps, List.drop_left]
    exact hsilent hclosed
  · rw [hqs, hempty, List.nil_append]
    exact honce

end

/-! ## Records -/

section

variable {ρ : Type*} {write : σ → ℓ → ρ → ρ}

/-- The machine with a record beside its state, which its steps write and do not read. -/
def recorded (step : σ → ℓ → Option σ) (write : σ → ℓ → ρ → ρ) (p : σ × ρ) (l : ℓ) : Option (σ × ρ) :=
  (step p.1 l).map fun t => (t, write p.1 l p.2)

theorem recorded_inv {s : σ} {r : ρ} {l : ℓ} {q : σ × ρ} (h : recorded step write (s, r) l = some q) :
    step s l = some q.1 ∧ q.2 = write s l r := by
  obtain ⟨t, hstep, rfl⟩ := Option.map_eq_some_iff.mp h
  exact ⟨hstep, rfl⟩

theorem recorded_some {s t : σ} {l : ℓ} (h : step s l = some t) (r : ρ) :
    recorded step write (s, r) l = some (t, write s l r) := by
  rw [recorded, h, Option.map_some]

theorem run_recorded {s u : σ} {ls : List ℓ} (h : run step s ls = some u) (r : ρ) :
    ∃ r', run (recorded step write) (s, r) ls = some (u, r') := by
  induction ls generalizing s r with
  | nil =>
    rw [run_nil, Option.some.injEq] at h
    exact ⟨r, by rw [run_nil, h]⟩
  | cons l ls ih =>
    obtain ⟨t, ht, hrest⟩ := run_cons_some.mp h
    obtain ⟨r', hr'⟩ := ih hrest (write s l r)
    exact ⟨r', run_cons_some.mpr ⟨_, recorded_some ht r, hr'⟩⟩

end

/-! ## Queues -/

/-- What the steps of a run take from a queue is what they put into it, in order, and the rest waits. -/
theorem outputs_queue {ω : Type*} {I : σ → Prop} {queue : σ → List ω} {taken put : σ → ℓ → List ω}
    (keep : ∀ t l u, I t → step t l = some u → I u)
    (law : ∀ t l u, I t → step t l = some u → taken t l ++ queue u = queue t ++ put t l)
    {s u : σ} {ls : List ℓ} (hs : I s) (hrun : run step s ls = some u) :
    outputs step taken s ls ++ queue u = queue s ++ outputs step put s ls := by
  induction ls generalizing s with
  | nil =>
    rw [run_nil, Option.some.injEq] at hrun
    rw [outputs, outputs, List.nil_append, List.append_nil, hrun]
  | cons l ls ih =>
    obtain ⟨t, ht, hrest⟩ := run_cons_some.mp hrun
    calc outputs step taken s (l :: ls) ++ queue u
        = taken s l ++ (outputs step taken t ls ++ queue u) := by rw [outputs_cons ht, List.append_assoc]
      _ = (taken s l ++ queue t) ++ outputs step put t ls := by rw [ih (keep s l t hs ht) hrest, List.append_assoc]
      _ = queue s ++ outputs step put s (l :: ls) := by rw [law s l t hs ht, outputs_cons ht, List.append_assoc]

end Machine
