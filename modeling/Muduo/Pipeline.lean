import Mathlib.Algebra.BigOperators.Group.Finset.Basic
import Mathlib.Logic.Function.Basic
import Muduo.Potential
import Muduo.Service

/-! # Pipelines

A queue, workers that take from it, and a second queue that one party empties. Without workers that party does
everything itself. A pipeline is a service, and with one worker it keeps the order.
-/

namespace Machine

@[ext]
structure Pipeline (τ ω : Type*) where
  asked : List ω
  /-- The first queue. -/
  waiting : List ω
  workers : Finset τ
  held : τ → Option ω
  /-- The second queue. -/
  queued : List ω
  given : List ω

namespace Pipeline

variable {τ ω : Type*}

inductive Label (τ ω : Type*) where
  | hire (t : τ)
  | ask (o : ω)
  /-- Asked and given at once. -/
  | serve (o : ω)
  | take (t : τ)
  | pass (t : τ)
  | give

def init : Pipeline τ ω :=
  { asked := [], waiting := [], workers := ∅, held := fun _ => none, queued := [], given := [] }

variable [DecidableEq τ]

/-- A worker that holds nothing takes from the first queue. -/
def take (s : Pipeline τ ω) (t : τ) : Option (Pipeline τ ω) :=
  match s.held t, s.waiting with
  | none, o :: rest => some { s with waiting := rest, held := Function.update s.held t (some o) }
  | _, _ => none

/-- A worker passes on what it holds. -/
def pass (s : Pipeline τ ω) (t : τ) : Option (Pipeline τ ω) :=
  (s.held t).map fun o => { s with held := Function.update s.held t none, queued := s.queued ++ [o] }

def give (s : Pipeline τ ω) : Option (Pipeline τ ω) :=
  match s.queued with
  | o :: rest => some { s with queued := rest, given := s.given ++ [o] }
  | [] => none

def step (s : Pipeline τ ω) : Label τ ω → Option (Pipeline τ ω)
  | .hire t => some { s with workers := insert t s.workers }
  | .ask o => some { s with asked := s.asked ++ [o], waiting := s.waiting ++ [o] }
  | .serve o =>
    if s.workers = ∅ ∧ s.waiting = [] then some { s with asked := s.asked ++ [o], given := s.given ++ [o] } else none
  | .take t => if t ∈ s.workers then s.take t else none
  | .pass t => s.pass t
  | .give => s.give

/-! ## What a step does -/

theorem take_inv {s u : Pipeline τ ω} {t : τ} (htake : s.take t = some u) :
    ∃ o rest, s.held t = none ∧ s.waiting = o :: rest ∧
      u = { s with waiting := rest, held := Function.update s.held t (some o) } := by
  unfold take at htake
  split at htake
  · rename_i o rest hheld hwaiting
    exact ⟨o, rest, hheld, hwaiting, (Option.some.inj htake).symm⟩
  · cases htake

theorem pass_inv {s u : Pipeline τ ω} {t : τ} (hpass : s.pass t = some u) :
    ∃ o, s.held t = some o ∧ u = { s with held := Function.update s.held t none, queued := s.queued ++ [o] } := by
  unfold pass at hpass
  obtain ⟨o, hheld, rfl⟩ := Option.map_eq_some_iff.mp hpass
  exact ⟨o, hheld, rfl⟩

omit [DecidableEq τ] in
theorem give_inv {s u : Pipeline τ ω} (hgive : s.give = some u) :
    ∃ o rest, s.queued = o :: rest ∧ u = { s with queued := rest, given := s.given ++ [o] } := by
  unfold give at hgive
  split at hgive
  · rename_i o rest hqueued
    exact ⟨o, rest, hqueued, (Option.some.inj hgive).symm⟩
  · cases hgive

/-- Only workers hold things, and only what they held is in the second queue. -/
structure Sound (s : Pipeline τ ω) : Prop where
  employed : ∀ t, s.held t ≠ none → t ∈ s.workers
  passed : s.workers = ∅ → s.queued = []

theorem step_sound {s u : Pipeline τ ω} {l : Label τ ω} (h : s.Sound) (hstep : step s l = some u) : u.Sound := by
  cases l with
  | hire t =>
    cases hstep
    refine ⟨fun v hv => Finset.mem_insert_of_mem (h.employed v hv), fun hnone => ?_⟩
    exact absurd hnone (Finset.insert_ne_empty t s.workers)
  | ask o =>
    cases hstep
    exact ⟨h.employed, h.passed⟩
  | serve o =>
    obtain ⟨-, rfl⟩ := guard_some.mp hstep
    exact ⟨h.employed, h.passed⟩
  | take t =>
    obtain ⟨ht, htake⟩ := Option.ite_none_right_eq_some.mp hstep
    obtain ⟨o, rest, -, -, rfl⟩ := take_inv htake
    refine ⟨fun v hv => ?_, h.passed⟩
    by_cases hvt : v = t
    · exact hvt ▸ ht
    · exact h.employed v (by simpa [Function.update_of_ne hvt] using hv)
  | pass t =>
    obtain ⟨o, hheld, rfl⟩ := pass_inv hstep
    have ht : t ∈ s.workers := h.employed t (by simp [hheld])
    refine ⟨fun v hv => ?_, fun (hnone : s.workers = ∅) => by simp [hnone] at ht⟩
    by_cases hvt : v = t
    · exact hvt ▸ ht
    · exact h.employed v (by simpa [Function.update_of_ne hvt] using hv)
  | give =>
    obtain ⟨o, rest, hqueued, rfl⟩ := give_inv hstep
    exact ⟨h.employed, fun hnone => absurd (h.passed hnone) (by simp [hqueued])⟩

/-! ## A pipeline is a service -/

/-- What is on its way. -/
def pending (s : Pipeline τ ω) : Multiset ω :=
  s.queued + ∑ t ∈ s.workers, ((s.held t).toList : Multiset ω) + s.waiting

def service (s : Pipeline τ ω) : Service ω := { asked := s.asked, given := s.given, pending := s.pending }

theorem take_pending {s u : Pipeline τ ω} {t : τ} (ht : t ∈ s.workers) (htake : s.take t = some u) :
    u.pending = s.pending := by
  obtain ⟨o, rest, hheld, hwaiting, rfl⟩ := take_inv htake
  have hsum := sum_changed (f := fun v => ((s.held v).toList : Multiset ω))
    (g := fun v => ((Function.update s.held t (some o) v).toList : Multiset ω)) ht
    fun v hv => by rw [Function.update_of_ne hv]
  simp only [hheld, Option.toList_none, Multiset.coe_nil, add_zero, Function.update_self, Option.toList_some,
    Multiset.coe_singleton] at hsum
  simp only [pending, hsum, hwaiting, ← Multiset.cons_coe, ← Multiset.singleton_add]
  abel

theorem pass_pending {s u : Pipeline τ ω} {t : τ} (ht : t ∈ s.workers) (hpass : s.pass t = some u) :
    u.pending = s.pending := by
  obtain ⟨o, hheld, rfl⟩ := pass_inv hpass
  have hsum := sum_changed (f := fun v => ((s.held v).toList : Multiset ω))
    (g := fun v => ((Function.update s.held t none v).toList : Multiset ω)) ht
    fun v hv => by rw [Function.update_of_ne hv]
  simp only [hheld, Option.toList_none, Multiset.coe_nil, add_zero, Function.update_self, Option.toList_some,
    Multiset.coe_singleton] at hsum
  simp only [pending, ← hsum, ← Multiset.coe_add, Multiset.coe_singleton]
  abel

omit [DecidableEq τ] in
theorem give_pending {s u : Pipeline τ ω} (hgive : s.give = some u) : s.pending.card = u.pending.card + 1 := by
  obtain ⟨o, rest, hqueued, rfl⟩ := give_inv hgive
  simp only [pending, hqueued, Multiset.card_add, Multiset.coe_card, List.length_cons]
  omega

theorem hire_pending {s : Pipeline τ ω} (h : s.Sound) (t : τ) :
    pending { s with workers := insert t s.workers } = s.pending := by
  have hsum : ∑ v ∈ s.workers, ((s.held v).toList : Multiset ω) =
      ∑ v ∈ insert t s.workers, ((s.held v).toList : Multiset ω) := by
    refine Finset.sum_subset (Finset.subset_insert t s.workers) fun v _ hv => ?_
    have hnone : s.held v = none := by
      by_contra hheld
      exact hv (h.employed v hheld)
    simp [hnone]
  simp only [pending, hsum]

variable [DecidableEq ω]

/-- The second queue and the first go on, and asking and giving are those of the service. -/
theorem service_simulated : Simulates (step (τ := τ)) (Service.step (ω := ω)) (fun _ _ => True)
    (fun s t => s.Sound ∧ t = s.service) := by
  rintro s l u t ⟨h, rfl⟩ hstep
  refine ⟨u.service, ?_, step_sound h hstep, rfl⟩
  have hstay : u.asked = s.asked → u.given = s.given → u.pending = s.pending →
      Reaches Service.step (fun _ _ => True) s.service u.service := by
    intro hasked hgiven hpending
    rw [service, service, hasked, hgiven, hpending]
    exact reaches_refl _
  cases l with
  | hire t =>
    cases hstep
    exact hstay rfl rfl (hire_pending h t)
  | ask o =>
    cases hstep
    refine reaches_step (l := .ask o) ?_ trivial
    simp only [Service.step, service, pending, ← Multiset.coe_add, Multiset.coe_singleton, ← Multiset.singleton_add,
      Option.some.injEq, Service.mk.injEq, true_and]
    abel
  | serve o =>
    obtain ⟨-, rfl⟩ := guard_some.mp hstep
    refine (reaches_step (l := .ask o) rfl trivial).trans (reaches_step (l := .give o) ?_ trivial)
    simp [Service.step, service, pending]
  | take t =>
    obtain ⟨ht, htake⟩ := Option.ite_none_right_eq_some.mp hstep
    have hpending := take_pending ht htake
    obtain ⟨o, rest, -, -, rfl⟩ := take_inv htake
    exact hstay rfl rfl hpending
  | pass t =>
    obtain ⟨o, hheld, hu⟩ := pass_inv hstep
    have hpending := pass_pending (h.employed t (by simp [hheld])) hstep
    exact hstay (by rw [hu]) (by rw [hu]) hpending
  | give =>
    obtain ⟨o, rest, hqueued, rfl⟩ := give_inv hstep
    refine reaches_step (l := .give o) ?_ trivial
    simp [Service.step, service, pending, hqueued, ← Multiset.cons_coe, Multiset.cons_add]

/-! ## One worker -/

omit [DecidableEq τ] [DecidableEq ω] in
theorem Sound.held_none {s : Pipeline τ ω} (h : s.Sound) (hnone : s.workers = ∅) (t : τ) : s.held t = none := by
  by_contra hheld
  simpa [hnone] using h.employed t hheld

/-- With no other worker than `t` what was asked for is given, or on its way in the same order. -/
def InOrder (t : τ) (s : Pipeline τ ω) : Prop :=
  s.workers ⊆ {t} → s.given ++ (s.queued ++ (s.held t).toList ++ s.waiting) = s.asked

omit [DecidableEq ω] in
theorem step_inOrder {s u : Pipeline τ ω} {l : Label τ ω} {t : τ} (h : s.Sound) (horder : s.InOrder t)
    (hstep : step s l = some u) : u.InOrder t := by
  unfold InOrder at horder ⊢
  cases l with
  | hire v =>
    cases hstep
    exact fun hone => horder ((Finset.subset_insert v s.workers).trans hone)
  | ask o =>
    cases hstep
    intro hone
    simp [← horder hone]
  | serve o =>
    obtain ⟨⟨hnone, hwaiting⟩, rfl⟩ := guard_some.mp hstep
    intro hone
    simp [← horder hone, h.passed hnone, h.held_none hnone, hwaiting]
  | take v =>
    obtain ⟨hv, htake⟩ := Option.ite_none_right_eq_some.mp hstep
    obtain ⟨o, rest, hheld, hwaiting, rfl⟩ := take_inv htake
    intro hone
    have hvt : v = t := Finset.mem_singleton.mp (hone hv)
    subst hvt
    simp [← horder hone, hheld, hwaiting]
  | pass v =>
    obtain ⟨o, hheld, rfl⟩ := pass_inv hstep
    intro hone
    have hvt : v = t := Finset.mem_singleton.mp (hone (h.employed v (by simp [hheld])))
    subst hvt
    simp [← horder hone, hheld]
  | give =>
    obtain ⟨o, rest, hqueued, rfl⟩ := give_inv hstep
    intro hone
    simp [← horder hone, hqueued]

/-! ## Runs -/

omit [DecidableEq τ] [DecidableEq ω] in
theorem init_sound : (init : Pipeline τ ω).Sound := ⟨fun _ h => absurd rfl h, fun _ => rfl⟩

theorem reaches_service {s : Pipeline τ ω} (h : Reaches step (fun _ _ => True) init s) :
    Reaches Service.step (fun _ _ => True) Service.init s.service := by
  obtain ⟨ls, hrun, -⟩ := h
  obtain ⟨v, hv, -, rfl⟩ := service_simulated.run ⟨init_sound, rfl⟩ hrun
  exact hv

theorem mem_asked_of_queued {s : Pipeline τ ω} (h : Reaches step (fun _ _ => True) init s) {o : ω} (ho : o ∈ s.queued) :
    o ∈ s.asked := by
  have haccounts : (s.asked : Multiset ω) = s.given + s.pending := Service.reaches_accounts (reaches_service h)
  have hmem : o ∈ (s.asked : Multiset ω) := by
    rw [haccounts, pending]
    simp [ho]
  simpa using hmem

omit [DecidableEq ω] in
theorem reaches_inOrder {s : Pipeline τ ω} (h : Reaches step (fun _ _ => True) init s) (t : τ) : s.InOrder t :=
  (h.invariant (I := fun s => s.Sound ∧ s.InOrder t)
    (fun _ _ _ hI _ hstep => ⟨step_sound hI.1 hstep, step_inOrder hI.1 hI.2 hstep⟩) ⟨init_sound, fun _ => rfl⟩).2

end Pipeline

end Machine
