import Muduo.TimerQueue.Owners

/-! # Stale ids

`cancelInLoop` looks a timer up by its address alone, so an id whose timer is gone cancels whatever
timer lives there now.
-/

namespace Muduo.TimerQueue

variable {ι : Type*}

/-- The timer with this sequence number has been deleted, or was never created. -/
def Deleted (q : TimerQueue ι) (own : Nat) : Prop := ∀ a, q.live a = true → q.getsequence a ≠ own

/-- If the step is a cancel, it removes no timer but the id's own. -/
def Harmless [Seconds ι] (q : TimerQueue ι) (l : Label ι) : Prop :=
  ∀ i u, q.cancels l = some i → step q l = some u →
    (q.Deleted i.own → u.pTimers = q.pTimers) ∧
    ∀ e ∈ q.pTimers, e ∉ u.pTimers → q.getsequence e.second = i.own

/-- If the step is a cancel, no other pending timer has the address that the id carries. -/
def Unshared (q : TimerQueue ι) (l : Label ι) : Prop :=
  ∀ i, q.cancels l = some i → ∀ e ∈ q.pTimers, e.second = i.id.timer → q.getsequence e.second = i.own

theorem cancels_spec [Seconds ι] {q u : TimerQueue ι} {l : Label ι} {i : Issued} (hl : q.cancels l = some i)
    (hstep : step q l = some u) : ∃ runs, u = cancelInLoop { q with tempRuns := runs } i.id := by
  cases l with
  | cancelTimer j =>
    obtain ⟨-, rfl⟩ := Machine.guard_some.mp hstep
    simp only [cancels, Option.some.injEq] at hl
    subst hl
    exact ⟨q.tempRuns, rfl⟩
  | callFunctor now =>
    obtain ⟨f, rest, -, hruns, rfl⟩ := callFunctor_inv hstep
    simp only [cancels, hruns] at hl
    cases f with
    | addTimerInLoop timer => cases hl
    | cancelInLoop j =>
      simp only [Option.some.injEq] at hl
      subst hl
      exact ⟨rest, rfl⟩
  | _ => cases hl

theorem cancelInLoop_removes {q : TimerQueue ι} (h : ∀ e ∈ q.pTimers, q.getStamp e.second = e.first)
    (id : TimerId) {e : Entry} (he : e ∈ q.pTimers) : e ∉ (q.cancelInLoop id).pTimers ↔ e.second = id.timer := by
  rw [← entry_eq h he]
  rcases q.cancelInLoop_eq id with ⟨-, heq⟩ | ⟨hno, heq⟩
  · rw [heq, OrderedSet.mem_erase, not_and]
    constructor
    · intro hgone
      by_contra hne
      exact hgone hne he
    · rintro heq hne
      exact absurd heq hne
  · rw [heq]
    constructor
    · intro hnot
      exact absurd he hnot
    · rintro rfl
      exact absurd he hno

theorem step_harmless [Seconds ι] {q u : TimerQueue ι} {l : Label ι} (h : q.Owned) (hstep : step q l = some u) :
    q.Harmless l ↔ q.Unshared l := by
  constructor
  · intro hharmless i hl e he hsecond
    obtain ⟨runs, rfl⟩ := cancels_spec hl hstep
    refine (hharmless i _ hl hstep).2 e he ?_
    exact (cancelInLoop_removes (q := { q with tempRuns := runs }) h.stamps i.id he).mpr hsecond
  · intro hunshared i v hl hv
    obtain ⟨runs, rfl⟩ := cancels_spec hl hv
    refine ⟨fun hdeleted => ?_, fun e he hgone => ?_⟩
    · rcases cancelInLoop_eq { q with tempRuns := runs } i.id with ⟨hmem, -⟩ | ⟨-, heq⟩
      · -- The timer that has the id's address is pending, hence alive, hence not the id's own.
        exact absurd (hunshared i hl _ hmem rfl) (hdeleted _ (h.live_of_mem hmem))
      · rw [heq]
    · refine hunshared i hl e he ?_
      exact (cancelInLoop_removes (q := { q with tempRuns := runs }) h.stamps i.id he).mp hgone

/-- In every run: no cancel removes a timer other than its id's own exactly when, at every cancel, no
other pending timer has the address that the id carries. -/
theorem stale_cancel_harmless [Seconds ι] (mem : Addr → Timer ι) (labels : List (Label ι)) (q : TimerQueue ι)
    (hrun : Machine.run step (init mem) labels = some q) :
    Machine.Meets step Harmless (init mem) labels ↔ Machine.Meets step Unshared (init mem) labels :=
  Machine.meets_congr (fun _ _ _ h hstep => step_owned h hstep) (fun _ _ _ h hstep => step_harmless h hstep)
    (init_owned mem) hrun

/-- The id of a one-shot timer at address 16, the first timer of the run. -/
def idA : Issued := ⟨⟨16, 1⟩, 1⟩

/-- A second cancel, as in the repository's own example. -/
def cancelTwice : List (Label Nat) := [.addTimer 16 5000000 0 0, .cancelTimer idA, .cancelTimer idA]

theorem stale_cancel_harmless_twice : Machine.Meets step Harmless (init fun _ => ⟨0, 0, 0⟩) cancelTwice := by
  have hrun : Machine.run step (init fun _ => ⟨0, 0, 0⟩) cancelTwice = some _ := rfl
  refine (stale_cancel_harmless _ cancelTwice _ hrun).mpr ?_
  refine (Machine.meets_cons rfl).mpr ⟨?_, (Machine.meets_cons rfl).mpr ⟨?_, (Machine.meets_cons rfl).mpr
    ⟨?_, Machine.meets_nil _⟩⟩⟩
  · rintro i ⟨⟩
  · rintro i ⟨⟩
    decide
  · rintro i ⟨⟩
    decide

/-- A new timer gets the address of the cancelled one, and the second cancel removes it. -/
theorem stale_cancel_removes_other : ¬ Machine.Meets step Harmless (init fun _ => ⟨0, 0, 0⟩)
    ([.addTimer 16 5000000 0 0, .cancelTimer idA,
      .addTimer 16 7000000 0 0, .cancelTimer idA] : List (Label Nat)) := by
  intro h
  have hother := (h [.addTimer 16 5000000 0 0, .cancelTimer idA, .addTimer 16 7000000 0 0] (.cancelTimer idA) _
    (List.prefix_refl _) rfl idA _ rfl rfl).2 ⟨7000000, 16⟩ (by decide) (by decide)
  exact absurd hother (by decide)

end Muduo.TimerQueue
