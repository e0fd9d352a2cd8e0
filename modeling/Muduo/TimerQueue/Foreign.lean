import Muduo.TimerQueue.Owners

/-! # `addTimer` in another thread

The `Timer` is handed to the loop's thread before its sequence number is read, and may be gone by then.
-/

namespace Muduo.TimerQueue

variable {ι : Type*}

/-- Every call of `addTimer` in another thread that has its sequence number still to read finds its
timer alive, and every id that was returned carries the number of its own timer. -/
structure Outlived (q : TimerQueue ι) : Prop where
  alive : ∀ c ∈ q.adding, q.live c.timer = true ∧ q.getsequence c.timer = c.own
  carries : ∀ i ∈ q.issued, i.id.sequence = i.own

/-- The step does not delete a timer whose `addTimer` has its sequence number still to read: `reset` finds
no such one-shot timer in its batch, and `cancelInLoop` none under a stale id. -/
def Spares [Seconds ι] (q : TimerQueue ι) (l : Label ι) : Prop :=
  (∀ now, l = .resetOne now → ∀ e ∈ q.phase.batch.head?, (q.mem e.second).isRepeat = false →
    ∀ c ∈ q.adding, c.timer ≠ e.second) ∧
  (∀ i, q.cancels l = some i → ⟨q.getStamp i.id.timer, i.id.timer⟩ ∈ q.pTimers →
    ∀ c ∈ q.adding, c.timer ≠ i.id.timer)

theorem init_outlived (mem : Addr → Timer ι) : (init mem).Outlived where
  alive := fun _ hc => absurd hc List.not_mem_nil
  carries := fun _ hi => absurd hi List.not_mem_nil

/-! ## One step -/

theorem Outlived.keep {q u : TimerQueue ι} (h : q.Outlived) (hissued : u.issued = q.issued)
    (hadding : u.adding = q.adding)
    (hmem : ∀ a, q.live a = true → u.live a = true ∧ u.getsequence a = q.getsequence a) : u.Outlived := by
  refine ⟨fun c hc => ?_, fun i hi => h.carries i (hissued ▸ hi)⟩
  obtain ⟨hlive, hown⟩ := h.alive c (hadding ▸ hc)
  obtain ⟨hlive', hsame⟩ := hmem c.timer hlive
  exact ⟨hlive', hsame.trans hown⟩

theorem Outlived.delete {q u : TimerQueue ι} (h : q.Outlived) {timer : Addr} (hissued : u.issued = q.issued)
    (hadding : u.adding = q.adding) (hlive : u.live = Function.update q.live timer false) (hmem : u.mem = q.mem) :
    u.Outlived ↔ ∀ c ∈ q.adding, c.timer ≠ timer := by
  constructor
  · rintro hu c hc rfl
    have halive := (hu.alive c (hadding ▸ hc)).1
    rw [hlive, Function.update_self] at halive
    cases halive
  · intro hne
    refine ⟨fun c hc => ?_, fun i hi => h.carries i (hissued ▸ hi)⟩
    have hc : c ∈ q.adding := hadding ▸ hc
    rw [hlive, Function.update_of_ne (hne c hc), getsequence, hmem]
    exact h.alive c hc

theorem newTimer_keeps {q : TimerQueue ι} {timer : Addr} (hfree : q.Free timer) (when_ : Timestamp) (interval : ι)
    {a : Addr} (ha : q.live a = true) :
    (q.newTimer timer when_ interval).live a = true ∧
      (q.newTimer timer when_ interval).getsequence a = q.getsequence a := by
  have hne : a ≠ timer := by
    rintro rfl
    rw [hfree.1] at ha
    cases ha
  simp only [newTimer, getsequence, Function.update_of_ne hne]
  exact ⟨ha, trivial⟩

theorem cancel_outlived {q u : TimerQueue ι} (h : q.Outlived) {i : Issued} (runs : List Queued)
    (hu : u = cancelInLoop { q with tempRuns := runs } i.id) :
    u.Outlived ↔ (⟨q.getStamp i.id.timer, i.id.timer⟩ ∈ q.pTimers → ∀ c ∈ q.adding, c.timer ≠ i.id.timer) := by
  rcases cancelInLoop_eq { q with tempRuns := runs } i.id with ⟨hmem, heq⟩ | ⟨hno, heq⟩
  · have hdelete : u.Outlived ↔ ∀ c ∈ q.adding, c.timer ≠ i.id.timer :=
      h.delete (by rw [hu, heq]) (by rw [hu, heq]) (by rw [hu, heq]) (by rw [hu, heq])
    rw [hdelete]
    exact ⟨fun hne _ => hne, fun hne => hne hmem⟩
  · rw [hu, heq]
    exact ⟨fun _ hmem => absurd hmem hno, fun _ => ⟨h.alive, h.carries⟩⟩

variable [Seconds ι]

theorem resetOne_outlived {q : TimerQueue ι} (h : q.Outlived) (e : Entry) (todo : List Entry) (now : Timestamp) :
    Outlived { q.resetOne e now with phase := .resetting todo } ↔
      ((q.mem e.second).isRepeat = false → ∀ c ∈ q.adding, c.timer ≠ e.second) := by
  unfold resetOne
  cases hrepeat : (q.mem e.second).isRepeat with
  | true =>
    refine ⟨fun _ hno => absurd hno (by decide), fun _ => h.keep rfl rfl fun a ha => ⟨ha, ?_⟩⟩
    by_cases hae : a = e.second
    · simp [insert, getsequence, hae, Timer.restart]
    · simp [insert, getsequence, Function.update_of_ne hae]
  | false =>
    have hdelete : Outlived { q.deleteTimer e.second with phase := .resetting todo } ↔
        ∀ c ∈ q.adding, c.timer ≠ e.second := h.delete rfl rfl rfl rfl
    exact hdelete.trans ⟨fun hne _ => hne, fun hne => hne rfl⟩

theorem spares_other {q : TimerQueue ι} {l : Label ι} (hreset : ∀ now, l ≠ .resetOne now)
    (hcancel : ∀ i, q.cancels l ≠ some i) : q.Spares l :=
  ⟨fun now hl => absurd hl (hreset now), fun i hl => absurd hl (hcancel i)⟩

theorem iff_spares {q u : TimerQueue ι} {l : Label ι} (hreset : ∀ now, l ≠ .resetOne now)
    (hcancel : ∀ i, q.cancels l ≠ some i) (hu : u.Outlived) : u.Outlived ↔ q.Spares l :=
  ⟨fun _ => spares_other hreset hcancel, fun _ => hu⟩

theorem spares_idle {q : TimerQueue ι} (h : q.adding = []) (l : Label ι) : q.Spares l := by
  constructor
  · intro now _ e _ _ c hc
    exact absurd (h ▸ hc) List.not_mem_nil
  · intro i _ _ c hc
    exact absurd (h ▸ hc) List.not_mem_nil

theorem step_outlived {q u : TimerQueue ι} {l : Label ι} (h : q.Outlived) (hstep : step q l = some u) :
    u.Outlived ↔ q.Spares l := by
  cases l with
  | cancelTimer i =>
    obtain ⟨-, rfl⟩ := Machine.guard_some.mp hstep
    refine (cancel_outlived h q.tempRuns rfl).trans
      ⟨fun hne => ⟨fun now hl => absurd hl (by simp), fun j hj => ?_⟩, fun hs => hs.2 i rfl⟩
    cases hj
    exact hne
  | callFunctor now =>
    obtain ⟨f, rest, hphase, hruns, rfl⟩ := callFunctor_inv hstep
    cases f with
    | addTimerInLoop timer =>
      obtain ⟨alarm, halarm⟩ := addTimerInLoop_eq { q with tempRuns := rest } timer now
      rw [callFunctor, halarm]
      exact iff_spares (by simp) (by simp [cancels, hruns]) (h.keep rfl rfl fun a ha => ⟨ha, rfl⟩)
    | cancelInLoop i =>
      refine (cancel_outlived h rest rfl).trans
        ⟨fun hne => ⟨fun now hl => absurd hl (by simp), fun j hj => ?_⟩, fun hs => hs.2 i (by simp [cancels, hruns])⟩
      simp only [cancels, hruns, Option.some.injEq] at hj
      exact hj ▸ hne
  | resetOne now =>
    obtain ⟨e, todo, hphase, rfl⟩ := resetOne_inv hstep
    rw [resetOne_outlived h]
    refine ⟨fun hne => ⟨fun now' _ d hd => ?_, fun i hi => absurd hi (by simp [cancels])⟩, fun hs => hs.1 now rfl e ?_⟩
    · simp only [hphase, Phase.batch, List.head?_cons, Option.mem_some_iff] at hd
      exact hd ▸ hne
    · simp [hphase, Phase.batch]
  | scribble timer t =>
    obtain ⟨hdead, rfl⟩ := Machine.guard_some.mp hstep
    refine iff_spares (by simp) (by simp [cancels]) (h.keep rfl rfl fun a ha => ⟨ha, ?_⟩)
    have hne : a ≠ timer := by
      rintro rfl
      rw [hdead] at ha
      cases ha
    simp [getsequence, Function.update_of_ne hne]
  | addTimer timer when_ interval now =>
    obtain ⟨⟨-, hfree⟩, rfl⟩ := Machine.guard_some.mp hstep
    obtain ⟨alarm, halarm⟩ := q.addTimer_eq timer when_ interval now
    rw [halarm]
    refine iff_spares (by simp) (by simp [cancels]) ⟨fun c hc => ?_, fun i hi => ?_⟩
    · obtain ⟨hlive, hown⟩ := h.alive c hc
      obtain ⟨hlive', hsame⟩ := newTimer_keeps hfree when_ interval hlive
      exact ⟨hlive', hsame.trans hown⟩
    · rcases List.mem_cons.mp hi with rfl | hi
      · rfl
      · exact h.carries i hi
  | newTimer timer when_ interval =>
    obtain ⟨hfree, rfl⟩ := Machine.guard_some.mp hstep
    refine iff_spares (by simp) (by simp [cancels]) ⟨fun c hc => ?_, h.carries⟩
    rcases List.mem_cons.mp hc with rfl | hc
    · simp [newTimer, getsequence]
    · obtain ⟨hlive, hown⟩ := h.alive c hc
      obtain ⟨hlive', hsame⟩ := newTimer_keeps hfree when_ interval hlive
      exact ⟨hlive', hsame.trans hown⟩
  | handOver c =>
    obtain ⟨⟨hc, -⟩, rfl⟩ := Machine.guard_some.mp hstep
    refine iff_spares (by simp) (by simp [cancels]) ⟨fun d hd => ?_, h.carries⟩
    rcases List.mem_cons.mp hd with rfl | hd
    · exact h.alive c hc
    · exact h.alive d (List.mem_of_mem_erase hd)
  | getsequence c =>
    obtain ⟨⟨hc, -⟩, rfl⟩ := Machine.guard_some.mp hstep
    refine iff_spares (by simp) (by simp [cancels]) ⟨fun d hd => ?_, fun i hi => ?_⟩
    · exact h.alive d (List.mem_of_mem_erase hd)
    · -- The number is read from the timer while it is alive.
      rcases List.mem_cons.mp hi with rfl | hi
      · exact (h.alive c hc).2
      · exact h.carries i hi
  | queueCancel | handleRead | swap | endBatch =>
    obtain ⟨-, rfl⟩ := Machine.guard_some.mp hstep
    exact iff_spares (by simp) (by simp [cancels]) ⟨h.alive, h.carries⟩
  | timeout =>
    obtain ⟨ran, e, todo, -, rfl⟩ := timeout_inv hstep
    exact iff_spares (by simp) (by simp [cancels]) ⟨h.alive, h.carries⟩
  | reset =>
    obtain ⟨ran, -, rfl⟩ := reset_inv hstep
    exact iff_spares (by simp) (by simp [cancels]) ⟨h.alive, h.carries⟩
  | rearm now =>
    obtain ⟨-, rfl⟩ := Machine.guard_some.mp hstep
    obtain ⟨alarm, halarm⟩ := q.rearm_eq now
    rw [halarm]
    exact iff_spares (by simp) (by simp [cancels]) ⟨h.alive, h.carries⟩

/-! ## Runs -/

/-- In every run: no `addTimer` of another thread reads from a timer that is gone exactly when no step
deletes a timer whose `addTimer` has its sequence number still to read. -/
theorem foreign_addTimer_outlived (mem : Addr → Timer ι) (labels : List (Label ι)) (q : TimerQueue ι)
    (hrun : Machine.run step (init mem) labels = some q) :
    Machine.Always step Outlived (init mem) labels ↔ Machine.Meets step Spares (init mem) labels :=
  Machine.always_iff_meets (I := fun _ => True) (fun _ _ _ _ _ _ _ => trivial)
    (fun _ _ _ _ h hstep => step_outlived h hstep) trivial (init_outlived mem) hrun

/-- A one-shot timer in the past, fired and deleted after its number was read. -/
def readInTime : List (Label Nat) :=
  [.newTimer 16 5 0, .handOver ⟨16, 1, false⟩, .swap, .callFunctor 10, .getsequence ⟨16, 1, true⟩, .endBatch,
    .handleRead 200, .timeout, .reset, .resetOne 200, .rearm 200]

theorem foreign_addTimer_outlived_inTime : Machine.Always step Outlived (init fun _ => ⟨0, 0, 0⟩) readInTime := by
  have hrun : Machine.run step (init fun _ => ⟨0, 0, 0⟩) readInTime = some _ := rfl
  refine (foreign_addTimer_outlived _ readInTime _ hrun).mpr ?_
  iterate 5 refine (Machine.meets_cons rfl).mpr ⟨spares_other (by rintro now ⟨⟩) (by rintro i ⟨⟩), ?_⟩
  iterate 6 refine (Machine.meets_cons rfl).mpr ⟨spares_idle rfl _, ?_⟩
  exact Machine.meets_nil _

/-- The loop's thread adds, fires and deletes a one-shot timer before the number is read. The id that is
returned carries what the memory holds by then. -/
def readTooLate : List (Label Nat) :=
  [.newTimer 16 5 0, .handOver ⟨16, 1, false⟩, .swap, .callFunctor 10, .endBatch, .handleRead 200, .timeout, .reset,
    .resetOne 200, .rearm 200, .scribble 16 ⟨0, 0, 77⟩, .getsequence ⟨16, 1, true⟩]

theorem foreign_addTimer_outlives :
    (∃ q, Machine.run step (init fun _ => ⟨0, 0, 0⟩) readTooLate = some q ∧ q.issued = [⟨⟨16, 77⟩, 1⟩]) ∧
      ¬ Machine.Always step Outlived (init fun _ => ⟨0, 0, 0⟩) readTooLate := by
  have hrun : Machine.run step (init fun _ => ⟨0, 0, 0⟩) readTooLate = some _ := rfl
  refine ⟨⟨_, hrun, rfl⟩, fun halways => ?_⟩
  have hcarries := (halways readTooLate _ (List.prefix_refl _) hrun).carries ⟨⟨16, 77⟩, 1⟩ (by decide)
  exact absurd hcarries (by decide)

end Muduo.TimerQueue
