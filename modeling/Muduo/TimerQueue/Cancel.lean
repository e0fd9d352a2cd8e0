import Muduo.TimerQueue.Names
import Muduo.TimerQueue.Stale

/-! # What a cancel stops

`cancelInLoop` looks in `_pTimers` only. It stops a timer that is pending, and a one-shot timer that
is being run ends anyway.
-/

namespace Muduo.TimerQueue

variable {ι : Type*} [Seconds ι]

/-- If the step cancels a live timer, that timer is in `_pTimers`, or it is a one-shot timer of the
batch that is being run. -/
def Found (q : TimerQueue ι) (l : Label ι) : Prop :=
  ∀ i, q.cancels l = some i → ¬ q.Deleted i.own →
    (∃ t, ⟨t, i.id.timer⟩ ∈ q.pTimers) ∨
    ((∃ e ∈ q.phase.batch, e.second = i.id.timer) ∧ (q.mem i.id.timer).isRepeat = false)

/-- Once a cancel of a live timer has run, no later `handleRead` of the run invokes its callback. -/
def Effective (q : TimerQueue ι) (labels : List (Label ι)) : Prop :=
  ∀ pre l post s t i, labels = pre ++ l :: post → Machine.run step q pre = some s → step s l = some t →
    s.cancels l = some i → ¬ s.Deleted i.own →
    ∀ mid u, mid ++ [.timeout] <+: post → Machine.run step t mid = some u → (∃ now, .handleRead now ∈ mid) →
      u.callback ≠ some i.own

/-! ## Timers that have ended -/

/-- The timer numbered `own` existed and was deleted. -/
def Gone (q : TimerQueue ι) (own : Nat) : Prop := own ≤ q.sequeue ∧ q.Deleted own

/-- The timer numbered `own` is a one-shot timer of the batch that is being run. -/
def Finishing (q : TimerQueue ι) (own : Nat) : Prop :=
  own ≤ q.sequeue ∧ ∃ e ∈ q.phase.batch, q.getsequence e.second = own ∧ (q.mem e.second).isRepeat = false

theorem Gone.step {q u : TimerQueue ι} {l : Label ι} {own : Nat} (h : q.Gone own)
    (hstep : TimerQueue.step q l = some u) : u.Gone own := by
  obtain ⟨hle, hdeleted⟩ := h
  obtain ⟨hseq, hlive⟩ := step_live hstep
  refine ⟨by omega, fun a ha => ?_⟩
  rcases hlive a ha with ⟨hold, hsame⟩ | ⟨hnew, -, -⟩
  · exact hsame ▸ hdeleted a hold
  · omega

theorem Gone.run {q u : TimerQueue ι} {labels : List (Label ι)} {own : Nat} (h : q.Gone own)
    (hrun : Machine.run TimerQueue.step q labels = some u) : u.Gone own :=
  Machine.run_invariant (fun _ _ _ h hstep => Gone.step h hstep) h hrun

omit [Seconds ι] in
theorem Gone.callback {q : TimerQueue ι} {own : Nat} (howned : q.Owned) (h : q.Gone own) :
    q.callback ≠ some own := by
  unfold TimerQueue.callback
  split
  · rename_i ran e todo hphase
    have hlive := howned.live_of_batch (e := e) (by simp [hphase, Phase.batch])
    intro heq
    exact h.2 _ hlive (Option.some.inj heq)
  · intro heq
    cases heq

theorem Finishing.keep {q u : TimerQueue ι} {own : Nat} (h : q.Finishing own) (hseq : q.sequeue ≤ u.sequeue)
    (hbatch : ∀ e ∈ q.phase.batch, e ∈ u.phase.batch)
    (hmem : ∀ e ∈ q.phase.batch, u.mem e.second = q.mem e.second) : u.Finishing own := by
  obtain ⟨hle, e, he, hown, honce⟩ := h
  refine ⟨by omega, e, hbatch e he, ?_, ?_⟩
  · rw [getsequence, hmem e he]
    exact hown
  · rw [hmem e he]
    exact honce

theorem resetOne_finishing {q : TimerQueue ι} (howned : q.Owned) (hnamed : q.Named) {own : Nat} {e : Entry}
    {todo : List Entry} (now : Timestamp) (hphase : q.phase = .resetting (e :: todo)) (h : q.Finishing own) :
    Gone { q.resetOne e now with phase := .resetting todo } own ∨
    Finishing { q.resetOne e now with phase := .resetting todo } own := by
  obtain ⟨hle, d, hd, hown, honce⟩ := h
  have hlive := howned.live_of_batch hd
  have hseq := (q.resetOne_shrinks e now).1
  by_cases hde : d.second = e.second
  · have hdelete : q.resetOne e now = q.deleteTimer e.second := by
      rw [resetOne, ← hde, honce]
      rfl
    refine Or.inl ⟨hseq ▸ hle, fun a ha => ?_⟩
    rw [hdelete] at ha ⊢
    intro haown
    by_cases hae : a = e.second
    · simp [deleteTimer, hae] at ha
    · simp only [deleteTimer, Function.update_of_ne hae] at ha
      have hsame : a = d.second := hnamed.distinct a d.second ha hlive (haown.trans hown.symm)
      exact hae (hsame.trans hde)
  · refine Or.inr ⟨hseq ▸ hle, d, ?_, ?_⟩
    · simp only [hphase, Phase.batch, List.mem_cons] at hd ⊢
      rcases hd with rfl | hd
      · exact absurd rfl hde
      · exact hd
    · have hmem : (q.resetOne e now).mem d.second = q.mem d.second := by
        unfold resetOne
        split
        · simp [insert, Function.update_of_ne hde]
        · rfl
      simp only [getsequence, hmem]
      exact ⟨hown, honce⟩

theorem Finishing.batch_ne {q : TimerQueue ι} {own : Nat} (h : q.Finishing own) : q.phase.batch ≠ [] := by
  obtain ⟨-, e, he, -⟩ := h
  exact List.ne_nil_of_mem he

omit [Seconds ι] in
theorem batch_ne_dead {q : TimerQueue ι} (h : q.Owned) {e : Entry} (he : e ∈ q.phase.batch) {a : Addr}
    (hdead : q.live a = false) : e.second ≠ a := by
  rintro rfl
  rw [h.live_of_batch he] at hdead
  cases hdead

theorem Finishing.step {q u : TimerQueue ι} {l : Label ι} {own : Nat} (howned : q.Owned) (hnamed : q.Named)
    (h : q.Finishing own) (hstep : TimerQueue.step q l = some u) : u.Gone own ∨ u.Finishing own := by
  have hseq := (step_live hstep).1
  cases l with
  | scribble timer t =>
    obtain ⟨hdead, rfl⟩ := Machine.guard_some.mp hstep
    refine Or.inr (h.keep hseq (fun e he => he) fun e he => Function.update_of_ne ?_ _ _)
    exact batch_ne_dead howned he hdead
  | addTimer timer when_ interval now =>
    obtain ⟨⟨-, hfree⟩, rfl⟩ := Machine.guard_some.mp hstep
    obtain ⟨alarm, halarm⟩ := q.addTimer_eq timer when_ interval now
    rw [halarm] at hseq ⊢
    refine Or.inr (h.keep hseq (fun e he => he) fun e he => Function.update_of_ne ?_ _ _)
    exact batch_ne_dead howned he hfree.1
  | newTimer timer when_ interval =>
    obtain ⟨hfree, rfl⟩ := Machine.guard_some.mp hstep
    refine Or.inr (h.keep hseq (fun e he => he) fun e he => Function.update_of_ne ?_ _ _)
    exact batch_ne_dead howned he hfree.1
  | cancelTimer i =>
    obtain ⟨-, rfl⟩ := Machine.guard_some.mp hstep
    obtain ⟨-, -, -, -, hphase, hmem⟩ := q.cancelInLoop_ids i.id
    exact Or.inr (h.keep hseq (fun e he => hphase ▸ he) fun e he => by rw [hmem])
  | handOver | getsequence | queueCancel =>
    obtain ⟨-, rfl⟩ := Machine.guard_some.mp hstep
    exact Or.inr (h.keep hseq (fun e he => he) fun e he => rfl)
  | timeout =>
    obtain ⟨ran, e, todo, hphase, rfl⟩ := timeout_inv hstep
    refine Or.inr (h.keep hseq (fun d hd => ?_) fun e he => rfl)
    simpa [hphase, Phase.batch] using hd
  | reset =>
    obtain ⟨ran, hphase, rfl⟩ := reset_inv hstep
    refine Or.inr (h.keep hseq (fun d hd => ?_) fun e he => rfl)
    simpa [hphase, Phase.batch] using hd
  | resetOne now =>
    obtain ⟨e, todo, hphase, rfl⟩ := resetOne_inv hstep
    exact resetOne_finishing howned hnamed now hphase h
  | handleRead now =>
    obtain ⟨hphase, -⟩ := Machine.guard_some.mp hstep
    exact absurd (by rw [hphase]; rfl) h.batch_ne
  | rearm now =>
    obtain ⟨hphase, -⟩ := Machine.guard_some.mp hstep
    exact absurd (by rw [hphase]; rfl) h.batch_ne
  | swap =>
    obtain ⟨hphase, -⟩ := Machine.guard_some.mp hstep
    exact absurd (by rw [hphase]; rfl) h.batch_ne
  | callFunctor now =>
    obtain ⟨f, rest, hphase, -⟩ := callFunctor_inv hstep
    exact absurd (by rw [hphase]; rfl) h.batch_ne
  | endBatch =>
    obtain ⟨⟨hphase, -⟩, -⟩ := Machine.guard_some.mp hstep
    exact absurd (by rw [hphase]; rfl) h.batch_ne

/-! ## Runs -/

/-- A timer that has ended, or that ends with its batch, has ended for good at the next `handleRead`. -/
theorem run_gone {q u : TimerQueue ι} {labels : List (Label ι)} {own : Nat} (howned : q.Owned) (hnamed : q.Named)
    (h : q.Gone own ∨ q.Finishing own) (hrun : Machine.run step q labels = some u)
    (hread : ∃ now, .handleRead now ∈ labels) : u.Gone own := by
  induction labels generalizing q with
  | nil =>
    obtain ⟨now, hmem⟩ := hread
    cases hmem
  | cons l labels ih =>
    obtain ⟨t, ht, hrest⟩ := Machine.run_cons_some.mp hrun
    rcases h with hgone | hfinishing
    · exact Gone.run (Gone.step hgone ht) hrest
    · obtain ⟨now, hmem⟩ := hread
      rcases List.mem_cons.mp hmem with rfl | hmem
      · obtain ⟨hphase, -⟩ := Machine.guard_some.mp ht
        exact absurd (by rw [hphase]; rfl) hfinishing.batch_ne
      · exact ih (step_owned howned ht) (step_named hnamed ht) (hfinishing.step howned hnamed ht) hrest ⟨now, hmem⟩

theorem cancel_ends {q u : TimerQueue ι} {l : Label ι} (howned : q.Owned) (hnamed : q.Named) (hfound : q.Found l)
    {i : Issued} (hl : q.cancels l = some i) (hlive : ¬ q.Deleted i.own) (hstep : step q l = some u) :
    u.Gone i.own ∨ u.Finishing i.own := by
  have hnames : q.Names i.id.timer i.own := by
    refine hnamed.issued i ?_
    cases l with
    | cancelTimer j =>
      obtain ⟨⟨-, hj⟩, -⟩ := Machine.guard_some.mp hstep
      simp only [cancels, Option.some.injEq] at hl
      exact hl ▸ hj
    | callFunctor now =>
      obtain ⟨f, rest, -, hruns, -⟩ := callFunctor_inv hstep
      refine hnamed.functors i (Or.inl ?_)
      simp only [cancels, hruns] at hl
      cases f with
      | addTimerInLoop timer => cases hl
      | cancelInLoop j =>
        simp only [Option.some.injEq] at hl
        simp [hruns, hl]
    | _ => cases hl
  obtain ⟨a, ha, haown⟩ : ∃ a, q.live a = true ∧ q.getsequence a = i.own := by
    by_contra hnone
    exact hlive fun a ha hown => hnone ⟨a, ha, hown⟩
  obtain rfl : a = i.id.timer := hnames.2 a ha haown
  obtain ⟨runs, rfl⟩ := cancels_spec hl hstep
  rcases hfound i hl hlive with ⟨t, hmem⟩ | ⟨⟨e, he, hsecond⟩, honce⟩
  · -- The entry is found and its timer deleted.
    have hentry : (⟨t, i.id.timer⟩ : Entry) = ⟨q.getStamp i.id.timer, i.id.timer⟩ :=
      (entry_eq howned.stamps hmem).mpr rfl
    rcases cancelInLoop_eq { q with tempRuns := runs } i.id with ⟨-, heq⟩ | ⟨hno, -⟩
    · rw [heq]
      refine Or.inl ⟨hnames.1, fun b hb hown => ?_⟩
      by_cases hid : b = i.id.timer
      · simp [hid] at hb
      · simp only [Function.update_of_ne hid] at hb
        exact hid (hnames.2 b hb hown)
    · exact absurd (hentry ▸ hmem) hno
  · obtain ⟨-, -, -, -, hphase, hmem⟩ := cancelInLoop_ids { q with tempRuns := runs } i.id
    refine Or.inr ⟨?_, e, ?_, ?_, ?_⟩
    · rw [(cancelInLoop_shrinks { q with tempRuns := runs } i.id).1]
      exact hnames.1
    · rw [hphase]
      exact he
    · rw [getsequence, hmem, hsecond]
      exact haown
    · rw [hmem, hsecond]
      exact honce

/-- If every cancel of a live timer finds it in `_pTimers`, or finds a one-shot timer in the batch that
is being run, then every cancel of the run is effective. -/
theorem cancel_effective (mem : Addr → Timer ι) (labels : List (Label ι))
    (hmeets : Machine.Meets step Found (init mem) labels) : (init mem).Effective labels := by
  rintro pre l post s t i rfl hpre hstep hl hlive mid u hmid hrun hread
  have howned : s.Owned := Machine.run_invariant (fun _ _ _ h hstep => step_owned h hstep) (init_owned mem) hpre
  have hnamed : s.Named := Machine.run_invariant (fun _ _ _ h hstep => step_named h hstep) (init_named mem) hpre
  have hfound : s.Found l := hmeets pre l s (by simp [List.prefix_append_right_inj]) hpre
  have hends := cancel_ends howned hnamed hfound hl hlive hstep
  have howned' := step_owned howned hstep
  have hgone := run_gone howned' (step_named hnamed hstep) hends hrun hread
  exact hgone.callback (Machine.run_invariant (fun _ _ _ h hstep => step_owned h hstep) howned' hrun)

/-- Two timers are due together, and the first is cancelled before. -/
def cancelPending : List (Label Nat) :=
  [.addTimer 16 5000000 0 0, .addTimer 32 5000000 2 0, .cancelTimer idA, .handleRead 6000000, .timeout, .reset,
    .resetOne 6000000, .rearm 6000000]

theorem cancel_effective_pending : (init fun _ => ⟨0, 0, 0⟩).Effective cancelPending := by
  refine cancel_effective _ cancelPending ?_
  refine (Machine.meets_cons rfl).mpr ⟨by rintro i ⟨⟩, (Machine.meets_cons rfl).mpr ⟨by rintro i ⟨⟩, ?_⟩⟩
  refine (Machine.meets_cons rfl).mpr ⟨?_, ?_⟩
  · rintro i ⟨⟩ -
    exact Or.inl ⟨5000000, by decide⟩
  · iterate 5 refine (Machine.meets_cons rfl).mpr ⟨by rintro i ⟨⟩, ?_⟩
    exact Machine.meets_nil _

/-- A repeating timer that cancels itself in its callback goes back into `_pTimers` and fires again. -/
theorem cancelled_timer_fires : ¬ (init fun _ => ⟨0, 0, 0⟩).Effective
    ([.addTimer 16 5000000 2 0, .handleRead 5000000, .timeout, .cancelTimer idA, .reset, .resetOne 5000000,
      .rearm 5000000, .handleRead 8000000, .timeout] : List (Label Nat)) := by
  intro h
  refine h [.addTimer 16 5000000 2 0, .handleRead 5000000, .timeout] (.cancelTimer idA) _ _ _ idA rfl rfl rfl rfl ?_
    [.reset, .resetOne 5000000, .rearm 5000000, .handleRead 8000000] _ (List.prefix_refl _) rfl ⟨8000000, by simp⟩ rfl
  intro hdeleted
  exact hdeleted 16 rfl rfl

end Muduo.TimerQueue
