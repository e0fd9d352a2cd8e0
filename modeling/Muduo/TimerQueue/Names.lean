import Muduo.TimerQueue.Owners

/-! # Which timer an id names

Sequence numbers are never used twice, so an id's own timer lives at the id's address or nowhere.
-/

namespace Muduo.TimerQueue

variable {ι : Type*}

/-- No timer is created, and those that live on keep their sequence numbers. -/
def Shrinks (q u : TimerQueue ι) : Prop :=
  u.sequeue = q.sequeue ∧ ∀ a, u.live a = true → q.live a = true ∧ u.getsequence a = q.getsequence a

/-- A timer is created at `timer`. -/
def Grows (q u : TimerQueue ι) (timer : Addr) : Prop :=
  u.sequeue = q.sequeue + 1 ∧ u.getsequence timer = q.sequeue + 1 ∧
  ∀ a, a ≠ timer → u.live a = true → q.live a = true ∧ u.getsequence a = q.getsequence a

/-- The timer numbered `own` was created at `timer`. -/
def Names (q : TimerQueue ι) (timer : Addr) (own : Nat) : Prop :=
  own ≤ q.sequeue ∧ ∀ a, q.live a = true → q.getsequence a = own → a = timer

structure Named (q : TimerQueue ι) : Prop where
  bound : ∀ a, q.live a = true → q.getsequence a ≤ q.sequeue
  distinct : ∀ a b, q.live a = true → q.live b = true → q.getsequence a = q.getsequence b → a = b
  issued : ∀ i ∈ q.issued, q.Names i.id.timer i.own
  adding : ∀ c ∈ q.adding, q.Names c.timer c.own
  functors : ∀ i, .cancelInLoop i ∈ q.tempRuns ∨ .cancelInLoop i ∈ q.pendingFunctors → i ∈ q.issued

/-! ## Memory -/

theorem cancelInLoop_shrinks (q : TimerQueue ι) (id : TimerId) : q.Shrinks (q.cancelInLoop id) := by
  rcases q.cancelInLoop_eq id with ⟨-, heq⟩ | ⟨-, heq⟩
  · rw [heq]
    refine ⟨rfl, fun a ha => ⟨?_, rfl⟩⟩
    by_cases hid : a = id.timer
    · simp [hid] at ha
    · simpa [Function.update_of_ne hid] using ha
  · rw [heq]
    exact ⟨rfl, fun a ha => ⟨ha, rfl⟩⟩

theorem newTimer_grows (q : TimerQueue ι) (timer : Addr) (when_ : Timestamp) (interval : ι) :
    q.Grows (q.newTimer timer when_ interval) timer := by
  refine ⟨rfl, by simp [getsequence, newTimer], fun a hne ha => ?_⟩
  simp only [newTimer, Function.update_of_ne hne, getsequence] at ha ⊢
  exact ⟨ha, trivial⟩

theorem resetOne_shrinks [Seconds ι] (q : TimerQueue ι) (e : Entry) (now : Timestamp) :
    q.Shrinks (q.resetOne e now) := by
  unfold resetOne
  split
  · refine ⟨rfl, fun a ha => ⟨ha, ?_⟩⟩
    by_cases hid : a = e.second
    · simp [insert, getsequence, hid, Timer.restart]
    · simp [insert, getsequence, Function.update_of_ne hid]
  · refine ⟨rfl, fun a ha => ⟨?_, rfl⟩⟩
    by_cases hid : a = e.second
    · simp [deleteTimer, hid] at ha
    · simpa [deleteTimer, Function.update_of_ne hid] using ha

theorem step_memory [Seconds ι] {q u : TimerQueue ι} {l : Label ι} (hstep : step q l = some u) :
    q.Shrinks u ∨ ∃ timer, q.Grows u timer := by
  cases l with
  | scribble timer t =>
    obtain ⟨hdead, rfl⟩ := Machine.guard_some.mp hstep
    refine Or.inl ⟨rfl, fun a ha => ⟨ha, ?_⟩⟩
    have hne : a ≠ timer := by
      rintro rfl
      simp [hdead] at ha
    simp [getsequence, Function.update_of_ne hne]
  | addTimer timer when_ interval now =>
    obtain ⟨-, rfl⟩ := Machine.guard_some.mp hstep
    obtain ⟨alarm, halarm⟩ := q.addTimer_eq timer when_ interval now
    rw [halarm]
    exact Or.inr ⟨timer, q.newTimer_grows timer when_ interval⟩
  | cancelTimer i =>
    obtain ⟨-, rfl⟩ := Machine.guard_some.mp hstep
    exact Or.inl (q.cancelInLoop_shrinks i.id)
  | newTimer timer when_ interval =>
    obtain ⟨-, rfl⟩ := Machine.guard_some.mp hstep
    exact Or.inr ⟨timer, q.newTimer_grows timer when_ interval⟩
  | handOver | getsequence | queueCancel | handleRead | swap | endBatch =>
    obtain ⟨-, rfl⟩ := Machine.guard_some.mp hstep
    exact Or.inl ⟨rfl, fun a ha => ⟨ha, rfl⟩⟩
  | timeout =>
    obtain ⟨ran, e, todo, -, rfl⟩ := timeout_inv hstep
    exact Or.inl ⟨rfl, fun a ha => ⟨ha, rfl⟩⟩
  | reset =>
    obtain ⟨ran, -, rfl⟩ := reset_inv hstep
    exact Or.inl ⟨rfl, fun a ha => ⟨ha, rfl⟩⟩
  | resetOne now =>
    obtain ⟨e, todo, -, rfl⟩ := resetOne_inv hstep
    exact Or.inl (q.resetOne_shrinks e now)
  | rearm now =>
    obtain ⟨-, rfl⟩ := Machine.guard_some.mp hstep
    obtain ⟨alarm, halarm⟩ := q.rearm_eq now
    rw [halarm]
    exact Or.inl ⟨rfl, fun a ha => ⟨ha, rfl⟩⟩
  | callFunctor now =>
    obtain ⟨f, rest, -, -, rfl⟩ := callFunctor_inv hstep
    cases f with
    | addTimerInLoop timer =>
      obtain ⟨alarm, halarm⟩ := addTimerInLoop_eq { q with tempRuns := rest } timer now
      rw [callFunctor, halarm]
      exact Or.inl ⟨rfl, fun a ha => ⟨ha, rfl⟩⟩
    | cancelInLoop i => exact Or.inl (cancelInLoop_shrinks { q with tempRuns := rest } i.id)

/-! ## Names -/

theorem step_live [Seconds ι] {q u : TimerQueue ι} {l : Label ι} (hstep : step q l = some u) :
    q.sequeue ≤ u.sequeue ∧ ∀ a, u.live a = true →
      (q.live a = true ∧ u.getsequence a = q.getsequence a) ∨
      (u.getsequence a = q.sequeue + 1 ∧ u.sequeue = q.sequeue + 1 ∧
        ∀ b, b ≠ a → u.live b = true → q.live b = true ∧ u.getsequence b = q.getsequence b) := by
  rcases step_memory hstep with ⟨hseq, hlive⟩ | ⟨timer, hseq, hnew, hlive⟩
  · exact ⟨by omega, fun a ha => Or.inl (hlive a ha)⟩
  · refine ⟨by omega, fun a ha => ?_⟩
    by_cases hid : a = timer
    · subst hid
      exact Or.inr ⟨hnew, hseq, hlive⟩
    · exact Or.inl (hlive a hid ha)

theorem Names.step [Seconds ι] {q u : TimerQueue ι} {l : Label ι} {timer : Addr} {own : Nat}
    (h : q.Names timer own) (hstep : TimerQueue.step q l = some u) : u.Names timer own := by
  obtain ⟨hseq, hlive⟩ := step_live hstep
  obtain ⟨hle, hat⟩ := h
  refine ⟨by omega, fun a ha hown => ?_⟩
  rcases hlive a ha with ⟨hold, hsame⟩ | ⟨hnew, -, -⟩
  · exact hat a hold (hsame ▸ hown)
  · omega

theorem Named.names_new {q u : TimerQueue ι} (h : q.Named) {timer : Addr} (hgrows : q.Grows u timer) :
    u.Names timer (q.sequeue + 1) := by
  obtain ⟨hseq, -, hlive⟩ := hgrows
  refine ⟨by omega, fun a ha hown => ?_⟩
  by_contra hne
  obtain ⟨hold, hsame⟩ := hlive a hne ha
  have hbound := h.bound a hold
  omega

theorem Named.of_ids [Seconds ι] {q u : TimerQueue ι} {l : Label ι} (h : q.Named) (hstep : step q l = some u)
    (hissued : ∀ i ∈ u.issued, i ∈ q.issued ∨ u.Names i.id.timer i.own)
    (hadding : ∀ c ∈ u.adding, (∃ d ∈ q.adding, d.timer = c.timer ∧ d.own = c.own) ∨ u.Names c.timer c.own)
    (hfunctors : ∀ i, .cancelInLoop i ∈ u.tempRuns ∨ .cancelInLoop i ∈ u.pendingFunctors → i ∈ u.issued) :
    u.Named := by
  obtain ⟨hseq, hlive⟩ := step_live hstep
  refine ⟨fun a ha => ?_, fun a b ha hb hsame => ?_, fun i hi => ?_, fun c hc => ?_, hfunctors⟩
  · rcases hlive a ha with ⟨hold, hsame⟩ | ⟨hnew, hgrown, -⟩
    · have hbound := h.bound a hold
      omega
    · omega
  · rcases hlive a ha with ⟨hold, hkept⟩ | ⟨hnew, -, hothers⟩
    · rcases hlive b hb with ⟨hold', hkept'⟩ | ⟨hnew, -, hothers⟩
      · exact h.distinct a b hold hold' (by omega)
      · have hbound := h.bound a hold
        omega
    · by_contra hne
      obtain ⟨hold, hkept⟩ := hothers b (Ne.symm hne) hb
      have hbound := h.bound b hold
      omega
  · rcases hissued i hi with hold | hnew
    · exact (h.issued i hold).step hstep
    · exact hnew
  · rcases hadding c hc with ⟨d, hd, htimer, hown⟩ | hnew
    · have hnames := (h.adding d hd).step hstep
      rwa [htimer, hown] at hnames
    · exact hnew

theorem Named.of_same [Seconds ι] {q u : TimerQueue ι} {l : Label ι} (h : q.Named) (hstep : step q l = some u)
    (hissued : u.issued = q.issued) (hadding : u.adding = q.adding)
    (hfunctors : ∀ f, f ∈ u.tempRuns ∨ f ∈ u.pendingFunctors → f ∈ q.tempRuns ∨ f ∈ q.pendingFunctors) :
    u.Named := by
  refine h.of_ids hstep (fun i hi => Or.inl (hissued ▸ hi)) (fun c hc => Or.inl ⟨c, hadding ▸ hc, rfl, rfl⟩) ?_
  intro i hi
  rw [hissued]
  exact h.functors i (hfunctors _ hi)

theorem cancelInLoop_ids (q : TimerQueue ι) (id : TimerId) :
    (q.cancelInLoop id).issued = q.issued ∧ (q.cancelInLoop id).adding = q.adding ∧
    (q.cancelInLoop id).tempRuns = q.tempRuns ∧ (q.cancelInLoop id).pendingFunctors = q.pendingFunctors ∧
    (q.cancelInLoop id).phase = q.phase ∧ (q.cancelInLoop id).mem = q.mem := by
  rcases q.cancelInLoop_eq id with ⟨-, heq⟩ | ⟨-, heq⟩ <;> simp [heq]

theorem resetOne_ids [Seconds ι] (q : TimerQueue ι) (e : Entry) (now : Timestamp) :
    (q.resetOne e now).issued = q.issued ∧ (q.resetOne e now).adding = q.adding ∧
    (q.resetOne e now).tempRuns = q.tempRuns ∧ (q.resetOne e now).pendingFunctors = q.pendingFunctors := by
  unfold resetOne
  split <;> simp [insert, deleteTimer]

theorem step_named [Seconds ι] {q u : TimerQueue ι} {l : Label ι} (h : q.Named) (hstep : step q l = some u) :
    u.Named := by
  cases l with
  | addTimer timer when_ interval now =>
    obtain ⟨-, rfl⟩ := Machine.guard_some.mp hstep
    obtain ⟨alarm, halarm⟩ := q.addTimer_eq timer when_ interval now
    rw [halarm] at hstep ⊢
    refine h.of_ids hstep (fun i hi => ?_) (fun c hc => Or.inl ⟨c, hc, rfl, rfl⟩)
      fun i hi => List.mem_cons_of_mem _ (h.functors i hi)
    rcases List.mem_cons.mp hi with rfl | hi
    · exact Or.inr (h.names_new (q.newTimer_grows timer when_ interval))
    · exact Or.inl hi
  | newTimer timer when_ interval =>
    obtain ⟨-, rfl⟩ := Machine.guard_some.mp hstep
    refine h.of_ids hstep (fun i hi => Or.inl hi) (fun c hc => ?_) h.functors
    rcases List.mem_cons.mp hc with rfl | hc
    · exact Or.inr (h.names_new (q.newTimer_grows timer when_ interval))
    · exact Or.inl ⟨c, hc, rfl, rfl⟩
  | handOver c =>
    obtain ⟨⟨hc, -⟩, rfl⟩ := Machine.guard_some.mp hstep
    refine h.of_ids hstep (fun i hi => Or.inl hi) (fun d hd => ?_) (fun i hi => h.functors i ?_)
    · rcases List.mem_cons.mp hd with rfl | hd
      · exact Or.inl ⟨c, hc, rfl, rfl⟩
      · exact Or.inl ⟨d, List.mem_of_mem_erase hd, rfl, rfl⟩
    · simpa using hi
  | getsequence c =>
    obtain ⟨⟨hc, -⟩, rfl⟩ := Machine.guard_some.mp hstep
    refine h.of_ids hstep (fun i hi => ?_) (fun d hd => Or.inl ⟨d, List.mem_of_mem_erase hd, rfl, rfl⟩)
      fun i hi => List.mem_cons_of_mem _ (h.functors i hi)
    rcases List.mem_cons.mp hi with rfl | hi
    · exact Or.inr ((h.adding c hc).step hstep)
    · exact Or.inl hi
  | queueCancel j =>
    obtain ⟨hj, rfl⟩ := Machine.guard_some.mp hstep
    refine h.of_ids hstep (fun i hi => Or.inl hi) (fun c hc => Or.inl ⟨c, hc, rfl, rfl⟩) (fun i hi => ?_)
    simp only [List.mem_append, List.mem_singleton, Queued.cancelInLoop.injEq] at hi
    rcases hi with hi | hi | rfl
    · exact h.functors i (Or.inl hi)
    · exact h.functors i (Or.inr hi)
    · exact hj
  | cancelTimer i =>
    obtain ⟨-, rfl⟩ := Machine.guard_some.mp hstep
    obtain ⟨hissued, hadding, hruns, hpending, -, -⟩ := q.cancelInLoop_ids i.id
    exact h.of_same hstep hissued hadding (by simp [hruns, hpending])
  | scribble | handleRead | endBatch =>
    obtain ⟨-, rfl⟩ := Machine.guard_some.mp hstep
    exact h.of_same hstep rfl rfl fun f hf => hf
  | timeout =>
    obtain ⟨ran, e, todo, -, rfl⟩ := timeout_inv hstep
    exact h.of_same hstep rfl rfl fun f hf => hf
  | reset =>
    obtain ⟨ran, -, rfl⟩ := reset_inv hstep
    exact h.of_same hstep rfl rfl fun f hf => hf
  | resetOne now =>
    obtain ⟨e, todo, -, rfl⟩ := resetOne_inv hstep
    obtain ⟨hissued, hadding, hruns, hpending⟩ := q.resetOne_ids e now
    exact h.of_same hstep hissued hadding (by simp [hruns, hpending])
  | rearm now =>
    obtain ⟨-, rfl⟩ := Machine.guard_some.mp hstep
    obtain ⟨alarm, halarm⟩ := q.rearm_eq now
    rw [halarm] at hstep ⊢
    exact h.of_same hstep rfl rfl fun f hf => hf
  | swap =>
    obtain ⟨-, rfl⟩ := Machine.guard_some.mp hstep
    refine h.of_same hstep rfl rfl fun f hf => ?_
    rcases hf with hf | hf
    · exact Or.inr hf
    · cases hf
  | callFunctor now =>
    obtain ⟨f, rest, -, hruns, rfl⟩ := callFunctor_inv hstep
    have hrest : ∀ g, g ∈ rest ∨ g ∈ q.pendingFunctors → g ∈ q.tempRuns ∨ g ∈ q.pendingFunctors :=
      fun g hg => hg.imp_left fun hg => hruns ▸ List.mem_cons_of_mem _ hg
    cases f with
    | addTimerInLoop timer =>
      obtain ⟨alarm, halarm⟩ := addTimerInLoop_eq { q with tempRuns := rest } timer now
      rw [callFunctor, halarm] at hstep ⊢
      exact h.of_same hstep rfl rfl hrest
    | cancelInLoop i =>
      obtain ⟨hissued, hadding, htemp, hpending, -, -⟩ := cancelInLoop_ids { q with tempRuns := rest } i.id
      refine h.of_same hstep hissued hadding fun f hf => ?_
      rw [callFunctor, htemp, hpending] at hf
      exact hrest f hf

theorem init_named (mem : Addr → Timer ι) : (init mem).Named where
  bound := fun a ha => by cases ha
  distinct := fun a b ha => by cases ha
  issued := fun i hi => by cases hi
  adding := fun c hc => by cases hc
  functors := fun i hi => by rcases hi with hi | hi <;> cases hi

end Muduo.TimerQueue
