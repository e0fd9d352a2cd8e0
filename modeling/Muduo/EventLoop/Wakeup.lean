import Muduo.EventLoop.Code

/-! # No lost wakeup

The loop never sleeps in `epoll_wait` on a functor or on a `_quit` that nobody is about to announce.
-/

namespace Muduo.EventLoop

variable {τ φ : Type*}

/-- The loop's thread calls the member functions from its handlers and its functors only. -/
def OwnerInside (s : EventLoop τ φ) (l : Label τ φ) : Prop :=
  s.pc = .outside → l.caller ≠ some s.threadId

/-- `epoll_wait` returns, now or after the next step of some other thread's call. -/
def Covered (s : EventLoop τ φ) : Prop := 0 < s.eventfd ∨ ∃ t, t ≠ s.threadId ∧ s.calls t ≠ .idle

/-- The invariant. A functor that nobody announces waits only where the swap is still ahead, or in
a call that the loop's own thread makes from a functor. -/
structure Awake (s : EventLoop τ φ) : Prop where
  flag : s.callingPendingFunctors = true ↔ s.pc = .swapping ∨ s.pc = .draining ∨ s.pc = .running
  owner : s.calls s.threadId ≠ .idle → (∃ b, s.pc = .handling b) ∨ s.pc = .running
  pending : s.pendingFunctors ≠ [] → s.Covered ∨ (∃ b, s.pc = .handling b) ∨ s.pc = .swapping ∨
    (s.pc = .running ∧ (s.calls s.threadId = .pushed ∨ s.calls s.threadId = .waking))
  quit : s.quit = true → s.pc = .polling → s.Covered

/-! ## Covered states -/

theorem covered_of_call {s : EventLoop τ φ} {t : τ} (ht : t ≠ s.threadId) (hcall : s.calls t ≠ .idle) :
    s.Covered :=
  Or.inr ⟨t, ht, hcall⟩

theorem covered_of_eventfd {s : EventLoop τ φ} (h : 0 < s.eventfd) : s.Covered := Or.inl h

theorem Covered.keep {s u : EventLoop τ φ} (h : s.Covered) (hid : u.threadId = s.threadId)
    (hfd : u.eventfd = s.eventfd) (hcalls : ∀ t, t ≠ s.threadId → u.calls t = s.calls t) : u.Covered := by
  rcases h with h | ⟨t, ht, hcall⟩
  · exact Or.inl (hfd ▸ h)
  · exact Or.inr ⟨t, hid ▸ ht, hcalls t ht ▸ hcall⟩

theorem awake_of_covered {s : EventLoop τ φ}
    (hflag : s.callingPendingFunctors = true ↔ s.pc = .swapping ∨ s.pc = .draining ∨ s.pc = .running)
    (howner : s.calls s.threadId ≠ .idle → (∃ b, s.pc = .handling b) ∨ s.pc = .running) (hc : s.Covered) :
    s.Awake :=
  ⟨hflag, howner, fun _ => Or.inl hc, fun _ _ => hc⟩

theorem owner_inside {s : EventLoop τ φ} {t : τ} (hmay : s.MayCall t) (hin : s.pc = .outside → t ≠ s.threadId)
    (ht : t = s.threadId) : (∃ b, s.pc = .handling b) ∨ s.pc = .running := by
  rcases hmay.2 ht.symm with hout | hpc
  · exact absurd ht (hin hout)
  · exact hpc

theorem not_polling {s : EventLoop τ φ} (h : (∃ b, s.pc = .handling b) ∨ s.pc = .running) : s.pc ≠ .polling := by
  rcases h with ⟨b, h⟩ | h <;> simp [h]

theorem Covered.move {s : EventLoop τ φ} (h : s.Covered) (pc : Pc) (flag : Bool) :
    Covered { s with pc, callingPendingFunctors := flag } :=
  h.keep rfl rfl fun _ _ => rfl

theorem Awake.covered {s : EventLoop τ φ} {pc : Pc} (h : s.Awake) (hat : s.At pc)
    (hpc : (∀ b, pc ≠ .handling b) ∧ pc ≠ .swapping) (hp : s.pendingFunctors ≠ []) : s.Covered := by
  obtain ⟨rfl, hidle⟩ := hat
  rcases h.pending hp with hc | ⟨b, hb⟩ | hs | ⟨-, hcall | hcall⟩
  · exact hc
  · exact absurd hb (hpc.1 b)
  · exact absurd hs hpc.2
  · simp [hidle] at hcall
  · simp [hidle] at hcall

theorem init_awake (threadId : τ) : (init threadId : EventLoop τ φ).Awake where
  flag := by simp [init]
  owner := fun hcall => absurd rfl hcall
  pending := fun hp => absurd rfl hp
  quit := fun hquit => by cases hquit

/-! ## Calls -/

variable [DecidableEq τ]

instance (s : EventLoop τ φ) (l : Label τ φ) : Decidable (s.OwnerInside l) :=
  inferInstanceAs (Decidable (s.pc = .outside → l.caller ≠ some s.threadId))

theorem setCall_self (s : EventLoop τ φ) (t : τ) (c : Call) : (s.setCall t c).calls t = c := by
  simp [setCall]

theorem setCall_other (s : EventLoop τ φ) {t u : τ} (c : Call) (h : u ≠ t) :
    (s.setCall t c).calls u = s.calls u := by
  simp [setCall, h]

theorem setCall_awake {s : EventLoop τ φ} {t : τ} {c : Call}
    (hflag : s.callingPendingFunctors = true ↔ s.pc = .swapping ∨ s.pc = .draining ∨ s.pc = .running)
    (howner : s.calls s.threadId ≠ .idle → (∃ b, s.pc = .handling b) ∨ s.pc = .running)
    (ht : t ≠ s.threadId) (hc : c ≠ .idle) : (s.setCall t c).Awake := by
  refine awake_of_covered hflag ?_ (covered_of_call (t := t) ht ?_)
  · intro hcall
    rw [show (s.setCall t c).threadId = s.threadId from rfl, setCall_other s c (Ne.symm ht)] at hcall
    exact howner hcall
  · rw [setCall_self]
    exact hc

theorem queueInLoop_awake {s : EventLoop τ φ} {t : τ} (h : s.Awake) (cb : φ) (hmay : s.MayCall t)
    (hin : s.pc = .outside → t ≠ s.threadId) : (s.queueInLoop t cb).Awake := by
  by_cases ht : t = s.threadId
  · have hpc := owner_inside hmay hin ht
    refine ⟨h.flag, fun _ => hpc, fun _ => ?_, fun _ hpoll => absurd hpoll (not_polling hpc)⟩
    rcases hpc with hpc | hpc
    · exact Or.inr (Or.inl hpc)
    · refine Or.inr (Or.inr (Or.inr ⟨hpc, Or.inl ?_⟩))
      subst ht
      exact setCall_self _ _ _
  · exact setCall_awake h.flag h.owner ht (by decide)

theorem setQuit_awake {s : EventLoop τ φ} {t : τ} (h : s.Awake) (hmay : s.MayCall t)
    (hin : s.pc = .outside → t ≠ s.threadId) : (s.setQuit t).Awake := by
  by_cases ht : t = s.threadId
  · have hpc := owner_inside hmay hin ht
    subst ht
    refine ⟨h.flag, fun _ => hpc, fun hp => ?_, fun _ hpoll => absurd hpoll (not_polling hpc)⟩
    rcases h.pending hp with hc | hh | hs | ⟨-, hcall | hcall⟩
    · exact Or.inl (hc.keep rfl rfl fun u hu => setCall_other _ _ hu)
    · exact Or.inr (Or.inl hh)
    · exact Or.inr (Or.inr (Or.inl hs))
    · simp [hmay.1] at hcall
    · simp [hmay.1] at hcall
  · exact setCall_awake h.flag h.owner ht (by decide)

theorem queueTest_awake {s : EventLoop τ φ} {t : τ} (h : s.Awake) (hcall : s.calls t = .pushed) :
    (s.queueTest t).Awake := by
  by_cases ht : t = s.threadId
  · subst ht
    have hpc := h.owner (by simp [hcall])
    refine ⟨h.flag, fun _ => hpc, fun hp => ?_, fun _ hpoll => absurd hpoll (not_polling hpc)⟩
    rcases hpc with hpc | hpc
    · exact Or.inr (Or.inl hpc)
    · -- In a functor the flag is set, so this thread goes on to `wakeup`.
      have hflag := h.flag.mpr (Or.inr (Or.inr hpc))
      refine Or.inr (Or.inr (Or.inr ⟨hpc, Or.inr ?_⟩))
      rw [queueTest, hflag, Bool.or_true, if_pos rfl]
      exact setCall_self _ _ _
  · refine setCall_awake h.flag h.owner ht ?_
    simp [isInLoopThread, Ne.symm ht]

theorem quitTest_awake {s : EventLoop τ φ} {t : τ} (h : s.Awake) (hcall : s.calls t = .quitSet) :
    (s.quitTest t).Awake := by
  by_cases ht : t = s.threadId
  · subst ht
    have hpc := h.owner (by simp [hcall])
    refine ⟨h.flag, fun _ => hpc, fun hp => ?_, fun _ hpoll => absurd hpoll (not_polling hpc)⟩
    rcases h.pending hp with hc | hh | hs | ⟨-, hc | hc⟩
    · exact Or.inl (hc.keep rfl rfl fun u hu => setCall_other _ _ hu)
    · exact Or.inr (Or.inl hh)
    · exact Or.inr (Or.inr (Or.inl hs))
    · simp [hcall] at hc
    · simp [hcall] at hc
  · refine setCall_awake h.flag h.owner ht ?_
    simp [isInLoopThread, Ne.symm ht]

theorem wakeup_awake {s : EventLoop τ φ} {t : τ} (h : s.Awake) : (s.wakeup t).Awake := by
  refine awake_of_covered h.flag ?_ (covered_of_eventfd ?_)
  · intro hcall
    by_cases ht : t = s.threadId
    · subst ht
      exact absurd (setCall_self _ _ _) hcall
    · exact h.owner fun hidle => hcall (by rw [← hidle]; exact setCall_other _ _ (Ne.symm ht))
  · have hpos : 0 < kMaxEventfd := by decide
    simp only [wakeup, setCall]
    split <;> omega

/-! ## Runs -/

variable [DecidableEq φ]

theorem step_awake {s u : EventLoop τ φ} {l : Label τ φ} (h : s.Awake) (hin : s.OwnerInside l)
    (hstep : step s l = some u) : u.Awake := by
  cases l with
  | queueInLoop t cb =>
    obtain ⟨hmay, rfl⟩ := Machine.guard_some.mp hstep
    exact queueInLoop_awake h cb hmay fun hout heq => hin hout (heq ▸ rfl)
  | runInLoop t cb =>
    obtain ⟨hmay, rfl⟩ := Machine.guard_some.mp hstep
    unfold runInLoop
    split
    · exact h
    · exact queueInLoop_awake h cb hmay fun hout heq => hin hout (heq ▸ rfl)
  | quit t =>
    obtain ⟨hmay, rfl⟩ := Machine.guard_some.mp hstep
    exact setQuit_awake h hmay fun hout heq => hin hout (heq ▸ rfl)
  | queueTest t =>
    obtain ⟨hcall, rfl⟩ := Machine.guard_some.mp hstep
    exact queueTest_awake h hcall
  | quitTest t =>
    obtain ⟨hcall, rfl⟩ := Machine.guard_some.mp hstep
    exact quitTest_awake h hcall
  | wakeup t =>
    obtain ⟨-, rfl⟩ := Machine.guard_some.mp hstep
    exact wakeup_awake h
  | loop =>
    obtain ⟨hat, rfl⟩ := Machine.guard_some.mp hstep
    refine ⟨?_, fun hcall => absurd hat.2 hcall, fun hp => ?_, fun _ hpoll => by cases hpoll⟩
    · simpa [hat.1] using h.flag
    · exact Or.inl ((h.covered hat (by simp) hp).move .testing s.callingPendingFunctors)
  | testQuit =>
    obtain ⟨hat, rfl⟩ := Machine.guard_some.mp hstep
    refine ⟨?_, fun hcall => absurd hat.2 hcall, fun hp => ?_, fun hquit hpoll => ?_⟩
    · have hflag := h.flag
      rw [hat.1] at hflag
      cases hquit : s.quit <;> simpa [hquit] using hflag
    · exact Or.inl ((h.covered hat (by simp) hp).move _ s.callingPendingFunctors)
    · simp only at hquit hpoll
      simp [hquit] at hpoll
  | poll eventfd =>
    obtain ⟨⟨hat, -⟩, rfl⟩ := Machine.guard_some.mp hstep
    refine ⟨?_, fun hcall => absurd hat.2 hcall, fun _ => Or.inr (Or.inl ⟨eventfd, rfl⟩),
      fun _ hpoll => by cases hpoll⟩
    simpa [hat.1] using h.flag
  | handleRead =>
    obtain ⟨hat, rfl⟩ := Machine.guard_some.mp hstep
    refine ⟨?_, fun hcall => absurd hat.2 hcall, fun _ => Or.inr (Or.inl ⟨false, rfl⟩), fun _ hpoll => by cases hpoll⟩
    simpa [hat.1] using h.flag
  | doPendingFunctors =>
    obtain ⟨hat, rfl⟩ := Machine.guard_some.mp hstep
    refine ⟨by simp, fun hcall => absurd hat.2 hcall, fun _ => ?_, fun _ hpoll => by cases hpoll⟩
    exact Or.inr (Or.inr (Or.inl rfl))
  | swap =>
    obtain ⟨hat, rfl⟩ := Machine.guard_some.mp hstep
    refine ⟨?_, fun hcall => absurd hat.2 hcall, fun hp => absurd rfl hp, fun _ hpoll => by cases hpoll⟩
    simpa [hat.1] using h.flag
  | callFunctor task =>
    obtain ⟨⟨hat, -⟩, rfl⟩ := Machine.guard_some.mp hstep
    refine ⟨?_, fun hcall => absurd hat.2 hcall, fun hp => ?_, fun _ hpoll => by cases hpoll⟩
    · simpa [hat.1] using h.flag
    · exact Or.inl ((h.covered hat (by simp) hp).keep rfl rfl fun _ _ => rfl)
  | returned =>
    obtain ⟨hat, rfl⟩ := Machine.guard_some.mp hstep
    refine ⟨?_, fun hcall => absurd hat.2 hcall, fun hp => ?_, fun _ hpoll => by cases hpoll⟩
    · simpa [hat.1] using h.flag
    · exact Or.inl ((h.covered hat (by simp) hp).move _ s.callingPendingFunctors)
  | endBatch =>
    obtain ⟨⟨hat, -⟩, rfl⟩ := Machine.guard_some.mp hstep
    refine ⟨by simp, fun hcall => absurd hat.2 hcall, fun hp => ?_, fun _ hpoll => by cases hpoll⟩
    exact Or.inl ((h.covered hat (by simp) hp).move _ _)

/-- While the loop sleeps with an empty eventfd and no other thread is inside a call, there is nothing
to do and nobody asked it to quit. -/
theorem no_lost_wakeup (threadId : τ) (labels : List (Label τ φ)) (s : EventLoop τ φ)
    (hrun : Machine.run step (init threadId) labels = some s)
    (hinside : Machine.Meets step OwnerInside (init threadId) labels)
    (hpoll : s.pc = .polling) (hfd : s.eventfd = 0) (hothers : ∀ t, t ≠ s.threadId → s.calls t = .idle) :
    s.pendingFunctors = [] ∧ s.quit = false := by
  have hawake : s.Awake :=
    Machine.run_invariant_of_meets (fun _ _ _ h hC hstep => step_awake h hC hstep) (init_awake threadId) hinside hrun
  have hsleep : ¬ s.Covered := by
    rintro (h | ⟨t, ht, hcall⟩)
    · omega
    · exact hcall (hothers t ht)
  constructor
  · by_contra hp
    rcases hawake.pending hp with hc | ⟨b, hb⟩ | hs | ⟨hr, -⟩
    · exact hsleep hc
    · simp [hpoll] at hb
    · simp [hpoll] at hs
    · simp [hpoll] at hr
  · by_contra hquit
    exact hsleep (hawake.quit (by simpa using hquit) hpoll)

/-- Another thread's functor queues a second one, and the loop sleeps again after both. -/
def twoRounds : List (Label Bool Nat) :=
  [.loop, .testQuit, .queueInLoop false 7, .queueTest false, .wakeup false, .poll true, .handleRead,
    .doPendingFunctors, .swap, .callFunctor ⟨false, 7⟩, .queueInLoop true 8, .queueTest true, .wakeup true,
    .returned, .endBatch, .testQuit, .poll true, .handleRead, .doPendingFunctors, .swap, .callFunctor ⟨true, 8⟩,
    .returned, .endBatch, .testQuit]

theorem no_lost_wakeup_twoRounds :
    ∃ s, Machine.run step (init true) twoRounds = some s ∧ s.pendingFunctors = [] ∧ s.quit = false := by
  have hrun : Machine.run step (init true) twoRounds = some _ := rfl
  refine ⟨_, hrun, no_lost_wakeup true twoRounds _ hrun ?_ rfl rfl (by decide)⟩
  iterate 24 refine (Machine.meets_cons rfl).mpr ⟨by decide, ?_⟩
  exact Machine.meets_nil _

end Muduo.EventLoop
