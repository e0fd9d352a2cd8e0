import Muduo.EventLoop.Order

/-! # What the owner queues

`queueInLoop` writes no wakeup for the loop's own thread unless functors are being called. From inside
`loop()` the next batch comes before the next `epoll_wait`; from outside nothing does.
-/

namespace Muduo.EventLoop

variable {τ φ : Type*}

/-- A functor that the owner queued is in the queue. -/
def HasOwn (s : EventLoop τ φ) : Prop := ∃ task ∈ s.pendingFunctors, task.submitter = s.threadId

/-- Where the owner is when its functors may be in the queue and the eventfd not readable: a batch or
its own wakeup comes before the next test of `_quit`. -/
def Ahead (s : EventLoop τ φ) : Prop :=
  s.pc = .outside ∨ (∃ b, s.pc = .handling b) ∨ s.pc = .swapping ∨
    (s.pc = .running ∧ (s.calls s.threadId = .pushed ∨ s.calls s.threadId = .waking))

/-- The invariant. `fresh` is for `loop()` having been called with a functor of the owner in the queue
and `_quit` not tested since. -/
structure Watched (fresh : Prop) (s : EventLoop τ φ) : Prop where
  flag : s.callingPendingFunctors = true ↔ s.pc = .swapping ∨ s.pc = .draining ∨ s.pc = .running
  owner : s.calls s.threadId ≠ .idle → s.pc = .outside ∨ (∃ b, s.pc = .handling b) ∨ s.pc = .running
  own : s.HasOwn → 0 < s.eventfd ∨ s.Ahead ∨ (s.pc = .testing ∧ fresh)

theorem init_watched (threadId : τ) (fresh : Prop) : Watched fresh (init threadId : EventLoop τ φ) where
  flag := by simp [init]
  owner := fun hcall => absurd rfl hcall
  own := fun ⟨_, htask, _⟩ => absurd htask List.not_mem_nil

theorem Watched.announced {fresh : Prop} {s : EventLoop τ φ} {pc : Pc} (h : Watched fresh s) (hat : s.At pc)
    (hpc : pc ≠ .outside ∧ (∀ b, pc ≠ .handling b) ∧ pc ≠ .swapping ∧ pc ≠ .testing) (hown : s.HasOwn) :
    0 < s.eventfd := by
  obtain ⟨rfl, hidle⟩ := hat
  rcases h.own hown with hfd | (hout | ⟨b, hb⟩ | hswap | ⟨-, hcall | hcall⟩) | ⟨htest, -⟩
  · exact hfd
  · exact absurd hout hpc.1
  · exact absurd hb (hpc.2.1 b)
  · exact absurd hswap hpc.2.2.1
  · simp [hidle] at hcall
  · simp [hidle] at hcall
  · exact absurd htest hpc.2.2.2

theorem Watched.running {fresh : Prop} {s : EventLoop τ φ} (h : Watched fresh s) (hpc : s.pc = .running)
    (hcall : s.calls s.threadId ≠ .pushed) (hcall' : s.calls s.threadId ≠ .waking) (hown : s.HasOwn) :
    0 < s.eventfd := by
  rcases h.own hown with hfd | hahead | ⟨htest, -⟩
  · exact hfd
  · rcases hahead with hout | ⟨b, hb⟩ | hswap | ⟨-, hc | hc⟩
    · simp [hpc] at hout
    · simp [hpc] at hb
    · simp [hpc] at hswap
    · exact absurd hc hcall
    · exact absurd hc hcall'
  · simp [hpc] at htest

variable [DecidableEq τ]

/-! ## Calls -/

theorem Watched.setCall {fresh fresh' : Prop} {s u : EventLoop τ φ} {t : τ} {c : Call} (h : Watched fresh s)
    (hfresh : fresh → fresh') (hu : u.pc = s.pc ∧ u.callingPendingFunctors = s.callingPendingFunctors ∧
      u.threadId = s.threadId ∧ u.calls = Function.update s.calls t c) (hfd : s.eventfd ≤ u.eventfd)
    (howner : t = s.threadId → s.pc = .outside ∨ (∃ b, s.pc = .handling b) ∨ s.pc = .running)
    (hother : t ≠ s.threadId → u.HasOwn → s.HasOwn)
    (hrunning : t = s.threadId → s.pc = .running → u.HasOwn → 0 < u.eventfd ∨ c = .pushed ∨ c = .waking) :
    Watched fresh' u := by
  obtain ⟨hpc, hflag, hid, hcalls⟩ := hu
  have hsame : t ≠ s.threadId → u.calls u.threadId = s.calls s.threadId := by
    intro ht
    rw [hid, hcalls, Function.update_of_ne (Ne.symm ht)]
  refine ⟨by rw [hflag, hpc]; exact h.flag, fun hcall => ?_, fun hown => ?_⟩
  · rw [hpc]
    by_cases ht : t = s.threadId
    · exact howner ht
    · exact h.owner (hsame ht ▸ hcall)
  · by_cases ht : t = s.threadId
    · rcases howner ht with hout | hhandling | hrun
      · exact Or.inr (Or.inl (Or.inl (hpc.trans hout)))
      · exact Or.inr (Or.inl (Or.inr (Or.inl (hpc.symm ▸ hhandling))))
      · rcases hrunning ht hrun hown with hpos | hc
        · exact Or.inl hpos
        · refine Or.inr (Or.inl (Or.inr (Or.inr (Or.inr ⟨hpc.trans hrun, ?_⟩))))
          rw [hid, hcalls, ← ht, Function.update_self]
          exact hc
    · rw [Ahead, hpc, hsame ht]
      rcases h.own (hother ht hown) with hpos | hahead | ⟨htest, hf⟩
      · exact Or.inl (Nat.lt_of_lt_of_le hpos hfd)
      · exact Or.inr (Or.inl hahead)
      · exact Or.inr (Or.inr ⟨htest, hfresh hf⟩)

theorem queueInLoop_watched {fresh fresh' : Prop} {s : EventLoop τ φ} {t : τ} (h : Watched fresh s)
    (hfresh : fresh → fresh') (cb : φ) (hmay : s.MayCall t) : Watched fresh' (s.queueInLoop t cb) := by
  refine h.setCall hfresh ⟨rfl, rfl, rfl, rfl⟩ (Nat.le_refl _) (fun ht => hmay.2 ht.symm) ?_
    fun _ _ _ => Or.inr (Or.inl rfl)
  rintro ht ⟨task, htask, hsub⟩
  rcases List.mem_append.mp htask with htask | htask
  · exact ⟨task, htask, hsub⟩
  · rw [List.mem_singleton.mp htask] at hsub
    exact absurd hsub ht

theorem setQuit_watched {fresh fresh' : Prop} {s : EventLoop τ φ} {t : τ} (h : Watched fresh s)
    (hfresh : fresh → fresh') (hmay : s.MayCall t) : Watched fresh' (s.setQuit t) := by
  refine h.setCall hfresh ⟨rfl, rfl, rfl, rfl⟩ (Nat.le_refl _) (fun ht => hmay.2 ht.symm) (fun _ hown => hown) ?_
  intro ht hpc hown
  have hidle : s.calls s.threadId = .idle := ht ▸ hmay.1
  exact Or.inl (h.running hpc (by simp [hidle]) (by simp [hidle]) hown)

theorem queueTest_watched {fresh fresh' : Prop} {s : EventLoop τ φ} {t : τ} (h : Watched fresh s)
    (hfresh : fresh → fresh') (hcall : s.calls t = .pushed) : Watched fresh' (s.queueTest t) := by
  refine h.setCall hfresh ⟨rfl, rfl, rfl, rfl⟩ (Nat.le_refl _) (fun ht => ?_) (fun _ hown => hown) ?_
  · exact h.owner (by simp [← ht, hcall])
  · -- In a functor the flag is set, so the owner goes on to `wakeup`.
    intro _ hpc _
    have hflag := h.flag.mpr (Or.inr (Or.inr hpc))
    rw [hflag, Bool.or_true, if_pos rfl]
    exact Or.inr (Or.inr rfl)

theorem quitTest_watched {fresh fresh' : Prop} {s : EventLoop τ φ} {t : τ} (h : Watched fresh s)
    (hfresh : fresh → fresh') (hcall : s.calls t = .quitSet) : Watched fresh' (s.quitTest t) := by
  refine h.setCall hfresh ⟨rfl, rfl, rfl, rfl⟩ (Nat.le_refl _) (fun ht => ?_) (fun _ hown => hown) ?_
  · exact h.owner (by simp [← ht, hcall])
  · intro ht hpc hown
    have hquit : s.calls s.threadId = .quitSet := ht ▸ hcall
    exact Or.inl (h.running hpc (by simp [hquit]) (by simp [hquit]) hown)

theorem wakeup_watched {fresh fresh' : Prop} {s : EventLoop τ φ} {t : τ} (h : Watched fresh s)
    (hfresh : fresh → fresh') (hcall : s.calls t = .waking) : Watched fresh' (s.wakeup t) := by
  have hpos : 0 < (s.wakeup t).eventfd := by
    have hmax : 0 < kMaxEventfd := by decide
    simp only [wakeup, EventLoop.setCall]
    split <;> omega
  have hle : s.eventfd ≤ (s.wakeup t).eventfd := by
    simp only [wakeup, EventLoop.setCall]
    split <;> omega
  refine h.setCall hfresh ⟨rfl, rfl, rfl, rfl⟩ hle (fun ht => ?_) (fun _ hown => hown) fun _ _ _ => Or.inl hpos
  exact h.owner (by simp [← ht, hcall])

/-! ## Runs -/

variable [DecidableEq φ]

theorem step_watched {fresh fresh' : Prop} {s u : EventLoop τ φ} {l : Label τ φ} (h : Watched fresh s)
    (hfresh : l ≠ .testQuit → fresh → fresh') (hloop : l = .loop → s.HasOwn → fresh')
    (htest : l = .testQuit → fresh → 0 < s.eventfd ∨ s.quit = true) (hstep : step s l = some u) :
    Watched fresh' u := by
  cases l with
  | queueInLoop t cb =>
    obtain ⟨hmay, rfl⟩ := Machine.guard_some.mp hstep
    exact queueInLoop_watched h (hfresh (by simp)) cb hmay
  | runInLoop t cb =>
    obtain ⟨hmay, rfl⟩ := Machine.guard_some.mp hstep
    have hf := hfresh (by simp)
    unfold runInLoop
    split
    · refine ⟨h.flag, h.owner, fun hown => ?_⟩
      exact (h.own hown).imp_right (Or.imp_right (And.imp_right hf))
    · exact queueInLoop_watched h hf cb hmay
  | quit t =>
    obtain ⟨hmay, rfl⟩ := Machine.guard_some.mp hstep
    exact setQuit_watched h (hfresh (by simp)) hmay
  | queueTest t =>
    obtain ⟨hcall, rfl⟩ := Machine.guard_some.mp hstep
    exact queueTest_watched h (hfresh (by simp)) hcall
  | quitTest t =>
    obtain ⟨hcall, rfl⟩ := Machine.guard_some.mp hstep
    exact quitTest_watched h (hfresh (by simp)) hcall
  | wakeup t =>
    obtain ⟨hcall, rfl⟩ := Machine.guard_some.mp hstep
    exact wakeup_watched h (hfresh (by simp)) hcall
  | loop =>
    obtain ⟨hat, rfl⟩ := Machine.guard_some.mp hstep
    refine ⟨?_, fun hcall => absurd hat.2 hcall, fun hown => Or.inr (Or.inr ⟨rfl, hloop rfl hown⟩)⟩
    simpa [hat.1] using h.flag
  | testQuit =>
    obtain ⟨hat, rfl⟩ := Machine.guard_some.mp hstep
    have hflag := h.flag
    rw [hat.1] at hflag
    refine ⟨?_, fun hcall => absurd hat.2 hcall, fun hown => ?_⟩
    · cases hquit : s.quit <;> simpa [hquit] using hflag
    · have hcases : 0 < s.eventfd ∨ s.quit = true := by
        rcases h.own hown with hfd | hahead | ⟨-, hf⟩
        · exact Or.inl hfd
        · rcases hahead with hpc | ⟨b, hpc⟩ | hpc | ⟨hpc, -⟩ <;> simp [hat.1] at hpc
        · exact htest rfl hf
      rcases hcases with hfd | hquit
      · exact Or.inl hfd
      · refine Or.inr (Or.inl (Or.inl ?_))
        exact if_pos hquit
  | poll eventfd =>
    obtain ⟨⟨hat, -⟩, rfl⟩ := Machine.guard_some.mp hstep
    refine ⟨?_, fun hcall => absurd hat.2 hcall, fun _ => Or.inr (Or.inl (Or.inr (Or.inl ⟨eventfd, rfl⟩)))⟩
    simpa [hat.1] using h.flag
  | handleRead =>
    obtain ⟨hat, rfl⟩ := Machine.guard_some.mp hstep
    refine ⟨?_, fun hcall => absurd hat.2 hcall, fun _ => Or.inr (Or.inl (Or.inr (Or.inl ⟨false, rfl⟩)))⟩
    simpa [hat.1] using h.flag
  | doPendingFunctors =>
    obtain ⟨hat, rfl⟩ := Machine.guard_some.mp hstep
    exact ⟨by simp, fun hcall => absurd hat.2 hcall, fun _ => Or.inr (Or.inl (Or.inr (Or.inr (Or.inl rfl))))⟩
  | swap =>
    obtain ⟨hat, rfl⟩ := Machine.guard_some.mp hstep
    refine ⟨?_, fun hcall => absurd hat.2 hcall, fun hown => ?_⟩
    · simpa [hat.1] using h.flag
    · obtain ⟨_, htask, -⟩ := hown
      exact absurd htask List.not_mem_nil
  | callFunctor task =>
    obtain ⟨⟨hat, -⟩, rfl⟩ := Machine.guard_some.mp hstep
    refine ⟨?_, fun hcall => absurd hat.2 hcall, fun hown => Or.inl (h.announced hat (by simp) hown)⟩
    simpa [hat.1] using h.flag
  | returned =>
    obtain ⟨hat, rfl⟩ := Machine.guard_some.mp hstep
    refine ⟨?_, fun hcall => absurd hat.2 hcall, fun hown => Or.inl (h.announced hat (by simp) hown)⟩
    simpa [hat.1] using h.flag
  | endBatch =>
    obtain ⟨⟨hat, -⟩, rfl⟩ := Machine.guard_some.mp hstep
    exact ⟨by simp, fun hcall => absurd hat.2 hcall, fun hown => Or.inl (h.announced hat (by simp) hown)⟩

/-! ## What runs have been called -/

/-- Whenever the owner is in `epoll_wait`, it has executed what it queued or the eventfd is readable. -/
def Rested (threadId : τ) (labels : List (Label τ φ)) : Prop :=
  ∀ pre s, pre <+: labels → Machine.run step (init threadId) pre = some s → s.pc = .polling →
    submittedBy threadId (executed pre) = submittedBy threadId (pushed threadId pre) ∨ 0 < s.eventfd

/-- Where `loop()` is called with a functor of the owner's in the queue, a wakeup or a `quit` is there
by the time it first tests `_quit`. -/
def LoopsAwake (threadId : τ) (labels : List (Label τ φ)) : Prop :=
  ∀ pre mid s t, pre ++ .loop :: mid ++ [.testQuit] <+: labels → .testQuit ∉ mid →
    Machine.run step (init threadId) pre = some s → s.HasOwn → Machine.run step s (.loop :: mid) = some t →
    0 < t.eventfd ∨ t.quit = true

/-- The latest call of `loop()` found a functor of the owner's in the queue, and `_quit` is yet to be tested. -/
def Fresh (threadId : τ) (labels : List (Label τ φ)) : Prop :=
  ∃ pre mid s, labels = pre ++ .loop :: mid ∧ .testQuit ∉ mid ∧ Machine.run step (init threadId) pre = some s ∧
    s.HasOwn

theorem Fresh.snoc {threadId : τ} {labels : List (Label τ φ)} {l : Label τ φ} (h : Fresh threadId labels)
    (hl : l ≠ .testQuit) : Fresh threadId (labels ++ [l]) := by
  obtain ⟨pre, mid, s, rfl, hmid, hpre, hown⟩ := h
  refine ⟨pre, mid ++ [l], s, by simp, ?_, hpre, hown⟩
  simpa [hmid] using Ne.symm hl

theorem LoopsAwake.upTo {threadId : τ} {labels pre : List (Label τ φ)} (h : LoopsAwake threadId labels)
    (hpre : pre <+: labels) : LoopsAwake threadId pre :=
  fun p mid s t hp => h p mid s t (hp.trans hpre)

theorem run_watched {threadId : τ} {labels : List (Label τ φ)} {s : EventLoop τ φ} (h : LoopsAwake threadId labels)
    (hrun : Machine.run step (init threadId) labels = some s) : Watched (Fresh threadId labels) s := by
  induction labels using List.reverseRecOn generalizing s with
  | nil =>
    rw [Machine.run_nil, Option.some.injEq] at hrun
    exact hrun ▸ init_watched threadId _
  | append_singleton labels l ih =>
    obtain ⟨t, ht, hl⟩ := Machine.run_append_some.mp hrun
    obtain ⟨u, hstep, hu⟩ := Machine.run_cons_some.mp hl
    rw [Machine.run_nil, Option.some.injEq] at hu
    subst hu
    refine step_watched (ih (h.upTo (List.prefix_append _ _)) ht) (fun hne hfresh => hfresh.snoc hne) ?_ ?_ hstep
    · rintro rfl hown
      exact ⟨labels, [], t, rfl, List.not_mem_nil, ht, hown⟩
    · rintro rfl ⟨pre, mid, p, rfl, hmid, hpre, hown⟩
      obtain ⟨p', hp', hrest⟩ := Machine.run_append_some.mp ht
      rw [hpre, Option.some.injEq] at hp'
      subst hp'
      exact h pre mid p t (List.prefix_refl _) hmid hpre hown hrest

theorem run_threadId {s u : EventLoop τ φ} {labels : List (Label τ φ)} (hrun : Machine.run step s labels = some u) :
    u.threadId = s.threadId :=
  Machine.run_invariant (fun _ _ _ h hstep => (step_threadId hstep).trans h) rfl hrun

theorem executed_iff {threadId : τ} {labels : List (Label τ φ)} {s : EventLoop τ φ}
    (hrun : Machine.run step (init threadId) labels = some s) (hpc : s.pc = .polling) :
    submittedBy threadId (executed labels) = submittedBy threadId (pushed threadId labels) ↔ ¬ s.HasOwn := by
  have hinit : (init threadId : EventLoop τ φ).BatchDone := fun _ _ => rfl
  have hbatch : s.tempRuns = [] := run_batchDone hinit hrun (by simp [hpc]) (by simp [hpc])
  have hid : s.threadId = threadId := run_threadId hrun
  have hall : pushed threadId labels = executed labels ++ s.pendingFunctors := by
    simpa [hbatch, init] using run_conserves hinit hrun
  rw [hall, submittedBy, submittedBy, List.filter_append, List.self_eq_append_right, List.filter_eq_nil_iff]
  simp [HasOwn, hid]

theorem step_testing {s u : EventLoop τ φ} {l : Label τ φ} (hl : l ≠ .testQuit) (hpc : s.pc = .testing)
    (hown : s.HasOwn) (hstep : step s l = some u) : u.pc = .testing ∧ u.HasOwn := by
  obtain ⟨task, htask, hsub⟩ := hown
  cases l with
  | testQuit => exact absurd rfl hl
  | queueInLoop t cb =>
    obtain ⟨-, rfl⟩ := Machine.guard_some.mp hstep
    exact ⟨hpc, task, List.mem_append_left _ htask, hsub⟩
  | runInLoop t cb =>
    obtain ⟨-, rfl⟩ := Machine.guard_some.mp hstep
    unfold runInLoop
    split
    · exact ⟨hpc, task, htask, hsub⟩
    · exact ⟨hpc, task, List.mem_append_left _ htask, hsub⟩
  | quit | queueTest | quitTest | wakeup =>
    obtain ⟨-, rfl⟩ := Machine.guard_some.mp hstep
    exact ⟨hpc, task, htask, hsub⟩
  | loop | handleRead | doPendingFunctors | swap | returned =>
    obtain ⟨hat, -⟩ := Machine.guard_some.mp hstep
    exact absurd (hpc.symm.trans hat.1) (by simp)
  | poll | callFunctor | endBatch =>
    obtain ⟨⟨hat, -⟩, -⟩ := Machine.guard_some.mp hstep
    exact absurd (hpc.symm.trans hat.1) (by simp)

theorem loop_testing {s t : EventLoop τ φ} {mid : List (Label τ φ)} (hmid : .testQuit ∉ mid) (hown : s.HasOwn)
    (hrun : Machine.run step s (.loop :: mid) = some t) : t.pc = .testing ∧ t.HasOwn := by
  obtain ⟨u, hu, hrest⟩ := Machine.run_cons_some.mp hrun
  have hloop : u.pc = .testing ∧ u.HasOwn := by
    obtain ⟨-, rfl⟩ := Machine.guard_some.mp hu
    exact ⟨rfl, hown⟩
  refine Machine.run_invariant_of_meets (C := fun _ l => l ≠ .testQuit)
    (fun _ _ _ hI hl hstep => step_testing hl hI.1 hI.2 hstep) hloop ?_ hrest
  intro pre l _ hpre _
  rintro rfl
  exact hmid (hpre.subset (by simp))

/-- The loop never sleeps on what its owner queued exactly when every call of `loop()` that finds such
a functor in the queue also finds a wakeup or a `quit`. -/
theorem never_sleeps_on_own (threadId : τ) (labels : List (Label τ φ)) (s : EventLoop τ φ)
    (hrun : Machine.run step (init threadId) labels = some s) :
    Rested threadId labels ↔ LoopsAwake threadId labels := by
  constructor
  · intro hrested pre mid p t hpre hmid hp hown ht
    obtain ⟨rest, rfl⟩ := hpre
    have hto : Machine.run step (init threadId) (pre ++ .loop :: mid) = some t :=
      Machine.run_append_some.mpr ⟨p, hp, ht⟩
    rw [List.append_assoc, Machine.run_append, hto] at hrun
    obtain ⟨u, hu, -⟩ := Machine.run_cons_some.mp hrun
    obtain ⟨-, hown'⟩ := loop_testing hmid hown ht
    have hto' : Machine.run step (init threadId) (pre ++ .loop :: mid ++ [.testQuit]) = some u :=
      Machine.run_append_some.mpr ⟨t, hto, Machine.run_cons_some.mpr ⟨u, hu, rfl⟩⟩
    obtain ⟨-, rfl⟩ := Machine.guard_some.mp hu
    cases hquit : t.quit with
    | true => exact Or.inr rfl
    | false =>
      have hpoll := hrested _ _ (List.prefix_append _ _) hto' (by simp [hquit])
      rcases hpoll with hexecuted | hfd
      · exact absurd hown' ((executed_iff hto' (by simp [hquit])).mp hexecuted)
      · exact Or.inl hfd
  · intro hawake pre u hpre hu hpc
    have hwatched := run_watched (hawake.upTo hpre) hu
    rw [executed_iff hu hpc, or_iff_not_imp_left, not_not]
    intro hown
    rcases hwatched.own hown with hfd | hahead | ⟨htest, -⟩
    · exact hfd
    · rcases hahead with h | ⟨b, h⟩ | h | ⟨h, -⟩ <;> simp [hpc] at h
    · simp [hpc] at htest

theorem loopsAwake_once (threadId : τ) (labels : List (Label τ φ)) (h : .loop ∉ labels) :
    LoopsAwake threadId (.loop :: labels) := by
  rintro pre mid s t hpre - hrun ⟨task, htask, -⟩ -
  cases pre with
  | nil =>
    rw [Machine.run_nil, Option.some.injEq] at hrun
    subst hrun
    exact absurd htask List.not_mem_nil
  | cons l pre =>
    obtain ⟨-, hrest⟩ := List.cons_prefix_cons.mp hpre
    exact absurd (hrest.subset (by simp)) h

theorem never_sleeps_on_own_twoRounds : Rested true twoRounds :=
  (never_sleeps_on_own true twoRounds _ rfl).mpr (loopsAwake_once true _ (by decide))

/-- The owner queues a functor and calls `loop()`, as with `Connector::stop` before it. -/
theorem sleeps_on_own :
    let labels : List (Label Bool Nat) := [.queueInLoop true 7, .queueTest true, .loop, .testQuit]
    (∃ s, Machine.run step (init true) labels = some s ∧ s.pc = .polling ∧ s.eventfd = 0 ∧
      s.pendingFunctors = [⟨true, 7⟩]) ∧ ¬ Rested true labels := by
  intro labels
  have hrun : Machine.run step (init true) labels = some _ := rfl
  refine ⟨⟨_, hrun, rfl, rfl, rfl⟩, fun hrested => ?_⟩
  rcases hrested labels _ (List.prefix_refl _) hrun rfl with h | h
  · exact absurd h (by decide)
  · exact absurd h (by decide)

end Muduo.EventLoop
