import Muduo.EventLoop.Wakeup

/-! # Functors run once, in the order of their pushes

What the loop owes is what it holds: a push adds to it at the end, and a call takes from its front.
-/

namespace Muduo.EventLoop

variable {τ φ : Type*} [DecidableEq τ]

/-! ## What a run pushes and calls -/

def Label.pushed (threadId : τ) : Label τ φ → Option (Task τ φ)
  | .queueInLoop t cb => some ⟨t, cb⟩
  | .runInLoop t cb => if threadId = t then none else some ⟨t, cb⟩
  | _ => none

def Label.executed : Label τ φ → Option (Task τ φ)
  | .callFunctor task => some task
  | _ => none

/-- The functors of a run in the order in which they took `_mutex`. -/
def pushed (threadId : τ) (labels : List (Label τ φ)) : List (Task τ φ) :=
  labels.filterMap (Label.pushed threadId)

def executed (labels : List (Label τ φ)) : List (Task τ φ) := labels.filterMap Label.executed

def submittedBy (t : τ) (tasks : List (Task τ φ)) : List (Task τ φ) := tasks.filter fun task => task.submitter = t

theorem pushed_cons (threadId : τ) (l : Label τ φ) (labels : List (Label τ φ)) :
    pushed threadId (l :: labels) = (l.pushed threadId).toList ++ pushed threadId labels := by
  rw [pushed, List.filterMap_cons]
  cases l.pushed threadId <;> rfl

omit [DecidableEq τ] in
theorem executed_cons (l : Label τ φ) (labels : List (Label τ φ)) :
    executed (l :: labels) = l.executed.toList ++ executed labels := by
  rw [executed, List.filterMap_cons]
  cases l.executed <;> rfl

/-! ## One step -/

/-- The batch is empty outside the loop over it. -/
def BatchDone (s : EventLoop τ φ) : Prop := s.pc ≠ .draining → s.pc ≠ .running → s.tempRuns = []

variable [DecidableEq φ]

/-- What the loop holds of the functors that were pushed, before and after a step. -/
theorem step_conserves {s u : EventLoop τ φ} {l : Label τ φ} (hdone : s.BatchDone) (hstep : step s l = some u) :
    s.tempRuns ++ s.pendingFunctors ++ (l.pushed s.threadId).toList =
      l.executed.toList ++ (u.tempRuns ++ u.pendingFunctors) := by
  cases l with
  | queueInLoop t cb =>
    obtain ⟨-, rfl⟩ := Machine.guard_some.mp hstep
    simp [Label.pushed, Label.executed, queueInLoop, setCall]
  | runInLoop t cb =>
    obtain ⟨-, rfl⟩ := Machine.guard_some.mp hstep
    by_cases ht : s.threadId = t
    · simp [Label.pushed, Label.executed, runInLoop, isInLoopThread, ht]
    · simp [Label.pushed, Label.executed, runInLoop, isInLoopThread, ht, queueInLoop, setCall]
  | swap =>
    obtain ⟨hat, rfl⟩ := Machine.guard_some.mp hstep
    have hempty : s.tempRuns = [] := hdone (by simp [hat.1]) (by simp [hat.1])
    simp [Label.pushed, Label.executed, hempty]
  | callFunctor task =>
    obtain ⟨⟨-, hhead⟩, rfl⟩ := Machine.guard_some.mp hstep
    simp only [Label.pushed, Label.executed, Option.toList_none, Option.toList_some, List.append_nil]
    rw [← List.append_assoc, List.singleton_append, ← List.eq_cons_of_mem_head? hhead]
  | quit | queueTest | quitTest | wakeup | loop | testQuit | poll | handleRead | doPendingFunctors | returned
  | endBatch =>
    obtain ⟨-, rfl⟩ := Machine.guard_some.mp hstep
    simp [Label.pushed, Label.executed, setQuit, queueTest, quitTest, wakeup, setCall]

theorem step_threadId {s u : EventLoop τ φ} {l : Label τ φ} (hstep : step s l = some u) :
    u.threadId = s.threadId := by
  cases l with
  | runInLoop t cb =>
    obtain ⟨-, rfl⟩ := Machine.guard_some.mp hstep
    unfold runInLoop
    split <;> rfl
  | _ =>
    obtain ⟨-, rfl⟩ := Machine.guard_some.mp hstep
    rfl

theorem step_calling {s u : EventLoop τ φ} {l : Label τ φ} (hstep : step s l = some u) {t : τ}
    (hcall : u.calls t ≠ .idle) : s.calls t ≠ .idle ∨ l.caller = some t := by
  have hset : ∀ {v : τ} {c : Call}, (s.setCall v c).calls t ≠ .idle → t = v ∨ s.calls t ≠ .idle := by
    intro v c h
    by_cases htv : t = v
    · exact Or.inl htv
    · exact Or.inr (by simpa [setCall, Function.update_of_ne htv] using h)
  have hmay : ∀ {v : τ} {c : Call}, s.calls v ≠ .idle → (s.setCall v c).calls t ≠ .idle → s.calls t ≠ .idle := by
    intro v c hv h
    rcases hset h with rfl | h
    · exact hv
    · exact h
  cases l with
  | queueInLoop v cb =>
    obtain ⟨-, rfl⟩ := Machine.guard_some.mp hstep
    rcases hset (v := v) (c := .pushed) hcall with rfl | h
    · exact Or.inr rfl
    · exact Or.inl h
  | runInLoop v cb =>
    obtain ⟨-, rfl⟩ := Machine.guard_some.mp hstep
    unfold runInLoop at hcall
    split at hcall
    · exact Or.inl hcall
    · rcases hset (v := v) (c := .pushed) hcall with rfl | h
      · exact Or.inr rfl
      · exact Or.inl h
  | quit v =>
    obtain ⟨-, rfl⟩ := Machine.guard_some.mp hstep
    rcases hset (v := v) (c := .quitSet) hcall with rfl | h
    · exact Or.inr rfl
    · exact Or.inl h
  | queueTest v =>
    obtain ⟨hv, rfl⟩ := Machine.guard_some.mp hstep
    exact Or.inl (hmay (by simp [hv]) hcall)
  | quitTest v =>
    obtain ⟨hv, rfl⟩ := Machine.guard_some.mp hstep
    exact Or.inl (hmay (by simp [hv]) hcall)
  | wakeup v =>
    obtain ⟨hv, rfl⟩ := Machine.guard_some.mp hstep
    exact Or.inl (hmay (v := v) (c := .idle) (by simp [hv]) hcall)
  | loop | testQuit | poll | handleRead | doPendingFunctors | swap | callFunctor | returned | endBatch =>
    obtain ⟨-, rfl⟩ := Machine.guard_some.mp hstep
    exact Or.inl hcall

theorem step_unquit {s u : EventLoop τ φ} {l : Label τ φ} (hl : ∀ t, l ≠ .quit t) (hstep : step s l = some u)
    (hquit : s.quit = false) (hcalls : ∀ t, s.calls t ≠ .quitSet) : u.quit = false ∧ ∀ t, u.calls t ≠ .quitSet := by
  have hset : ∀ {v : τ} {c : Call}, c ≠ .quitSet → ∀ t, (s.setCall v c).calls t ≠ .quitSet := by
    intro v c hc t
    by_cases htv : t = v
    · subst htv
      simpa [setCall] using hc
    · simpa [setCall, Function.update_of_ne htv] using hcalls t
  cases l with
  | quit v => exact absurd rfl (hl v)
  | queueInLoop v cb =>
    obtain ⟨-, rfl⟩ := Machine.guard_some.mp hstep
    exact ⟨hquit, hset (v := v) (c := .pushed) (by simp)⟩
  | runInLoop v cb =>
    obtain ⟨-, rfl⟩ := Machine.guard_some.mp hstep
    unfold runInLoop
    split
    · exact ⟨hquit, hcalls⟩
    · exact ⟨hquit, hset (v := v) (c := .pushed) (by simp)⟩
  | queueTest v =>
    obtain ⟨-, rfl⟩ := Machine.guard_some.mp hstep
    exact ⟨hquit, hset (by split <;> simp)⟩
  | quitTest v =>
    obtain ⟨-, rfl⟩ := Machine.guard_some.mp hstep
    exact ⟨hquit, hset (by split <;> simp)⟩
  | wakeup v =>
    obtain ⟨-, rfl⟩ := Machine.guard_some.mp hstep
    exact ⟨hquit, hset (v := v) (c := .idle) (by simp)⟩
  | loop | testQuit | poll | handleRead | doPendingFunctors | swap | callFunctor | returned | endBatch =>
    obtain ⟨-, rfl⟩ := Machine.guard_some.mp hstep
    exact ⟨hquit, hcalls⟩

theorem step_batchDone {s u : EventLoop τ φ} {l : Label τ φ} (hdone : s.BatchDone) (hstep : step s l = some u) :
    u.BatchDone := by
  cases l with
  | queueInLoop | quit | queueTest | quitTest | wakeup =>
    obtain ⟨-, rfl⟩ := Machine.guard_some.mp hstep
    exact hdone
  | runInLoop t cb =>
    obtain ⟨-, rfl⟩ := Machine.guard_some.mp hstep
    unfold runInLoop
    split <;> exact hdone
  | loop | testQuit | handleRead | doPendingFunctors =>
    obtain ⟨hat, rfl⟩ := Machine.guard_some.mp hstep
    exact fun _ _ => hdone (by simp [hat.1]) (by simp [hat.1])
  | poll =>
    obtain ⟨⟨hat, -⟩, rfl⟩ := Machine.guard_some.mp hstep
    exact fun _ _ => hdone (by simp [hat.1]) (by simp [hat.1])
  | swap | returned =>
    obtain ⟨-, rfl⟩ := Machine.guard_some.mp hstep
    exact fun h _ => absurd rfl h
  | callFunctor =>
    obtain ⟨-, rfl⟩ := Machine.guard_some.mp hstep
    exact fun _ h => absurd rfl h
  | endBatch =>
    obtain ⟨⟨-, hempty⟩, rfl⟩ := Machine.guard_some.mp hstep
    exact fun _ _ => hempty

theorem step_batch {s u : EventLoop τ φ} {l : Label τ φ} (hl : l ≠ .swap) (hstep : step s l = some u) :
    s.tempRuns = l.executed.toList ++ u.tempRuns := by
  cases l with
  | swap => exact absurd rfl hl
  | runInLoop t cb =>
    obtain ⟨-, rfl⟩ := Machine.guard_some.mp hstep
    unfold runInLoop
    split <;> rfl
  | callFunctor task =>
    obtain ⟨⟨-, hhead⟩, rfl⟩ := Machine.guard_some.mp hstep
    exact List.eq_cons_of_mem_head? hhead
  | _ =>
    obtain ⟨-, rfl⟩ := Machine.guard_some.mp hstep
    rfl

/-! ## Runs -/

theorem run_conserves {s u : EventLoop τ φ} {labels : List (Label τ φ)} (hdone : s.BatchDone)
    (hrun : Machine.run step s labels = some u) :
    s.tempRuns ++ s.pendingFunctors ++ pushed s.threadId labels =
      executed labels ++ (u.tempRuns ++ u.pendingFunctors) := by
  induction labels generalizing s with
  | nil =>
    rw [Machine.run_nil, Option.some.injEq] at hrun
    subst hrun
    simp [pushed, executed]
  | cons l labels ih =>
    obtain ⟨t, ht, hrest⟩ := Machine.run_cons_some.mp hrun
    have hrun := ih (step_batchDone hdone ht) hrest
    rw [step_threadId ht] at hrun
    rw [pushed_cons, executed_cons, ← List.append_assoc, step_conserves hdone ht, List.append_assoc, hrun,
      List.append_assoc]

theorem run_batch {s u : EventLoop τ φ} {labels : List (Label τ φ)} (hswap : .swap ∉ labels)
    (hrun : Machine.run step s labels = some u) : s.tempRuns = executed labels ++ u.tempRuns := by
  induction labels generalizing s with
  | nil =>
    rw [Machine.run_nil, Option.some.injEq] at hrun
    subst hrun
    rfl
  | cons l labels ih =>
    obtain ⟨t, ht, hrest⟩ := Machine.run_cons_some.mp hrun
    obtain ⟨hl, hlabels⟩ := not_or.mp (mt List.mem_cons.mpr hswap)
    rw [executed_cons, List.append_assoc, ← ih hlabels hrest]
    exact step_batch (Ne.symm hl) ht

theorem run_batchDone {s u : EventLoop τ φ} {labels : List (Label τ φ)} (hdone : s.BatchDone)
    (hrun : Machine.run step s labels = some u) : u.BatchDone :=
  Machine.run_invariant (fun _ _ _ h hstep => step_batchDone h hstep) hdone hrun

/-- Called, held in the batch and still queued are all that was pushed, in order. Each thread's
functors run in its own order, and a batch is what the queue held at its swap. -/
theorem functors_once_in_order (threadId : τ) (labels : List (Label τ φ)) (s : EventLoop τ φ)
    (hrun : Machine.run step (init threadId) labels = some s) :
    executed labels ++ s.tempRuns ++ s.pendingFunctors = pushed threadId labels ∧
    (∀ t, submittedBy t (executed labels) <+: submittedBy t (pushed threadId labels)) ∧
    (∀ pre mid t, labels = pre ++ .swap :: mid → .swap ∉ mid → Machine.run step (init threadId) pre = some t →
      executed mid ++ s.tempRuns = t.pendingFunctors ∧
      (s.pc ≠ .draining → s.pc ≠ .running → executed mid = t.pendingFunctors)) := by
  have hinit : (init threadId : EventLoop τ φ).BatchDone := fun _ _ => rfl
  have hall : executed labels ++ s.tempRuns ++ s.pendingFunctors = pushed threadId labels := by
    rw [List.append_assoc]
    exact (run_conserves hinit hrun).symm
  refine ⟨hall, fun t => ?_, fun pre mid t hlabels hmid hpre => ?_⟩
  · rw [← hall, List.append_assoc, submittedBy, submittedBy, List.filter_append]
    exact List.prefix_append _ _
  · subst hlabels
    obtain ⟨t', ht', hrest⟩ := Machine.run_append_some.mp hrun
    rw [hpre, Option.some.injEq] at ht'
    subst ht'
    obtain ⟨v, hv, hrest⟩ := Machine.run_cons_some.mp hrest
    have hswapped : v.tempRuns = t.pendingFunctors := by
      obtain ⟨-, rfl⟩ := Machine.guard_some.mp hv
      rfl
    have hbatch := run_batch hmid hrest
    rw [hswapped] at hbatch
    refine ⟨hbatch.symm, fun hdraining hrunning => ?_⟩
    rw [hbatch, run_batchDone hinit hrun hdraining hrunning, List.append_nil]

theorem functors_once_in_order_twoRounds :
    ∃ s, Machine.run step (init true) twoRounds = some s ∧
      executed twoRounds ++ s.tempRuns ++ s.pendingFunctors = pushed true twoRounds := by
  have hrun : Machine.run step (init true) twoRounds = some _ := rfl
  exact ⟨_, hrun, (functors_once_in_order true twoRounds _ hrun).1⟩

end Muduo.EventLoop
