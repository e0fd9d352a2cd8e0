import Muduo.EventLoop.Order
import Mathlib.Data.List.ReduceOption

/-! # Empty functors

The calls of `runInLoop` and the batch of `doPendingFunctors`, where a `funcCB` may be empty. To call
an empty one throws `std::bad_function_call`. `runInLoop` tests for it, the batch does not.
-/

namespace Muduo.EventLoop

variable {τ φ ψ : Type*}

/-- A `std::function<void()>`; `none` is the empty one. -/
abbrev FuncCB (ψ : Type*) := Option ψ

/-- The loop after some calls, the functors that were executed by them, and whether the last one threw. -/
structure Outcome (τ ψ : Type*) where
  loop : EventLoop τ (FuncCB ψ)
  executed : List ψ
  threw : Bool

/-- Calls made one after the other, up to one that throws. -/
def inTurn (f : EventLoop τ (FuncCB ψ) → FuncCB ψ → Outcome τ ψ) (s : EventLoop τ (FuncCB ψ)) :
    List (FuncCB ψ) → Outcome τ ψ
  | [] => ⟨s, [], false⟩
  | cb :: cbs =>
    let o := f s cb
    if o.threw then o
    else
      let rest := inTurn f o.loop cbs
      { rest with executed := o.executed ++ rest.executed }

section

variable [DecidableEq τ]

/-- The whole of `queueInLoop`, called in `t`. -/
def queueCall (s : EventLoop τ φ) (t : τ) (cb : φ) : EventLoop τ φ :=
  let s := (s.queueInLoop t cb).queueTest t
  if s.calls t = .waking then s.wakeup t else s

def queueCalls (s : EventLoop τ φ) (t : τ) (cbs : List φ) : EventLoop τ φ :=
  cbs.foldl (fun s cb => s.queueCall t cb) s

-- What each functor passes to `queueInLoop` when it is called.
variable (queued : ψ → List (FuncCB ψ))

/-- `cb()`, in the loop's thread. -/
def callCB (s : EventLoop τ (FuncCB ψ)) : FuncCB ψ → Outcome τ ψ
  | none => ⟨s, [], true⟩
  | some f => ⟨s.queueCalls s.threadId (queued f), [f], false⟩

/-- The whole of `runInLoop`, called in `t`. -/
def runInLoopCall (t : τ) (s : EventLoop τ (FuncCB ψ)) (cb : FuncCB ψ) : Outcome τ ψ :=
  if s.isInLoopThread t then
    if cb.isSome then callCB queued s cb else ⟨s, [], false⟩
  else ⟨s.queueCall t cb, [], false⟩

/-- Where a call throws, the rest of `tempRuns` is destroyed and the flag stays set. -/
def doPendingFunctors (s : EventLoop τ (FuncCB ψ)) : Outcome τ ψ :=
  let tempRuns := s.pendingFunctors
  let o := inTurn (callCB queued) { s with callingPendingFunctors := true, pendingFunctors := [] }
    (tempRuns.map Task.cb)
  if o.threw then o else { o with loop := { o.loop with callingPendingFunctors := false } }

/-- Submitting `cbs` from another thread and draining the queue, with what is in it already, executes each functor
that is not empty once, in order, throws nothing, clears the flag, and leaves what submitting them all in the
loop's own thread leaves. -/
def SameEffect (s : EventLoop τ (FuncCB ψ)) (t : τ) (cbs : List (FuncCB ψ)) : Prop :=
  let all := s.pendingFunctors.map Task.cb ++ cbs
  let submitted := inTurn (runInLoopCall queued t) s cbs
  let drained := doPendingFunctors queued submitted.loop
  let direct := inTurn (runInLoopCall queued s.threadId) { s with pendingFunctors := [] } all
  submitted.threw = false ∧ submitted.executed = [] ∧ drained.threw = false ∧ direct.threw = false ∧
    drained.executed = all.reduceOption ∧ direct.executed = all.reduceOption ∧
    drained.loop.pendingFunctors = direct.loop.pendingFunctors ∧
    drained.loop.callingPendingFunctors = false ∧
    direct.loop.callingPendingFunctors = s.callingPendingFunctors

end

/-! ## One call -/

/-- `u` is `s` with these functors pushed. The rest of what a call of `queueInLoop` changes is left open. -/
structure Pushes (s u : EventLoop τ φ) (tasks : List (Task τ φ)) : Prop where
  pending : u.pendingFunctors = s.pendingFunctors ++ tasks
  flag : u.callingPendingFunctors = s.callingPendingFunctors
  owner : u.threadId = s.threadId

theorem Pushes.refl (s : EventLoop τ φ) : Pushes s s [] := ⟨(List.append_nil _).symm, rfl, rfl⟩

theorem Pushes.trans {s u v : EventLoop τ φ} {tasks tasks' : List (Task τ φ)} (h : Pushes s u tasks)
    (k : Pushes u v tasks') : Pushes s v (tasks ++ tasks') where
  pending := by rw [k.pending, h.pending, List.append_assoc]
  flag := k.flag.trans h.flag
  owner := k.owner.trans h.owner

variable [DecidableEq τ]

theorem queueCall_pushes (s : EventLoop τ φ) (t : τ) (cb : φ) : Pushes s (s.queueCall t cb) [⟨t, cb⟩] := by
  unfold queueCall
  dsimp only
  split <;> exact ⟨rfl, rfl, rfl⟩

theorem queueCalls_pushes (s : EventLoop τ φ) (t : τ) (cbs : List φ) :
    Pushes s (s.queueCalls t cbs) (cbs.map (Task.mk t)) := by
  induction cbs generalizing s with
  | nil => exact Pushes.refl s
  | cons cb cbs ih => exact (queueCall_pushes s t cb).trans (ih (s.queueCall t cb))

variable (queued : ψ → List (FuncCB ψ))

/-- What these functors queue when they are called, in the loop's thread `t`. -/
def queuedBy (t : τ) (fs : List ψ) : List (Task τ (FuncCB ψ)) := fs.flatMap fun f => (queued f).map (Task.mk t)

/-! ## Calls one after the other -/

theorem submit_other {s : EventLoop τ (FuncCB ψ)} {t : τ} (ht : s.threadId ≠ t) (cbs : List (FuncCB ψ)) :
    ∃ u, inTurn (runInLoopCall queued t) s cbs = ⟨u, [], false⟩ ∧ Pushes s u (cbs.map (Task.mk t)) := by
  induction cbs generalizing s with
  | nil => exact ⟨s, rfl, Pushes.refl s⟩
  | cons cb cbs ih =>
    have hpush := queueCall_pushes s t cb
    obtain ⟨u, hu, hrest⟩ := ih (s := s.queueCall t cb) (by rw [hpush.owner]; exact ht)
    refine ⟨u, ?_, hpush.trans hrest⟩
    have hcall : runInLoopCall queued t s cb = ⟨s.queueCall t cb, [], false⟩ := by
      simp [runInLoopCall, isInLoopThread, ht]
    rw [inTurn, hcall]
    simp [hu]

theorem submit_own (s : EventLoop τ (FuncCB ψ)) (cbs : List (FuncCB ψ)) :
    ∃ u, inTurn (runInLoopCall queued s.threadId) s cbs = ⟨u, cbs.reduceOption, false⟩ ∧
      Pushes s u (queuedBy queued s.threadId cbs.reduceOption) := by
  induction cbs generalizing s with
  | nil => exact ⟨s, rfl, Pushes.refl s⟩
  | cons cb cbs ih =>
    cases cb with
    | none =>
      obtain ⟨u, hu, hpush⟩ := ih s
      refine ⟨u, ?_, by simpa using hpush⟩
      have hcall : runInLoopCall queued s.threadId s none = ⟨s, [], false⟩ := by
        simp [runInLoopCall, isInLoopThread]
      rw [inTurn, hcall]
      simp [hu]
    | some f =>
      have hpush := queueCalls_pushes s s.threadId (queued f)
      obtain ⟨u, hu, hrest⟩ := ih (s.queueCalls s.threadId (queued f))
      rw [hpush.owner] at hu hrest
      refine ⟨u, ?_, ?_⟩
      · have hcall : runInLoopCall queued s.threadId s (some f) =
            ⟨s.queueCalls s.threadId (queued f), [f], false⟩ := by
          simp [runInLoopCall, isInLoopThread, callCB]
        rw [inTurn, hcall]
        simp [hu]
      · rw [List.reduceOption_cons_of_some, queuedBy, List.flatMap_cons]
        exact hpush.trans hrest

theorem batch_full (s : EventLoop τ (FuncCB ψ)) {cbs : List (FuncCB ψ)} (hcbs : none ∉ cbs) :
    ∃ u, inTurn (callCB queued) s cbs = ⟨u, cbs.reduceOption, false⟩ ∧
      Pushes s u (queuedBy queued s.threadId cbs.reduceOption) := by
  induction cbs generalizing s with
  | nil => exact ⟨s, rfl, Pushes.refl s⟩
  | cons cb cbs ih =>
    obtain ⟨hcb, hrest⟩ := not_or.mp (mt List.mem_cons.mpr hcbs)
    cases cb with
    | none => exact absurd rfl hcb
    | some f =>
      have hpush := queueCalls_pushes s s.threadId (queued f)
      obtain ⟨u, hu, hpushes⟩ := ih (s.queueCalls s.threadId (queued f)) hrest
      rw [hpush.owner] at hpushes
      refine ⟨u, ?_, ?_⟩
      · rw [inTurn, callCB]
        simp [hu]
      · rw [List.reduceOption_cons_of_some, queuedBy, List.flatMap_cons]
        exact hpush.trans hpushes

theorem batch_throws (s : EventLoop τ (FuncCB ψ)) {cbs : List (FuncCB ψ)} (hcbs : none ∈ cbs) :
    (inTurn (callCB queued) s cbs).threw = true := by
  induction cbs generalizing s with
  | nil => exact absurd hcbs List.not_mem_nil
  | cons cb cbs ih =>
    cases cb with
    | none => rfl
    | some f =>
      have hrest : none ∈ cbs := by simpa using hcbs
      rw [inTurn, callCB]
      simpa using ih _ hrest

/-! ## The two ways -/

/-- Where a functor runs makes no difference exactly where none of the functors is empty. -/
theorem runInLoop_same_effect (s : EventLoop τ (FuncCB ψ)) (t : τ) (cbs : List (FuncCB ψ)) (hthread : s.threadId ≠ t) :
    SameEffect queued s t cbs ↔ none ∉ s.pendingFunctors.map Task.cb ++ cbs := by
  obtain ⟨u, hu, hpush⟩ := submit_other queued hthread cbs
  have htasks : u.pendingFunctors.map Task.cb = s.pendingFunctors.map Task.cb ++ cbs := by
    rw [hpush.pending, List.map_append, List.map_map]
    exact congrArg _ (List.map_id cbs)
  obtain ⟨v, hv, hown⟩ := submit_own queued { s with pendingFunctors := [] } (s.pendingFunctors.map Task.cb ++ cbs)
  simp only [SameEffect, doPendingFunctors, hu, hv, htasks]
  constructor
  · rintro ⟨-, -, hthrew, -⟩ hnone
    have hthrows := batch_throws queued { u with callingPendingFunctors := true, pendingFunctors := [] } hnone
    rw [if_pos hthrows, hthrows] at hthrew
    cases hthrew
  · intro hnone
    obtain ⟨w, hw, hbatch⟩ := batch_full queued { u with callingPendingFunctors := true, pendingFunctors := [] } hnone
    have hpending : w.pendingFunctors = v.pendingFunctors := by
      rw [hbatch.pending, hown.pending]
      exact congrArg (fun t => queuedBy queued t _) hpush.owner
    simp [hw, hpending, hown.flag]

/-- The first of the two functors queues a third. -/
theorem runInLoop_same_effect_two :
    SameEffect (fun f => if f = 1 then [some 3] else []) (init true) false [some 1, some 2] :=
  (runInLoop_same_effect (fun f => if f = 1 then [some 3] else []) (init true) false [some 1, some 2] (by decide)).mpr
    (by decide)

/-- One empty functor between two others: the batch throws, the last functor is lost and the flag stays set. In
the loop's own thread both are executed. -/
theorem empty_functor_drops :
    let submitted := inTurn (runInLoopCall (fun _ : Nat => []) false) (init true) [some 1, none, some 2]
    let drained := doPendingFunctors (fun _ => []) submitted.loop
    let direct := inTurn (runInLoopCall (fun _ : Nat => []) true) (init true) [some 1, none, some 2]
    drained.threw = true ∧ drained.executed = [1] ∧ drained.loop.pendingFunctors = [] ∧
      drained.loop.callingPendingFunctors = true ∧ direct.executed = [1, 2] ∧
      ¬ SameEffect (fun _ : Nat => []) (init true) false [some 1, none, some 2] := by
  refine ⟨rfl, rfl, rfl, rfl, rfl, ?_⟩
  rintro ⟨-, -, hthrew, -⟩
  cases hthrew

/-! ## The batch as steps -/

/-- The loop in the batch, with these functors to come. -/
def inBatch (s : EventLoop τ φ) (tempRuns : List (Task τ φ)) (pc : Pc) : EventLoop τ φ := { s with tempRuns, pc }

/-- The steps of `t`, the loop's thread, that call one functor of the batch. -/
def callSteps (t : τ) (task : Task τ (FuncCB ψ)) : List (Label τ (FuncCB ψ)) :=
  .callFunctor task :: ((task.cb.elim [] queued).flatMap fun cb => [.queueInLoop t cb, .queueTest t, .wakeup t]) ++
    [.returned]

theorem queueCall_calling {s : EventLoop τ φ} {t : τ} (ht : t = s.threadId) (hflag : s.callingPendingFunctors = true)
    (cb : φ) : s.queueCall t cb = ((s.queueInLoop t cb).queueTest t).wakeup t := by
  subst ht
  have hwaking : ((s.queueInLoop s.threadId cb).queueTest s.threadId).calls s.threadId = .waking := by
    simp [queueTest, queueInLoop, setCall, hflag]
  unfold queueCall
  dsimp only
  rw [if_pos hwaking]

variable [DecidableEq φ] [DecidableEq ψ]

theorem queueCalls_steps {s : EventLoop τ φ} {t : τ} (ht : t = s.threadId)
    (hflag : s.callingPendingFunctors = true) (hidle : s.calls t = .idle) (tempRuns : List (Task τ φ)) (cbs : List φ) :
    Machine.run step (s.inBatch tempRuns .running)
      (cbs.flatMap fun cb => [.queueInLoop t cb, .queueTest t, .wakeup t]) =
      some ((s.queueCalls t cbs).inBatch tempRuns .running) ∧ (s.queueCalls t cbs).calls t = .idle := by
  induction cbs generalizing s with
  | nil => exact ⟨rfl, hidle⟩
  | cons cb cbs ih =>
    have hpush := queueCall_pushes s t cb
    have hcall := queueCall_calling ht hflag cb
    have hidle' : (s.queueCall t cb).calls t = .idle := by
      rw [hcall]
      simp [wakeup, setCall]
    obtain ⟨hrun, hend⟩ := ih (ht.trans hpush.owner.symm) (hpush.flag.trans hflag) hidle'
    refine ⟨?_, hend⟩
    rw [List.flatMap_cons, Machine.run_append]
    have hmay : (s.inBatch tempRuns .running).MayCall t := ⟨hidle, fun _ => Or.inr (Or.inr rfl)⟩
    have hfirst : Machine.run step (s.inBatch tempRuns .running) [.queueInLoop t cb, .queueTest t, .wakeup t] =
        some ((s.queueCall t cb).inBatch tempRuns .running) := by
      refine Machine.run_cons_some.mpr ⟨_, if_pos hmay, ?_⟩
      refine Machine.run_cons_some.mpr ⟨_, if_pos (by simp [queueInLoop, setCall]), ?_⟩
      refine Machine.run_cons_some.mpr ⟨_, if_pos ?_, ?_⟩
      · subst ht
        simp [queueTest, queueInLoop, setCall, inBatch, hflag]
      · rw [hcall]
        rfl
    rw [hfirst]
    exact hrun

theorem batch_steps {s : EventLoop τ (FuncCB ψ)} {t : τ} (ht : t = s.threadId)
    (hflag : s.callingPendingFunctors = true) (hidle : s.calls t = .idle) {tasks : List (Task τ (FuncCB ψ))}
    (htasks : none ∉ tasks.map Task.cb) :
    let o := inTurn (callCB queued) s (tasks.map Task.cb)
    Machine.run step (s.inBatch tasks .draining) (tasks.flatMap (callSteps queued t)) =
      some (o.loop.inBatch [] .draining) ∧ o.loop.calls t = .idle ∧ o.loop.threadId = s.threadId := by
  intro o
  induction tasks generalizing s with
  | nil => exact ⟨rfl, hidle, rfl⟩
  | cons task tasks ih =>
    obtain ⟨submitter, cb⟩ := task
    obtain ⟨hcb, hrest⟩ := not_or.mp (mt List.mem_cons.mpr htasks)
    cases cb with
    | none => exact absurd rfl hcb
    | some f =>
      have hpush := queueCalls_pushes s t (queued f)
      obtain ⟨hqueue, hidle'⟩ := queueCalls_steps ht hflag hidle tasks (queued f)
      obtain ⟨hrun, hend, hid⟩ := ih (ht.trans hpush.owner.symm) (hpush.flag.trans hflag) hidle' hrest
      have ho : o.loop = (inTurn (callCB queued) (s.queueCalls t (queued f)) (tasks.map Task.cb)).loop := by
        simp only [o, List.map_cons, inTurn, callCB, ← ht]
        rfl
      rw [ho]
      refine ⟨?_, hend, hid.trans hpush.owner⟩
      rw [List.flatMap_cons, Machine.run_append, callSteps, Machine.run_append, Machine.run_cons]
      have hhead : step (s.inBatch (⟨submitter, some f⟩ :: tasks) .draining) (.callFunctor ⟨submitter, some f⟩) =
          some (s.inBatch tasks .running) := if_pos ⟨⟨rfl, ht ▸ hidle⟩, rfl⟩
      have hreturned : step ((s.queueCalls t (queued f)).inBatch tasks .running) .returned =
          some ((s.queueCalls t (queued f)).inBatch tasks .draining) :=
        if_pos ⟨rfl, by rw [show (inBatch _ tasks .running).threadId = t from hpush.owner.trans ht.symm]; exact hidle'⟩
      simp only [hhead, Option.bind_some, Option.elim_some, hqueue, Machine.run_cons, hreturned, Machine.run_nil]
      exact hrun

/-- Without empty functors, `doPendingFunctors` is what the steps of the loop's thread do. -/
theorem doPendingFunctors_steps {s : EventLoop τ (FuncCB ψ)} (hat : s.At (.handling false))
    (hnone : none ∉ s.pendingFunctors.map Task.cb) :
    Machine.run step s
      (.doPendingFunctors :: .swap :: s.pendingFunctors.flatMap (callSteps queued s.threadId) ++ [.endBatch]) =
      some ((doPendingFunctors queued s).loop.inBatch [] .testing) := by
  obtain ⟨u, hu, -⟩ := batch_full queued { s with callingPendingFunctors := true, pendingFunctors := [] } hnone
  obtain ⟨hbatch, hidle, hid⟩ := batch_steps queued
    (s := { s with callingPendingFunctors := true, pendingFunctors := [] }) rfl rfl hat.2 hnone
  rw [hu] at hbatch hidle hid
  have hstart : step s .doPendingFunctors = some { s with callingPendingFunctors := true, pc := .swapping } :=
    if_pos hat
  have hswap : step { s with callingPendingFunctors := true, pc := .swapping } .swap =
      some (inBatch { s with callingPendingFunctors := true, pendingFunctors := [] } s.pendingFunctors .draining) :=
    if_pos ⟨rfl, hat.2⟩
  have hend : step (u.inBatch [] .draining) .endBatch =
      some (inBatch { u with callingPendingFunctors := false } [] .testing) :=
    if_pos ⟨⟨rfl, by rw [show (inBatch u [] .draining).threadId = s.threadId from hid]; exact hidle⟩, rfl⟩
  rw [Machine.run_append, Machine.run_cons, hstart, Option.bind_some, Machine.run_cons, hswap, Option.bind_some, hbatch,
    Option.bind_some, Machine.run_cons, hend]
  simp [doPendingFunctors, hu]

end Muduo.EventLoop
