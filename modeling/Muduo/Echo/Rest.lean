import Muduo.Echo.Bytes

/-! # Left alone, the server answers everything

While nothing is read, no socket becomes writable and no wakeup is spurious, an echo server makes only so many steps.
Then all its threads sleep, and no answer is left behind.
-/

namespace Muduo

namespace Echo

open Machine (Pipeline)

variable {κ τ : Type*}

/-- A step for which nothing is needed from outside. -/
def Label.Goes : Label κ τ → Prop
  | .take _ | .resume _ | .send _ | .finish _ | .callFunctor _ _ => True
  | .loop l => l ≠ .poll false
  | _ => False

/-! ## Effort -/

/-- What is left of a call of `queueInLoop`, with the turns of the loop that its `wakeup` brings. -/
def callWeight : EventLoop.Call → Nat
  | .idle | .quitSet => 0
  | .pushed => 8
  | .waking => 7

/-- What is left of the turns until the loop sleeps. Each count of the eventfd may wake it once, and all that has come
until it reads the eventfd is read at once. -/
def loopWeight {φ : Type*} (s : EventLoop (Option τ) φ) : Nat :=
  match s.pc with
  | .outside => 2 + 6 * s.eventfd
  | .testing => 1 + 6 * s.eventfd
  | .polling => 6 * s.eventfd
  | .handling true => 5 + 6 * (s.eventfd - 1)
  | .handling false => 4 + 6 * s.eventfd
  | .swapping => 3 + 6 * s.eventfd
  | .draining => 2 + 6 * s.eventfd
  | .running => 3 + 6 * s.eventfd

/-- The calls of `onWriteComplateCB` that the loop holds. -/
def completions (s : EventLoop (Option τ) (κ × Functor)) : Nat :=
  s.held.countP fun task => task.cb.2 = .onWriteComplateCB

variable [DecidableEq τ]

/-- What a worker costs the loop. -/
def busy (s : Echo κ τ) (t : τ) : Nat :=
  (if (s.unsent t).isSome then 9 else 0) + callWeight (s.pLoop.calls (some t))

/-- A bound on the steps that the server can make by itself. -/
def effort (s : Echo κ τ) : Nat :=
  12 * s.pipeline.pending.card + 10 * s.threadpool.work + ∑ t ∈ s.threadpool.workers, s.busy t +
    callWeight (s.pLoop.calls none) + 2 * completions s.pLoop + loopWeight s.pLoop

variable [DecidableEq κ]

theorem own_lower {s u : EventLoop (Option τ) (κ × Functor)} {l : EventLoop.Label (Option τ) (κ × Functor)}
    (hown : Own l = true) (hl : l ≠ .poll false) (hquit : s.quit = false) (hstep : s.step l = some u) :
    (u.calls = s.calls ∧ loopWeight u < loopWeight s) ∨
    (∃ t, s.calls t ≠ .idle ∧ (∀ v, v ≠ t → u.calls v = s.calls v) ∧
      loopWeight u + callWeight (u.calls t) < loopWeight s + callWeight (s.calls t)) := by
  cases l with
  | queueInLoop | runInLoop | quit | quitTest | callFunctor => cases hown
  | queueTest t =>
    obtain ⟨hcall, rfl⟩ := Machine.guard_some.mp hstep
    refine Or.inr ⟨t, by simp [hcall], fun v hv => EventLoop.setCall_other s _ hv, ?_⟩
    have hsame : loopWeight (s.queueTest t) = loopWeight s := rfl
    rw [hsame, hcall, EventLoop.queueTest, EventLoop.setCall_self]
    split <;> simp [callWeight]
  | wakeup t =>
    obtain ⟨hcall, rfl⟩ := Machine.guard_some.mp hstep
    refine Or.inr ⟨t, by simp [hcall], fun v hv => EventLoop.setCall_other _ _ hv, ?_⟩
    have hidle : (s.wakeup t).calls t = .idle := EventLoop.setCall_self _ _ _
    rw [hidle, hcall]
    simp only [loopWeight, EventLoop.wakeup, EventLoop.setCall, callWeight]
    split <;> split <;> omega
  | loop =>
    obtain ⟨hat, rfl⟩ := Machine.guard_some.mp hstep
    simp [loopWeight, hat.1]
  | testQuit =>
    obtain ⟨hat, rfl⟩ := Machine.guard_some.mp hstep
    simp [loopWeight, hat.1, hquit]
  | poll eventfd =>
    obtain ⟨⟨hat, hfd⟩, rfl⟩ := Machine.guard_some.mp hstep
    cases eventfd with
    | false => exact absurd rfl hl
    | true =>
      have hpos := hfd rfl
      simp only [loopWeight, hat.1, true_and]
      omega
  | handleRead | doPendingFunctors | swap | returned =>
    obtain ⟨hat, rfl⟩ := Machine.guard_some.mp hstep
    simp only [loopWeight, hat.1, true_and]
    omega
  | endBatch =>
    obtain ⟨⟨hat, -⟩, rfl⟩ := Machine.guard_some.mp hstep
    simp [loopWeight, hat.1]

/-! ## Every step takes effort -/

omit [DecidableEq κ] in
theorem sum_busy {s u : Echo κ τ} {t : τ} (ht : t ∈ s.threadpool.workers)
    (hworkers : u.threadpool.workers = s.threadpool.workers) (hsame : ∀ v, v ≠ t → u.busy v = s.busy v) :
    ∑ v ∈ u.threadpool.workers, u.busy v + s.busy t = ∑ v ∈ s.threadpool.workers, s.busy v + u.busy t := by
  rw [hworkers]
  exact Machine.sum_changed ht hsame

omit [DecidableEq κ] in
theorem pipeline_turn {s : Echo κ τ} (h : s.Sound) {t : τ} {m : ThreadPool.Label τ (κ × List Byte)}
    (hm : m = .take t ∨ m = .resume t) {threadpool : ThreadPool τ (κ × List Byte)}
    (hturn : s.threadpool.step m = some threadpool) :
    (pipeline { s with threadpool }).pending = s.pipeline.pending ∧
      ∀ v, v ≠ t → unsent { s with threadpool } v = s.unsent v := by
  rcases turn_pipeline h hm hturn with hsame | htake
  · refine ⟨by rw [hsame], fun v _ => ?_⟩
    exact congrFun (congrArg Pipeline.held hsame) v
  · obtain ⟨ht, htake⟩ := Option.ite_none_right_eq_some.mp htake
    refine ⟨Pipeline.take_pending ht htake, fun v hv => ?_⟩
    obtain ⟨o, rest, -, -, hp⟩ := Pipeline.take_inv htake
    have hheld := congrFun (congrArg Pipeline.held hp) v
    exact hheld.trans (Function.update_of_ne hv _ _)

omit [DecidableEq κ] in
theorem turn_lower {s u : Echo κ τ} (h : s.Sound) {t : τ} {m : ThreadPool.Label τ (κ × List Byte)}
    (hm : m = .take t ∨ m = .resume t)
    (hstep : ((s.threadpool.step m).map fun threadpool => { s with threadpool }) = some u) : u.effort < s.effort := by
  obtain ⟨threadpool, hturn, rfl⟩ := Option.map_eq_some_iff.mp hstep
  obtain ⟨hworker, hidle, -, hpool⟩ := ThreadPool.turn_inv h.threadpool hm hturn
  have hworkers : threadpool.workers = s.threadpool.workers := by
    rw [hpool, ThreadPool.runInThread]
    split <;> rfl
  have hwork : threadpool.work < s.threadpool.work := by
    have hpays := ThreadPool.turn_pays h.threadpool hm hturn
    omega
  obtain ⟨hpending, hunsent⟩ := pipeline_turn h hm hturn
  have hsum := sum_busy (u := { s with threadpool }) hworker hworkers fun v hv => by
    simp only [busy, hunsent v hv]
  have hbefore : s.busy t = callWeight (s.pLoop.calls (some t)) := by simp [busy, unsent_idle hidle]
  have hafter : busy { s with threadpool } t ≤ 9 + callWeight (s.pLoop.calls (some t)) := by
    simp only [busy]
    split <;> omega
  simp only [effort, hpending] at hsum ⊢
  omega

omit [DecidableEq κ] in
theorem queueInLoop_completions (s : EventLoop (Option τ) (κ × Functor)) (t : Option τ) (cb : κ × Functor) :
    completions (s.queueInLoop t cb) = completions s + if cb.2 = .onWriteComplateCB then 1 else 0 := by
  simp [completions, EventLoop.held, EventLoop.queueInLoop, EventLoop.setCall, List.countP_cons, Nat.add_assoc]

theorem send_lower {s u : Echo κ τ} (h : s.Sound) {t : τ} (hstep : step s (.send t) = some u) :
    u.effort < s.effort := by
  have hpass := send_pipeline h hstep
  obtain ⟨c, msg, pLoop, hrunning, hout, hloop, hu⟩ := send_inv hstep
  have hworker : t ∈ s.threadpool.workers := h.threadpool.employed t (by simp [hrunning])
  have hpending := Pipeline.pass_pending hworker hpass
  obtain ⟨hmay, hrun⟩ := Machine.guard_some.mp hloop
  rw [EventLoop.runInLoop, EventLoop.isInLoopThread, h.loopThread] at hrun
  simp only [reduceCtorEq, decide_false, Bool.false_eq_true, if_false] at hrun
  subst hrun hu
  have hsum := sum_busy (u := { s with
    pLoop := s.pLoop.queueInLoop (some t) (c, .onMessageCB (echo msg)), sent := insert t s.sent }) hworker rfl
    fun v hv => by
      have hunsent : unsent { s with
          pLoop := s.pLoop.queueInLoop (some t) (c, .onMessageCB (echo msg)), sent := insert t s.sent } v =
          s.unsent v := by
        simp [unsent, hv]
      simp only [busy, hunsent]
      simp [EventLoop.queueInLoop, EventLoop.setCall, hv]
  have hbefore : s.busy t = 9 := by simp [busy, unsent, hout, hrunning, hmay.1, callWeight]
  have hafter : busy { s with
      pLoop := s.pLoop.queueInLoop (some t) (c, .onMessageCB (echo msg)), sent := insert t s.sent } t = 8 := by
    simp [busy, unsent, EventLoop.queueInLoop, EventLoop.setCall, callWeight]
  have hcompletions := queueInLoop_completions s.pLoop (some t) (c, .onMessageCB (echo msg))
  have hloop : loopWeight (s.pLoop.queueInLoop (some t) (c, .onMessageCB (echo msg))) = loopWeight s.pLoop := rfl
  have howner : (s.pLoop.queueInLoop (some t) (c, .onMessageCB (echo msg))).calls none = s.pLoop.calls none := by
    simp [EventLoop.queueInLoop, EventLoop.setCall]
  simp only [effort, hpending, hloop, hcompletions, howner] at hsum ⊢
  simp only [reduceCtorEq, if_false]
  omega

theorem finish_lower {s u : Echo κ τ} (h : s.Sound) {t : τ} (hstep : step s (.finish t) = some u) :
    u.effort < s.effort := by
  have hpipeline := finish_pipeline hstep
  obtain ⟨-, -, threadpool, hfinish, rfl⟩ := finish_inv hstep
  have hwork := ThreadPool.work_lower (l := .finish t) h.threadpool trivial hfinish
  have hsame : ∀ v, busy { s with threadpool, sent := s.sent.erase t } v = s.busy v := fun v => by
    have hheld := congrFun (congrArg Pipeline.held hpipeline) v
    simp only [pipeline] at hheld
    simp only [busy, hheld]
  have hworkers : threadpool.workers = s.threadpool.workers := congrArg Pipeline.workers hpipeline
  simp only [effort, hpipeline, hsame, hworkers]
  omega

theorem called_weight {s pLoop : EventLoop (Option τ) (κ × Functor)} (hdone : s.BatchDone)
    {task : EventLoop.Task (Option τ) (κ × Functor)} (hloop : s.step (.callFunctor task) = some pLoop) :
    pLoop.calls = s.calls ∧ loopWeight pLoop = loopWeight s + 1 ∧
      completions s = (if task.cb.2 = .onWriteComplateCB then 1 else 0) + completions pLoop := by
  have hheld := EventLoop.step_conserves hdone hloop
  obtain ⟨⟨hat, -⟩, rfl⟩ := Machine.guard_some.mp hloop
  refine ⟨rfl, ?_, ?_⟩
  · simp only [loopWeight, hat.1]
    omega
  · simp only [EventLoop.Label.pushed, EventLoop.Label.executed, Option.toList_none, Option.toList_some,
      List.append_nil] at hheld
    simp only [completions, EventLoop.held, hheld]
    simp [List.countP_cons, Nat.add_comm]

/-- A functor may bring one call of `queueInLoop` by the loop's thread, but it has been paid for. -/
theorem callFunctor_lower {s u : Echo κ τ} (h : s.Sound) {task : EventLoop.Task (Option τ) (κ × Functor)}
    {w : WriteResult} (hcall : s.callFunctor task w = some u) : u.effort < s.effort := by
  have hpipeline := callFunctor_pipeline h hcall
  obtain ⟨pLoop, hloop, hu⟩ := callFunctor_inv hcall
  obtain ⟨hcalls, hweight, hcompletions⟩ := called_weight h.batchDone hloop
  have hidle : s.pLoop.calls none = .idle := by
    obtain ⟨⟨hat, -⟩, -⟩ := Machine.guard_some.mp hloop
    exact h.loopThread ▸ hat.2
  rcases hu with ⟨message, hcb, hsend⟩ | ⟨hcb, rfl⟩
  · obtain ⟨-, -, hu⟩ := sendInLoop_inv hsend
    have hpool : u.threadpool = s.threadpool := by rw [hu]; rfl
    have hunsent : u.unsent = s.unsent := by rw [hu]; rfl
    -- What `sendInLoop` queues is one `onWriteComplateCB`, or nothing.
    have hqueued : (∀ v, u.pLoop.calls (some v) = s.pLoop.calls (some v)) ∧
        callWeight (u.pLoop.calls none) + 2 * completions u.pLoop + loopWeight u.pLoop ≤
          10 + 2 * completions pLoop + loopWeight pLoop := by
      rw [hu, after]
      dsimp only
      split
      · refine ⟨fun v => by simp [EventLoop.queueInLoop, EventLoop.setCall, hcalls], ?_⟩
        have hsame : loopWeight (pLoop.queueInLoop none (task.cb.1, .onWriteComplateCB)) = loopWeight pLoop := rfl
        rw [hsame, queueInLoop_completions]
        simp [EventLoop.queueInLoop, EventLoop.setCall, callWeight]
        omega
      · refine ⟨fun v => by rw [hcalls], ?_⟩
        simp [hcalls, hidle, callWeight]
    have hgiven : s.pipeline.pending.card = u.pipeline.pending.card + 1 := by
      rcases hpipeline with ⟨hnot, -⟩ | ⟨-, hgive⟩
      · simp [hcb] at hnot
      · exact Pipeline.give_pending hgive
    have hsum : ∑ v ∈ u.threadpool.workers, u.busy v = ∑ v ∈ s.threadpool.workers, s.busy v := by
      rw [hpool]
      exact Finset.sum_congr rfl fun v _ => by simp only [busy, hunsent, hqueued.1 v]
    simp only [effort, hpool, hgiven] at hsum ⊢
    omega
  · have hsame : pipeline { s with pLoop } = s.pipeline := by
      rcases hpipeline with ⟨-, hsame⟩ | ⟨hnot, -⟩
      · exact hsame
      · exact absurd hcb hnot
    have hsum : ∑ v ∈ s.threadpool.workers, busy { s with pLoop } v = ∑ v ∈ s.threadpool.workers, s.busy v :=
      Finset.sum_congr rfl fun v _ => by simp only [busy, hcalls]; rfl
    rw [if_pos hcb] at hcompletions
    simp only [effort, hsame, hcalls, hsum, hcompletions, hweight]
    omega

theorem loop_lower {s u : Echo κ τ} (h : s.Sound) {l : EventLoop.Label (Option τ) (κ × Functor)}
    (hl : l ≠ .poll false) (hstep : step s (.loop l) = some u) : u.effort < s.effort := by
  obtain ⟨hown, hmapped⟩ := Option.ite_none_right_eq_some.mp hstep
  obtain ⟨pLoop, hloop, rfl⟩ := Option.map_eq_some_iff.mp hmapped
  have hheld := own_held h.batchDone hown hloop
  have hpipeline : pipeline { s with pLoop } = s.pipeline := pipeline_congr rfl rfl rfl hheld rfl
  have hcompletions : completions pLoop = completions s.pLoop := by rw [completions, hheld, completions]
  simp only [effort, hpipeline, hcompletions]
  rcases own_lower hown hl h.unquit.1 hloop with ⟨hcalls, hlower⟩ | ⟨t, hcall, hothers, hlower⟩
  · have hsame : ∀ v, busy { s with pLoop } v = s.busy v := fun v => by simp only [busy, hcalls]; rfl
    simp only [hsame, hcalls]
    omega
  · cases t with
    | none =>
      have hsame : ∀ v, busy { s with pLoop } v = s.busy v := fun v => by
        simp only [busy, hothers (some v) (by simp)]
        rfl
      simp only [hsame]
      omega
    | some t =>
      have hworker : t ∈ s.threadpool.workers := h.threadpool.employed t (h.sent t (h.calling t hcall))
      have hsum := sum_busy (u := { s with pLoop }) hworker rfl fun v hv => by
        simp only [busy, hothers (some v) (by simpa using hv)]
        rfl
      have hbusy : busy { s with pLoop } t + callWeight (s.pLoop.calls (some t)) =
          s.busy t + callWeight (pLoop.calls (some t)) := by
        simp only [busy]
        rw [show unsent { s with pLoop } t = s.unsent t from rfl]
        omega
      rw [hothers none (by simp)]
      simp only at hsum
      omega

theorem step_lower {s u : Echo κ τ} {l : Label κ τ} (h : s.Sound) (hl : l.Goes) (hstep : step s l = some u) :
    u.effort < s.effort := by
  cases l with
  | startThread | handleRead | handleWrite | wake => exact hl.elim
  | take t => exact turn_lower h (Or.inl rfl) hstep
  | resume t => exact turn_lower h (Or.inr rfl) hstep
  | send t => exact send_lower h hstep
  | finish t => exact finish_lower h hstep
  | callFunctor task w => exact callFunctor_lower h hstep
  | loop l => exact loop_lower h hl hstep

/-! ## At rest -/

/-- The server has no step left but for what comes from outside. -/
def AtRest (s : Echo κ τ) : Prop := Machine.AtRest step Label.Goes s

omit [DecidableEq τ] [DecidableEq κ] in
theorem full_write (s : Link) {message : List Byte} (hraised : s.raised = false)
    (hlength : message.length < 0x80000000) :
    s.Possible (.sendInLoop message (.ok message.length)) ∧
      (s.next (.sendInLoop message (.ok message.length))).raised = false := by
  refine ⟨⟨by omega, Nat.le_refl _⟩, ?_⟩
  have hcall : (s.conn.sendInLoop message (.ok message.length)).raised = false := by
    by_cases hempty : s.conn.outBuf.content = []
    · rw [(Link.sendInLoop_direct hempty message _).2.1]
      rcases Link.bufferRest_content s.conn message (toInt message.length) with ⟨-, hlt, -⟩ | ⟨hno, -⟩ | ⟨hno, -⟩
      · omega
      · exact hno
      · exact hno
    · rw [Link.sendInLoop_behind hempty]
      rcases Link.bufferRest_content s.conn message 0 with ⟨-, -, hbig⟩ | ⟨hno, -⟩ | ⟨hno, -⟩
      · simp [toSize] at hbig
      · exact hno
      · exact hno
  simp [Link.next, Link.after, hraised, hcall]

theorem callFunctor_enabled {s : Echo κ τ} (hsound : s.Sound) (hstreams : s.Streams) (hanswers : s.Answers)
    {task : EventLoop.Task (Option τ) (κ × Functor)} (hat : s.pLoop.At .draining)
    (hhead : s.pLoop.tempRuns.head? = some task) : ∃ w u, step s (.callFunctor task w) = some u := by
  have hloop : s.pLoop.step (.callFunctor task) = some _ := if_pos ⟨hat, hhead⟩
  have hqueued := queued_called hsound.batchDone hloop
  cases hcb : task.cb.2 with
  | onWriteComplateCB => exact ⟨.error, _, by simp only [step, callFunctor, hloop, Option.bind_some, hcb]; rfl⟩
  | onMessageCB message =>
    rw [reply, hcb] at hqueued
    obtain ⟨m, hm, hanswer⟩ := List.mem_map.mp (hanswers (task.cb.1, message) (by simp [hqueued]))
    have hshort : message.length < 0x80000000 := by
      rw [show message = echo m.2 from congrArg Prod.snd hanswer.symm]
      exact (echo_short (hstreams.short m hm)).2
    have hwrite := full_write (s.links task.cb.1) (hstreams.raised _) hshort
    refine ⟨.ok message.length, Option.isSome_iff_exists.mp ?_⟩
    simp only [step, callFunctor, hloop, Option.bind_some, hcb, sendInLoop, call]
    rw [if_pos hwrite]
    rfl

theorem rest_idle {s : Echo κ τ} (h : s.Sound) (hrest : s.AtRest) :
    (∀ t, s.threadpool.running t = none) ∧ ∀ t, s.pLoop.calls t = .idle := by
  have hcalls : ∀ t, s.pLoop.calls t = .idle := by
    intro t
    have htest := hrest (.loop (.queueTest t)) (by simp [Label.Goes])
    have hwakeup := hrest (.loop (.wakeup t)) (by simp [Label.Goes])
    have hquit := h.unquit.2 t
    simp only [step, Own, if_true, EventLoop.step, Option.map_eq_none_iff, ite_eq_right_iff, reduceCtorEq,
      imp_false] at htest hwakeup
    cases hcall : s.pLoop.calls t <;> simp_all
  refine ⟨fun t => ?_, hcalls⟩
  by_contra hrunning
  obtain ⟨f, hf⟩ := Option.ne_none_iff_exists'.mp hrunning
  by_cases ht : t ∈ s.sent
  · have hfinish := hrest (.finish t) trivial
    simp [step, ht, hcalls, ThreadPool.step, hf] at hfinish
  · have hsend := hrest (.send t) trivial
    have hmay : s.pLoop.MayCall (some t) := ⟨hcalls (some t), fun hid => by simp [h.loopThread] at hid⟩
    simp [step, hf, ht, send, EventLoop.step, hmay] at hsend

theorem rest_polling {s : Echo κ τ} (hsound : s.Sound) (hstreams : s.Streams) (hanswers : s.Answers)
    (hrest : s.AtRest) : s.pLoop.pc = .polling ∧ s.pLoop.eventfd = 0 := by
  have hidle := (rest_idle hsound hrest).2 s.pLoop.threadId
  have hloop : ∀ m, Own m = true → m ≠ .poll false → s.pLoop.step m = none := by
    intro m hown hm
    have hnone := hrest (.loop m) hm
    simpa [step, hown] using hnone
  cases hpc : s.pLoop.pc with
  | outside => simpa [EventLoop.step, EventLoop.At, hpc, hidle] using hloop .loop rfl (by simp)
  | testing => simpa [EventLoop.step, EventLoop.At, hpc, hidle] using hloop .testQuit rfl (by simp)
  | polling =>
    have hpoll := hloop (.poll true) rfl (by simp)
    simpa [EventLoop.step, EventLoop.At, hpc, hidle] using hpoll
  | handling eventfd =>
    cases eventfd with
    | true => simpa [EventLoop.step, EventLoop.At, hpc, hidle] using hloop .handleRead rfl (by simp)
    | false => simpa [EventLoop.step, EventLoop.At, hpc, hidle] using hloop .doPendingFunctors rfl (by simp)
  | swapping => simpa [EventLoop.step, EventLoop.At, hpc, hidle] using hloop .swap rfl (by simp)
  | draining =>
    cases hruns : s.pLoop.tempRuns with
    | nil => simpa [EventLoop.step, EventLoop.At, hpc, hidle, hruns] using hloop .endBatch rfl (by simp)
    | cons task rest =>
      obtain ⟨w, u, hcall⟩ := callFunctor_enabled hsound hstreams hanswers ⟨hpc, hidle⟩ (by rw [hruns]; rfl)
      have hnone := hrest (.callFunctor task w) trivial
      simp [hcall] at hnone
  | running => simpa [EventLoop.step, EventLoop.At, hpc, hidle] using hloop .returned rfl (by simp)

omit [DecidableEq κ] in
theorem rest_threadpool {s : Echo κ τ} (hidle : ∀ t, s.threadpool.running t = none)
    (htake : ∀ t, s.threadpool.step (.take t) = none) (hresume : ∀ t, s.threadpool.step (.resume t) = none) :
    Machine.AtRest ThreadPool.step ThreadPool.Label.Works s.threadpool := by
  intro m hm
  cases m with
  | start | addTask | wake => exact hm.elim
  | take t => exact htake t
  | resume t => exact hresume t
  | finish t => simp [ThreadPool.step, hidle]

theorem rest_owes {s : Echo κ τ} (hsound : s.Sound) (hstreams : s.Streams) (hanswers : s.Answers)
    (hworkers : s.threadpool.threads = 0 ∨ s.threadpool.workers.Nonempty) (hrest : s.AtRest) :
    s.pipeline.pending = 0 := by
  obtain ⟨hidle, hcalls⟩ := rest_idle hsound hrest
  obtain ⟨hpolling, hfd⟩ := rest_polling hsound hstreams hanswers hrest
  have hqueue : s.threadpool.tasks.queue = [] := by
    rcases hworkers with hnone | hsome
    · exact (hsound.threadpool.unused hnone).2
    · refine (ThreadPool.asleep_of_rest hsound.threadpool hsome (rest_threadpool hidle ?_ ?_)).1
      · intro t
        simpa [step] using hrest (.take t) trivial
      · intro t
        simpa [step] using hrest (.resume t) trivial
  have hheld : s.pLoop.held = [] := by
    have hruns : s.pLoop.tempRuns = [] := hsound.batchDone (by simp [hpolling]) (by simp [hpolling])
    rw [EventLoop.held, hruns, List.nil_append]
    by_contra hpending
    -- The loop would be woken, but nobody is in a call, and the eventfd is empty.
    rcases hsound.awake.covered ⟨hpolling, hcalls _⟩ (by simp) hpending with hcovered | ⟨t, -, hcall⟩
    · omega
    · exact hcall (hcalls t)
  have hwaiting : s.waiting = [] := by simp [waiting, hqueue]
  have hqueued : s.queued = [] := by simp [queued, hheld]
  simp [Pipeline.pending, pipeline, hwaiting, hqueued, unsent_idle (hidle _)]

theorem goes_keeps {s u : Echo κ τ} {l : Label κ τ} (hl : l.Goes) (hstep : step s l = some u) :
    u.messages = s.messages ∧ u.threadpool.threads = s.threadpool.threads ∧
      u.threadpool.workers = s.threadpool.workers := by
  have hturn : ∀ t tasks, (s.threadpool.runInThread t tasks).threads = s.threadpool.threads ∧
      (s.threadpool.runInThread t tasks).workers = s.threadpool.workers := by
    intro t tasks
    unfold ThreadPool.runInThread
    split <;> exact ⟨rfl, rfl⟩
  cases l with
  | startThread | handleRead | handleWrite | wake => exact hl.elim
  | take t =>
    obtain ⟨threadpool, htake, rfl⟩ := Option.map_eq_some_iff.mp hstep
    obtain ⟨tasks, -, rfl⟩ := Option.map_eq_some_iff.mp (Option.ite_none_right_eq_some.mp htake).2
    exact ⟨rfl, hturn t tasks⟩
  | resume t =>
    obtain ⟨threadpool, hresume, rfl⟩ := Option.map_eq_some_iff.mp hstep
    obtain ⟨tasks, -, rfl⟩ := Option.map_eq_some_iff.mp hresume
    exact ⟨rfl, hturn t tasks⟩
  | send t =>
    obtain ⟨c, msg, pLoop, -, -, -, rfl⟩ := send_inv hstep
    exact ⟨rfl, rfl, rfl⟩
  | finish t =>
    obtain ⟨-, -, threadpool, hfinish, rfl⟩ := finish_inv hstep
    obtain ⟨f, -, rfl⟩ := ThreadPool.finish_inv hfinish
    exact ⟨rfl, rfl, rfl⟩
  | callFunctor task w =>
    obtain ⟨pLoop, -, ⟨message, -, hsend⟩ | ⟨-, rfl⟩⟩ := callFunctor_inv hstep
    · obtain ⟨-, -, rfl⟩ := sendInLoop_inv hsend
      exact ⟨rfl, rfl, rfl⟩
    · exact ⟨rfl, rfl, rfl⟩
  | loop l =>
    obtain ⟨pLoop, -, rfl⟩ := Option.map_eq_some_iff.mp (Option.ite_none_right_eq_some.mp hstep).2
    exact ⟨rfl, rfl, rfl⟩

end Echo

end Muduo
