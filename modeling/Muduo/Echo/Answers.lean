import Muduo.Echo.Parts
import Muduo.EventLoop.Progress
import Muduo.Pipeline

/-! # Every message is answered once

An echo server is a pipeline: messages wait in the pool, a worker takes one, and its answer waits in the queue of the
loop until `sendInLoop` is called with it. Without threads `onMessage` answers at once.
-/

namespace Muduo.Echo

open Machine (Pipeline)

variable {κ τ : Type*}

/-! ## The stages -/

/-- What a message asks for. -/
def answer (m : κ × List Byte) : κ × List Byte := (m.1, echo m.2)

/-- What a functor sends. -/
def reply (task : EventLoop.Task (Option τ) (κ × Functor)) : Option (κ × List Byte) :=
  match task.cb.2 with
  | .onMessageCB message => some (task.cb.1, message)
  | .onWriteComplateCB => none

def waiting (s : Echo κ τ) : List (κ × List Byte) := s.threadpool.tasks.queue.reduceOption.map answer

def queued (s : Echo κ τ) : List (κ × List Byte) := s.pLoop.held.filterMap reply

variable [DecidableEq τ]

/-- What a worker is about to send. -/
def unsent (s : Echo κ τ) (t : τ) : Option (κ × List Byte) :=
  if t ∈ s.sent then none else (s.threadpool.running t).map answer

/-- The server as a pipeline. -/
def pipeline (s : Echo κ τ) : Pipeline τ (κ × List Byte) :=
  { asked := s.messages.map answer
    waiting := s.waiting
    workers := s.threadpool.workers
    held := s.unsent
    queued := s.queued
    given := s.replies }

theorem pipeline_congr {s u : Echo κ τ} (hmessages : u.messages = s.messages)
    (hthreadpool : u.threadpool = s.threadpool) (hsent : u.sent = s.sent) (hheld : u.pLoop.held = s.pLoop.held)
    (hreplies : u.replies = s.replies) : u.pipeline = s.pipeline := by
  unfold pipeline waiting unsent queued
  rw [hmessages, hthreadpool, hsent, hheld, hreplies]

theorem unsent_idle {s : Echo κ τ} {t : τ} (h : s.threadpool.running t = none) : s.unsent t = none := by
  simp [unsent, h]

/-! ## The queue of the loop -/

theorem queued_called {s : Echo κ τ} [DecidableEq κ] (hdone : s.pLoop.BatchDone)
    {task : EventLoop.Task (Option τ) (κ × Functor)} {pLoop : EventLoop (Option τ) (κ × Functor)}
    (hloop : s.pLoop.step (.callFunctor task) = some pLoop) :
    s.queued = (reply task).toList ++ queued { s with pLoop } := by
  have hheld := EventLoop.step_conserves hdone hloop
  simp only [EventLoop.Label.pushed, EventLoop.Label.executed, Option.toList_none, Option.toList_some,
    List.append_nil] at hheld
  unfold queued EventLoop.held
  rw [hheld, List.filterMap_append]
  cases h : reply task <;> simp [h]

theorem own_held {s u : EventLoop (Option τ) (κ × Functor)} [DecidableEq κ]
    {l : EventLoop.Label (Option τ) (κ × Functor)} (hdone : s.BatchDone) (hown : Own l = true)
    (hloop : s.step l = some u) : u.held = s.held := by
  have hheld := EventLoop.step_conserves hdone hloop
  have hnone : l.pushed s.threadId = none ∧ l.executed = none := by
    cases l <;> simp [Own, EventLoop.Label.pushed, EventLoop.Label.executed] at hown ⊢
  rw [hnone.1, hnone.2, Option.toList_none, List.append_nil, List.nil_append] at hheld
  exact hheld.symm

theorem queued_sent {s : Echo κ τ} [DecidableEq κ] (hid : s.pLoop.threadId = none) (hdone : s.pLoop.BatchDone)
    {t : τ} {c : κ} {message : List Byte} {pLoop : EventLoop (Option τ) (κ × Functor)}
    (hloop : s.pLoop.step (.runInLoop (some t) (c, .onMessageCB message)) = some pLoop) :
    pLoop.held.filterMap reply = s.queued ++ [(c, message)] := by
  have hheld := EventLoop.step_conserves hdone hloop
  simp only [EventLoop.Label.pushed, EventLoop.Label.executed, hid, reduceCtorEq, if_false, Option.toList_none,
    Option.toList_some, List.nil_append] at hheld
  simp [queued, EventLoop.held, ← hheld, reply]

/-! ## What a step does to the pipeline -/

variable [DecidableEq κ]

theorem after_queued (s : Echo κ τ) (c : κ) (e : Link.Event) : (s.after c e).queued = s.queued := by
  unfold queued after
  dsimp only
  split <;> simp [EventLoop.held, EventLoop.queueInLoop, EventLoop.setCall, reply]

theorem after_pipeline (s : Echo κ τ) (c : κ) (e : Link.Event) : (s.after c e).pipeline = s.pipeline := by
  unfold pipeline
  rw [after_queued]
  rfl

omit [DecidableEq κ] in
theorem startThread_pipeline {s : Echo κ τ} {t : τ} {created : Bool} {threadpool : ThreadPool τ (κ × List Byte)}
    (hstart : s.threadpool.step (.start t created) = some threadpool) :
    Machine.Reaches Pipeline.step (fun _ _ => True) s.pipeline (pipeline { s with threadpool }) := by
  obtain ⟨-, rfl⟩ := Machine.guard_some.mp hstart
  cases created with
  | false => exact Machine.reaches_refl _
  | true => exact Machine.reaches_step (l := .hire t) rfl trivial

omit [DecidableEq κ] in
theorem turn_pipeline {s : Echo κ τ} (h : s.Sound) {t : τ} {m : ThreadPool.Label τ (κ × List Byte)}
    (hm : m = .take t ∨ m = .resume t) {threadpool : ThreadPool τ (κ × List Byte)}
    (hturn : s.threadpool.step m = some threadpool) :
    pipeline { s with threadpool } = s.pipeline ∨
      s.pipeline.step (.take t) = some (pipeline { s with threadpool }) := by
  obtain ⟨hworker, hidle, -, rfl⟩ := ThreadPool.turn_inv h.threadpool hm hturn
  have hout : t ∉ s.sent := fun ht => h.sent t ht hidle
  rcases ThreadPool.runInThread_cases s.threadpool t with ⟨hqueue, hrun⟩ | ⟨rest, hqueue, hrun⟩ |
    ⟨f, rest, hqueue, hrun⟩
  all_goals rw [hrun]
  · exact Or.inl rfl
  · left
    rw [show s.pipeline = _ from by rw [pipeline, waiting, hqueue, List.reduceOption_cons_of_none]]
    rfl
  · right
    have hheld : s.pipeline.held t = none := unsent_idle hidle
    have hwaiting : s.pipeline.waiting = answer f :: rest.reduceOption.map answer := by
      simp [pipeline, waiting, hqueue]
    have htake : s.pipeline.take t = some { s.pipeline with
        waiting := rest.reduceOption.map answer
        held := Function.update s.pipeline.held t (some (answer f)) } := by
      rw [Pipeline.take, hheld, hwaiting]
    refine (if_pos hworker).trans (htake.trans (congrArg some (Pipeline.ext rfl rfl rfl ?_ rfl rfl)))
    funext v
    by_cases hv : v = t
    · subst hv
      simp [pipeline, unsent, hout]
    · simp [pipeline, unsent, hv]

theorem send_pipeline {s u : Echo κ τ} (h : s.Sound) {t : τ} (hstep : step s (.send t) = some u) :
    s.pipeline.step (.pass t) = some u.pipeline := by
  obtain ⟨c, msg, pLoop, hrunning, hout, hloop, rfl⟩ := send_inv hstep
  have hqueued := queued_sent h.loopThread h.batchDone hloop
  have hheld : s.pipeline.held t = some (c, echo msg) := by simp [pipeline, unsent, hout, hrunning, answer]
  have hpass : s.pipeline.pass t = some { s.pipeline with
      held := Function.update s.pipeline.held t none, queued := s.queued ++ [(c, echo msg)] } := by
    rw [Pipeline.pass, hheld]
    rfl
  refine hpass.trans (congrArg some (Pipeline.ext rfl rfl rfl ?_ hqueued.symm rfl))
  funext v
  by_cases hv : v = t
  · subst hv
    simp [pipeline, unsent]
  · simp [pipeline, unsent, hv]

theorem finish_pipeline {s u : Echo κ τ} {t : τ} (hstep : step s (.finish t) = some u) : u.pipeline = s.pipeline := by
  obtain ⟨ht, -, threadpool, hpool, rfl⟩ := finish_inv hstep
  obtain ⟨f, -, rfl⟩ := ThreadPool.finish_inv hpool
  have hheld : unsent { s with threadpool := s.threadpool.finish t f, sent := s.sent.erase t } = s.unsent := by
    funext v
    by_cases hv : v = t
    · subst hv
      simp [unsent, ht, ThreadPool.finish]
    · simp [unsent, hv, ThreadPool.finish]
  rw [pipeline, hheld]
  rfl

omit [DecidableEq τ] in
theorem messages_retrieve (s : Echo κ τ) (c : κ) :
    (s.retrieve c).messages = s.messages ++ [(c, (s.links c).conn.inBuf.content)] := by
  simp [retrieve]

theorem onMessage_pipeline {s u : Echo κ τ} (h : s.threadpool.Sound) {c : κ} {woken : Finset τ} {w : WriteResult}
    (hmessage : s.onMessage c woken w = some u) :
    Machine.Reaches Pipeline.step (fun _ _ => True) s.pipeline u.pipeline := by
  obtain ⟨threadpool, htask, ⟨hnone, hsend⟩ | ⟨hthreads, rfl⟩⟩ := onMessage_inv hmessage
  · obtain ⟨-, -, rfl⟩ := sendInLoop_inv hsend
    have hworkers : s.threadpool.workers = ∅ := by
      have hcounted := h.counted
      exact Finset.card_eq_zero.mp (by omega)
    have hwaiting : s.waiting = [] := by simp [waiting, (h.unused hnone).2]
    have hqueued := after_queued { s.retrieve c with threadpool } c
      (.sendInLoop (echo (s.links c).conn.inBuf.content) w)
    refine Machine.reaches_step (l := .serve (answer (c, (s.links c).conn.inBuf.content))) ?_ trivial
    refine (if_pos ⟨hworkers, hwaiting⟩).trans (congrArg some ?_)
    rcases ThreadPool.addTask_inv htask with ⟨-, rfl⟩ | ⟨hthreads, -⟩
    · refine Pipeline.ext ?_ rfl rfl rfl hqueued.symm rfl
      simp [pipeline, after, messages_retrieve]
    · exact absurd hnone hthreads
  · refine Machine.reaches_step (l := .ask (answer (c, (s.links c).conn.inBuf.content))) ?_ trivial
    rcases ThreadPool.addTask_inv htask with ⟨hnone, -⟩ | ⟨-, -, rfl⟩
    · exact absurd hnone hthreads
    · refine congrArg some (Pipeline.ext ?_ ?_ rfl rfl rfl rfl)
      · simp [pipeline, messages_retrieve]
      · simp [pipeline, waiting, BlockingQueue.put, BlockingQueue.notify, List.reduceOption_append]

theorem callFunctor_pipeline {s u : Echo κ τ} (h : s.Sound) {task : EventLoop.Task (Option τ) (κ × Functor)}
    {w : WriteResult} (hcall : s.callFunctor task w = some u) :
    (task.cb.2 = .onWriteComplateCB ∧ u.pipeline = s.pipeline) ∨
      (task.cb.2 ≠ .onWriteComplateCB ∧ s.pipeline.step .give = some u.pipeline) := by
  obtain ⟨pLoop, hloop, ⟨message, hcb, hsend⟩ | ⟨hcb, rfl⟩⟩ := callFunctor_inv hcall
  all_goals
    have hqueued := queued_called h.batchDone hloop
    rw [reply, hcb] at hqueued
  · obtain ⟨-, -, rfl⟩ := sendInLoop_inv hsend
    have hafter := after_queued { s with pLoop } task.cb.1 (.sendInLoop message w)
    have hgive : s.pipeline.give = some { s.pipeline with
        queued := queued { s with pLoop }, given := s.replies ++ [(task.cb.1, message)] } := by
      rw [Pipeline.give, show s.pipeline.queued = (task.cb.1, message) :: queued { s with pLoop } from hqueued]
      rfl
    exact Or.inr ⟨by simp [hcb], hgive.trans (congrArg some (Pipeline.ext rfl rfl rfl rfl hafter.symm rfl))⟩
  · exact Or.inl ⟨hcb, Pipeline.ext rfl rfl rfl rfl hqueued.symm rfl⟩

/-- A step of an echo server is a step of the pipeline, or none. -/
theorem pipeline_simulated : Machine.Simulates (step (κ := κ) (τ := τ)) Pipeline.step (fun _ _ => True)
    (fun s p => s.Sound ∧ p = s.pipeline) := by
  rintro s l u p ⟨h, rfl⟩ hstep
  refine ⟨u.pipeline, ?_, step_sound h hstep, rfl⟩
  have hstay : u.pipeline = s.pipeline →
      Machine.Reaches Pipeline.step (fun _ _ => True) s.pipeline u.pipeline := by
    intro hsame
    rw [hsame]
    exact Machine.reaches_refl _
  cases l with
  | startThread t created =>
    obtain ⟨threadpool, hstart, rfl⟩ := Option.map_eq_some_iff.mp (Option.ite_none_right_eq_some.mp hstep).2
    exact startThread_pipeline hstart
  | handleRead c res woken w =>
    obtain ⟨-, ⟨-, rfl⟩ | ⟨-, hmessage⟩⟩ := handleRead_inv (Option.ite_none_right_eq_some.mp hstep).2
    · exact hstay (after_pipeline s c _)
    · rw [← after_pipeline s c (.handleRead res)]
      exact onMessage_pipeline (s := { s.after c (.handleRead res) with
        received := Function.update s.received c (s.received c ++ read res) }) h.threadpool hmessage
  | handleWrite c w =>
    obtain ⟨-, -, rfl⟩ := call_inv (Option.ite_none_right_eq_some.mp hstep).2
    exact hstay (after_pipeline s c _)
  | take t =>
    obtain ⟨threadpool, hturn, rfl⟩ := Option.map_eq_some_iff.mp hstep
    exact (turn_pipeline h (Or.inl rfl) hturn).elim hstay fun htake => Machine.reaches_step htake trivial
  | wake t =>
    obtain ⟨threadpool, hwake, rfl⟩ := Option.map_eq_some_iff.mp hstep
    obtain ⟨-, -, rfl⟩ := ThreadPool.wake_inv hwake
    exact hstay rfl
  | resume t =>
    obtain ⟨threadpool, hturn, rfl⟩ := Option.map_eq_some_iff.mp hstep
    exact (turn_pipeline h (Or.inr rfl) hturn).elim hstay fun htake => Machine.reaches_step htake trivial
  | send t => exact Machine.reaches_step (send_pipeline h hstep) trivial
  | finish t => exact hstay (finish_pipeline hstep)
  | callFunctor task w =>
    rcases callFunctor_pipeline h hstep with ⟨-, hsame⟩ | ⟨-, hgive⟩
    · exact hstay hsame
    · exact Machine.reaches_step hgive trivial
  | loop l =>
    obtain ⟨hown, hmapped⟩ := Option.ite_none_right_eq_some.mp hstep
    obtain ⟨pLoop, hloop, rfl⟩ := Option.map_eq_some_iff.mp hmapped
    exact hstay (pipeline_congr rfl rfl rfl (own_held h.batchDone hown hloop) rfl)

/-! ## Runs -/

theorem run_pipeline {sockfd : κ → Int} {labels : List (Label κ τ)} {s : Echo κ τ}
    (hrun : Machine.run step (init sockfd) labels = some s) :
    s.Sound ∧ Machine.Reaches Pipeline.step (fun _ _ => True) Pipeline.init s.pipeline := by
  have hinit : (init sockfd : Echo κ τ).pipeline = Pipeline.init := by
    refine Pipeline.ext rfl rfl rfl ?_ rfl rfl
    funext t
    simp [pipeline, unsent, init, ThreadPool.init, Pipeline.init]
  obtain ⟨p, hp, hsound, rfl⟩ := pipeline_simulated.run ⟨init_sound sockfd, rfl⟩ hrun
  exact ⟨hsound, hinit ▸ hp⟩

/-- To its users an echo server is a service: a message asks for an answer on its own connection, and `sendInLoop`
gives one, whichever worker comes first. What has not been given is on its way, and with one worker, or none, in the
order of the messages. -/
theorem messages_answered (sockfd : κ → Int) (labels : List (Label κ τ)) (s : Echo κ τ)
    (hrun : Machine.run step (init sockfd) labels = some s) :
    Machine.Reaches Machine.Service.step (fun _ _ => True) Machine.Service.init s.pipeline.service ∧
    ((s.messages.map answer : List (κ × List Byte)) : Multiset (κ × List Byte)) = s.replies + s.pipeline.pending ∧
    ∀ t, s.threadpool.workers ⊆ {t} →
      s.replies ++ (s.queued ++ (s.unsent t).toList ++ s.waiting) = s.messages.map answer := by
  obtain ⟨-, hpipeline⟩ := run_pipeline hrun
  have hservice := Pipeline.reaches_service hpipeline
  exact ⟨hservice, Machine.Service.reaches_accounts hservice, fun t hone => Pipeline.reaches_inOrder hpipeline t hone⟩

/-- The second worker answers the first message, and the answer to the other one is still in the queue of the loop. -/
def twoMessages : List (Label Bool Nat) :=
  [.startThread 1 true, .startThread 2 true, .take 1, .loop .loop, .loop .testQuit, .loop (.poll false),
    .handleRead true (.ok [104, 105]) {1} (.ok 0), .handleRead false (.ok [72]) ∅ (.ok 0), .take 2, .resume 1,
    .send 2, .send 1, .loop (.queueTest (some 2)), .loop .doPendingFunctors, .loop .swap,
    .callFunctor ⟨some 2, (true, .onMessageCB [104, 105, 10])⟩ (.ok 2)]

set_option maxRecDepth 20000 in
theorem messages_answered_twoMessages : ∃ s, Machine.run step (init fun _ => 5) twoMessages = some s ∧
    s.replies = [(true, [104, 105, 10])] ∧ s.queued = [(false, [72, 10])] ∧
    ((s.messages.map answer : List (Bool × List Byte)) : Multiset (Bool × List Byte)) =
      s.replies + s.pipeline.pending := by
  have hrun : Machine.run step (init fun _ => 5) twoMessages = some _ := rfl
  exact ⟨_, hrun, rfl, rfl, (messages_answered _ twoMessages _ hrun).2.1⟩

end Muduo.Echo
