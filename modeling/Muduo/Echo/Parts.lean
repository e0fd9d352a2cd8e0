import Muduo.Echo.Code
import Muduo.EventLoop.Wakeup
import Muduo.EventLoop.Order
import Muduo.Simulation

/-! # The parts of an echo server

Every run of an echo server is a run of its loop and a run of its pool. What holds of these holds here.
-/

namespace Muduo.Echo

variable {κ τ : Type*} [DecidableEq κ] [DecidableEq τ]

/-! ## What the operations do -/

theorem call_inv {s u : Echo κ τ} {c : κ} {e : Link.Event} (hcall : s.call c e = some u) :
    (s.links c).Possible e ∧ ((s.links c).next e).raised = false ∧ u = s.after c e := by
  unfold call at hcall
  obtain ⟨⟨hpos, hraised⟩, rfl⟩ := Machine.guard_some.mp hcall
  exact ⟨hpos, hraised, rfl⟩

theorem sendInLoop_inv {s u : Echo κ τ} {c : κ} {message : List Byte} {w : WriteResult}
    (hsend : s.sendInLoop c message w = some u) :
    (s.links c).Possible (.sendInLoop message w) ∧ ((s.links c).next (.sendInLoop message w)).raised = false ∧
      u = { s.after c (.sendInLoop message w) with replies := s.replies ++ [(c, message)] } := by
  unfold sendInLoop at hsend
  obtain ⟨v, hv, rfl⟩ := Option.map_eq_some_iff.mp hsend
  obtain ⟨hpos, hraised, rfl⟩ := call_inv hv
  exact ⟨hpos, hraised, rfl⟩

theorem onMessage_inv {s u : Echo κ τ} {c : κ} {woken : Finset τ} {w : WriteResult}
    (hmessage : s.onMessage c woken w = some u) :
    ∃ threadpool, s.threadpool.step (.addTask (some (c, (s.links c).conn.inBuf.content)) woken) = some threadpool ∧
      ((s.threadpool.threads = 0 ∧ { s.retrieve c with threadpool }.sendInLoop c
          (echo (s.links c).conn.inBuf.content) w = some u) ∨
        (s.threadpool.threads ≠ 0 ∧ u = { s.retrieve c with threadpool })) := by
  unfold onMessage at hmessage
  obtain ⟨threadpool, htask, hu⟩ := Option.bind_eq_some_iff.mp hmessage
  rw [WfBuffer.retrieveAllAsString_snd] at htask hu
  refine ⟨threadpool, htask, ?_⟩
  split at hu
  · exact Or.inl ⟨by assumption, hu⟩
  · exact Or.inr ⟨by assumption, (Option.some.inj hu).symm⟩

theorem callFunctor_inv {s u : Echo κ τ} {task : EventLoop.Task (Option τ) (κ × Functor)} {w : WriteResult}
    (hcall : s.callFunctor task w = some u) :
    ∃ pLoop, s.pLoop.step (.callFunctor task) = some pLoop ∧
      ((∃ message, task.cb.2 = .onMessageCB message ∧ { s with pLoop }.sendInLoop task.cb.1 message w = some u) ∨
        (task.cb.2 = .onWriteComplateCB ∧ u = { s with pLoop })) := by
  unfold callFunctor at hcall
  obtain ⟨pLoop, hloop, hu⟩ := Option.bind_eq_some_iff.mp hcall
  refine ⟨pLoop, hloop, ?_⟩
  cases hcb : task.cb.2 with
  | onMessageCB message =>
    rw [hcb] at hu
    exact Or.inl ⟨message, rfl, hu⟩
  | onWriteComplateCB =>
    rw [hcb] at hu
    exact Or.inr ⟨rfl, (Option.some.inj hu).symm⟩

theorem handleRead_inv {s u : Echo κ τ} {c : κ} {res : Buffer.ReadResult} {woken : Finset τ} {w : WriteResult}
    (hread : s.handleRead c res woken w = some u) :
    (s.links c).Possible (.handleRead res) ∧
      ((((s.links c).conn.handleRead res).2 ≠ .onMessage ∧ u = s.after c (.handleRead res)) ∨
        (((s.links c).conn.handleRead res).2 = .onMessage ∧ { s.after c (.handleRead res) with
          received := Function.update s.received c (s.received c ++ read res) }.onMessage c woken w = some u)) := by
  unfold handleRead at hread
  obtain ⟨v, hv, hu⟩ := Option.bind_eq_some_iff.mp hread
  obtain ⟨hpos, -, rfl⟩ := call_inv hv
  refine ⟨hpos, ?_⟩
  split at hu
  · exact Or.inr ⟨by assumption, hu⟩
  · exact Or.inl ⟨by assumption, (Option.some.inj hu).symm⟩

theorem send_inv {s u : Echo κ τ} {t : τ} (hstep : step s (.send t) = some u) :
    ∃ c msg pLoop, s.threadpool.running t = some (c, msg) ∧ t ∉ s.sent ∧
      s.pLoop.step (.runInLoop (some t) (c, .onMessageCB (echo msg))) = some pLoop ∧
      u = { s with pLoop, sent := insert t s.sent } := by
  simp only [step] at hstep
  split at hstep
  · rename_i c msg hrunning
    obtain ⟨ht, hsend⟩ := Option.ite_none_right_eq_some.mp hstep
    obtain ⟨pLoop, hloop, rfl⟩ := Option.map_eq_some_iff.mp hsend
    exact ⟨c, msg, pLoop, hrunning, ht, hloop, rfl⟩
  · cases hstep

theorem finish_inv {s u : Echo κ τ} {t : τ} (hstep : step s (.finish t) = some u) :
    t ∈ s.sent ∧ s.pLoop.calls (some t) = .idle ∧ ∃ threadpool, s.threadpool.step (.finish t) = some threadpool ∧
      u = { s with threadpool, sent := s.sent.erase t } := by
  simp only [step] at hstep
  obtain ⟨⟨ht, hidle⟩, hfinish⟩ := Option.ite_none_right_eq_some.mp hstep
  obtain ⟨threadpool, hpool, rfl⟩ := Option.map_eq_some_iff.mp hfinish
  exact ⟨ht, hidle, threadpool, hpool, rfl⟩

/-! ## The pool -/

theorem onMessage_threadpool {s u : Echo κ τ} {c : κ} {woken : Finset τ} {w : WriteResult}
    (hmessage : s.onMessage c woken w = some u) :
    s.threadpool.step (.addTask (some (c, (s.links c).conn.inBuf.content)) woken) = some u.threadpool := by
  obtain ⟨threadpool, htask, ⟨-, hsend⟩ | ⟨-, rfl⟩⟩ := onMessage_inv hmessage
  · obtain ⟨-, -, rfl⟩ := sendInLoop_inv hsend
    exact htask
  · exact htask

/-- A call in the pool that is not the end of a task. -/
def Unfinished (_ : ThreadPool τ (κ × List Byte)) (m : ThreadPool.Label τ (κ × List Byte)) : Prop :=
  ∀ t, m ≠ .finish t

theorem step_threadpool {s u : Echo κ τ} {l : Label κ τ} (hl : ∀ t, l ≠ .finish t) (hstep : step s l = some u) :
    Machine.Reaches ThreadPool.step Unfinished s.threadpool u.threadpool := by
  have hmap : ∀ {m : ThreadPool.Label τ (κ × List Byte)}, (∀ t, m ≠ .finish t) →
      ((s.threadpool.step m).map fun threadpool => { s with threadpool }) = some u →
        Machine.Reaches ThreadPool.step Unfinished s.threadpool u.threadpool := by
    intro m hm hmapped
    obtain ⟨threadpool, hpool, rfl⟩ := Option.map_eq_some_iff.mp hmapped
    exact Machine.reaches_step hpool hm
  cases l with
  | startThread t created => exact hmap (by simp) (Option.ite_none_right_eq_some.mp hstep).2
  | take t | wake t | resume t => exact hmap (by simp) hstep
  | handleRead c res woken w =>
    obtain ⟨-, ⟨-, rfl⟩ | ⟨-, hmessage⟩⟩ := handleRead_inv (Option.ite_none_right_eq_some.mp hstep).2
    · exact Machine.reaches_refl _
    · have htask := onMessage_threadpool hmessage
      exact Machine.reaches_step htask (by simp [Unfinished])
  | handleWrite c w =>
    obtain ⟨-, -, rfl⟩ := call_inv (Option.ite_none_right_eq_some.mp hstep).2
    exact Machine.reaches_refl _
  | send t =>
    obtain ⟨c, msg, pLoop, -, -, -, rfl⟩ := send_inv hstep
    exact Machine.reaches_refl _
  | finish t => exact absurd rfl (hl t)
  | callFunctor task w =>
    obtain ⟨pLoop, -, ⟨message, -, hsend⟩ | ⟨-, rfl⟩⟩ := callFunctor_inv hstep
    · obtain ⟨-, -, rfl⟩ := sendInLoop_inv hsend
      exact Machine.reaches_refl _
    · exact Machine.reaches_refl _
  | loop l =>
    obtain ⟨pLoop, -, rfl⟩ := Option.map_eq_some_iff.mp (Option.ite_none_right_eq_some.mp hstep).2
    exact Machine.reaches_refl _

theorem threadpool_simulated :
    Machine.Simulates (step (κ := κ) (τ := τ)) ThreadPool.step (fun _ _ => True) (fun s t => t = s.threadpool) := by
  rintro s l u t rfl hstep
  refine ⟨u.threadpool, ?_, rfl⟩
  by_cases hl : ∀ t, l ≠ .finish t
  · exact (step_threadpool hl hstep).mono fun _ _ _ => trivial
  · simp only [not_forall, not_not] at hl
    obtain ⟨t, rfl⟩ := hl
    obtain ⟨-, -, threadpool, hpool, rfl⟩ := finish_inv hstep
    exact Machine.reaches_step hpool trivial

/-! ## The loop -/

/-- The loop's thread calls nothing outside of `loop()`, and nobody calls `quit`. -/
def Unquit (s : EventLoop (Option τ) (κ × Functor)) (m : EventLoop.Label (Option τ) (κ × Functor)) : Prop :=
  s.OwnerInside m ∧ ∀ t, m ≠ .quit t

/-- A step of the loop that no worker makes by a call. -/
def Uncalled (s : EventLoop (Option τ) (κ × Functor)) (m : EventLoop.Label (Option τ) (κ × Functor)) : Prop :=
  Unquit s m ∧ ∀ t, m.caller ≠ some (some t)

theorem after_pLoop {s : Echo κ τ} (hmay : s.pLoop.MayCall none) (hin : s.pLoop.pc ≠ .outside) (c : κ)
    (e : Link.Event) : Machine.Reaches EventLoop.step Uncalled s.pLoop (s.after c e).pLoop := by
  by_cases hcompletes : (s.links c).completes e = true
  · simp only [after, hcompletes, if_true]
    refine Machine.reaches_step (l := .queueInLoop none (c, .onWriteComplateCB)) (if_pos hmay) ⟨⟨?_, ?_⟩, ?_⟩
    · exact fun hout => absurd hout hin
    · simp
    · simp [EventLoop.Label.caller]
  · simp only [after, hcompletes]
    exact Machine.reaches_refl _

theorem onMessage_pLoop {s u : Echo κ τ} {c : κ} {woken : Finset τ} {w : WriteResult} (hmay : s.pLoop.MayCall none)
    (hin : s.pLoop.pc ≠ .outside) (hmessage : s.onMessage c woken w = some u) :
    Machine.Reaches EventLoop.step Uncalled s.pLoop u.pLoop := by
  obtain ⟨threadpool, -, ⟨-, hsend⟩ | ⟨-, rfl⟩⟩ := onMessage_inv hmessage
  · obtain ⟨-, -, rfl⟩ := sendInLoop_inv hsend
    exact after_pLoop (s := { s.retrieve c with threadpool }) hmay hin c _
  · exact Machine.reaches_refl _

omit [DecidableEq κ] [DecidableEq τ] in
theorem inHandlers_mayCall {s : Echo κ τ} (hid : s.pLoop.threadId = none) (h : s.InHandlers) :
    s.pLoop.MayCall none ∧ s.pLoop.pc ≠ .outside := by
  unfold InHandlers EventLoop.At at h
  rw [hid] at h
  rcases h with ⟨hpc, hidle⟩ | ⟨hpc, hidle⟩
  all_goals simp [EventLoop.MayCall, hpc, hidle]

theorem step_pLoop {s u : Echo κ τ} {l : Label κ τ} (hid : s.pLoop.threadId = none) (hl : ∀ t, l ≠ .send t)
    (hstep : step s l = some u) : Machine.Reaches EventLoop.step Uncalled s.pLoop u.pLoop := by
  have hmap : ∀ {m : ThreadPool.Label τ (κ × List Byte)},
      ((s.threadpool.step m).map fun threadpool => { s with threadpool }) = some u → u.pLoop = s.pLoop := by
    intro m hm
    obtain ⟨threadpool, -, rfl⟩ := Option.map_eq_some_iff.mp hm
    rfl
  cases l with
  | startThread t created =>
    rw [hmap (Option.ite_none_right_eq_some.mp hstep).2]
    exact Machine.reaches_refl _
  | take t | wake t | resume t =>
    rw [hmap hstep]
    exact Machine.reaches_refl _
  | handleRead c res woken w =>
    obtain ⟨hin, hread⟩ := Option.ite_none_right_eq_some.mp hstep
    obtain ⟨hmay, hpc⟩ := inHandlers_mayCall hid hin
    obtain ⟨-, ⟨-, rfl⟩ | ⟨-, hmessage⟩⟩ := handleRead_inv hread
    · exact after_pLoop hmay hpc c _
    · exact onMessage_pLoop (s := { s.after c (.handleRead res) with
        received := Function.update s.received c (s.received c ++ read res) }) hmay hpc hmessage
  | handleWrite c w =>
    obtain ⟨hin, hcall⟩ := Option.ite_none_right_eq_some.mp hstep
    obtain ⟨hmay, hpc⟩ := inHandlers_mayCall hid hin
    obtain ⟨-, -, rfl⟩ := call_inv hcall
    exact after_pLoop hmay hpc c _
  | send t => exact absurd rfl (hl t)
  | finish t =>
    obtain ⟨-, -, threadpool, -, rfl⟩ := finish_inv hstep
    exact Machine.reaches_refl _
  | callFunctor task w =>
    obtain ⟨pLoop, hloop, hu⟩ := callFunctor_inv hstep
    have hcalled : Machine.Reaches EventLoop.step Uncalled s.pLoop pLoop :=
      Machine.reaches_step hloop (by simp [Uncalled, Unquit, EventLoop.OwnerInside, EventLoop.Label.caller])
    obtain ⟨⟨hat, -⟩, rfl⟩ := Machine.guard_some.mp hloop
    have hidle := hat.2
    rw [hid] at hidle
    rcases hu with ⟨message, -, hsend⟩ | ⟨-, rfl⟩
    · obtain ⟨-, -, rfl⟩ := sendInLoop_inv hsend
      refine hcalled.trans (after_pLoop (s := { s with pLoop := _ }) ?_ ?_ task.cb.1 (.sendInLoop message w))
      · exact ⟨hidle, fun _ => Or.inr (Or.inr rfl)⟩
      · simp
    · exact hcalled
  | loop l =>
    obtain ⟨hown, hmapped⟩ := Option.ite_none_right_eq_some.mp hstep
    obtain ⟨pLoop, hloop, rfl⟩ := Option.map_eq_some_iff.mp hmapped
    refine Machine.reaches_step hloop ?_
    cases l with
    | queueInLoop | runInLoop | quit => cases hown
    | _ => simp [Uncalled, Unquit, EventLoop.OwnerInside, EventLoop.Label.caller]

/-- A step of the server is a few steps of its loop. -/
theorem pLoop_simulated : Machine.Simulates (step (κ := κ) (τ := τ)) EventLoop.step Unquit
    (fun s t => t = s.pLoop ∧ t.threadId = none) := by
  rintro s l u t ⟨rfl, hid⟩ hstep
  suffices h : Machine.Reaches EventLoop.step Unquit s.pLoop u.pLoop by
    refine ⟨u.pLoop, h, rfl, ?_⟩
    exact h.invariant (I := fun t => t.threadId = none)
      (fun _ _ _ hid _ hloop => (EventLoop.step_threadId hloop).trans hid) hid
  by_cases hl : ∀ t, l ≠ .send t
  · exact (step_pLoop hid hl hstep).mono fun _ _ h => h.1
  · simp only [not_forall, not_not] at hl
    obtain ⟨t, rfl⟩ := hl
    obtain ⟨c, msg, pLoop, -, -, hloop, rfl⟩ := send_inv hstep
    refine Machine.reaches_step hloop ⟨fun _ => ?_, by simp⟩
    simp [EventLoop.Label.caller, hid]

/-! ## The invariant -/

/-- The workers that have sent are in a task, and only they can be in a call of the loop. -/
structure Sound (s : Echo κ τ) : Prop where
  threadpool : s.threadpool.Sound
  loopThread : s.pLoop.threadId = none
  awake : s.pLoop.Awake
  batchDone : s.pLoop.BatchDone
  unquit : s.pLoop.quit = false ∧ ∀ t, s.pLoop.calls t ≠ .quitSet
  sent : ∀ t ∈ s.sent, s.threadpool.running t ≠ none
  calling : ∀ t, s.pLoop.calls (some t) ≠ .idle → t ∈ s.sent

omit [DecidableEq κ] in
theorem init_sound (sockfd : κ → Int) : (init sockfd : Echo κ τ).Sound where
  threadpool := ThreadPool.init_sound
  loopThread := rfl
  awake := EventLoop.init_awake none
  batchDone := fun _ _ => rfl
  unquit := by simp [init, EventLoop.init]
  sent := by simp [init]
  calling := by simp [init, EventLoop.init]

theorem step_sent {s u : Echo κ τ} {l : Label κ τ} (hsend : ∀ t, l ≠ .send t) (hfinish : ∀ t, l ≠ .finish t)
    (hstep : step s l = some u) : u.sent = s.sent := by
  have hmap : ∀ {m : ThreadPool.Label τ (κ × List Byte)},
      ((s.threadpool.step m).map fun threadpool => { s with threadpool }) = some u → u.sent = s.sent := by
    intro m hm
    obtain ⟨threadpool, -, rfl⟩ := Option.map_eq_some_iff.mp hm
    rfl
  cases l with
  | startThread t created => exact hmap (Option.ite_none_right_eq_some.mp hstep).2
  | take t | wake t | resume t => exact hmap hstep
  | handleRead c res woken w =>
    obtain ⟨-, ⟨-, rfl⟩ | ⟨-, hmessage⟩⟩ := handleRead_inv (Option.ite_none_right_eq_some.mp hstep).2
    · rfl
    · obtain ⟨threadpool, -, ⟨-, hsent⟩ | ⟨-, rfl⟩⟩ := onMessage_inv hmessage
      · obtain ⟨-, -, rfl⟩ := sendInLoop_inv hsent
        rfl
      · rfl
  | handleWrite c w =>
    obtain ⟨-, -, rfl⟩ := call_inv (Option.ite_none_right_eq_some.mp hstep).2
    rfl
  | send t => exact absurd rfl (hsend t)
  | finish t => exact absurd rfl (hfinish t)
  | callFunctor task w =>
    obtain ⟨pLoop, -, ⟨message, -, hsent⟩ | ⟨-, rfl⟩⟩ := callFunctor_inv hstep
    · obtain ⟨-, -, rfl⟩ := sendInLoop_inv hsent
      rfl
    · rfl
  | loop l =>
    obtain ⟨pLoop, -, rfl⟩ := Option.map_eq_some_iff.mp (Option.ite_none_right_eq_some.mp hstep).2
    rfl

theorem sent_running {s u : Echo κ τ} {l : Label κ τ} (h : s.Sound) (hstep : step s l = some u) {v : τ}
    (hv : v ∈ u.sent) : u.threadpool.running v ≠ none := by
  by_cases hfinish : ∀ t, l ≠ .finish t
  · have hkeep : v ∈ s.sent → u.threadpool.running v ≠ none := fun hv =>
      ((step_threadpool hfinish hstep).invariant (I := fun p => p.Sound ∧ p.running v ≠ none)
        (fun _ _ _ hI hm hstep => ⟨ThreadPool.step_sound hI.1 hstep,
          ThreadPool.step_running hI.1 hm hstep hI.2 ▸ hI.2⟩) ⟨h.threadpool, h.sent v hv⟩).2
    by_cases hsend : ∀ t, l ≠ .send t
    · exact hkeep (step_sent hsend hfinish hstep ▸ hv)
    · simp only [not_forall, not_not] at hsend
      obtain ⟨t, rfl⟩ := hsend
      obtain ⟨c, msg, pLoop, hrunning, -, -, rfl⟩ := send_inv hstep
      rcases Finset.mem_insert.mp hv with rfl | hv
      · simp [hrunning]
      · exact hkeep hv
  · simp only [not_forall, not_not] at hfinish
    obtain ⟨t, rfl⟩ := hfinish
    obtain ⟨-, -, threadpool, hfinished, rfl⟩ := finish_inv hstep
    obtain ⟨f, -, rfl⟩ := ThreadPool.finish_inv hfinished
    obtain ⟨hvt, hv⟩ := Finset.mem_erase.mp hv
    simpa [ThreadPool.finish, Function.update_of_ne hvt] using h.sent v hv

theorem calling_sent {s u : Echo κ τ} {l : Label κ τ} (h : s.Sound) (hstep : step s l = some u) {v : τ}
    (hv : u.pLoop.calls (some v) ≠ .idle) : v ∈ u.sent := by
  by_cases hsend : ∀ t, l ≠ .send t
  · have hbefore : s.pLoop.calls (some v) ≠ .idle := by
      by_contra hidle
      refine hv ((step_pLoop h.loopThread hsend hstep).invariant (I := fun p => p.calls (some v) = .idle)
        (fun p m q hidle hm hloop => ?_) hidle)
      by_contra hcall
      rcases EventLoop.step_calling hloop hcall with hcall | hcaller
      · exact hcall hidle
      · exact hm.2 v hcaller
    by_cases hfinish : ∀ t, l ≠ .finish t
    · rw [step_sent hsend hfinish hstep]
      exact h.calling v hbefore
    · simp only [not_forall, not_not] at hfinish
      obtain ⟨t, rfl⟩ := hfinish
      obtain ⟨-, hidle, threadpool, -, rfl⟩ := finish_inv hstep
      exact Finset.mem_erase.mpr ⟨fun hvt => hbefore (hvt ▸ hidle), h.calling v hbefore⟩
  · simp only [not_forall, not_not] at hsend
    obtain ⟨t, rfl⟩ := hsend
    obtain ⟨c, msg, pLoop, -, -, hrun, rfl⟩ := send_inv hstep
    rcases EventLoop.step_calling hrun hv with hcall | hcaller
    · exact Finset.mem_insert_of_mem (h.calling v hcall)
    · simp only [EventLoop.Label.caller, Option.some.injEq] at hcaller
      exact hcaller ▸ Finset.mem_insert_self t s.sent

theorem step_sound {s u : Echo κ τ} {l : Label κ τ} (h : s.Sound) (hstep : step s l = some u) : u.Sound := by
  have hpool : Machine.Reaches ThreadPool.step (fun _ _ => True) s.threadpool u.threadpool := by
    obtain ⟨v, hv, rfl⟩ := threadpool_simulated s l u s.threadpool rfl hstep
    exact hv
  have hloop : Machine.Reaches EventLoop.step Unquit s.pLoop u.pLoop := by
    obtain ⟨v, hv, rfl, -⟩ := pLoop_simulated s l u s.pLoop ⟨rfl, h.loopThread⟩ hstep
    exact hv
  refine ⟨?_, ?_, ?_, ?_, ?_, fun v hv => sent_running h hstep hv, fun v hv => calling_sent h hstep hv⟩
  · exact hpool.invariant (fun _ _ _ h _ hstep => ThreadPool.step_sound h hstep) h.threadpool
  · exact hloop.invariant (I := fun t => t.threadId = none)
      (fun _ _ _ hid _ hstep => (EventLoop.step_threadId hstep).trans hid) h.loopThread
  · exact hloop.invariant (fun _ _ _ h hin hstep => EventLoop.step_awake h hin.1 hstep) h.awake
  · exact hloop.invariant (fun _ _ _ h _ hstep => EventLoop.step_batchDone h hstep) h.batchDone
  · exact hloop.invariant (I := fun t => t.quit = false ∧ ∀ v, t.calls v ≠ .quitSet)
      (fun _ _ _ h hin hstep => EventLoop.step_unquit hin.2 hstep h.1 h.2) h.unquit

end Muduo.Echo
