import Muduo.Potential
import Muduo.EventLoop.Order

/-! # The loop gets there

How many steps of its own thread the loop needs until a functor that it holds is called, and until `loop()` returns
after `quit()`. The steps of other threads in between do not count, and they cannot add to the first number.
-/

namespace Muduo.EventLoop

variable {τ φ : Type*}

/-- A step that the loop's thread makes inside `loop()`, outside handlers and functors. -/
def Label.turn : Label τ φ → Nat
  | .testQuit | .poll _ | .handleRead | .doPendingFunctors | .swap | .callFunctor _ | .returned | .endBatch => 1
  | _ => 0

/-- A turn for which no event of another descriptor is needed. -/
def Label.Turns : Label τ φ → Prop
  | .poll eventfd => eventfd = true
  | l => l.turn = 1

/-- What the loop holds. -/
def held (s : EventLoop τ φ) : List (Task τ φ) := s.tempRuns ++ s.pendingFunctors

/-- The turns up to the call of the functor at `i`. -/
def ahead (s : EventLoop τ φ) (i : Nat) : Nat :=
  match s.pc with
  | .outside | .testing => 2 * i + 6
  | .polling => 2 * i + 5
  | .handling true => 2 * i + 4
  | .handling false => 2 * i + 3
  | .swapping => 2 * i + 2
  | .draining => if i < s.tempRuns.length then 2 * i + 1 else 2 * i + 7
  | .running => if i < s.tempRuns.length then 2 * i + 2 else 2 * i + 8

theorem ahead_le (s : EventLoop τ φ) (i : Nat) : s.ahead i ≤ 2 * i + 8 := by
  unfold ahead
  split <;> first | omega | (split <;> omega)

/-- The turns up to the return of `loop()` once `_quit` is set. -/
def left (s : EventLoop τ φ) : Nat :=
  match s.pc with
  | .outside => 0
  | .testing => 1
  | .polling => 2 * s.pendingFunctors.length + 6
  | .handling true => 2 * s.pendingFunctors.length + 5
  | .handling false => 2 * s.pendingFunctors.length + 4
  | .swapping => 2 * s.pendingFunctors.length + 3
  | .draining => 2 * s.tempRuns.length + 2
  | .running => 2 * s.tempRuns.length + 3

/-- A functor that comes before the swap, or another call of `loop()`. -/
def Label.delays : Label τ φ → Nat
  | .queueInLoop _ _ | .runInLoop _ _ => 2
  | .loop => 1
  | _ => 0

/-! ## A loop that is told to quit -/

/-- A `_quit` that is set while the loop sleeps is announced. The loop's own thread sets it outside `epoll_wait`. -/
structure Heeds (s : EventLoop τ φ) : Prop where
  owner : s.calls s.threadId ≠ .idle → s.pc ≠ .polling
  quit : s.quit = true → s.pc = .polling → s.Covered

theorem init_heeds (threadId : τ) : (init threadId : EventLoop τ φ).Heeds where
  owner := fun hcall => absurd rfl hcall
  quit := fun hquit => by cases hquit

theorem heeds_of_pc {s : EventLoop τ φ} (h : s.pc ≠ .polling) : s.Heeds := ⟨fun _ => h, fun _ hpoll => absurd hpoll h⟩

theorem mayCall_polling {s : EventLoop τ φ} {t : τ} (hmay : s.MayCall t) (ht : t = s.threadId) : s.pc ≠ .polling := by
  rcases hmay.2 ht.symm with hpc | ⟨b, hpc⟩ | hpc <;> simp [hpc]

variable [DecidableEq τ]

theorem Heeds.setCall {s : EventLoop τ φ} (h : s.Heeds) {t : τ} {c : Call} (hown : t = s.threadId → s.pc ≠ .polling)
    (hc : t ≠ s.threadId → c ≠ .idle) : (s.setCall t c).Heeds := by
  by_cases ht : t = s.threadId
  · exact heeds_of_pc (hown ht)
  · refine ⟨fun hcall => h.owner ?_, fun _ _ => covered_of_call ht ?_⟩
    · rwa [show (s.setCall t c).threadId = s.threadId from rfl, setCall_other s c (Ne.symm ht)] at hcall
    · rw [setCall_self]
      exact hc ht

theorem queueInLoop_heeds {s : EventLoop τ φ} {t : τ} (h : s.Heeds) (hmay : s.MayCall t) (cb : φ) :
    (s.queueInLoop t cb).Heeds :=
  Heeds.setCall (s := { s with pendingFunctors := s.pendingFunctors ++ [⟨t, cb⟩] }) ⟨h.owner, h.quit⟩
    (mayCall_polling hmay) (by simp)

theorem wakeup_heeds {s : EventLoop τ φ} {t : τ} (h : s.Heeds) (hcall : s.calls t ≠ .idle) : (s.wakeup t).Heeds := by
  refine ⟨fun hcall' => ?_, fun _ _ => covered_of_eventfd ?_⟩
  · by_cases ht : t = s.threadId
    · exact h.owner (ht ▸ hcall)
    · refine h.owner fun hidle => hcall' ?_
      rw [← hidle]
      exact setCall_other _ _ (Ne.symm ht)
  · have hpos : 0 < kMaxEventfd := by decide
    simp only [wakeup, EventLoop.setCall]
    split <;> omega

/-! ## One step -/

variable [DecidableEq φ]

theorem step_quit {s u : EventLoop τ φ} {l : Label τ φ} (hstep : step s l = some u) (hquit : s.quit = true) :
    u.quit = true := by
  cases l with
  | quit t =>
    obtain ⟨-, rfl⟩ := Machine.guard_some.mp hstep
    rfl
  | runInLoop t cb =>
    obtain ⟨-, rfl⟩ := Machine.guard_some.mp hstep
    unfold runInLoop
    split <;> exact hquit
  | _ =>
    obtain ⟨-, rfl⟩ := Machine.guard_some.mp hstep
    exact hquit

theorem step_still {s u : EventLoop τ φ} {l : Label τ φ} (hl : l.turn = 0) (hloop : l ≠ .loop)
    (hstep : step s l = some u) : u.pc = s.pc ∧ u.tempRuns = s.tempRuns := by
  cases l with
  | loop => exact absurd rfl hloop
  | runInLoop t cb =>
    obtain ⟨-, rfl⟩ := Machine.guard_some.mp hstep
    unfold runInLoop
    split <;> exact ⟨rfl, rfl⟩
  | queueInLoop | quit | queueTest | quitTest | wakeup =>
    obtain ⟨-, rfl⟩ := Machine.guard_some.mp hstep
    exact ⟨rfl, rfl⟩
  | testQuit | poll | handleRead | doPendingFunctors | swap | callFunctor | returned | endBatch => cases hl

/-- A turn brings the call of a functor nearer, or calls it. -/
theorem step_ahead {s u : EventLoop τ φ} {l : Label τ φ} (hdone : s.BatchDone) (hquit : s.quit = false)
    (hstep : step s l = some u) {i : Nat} (hi : i < s.held.length) :
    i < l.executed.toList.length ∨ l.turn + u.ahead (i - l.executed.toList.length) ≤ s.ahead i := by
  cases l with
  | queueInLoop | runInLoop | quit | queueTest | quitTest | wakeup =>
    obtain ⟨hpc, hruns⟩ := step_still rfl (by simp) hstep
    simp [Label.executed, Label.turn, ahead, hpc, hruns]
  | loop =>
    obtain ⟨hat, rfl⟩ := Machine.guard_some.mp hstep
    simp [Label.executed, Label.turn, ahead, hat.1]
  | testQuit =>
    obtain ⟨hat, rfl⟩ := Machine.guard_some.mp hstep
    simp only [Label.executed, Label.turn, ahead, hat.1, hquit]
    simp
    omega
  | poll eventfd =>
    obtain ⟨⟨hat, -⟩, rfl⟩ := Machine.guard_some.mp hstep
    cases eventfd <;> simp [Label.executed, Label.turn, ahead, hat.1] <;> omega
  | handleRead | doPendingFunctors =>
    obtain ⟨hat, rfl⟩ := Machine.guard_some.mp hstep
    simp [Label.executed, Label.turn, ahead, hat.1]
    omega
  | swap =>
    obtain ⟨hat, rfl⟩ := Machine.guard_some.mp hstep
    have hempty : s.tempRuns = [] := hdone (by simp [hat.1]) (by simp [hat.1])
    have hlt : i < s.pendingFunctors.length := by simpa [held, hempty] using hi
    simp [Label.executed, Label.turn, ahead, hat.1, hlt]
    omega
  | callFunctor task =>
    obtain ⟨⟨hat, hhead⟩, rfl⟩ := Machine.guard_some.mp hstep
    obtain ⟨rest, hruns⟩ := List.head?_eq_some_iff.mp hhead
    simp only [Label.executed, Label.turn, ahead, hat.1, hruns, Option.toList_some, List.length_cons,
      List.length_nil, List.tail_cons]
    by_cases hzero : i < 1
    · exact Or.inl hzero
    · refine Or.inr ?_
      split <;> split <;> omega
  | returned =>
    obtain ⟨hat, rfl⟩ := Machine.guard_some.mp hstep
    by_cases hlt : i < s.tempRuns.length <;> simp [Label.executed, Label.turn, ahead, hat.1, hlt] <;> omega
  | endBatch =>
    obtain ⟨⟨hat, hempty⟩, rfl⟩ := Machine.guard_some.mp hstep
    simp [Label.executed, Label.turn, ahead, hat.1, hempty]
    omega

theorem step_left {s u : EventLoop τ φ} {l : Label τ φ} (hquit : s.quit = true) (hstep : step s l = some u) :
    l.turn + u.left ≤ s.left + l.delays := by
  cases l with
  | queueInLoop t cb =>
    obtain ⟨-, rfl⟩ := Machine.guard_some.mp hstep
    simp only [Label.turn, Label.delays, left, queueInLoop, setCall, List.length_append, List.length_singleton]
    split <;> omega
  | runInLoop t cb =>
    obtain ⟨-, rfl⟩ := Machine.guard_some.mp hstep
    unfold runInLoop
    split
    · simp [Label.turn]
    · simp only [Label.turn, Label.delays, left, queueInLoop, setCall, List.length_append, List.length_singleton]
      split <;> omega
  | quit | queueTest | quitTest | wakeup =>
    obtain ⟨-, rfl⟩ := Machine.guard_some.mp hstep
    simp [Label.turn, Label.delays, left, setQuit, queueTest, quitTest, wakeup, setCall]
  | loop =>
    obtain ⟨hat, rfl⟩ := Machine.guard_some.mp hstep
    simp [Label.turn, Label.delays, left, hat.1]
  | testQuit =>
    obtain ⟨hat, rfl⟩ := Machine.guard_some.mp hstep
    simp [Label.turn, Label.delays, left, hat.1, hquit]
  | poll eventfd =>
    obtain ⟨⟨hat, -⟩, rfl⟩ := Machine.guard_some.mp hstep
    cases eventfd <;> simp [Label.turn, Label.delays, left, hat.1] <;> omega
  | handleRead | doPendingFunctors | swap | returned =>
    obtain ⟨hat, rfl⟩ := Machine.guard_some.mp hstep
    simp [Label.turn, Label.delays, left, hat.1]
    omega
  | callFunctor task =>
    obtain ⟨⟨hat, hhead⟩, rfl⟩ := Machine.guard_some.mp hstep
    obtain ⟨rest, hruns⟩ := List.head?_eq_some_iff.mp hhead
    simp [Label.turn, Label.delays, left, hat.1, hruns]
    omega
  | endBatch =>
    obtain ⟨⟨hat, hempty⟩, rfl⟩ := Machine.guard_some.mp hstep
    simp [Label.turn, Label.delays, left, hat.1, hempty]

/-! ## Runs -/

theorem run_quit {s u : EventLoop τ φ} {labels : List (Label τ φ)} (hrun : Machine.run step s labels = some u)
    (hquit : s.quit = true) : u.quit = true :=
  Machine.run_invariant (fun _ _ _ h hstep => step_quit hstep h) hquit hrun

theorem held_length {s u : EventLoop τ φ} {l : Label τ φ} (hdone : s.BatchDone) (hstep : step s l = some u) :
    s.held.length ≤ l.executed.toList.length + u.held.length := by
  have hconserves := congrArg List.length (step_conserves hdone hstep)
  simp only [List.length_append, held] at hconserves ⊢
  omega

theorem run_ahead {s u : EventLoop τ φ} {labels : List (Label τ φ)} (hdone : s.BatchDone)
    (hrun : Machine.run step s labels = some u) (hquit : u.quit = false) {i : Nat} (hi : i < s.held.length) :
    i < (executed labels).length ∨
      Machine.total Label.turn labels + u.ahead (i - (executed labels).length) ≤ s.ahead i := by
  induction labels generalizing s i with
  | nil =>
    rw [Machine.run_nil, Option.some.injEq] at hrun
    simp [hrun, executed]
  | cons l labels ih =>
    obtain ⟨t, hstep, hrest⟩ := Machine.run_cons_some.mp hrun
    have hopen : s.quit = false := by
      by_contra hset
      have hlast := run_quit hrun (by simpa using hset)
      simp [hquit] at hlast
    have hlength := held_length hdone hstep
    rw [executed_cons, List.length_append, Machine.total_cons]
    rcases step_ahead hdone hopen hstep hi with hcalled | hnearer
    · omega
    · by_cases hcalled : i < l.executed.toList.length
      · omega
      · have htail := ih (step_batchDone hdone hstep) hrest (i := i - l.executed.toList.length) (by omega)
        rw [Nat.sub_sub] at htail
        omega

/-! ## A call of `quit` -/

theorem step_heeds {s u : EventLoop τ φ} {l : Label τ φ} (h : s.Heeds) (hstep : step s l = some u) : u.Heeds := by
  cases l with
  | queueInLoop t cb =>
    obtain ⟨hmay, rfl⟩ := Machine.guard_some.mp hstep
    exact queueInLoop_heeds h hmay cb
  | runInLoop t cb =>
    obtain ⟨hmay, rfl⟩ := Machine.guard_some.mp hstep
    unfold runInLoop
    split
    · exact h
    · exact queueInLoop_heeds h hmay cb
  | quit t =>
    obtain ⟨hmay, rfl⟩ := Machine.guard_some.mp hstep
    by_cases ht : t = s.threadId
    · exact heeds_of_pc (s := s.setQuit t) (mayCall_polling (s := s) hmay ht)
    · refine ⟨fun hcall => h.owner ?_, fun _ _ => covered_of_call ht ?_⟩
      · rwa [setQuit, show (EventLoop.setCall { s with quit := true } t .quitSet).threadId = s.threadId from rfl,
          setCall_other _ _ (Ne.symm ht)] at hcall
      · rw [setQuit, setCall_self]
        decide
  | queueTest t =>
    obtain ⟨hcall, rfl⟩ := Machine.guard_some.mp hstep
    refine h.setCall (fun ht => h.owner (by simp [← ht, hcall])) fun ht => ?_
    simp [isInLoopThread, Ne.symm ht]
  | quitTest t =>
    obtain ⟨hcall, rfl⟩ := Machine.guard_some.mp hstep
    refine h.setCall (fun ht => h.owner (by simp [← ht, hcall])) fun ht => ?_
    simp [isInLoopThread, Ne.symm ht]
  | wakeup t =>
    obtain ⟨hcall, rfl⟩ := Machine.guard_some.mp hstep
    exact wakeup_heeds h (by simp [hcall])
  | testQuit =>
    obtain ⟨hat, rfl⟩ := Machine.guard_some.mp hstep
    refine ⟨fun hcall => absurd hat.2 hcall, fun hquit hpoll => ?_⟩
    simp only at hquit hpoll
    simp [hquit] at hpoll
  | loop | poll | handleRead | doPendingFunctors | swap | callFunctor | returned | endBatch =>
    obtain ⟨-, rfl⟩ := Machine.guard_some.mp hstep
    exact heeds_of_pc (by simp)

/-! ## The loop's thread -/

/-- Where the loop does not sleep unannounced and no call is under way, its thread can go on by itself. -/
theorem goes_on {s : EventLoop τ φ} (hcovered : s.pc = .polling → s.Covered) (hpc : s.pc ≠ .outside)
    (hquiet : ∀ t, s.calls t = .idle) : ∃ l u, l.Turns ∧ step s l = some u := by
  have hidle := hquiet s.threadId
  cases hat : s.pc with
  | outside => exact absurd hat hpc
  | testing => exact ⟨.testQuit, _, rfl, if_pos ⟨hat, hidle⟩⟩
  | polling =>
    have hfd : 0 < s.eventfd := by
      rcases hcovered hat with hfd | ⟨t, -, hcall⟩
      · exact hfd
      · exact absurd (hquiet t) hcall
    exact ⟨.poll true, _, rfl, if_pos ⟨⟨hat, hidle⟩, fun _ => hfd⟩⟩
  | handling eventfd =>
    cases eventfd with
    | true => exact ⟨.handleRead, _, rfl, if_pos ⟨hat, hidle⟩⟩
    | false => exact ⟨.doPendingFunctors, _, rfl, if_pos ⟨hat, hidle⟩⟩
  | swapping => exact ⟨.swap, _, rfl, if_pos ⟨hat, hidle⟩⟩
  | draining =>
    cases hruns : s.tempRuns with
    | nil => exact ⟨.endBatch, _, rfl, if_pos ⟨⟨hat, hidle⟩, hruns⟩⟩
    | cons task rest => exact ⟨.callFunctor task, _, rfl, if_pos ⟨⟨hat, hidle⟩, by rw [hruns]; rfl⟩⟩
  | running => exact ⟨.returned, _, rfl, if_pos ⟨hat, hidle⟩⟩

/-- The functor at place `i` of what the loop holds is called within `2 * i + 8` turns of the loop, whatever other
threads do and queue, unless the loop is told to quit. Where the loop's thread calls the member functions inside
`loop()` only, the next turn there is always possible without an event, once the calls under way are over. -/
theorem functors_called_in_time (threadId : τ) (labels : List (Label τ φ)) (s : EventLoop τ φ)
    (hrun : Machine.run step (init threadId) labels = some s) :
    (∀ more u i, Machine.run step s more = some u → u.quit = false → i < s.held.length →
      2 * i + 8 ≤ Machine.total Label.turn more → (executed more)[i]? = s.held[i]?) ∧
    (Machine.Meets step OwnerInside (init threadId) labels → s.held ≠ [] → s.pc ≠ .outside →
      (∀ t, s.calls t = .idle) → ∃ l u, l.Turns ∧ step s l = some u) := by
  have hdone : s.BatchDone := run_batchDone (fun _ _ => rfl) hrun
  refine ⟨fun more u i hmore hquit hi hturns => ?_,
    fun hinside hheld hpc hquiet => goes_on (fun hpoll => ?_) hpc hquiet⟩
  · have hcalled : i < (executed more).length := by
      rcases run_ahead hdone hmore hquit hi with hcalled | hahead
      · exact hcalled
      · have hle := s.ahead_le i
        -- Not one turn is left, and `ahead` is never zero.
        have hpos : 0 < u.ahead (i - (executed more).length) := by
          unfold ahead
          split <;> first | omega | (split <;> omega)
        omega
    have hconserves := run_conserves hdone hmore
    calc (executed more)[i]? = (executed more ++ (u.tempRuns ++ u.pendingFunctors))[i]? :=
          (List.getElem?_append_left hcalled).symm
      _ = (s.held ++ pushed s.threadId more)[i]? := by rw [← hconserves, held]
      _ = s.held[i]? := List.getElem?_append_left hi
  · have hawake : s.Awake := Machine.run_invariant_of_meets (fun _ _ _ h hC hstep => step_awake h hC hstep)
      (init_awake threadId) hinside hrun
    have hempty : s.tempRuns = [] := hdone (by simp [hpoll]) (by simp [hpoll])
    refine hawake.covered ⟨hpoll, hquiet s.threadId⟩ (by simp) fun hnone => hheld ?_
    rw [held, hempty, hnone]
    rfl

/-- Once `_quit` is set, `loop()` returns within two turns for each functor that the loop holds, six more, and two for
each functor that is queued meanwhile. Until then the next turn is always possible without an event, once the calls
under way are over. -/
theorem quit_returns (threadId : τ) (labels : List (Label τ φ)) (s : EventLoop τ φ)
    (hrun : Machine.run step (init threadId) labels = some s) (hquit : s.quit = true) :
    (∀ more u, Machine.run step s more = some u →
      Machine.total Label.turn more ≤ 2 * s.held.length + 6 + Machine.total Label.delays more) ∧
    (s.pc ≠ .outside → (∀ t, s.calls t = .idle) → ∃ l u, l.Turns ∧ step s l = some u) := by
  have hheeds : s.Heeds := Machine.run_invariant (fun _ _ _ h hstep => step_heeds h hstep) (init_heeds threadId) hrun
  refine ⟨fun more u hmore => ?_, goes_on (hheeds.quit hquit)⟩
  have hpays : Machine.total Label.turn more + u.left ≤ s.left + Machine.total Label.delays more := by
    refine Machine.run_potential (I := fun t => t.quit = true) (fun _ _ _ h hstep => step_quit hstep h) ?_ hquit hmore
    exact fun _ _ _ h hstep => step_left h hstep
  have hleft : s.left ≤ 2 * s.held.length + 6 := by
    simp only [left, held, List.length_append]
    split <;> omega
  omega

/-- The loop sleeps on an empty queue, and two other threads queue a functor. -/
def asleep : List (Label Nat Nat) := [.loop, .testQuit, .queueInLoop 1 7, .queueTest 1, .wakeup 1, .queueInLoop 2 8]

def wakes : List (Label Nat Nat) :=
  [.poll true, .queueTest 2, .handleRead, .wakeup 2, .doPendingFunctors, .swap, .callFunctor ⟨1, 7⟩, .returned,
    .callFunctor ⟨2, 8⟩, .queueInLoop 1 9, .queueTest 1, .returned, .endBatch, .testQuit]

theorem functors_called_in_time_asleep : (executed wakes)[1]? = some ⟨2, 8⟩ := by
  have hrun : Machine.run step (init 0) asleep = some _ := rfl
  exact (functors_called_in_time 0 asleep _ hrun).1 wakes _ 1 rfl rfl (by decide) (by decide)

theorem quit_returns_asleep : ∃ s, Machine.run step (init 0) (asleep ++ [.quit 3]) = some s ∧
    Machine.total Label.turn wakes ≤ 2 * s.held.length + 6 + Machine.total Label.delays wakes := by
  have hrun : Machine.run step (init 0) (asleep ++ [.quit 3]) = some _ := rfl
  exact ⟨_, hrun, (quit_returns 0 _ _ hrun rfl).1 wakes _ rfl⟩

end Muduo.EventLoop
