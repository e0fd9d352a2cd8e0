import Muduo.Machine
import Mathlib.Logic.Function.Basic

/-! # `EventLoop`

`src/EventLoop.cc` as the threads see it: each locked section and each access to a flag or to the
eventfd is one step. A functor that throws ends the process and is left out.
-/

namespace Muduo

namespace EventLoop

/-- Where the thread that owns the loop is. -/
inductive Pc where
  | outside
  /-- About to test `_quit`. -/
  | testing
  /-- In `epoll_wait`, which has no timeout. -/
  | polling
  /-- In the handlers of the ready channels. The eventfd's own may still be ahead. -/
  | handling (eventfd : Bool)
  /-- In `doPendingFunctors`, before the locked section. -/
  | swapping
  | draining
  /-- In a functor. -/
  | running
  deriving DecidableEq, Repr

/-- Where a thread is in its call of `queueInLoop` or `quit`. -/
inductive Call where
  | idle
  | pushed
  | quitSet
  | waking
  deriving DecidableEq, Repr

/-- A functor in the queue, with the thread that put it there. -/
structure Task (τ φ : Type*) where
  submitter : τ
  cb : φ
  deriving DecidableEq, Repr

end EventLoop

open EventLoop in
structure EventLoop (τ φ : Type*) where
  threadId : τ
  quit : Bool
  callingPendingFunctors : Bool
  pendingFunctors : List (Task τ φ)
  /-- The part of the batch that has not been called. -/
  tempRuns : List (Task τ φ)
  /-- The counter of `_eventfd`. -/
  eventfd : Nat
  pc : Pc
  calls : τ → Call

namespace EventLoop

variable {τ φ : Type*}

inductive Label (τ φ : Type*) where
  | queueInLoop (t : τ) (cb : φ)
  | runInLoop (t : τ) (cb : φ)
  | quit (t : τ)
  /-- The test that follows the locked section of `queueInLoop`. -/
  | queueTest (t : τ)
  /-- The test that follows `_quit = true`. -/
  | quitTest (t : τ)
  | wakeup (t : τ)
  | loop
  | testQuit
  /-- `epoll_wait` returns, with the eventfd or without it. -/
  | poll (eventfd : Bool)
  | handleRead
  | doPendingFunctors
  | swap
  | callFunctor (task : Task τ φ)
  | returned
  | endBatch
  deriving DecidableEq, Repr

/-- The thread that calls a public member function. -/
def Label.caller : Label τ φ → Option τ
  | .queueInLoop t _ | .runInLoop t _ | .quit t => some t
  | _ => none

def init (threadId : τ) : EventLoop τ φ :=
  { threadId
    quit := false
    callingPendingFunctors := false
    pendingFunctors := []
    tempRuns := []
    eventfd := 0
    pc := .outside
    calls := fun _ => .idle }

/-- `write` on a non-blocking eventfd fails where the counter would pass this value. -/
def kMaxEventfd : Nat := 0xfffffffffffffffe

section

variable [DecidableEq τ]

def setCall (s : EventLoop τ φ) (t : τ) (c : Call) : EventLoop τ φ :=
  { s with calls := Function.update s.calls t c }

def isInLoopThread (s : EventLoop τ φ) (t : τ) : Bool := s.threadId = t

/-- The locked section of `queueInLoop`. -/
def queueInLoop (s : EventLoop τ φ) (t : τ) (cb : φ) : EventLoop τ φ :=
  setCall { s with pendingFunctors := s.pendingFunctors ++ [⟨t, cb⟩] } t .pushed

/-- In the loop's thread `cb` is called at once: what it does follows as steps of that thread. -/
def runInLoop (s : EventLoop τ φ) (t : τ) (cb : φ) : EventLoop τ φ :=
  if s.isInLoopThread t then s else s.queueInLoop t cb

def setQuit (s : EventLoop τ φ) (t : τ) : EventLoop τ φ :=
  setCall { s with quit := true } t .quitSet

def queueTest (s : EventLoop τ φ) (t : τ) : EventLoop τ φ :=
  s.setCall t (if !s.isInLoopThread t || s.callingPendingFunctors then .waking else .idle)

def quitTest (s : EventLoop τ φ) (t : τ) : EventLoop τ φ :=
  s.setCall t (if !s.isInLoopThread t then .waking else .idle)

def wakeup (s : EventLoop τ φ) (t : τ) : EventLoop τ φ :=
  setCall { s with eventfd := if s.eventfd < kMaxEventfd then s.eventfd + 1 else s.eventfd } t .idle

/-- A thread is in one call at a time, and the loop's own thread calls nothing while it is busy with
the loop itself. -/
def MayCall (s : EventLoop τ φ) (t : τ) : Prop :=
  s.calls t = .idle ∧ (s.threadId = t → s.pc = .outside ∨ (∃ b, s.pc = .handling b) ∨ s.pc = .running)

instance (s : EventLoop τ φ) (t : τ) : Decidable (s.MayCall t) :=
  decidable_of_iff (s.calls t = .idle ∧ (s.threadId = t →
    s.pc = .outside ∨ (s.pc = .handling false ∨ s.pc = .handling true) ∨ s.pc = .running))
    (by rw [MayCall, Bool.exists_bool])

/-- The loop's own thread goes on where it is. -/
def At (s : EventLoop τ φ) (pc : Pc) : Prop := s.pc = pc ∧ s.calls s.threadId = .idle

instance (s : EventLoop τ φ) (pc : Pc) : Decidable (s.At pc) :=
  inferInstanceAs (Decidable (s.pc = pc ∧ s.calls s.threadId = .idle))

def step [DecidableEq φ] (s : EventLoop τ φ) : Label τ φ → Option (EventLoop τ φ)
  | .queueInLoop t cb => if s.MayCall t then some (s.queueInLoop t cb) else none
  | .runInLoop t cb => if s.MayCall t then some (s.runInLoop t cb) else none
  | .quit t => if s.MayCall t then some (s.setQuit t) else none
  | .queueTest t => if s.calls t = .pushed then some (s.queueTest t) else none
  | .quitTest t => if s.calls t = .quitSet then some (s.quitTest t) else none
  | .wakeup t => if s.calls t = .waking then some (s.wakeup t) else none
  | .loop => if s.At .outside then some { s with pc := .testing } else none
  | .testQuit =>
    if s.At .testing then some { s with pc := if s.quit then .outside else .polling } else none
  | .poll eventfd =>
    if s.At .polling ∧ (eventfd = true → 0 < s.eventfd) then some { s with pc := .handling eventfd } else none
  | .handleRead => if s.At (.handling true) then some { s with eventfd := 0, pc := .handling false } else none
  | .doPendingFunctors =>
    if s.At (.handling false) then some { s with callingPendingFunctors := true, pc := .swapping } else none
  | .swap =>
    if s.At .swapping then some { s with tempRuns := s.pendingFunctors, pendingFunctors := [], pc := .draining }
    else none
  | .callFunctor task =>
    if s.At .draining ∧ s.tempRuns.head? = some task then some { s with tempRuns := s.tempRuns.tail, pc := .running }
    else none
  | .returned => if s.At .running then some { s with pc := .draining } else none
  | .endBatch =>
    if s.At .draining ∧ s.tempRuns = [] then some { s with callingPendingFunctors := false, pc := .testing }
    else none

end

end EventLoop

end Muduo
