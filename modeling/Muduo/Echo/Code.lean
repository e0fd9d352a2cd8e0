import Muduo.Connection.Stream
import Muduo.EventLoop.Code
import Muduo.ThreadPool

/-! # The echo servers

`examples/EchoServerMultCalcThread` on connections that stay open: the loop reads a message, a worker of the pool
answers it, and the answer goes back through the queue of the loop. Without threads in the pool `addTask` calls `echo`
in the loop's thread, which then does what `onMessage` of the other two echo servers does.
-/

namespace Muduo

/-- The connections are `κ` and the workers `τ`. The thread of the loop is `none`. -/
structure Echo (κ τ : Type*) where
  links : κ → Link
  /-- `_threadpool`, where a task is `echo` on a message and a connection. -/
  threadpool : ThreadPool τ (κ × List Byte)
  /-- `_pLoop`, where a functor is one of a connection. -/
  pLoop : EventLoop (Option τ) (κ × Functor)
  /-- The workers whose `echo` has called `send`. -/
  sent : Finset τ
  /-- What `readFd` read from each connection. -/
  received : κ → List Byte
  /-- The messages of `onMessage`, in order. -/
  messages : List (κ × List Byte)
  /-- What `sendInLoop` was called with, in order. -/
  replies : List (κ × List Byte)

/-- Whether a call of the member function queues `onWriteComplateCB`. -/
def Link.completes (s : Link) : Link.Event → Bool
  | .sendInLoop message w => .queueInLoop .onWriteComplateCB ∈ (s.conn.sendInLoop message w).effects
  | .handleWrite w => .queueInLoop .onWriteComplateCB ∈ (s.conn.handleWrite w).effects
  | .handleRead _ => false

namespace Echo

variable {κ τ : Type*}

inductive Label (κ τ : Type*) where
  /-- A turn of the loop in `ThreadPool::start`. -/
  | startThread (t : τ) (created : Bool)
  /-- `EPOLLIN` on a connection. `notify` wakes these workers, and `w` is for a `send` in the loop's thread. -/
  | handleRead (c : κ) (res : Buffer.ReadResult) (woken : Finset τ) (w : WriteResult)
  /-- `EPOLLOUT` on a connection. -/
  | handleWrite (c : κ) (w : WriteResult)
  | take (t : τ)
  | wake (t : τ)
  | resume (t : τ)
  /-- `send` in the `echo` of a worker, up to the end of the locked section of `queueInLoop`. -/
  | send (t : τ)
  /-- `echo` returns in a worker. -/
  | finish (t : τ)
  | callFunctor (task : EventLoop.Task (Option τ) (κ × Functor)) (w : WriteResult)
  /-- The loop outside its handlers and functors, and the rest of a call of `queueInLoop`. -/
  | loop (l : EventLoop.Label (Option τ) (κ × Functor))

/-- What `echo` sends. -/
def echo (msg : List Byte) : List Byte := msg ++ [10]

def init (sockfd : κ → Int) : Echo κ τ :=
  { links := fun c => .init (sockfd c)
    threadpool := .init
    pLoop := .init none
    sent := ∅
    received := fun _ => []
    messages := []
    replies := [] }

variable [DecidableEq κ] [DecidableEq τ]

/-! ## In the loop's thread -/

/-- The server after a member function of a connection. -/
def after (s : Echo κ τ) (c : κ) (e : Link.Event) : Echo κ τ :=
  { s with
    links := Function.update s.links c ((s.links c).next e)
    pLoop := if (s.links c).completes e then s.pLoop.queueInLoop none (c, .onWriteComplateCB) else s.pLoop }

/-- A call that throws ends the process and is left out. -/
def call (s : Echo κ τ) (c : κ) (e : Link.Event) : Option (Echo κ τ) :=
  if (s.links c).Possible e ∧ ((s.links c).next e).raised = false then some (s.after c e) else none

def sendInLoop (s : Echo κ τ) (c : κ) (message : List Byte) (w : WriteResult) : Option (Echo κ τ) :=
  (s.call c (.sendInLoop message w)).map fun s => { s with replies := s.replies ++ [(c, message)] }

/-- The link behind `retrieveAllAsString`. -/
def drained (s : Link) : Link := { s with conn := { s.conn with inBuf := s.conn.inBuf.retrieveAllAsString.1 } }

/-- `onMessage` up to its call of `addTask`. -/
def retrieve (s : Echo κ τ) (c : κ) : Echo κ τ :=
  { s with
    links := Function.update s.links c (drained (s.links c))
    messages := s.messages ++ [(c, (s.links c).conn.inBuf.retrieveAllAsString.2)] }

def onMessage (s : Echo κ τ) (c : κ) (woken : Finset τ) (w : WriteResult) : Option (Echo κ τ) :=
  let msg := (s.links c).conn.inBuf.retrieveAllAsString.2
  let s := s.retrieve c
  (s.threadpool.step (.addTask (some (c, msg)) woken)).bind fun threadpool =>
    -- Without threads `addTask` is in `echo` now, and `send` is in the loop's thread.
    if s.threadpool.threads = 0 then { s with threadpool }.sendInLoop c (echo msg) w else some { s with threadpool }

def read : Buffer.ReadResult → List Byte
  | .ok data => data
  | .error _ => []

def handleRead (s : Echo κ τ) (c : κ) (res : Buffer.ReadResult) (woken : Finset τ) (w : WriteResult) :
    Option (Echo κ τ) :=
  (s.call c (.handleRead res)).bind fun u =>
    if ((s.links c).conn.handleRead res).2 = .onMessage then
      { u with received := Function.update u.received c (u.received c ++ read res) }.onMessage c woken w
    else some u

/-- The loop's thread is in the handlers, between two of them. -/
def InHandlers (s : Echo κ τ) : Prop := s.pLoop.At (.handling true) ∨ s.pLoop.At (.handling false)

instance (s : Echo κ τ) : Decidable s.InHandlers :=
  inferInstanceAs (Decidable (s.pLoop.At (.handling true) ∨ s.pLoop.At (.handling false)))

def callFunctor (s : Echo κ τ) (task : EventLoop.Task (Option τ) (κ × Functor)) (w : WriteResult) :
    Option (Echo κ τ) :=
  (s.pLoop.step (.callFunctor task)).bind fun pLoop =>
    match task.cb.2 with
    | .onMessageCB message => { s with pLoop }.sendInLoop task.cb.1 message w
    | .onWriteComplateCB => some { s with pLoop }

/-! ## In a worker -/

def send (s : Echo κ τ) (t : τ) (c : κ) (msg : List Byte) : Option (Echo κ τ) :=
  (s.pLoop.step (.runInLoop (some t) (c, .onMessageCB (echo msg)))).map fun pLoop =>
    { s with pLoop, sent := insert t s.sent }

/-! ## Steps -/

/-- Nobody calls `quit`, and the calls of `queueInLoop` and the functors have labels of their own. -/
def Own : EventLoop.Label (Option τ) (κ × Functor) → Bool
  | .queueInLoop _ _ | .runInLoop _ _ | .quit _ | .quitTest _ | .callFunctor _ => false
  | _ => true

def step (s : Echo κ τ) : Label κ τ → Option (Echo κ τ)
  | .startThread t created =>
    if s.pLoop.At .outside then
      (s.threadpool.step (.start t created)).map fun threadpool => { s with threadpool }
    else none
  | .handleRead c res woken w => if s.InHandlers then s.handleRead c res woken w else none
  | .handleWrite c w => if s.InHandlers then s.call c (.handleWrite w) else none
  | .take t => (s.threadpool.step (.take t)).map fun threadpool => { s with threadpool }
  | .wake t => (s.threadpool.step (.wake t)).map fun threadpool => { s with threadpool }
  | .resume t => (s.threadpool.step (.resume t)).map fun threadpool => { s with threadpool }
  | .send t =>
    match s.threadpool.running t with
    | some (c, msg) => if t ∉ s.sent then s.send t c msg else none
    | none => none
  | .finish t =>
    if t ∈ s.sent ∧ s.pLoop.calls (some t) = .idle then
      (s.threadpool.step (.finish t)).map fun threadpool => { s with threadpool, sent := s.sent.erase t }
    else none
  | .callFunctor task w => s.callFunctor task w
  | .loop l => if Own l then (s.pLoop.step l).map fun pLoop => { s with pLoop } else none

end Echo

end Muduo
