import Muduo.Machine
import Muduo.Connection.Host

/-! # `TcpServer`

A server with its event loops, its connections and their owners: `src/TcpServer.cc`,
`src/Acceptor.cc`, `src/Channel.cc`, `src/EventLoopThreadPool.cc` and the parts of `EventLoop` and
`TcpConnection` that join them. Loop 0 is the base loop, and loops 1 to `n` are the pool's.
-/

namespace Muduo

/-- A `TcpConnection*`. -/
abbrev TcpConnection.Addr := Nat

namespace Server

/-- What `data.ptr` of an epoll entry points to. -/
inductive Source where
  | listen
  | conn (c : ConnId)
  deriving DecidableEq, Repr

/-- A functor in a loop's queue: bound to a `shared_ptr`, or to a plain `this`. -/
inductive Queued where
  | connectEstablished (c : ConnId)
  | bound (c : ConnId) (f : Functor)
  deriving DecidableEq, Repr

/-- The statement of `newConnection`, or of the constructor it calls, that comes next. -/
inductive Stage where
  | enableReading
  | sharedPtr
  | insert
  | setUser
  | setUpLayerCloseCallback
  | runInLoop
  deriving DecidableEq, Repr

/-- What follows when a callback of the user returns. -/
inductive Rest where
  /-- `onConnection`, called by `newConnection`. -/
  | connected
  /-- `onConnection`, called by a functor. -/
  | established
  | completed
  /-- `onMessage`, called by `handleRead`. -/
  | read
  /-- `onClose`, called by `handleClose`. Where `_pUser` is null it is not called. -/
  | closed (called : Bool)
  deriving DecidableEq, Repr

/-- What a loop's thread is executing. -/
inductive Frame where
  | idle
  | newConnection (c : ConnId) (stage : Stage)
  | user (c : ConnId) (rest : Rest)
  deriving DecidableEq, Repr

inductive Phase where
  | polling | handling | draining
  deriving DecidableEq, Repr

structure Loop where
  phase : Phase
  frame : Frame
  active : List Source
  /-- The functors of the batch that have been called. The batch keeps them to its end. -/
  ran : List Queued
  tempRuns : List Queued
  pendingFunctors : List Queued

structure Conn where
  tcp : TcpConnection
  loop : Nat
  /-- A `shared_ptr` has been made of it. -/
  shared : Bool
  /-- The references that user code keeps. -/
  held : Nat

/-- What the run shows. -/
inductive Obs where
  | accepted (fd : Int) (c : ConnId)
  /-- `handleEvent` reads the channel of `c`. -/
  | consulted (c : ConnId) (alive : Bool)
  /-- `ready`: `_pUser` and the close callback are set. -/
  | handler (c : ConnId) (h : Handler) (ready : Bool)
  | callback (c : ConnId) (cb : Callback)
  | functor (c : ConnId) (f : Functor) (alive : Bool)
  deriving DecidableEq, Repr

/-- What user code does with a connection. -/
inductive Act where
  | send (c : ConnId) (message : List Byte) (w : WriteResult)
  | keep (c : ConnId)
  | drop (c : ConnId)
  deriving DecidableEq, Repr

end Server

open Server in
structure Server where
  n : Nat
  /-- `_pUser` is set. -/
  user : Bool
  listenfd : Int
  next : Nat
  /-- How many connections have been made. -/
  size : Nat
  /-- Where the allocator puts each of them. -/
  address : ConnId → TcpConnection.Addr
  conn : ConnId → Conn
  connections : Int → Option ConnId
  interest : Nat → Interest Source
  loops : Nat → Loop
  crashed : Bool
  trace : List Obs

namespace Server

/-! ## Owners -/

def Frame.holds (c : ConnId) : Frame → Nat
  | .idle => 0
  | .newConnection d _ | .user d _ => if d = c then 1 else 0

def Queued.holds (c : ConnId) : Queued → Nat
  | .connectEstablished d => if d = c then 1 else 0
  | .bound _ _ => 0

/-- The references on the loop's stack and in its functors. -/
def Loop.holds (c : ConnId) (lp : Loop) : Nat :=
  lp.frame.holds c + (lp.ran.map (Queued.holds c)).sum + (lp.tempRuns.map (Queued.holds c)).sum +
    (lp.pendingFunctors.map (Queued.holds c)).sum

def fd (s : Server) (c : ConnId) : Int := (s.conn c).tcp.sockfd

/-- The owner count of a connection: its entry in `_connections`, what user code keeps, and what the
loops hold. A connection without owners is destroyed. -/
def owners (s : Server) (c : ConnId) : Nat :=
  (if s.connections (s.fd c) = some c then 1 else 0) + (s.conn c).held +
    ((List.range (s.n + 1)).map fun L => (s.loops L).holds c).sum

def alive (s : Server) (c : ConnId) : Bool := 0 < s.owners c

/-- The connection that a plain `this` of `c` points to: `c`, or whatever connection lives at its address now. -/
def pointee (s : Server) (c : ConnId) : Option ConnId :=
  if s.alive c then some c else (List.range s.size).find? fun d => s.alive d && s.address d == s.address c

/-! ## Updates -/

def observe (s : Server) (o : Obs) : Server := { s with trace := s.trace ++ [o] }

def setLoop (s : Server) (L : Nat) (lp : Loop) : Server := { s with loops := Function.update s.loops L lp }

def setFrame (s : Server) (L : Nat) (frame : Frame) : Server := s.setLoop L { s.loops L with frame }

def setConn (s : Server) (c : ConnId) (k : Conn) : Server := { s with conn := Function.update s.conn c k }

def setTcp (s : Server) (c : ConnId) (tcp : TcpConnection) : Server := s.setConn c { s.conn c with tcp }

def queueInLoop (s : Server) (L : Nat) (f : Queued) : Server :=
  s.setLoop L { s.loops L with pendingFunctors := (s.loops L).pendingFunctors ++ [f] }

/-- `epoll_ctl` on the epoll descriptor of the connection's loop. -/
def control (s : Server) (c : ConnId) (ctl : Ctl) : Server :=
  let L := (s.conn c).loop
  { s with interest := Function.update s.interest L (epollCtl (.conn c) ctl (s.interest L)) }

/-! ## `Channel::handleEvent` -/

def ready (s : Server) (c : ConnId) : Bool := (s.conn c).tcp.pUser && (s.conn c).tcp.closeCallback

/-- What the connections of a server find around them. -/
def host : Host Server Nat where
  tcp s c := (s.conn c).tcp
  setTcp := setTcp
  alive := alive
  shared s c := (s.conn c).shared
  queueInLoop s c f := s.queueInLoop (s.conn c).loop (.bound c f)
  control := control
  consulted s c := s.observe (.consulted c (s.alive c))
  handler s c h := s.observe (.handler c h (s.ready c))
  reading s L c := s.setFrame L (.user c .read)
  closing s L c called := s.setFrame L (.user c (.closed called))
  completing s L c := s.setFrame L (.user c .completed)
  callback s c cb := s.observe (.callback c cb)
  setCrashed s crashed := { s with crashed }
  tcp_consulted := fun _ _ => rfl
  tcp_handler := fun _ _ _ => rfl
  alive_handler := fun _ _ _ => rfl

def effect (c : ConnId) (s : Server) (e : Effect) : Server := host.effect c s e

def called (s : Server) (c : ConnId) (call : Call) : Server := host.called s c call

def revents (s : Server) (c : ConnId) : Events := host.revents s c

def disableChannel (s : Server) (c : ConnId) : Server := host.disableChannel s c

def handleClose (s : Server) (L : Nat) (c : ConnId) : Server := host.handleClose s L c

def testOut (s : Server) (c : ConnId) (w : WriteResult) : Server := host.testOut s c w

def onMessage (s : Server) (L : Nat) (c : ConnId) : Server := host.onMessage s L c

def handleRead (s : Server) (L : Nat) (c : ConnId) (res : Buffer.ReadResult) (w : WriteResult) : Server :=
  host.handleRead s L c res w

def testIn (s : Server) (L : Nat) (c : ConnId) (res : Buffer.ReadResult) (w : WriteResult) : Server :=
  host.testIn s L c res w

def handleEvent (s : Server) (L : Nat) (c : ConnId) (res : Buffer.ReadResult) (w : WriteResult) : Server :=
  host.handleEvent s L c res w

def callFunctor (s : Server) (L : Nat) (c : ConnId) (w : WriteResult) (f : Functor) : Server :=
  host.callFunctor s L c w f

/-! ## `TcpServer` and the user -/

/-- The loop that comes next, round-robin. -/
def getNextLoop (s : Server) : Server × Nat :=
  if s.n = 0 then (s, 0)
  else ({ s with next := if s.next + 1 ≥ s.n then 0 else s.next + 1 }, s.next + 1)

/-- `Acceptor::handleRead` whatever `accept` returned, and `newConnection` up to `enableReading`. -/
def accept (s : Server) (fd : Int) : Server :=
  let (s, ioLoop) := s.getNextLoop
  let c := s.size
  let s := { s with size := c + 1 }.setConn c ⟨TcpConnection.init fd, ioLoop, false, 0⟩
  (s.setFrame 0 (.newConnection c .enableReading)).observe (.accepted fd c)

def removeConnection (s : Server) (c : ConnId) : Server :=
  { s with connections := Function.update s.connections (s.fd c) none }

def connectEstablished (s : Server) (L : Nat) (c : ConnId) (rest : Rest) : Server :=
  if (s.conn c).tcp.pUser then (s.setFrame L (.user c rest)).observe (.callback c .onConnection)
  else s.setFrame L .idle

/-- One statement of `newConnection`. -/
def statement (s : Server) (c : ConnId) : Stage → Server
  | .enableReading =>
    let (tcp, ctl) := (s.conn c).tcp.enableReading
    ((s.setTcp c tcp).control c ctl).setFrame 0 (.newConnection c .sharedPtr)
  | .sharedPtr => (s.setConn c { s.conn c with shared := true }).setFrame 0 (.newConnection c .insert)
  | .insert =>
    { s with connections := Function.update s.connections (s.fd c) (some c) }.setFrame 0 (.newConnection c .setUser)
  | .setUser =>
    (if s.user then s.setTcp c (s.conn c).tcp.setUser else s).setFrame 0 (.newConnection c .setUpLayerCloseCallback)
  | .setUpLayerCloseCallback =>
    (s.setTcp c (s.conn c).tcp.setUpLayerCloseCallback).setFrame 0 (.newConnection c .runInLoop)
  | .runInLoop =>
    if (s.conn c).loop = 0 then s.connectEstablished 0 c .connected
    else (s.queueInLoop (s.conn c).loop (.connectEstablished c)).setFrame 0 .idle

/-- A callback of the user returns. Behind `handleClose`, which either the hang-up or the read reached,
nothing but `if (_revents & EPOLLOUT)` is left: a hang-up is one without `EPOLLIN`. -/
def return_ (s : Server) (L : Nat) (c : ConnId) (w : WriteResult) : Rest → Server
  | .connected | .established | .completed => s.setFrame L .idle
  | .read => (s.setFrame L .idle).testOut c w
  | .closed _ =>
    let s := if (s.conn c).tcp.closeCallback then s.removeConnection c else s
    (s.setFrame L .idle).testOut c w

/-- A call through a plain `this` that points to no connection ends what the model says. -/
def runFunctor (s : Server) (L : Nat) (w : WriteResult) : Queued → Server
  | .connectEstablished c => s.connectEstablished L c .established
  | .bound c f =>
    let s := s.observe (.functor c f (s.alive c))
    match s.pointee c with
    | some d => s.callFunctor L d w f
    | none => { s with crashed := true }

/-- `thread` is the loop whose thread acts, if any. What `send` throws there, user code may catch. -/
def act (s : Server) (thread : Option Nat) : Act → Server
  | .send c message w =>
    if thread = some (s.conn c).loop then s.called c ((s.conn c).tcp.sendInLoop message w)
    else s.queueInLoop (s.conn c).loop (.bound c (.onMessageCB message))
  | .keep c => s.setConn c { s.conn c with held := (s.conn c).held + 1 }
  | .drop c => s.setConn c { s.conn c with held := (s.conn c).held - 1 }

/-! ## Steps -/

inductive Label where
  /-- `epoll_wait` returns these channels with these events. -/
  | poll (L : Nat) (events : List (Source × Events))
  | accept (fd : Int)
  | statement
  /-- The next ready channel. `res` and `w` are what `readv` and `write` do if they are called. -/
  | handle (L : Nat) (res : Buffer.ReadResult) (w : WriteResult)
  | return_ (L : Nat) (w : WriteResult)
  | act (L : Nat) (a : Act)
  /-- A thread that runs no loop. -/
  | foreign (a : Act)
  | swap (L : Nat)
  | runFunctor (L : Nat) (w : WriteResult)
  | endBatch (L : Nat)
  deriving DecidableEq, Repr

def idleLoop : Loop := ⟨.polling, .idle, [], [], [], []⟩

/-- After `start`, with a pool of `n` threads. The entries of the loops' own eventfd and timerfd, which no connection
touches, are left out of `interest`. -/
def init (n : Nat) (user : Bool) (listenfd : Int) (address : ConnId → TcpConnection.Addr) : Server :=
  { n, user, listenfd, address
    next := 0
    size := 0
    conn := fun _ => ⟨TcpConnection.init (-1), 0, false, 0⟩
    connections := fun _ => none
    interest := fun L fd => if L = 0 ∧ fd = listenfd ∧ 0 ≤ fd then some (.listen, EPOLLIN) else none
    loops := fun _ => idleLoop
    crashed := false
    trace := [] }

/-- The thread of loop `L` is in this phase and runs no handler and no functor. -/
def Ready (s : Server) (L : Nat) (phase : Phase) : Prop :=
  s.crashed = false ∧ L ≤ s.n ∧ (s.loops L).phase = phase ∧ (s.loops L).frame = .idle

def Registered (s : Server) (L : Nat) : Source → Prop
  | .listen => (s.interest L s.listenfd).map Prod.fst = some .listen
  | .conn c => (s.interest L (s.fd c)).map Prod.fst = some (.conn c)

/-- `accept` fails, or it returns a descriptor that is not open. -/
def Acceptable (s : Server) (fd : Int) : Prop :=
  fd = -1 ∨ (0 ≤ fd ∧ fd ≠ s.listenfd ∧ s.connections fd = none ∧ ∀ L ∈ List.range (s.n + 1), s.interest L fd = none)

/-- The allocator puts no connection where one lives. -/
def Free (s : Server) (a : TcpConnection.Addr) : Prop := ∀ d ∈ List.range s.size, s.alive d = true → s.address d ≠ a

/-- Where the thread of loop `L` runs user code, with the argument of a callback or without one. -/
def userCode (s : Server) (L : Nat) : Option (Option ConnId) :=
  match (s.loops L).frame, (s.loops L).phase with
  | .user _ (.closed false), _ => none
  | .user c _, _ => some (some c)
  | .idle, .handling | .idle, .draining => some none
  | _, _ => none

/-- User code acts on what it keeps and on the argument of its callback. -/
def MayAct (s : Server) (arg : Option ConnId) : Act → Prop
  | .send c message w => (arg = some c ∨ 0 < (s.conn c).held) ∧ w.Possible message.length
  | .keep c => arg = some c ∨ 0 < (s.conn c).held
  | .drop c => 0 < (s.conn c).held

instance (s : Server) (L : Nat) (phase : Phase) : Decidable (s.Ready L phase) :=
  inferInstanceAs (Decidable (s.crashed = false ∧ L ≤ s.n ∧ (s.loops L).phase = phase ∧ (s.loops L).frame = .idle))

instance (s : Server) (L : Nat) : (src : Source) → Decidable (s.Registered L src)
  | .listen => inferInstanceAs (Decidable ((s.interest L s.listenfd).map Prod.fst = some .listen))
  | .conn c => inferInstanceAs (Decidable ((s.interest L (s.fd c)).map Prod.fst = some (.conn c)))

instance (s : Server) (fd : Int) : Decidable (s.Acceptable fd) :=
  inferInstanceAs (Decidable (fd = -1 ∨ (0 ≤ fd ∧ fd ≠ s.listenfd ∧ s.connections fd = none ∧
    ∀ L ∈ List.range (s.n + 1), s.interest L fd = none)))

instance (s : Server) (a : TcpConnection.Addr) : Decidable (s.Free a) :=
  inferInstanceAs (Decidable (∀ d ∈ List.range s.size, s.alive d = true → s.address d ≠ a))

instance (s : Server) (arg : Option ConnId) : (a : Act) → Decidable (s.MayAct arg a)
  | .send c message w =>
    inferInstanceAs (Decidable ((arg = some c ∨ 0 < (s.conn c).held) ∧ w.Possible message.length))
  | .keep c => inferInstanceAs (Decidable (arg = some c ∨ 0 < (s.conn c).held))
  | .drop c => inferInstanceAs (Decidable (0 < (s.conn c).held))

/-- `Epoll::poll` sets the events of the channels it returns. -/
def setRevents (s : Server) : List (Source × Events) → Server
  | [] => s
  | (.listen, _) :: rest => s.setRevents rest
  | (.conn c, events) :: rest =>
    let tcp := (s.conn c).tcp
    (s.setTcp c { tcp with pSocketChannel := tcp.pSocketChannel.setRevents events }).setRevents rest

def step (s : Server) : Label → Option Server
  | .poll L events =>
    if s.Ready L .polling ∧ (∀ p ∈ events, s.Registered L p.1) ∧ (events.map Prod.fst).Nodup then
      some ((s.setRevents events).setLoop L { s.loops L with phase := .handling, active := events.map Prod.fst })
    else none
  | .accept fd =>
    match (s.loops 0).active with
    | .listen :: rest =>
      if s.Ready 0 .handling ∧ s.Acceptable fd ∧ s.Free (s.address s.size) then
        some ((s.setLoop 0 { s.loops 0 with active := rest }).accept fd)
      else none
    | _ => none
  | .statement =>
    match (s.loops 0).frame with
    | .newConnection c stage => if s.crashed = false then some (s.statement c stage) else none
    | _ => none
  | .handle L res w =>
    match (s.loops L).active with
    | .conn c :: rest =>
      if s.Ready L .handling ∧ (s.conn c).tcp.inBuf.raw.Allowed (.readFd res) ∧
          w.Possible (s.conn c).tcp.outBuf.readableBytes then
        some ((s.setLoop L { s.loops L with active := rest }).handleEvent L c res w)
      else none
    | _ => none
  | .return_ L w =>
    match (s.loops L).frame with
    | .user c rest =>
      if s.crashed = false ∧ L ≤ s.n ∧ w.Possible (s.conn c).tcp.outBuf.readableBytes then some (s.return_ L c w rest)
      else none
    | _ => none
  | .act L a =>
    match s.userCode L with
    | some arg => if s.crashed = false ∧ L ≤ s.n ∧ s.MayAct arg a then some (s.act (some L) a) else none
    | none => none
  | .foreign a => if s.crashed = false ∧ s.MayAct none a then some (s.act none a) else none
  | .swap L =>
    if s.Ready L .handling ∧ (s.loops L).active = [] then
      some (s.setLoop L
        { s.loops L with phase := .draining, tempRuns := (s.loops L).pendingFunctors, pendingFunctors := [] })
    else none
  | .runFunctor L w =>
    match (s.loops L).tempRuns with
    | f :: rest =>
      if s.Ready L .draining then
        some ((s.setLoop L { s.loops L with ran := (s.loops L).ran ++ [f], tempRuns := rest }).runFunctor L w f)
      else none
    | [] => none
  | .endBatch L =>
    if s.Ready L .draining ∧ (s.loops L).tempRuns = [] then
      some (s.setLoop L { s.loops L with phase := .polling, ran := [] })
    else none

/-- A single loop accepts a connection, up to the call of `onConnection`. -/
def accepting (fd : Int) : List Label :=
  [.poll 0 [(.listen, EPOLLIN)], .accept fd, .statement, .statement, .statement, .statement, .statement, .statement]

end Server

end Muduo
