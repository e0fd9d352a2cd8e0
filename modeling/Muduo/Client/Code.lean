import Muduo.Server.Code

/-! # `TcpClient` and `Connector`

A client on one loop: `src/TcpClient.cc`, `src/Connector.cc` and the parts of `Channel`, `EventLoop` and
`TcpConnection` that join them. The kernel's answers are part of the labels.
-/

namespace Muduo

/-- A `Channel*`. -/
abbrev Channel.Addr := Nat

namespace Client

/-- A call of `::socket` in `Connector::connect`, by its number. -/
abbrev Attempt := Nat

def EAGAIN : Int := 11
def EBADF : Int := 9
def EINTR : Int := 4
def EADDRINUSE : Int := 98
def EADDRNOTAVAIL : Int := 99
def ENETUNREACH : Int := 101
def EISCONN : Int := 106
def ECONNREFUSED : Int := 111
def EINPROGRESS : Int := 115

/-- The cases of the `switch` in `Connector::connect`. -/
inductive Outcome where
  | connecting | retry | failed
  deriving DecidableEq, Repr

/-- `savedErrno` is 0 where `::connect` succeeds. -/
def outcome (savedErrno : Int) : Outcome :=
  if savedErrno ∈ [0, EINPROGRESS, EINTR, EISCONN] then .connecting
  else if savedErrno ∈ [EAGAIN, EADDRINUSE, EADDRNOTAVAIL, ECONNREFUSED, ENETUNREACH] then .retry
  else .failed

/-- The channel that an epoll entry was made for. -/
inductive Source where
  | attempt (a : Attempt)
  | conn (c : ConnId)
  deriving DecidableEq, Repr

/-- Where the allocator puts the channels and the connections. -/
structure Heap where
  channel : Source → Channel.Addr
  conn : ConnId → TcpConnection.Addr

/-- A heap that uses no address again. -/
def Heap.distinct : Heap where
  channel
    | .attempt a => 2 * a
    | .conn c => 2 * c + 1
  conn := id

/-- A functor in the loop's queue. `of` is the attempt whose channel `_pSockChan` was when `resetChannel` was
queued, and `stopped` says that `stop` queued it. -/
inductive Queued where
  | connect
  | resetChannel (stopped : Bool) (of : Option Attempt)
  | bound (c : ConnId) (f : Functor)
  deriving DecidableEq, Repr

/-- What follows when a callback of the user returns. -/
inductive Rest where
  /-- `onConnection`, called by `newConnection`. -/
  | connected
  | completed
  | read
  /-- `onClose`, called by `handleClose`. Where `_pUser` is null it is not called. -/
  | closed (called : Bool)
  deriving DecidableEq, Repr

inductive Frame where
  | idle
  | user (c : ConnId) (rest : Rest)
  deriving DecidableEq, Repr

inductive Phase where
  /-- `loop` has not been called. -/
  | outside
  | polling | handling | draining
  deriving DecidableEq, Repr

structure Loop where
  phase : Phase
  frame : Frame
  active : List Source
  tempRuns : List Queued
  pendingFunctors : List Queued

structure Conn where
  tcp : TcpConnection
  /-- The references that user code keeps. -/
  held : Nat
  /-- The call of `::socket` whose descriptor it was given. -/
  descriptor : Attempt

/-- What the run shows. -/
inductive Obs where
  | socket (a : Attempt) (fd : Int)
  | close (a : Attempt) (fd : Int)
  /-- `handleWrite` of the attempt's channel calls `newConnection`, and `optval` is what `getsockopt` stored. -/
  | newConnection (a : Attempt) (sockfd optval : Int)
  | resetChannel (of : Option Attempt) (destroyed : Option (Attempt × Index))
  /-- `handleEvent` reads a channel. -/
  | consulted (src : Source) (exists_ : Bool)
  | handler (c : ConnId) (h : Handler)
  | callback (c : ConnId) (cb : Callback)
  | functor (c : ConnId) (f : Functor) (alive : Bool)
  deriving DecidableEq, Repr

/-- What user code does. `fd` and `savedErrno` are what `::socket` and `::connect` return if they are called. -/
inductive Act where
  | send (c : ConnId) (message : List Byte) (w : WriteResult)
  | keep (c : ConnId)
  | drop (c : ConnId)
  /-- It keeps what `TcpClient::connection` returns. -/
  | connection
  | connect (fd savedErrno : Int)
  | start (fd savedErrno : Int)
  | stop
  deriving DecidableEq, Repr

end Client

open Client in
structure Client where
  /-- `TcpClient::_pUser` is set. -/
  user : Bool
  /-- `Connector::_pCallback` is set. -/
  callback : Bool
  sockFd : Int
  pSockChan : Option (Attempt × Channel)
  /-- How often `::socket` has been called, and what it returned. -/
  attempts : Nat
  fds : Attempt → Int
  isOpen : Int → Bool
  /-- How many connections have been made. -/
  size : Nat
  conn : ConnId → Client.Conn
  heap : Heap
  connection : Option ConnId
  interest : Interest Client.Source
  loop : Client.Loop
  crashed : Bool
  trace : List Client.Obs

namespace Client

/-! ## Owners -/

def Frame.holds (c : ConnId) : Frame → Nat
  | .idle => 0
  | .user d _ => if d = c then 1 else 0

/-- `_connection`, what user code keeps, and the reference of the callback that runs. The functors are bound to a
plain `this`. -/
def owners (s : Client) (c : ConnId) : Nat :=
  (if s.connection = some c then 1 else 0) + (s.conn c).held + s.loop.frame.holds c

def alive (s : Client) (c : ConnId) : Bool := 0 < s.owners c

/-- The channel that an epoll entry points to still exists. -/
def Exists (s : Client) : Source → Prop
  | .attempt a => s.pSockChan.map Prod.fst = some a
  | .conn c => s.alive c = true

instance (s : Client) : (src : Source) → Decidable (s.Exists src)
  | .attempt a => inferInstanceAs (Decidable (s.pSockChan.map Prod.fst = some a))
  | .conn c => inferInstanceAs (Decidable (s.alive c = true))

/-- The channels that exist: the `Connector`'s and those of the connections. -/
def channels (s : Client) : List Source :=
  (s.pSockChan.map fun p => Source.attempt p.1).toList ++ ((List.range s.size).filter s.alive).map .conn

/-- The channel that `data.ptr` of an entry points to: its own, or whatever channel is at that address now. -/
def dataPtr (s : Client) (src : Source) : Option Source :=
  if s.Exists src then some src else s.channels.find? fun ch => s.heap.channel ch == s.heap.channel src

/-- The connection that a plain `this` of `c` points to: `c`, or whatever connection lives at its address now. -/
def pointee (s : Client) (c : ConnId) : Option ConnId :=
  if s.alive c then some c else (List.range s.size).find? fun d => s.alive d && s.heap.conn d == s.heap.conn c

/-! ## Updates -/

def observe (s : Client) (o : Obs) : Client := { s with trace := s.trace ++ [o] }

def setFrame (s : Client) (frame : Frame) : Client := { s with loop := { s.loop with frame } }

def setConn (s : Client) (c : ConnId) (k : Conn) : Client := { s with conn := Function.update s.conn c k }

def setTcp (s : Client) (c : ConnId) (tcp : TcpConnection) : Client := s.setConn c { s.conn c with tcp }

def queueInLoop (s : Client) (q : Queued) : Client :=
  { s with loop := { s.loop with pendingFunctors := s.loop.pendingFunctors ++ [q] } }

def control (s : Client) (src : Source) (ctl : Ctl) : Client := { s with interest := epollCtl src ctl s.interest }

/-! ## `TcpConnection` -/

/-- What the connections of a client find around them. They are made with their `shared_ptr`, and there is one
loop. -/
def host : Host Client Unit where
  tcp s c := (s.conn c).tcp
  setTcp := setTcp
  alive := alive
  shared _ _ := true
  queueInLoop s c f := s.queueInLoop (.bound c f)
  control s c ctl := s.control (.conn c) ctl
  consulted s c := s.observe (.consulted (.conn c) (s.alive c))
  handler s c h := s.observe (.handler c h)
  reading s _ c := s.setFrame (.user c .read)
  closing s _ c called := s.setFrame (.user c (.closed called))
  completing s _ c := s.setFrame (.user c .completed)
  callback s c cb := s.observe (.callback c cb)
  setCrashed s crashed := { s with crashed }
  tcp_consulted := fun _ _ => rfl
  tcp_handler := fun _ _ _ => rfl
  alive_handler := fun _ _ _ => rfl

def effect (c : ConnId) (s : Client) (e : Effect) : Client := host.effect c s e

def called (s : Client) (c : ConnId) (call : Call) : Client := host.called s c call

def handleClose (s : Client) (c : ConnId) : Client := host.handleClose s () c

def testOut (s : Client) (c : ConnId) (w : WriteResult) : Client := host.testOut s c w

def handleEvent (s : Client) (c : ConnId) (res : Buffer.ReadResult) (w : WriteResult) : Client :=
  host.handleEvent s () c res w

def callFunctor (s : Client) (c : ConnId) (w : WriteResult) (f : Functor) : Client := host.callFunctor s () c w f

/-! ## `TcpClient` -/

/-- `newConnection` behind `connectEstablished`. -/
def connectionMade (s : Client) (c : ConnId) : Client :=
  { (s.setTcp c (s.conn c).tcp.setUpLayerCloseCallback).setFrame .idle with connection := some c }

/-- Up to the call of `onConnection`, if there is a user. -/
def newConnection (s : Client) (sockfd : Int) : Client :=
  let c := s.size
  let (tcp, ctl) := (TcpConnection.init sockfd).enableReading
  let s := ({ s with size := c + 1 }.setConn c ⟨tcp, 0, s.attempts - 1⟩).control (.conn c) ctl
  if s.user then ((s.setTcp c tcp.setUser).setFrame (.user c .connected)).observe (.callback c .onConnection)
  else s.connectionMade c

def removeConnection (s : Client) (c : ConnId) : Client :=
  if s.connection = some c then { s with connection := none } else s

/-! ## `Connector` -/

/-- `::close(_sockFd)`, in `Connector::connect` only. -/
def close (s : Client) (a : Attempt) : Client :=
  { s with isOpen := Function.update s.isOpen s.sockFd false }.observe (.close a s.sockFd)

/-- `_pSockChan.reset(new Channel(_pLoop, _sockFd))`, and the channel is set up. -/
def newChannel (s : Client) (a : Attempt) : Client :=
  let (ch, ctl) := (Channel.init s.sockFd).setCallback.enableWriting
  { s with pSockChan := some (a, ch) }.control (.attempt a) ctl

/-- `::socket` returns `fd`. -/
def socket (s : Client) (fd : Int) : Client :=
  { s with
    sockFd := fd
    attempts := s.attempts + 1
    fds := Function.update s.fds s.attempts fd
    isOpen := Function.update s.isOpen fd (0 ≤ fd) }.observe (.socket s.attempts fd)

def connect (s : Client) (fd savedErrno : Int) : Client :=
  let a := s.attempts
  let s := s.socket fd
  match outcome savedErrno with
  | .connecting => s.newChannel a
  | .retry => s
  | .failed => s.close a

def start (s : Client) (inLoop : Bool) (fd savedErrno : Int) : Client :=
  if inLoop then s.connect fd savedErrno else s.queueInLoop .connect

def stop (s : Client) : Client := s.queueInLoop (.resetChannel true (s.pSockChan.map Prod.fst))

def resetChannel (s : Client) (of : Option Attempt) : Client :=
  let destroyed := s.pSockChan.map fun (p : Attempt × Channel) => (p.1, p.2.index)
  { s with pSockChan := none }.observe (.resetChannel of destroyed)

/-- `handleWrite` of the channel `ch` of attempt `a`. `getsockopt` fails, or it stores `optval`. -/
def handleWrite (s : Client) (a : Attempt) (ch : Channel) : Option Int → Client
  | none => s
  | some optval =>
    let (ch, ctl) := (ch.setIndex .kDeleted).disableAll
    let s := { s with pSockChan := some (a, ch) }.control (.attempt a) ctl
    let s := s.queueInLoop (.resetChannel false (some a))
    if s.callback then (s.observe (.newConnection a s.sockFd optval)).newConnection s.sockFd
    else { s with crashed := true }

/-- `Channel::handleEvent` for the `Connector`'s channel. `handleClose` and `handleRead` of a `Connector` do
nothing. -/
def handleAttempt (s : Client) (so : Option Int) : Client :=
  match s.pSockChan with
  | some (a, ch) =>
    let s := s.observe (.consulted (.attempt a) true)
    if ch.revents &&& EPOLLOUT ≠ 0 then s.handleWrite a ch so else s
  | none => s

/-! ## The loop -/

/-- A callback of the user returns. -/
def return_ (s : Client) (c : ConnId) (w : WriteResult) : Rest → Client
  | .connected => s.connectionMade c
  | .completed => s.setFrame .idle
  | .read => (s.setFrame .idle).testOut c w
  | .closed _ =>
    let s := if (s.conn c).tcp.closeCallback then s.removeConnection c else s
    (s.setFrame .idle).testOut c w

/-- A call through a plain `this` that points to no connection ends what the model says. -/
def runFunctor (s : Client) (w : WriteResult) (fd savedErrno : Int) : Queued → Client
  | .connect => s.connect fd savedErrno
  | .resetChannel _ of => s.resetChannel of
  | .bound c f =>
    let s := s.observe (.functor c f (s.alive c))
    match s.pointee c with
    | some d => s.callFunctor d w f
    | none => { s with crashed := true }

/-- `inLoop`: the loop's thread acts. What `send` throws there, user code may catch. -/
def act (s : Client) (inLoop : Bool) : Act → Client
  | .send c message w =>
    if inLoop then s.called c ((s.conn c).tcp.sendInLoop message w)
    else s.queueInLoop (.bound c (.onMessageCB message))
  | .keep c => s.setConn c { s.conn c with held := (s.conn c).held + 1 }
  | .drop c => s.setConn c { s.conn c with held := (s.conn c).held - 1 }
  | .connection =>
    match s.connection with
    | some c => s.setConn c { s.conn c with held := (s.conn c).held + 1 }
    | none => s
  | .connect fd savedErrno => { s with callback := true }.start inLoop fd savedErrno
  | .start fd savedErrno => s.start inLoop fd savedErrno
  | .stop => s.stop

/-! ## Steps -/

inductive Label where
  /-- `loop` is called. -/
  | loop
  | poll (events : List (Source × Events))
  /-- The next ready channel. `res`, `w` and `so` are what `readv`, `write` and `getsockopt` do if they are
  called. -/
  | handle (res : Buffer.ReadResult) (w : WriteResult) (so : Option Int)
  | return_ (w : WriteResult)
  | act (a : Act)
  /-- A thread that is not the loop's. -/
  | foreign (a : Act)
  | swap
  | runFunctor (w : WriteResult) (fd savedErrno : Int)
  | endBatch
  deriving DecidableEq, Repr

def init (user : Bool) (heap : Heap) : Client :=
  { user, heap
    callback := false
    sockFd := -1
    pSockChan := none
    attempts := 0
    fds := fun _ => -1
    isOpen := fun _ => false
    size := 0
    conn := fun _ => ⟨TcpConnection.init (-1), 0, 0⟩
    connection := none
    interest := fun _ => none
    loop := ⟨.outside, .idle, [], [], []⟩
    crashed := false
    trace := [] }

/-- The loop's thread is in this phase and runs no handler and no functor. -/
def Ready (s : Client) (phase : Phase) : Prop := s.crashed = false ∧ s.loop.phase = phase ∧ s.loop.frame = .idle

instance (s : Client) (phase : Phase) : Decidable (s.Ready phase) :=
  inferInstanceAs (Decidable (s.crashed = false ∧ s.loop.phase = phase ∧ s.loop.frame = .idle))

/-- The descriptor of a channel that was registered. -/
def fd (s : Client) : Source → Int
  | .attempt a => s.fds a
  | .conn c => (s.conn c).tcp.sockfd

/-- The allocator puts no channel where one is, and no connection where one lives. -/
def Free (s : Client) : Source → Prop
  | .attempt a => ∀ ch ∈ s.channels, s.heap.channel ch ≠ s.heap.channel (.attempt a)
  | .conn c => (∀ ch ∈ s.channels, s.heap.channel ch ≠ s.heap.channel (.conn c)) ∧
    ∀ d ∈ (List.range s.size).filter s.alive, s.heap.conn d ≠ s.heap.conn c

instance (s : Client) : (src : Source) → Decidable (s.Free src)
  | .attempt a => inferInstanceAs (Decidable (∀ ch ∈ s.channels, s.heap.channel ch ≠ s.heap.channel (.attempt a)))
  | .conn c => inferInstanceAs (Decidable ((∀ ch ∈ s.channels, s.heap.channel ch ≠ s.heap.channel (.conn c)) ∧
      ∀ d ∈ (List.range s.size).filter s.alive, s.heap.conn d ≠ s.heap.conn c))

/-- `::socket` fails, and `::connect` with it, or it returns a descriptor that is not open. -/
def Possible (s : Client) (fd savedErrno : Int) : Prop :=
  (fd = -1 ∧ savedErrno = EBADF) ∨ (0 ≤ fd ∧ s.isOpen fd = false ∧ s.interest fd = none ∧
    (outcome savedErrno = .connecting → s.Free (.attempt s.attempts)))

instance (s : Client) (fd savedErrno : Int) : Decidable (s.Possible fd savedErrno) :=
  inferInstanceAs (Decidable ((fd = -1 ∧ savedErrno = EBADF) ∨ (0 ≤ fd ∧ s.isOpen fd = false ∧ s.interest fd = none ∧
    (outcome savedErrno = .connecting → s.Free (.attempt s.attempts)))))

/-- Where the loop's thread runs user code, with the argument of a callback or without one. -/
def userCode (s : Client) : Option (Option ConnId) :=
  match s.loop.frame, s.loop.phase with
  | .user _ (.closed false), _ => none
  | .user c _, _ => some (some c)
  | .idle, .polling => none
  | .idle, _ => some none

/-- User code acts on what it keeps and on the argument of its callback. -/
def MayAct (s : Client) (inLoop : Bool) (arg : Option ConnId) : Act → Prop
  | .send c message w => (arg = some c ∨ 0 < (s.conn c).held) ∧ w.Possible message.length
  | .keep c => arg = some c ∨ 0 < (s.conn c).held
  | .drop c => 0 < (s.conn c).held
  | .connect fd savedErrno | .start fd savedErrno => inLoop = true → s.Possible fd savedErrno
  | .connection | .stop => True

instance (s : Client) (inLoop : Bool) (arg : Option ConnId) : (a : Act) → Decidable (s.MayAct inLoop arg a)
  | .send c message w =>
    inferInstanceAs (Decidable ((arg = some c ∨ 0 < (s.conn c).held) ∧ w.Possible message.length))
  | .keep c => inferInstanceAs (Decidable (arg = some c ∨ 0 < (s.conn c).held))
  | .drop c => inferInstanceAs (Decidable (0 < (s.conn c).held))
  | .connect fd savedErrno | .start fd savedErrno =>
    inferInstanceAs (Decidable (inLoop = true → s.Possible fd savedErrno))
  | .connection | .stop => .isTrue trivial

/-- `setRevents` of a channel. -/
def setChannel (s : Client) (events : Events) : Source → Client
  | .attempt _ =>
    let pSockChan := s.pSockChan.map fun (p : Attempt × Channel) => (p.1, p.2.setRevents events)
    { s with pSockChan }
  | .conn c =>
    let tcp := (s.conn c).tcp
    s.setTcp c { tcp with pSocketChannel := tcp.pSocketChannel.setRevents events }

/-- `Epoll::poll` sets the events of the channels it returns. Where there is none what the model says ends. -/
def setRevents (s : Client) : List (Source × Events) → Client
  | [] => s
  | (src, events) :: rest =>
    match s.dataPtr src with
    | some ch => (s.setChannel events ch).setRevents rest
    | none => { s with crashed := true }.setRevents rest

/-- `getsockopt` fails on a descriptor that is not open, and `readv` and `write` are asked no more than they can. -/
def Answers (s : Client) (res : Buffer.ReadResult) (w : WriteResult) (so : Option Int) : Source → Prop
  | .attempt _ => so.isSome = true → s.isOpen s.sockFd = true ∧ (s.callback = true → s.Free (.conn s.size))
  | .conn c => (s.conn c).tcp.inBuf.raw.Allowed (.readFd res) ∧ w.Possible (s.conn c).tcp.outBuf.readableBytes

instance (s : Client) (res : Buffer.ReadResult) (w : WriteResult) (so : Option Int) :
    (src : Source) → Decidable (s.Answers res w so src)
  | .attempt _ => inferInstanceAs (Decidable (so.isSome = true →
      s.isOpen s.sockFd = true ∧ (s.callback = true → s.Free (.conn s.size))))
  | .conn c => inferInstanceAs (Decidable ((s.conn c).tcp.inBuf.raw.Allowed (.readFd res) ∧
      w.Possible (s.conn c).tcp.outBuf.readableBytes))

/-- `handleEvent` of the channel that `data.ptr` points to. Where there is none what the model says ends. -/
def handle (s : Client) (res : Buffer.ReadResult) (w : WriteResult) (so : Option Int) (src : Source) : Client :=
  match s.dataPtr src with
  | some (.attempt _) => s.handleAttempt so
  | some (.conn c) => s.handleEvent c res w
  | none => { s with crashed := true }

def setLoop (s : Client) (loop : Loop) : Client := { s with loop }

def step (s : Client) : Label → Option Client
  | .loop => if s.Ready .outside then some (s.setLoop { s.loop with phase := .polling }) else none
  | .poll events =>
    if s.Ready .polling ∧ (∀ p ∈ events, (s.interest (s.fd p.1)).map Prod.fst = some p.1) ∧
        (events.map Prod.fst).Nodup then
      some ((s.setRevents events).setLoop { s.loop with phase := .handling, active := events.map Prod.fst })
    else none
  | .handle res w so =>
    match s.loop.active with
    | src :: rest =>
      if s.Ready .handling ∧ ∀ ch ∈ s.dataPtr src, s.Answers res w so ch then
        some ((s.setLoop { s.loop with active := rest }).handle res w so src)
      else none
    | [] => none
  | .return_ w =>
    match s.loop.frame with
    | .user c rest =>
      if s.crashed = false ∧ w.Possible (s.conn c).tcp.outBuf.readableBytes then some (s.return_ c w rest) else none
    | .idle => none
  | .act a =>
    match s.userCode with
    | some arg => if s.crashed = false ∧ s.MayAct true arg a then some (s.act true a) else none
    | none => none
  | .foreign a => if s.crashed = false ∧ s.MayAct false none a then some (s.act false a) else none
  | .swap =>
    if s.Ready .handling ∧ s.loop.active = [] then
      some (s.setLoop
        { s.loop with phase := .draining, tempRuns := s.loop.pendingFunctors, pendingFunctors := [] })
    else none
  | .runFunctor w fd savedErrno =>
    match s.loop.tempRuns with
    | f :: rest =>
      if s.Ready .draining ∧ (f = .connect → s.Possible fd savedErrno) then
        some ((s.setLoop { s.loop with tempRuns := rest }).runFunctor w fd savedErrno f)
      else none
    | [] => none
  | .endBatch =>
    if s.Ready .draining ∧ s.loop.tempRuns = [] then some (s.setLoop { s.loop with phase := .polling }) else none

/-- User code connects, and the connection is made, up to the call of `onConnection`. -/
def connecting (fd : Int) : List Label :=
  [.act (.connect fd EINPROGRESS), .loop, .poll [(.attempt 0, EPOLLOUT)], .handle (.ok []) .error (some 0)]

end Client

end Muduo
