import Mathlib.Data.List.AList
import Muduo.Client.Code

/-! # The channels of one epoll

The channel operations of `EventLoop`, `TimerQueue`, `Acceptor`, `Connector` and `TcpConnection`, any number of
them on one loop. Epoll knows a channel by its address, and the address of a channel that is gone may be used again.
-/

namespace Muduo

namespace Poller

/-- The value of a `Channel*`. -/
abbrev Addr := Nat

/-- What a channel is a member of. -/
inductive Owner (κ : Type*) where
  | eventLoop
  | timerQueue
  | acceptor
  | connector (k : κ)
  | connection
  deriving DecidableEq, Repr

def Owner.isConnector {κ : Type*} : Owner κ → Bool
  | .connector _ => true
  | .eventLoop | .timerQueue | .acceptor | .connection => false

/-- A `Channel` in memory. -/
structure Object (κ : Type*) where
  owner : Owner κ
  ch : Channel

/-- Where the loop's thread is inside a function with more than one channel operation. -/
inductive Pc where
  | idle
  /-- In `newConnection`, called by `Connector::handleWrite`. -/
  | newConnection (sockfd : Int)
  /-- Behind `new Channel`, in front of `setCallback`. -/
  | constructed (a : Addr)
  deriving DecidableEq, Repr

end Poller

open Poller in
structure Poller (κ : Type*) where
  channels : AList fun _ : Addr => Object κ
  interest : Interest Addr
  isOpen : Int → Bool
  /-- `Connector::_sockFd` -/
  sockFd : κ → Int
  /-- `Connector::_pSockChan` -/
  pSockChan : κ → Option Addr
  /-- What is left of `activeChannels`. -/
  active : List Addr
  pc : Pc

namespace Poller

variable {κ : Type*}

def init : Poller κ :=
  { channels := ∅
    interest := fun _ => none
    isOpen := fun _ => false
    sockFd := fun _ => -1
    pSockChan := fun _ => none
    active := []
    pc := .idle }

/-- An entry that `epoll_wait` returns: the descriptor that is ready, `data.ptr` and `events`. -/
structure Ready where
  fd : Int
  ptr : Addr
  events : Events
  deriving DecidableEq, Repr

inductive Label (κ : Type*) where
  /-- The kernel has returned `fd`, and a constructor makes a channel for it: of the `EventLoop`, its `TimerQueue`, an
  `Acceptor`, or the `TcpConnection` of an accepted `fd`. -/
  | construct (owner : Owner κ) (a : Addr) (fd : Int)
  /-- `setCallback`, and `enableReading` or, in a `Connector`, `enableWriting`. -/
  | enable (a : Addr)
  /-- `Connector::connect`. `fd` and `savedErrno` are what `::socket` and `::connect` return. -/
  | connect (k : κ) (a : Addr) (fd savedErrno : Int)
  /-- `resetChannel`, or the `Connector` is destroyed. -/
  | resetChannel (k : κ)
  | poll (ready : List Ready)
  /-- `handleEvent` of the next active channel. The channel operations of its handlers are steps of their own. -/
  | handleEvent
  /-- `handleEvent` of the next active channel, a `Connector`'s, and `getsockopt` succeeds in `handleWrite`. -/
  | handleWrite
  /-- The `TcpConnection` that `TcpClient::newConnection` makes. -/
  | newConnection (a : Addr)
  /-- In `sendInLoop`. -/
  | enableWriting (a : Addr)
  /-- In `TcpConnection::handleWrite`. -/
  | disableWriting (a : Addr)
  | handleClose (a : Addr)
  /-- `~TimerQueue` -/
  | endTimers (a : Addr)
  /-- A channel is destroyed with its owner, other than a `Connector`. -/
  | destroy (a : Addr)
  /-- A descriptor that no channel uses is closed. -/
  | close (fd : Int)
  deriving DecidableEq, Repr

/-! ## Updates -/

/-- `new Channel(_pLoop, fd)` -/
def newChannel (s : Poller κ) (owner : Owner κ) (a : Addr) (fd : Int) : Poller κ :=
  { s with channels := s.channels.insert a ⟨owner, .init fd⟩ }

/-- A member function of the channel at `a` has run, with its call of `epoll_ctl`. -/
def called (s : Poller κ) (a : Addr) (o : Object κ) (call : Channel × Ctl) : Poller κ :=
  { s with channels := s.channels.insert a { o with ch := call.1 }, interest := epollCtl a call.2 s.interest }

/-- `::close(fd)`, which takes the descriptor out of epoll. -/
def closeFd (s : Poller κ) (fd : Int) : Poller κ :=
  { s with isOpen := Function.update s.isOpen fd false, interest := Function.update s.interest fd none }

/-- `setIndex(kDeleted)` and `disableAll`. -/
def disableChannel (ch : Channel) : Channel × Ctl := (ch.setIndex .kDeleted).disableAll

def Object.enable (o : Object κ) : Channel × Ctl :=
  match o.owner with
  | .connector _ => o.ch.setCallback.enableWriting
  | .eventLoop | .timerQueue | .acceptor | .connection => o.ch.setCallback.enableReading

/-- A descriptor that the kernel may return. -/
def Fresh (s : Poller κ) (fd : Int) : Prop := 0 ≤ fd ∧ s.isOpen fd = false

instance (s : Poller κ) (fd : Int) : Decidable (s.Fresh fd) :=
  inferInstanceAs (Decidable (0 ≤ fd ∧ s.isOpen fd = false))

/-- No channel uses the descriptor. -/
def Unused (s : Poller κ) (fd : Int) : Prop := ∀ e ∈ s.channels.entries, e.2.ch.sockfd ≠ fd

instance (s : Poller κ) (fd : Int) : Decidable (s.Unused fd) :=
  inferInstanceAs (Decidable (∀ e ∈ s.channels.entries, e.2.ch.sockfd ≠ fd))

/-- `Epoll::poll` sets the events of the channels it returns. Where there is no channel any more the result is not
defined. -/
def setRevents (s : Poller κ) : List Ready → Option (Poller κ)
  | [] => some s
  | r :: ready =>
    match s.channels.lookup r.ptr with
    | some o =>
      { s with channels := s.channels.insert r.ptr { o with ch := o.ch.setRevents r.events } }.setRevents ready
    | none => none

/-! ## Steps -/

section

variable [DecidableEq κ]

/-- `_pSockChan.reset(p)` -/
def reset (s : Poller κ) (k : κ) (p : Option Addr) : Poller κ :=
  { s with
    channels :=
      match s.pSockChan k with
      | some a => s.channels.erase a
      | none => s.channels
    pSockChan := Function.update s.pSockChan k p }

def connect (s : Poller κ) (k : κ) (a : Addr) (fd savedErrno : Int) : Poller κ :=
  let s := { s with isOpen := Function.update s.isOpen fd true, sockFd := Function.update s.sockFd k fd }
  match Client.outcome savedErrno with
  | .connecting => { (s.newChannel (.connector k) a fd).reset k (some a) with pc := .constructed a }
  | .retry => s
  | .failed => s.closeFd fd

/-- What `Connector::handleWrite` hands over if it is the next handler: the `Connector` and its channel. -/
def handsOver (s : Poller κ) : Option (κ × Addr × Object κ) :=
  match s.active.head?.bind s.channels.lookup with
  | some ⟨.connector k, ch⟩ =>
    if ch.revents &&& EPOLLOUT = 0 then none
    else (s.pSockChan k).bind fun a => (s.channels.lookup a).map fun o => (k, a, o)
  | _ => none

/-- A channel operation of a member function of `owner`, where it reaches it. -/
def call (s : Poller κ) (owner : Owner κ) (a : Addr) (reaches : Channel → Bool) (f : Channel → Channel × Ctl) :
    Option (Poller κ) :=
  match s.channels.lookup a with
  | some o =>
    if s.pc = .idle ∧ o.owner = owner ∧ o.ch.index ≠ .kNew ∧ reaches o.ch = true then some (s.called a o (f o.ch))
    else none
  | none => none

/-- Its constructor is done, and `~TimerQueue` has run. -/
def Object.MayGo (o : Object κ) : Prop :=
  match o.owner with
  | .eventLoop | .acceptor => True
  | .timerQueue => o.ch.index = .kDeleted
  | .connection => o.ch.index ≠ .kNew
  | .connector _ => False

instance : (o : Object κ) → Decidable o.MayGo
  | ⟨.eventLoop, _⟩ | ⟨.acceptor, _⟩ => .isTrue trivial
  | ⟨.timerQueue, ch⟩ => inferInstanceAs (Decidable (ch.index = .kDeleted))
  | ⟨.connection, ch⟩ => inferInstanceAs (Decidable (ch.index ≠ .kNew))
  | ⟨.connector _, _⟩ => .isFalse id

def step (s : Poller κ) : Label κ → Option (Poller κ)
  | .construct owner a fd =>
    if owner.isConnector = false ∧ s.channels.lookup a = none ∧ s.Fresh fd then
      some ({ s with isOpen := Function.update s.isOpen fd true }.newChannel owner a fd)
    else none
  | .enable a =>
    match s.channels.lookup a with
    | some o =>
      if o.ch.index = .kNew ∨ o.owner = .acceptor then
        some ({ s with pc := if s.pc = Pc.constructed a then .idle else s.pc }.called a o o.enable)
      else none
    | none => none
  | .connect k a fd savedErrno =>
    if s.pc = .idle ∧ s.channels.lookup a = none ∧ s.Fresh fd then some (s.connect k a fd savedErrno) else none
  | .resetChannel k => if s.pc = .idle then some (s.reset k none) else none
  | .poll ready =>
    if s.pc = .idle ∧ s.active = [] ∧ (∀ r ∈ ready, (s.interest r.fd).map Prod.fst = some r.ptr) ∧
        (ready.map Ready.fd).Nodup then
      { s with active := ready.map Ready.ptr }.setRevents ready
    else none
  | .handleEvent =>
    if s.pc = .idle ∧ (s.active.head?.bind s.channels.lookup).isSome then some { s with active := s.active.tail }
    else none
  | .handleWrite =>
    match s.handsOver with
    | some (k, a, o) =>
      if s.pc = .idle ∧ s.isOpen (s.sockFd k) = true then
        some ({ s with active := s.active.tail, pc := .newConnection (s.sockFd k) }.called a o (disableChannel o.ch))
      else none
    | none => none
  | .newConnection a =>
    match s.pc with
    | .newConnection sockfd =>
      if s.channels.lookup a = none then some ({ s with pc := .constructed a }.newChannel .connection a sockfd)
      else none
    | _ => none
  | .enableWriting a => s.call .connection a (fun ch => !ch.isWriting) Channel.enableWriting
  | .disableWriting a => s.call .connection a Channel.isWriting Channel.disableWriting
  | .handleClose a => s.call .connection a (fun _ => true) disableChannel
  | .endTimers a => s.call .timerQueue a (fun _ => true) disableChannel
  | .destroy a =>
    match s.channels.lookup a with
    | some o =>
      if o.MayGo then
        let s := { s with channels := s.channels.erase a }
        some (if o.owner = .timerQueue then s.closeFd o.ch.sockfd else s)
      else none
    | none => none
  | .close fd =>
    if s.isOpen fd = true ∧ s.Unused fd ∧ s.pc ≠ .newConnection fd then some (s.closeFd fd) else none

end

end Poller

end Muduo
