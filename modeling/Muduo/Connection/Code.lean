import Muduo.Channel
import Muduo.Buffer.Proofs

/-! # `TcpConnection`

The member functions of `src/TcpConnection.cc` that the loop's thread runs. What a call does outside
the object, the kernel's part in it included, is a list of effects.
-/

namespace Muduo

/-- `static_cast<int>`, and the conversion of a `ssize_t` to an `int`. -/
def toInt (n : Int) : Int := (n + 0x80000000) % 0x100000000 - 0x80000000

/-- The conversion of an `int` to `size_t`. -/
def toSize (n : Int) : Nat := (n % 0x10000000000000000).toNat

/-- `std::string::substr`: `none` where it throws `out_of_range`. -/
def substr (s : List Byte) (pos n : Nat) : Option (List Byte) :=
  if pos ≤ s.length then some ((s.drop pos).take n) else none

/-- A member function that `std::bind` bound to a plain `this` and that waits in the loop's queue. -/
inductive Functor where
  | onWriteComplateCB
  | onMessageCB (message : List Byte)
  deriving DecidableEq, Repr

/-- What `::write` did: it accepted this many bytes, or it returned -1. -/
inductive WriteResult where
  | ok (k : Nat)
  | error
  deriving DecidableEq, Repr

/-- The result of `::write` as the callers store it, in an `int`. -/
def WriteResult.n : WriteResult → Int
  | .ok k => toInt k
  | .error => -1

def WriteResult.accepted : WriteResult → List Byte → List Byte
  | .ok k, data => data.take k
  | .error, _ => []

/-- `::write` accepts at most what it was offered. -/
def WriteResult.Possible (offered : Nat) : WriteResult → Prop
  | .ok k => k ≤ offered
  | .error => True

instance (offered : Nat) : (w : WriteResult) → Decidable (w.Possible offered)
  | .ok k => inferInstanceAs (Decidable (k ≤ offered))
  | .error => .isTrue trivial

inductive Effect where
  /-- `::write` was offered `data`. -/
  | write (data : List Byte) (w : WriteResult)
  | queueInLoop (f : Functor)
  | epollCtl (ctl : Ctl)
  deriving DecidableEq, Repr

structure TcpConnection where
  sockfd : Int
  /-- `_pUser` is set. -/
  pUser : Bool
  pSocketChannel : Channel
  /-- `_closeCallback` is set. -/
  closeCallback : Bool
  inBuf : WfBuffer
  outBuf : WfBuffer

/-- What a call leaves behind, and whether it ended in an exception. -/
structure Call where
  conn : TcpConnection
  effects : List Effect
  raised : Bool

/-- The same call, with these effects before its own. -/
def Call.behind (call : Call) (effects : List Effect) : Call :=
  { call with effects := effects ++ call.effects }

@[simp]
theorem Call.behind_conn (call : Call) (effects : List Effect) : (call.behind effects).conn = call.conn := rfl

@[simp]
theorem Call.behind_raised (call : Call) (effects : List Effect) : (call.behind effects).raised = call.raised := rfl

@[simp]
theorem Call.behind_effects (call : Call) (effects : List Effect) :
    (call.behind effects).effects = effects ++ call.effects := rfl

namespace TcpConnection

/-- The constructor up to `setCallback`. `enableReading` follows. -/
def init (sockfd : Int) : TcpConnection :=
  { sockfd
    pUser := false
    pSocketChannel := (Channel.init sockfd).setCallback
    closeCallback := false
    inBuf := .init Buffer.kInitialSize
    outBuf := .init Buffer.kInitialSize }

def enableReading (c : TcpConnection) : TcpConnection × Ctl :=
  let (ch, ctl) := c.pSocketChannel.enableReading
  ({ c with pSocketChannel := ch }, ctl)

def setUser (c : TcpConnection) : TcpConnection := { c with pUser := true }

def setUpLayerCloseCallback (c : TcpConnection) : TcpConnection := { c with closeCallback := true }

/-- The part of `sendInLoop` behind the direct write, which left `n`. -/
def bufferRest (c : TcpConnection) (message : List Byte) (n : Int) : Call :=
  if n < toInt message.length then
    match substr message (toSize n) message.length with
    | none => ⟨c, [], true⟩
    | some rest =>
      let c := { c with outBuf := c.outBuf.append rest }
      if c.pSocketChannel.isWriting then ⟨c, [], false⟩
      else
        let (ch, ctl) := c.pSocketChannel.enableWriting
        ⟨{ c with pSocketChannel := ch }, [.epollCtl ctl], false⟩
  else ⟨c, [], false⟩

/-- `w` is what `::write` does if it is called. -/
def sendInLoop (c : TcpConnection) (message : List Byte) (w : WriteResult) : Call :=
  if c.outBuf.readableBytes = 0 then
    let complete := if w.n = toInt message.length then [.queueInLoop .onWriteComplateCB] else []
    (c.bufferRest message w.n).behind (.write message w :: complete)
  else c.bufferRest message 0

def handleWrite (c : TcpConnection) (w : WriteResult) : Call :=
  if c.pSocketChannel.isWriting then
    let write := Effect.write c.outBuf.content w
    if w.n > 0 then
      let c := { c with outBuf := c.outBuf.retrieve (toSize w.n) }
      if c.outBuf.readableBytes = 0 then
        let (ch, ctl) := c.pSocketChannel.disableWriting
        ⟨{ c with pSocketChannel := ch }, [write, .epollCtl ctl, .queueInLoop .onWriteComplateCB], false⟩
      else ⟨c, [write], false⟩
    else ⟨c, [write], false⟩
  else ⟨c, [], false⟩

def ECONNRESET : Int := 104

/-- What `handleRead` goes on with. -/
inductive AfterRead where
  | onMessage | handleClose | nothing
  deriving DecidableEq, Repr

def handleRead (c : TcpConnection) : Buffer.ReadResult → TcpConnection × AfterRead
  | .ok data =>
    if c.pSocketChannel.sockfd < 0 then (c, .nothing)
    else ({ c with inBuf := c.inBuf.readFd data }, if data.length > 0 then .onMessage else .handleClose)
  | .error errno =>
    if c.pSocketChannel.sockfd < 0 then (c, .nothing)
    else (c, if errno = ECONNRESET then .handleClose else .nothing)

/-- The first statements of `handleClose`: the channel leaves epoll. -/
def disableChannel (c : TcpConnection) : TcpConnection × Ctl :=
  let (ch, ctl) := (c.pSocketChannel.setIndex .kDeleted).disableAll
  ({ c with pSocketChannel := ch }, ctl)

end TcpConnection

end Muduo
