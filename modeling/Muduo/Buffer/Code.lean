import Muduo.RangeCopy
import Muduo.Machine
import Mathlib.Data.UInt

/-! # `Buffer`

`include/Buffer.h` and `src/Buffer.cc`. The indices are `size_t` in the source and `Nat` here: a
vector holds fewer than `2 ^ 63` bytes, so none of the sums below wraps. An operation is `none`
where it would read or write outside `_buf`.
-/

open RangeCopy

namespace Muduo

/-- A `char`. -/
abbrev Byte := UInt8

structure Buffer where
  buf : List Byte
  readerIndex : Nat
  writerIndex : Nat
  deriving DecidableEq, Repr

namespace Buffer

def kCheapPrepend : Nat := 8

def kInitialSize : Nat := 1024

/-- The constructor. -/
def init (initialSize : Nat) : Buffer :=
  { buf := List.replicate (kCheapPrepend + initialSize) 0
    readerIndex := kCheapPrepend
    writerIndex := kCheapPrepend }

def readableBytes (b : Buffer) : Nat := b.writerIndex - b.readerIndex
def writableBytes (b : Buffer) : Nat := b.buf.length - b.writerIndex
def prependableBytes (b : Buffer) : Nat := b.readerIndex

/-- `vector::resize`: new elements are zero. -/
def resize (b : Buffer) (n : Nat) : Buffer :=
  { b with buf := b.buf.take n ++ List.replicate (n - b.buf.length) 0 }

def prepend (b : Buffer) (data : List Byte) : Option Buffer :=
  if data.length > b.prependableBytes then some b
  else do
    let readerIndex := b.readerIndex - data.length
    let buf ← copyInto b.buf readerIndex data
    return { b with buf, readerIndex }

def retrieve (b : Buffer) (len : Nat) : Buffer :=
  if len < b.readableBytes then { b with readerIndex := b.readerIndex + len }
  else { b with readerIndex := kCheapPrepend, writerIndex := kCheapPrepend }

/-- `string result(peek(), len)` reads `len` bytes from `peek()` on, whatever they are. -/
def retrieveAsString (b : Buffer) (len : Nat) : Option (Buffer × List Byte) := do
  let result ← readRange b.buf b.readerIndex len
  return (b.retrieve len, result)

def retrieveAllAsString (b : Buffer) : Option (Buffer × List Byte) :=
  b.retrieveAsString b.readableBytes

def makeSpace (b : Buffer) (len : Nat) : Option Buffer :=
  if b.writableBytes + b.prependableBytes < len + kCheapPrepend then
    some (b.resize (b.writerIndex + len))
  else do
    let readable := b.readableBytes
    let buf ← copyWithin b.buf b.readerIndex b.writerIndex kCheapPrepend
    return { buf, readerIndex := kCheapPrepend, writerIndex := kCheapPrepend + readable }

def append (b : Buffer) (data : List Byte) : Option Buffer :=
  let roomy := if data.length > b.writableBytes then b.makeSpace data.length else some b
  roomy.bind fun b => do
    let buf ← copyInto b.buf b.writerIndex data
    return { b with buf, writerIndex := b.writerIndex + data.length }

/-! ## Reading from a descriptor -/

/-- What `::readv` did: it filled the offered areas in order with these bytes, or it failed. -/
inductive ReadResult where
  | ok (data : List Byte)
  | error (errno : Int)
  deriving DecidableEq, Repr

def sizeofExtrabuf : Nat := 65536

/-- The bytes that `readFd` offers: the writable area and, if that is small, `extrabuf`. -/
def offered (b : Buffer) : Nat :=
  if b.writableBytes < sizeofExtrabuf then b.writableBytes + sizeofExtrabuf else b.writableBytes

/-- Also gives what `readFd` returns, and `*savedErrno` after it. -/
def readFd (b : Buffer) (savedErrno : Int) : ReadResult → Option (Buffer × Int × Int)
  | .error errno => some (b, -1, errno)
  | .ok data => do
    let writable := b.writableBytes
    -- `vec[0]` is the writable area, and what does not fit there is in `extrabuf`.
    let buf ← copyInto b.buf b.writerIndex (data.take writable)
    let extrabuf := data.drop writable
    let read :=
      if data.length ≤ writable then some { b with buf, writerIndex := b.writerIndex + data.length }
      else Buffer.append { b with buf, writerIndex := buf.length } extrabuf
    read.map (·, (data.length : Int), savedErrno)

/-! ## Runs -/

/-- A call of a public member function. -/
inductive Op where
  | append (data : List Byte)
  | prepend (data : List Byte)
  | retrieve (len : Nat)
  | retrieveAsString (len : Nat)
  | retrieveAllAsString
  | readFd (res : ReadResult)
  deriving DecidableEq, Repr

/-- The new buffer and the bytes that the call returns. -/
def apply (b : Buffer) : Op → Option (Buffer × List Byte)
  | .append data => (b.append data).map (·, [])
  | .prepend data => (b.prepend data).map (·, [])
  | .retrieve len => some (b.retrieve len, [])
  | .retrieveAsString len => b.retrieveAsString len
  | .retrieveAllAsString => b.retrieveAllAsString
  | .readFd res => (b.readFd 0 res).map fun r => (r.1, [])

/-- `retrieveAsString` is called with at most what is readable, and `readv` fills at most what it
was offered. -/
def Allowed (b : Buffer) : Op → Prop
  | .retrieveAsString len => len ≤ b.readableBytes
  | .readFd (.ok data) => data.length ≤ b.offered
  | _ => True

instance (b : Buffer) : (op : Op) → Decidable (b.Allowed op)
  | .retrieveAsString len => inferInstanceAs (Decidable (len ≤ b.readableBytes))
  | .readFd (.ok data) => inferInstanceAs (Decidable (data.length ≤ b.offered))
  | .readFd (.error _) | .append _ | .prepend _ | .retrieve _ | .retrieveAllAsString => .isTrue trivial

def step (b : Buffer) (op : Op) : Option Buffer :=
  if b.Allowed op then (b.apply op).map (·.1) else none

end Buffer

end Muduo
