import Muduo.Buffer.Code

/-!
# What a `Buffer` means

A queue of bytes with two ends. `Proofs.lean` shows that the code computes exactly this.
-/

open RangeCopy

namespace Muduo.Buffer

/-- The readable bytes. -/
def content (b : Buffer) : List Byte := slice b.buf b.readerIndex b.writerIndex

/-- The new content and the bytes that the call returns. `room` bytes fit in front of the content. -/
def deque (room : Nat) (content : List Byte) : Op → List Byte × List Byte
  | .append data => (content ++ data, [])
  | .prepend data => (if data.length ≤ room then data ++ content else content, [])
  | .retrieve len => (content.drop len, [])
  | .retrieveAsString len => (content.drop len, content.take len)
  | .retrieveAllAsString => ([], content)
  | .readFd (.ok data) => (content ++ data, [])
  | .readFd (.error _) => (content, [])

/-- The order of the indices in the picture in `Buffer.h`, and the room for `kCheapPrepend` bytes. -/
structure Wf (b : Buffer) : Prop where
  reader_le : b.readerIndex ≤ b.writerIndex
  writer_le : b.writerIndex ≤ b.buf.length
  cheap_le : kCheapPrepend ≤ b.buf.length

/-- `append` of `len` bytes moves the content to the front. -/
def Compacts (b : Buffer) (len : Nat) : Prop :=
  b.writableBytes < len ∧ ¬ b.writableBytes + b.prependableBytes < len + kCheapPrepend

def IsPrepend : Op → Prop
  | .prepend _ => True
  | _ => False

end Muduo.Buffer
