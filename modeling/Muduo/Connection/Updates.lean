import Muduo.Connection.Code

/-! # How a connection updates its channel

A member function of a connection leaves its channel alone or updates it once, and the channel is in the interest list
as it was updated last.
-/

namespace Muduo

/-! ## Calls -/

namespace Channel

/-- The channel has been updated, or nothing that epoll is told has changed. -/
inductive Updated (ch : Channel) : Channel → List Ctl → Prop where
  | same {ch' : Channel} (sockfd : ch'.sockfd = ch.sockfd) (index : ch'.index = ch.index)
      (events : ch'.events = ch.events) : ch.Updated ch' []
  | updated (mid : Channel) (sockfd : mid.sockfd = ch.sockfd) (index : mid.index = ch.index ∨ mid.index = .kDeleted) :
      ch.Updated mid.update.1 [mid.update.2]

theorem Updated.refl (ch : Channel) : ch.Updated ch [] := .same rfl rfl rfl

theorem enableReading_updated (ch : Channel) : ch.Updated ch.enableReading.1 [ch.enableReading.2] :=
  .updated { ch with events := ch.events ||| EPOLLIN } rfl (Or.inl rfl)

theorem enableWriting_updated (ch : Channel) : ch.Updated ch.enableWriting.1 [ch.enableWriting.2] :=
  .updated { ch with events := ch.events ||| EPOLLOUT } rfl (Or.inl rfl)

theorem disableWriting_updated (ch : Channel) : ch.Updated ch.disableWriting.1 [ch.disableWriting.2] :=
  .updated { ch with events := ch.events &&& ~~~EPOLLOUT } rfl (Or.inl rfl)

end Channel

namespace Link

/-- What these effects ask of epoll. -/
def ctls (effects : List Effect) : List Ctl :=
  effects.filterMap fun
    | .epollCtl ctl => some ctl
    | _ => none

theorem ctls_append (effects effects' : List Effect) :
    ctls (effects ++ effects') = ctls effects ++ ctls effects' :=
  List.filterMap_append

end Link

namespace TcpConnection

theorem bufferRest_updated (c : TcpConnection) (message : List Byte) (n : Int) :
    c.pSocketChannel.Updated (c.bufferRest message n).conn.pSocketChannel
      (Link.ctls (c.bufferRest message n).effects) := by
  unfold bufferRest
  split
  · split
    · exact .refl _
    · dsimp only
      split
      · exact .refl _
      · exact c.pSocketChannel.enableWriting_updated
  · exact .refl _

theorem sendInLoop_updated (c : TcpConnection) (message : List Byte) (w : WriteResult) :
    c.pSocketChannel.Updated (c.sendInLoop message w).conn.pSocketChannel
      (Link.ctls (c.sendInLoop message w).effects) := by
  unfold sendInLoop
  split
  · -- The direct write asks epoll for nothing.
    have hctls : Link.ctls (.write message w :: if w.n = toInt message.length then
        [.queueInLoop .onWriteComplateCB] else []) = [] := by
      split <;> rfl
    have hrest := c.bufferRest_updated message w.n
    dsimp only
    rw [Call.behind_conn, Call.behind_effects, Link.ctls_append, hctls, List.nil_append]
    exact hrest
  · exact c.bufferRest_updated message 0

theorem handleWrite_updated (c : TcpConnection) (w : WriteResult) :
    c.pSocketChannel.Updated (c.handleWrite w).conn.pSocketChannel (Link.ctls (c.handleWrite w).effects) := by
  unfold handleWrite
  split
  · dsimp only
    split
    · split
      · exact c.pSocketChannel.disableWriting_updated
      · exact .refl _
    · exact .refl _
  · exact .refl _

theorem handleRead_channel (c : TcpConnection) (res : Buffer.ReadResult) :
    (c.handleRead res).1.pSocketChannel = c.pSocketChannel := by
  cases res <;> simp only [handleRead] <;> split <;> rfl

end TcpConnection

/-! ## Entries -/

section

variable {κ : Type*}

/-- What these calls of `epoll_ctl` for `a` make of an interest list. -/
def register (a : κ) (interest : Interest κ) (ctls : List Ctl) : Interest κ :=
  ctls.foldl (fun interest ctl => epollCtl a ctl interest) interest

/-- The interest list has an entry for the channel of `a` exactly if it is registered. -/
def Channel.Mirrored (ch : Channel) (a : κ) (interest : Interest κ) : Prop :=
  0 ≤ ch.sockfd → interest ch.sockfd = if ch.index = .kAdded then some (a, ch.events) else none

theorem epollCtl_of_ne (a : κ) (ctl : Ctl) (interest : Interest κ) {fd : Int} (hfd : fd ≠ ctl.fd) :
    epollCtl a ctl interest fd = interest fd := by
  unfold epollCtl
  cases ctl.op <;> cases interest ctl.fd <;> simp only [Function.update_of_ne hfd]
  split
  · rw [Function.update_of_ne hfd]
  · rfl

theorem epollCtl_invalid (a : κ) {ctl : Ctl} {interest : Interest κ} (hfd : ctl.fd < 0)
    (hnone : interest ctl.fd = none) : epollCtl a ctl interest = interest := by
  unfold epollCtl
  rw [hnone]
  cases ctl.op
  · exact if_neg (not_le.mpr hfd)
  · rfl
  · rfl

namespace Channel.Updated

variable {ch ch' : Channel} {ctls : List Ctl}

theorem sockfd (h : ch.Updated ch' ctls) : ch'.sockfd = ch.sockfd := by
  cases h with
  | same hsockfd hindex hevents => exact hsockfd
  | updated mid hsockfd hindex => rw [update_sockfd, hsockfd]

theorem mirrored (h : ch.Updated ch' ctls) {a : κ} {interest : Interest κ} (hm : ch.Mirrored a interest) :
    ch'.Mirrored a (register a interest ctls) := by
  cases h with
  | same hsockfd hindex hevents =>
    intro hfd
    rw [hsockfd] at hfd ⊢
    rw [hindex, hevents]
    exact hm hfd
  | updated mid hsockfd hindex =>
    intro hfd
    rw [update_sockfd, hsockfd] at hfd
    have hentry := hm hfd
    have hctl : register a interest [mid.update.2] = Function.update interest mid.sockfd
        (if mid.index = .kDeleted then none else some (a, mid.events)) := by
      refine epollCtl_update (fun hnew => ?_) fun hadded => ?_
      · have hch := hindex.resolve_right (by rw [hnew]; decide)
        rw [hsockfd, hentry, ← hch, hnew]
        exact ⟨rfl, hfd⟩
      · have hch := hindex.resolve_right (by rw [hadded]; decide)
        rw [hsockfd, hentry, ← hch, hadded]
        exact ⟨_, rfl⟩
    rw [hctl, update_fst, Function.update_self]
    cases mid.index <;> rfl

theorem of_ne (h : ch.Updated ch' ctls) (a : κ) (interest : Interest κ) {fd : Int} (hfd : fd ≠ ch.sockfd) :
    register a interest ctls fd = interest fd := by
  cases h with
  | same hsockfd hindex hevents => rfl
  | updated mid hsockfd hindex =>
    refine epollCtl_of_ne a mid.update.2 interest ?_
    rw [mid.update_ctl.1, hsockfd]
    exact hfd

theorem invalid (h : ch.Updated ch' ctls) (a : κ) {interest : Interest κ} (hfd : ch.sockfd < 0)
    (hnone : interest ch.sockfd = none) : register a interest ctls = interest := by
  cases h with
  | same hsockfd hindex hevents => rfl
  | updated mid hsockfd hindex =>
    refine epollCtl_invalid a ?_ ?_
    · rw [mid.update_ctl.1, hsockfd]
      exact hfd
    · rw [mid.update_ctl.1, hsockfd]
      exact hnone

end Channel.Updated

end

end Muduo
