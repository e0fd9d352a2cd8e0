import Mathlib.Logic.Relation
import Muduo.Connection.Code

/-! # The program around a connection

`Channel::handleEvent` for the channel of a `TcpConnection`, the handlers that it calls and the functors, for a
server and a client alike: `src/Channel.cc` and the parts of `src/TcpConnection.cc` that leave the connection.
-/

namespace Muduo

abbrev ConnId := Nat

/-- The member functions of `IMuduoUser`. -/
inductive Callback where
  | onConnection | onMessage | onClose | onWriteComplate
  deriving DecidableEq, Repr

/-- The member functions of `IChannelCallback`. -/
inductive Handler where
  | handleRead | handleWrite | handleClose
  deriving DecidableEq, Repr

/-- What the member functions of a connection find around it. `θ` names the loops. -/
structure Host (σ θ : Type*) where
  tcp : σ → ConnId → TcpConnection
  setTcp : σ → ConnId → TcpConnection → σ
  /-- The connection has not been destroyed, nor has its channel. -/
  alive : σ → ConnId → Bool
  /-- A `shared_ptr` has been made of it. -/
  shared : σ → ConnId → Bool
  /-- Of the connection's loop, with a functor of the connection. -/
  queueInLoop : σ → ConnId → Functor → σ
  /-- `epoll_ctl` on the epoll descriptor of the connection's loop. -/
  control : σ → ConnId → Ctl → σ
  /-- `handleEvent` reads the channel. -/
  consulted : σ → ConnId → σ
  /-- A handler is called. -/
  handler : σ → ConnId → Handler → σ
  /-- The loop's thread is in `handleRead`, and what follows `onMessage` is left to do. -/
  reading : σ → θ → ConnId → σ
  /-- It is in `handleClose`, which calls `onClose` if `_pUser` is set. -/
  closing : σ → θ → ConnId → Bool → σ
  /-- It is in `onWriteComplateCB`. -/
  completing : σ → θ → ConnId → σ
  callback : σ → ConnId → Callback → σ
  /-- What the model says ends where this is set. -/
  setCrashed : σ → Bool → σ
  tcp_consulted : ∀ s c, tcp (consulted s c) c = tcp s c
  tcp_handler : ∀ s c k, tcp (handler s c k) c = tcp s c
  alive_handler : ∀ s c k, alive (handler s c k) c = alive s c

namespace Host

variable {σ θ : Type*} (H : Host σ θ)

/-! ## Code -/

def effect (c : ConnId) (s : σ) : Effect → σ
  | .write _ _ => s
  | .queueInLoop f => H.queueInLoop s c f
  | .epollCtl ctl => H.control s c ctl

/-- A member function of `c` has run. -/
def called (s : σ) (c : ConnId) (call : Call) : σ := call.effects.foldl (H.effect c) (H.setTcp s c call.conn)

def revents (s : σ) (c : ConnId) : Events := (H.tcp s c).pSocketChannel.revents

/-- `handleClose` up to the call of `onClose`. -/
def disableChannel (s : σ) (c : ConnId) : σ :=
  let (tcp, ctl) := (H.tcp s c).disableChannel
  H.control (H.setTcp (H.handler s c .handleClose) c tcp) c ctl

/-- `handleClose` up to the return of `onClose`. Without a `shared_ptr` `shared_from_this` throws. -/
def handleClose (s : σ) (L : θ) (c : ConnId) : σ :=
  let s := H.disableChannel s c
  if H.shared s c then
    let s := H.closing s L c (H.tcp s c).pUser
    if (H.tcp s c).pUser then H.callback s c .onClose else s
  else H.setCrashed s true

/-- `if (_revents & EPOLLOUT)` and what follows it. A channel that is gone ends what the model says. -/
def testOut (s : σ) (c : ConnId) (w : WriteResult) : σ :=
  let s := H.consulted s c
  if H.alive s c && H.revents s c &&& EPOLLOUT != 0 then
    H.called (H.handler s c .handleWrite) c ((H.tcp s c).handleWrite w)
  else s

/-- `handleRead` has read something. Without a user or a `shared_ptr` the call fails. -/
def onMessage (s : σ) (L : θ) (c : ConnId) : σ :=
  if (H.tcp s c).pUser && H.shared s c then H.callback (H.reading s L c) c .onMessage else H.setCrashed s true

def handleRead (s : σ) (L : θ) (c : ConnId) (res : Buffer.ReadResult) (w : WriteResult) : σ :=
  let s := H.handler s c .handleRead
  match (H.tcp s c).handleRead res with
  | (tcp, .onMessage) => H.onMessage (H.setTcp s c tcp) L c
  | (_, .handleClose) => H.handleClose s L c
  | (_, .nothing) => H.testOut s c w

/-- `if (_revents & EPOLLIN)` and what follows it. -/
def testIn (s : σ) (L : θ) (c : ConnId) (res : Buffer.ReadResult) (w : WriteResult) : σ :=
  let s := H.consulted s c
  if H.alive s c then
    if H.revents s c &&& EPOLLIN != 0 then H.handleRead s L c res w else H.testOut s c w
  else s

/-- `_pCallback` is set before the channel is registered. -/
def handleEvent (s : σ) (L : θ) (c : ConnId) (res : Buffer.ReadResult) (w : WriteResult) : σ :=
  let s := H.consulted s c
  if H.alive s c then
    if H.revents s c &&& EPOLLHUP != 0 && H.revents s c &&& EPOLLIN == 0 then H.handleClose s L c
    else H.testIn s L c res w
  else s

/-- The body of a functor. -/
def callFunctor (s : σ) (L : θ) (c : ConnId) (w : WriteResult) : Functor → σ
  | .onWriteComplateCB =>
    if (H.tcp s c).pUser then H.callback (H.completing s L c) c .onWriteComplate else s
  | .onMessageCB message =>
    let call := (H.tcp s c).sendInLoop message w
    H.setCrashed (H.called s c call) call.raised

end Host

/-! ## Events -/

namespace TcpConnection

/-- A hang-up, the end of the stream or a reset closes the connection. -/
def Closes (tcp : TcpConnection) (res : Buffer.ReadResult) : Prop :=
  let revents := tcp.pSocketChannel.revents
  (revents &&& EPOLLHUP ≠ 0 ∧ revents &&& EPOLLIN = 0) ∨
    (revents &&& EPOLLIN ≠ 0 ∧ 0 ≤ tcp.pSocketChannel.sockfd ∧ (res = .ok [] ∨ res = .error ECONNRESET))

instance (tcp : TcpConnection) (res : Buffer.ReadResult) : Decidable (tcp.Closes res) :=
  inferInstanceAs (Decidable ((_ ∧ _) ∨ (_ ∧ _ ∧ (_ ∨ _))))

theorem handleRead_closes {tcp after : TcpConnection} {res : Buffer.ReadResult}
    (h : tcp.handleRead res = (after, .handleClose)) :
    0 ≤ tcp.pSocketChannel.sockfd ∧ (res = .ok [] ∨ res = .error ECONNRESET) := by
  cases res with
  | ok data =>
    simp only [handleRead] at h
    split at h
    · simp at h
    · rename_i hfd
      refine ⟨not_lt.mp hfd, Or.inl ?_⟩
      rw [Prod.mk.injEq] at h
      split at h
      · simp at h
      · rename_i hlen
        rw [List.length_eq_zero_iff.mp (Nat.eq_zero_of_not_pos hlen)]
  | error errno =>
    simp only [handleRead] at h
    split at h
    · simp at h
    · rename_i hfd
      refine ⟨not_lt.mp hfd, Or.inr ?_⟩
      rw [Prod.mk.injEq] at h
      split at h
      · rename_i herrno
        rw [herrno]
      · simp at h

end TcpConnection

namespace Host

variable {σ θ : Type*} (H : Host σ θ) {s t : σ} {c : ConnId}

/-- What `handleEvent` of `c` does before the event is over, or the user hears of it. -/
inductive Move (c : ConnId) (t : σ) : σ → Prop
  | consult : Move c t (H.consulted t c)
  | read (halive : H.alive t c = true) : Move c t (H.handler t c .handleRead)
  | write {w : WriteResult} (halive : H.alive t c = true) :
      Move c t (H.called (H.handler t c .handleWrite) c ((H.tcp t c).handleWrite w))

abbrev Moves (c : ConnId) : σ → σ → Prop := Relation.ReflTransGen (H.Move c)

/-- What `handleEvent` of `c` leads to from `v`, where the channel's events were those of `tcp`. -/
inductive Event (tcp : TcpConnection) (L : θ) (c : ConnId) (res : Buffer.ReadResult) (v : σ) : σ → Prop
  | nothing : Event tcp L c res v v
  | onMessage {after : TcpConnection} (halive : H.alive v c = true)
      (hread : (H.tcp v c).handleRead res = (after, .onMessage)) :
      Event tcp L c res v (H.onMessage (H.setTcp v c after) L c)
  | close (halive : H.alive v c = true) (hcloses : tcp.Closes res) : Event tcp L c res v (H.handleClose v L c)

theorem testOut_moves (s : σ) (c : ConnId) (w : WriteResult) : H.Moves c s (H.testOut s c w) := by
  unfold testOut
  dsimp only
  split
  · rename_i h
    rw [Bool.and_eq_true] at h
    exact (Relation.ReflTransGen.single .consult).tail (.write h.1)
  · exact .single .consult

variable {H}

theorem handleRead_cases (halive : H.alive s c = true) (L : θ) (res : Buffer.ReadResult) (w : WriteResult)
    (hin : H.revents s c &&& EPOLLIN ≠ 0) :
    ∃ v, H.Moves c s v ∧ H.Event (H.tcp s c) L c res v (H.handleRead s L c res w) := by
  have hread : H.Moves c s (H.handler s c .handleRead) := .single (.read halive)
  have hagain : H.alive (H.handler s c .handleRead) c = true := (H.alive_handler s c _).trans halive
  unfold handleRead
  dsimp only
  split
  · rename_i after hresult
    exact ⟨_, hread, .onMessage hagain hresult⟩
  · rename_i after hresult
    rw [H.tcp_handler] at hresult
    exact ⟨_, hread, .close hagain (Or.inr ⟨hin, TcpConnection.handleRead_closes hresult⟩)⟩
  · exact ⟨_, hread.trans (H.testOut_moves _ c w), .nothing⟩

theorem testIn_cases (L : θ) (res : Buffer.ReadResult) (w : WriteResult) :
    ∃ v, H.Moves c s v ∧ H.Event (H.tcp s c) L c res v (H.testIn s L c res w) := by
  have hconsult : H.Moves c s (H.consulted s c) := .single .consult
  unfold testIn
  dsimp only
  split
  · rename_i halive
    split
    · rename_i hin
      rw [bne_iff_ne] at hin
      obtain ⟨v, hmoves, hevent⟩ := handleRead_cases halive L res w hin
      rw [H.tcp_consulted] at hevent
      exact ⟨v, hconsult.trans hmoves, hevent⟩
    · exact ⟨_, hconsult.trans (H.testOut_moves _ c w), .nothing⟩
  · exact ⟨_, hconsult, .nothing⟩

/-- `handleEvent` calls the user once at most, and last. -/
theorem handleEvent_cases (s : σ) (L : θ) (c : ConnId) (res : Buffer.ReadResult) (w : WriteResult) :
    ∃ v, H.Moves c s v ∧ H.Event (H.tcp s c) L c res v (H.handleEvent s L c res w) := by
  have hconsult : H.Moves c s (H.consulted s c) := .single .consult
  unfold handleEvent
  dsimp only
  split
  · rename_i halive
    split
    · rename_i hhup
      rw [Bool.and_eq_true, bne_iff_ne, beq_iff_eq, revents, H.tcp_consulted] at hhup
      exact ⟨_, hconsult, .close halive (Or.inl hhup)⟩
    · obtain ⟨v, hmoves, hevent⟩ := testIn_cases (s := H.consulted s c) L res w
      rw [H.tcp_consulted] at hevent
      exact ⟨v, hconsult.trans hmoves, hevent⟩
  · exact ⟨_, hconsult, .nothing⟩

end Host

end Muduo
