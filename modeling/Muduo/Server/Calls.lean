import Muduo.Server.Steps

/-! # What a connection keeps

Its member functions leave the descriptor, the user and the close callback alone, and a channel that is
deleted stays deleted: `update` takes its descriptor out of epoll from then on.
-/

namespace Muduo

structure TcpConnection.Keeps (tcp after : TcpConnection) : Prop where
  sockfd : after.sockfd = tcp.sockfd
  pUser : after.pUser = tcp.pUser
  closeCallback : after.closeCallback = tcp.closeCallback
  channelfd : after.pSocketChannel.sockfd = tcp.pSocketChannel.sockfd
  deleted : after.pSocketChannel.index = .kDeleted ↔ tcp.pSocketChannel.index = .kDeleted

theorem TcpConnection.Keeps.refl (tcp : TcpConnection) : tcp.Keeps tcp := ⟨rfl, rfl, rfl, rfl, Iff.rfl⟩

/-- A call that keeps these, and asks of epoll only what `update` asks. -/
structure Calm (tcp : TcpConnection) (call : Call) : Prop where
  keeps : tcp.Keeps call.conn
  ctl : ∀ ctl, .epollCtl ctl ∈ call.effects →
    ctl.fd = tcp.pSocketChannel.sockfd ∧ (tcp.pSocketChannel.index = .kDeleted → ctl.op = .del)

namespace TcpConnection

theorem bufferRest_calm (tcp : TcpConnection) (message : List Byte) (n : Int) :
    Calm tcp (tcp.bufferRest message n) := by
  unfold bufferRest
  split
  · split
    · exact ⟨Keeps.refl tcp, by simp⟩
    · simp only
      split
      · exact ⟨⟨rfl, rfl, rfl, rfl, Iff.rfl⟩, by simp⟩
      · have hupdate := Channel.update_deleted
          { tcp.pSocketChannel with events := tcp.pSocketChannel.events ||| EPOLLOUT }
        refine ⟨⟨rfl, rfl, rfl, Channel.update_sockfd _, hupdate⟩, fun ctl hctl => ?_⟩
        rw [List.mem_singleton, Effect.epollCtl.injEq] at hctl
        subst hctl
        exact Channel.update_ctl { tcp.pSocketChannel with events := tcp.pSocketChannel.events ||| EPOLLOUT }
  · exact ⟨Keeps.refl tcp, by simp⟩

theorem sendInLoop_calm (tcp : TcpConnection) (message : List Byte) (w : WriteResult) :
    Calm tcp (tcp.sendInLoop message w) := by
  unfold sendInLoop
  split
  · have hrest := tcp.bufferRest_calm message w.n
    refine ⟨by rw [Call.behind_conn]; exact hrest.keeps, fun ctl hctl => hrest.ctl ctl ?_⟩
    simp only [Call.behind_effects, List.mem_append, List.mem_cons, reduceCtorEq, false_or] at hctl
    refine hctl.resolve_left ?_
    split <;> simp
  · exact tcp.bufferRest_calm message 0

theorem handleWrite_calm (tcp : TcpConnection) (w : WriteResult) : Calm tcp (tcp.handleWrite w) := by
  unfold handleWrite
  split
  · simp only
    split
    · split
      · have hupdate := Channel.update_deleted
          { tcp.pSocketChannel with events := tcp.pSocketChannel.events &&& ~~~EPOLLOUT }
        refine ⟨⟨rfl, rfl, rfl, Channel.update_sockfd _, hupdate⟩, fun ctl hctl => ?_⟩
        simp only [List.mem_cons, reduceCtorEq, false_or, List.not_mem_nil, or_false, Effect.epollCtl.injEq] at hctl
        rw [hctl]
        exact Channel.update_ctl _
      · exact ⟨⟨rfl, rfl, rfl, rfl, Iff.rfl⟩, by simp⟩
    · exact ⟨Keeps.refl tcp, by simp⟩
  · exact ⟨Keeps.refl tcp, by simp⟩

theorem handleRead_keeps {tcp after : TcpConnection} {res : Buffer.ReadResult} {next : AfterRead}
    (h : tcp.handleRead res = (after, next)) : tcp.Keeps after := by
  cases res with
  | ok data =>
    simp only [handleRead] at h
    split at h <;> cases h <;> exact ⟨rfl, rfl, rfl, rfl, Iff.rfl⟩
  | error errno =>
    simp only [handleRead] at h
    split at h <;> cases h <;> exact Keeps.refl _

theorem enableReading_keeps (tcp : TcpConnection) : tcp.Keeps tcp.enableReading.1 :=
  ⟨rfl, rfl, rfl, Channel.update_sockfd _, Channel.update_deleted
    { tcp.pSocketChannel with events := tcp.pSocketChannel.events ||| EPOLLIN }⟩

end TcpConnection

namespace Server

/-- The member functions of connections have run: the table is the same, what is deleted stays so and leaves
epoll, and epoll has new entries for channels that are not deleted. -/
structure Mild (s u : Server) : Prop extends Stable s u where
  connections : u.connections = s.connections
  shared : ∀ c, (s.conn c).shared = true → (u.conn c).shared = true
  pUser : ∀ c, (u.conn c).tcp.pUser = (s.conn c).tcp.pUser
  closeCallback : ∀ c, (u.conn c).tcp.closeCallback = (s.conn c).tcp.closeCallback
  channelfd : ∀ c, (u.conn c).tcp.pSocketChannel.sockfd = (s.conn c).tcp.pSocketChannel.sockfd
  deleted : ∀ c, (s.conn c).tcp.pSocketChannel.index = .kDeleted → (u.conn c).tcp.pSocketChannel.index = .kDeleted
  unregistered : ∀ c, (u.conn c).tcp.pSocketChannel.index = .kDeleted →
    (s.conn c).tcp.pSocketChannel.index = .kDeleted ∨
      ∀ e, u.interest (s.conn c).loop (s.conn c).tcp.pSocketChannel.sockfd ≠ some (.conn c, e)
  interest : ∀ L fd x, u.interest L fd = some x → s.interest L fd = some x ∨
    ((s.interest L fd).isSome = true ∨ 0 ≤ fd) ∧ ∃ c, x.1 = .conn c ∧ L = (s.conn c).loop ∧
      (s.conn c).tcp.pSocketChannel.sockfd = fd ∧ c < s.size ∧ (s.conn c).tcp.pSocketChannel.index ≠ .kDeleted
  pending : ∀ L c, .connectEstablished c ∈ (u.loops L).pendingFunctors →
    .connectEstablished c ∈ (s.loops L).pendingFunctors

theorem Mild.refl (s : Server) : Mild s s where
  toStable := Stable.refl s
  connections := rfl
  shared := fun _ h => h
  pUser := fun _ => rfl
  closeCallback := fun _ => rfl
  channelfd := fun _ => rfl
  deleted := fun _ h => h
  unregistered := fun _ h => Or.inl h
  interest := fun _ _ _ h => Or.inl h
  pending := fun _ _ h => h

theorem Mild.trans {s t u : Server} (h : Mild s t) (k : Mild t u) : Mild s u where
  toStable := h.toStable.trans k.toStable
  connections := k.connections.trans h.connections
  shared := fun c hc => k.shared c (h.shared c hc)
  pUser := fun c => (k.pUser c).trans (h.pUser c)
  closeCallback := fun c => (k.closeCallback c).trans (h.closeCallback c)
  channelfd := fun c => (k.channelfd c).trans (h.channelfd c)
  deleted := fun c hc => k.deleted c (h.deleted c hc)
  unregistered := by
    intro c hc
    by_cases ht : (t.conn c).tcp.pSocketChannel.index = .kDeleted
    · refine (h.unregistered c ht).imp_right fun hnone e he => ?_
      rcases k.interest _ _ _ he with hold | ⟨-, d, hd, -, -, -, hindex⟩
      · exact hnone e hold
      · cases hd
        exact hindex ht
    · have hnone := (k.unregistered c hc).resolve_left ht
      rw [h.loop, h.channelfd] at hnone
      exact Or.inr hnone
  interest := by
    intro L fd x hx
    have hpresent : (t.interest L fd).isSome = true → (s.interest L fd).isSome = true ∨ 0 ≤ fd := by
      intro hsome
      obtain ⟨y, hy⟩ := Option.isSome_iff_exists.mp hsome
      rcases h.interest L fd y hy with hold | ⟨hfd, -⟩
      · exact Or.inl (by simp [hold])
      · exact hfd
    rcases k.interest L fd x hx with ht | ⟨hfd, c, hc, hL, hsockfd, hsize, hindex⟩
    · exact h.interest L fd x ht
    · refine Or.inr ⟨hfd.elim hpresent Or.inr, c, hc, hL.trans (h.loop c), ?_, ?_, fun hd => hindex (h.deleted c hd)⟩
      · rw [← h.channelfd c]
        exact hsockfd
      · rw [← h.size]
        exact hsize
  pending := fun L c hc => h.pending L c (k.pending L c hc)

theorem Mild.of_eq {s u : Server} (h : Stable s u) (hconn : u.conn = s.conn) (htable : u.connections = s.connections)
    (hinterest : u.interest = s.interest)
    (hpending : ∀ L, (u.loops L).pendingFunctors = (s.loops L).pendingFunctors) : Mild s u where
  toStable := h
  connections := htable
  shared := fun _ h => by rw [hconn]; exact h
  pUser := fun _ => by rw [hconn]
  closeCallback := fun _ => by rw [hconn]
  channelfd := fun _ => by rw [hconn]
  deleted := fun _ hd => by rw [hconn]; exact hd
  unregistered := fun _ hd => Or.inl (by rw [← hconn]; exact hd)
  interest := fun L fd x hx => Or.inl (by rw [← hinterest]; exact hx)
  pending := fun L c hc => by rw [← hpending]; exact hc

theorem observe_mild (s : Server) (o : Obs) : Mild s (s.observe o) :=
  Mild.of_eq (s.observe_stable o) rfl rfl rfl fun _ => rfl

theorem setFrame_mild (s : Server) (L : Nat) (frame : Frame) : Mild s (s.setFrame L frame) :=
  Mild.of_eq (s.setFrame_stable L frame) rfl rfl rfl fun _ => by simp

theorem crash_mild (s : Server) : Mild s { s with crashed := true } :=
  Mild.of_eq s.crash_stable rfl rfl rfl fun _ => rfl

theorem queueInLoop_mild (s : Server) (L : Nat) (c : ConnId) (f : Functor) :
    Mild s (s.queueInLoop L (.bound c f)) where
  toStable := s.queueInLoop_stable L _
  connections := rfl
  shared := fun _ h => h
  pUser := fun _ => rfl
  closeCallback := fun _ => rfl
  channelfd := fun _ => rfl
  deleted := fun _ h => h
  unregistered := fun _ h => Or.inl h
  interest := fun _ _ _ h => Or.inl h
  pending := by
    intro M d hd
    obtain ⟨fs, hfs⟩ := (s.queueInLoop_quiet c L f).loops M
    rw [hfs] at hd
    simpa using hd

theorem setConn_mild (s : Server) (c : ConnId) {k : Conn} (hloop : k.loop = (s.conn c).loop)
    (hshared : (s.conn c).shared = true → k.shared = true) (hkeeps : (s.conn c).tcp.Keeps k.tcp) :
    Mild s (s.setConn c k) := by
  have hd : ∀ d, (s.setConn c k).conn d = if d = c then k else s.conn d := fun d => by
    by_cases h : d = c
    · subst h
      simp [setConn]
    · simp [setConn, h]
  refine ⟨s.setConn_stable c hloop hkeeps.sockfd, rfl, fun d hs => ?_, fun d => ?_, fun d => ?_, fun d => ?_,
    fun d hdel => ?_, fun d hdel => Or.inl ?_, fun _ _ _ h => Or.inl h, fun _ _ h => h⟩
  · rw [hd]
    split
    · rename_i h
      exact hshared (h ▸ hs)
    · exact hs
  · rw [hd]
    split
    · rename_i h
      rw [h, hkeeps.pUser]
    · rfl
  · rw [hd]
    split
    · rename_i h
      rw [h, hkeeps.closeCallback]
    · rfl
  · rw [hd]
    split
    · rename_i h
      rw [h, hkeeps.channelfd]
    · rfl
  · rw [hd]
    split
    · rename_i h
      exact hkeeps.deleted.mpr (h ▸ hdel)
    · exact hdel
  · rw [hd] at hdel
    split at hdel
    · rename_i h
      exact h ▸ hkeeps.deleted.mp hdel
    · exact hdel

theorem setTcp_mild (s : Server) (c : ConnId) (tcp : TcpConnection) (hkeeps : (s.conn c).tcp.Keeps tcp) :
    Mild s (s.setTcp c tcp) := s.setConn_mild c (k := { s.conn c with tcp }) rfl (fun h => h) hkeeps

theorem control_mild {s : Server} {c : ConnId} {ctl : Ctl} (hsize : c < s.size)
    (hfd : ctl.fd = (s.conn c).tcp.pSocketChannel.sockfd)
    (hdel : (s.conn c).tcp.pSocketChannel.index = .kDeleted → ctl.op = .del) : Mild s (s.control c ctl) where
  toStable := s.control_stable c ctl
  connections := rfl
  shared := fun _ h => h
  pUser := fun _ => rfl
  closeCallback := fun _ => rfl
  channelfd := fun _ => rfl
  deleted := fun _ h => h
  unregistered := fun _ h => Or.inl h
  interest := by
    intro L fd x hx
    by_cases hL : L = (s.conn c).loop
    · simp only [control, hL, Function.update_self] at hx
      rcases epollCtl_some hx with hold | ⟨rfl, hc, hop, hpresent⟩
      · exact Or.inl (hL ▸ hold)
      · exact Or.inr ⟨hL ▸ hpresent, c, hc, hL, hfd.symm, hsize, fun hd => hop (hdel hd)⟩
    · simp only [control, Function.update_of_ne hL] at hx
      exact Or.inl hx
  pending := fun _ _ h => h

theorem effect_mild {s : Server} {c : ConnId} {e : Effect} (hsize : c < s.size)
    (hctl : ∀ ctl, e = .epollCtl ctl → ctl.fd = (s.conn c).tcp.pSocketChannel.sockfd ∧
      ((s.conn c).tcp.pSocketChannel.index = .kDeleted → ctl.op = .del)) : Mild s (effect c s e) := by
  cases e with
  | write data w => exact Mild.refl s
  | queueInLoop f => exact s.queueInLoop_mild _ c f
  | epollCtl ctl => exact control_mild hsize (hctl ctl rfl).1 (hctl ctl rfl).2

theorem effects_mild {s : Server} {c : ConnId} {effects : List Effect} (hsize : c < s.size)
    (hctl : ∀ ctl, .epollCtl ctl ∈ effects → ctl.fd = (s.conn c).tcp.pSocketChannel.sockfd ∧
      ((s.conn c).tcp.pSocketChannel.index = .kDeleted → ctl.op = .del)) :
    Mild s (effects.foldl (effect c) s) := by
  induction effects generalizing s with
  | nil => exact Mild.refl s
  | cons e effects ih =>
    have hone : Mild s (effect c s e) := effect_mild hsize fun ctl he => hctl ctl (by simp [he])
    have hconn : (effect c s e).conn = s.conn := effects_conn c s [e]
    refine hone.trans (ih ?_ fun ctl he => ?_)
    · rw [hone.size]
      exact hsize
    · rw [hconn]
      exact hctl ctl (List.mem_cons_of_mem e he)

theorem called_mild {s : Server} {c : ConnId} {call : Call} (hsize : c < s.size)
    (hcall : Calm (s.conn c).tcp call) : Mild s (s.called c call) := by
  have hset := s.setTcp_mild c _ hcall.keeps
  refine hset.trans (effects_mild hsize fun ctl hctl => ?_)
  have hself : ((s.setTcp c call.conn).conn c).tcp = call.conn := by simp [setTcp, setConn]
  rw [hself, hcall.keeps.channelfd, hcall.keeps.deleted]
  exact hcall.ctl ctl hctl

theorem disableChannel_deleted (s : Server) (c : ConnId) :
    ((s.disableChannel c).conn c).tcp.pSocketChannel.index = .kDeleted := by
  simp [disableChannel_eq, control, setTcp, setConn, TcpConnection.disableChannel, Channel.disableAll,
    Channel.setIndex, Channel.update]

theorem disableChannel_interest (s : Server) (c : ConnId) (L : Nat) (fd : Int) :
    (s.disableChannel c).interest L fd =
      if L = (s.conn c).loop ∧ (s.conn c).tcp.pSocketChannel.sockfd = fd then none else s.interest L fd := by
  have hctl : (s.conn c).tcp.disableChannel.2 = ⟨.del, (s.conn c).tcp.pSocketChannel.sockfd, 0⟩ := rfl
  have hloop : ((s.observe (.handler c .handleClose (s.ready c))).setTcp c (s.conn c).tcp.disableChannel.1).conn c =
      { s.conn c with tcp := (s.conn c).tcp.disableChannel.1 } := by simp [setTcp, setConn, observe]
  simp only [disableChannel_eq, control, hloop, hctl]
  change Function.update s.interest (s.conn c).loop (epollCtl (.conn c) _ (s.interest (s.conn c).loop)) L fd = _
  by_cases hL : L = (s.conn c).loop
  · subst hL
    rw [Function.update_self, epollCtl_del]
    simp [eq_comm]
  · simp [hL]

theorem disableChannel_mild (s : Server) (c : ConnId) : Mild s (s.disableChannel c) := by
  have hd := s.disableChannel_tcp c
  refine ⟨⟨(s.disableChannel_stable c).toFixed, fun _ => rfl, fun _ => rfl, fun _ => rfl, fun _ => rfl⟩,
    rfl, fun d h => ?_,
    fun d => ?_, fun d => ?_, fun d => ?_, fun d h => ?_, fun d h => ?_, fun L fd x hx => Or.inl ?_, fun _ _ h => h⟩
  · rw [hd]
    split
    · rename_i hdc
      exact hdc ▸ h
    · exact h
  · rw [hd]
    split
    · rename_i hdc
      subst hdc
      rfl
    · rfl
  · rw [hd]
    split
    · rename_i hdc
      subst hdc
      rfl
    · rfl
  · rw [hd]
    split
    · rename_i hdc
      subst hdc
      rfl
    · rfl
  · rw [hd]
    split
    · rfl
    · exact h
  · by_cases hdc : d = c
    · subst hdc
      refine Or.inr fun e => ?_
      rw [disableChannel_interest, if_pos ⟨rfl, rfl⟩]
      simp
    · rw [hd, if_neg hdc] at h
      exact Or.inl h
  · rw [disableChannel_interest] at hx
    split at hx
    · cases hx
    · exact hx

theorem setRevents_mild (s : Server) (events : List (Source × Events)) : Mild s (s.setRevents events) :=
  setRevents_rel Mild.refl Mild.trans (fun s c _ => s.setTcp_mild c _ ⟨rfl, rfl, rfl, rfl, Iff.rfl⟩) s events

theorem Move.mild {L : Nat} {c : ConnId} {t u : Server} (h : Move L c t u) (hsize : t.alive c = true → c < t.size) :
    Mild t u := by
  cases h with
  | consult => exact t.observe_mild _
  | read => exact t.observe_mild _
  | onMessage halive hidle hread =>
    refine (t.setTcp_mild c _ (TcpConnection.handleRead_keeps hread)).trans ?_
    rw [onMessage_eq]
    split
    · exact (setFrame_mild _ L _).trans (observe_mild _ _)
    · exact crash_mild _
  | close halive hidle =>
    refine (t.disableChannel_mild c).trans ?_
    rw [handleClose_eq]
    split
    · split
      · exact (setFrame_mild _ L _).trans (observe_mild _ _)
      · exact setFrame_mild _ L _
    · exact crash_mild _
  | write halive => exact (t.observe_mild _).trans (called_mild (hsize halive) (TcpConnection.handleWrite_calm _ _))

theorem Move.frame {L : Nat} {c : ConnId} {t u : Server} (h : Move L c t u) :
    (u.loops L).frame = (t.loops L).frame ∨ (u.loops L).frame = .user c .read ∨
      ∃ called, (u.loops L).frame = .user c (.closed called) ∧ (u.conn c).tcp.pSocketChannel.index = .kDeleted := by
  cases h with
  | consult => exact Or.inl rfl
  | read => exact Or.inl rfl
  | onMessage halive hidle hread =>
    rw [onMessage_eq]
    split
    · exact Or.inr (Or.inl (setFrame_frame _ L _))
    · exact Or.inl rfl
  | close halive hidle =>
    have hdel := t.disableChannel_deleted c
    rw [handleClose_eq]
    split
    · split
      · exact Or.inr (Or.inr ⟨_, setFrame_frame _ L _, hdel⟩)
      · exact Or.inr (Or.inr ⟨_, setFrame_frame _ L _, hdel⟩)
    · exact Or.inl rfl
  | write halive =>
    exact Or.inl (called_frame (t.observe _) c _ L)

theorem act_mild {s : Server} (thread : Option Nat) {a : Act}
    (hsize : ∀ c message w, a = .send c message w → c < s.size) : Mild s (s.act thread a) := by
  cases a with
  | send c message w =>
    simp only [act]
    split
    · exact called_mild (hsize c message w rfl) (TcpConnection.sendInLoop_calm _ message w)
    · exact s.queueInLoop_mild _ c _
  | keep c => exact s.setConn_mild c rfl (fun h => h) (TcpConnection.Keeps.refl _)
  | drop c => exact s.setConn_mild c rfl (fun h => h) (TcpConnection.Keeps.refl _)

theorem queueInLoop_frame (s : Server) (L M : Nat) (f : Queued) :
    ((s.queueInLoop L f).loops M).frame = (s.loops M).frame := by
  by_cases h : M = L
  · subst h
    simp [queueInLoop, setLoop]
  · simp [queueInLoop, setLoop, h]

theorem act_frame (s : Server) (thread : Option Nat) (a : Act) (L : Nat) :
    ((s.act thread a).loops L).frame = (s.loops L).frame := by
  cases a with
  | send c message w =>
    simp only [act]
    split
    · exact s.called_frame c _ L
    · exact s.queueInLoop_frame _ L _
  | keep c => rfl
  | drop c => rfl

theorem testOut_frame (s : Server) (c : ConnId) (w : WriteResult) (L : Nat) :
    ((s.testOut c w).loops L).frame = (s.loops L).frame :=
  (moves_host L (host.testOut_moves s c w)).2 L

theorem testOut_mild {s : Server} {c : ConnId} (hsize : s.alive c = true → c < s.size) (w : WriteResult) :
    Mild s (s.testOut c w) := by
  have hobserve := s.observe_mild (.consulted c (s.alive c))
  rw [testOut_eq]
  split
  · rename_i h
    have halive : s.alive c = true := by
      rw [Bool.and_eq_true] at h
      exact h.1
    refine hobserve.trans ((observe_mild _ _).trans (called_mild (hsize halive) ?_))
    exact TcpConnection.handleWrite_calm _ w
  · exact hobserve

theorem bound_frame (s : Server) (L : Nat) (w : WriteResult) (c : ConnId) (f : Functor) :
    ((s.runFunctor L w (.bound c f)).loops L).frame = (s.loops L).frame ∨ ∃ d, s.pointee c = some d ∧
      ((s.runFunctor L w (.bound c f)).loops L).frame = .user d .completed := by
  rcases s.runFunctor_bound L w c f with ⟨d, hd, heq⟩ | ⟨-, heq⟩
  · rw [heq]
    cases f with
    | onWriteComplateCB =>
      rw [callFunctor_completed]
      split
      · exact Or.inr ⟨d, hd, setFrame_frame _ L _⟩
      · exact Or.inl rfl
    | onMessageCB message => exact Or.inl (called_frame (s.observe _) d _ L)
  · rw [heq]
    exact Or.inl rfl

theorem callFunctor_mild {s : Server} {L : Nat} {w : WriteResult} {c : ConnId} {f : Functor} (hsize : c < s.size) :
    Mild s (s.callFunctor L c w f) := by
  cases f with
  | onWriteComplateCB =>
    rw [callFunctor_completed]
    split
    · exact (s.setFrame_mild L _).trans (observe_mild _ _)
    · exact Mild.refl s
  | onMessageCB message =>
    refine (called_mild hsize (TcpConnection.sendInLoop_calm (s.conn c).tcp message w)).trans
      (Mild.of_eq ?_ rfl rfl rfl fun _ => rfl)
    exact Stable.of_eq ⟨rfl, rfl, rfl, rfl, rfl, rfl, fun _ => rfl, fun _ => rfl⟩ rfl

theorem bound_mild {s : Server} {L : Nat} {w : WriteResult} {c : ConnId} {f : Functor}
    (hknown : ∀ d, s.alive d = true → d < s.size) : Mild s (s.runFunctor L w (.bound c f)) := by
  have hobserve := s.observe_mild (.functor c f (s.alive c))
  rcases s.runFunctor_bound L w c f with ⟨d, hd, heq⟩ | ⟨-, heq⟩
  · rw [heq]
    exact hobserve.trans (callFunctor_mild (s := s.observe _) (hknown d (pointee_alive hd)))
  · rw [heq]
    exact hobserve.trans (crash_mild _)

end Server

end Muduo
