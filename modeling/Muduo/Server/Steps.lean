import Mathlib.Logic.Relation
import Muduo.Server.Code

/-! # Steps

What a step can do, for the invariants to use. `handleEvent` and what follows a callback are chains of
moves.
-/

namespace Muduo.Server

/-! ## Steps -/

/-- The loop turns to its next ready channel. -/
def takeActive (s : Server) (L : Nat) (rest : List Source) : Server := s.setLoop L { s.loops L with active := rest }

def headConn : List Source → Option ConnId
  | .conn c :: _ => some c
  | _ => none

/-- The loop turns to the next functor of its batch. -/
def takeFunctor (s : Server) (L : Nat) (f : Queued) (rest : List Queued) : Server :=
  s.setLoop L { s.loops L with ran := (s.loops L).ran ++ [f], tempRuns := rest }

@[simp]
theorem takeActive_loop (s : Server) (L : Nat) (rest : List Source) :
    (s.takeActive L rest).loops L = { s.loops L with active := rest } := Function.update_self _ _ _

@[simp]
theorem takeFunctor_loop (s : Server) (L : Nat) (f : Queued) (rest : List Queued) :
    (s.takeFunctor L f rest).loops L = { s.loops L with ran := (s.loops L).ran ++ [f], tempRuns := rest } :=
  Function.update_self _ _ _

theorem accept_inv {s u : Server} {fd : Int} (h : step s (.accept fd) = some u) :
    ∃ rest, (s.loops 0).active = .listen :: rest ∧ s.Ready 0 .handling ∧ s.Acceptable fd ∧
      u = (s.takeActive 0 rest).accept fd := by
  simp only [step] at h
  split at h
  · rename_i rest hactive
    obtain ⟨⟨hready, hfd, -⟩, rfl⟩ := Machine.guard_some.mp h
    exact ⟨rest, hactive, hready, hfd, rfl⟩
  · cases h

theorem accept_free {s u : Server} {fd : Int} (h : step s (.accept fd) = some u) : s.Free (s.address s.size) := by
  simp only [step] at h
  split at h
  · exact (Machine.guard_some.mp h).1.2.2
  · cases h

theorem statement_inv {s u : Server} (h : step s .statement = some u) :
    ∃ c stage, (s.loops 0).frame = .newConnection c stage ∧ s.crashed = false ∧ u = s.statement c stage := by
  simp only [step] at h
  split at h
  · rename_i c stage hframe
    obtain ⟨hcrashed, rfl⟩ := Machine.guard_some.mp h
    exact ⟨c, stage, hframe, hcrashed, rfl⟩
  · cases h

theorem handle_inv {s u : Server} {L : Nat} {res : Buffer.ReadResult} {w : WriteResult}
    (h : step s (.handle L res w) = some u) :
    ∃ c rest, (s.loops L).active = .conn c :: rest ∧ s.Ready L .handling ∧
      u = (s.takeActive L rest).handleEvent L c res w := by
  simp only [step] at h
  split at h
  · rename_i c rest hactive
    obtain ⟨⟨hready, -⟩, rfl⟩ := Machine.guard_some.mp h
    exact ⟨c, rest, hactive, hready, rfl⟩
  · cases h

theorem return_inv {s u : Server} {L : Nat} {w : WriteResult} (h : step s (.return_ L w) = some u) :
    ∃ c rest, (s.loops L).frame = .user c rest ∧ s.crashed = false ∧ L ≤ s.n ∧ u = s.return_ L c w rest := by
  simp only [step] at h
  split at h
  · rename_i c rest hframe
    obtain ⟨⟨hcrashed, hL, -⟩, rfl⟩ := Machine.guard_some.mp h
    exact ⟨c, rest, hframe, hcrashed, hL, rfl⟩
  · cases h

theorem act_inv {s u : Server} {L : Nat} {a : Act} (h : step s (.act L a) = some u) :
    ∃ arg, s.userCode L = some arg ∧ s.crashed = false ∧ L ≤ s.n ∧ s.MayAct arg a ∧ u = s.act (some L) a := by
  simp only [step] at h
  split at h
  · rename_i arg hcode
    obtain ⟨⟨hcrashed, hL, hmay⟩, rfl⟩ := Machine.guard_some.mp h
    exact ⟨arg, hcode, hcrashed, hL, hmay, rfl⟩
  · cases h

theorem runFunctor_inv {s u : Server} {L : Nat} {w : WriteResult} (h : step s (.runFunctor L w) = some u) :
    ∃ f rest, (s.loops L).tempRuns = f :: rest ∧ s.Ready L .draining ∧
      u = (s.takeFunctor L f rest).runFunctor L w f := by
  simp only [step] at h
  split at h
  · rename_i f rest hruns
    obtain ⟨hready, rfl⟩ := Machine.guard_some.mp h
    exact ⟨f, rest, hruns, hready, rfl⟩
  · cases h

theorem userCode_arg {s : Server} {L : Nat} {c : ConnId} (h : s.userCode L = some (some c)) :
    ∃ rest, (s.loops L).frame = .user c rest ∧ rest ≠ .closed false := by
  unfold userCode at h
  split at h
  · cases h
  · rename_i d rest hrest hframe
    simp only [Option.some.injEq] at h
    subst h
    exact ⟨rest, hframe, hrest⟩
  · simp at h
  · simp at h
  · cases h

/-! ## Frames -/

section

variable (s : Server) (L M : Nat) (frame : Frame)

theorem setFrame_loop : (s.setFrame L frame).loops M =
    { s.loops M with frame := if M = L then frame else (s.loops M).frame } := by
  by_cases h : M = L
  · subst h
    simp [setFrame, setLoop]
  · simp [setFrame, setLoop, h]

@[simp]
theorem setFrame_phase : ((s.setFrame L frame).loops M).phase = (s.loops M).phase := by rw [setFrame_loop]

@[simp]
theorem setFrame_active : ((s.setFrame L frame).loops M).active = (s.loops M).active := by rw [setFrame_loop]

@[simp]
theorem setFrame_ran : ((s.setFrame L frame).loops M).ran = (s.loops M).ran := by rw [setFrame_loop]

@[simp]
theorem setFrame_tempRuns : ((s.setFrame L frame).loops M).tempRuns = (s.loops M).tempRuns := by rw [setFrame_loop]

@[simp]
theorem setFrame_pendingFunctors :
    ((s.setFrame L frame).loops M).pendingFunctors = (s.loops M).pendingFunctors := by rw [setFrame_loop]

@[simp]
theorem setFrame_frame : ((s.setFrame L frame).loops L).frame = frame := by
  rw [setFrame_loop]
  simp

end

/-! ## Functors -/

theorem pointee_of_alive {s : Server} {c : ConnId} (h : s.alive c = true) : s.pointee c = some c := if_pos h

theorem pointee_alive {s : Server} {c d : ConnId} (h : s.pointee c = some d) : s.alive d = true := by
  unfold pointee at h
  split at h
  · rename_i hc
    obtain rfl := Option.some.inj h
    exact hc
  · have hfound := List.find?_some h
    rw [Bool.and_eq_true] at hfound
    exact hfound.1

theorem pointee_address {s : Server} {c d : ConnId} (h : s.pointee c = some d) : s.address d = s.address c := by
  unfold pointee at h
  split at h
  · rw [Option.some.inj h]
  · have hfound := List.find?_some h
    rw [Bool.and_eq_true, beq_iff_eq] at hfound
    exact hfound.2

theorem runFunctor_bound (s : Server) (L : Nat) (w : WriteResult) (c : ConnId) (f : Functor) :
    (∃ d, s.pointee c = some d ∧
      s.runFunctor L w (.bound c f) = (s.observe (.functor c f (s.alive c))).callFunctor L d w f) ∨
    (s.pointee c = none ∧
      s.runFunctor L w (.bound c f) = { s.observe (.functor c f (s.alive c)) with crashed := true }) := by
  have hsame : (s.observe (.functor c f (s.alive c))).pointee c = s.pointee c := rfl
  cases hp : s.pointee c with
  | some d => exact Or.inl ⟨d, rfl, by simp only [runFunctor, hsame, hp]⟩
  | none => exact Or.inr ⟨rfl, by simp only [runFunctor, hsame, hp]⟩

/-! ## `accept` -/

theorem accept_eq (s : Server) (fd : Int) : s.accept fd =
    { s.setFrame 0 (.newConnection s.size .enableReading) with
      next := s.getNextLoop.1.next
      size := s.size + 1
      conn := Function.update s.conn s.size ⟨TcpConnection.init fd, s.getNextLoop.2, false, 0⟩
      trace := s.trace ++ [.accepted fd s.size] } := by
  by_cases hn : s.n = 0
  · simp only [accept, getNextLoop, if_pos hn]
    rfl
  · simp only [accept, getNextLoop, if_neg hn]
    rfl

section

variable (s : Server) (fd : Int)

@[simp]
theorem accept_n : (s.accept fd).n = s.n := by
  rw [accept_eq]
  rfl

@[simp]
theorem accept_user : (s.accept fd).user = s.user := by
  rw [accept_eq]
  rfl

@[simp]
theorem accept_next : (s.accept fd).next = s.getNextLoop.1.next := by rw [accept_eq]

@[simp]
theorem accept_size : (s.accept fd).size = s.size + 1 := by rw [accept_eq]

@[simp]
theorem accept_address : (s.accept fd).address = s.address := by
  rw [accept_eq]
  rfl

@[simp]
theorem accept_connections : (s.accept fd).connections = s.connections := by
  rw [accept_eq]
  rfl

@[simp]
theorem accept_interest : (s.accept fd).interest = s.interest := by
  rw [accept_eq]
  rfl

@[simp]
theorem accept_loops : (s.accept fd).loops = (s.setFrame 0 (.newConnection s.size .enableReading)).loops := by
  rw [accept_eq]

@[simp]
theorem accept_trace : (s.accept fd).trace = s.trace ++ [.accepted fd s.size] := by rw [accept_eq]

@[simp]
theorem accept_new : (s.accept fd).conn s.size = ⟨TcpConnection.init fd, s.getNextLoop.2, false, 0⟩ := by
  rw [accept_eq]
  exact Function.update_self _ _ _

theorem accept_old {c : ConnId} (hc : c ≠ s.size) : (s.accept fd).conn c = s.conn c := by
  rw [accept_eq]
  exact Function.update_of_ne hc _ _

end

/-! ## Handlers -/

section

variable (s : Server) (L : Nat) (c : ConnId) (res : Buffer.ReadResult) (w : WriteResult)

theorem called_eq (call : Call) : s.called c call = call.effects.foldl (effect c) (s.setTcp c call.conn) := rfl

theorem testOut_eq : s.testOut c w =
    if s.alive c && s.revents c &&& EPOLLOUT != 0 then
      ((s.observe (.consulted c (s.alive c))).observe (.handler c .handleWrite (s.ready c))).called c
        ((s.conn c).tcp.handleWrite w)
    else s.observe (.consulted c (s.alive c)) := rfl

theorem onMessage_eq : s.onMessage L c =
    if (s.conn c).tcp.pUser && (s.conn c).shared then (s.setFrame L (.user c .read)).observe (.callback c .onMessage)
    else { s with crashed := true } := rfl

theorem disableChannel_eq : s.disableChannel c =
    ((s.observe (.handler c .handleClose (s.ready c))).setTcp c (s.conn c).tcp.disableChannel.1).control c
      (s.conn c).tcp.disableChannel.2 := rfl

theorem disableChannel_tcp (d : ConnId) : (s.disableChannel c).conn d =
    if d = c then { s.conn c with tcp := (s.conn c).tcp.disableChannel.1 } else s.conn d := by
  by_cases h : d = c
  · subst h
    simp [disableChannel_eq, control, setTcp, setConn, observe]
  · simp [disableChannel_eq, control, setTcp, setConn, observe, h]

theorem handleClose_eq : s.handleClose L c =
    if (s.conn c).shared then
      if (s.conn c).tcp.pUser then
        ((s.disableChannel c).setFrame L (.user c (.closed true))).observe (.callback c .onClose)
      else (s.disableChannel c).setFrame L (.user c (.closed false))
    else { s.disableChannel c with crashed := true } := by
  have hshared : ((s.disableChannel c).conn c).shared = (s.conn c).shared := by rw [disableChannel_tcp, if_pos rfl]
  have huser : ((s.disableChannel c).conn c).tcp.pUser = (s.conn c).tcp.pUser := by
    rw [disableChannel_tcp, if_pos rfl]
    rfl
  unfold handleClose Host.handleClose
  rw [← hshared, ← huser]
  change (if ((s.disableChannel c).conn c).shared = true then
    if ((s.disableChannel c).conn c).tcp.pUser = true then
      ((s.disableChannel c).setFrame L (.user c (.closed ((s.disableChannel c).conn c).tcp.pUser))).observe _
    else (s.disableChannel c).setFrame L (.user c (.closed ((s.disableChannel c).conn c).tcp.pUser)) else _) = _
  cases ((s.disableChannel c).conn c).tcp.pUser <;> rfl

theorem handleRead_eq : s.handleRead L c res w =
    match (s.conn c).tcp.handleRead res with
    | (tcp, .onMessage) => ((s.observe (.handler c .handleRead (s.ready c))).setTcp c tcp).onMessage L c
    | (_, .handleClose) => (s.observe (.handler c .handleRead (s.ready c))).handleClose L c
    | (_, .nothing) => (s.observe (.handler c .handleRead (s.ready c))).testOut c w := rfl

theorem testIn_eq : s.testIn L c res w =
    if s.alive c then
      if s.revents c &&& EPOLLIN != 0 then (s.observe (.consulted c (s.alive c))).handleRead L c res w
      else (s.observe (.consulted c (s.alive c))).testOut c w
    else s.observe (.consulted c (s.alive c)) := rfl

theorem handleEvent_eq : s.handleEvent L c res w =
    if s.alive c then
      if s.revents c &&& EPOLLHUP != 0 && s.revents c &&& EPOLLIN == 0 then
        (s.observe (.consulted c (s.alive c))).handleClose L c
      else (s.observe (.consulted c (s.alive c))).testIn L c res w
    else s.observe (.consulted c (s.alive c)) := rfl

theorem callFunctor_completed : s.callFunctor L c w .onWriteComplateCB =
    if (s.conn c).tcp.pUser then (s.setFrame L (.user c .completed)).observe (.callback c .onWriteComplate)
    else s := rfl

end

/-! ## Calls -/

/-- From `s` to `u` only the member functions of `c` have run: they touch `c`, epoll, and the end of the
queues. -/
structure Quiet (c : ConnId) (s u : Server) : Prop where
  n : u.n = s.n
  user : u.user = s.user
  listenfd : u.listenfd = s.listenfd
  next : u.next = s.next
  size : u.size = s.size
  address : u.address = s.address
  connections : u.connections = s.connections
  crashed : u.crashed = s.crashed
  trace : u.trace = s.trace
  others : ∀ d, d ≠ c → u.conn d = s.conn d
  kept : (u.conn c).held = (s.conn c).held ∧ (u.conn c).loop = (s.conn c).loop ∧
    (u.conn c).shared = (s.conn c).shared
  loops : ∀ L, ∃ fs : List Functor, u.loops L =
    { s.loops L with pendingFunctors := (s.loops L).pendingFunctors ++ fs.map (Queued.bound c) }

theorem Quiet.refl (c : ConnId) (s : Server) : Quiet c s s where
  n := rfl
  user := rfl
  listenfd := rfl
  next := rfl
  size := rfl
  address := rfl
  connections := rfl
  crashed := rfl
  trace := rfl
  others := fun _ _ => rfl
  kept := ⟨rfl, rfl, rfl⟩
  loops := fun _ => ⟨[], by simp⟩

theorem Quiet.trans {c : ConnId} {s t u : Server} (h : Quiet c s t) (k : Quiet c t u) : Quiet c s u where
  n := k.n.trans h.n
  user := k.user.trans h.user
  listenfd := k.listenfd.trans h.listenfd
  next := k.next.trans h.next
  size := k.size.trans h.size
  address := k.address.trans h.address
  connections := k.connections.trans h.connections
  crashed := k.crashed.trans h.crashed
  trace := k.trace.trans h.trace
  others := fun d hd => (k.others d hd).trans (h.others d hd)
  kept := ⟨k.kept.1.trans h.kept.1, k.kept.2.1.trans h.kept.2.1, k.kept.2.2.trans h.kept.2.2⟩
  loops := fun L => by
    obtain ⟨fs, hfs⟩ := h.loops L
    obtain ⟨gs, hgs⟩ := k.loops L
    exact ⟨fs ++ gs, by rw [hgs, hfs]; simp⟩

theorem setTcp_quiet (s : Server) (c : ConnId) (tcp : TcpConnection) : Quiet c s (s.setTcp c tcp) where
  n := rfl
  user := rfl
  listenfd := rfl
  next := rfl
  size := rfl
  address := rfl
  connections := rfl
  crashed := rfl
  trace := rfl
  others := fun d hd => Function.update_of_ne hd _ _
  kept := by simp [setTcp, setConn]
  loops := fun _ => ⟨[], by simp [setTcp, setConn]⟩

theorem control_quiet (s : Server) (c : ConnId) (ctl : Ctl) : Quiet c s (s.control c ctl) where
  n := rfl
  user := rfl
  listenfd := rfl
  next := rfl
  size := rfl
  address := rfl
  connections := rfl
  crashed := rfl
  trace := rfl
  others := fun _ _ => rfl
  kept := ⟨rfl, rfl, rfl⟩
  loops := fun _ => ⟨[], by simp [control]⟩

theorem queueInLoop_quiet (s : Server) (c : ConnId) (L : Nat) (f : Functor) :
    Quiet c s (s.queueInLoop L (.bound c f)) where
  n := rfl
  user := rfl
  listenfd := rfl
  next := rfl
  size := rfl
  address := rfl
  connections := rfl
  crashed := rfl
  trace := rfl
  others := fun _ _ => rfl
  kept := ⟨rfl, rfl, rfl⟩
  loops := fun M => by
    by_cases hM : M = L
    · subst hM
      exact ⟨[f], by simp [queueInLoop, setLoop]⟩
    · exact ⟨[], by simp [queueInLoop, setLoop, Function.update_of_ne hM]⟩

theorem effect_quiet (c : ConnId) (s : Server) (e : Effect) : Quiet c s (effect c s e) := by
  cases e with
  | write data w => exact Quiet.refl c s
  | queueInLoop f => exact s.queueInLoop_quiet c _ f
  | epollCtl ctl => exact s.control_quiet c ctl

theorem effects_quiet (c : ConnId) (s : Server) (effects : List Effect) : Quiet c s (effects.foldl (effect c) s) := by
  induction effects generalizing s with
  | nil => exact Quiet.refl c s
  | cons e effects ih => exact (effect_quiet c s e).trans (ih (effect c s e))

theorem called_quiet (s : Server) (c : ConnId) (call : Call) : Quiet c s (s.called c call) :=
  (s.setTcp_quiet c call.conn).trans (effects_quiet c _ call.effects)

theorem effects_conn (c : ConnId) (s : Server) (effects : List Effect) :
    (effects.foldl (effect c) s).conn = s.conn := by
  induction effects generalizing s with
  | nil => rfl
  | cons e effects ih =>
    rw [List.foldl_cons, ih]
    cases e <;> rfl

theorem called_tcp (s : Server) (c : ConnId) (call : Call) : ((s.called c call).conn c).tcp = call.conn := by
  rw [called_eq, effects_conn]
  simp [setTcp, setConn]

theorem called_frame (s : Server) (c : ConnId) (call : Call) (L : Nat) :
    ((s.called c call).loops L).frame = (s.loops L).frame := by
  obtain ⟨fs, hfs⟩ := (s.called_quiet c call).loops L
  rw [hfs]

/-! ## Descriptors -/

@[simp]
theorem sockfd_handleWrite (tcp : TcpConnection) (w : WriteResult) :
    (tcp.handleWrite w).conn.sockfd = tcp.sockfd := by
  unfold TcpConnection.handleWrite
  split
  · simp only
    split
    · split <;> rfl
    · rfl
  · rfl

@[simp]
theorem sockfd_sendInLoop (tcp : TcpConnection) (message : List Byte) (w : WriteResult) :
    (tcp.sendInLoop message w).conn.sockfd = tcp.sockfd := by
  have hrest : ∀ n, (tcp.bufferRest message n).conn.sockfd = tcp.sockfd := by
    intro n
    unfold TcpConnection.bufferRest
    split
    · split
      · rfl
      · simp only
        split <;> rfl
    · rfl
  unfold TcpConnection.sendInLoop
  split
  · rw [Call.behind_conn, hrest]
  · exact hrest 0

@[simp]
theorem sockfd_handleRead (tcp : TcpConnection) (res : Buffer.ReadResult) :
    (tcp.handleRead res).1.sockfd = tcp.sockfd := by
  cases res <;> simp only [TcpConnection.handleRead] <;> split <;> rfl

theorem handleRead_sockfd {tcp after : TcpConnection} {res : Buffer.ReadResult} {next : TcpConnection.AfterRead}
    (h : tcp.handleRead res = (after, next)) : after.sockfd = tcp.sockfd := by
  rw [← sockfd_handleRead tcp res, h]

@[simp]
theorem sockfd_disableChannel (tcp : TcpConnection) : tcp.disableChannel.1.sockfd = tcp.sockfd := rfl

/-! ## Moves -/

/-- What the thread of loop `L` does with the channel of `c`, one call at a time. -/
inductive Move (L : Nat) (c : ConnId) (t : Server) : Server → Prop
  | consult : Move L c t (t.observe (.consulted c (t.alive c)))
  | read (halive : t.alive c = true) : Move L c t (t.observe (.handler c .handleRead (t.ready c)))
  | onMessage {res : Buffer.ReadResult} {tcp : TcpConnection} (halive : t.alive c = true)
      (hidle : (t.loops L).frame = .idle) (hread : (t.conn c).tcp.handleRead res = (tcp, .onMessage)) :
      Move L c t ((t.setTcp c tcp).onMessage L c)
  | close (halive : t.alive c = true) (hidle : (t.loops L).frame = .idle) : Move L c t (t.handleClose L c)
  | write {w : WriteResult} (halive : t.alive c = true) :
      Move L c t ((t.observe (.handler c .handleWrite (t.ready c))).called c ((t.conn c).tcp.handleWrite w))

abbrev Moves (L : Nat) (c : ConnId) : Server → Server → Prop := Relation.ReflTransGen (Move L c)

theorem moves_invariant {I : Server → Prop} {L : Nat} {c : ConnId} {s u : Server} (hmoves : Moves L c s u) (hs : I s)
    (keep : ∀ t v, I t → Move L c t v → I v) : I u := by
  induction hmoves with
  | refl => exact hs
  | tail _ hmove ih => exact keep _ _ ih hmove

theorem moves_host (L : Nat) {c : ConnId} {s u : Server} (h : host.Moves c s u) :
    Moves L c s u ∧ ∀ M, (u.loops M).frame = (s.loops M).frame := by
  induction h with
  | refl => exact ⟨.refl, fun _ => rfl⟩
  | tail _ hmove ih =>
    obtain ⟨hmoves, hframe⟩ := ih
    cases hmove with
    | consult => exact ⟨hmoves.tail .consult, hframe⟩
    | read halive => exact ⟨hmoves.tail (.read halive), hframe⟩
    | write halive => exact ⟨hmoves.tail (.write halive), fun M => (called_frame _ c _ M).trans (hframe M)⟩

theorem testOut_moves (s : Server) (L : Nat) (c : ConnId) (w : WriteResult) : Moves L c s (s.testOut c w) :=
  (moves_host L (host.testOut_moves s c w)).1

theorem handleEvent_moves (s : Server) {L : Nat} (hidle : (s.loops L).frame = .idle) (c : ConnId)
    (res : Buffer.ReadResult) (w : WriteResult) : Moves L c s (s.handleEvent L c res w) := by
  obtain ⟨v, hhost, hevent⟩ := host.handleEvent_cases s L c res w
  obtain ⟨hmoves, hframe⟩ := moves_host L hhost
  have hidle := (hframe L).trans hidle
  unfold handleEvent
  generalize host.handleEvent s L c res w = u at hevent ⊢
  cases hevent with
  | nothing => exact hmoves
  | onMessage halive hread => exact hmoves.tail (.onMessage halive hidle hread)
  | close halive => exact hmoves.tail (.close halive hidle)

theorem handle_moves {s u : Server} {L : Nat} {res : Buffer.ReadResult} {w : WriteResult}
    (h : step s (.handle L res w) = some u) :
    ∃ c rest, (s.loops L).active = .conn c :: rest ∧ s.Ready L .handling ∧
      Moves L c (s.takeActive L rest) u := by
  obtain ⟨c, rest, hactive, hready, rfl⟩ := handle_inv h
  refine ⟨c, rest, hactive, hready, handleEvent_moves _ ?_ c res w⟩
  simpa using hready.2.2.2

/-! ## What most steps leave as it is -/

/-- What only `accept` changes. -/
structure Fixed (s u : Server) : Prop where
  n : u.n = s.n
  user : u.user = s.user
  listenfd : u.listenfd = s.listenfd
  next : u.next = s.next
  size : u.size = s.size
  address : u.address = s.address
  loop : ∀ c, (u.conn c).loop = (s.conn c).loop
  fd : ∀ c, u.fd c = s.fd c

theorem Fixed.trans {s t u : Server} (h : Fixed s t) (k : Fixed t u) : Fixed s u where
  n := k.n.trans h.n
  user := k.user.trans h.user
  listenfd := k.listenfd.trans h.listenfd
  next := k.next.trans h.next
  size := k.size.trans h.size
  address := k.address.trans h.address
  loop := fun c => (k.loop c).trans (h.loop c)
  fd := fun c => (k.fd c).trans (h.fd c)

theorem setLoop_fixed (s : Server) (L : Nat) (lp : Loop) : Fixed s (s.setLoop L lp) :=
  ⟨rfl, rfl, rfl, rfl, rfl, rfl, fun _ => rfl, fun _ => rfl⟩

/-- What neither handlers nor functors change: a loop's phase, its ready channels and its batch. -/
structure Stable (s u : Server) : Prop extends Fixed s u where
  phase : ∀ L, (u.loops L).phase = (s.loops L).phase
  active : ∀ L, (u.loops L).active = (s.loops L).active
  ran : ∀ L, (u.loops L).ran = (s.loops L).ran
  tempRuns : ∀ L, (u.loops L).tempRuns = (s.loops L).tempRuns

theorem Stable.trans {s t u : Server} (h : Stable s t) (k : Stable t u) : Stable s u where
  toFixed := h.toFixed.trans k.toFixed
  phase := fun L => (k.phase L).trans (h.phase L)
  active := fun L => (k.active L).trans (h.active L)
  ran := fun L => (k.ran L).trans (h.ran L)
  tempRuns := fun L => (k.tempRuns L).trans (h.tempRuns L)

theorem Stable.of_eq {s u : Server} (h : Fixed s u) (hloops : u.loops = s.loops) : Stable s u :=
  ⟨h, fun _ => by rw [hloops], fun _ => by rw [hloops], fun _ => by rw [hloops], fun _ => by rw [hloops]⟩

theorem Stable.refl (s : Server) : Stable s s :=
  Stable.of_eq ⟨rfl, rfl, rfl, rfl, rfl, rfl, fun _ => rfl, fun _ => rfl⟩ rfl

theorem observe_stable (s : Server) (o : Obs) : Stable s (s.observe o) :=
  Stable.of_eq ⟨rfl, rfl, rfl, rfl, rfl, rfl, fun _ => rfl, fun _ => rfl⟩ rfl

theorem setFrame_stable (s : Server) (L : Nat) (frame : Frame) : Stable s (s.setFrame L frame) :=
  ⟨s.setLoop_fixed L _, by simp, by simp, by simp, by simp⟩

theorem crash_stable (s : Server) : Stable s { s with crashed := true } :=
  Stable.of_eq ⟨rfl, rfl, rfl, rfl, rfl, rfl, fun _ => rfl, fun _ => rfl⟩ rfl

theorem setTable_stable (s : Server) (table : Int → Option ConnId) : Stable s { s with connections := table } :=
  Stable.of_eq ⟨rfl, rfl, rfl, rfl, rfl, rfl, fun _ => rfl, fun _ => rfl⟩ rfl

theorem setConn_stable (s : Server) (c : ConnId) {k : Conn} (hloop : k.loop = (s.conn c).loop)
    (hfd : k.tcp.sockfd = s.fd c) : Stable s (s.setConn c k) := by
  refine Stable.of_eq ⟨rfl, rfl, rfl, rfl, rfl, rfl, fun d => ?_, fun d => ?_⟩ rfl <;> by_cases hd : d = c
  · subst hd
    simpa [setConn] using hloop
  · simp [setConn, hd]
  · subst hd
    simpa [setConn, fd] using hfd
  · simp [setConn, hd, fd]

theorem setTcp_stable (s : Server) (c : ConnId) (tcp : TcpConnection) (hfd : tcp.sockfd = s.fd c) :
    Stable s (s.setTcp c tcp) := s.setConn_stable c (k := { s.conn c with tcp }) rfl hfd

theorem control_stable (s : Server) (c : ConnId) (ctl : Ctl) : Stable s (s.control c ctl) :=
  Stable.of_eq ⟨rfl, rfl, rfl, rfl, rfl, rfl, fun _ => rfl, fun _ => rfl⟩ rfl

theorem queueInLoop_stable (s : Server) (L : Nat) (f : Queued) : Stable s (s.queueInLoop L f) := by
  refine ⟨s.setLoop_fixed L _, fun M => ?_, fun M => ?_, fun M => ?_, fun M => ?_⟩ <;> by_cases hM : M = L
  all_goals first
    | (subst hM; simp [queueInLoop, setLoop])
    | simp [queueInLoop, setLoop, hM]

theorem called_stable (s : Server) (c : ConnId) {call : Call} (hfd : call.conn.sockfd = s.fd c) :
    Stable s (s.called c call) := by
  have hquiet := s.called_quiet c call
  have hfixed : Fixed s (s.called c call) := by
    refine ⟨hquiet.n, hquiet.user, hquiet.listenfd, hquiet.next, hquiet.size, hquiet.address, fun d => ?_,
      fun d => ?_⟩ <;> by_cases hd : d = c
    · subst hd
      exact hquiet.kept.2.1
    · rw [hquiet.others d hd]
    · subst hd
      rw [fd, called_tcp, hfd]
    · rw [fd, fd, hquiet.others d hd]
  refine ⟨hfixed, fun L => ?_, fun L => ?_, fun L => ?_, fun L => ?_⟩
  all_goals
    obtain ⟨fs, hfs⟩ := hquiet.loops L
    rw [hfs]

theorem disableChannel_stable (s : Server) (c : ConnId) : Stable s (s.disableChannel c) :=
  (s.observe_stable _).trans ((setTcp_stable _ c _ (sockfd_disableChannel _)).trans (control_stable _ c _))

theorem Move.stable {L : Nat} {c : ConnId} {t u : Server} (h : Move L c t u) : Stable t u := by
  cases h with
  | consult => exact t.observe_stable _
  | read => exact t.observe_stable _
  | onMessage halive hidle hread =>
    refine (t.setTcp_stable c _ (handleRead_sockfd hread)).trans ?_
    rw [onMessage_eq]
    split
    · exact (setFrame_stable _ L _).trans (observe_stable _ _)
    · exact crash_stable _
  | close halive hidle =>
    refine (t.disableChannel_stable c).trans ?_
    rw [handleClose_eq]
    split
    · split
      · exact (setFrame_stable _ L _).trans (observe_stable _ _)
      · exact setFrame_stable _ L _
    · exact crash_stable _
  | write => exact (t.observe_stable _).trans (called_stable _ c (sockfd_handleWrite _ _))

theorem Moves.stable {L : Nat} {c : ConnId} {s u : Server} (h : Moves L c s u) : Stable s u :=
  moves_invariant (I := Stable s) h (Stable.refl s) fun _ _ ht hmove => ht.trans hmove.stable

theorem testOut_stable (s : Server) (c : ConnId) (w : WriteResult) : Stable s (s.testOut c w) :=
  (s.testOut_moves 0 c w).stable

theorem connectEstablished_stable (s : Server) (L : Nat) (c : ConnId) (rest : Rest) :
    Stable s (s.connectEstablished L c rest) := by
  unfold connectEstablished
  split
  · exact (s.setFrame_stable L _).trans (observe_stable _ _)
  · exact s.setFrame_stable L _

theorem statement_stable (s : Server) (c : ConnId) (stage : Stage) : Stable s (s.statement c stage) := by
  cases stage with
  | enableReading =>
    have hset := s.setTcp_stable c (s.conn c).tcp.enableReading.1 rfl
    exact hset.trans ((control_stable _ c _).trans (setFrame_stable _ 0 _))
  | sharedPtr =>
    exact (s.setConn_stable c (k := { s.conn c with shared := true }) rfl rfl).trans (setFrame_stable _ 0 _)
  | insert => exact (s.setTable_stable _).trans (setFrame_stable _ 0 _)
  | setUser =>
    simp only [statement]
    split
    · exact (s.setTcp_stable c (s.conn c).tcp.setUser rfl).trans (setFrame_stable _ 0 _)
    · exact s.setFrame_stable 0 _
  | setUpLayerCloseCallback =>
    exact (s.setTcp_stable c (s.conn c).tcp.setUpLayerCloseCallback rfl).trans (setFrame_stable _ 0 _)
  | runInLoop =>
    simp only [statement]
    split
    · exact s.connectEstablished_stable 0 c _
    · exact (s.queueInLoop_stable _ _).trans (setFrame_stable _ 0 _)

theorem return_stable (s : Server) (L : Nat) (c : ConnId) (w : WriteResult) (rest : Rest) :
    Stable s (s.return_ L c w rest) := by
  cases rest with
  | connected | established | completed => exact s.setFrame_stable L _
  | read => exact (s.setFrame_stable L _).trans (testOut_stable _ c w)
  | closed called =>
    simp only [return_]
    split
    · exact (s.setTable_stable _).trans ((setFrame_stable _ L _).trans (testOut_stable _ c w))
    · exact (s.setFrame_stable L _).trans (testOut_stable _ c w)

theorem act_stable (s : Server) (thread : Option Nat) (a : Act) : Stable s (s.act thread a) := by
  cases a with
  | send c message w =>
    simp only [act]
    split
    · exact s.called_stable c (sockfd_sendInLoop _ message w)
    · exact s.queueInLoop_stable _ _
  | keep c => exact s.setConn_stable c (k := { s.conn c with held := (s.conn c).held + 1 }) rfl rfl
  | drop c => exact s.setConn_stable c (k := { s.conn c with held := (s.conn c).held - 1 }) rfl rfl

theorem callFunctor_stable (s : Server) (L : Nat) (c : ConnId) (w : WriteResult) (f : Functor) :
    Stable s (s.callFunctor L c w f) := by
  cases f with
  | onWriteComplateCB =>
    rw [callFunctor_completed]
    split
    · exact (s.setFrame_stable L _).trans (observe_stable _ _)
    · exact Stable.refl s
  | onMessageCB message =>
    exact (s.called_stable c (sockfd_sendInLoop _ message w)).trans
      (Stable.of_eq ⟨rfl, rfl, rfl, rfl, rfl, rfl, fun _ => rfl, fun _ => rfl⟩ rfl)

theorem runFunctor_stable (s : Server) (L : Nat) (w : WriteResult) (f : Queued) : Stable s (s.runFunctor L w f) := by
  cases f with
  | connectEstablished c => exact s.connectEstablished_stable L c _
  | bound c f =>
    have hobserve := s.observe_stable (.functor c f (s.alive c))
    rcases s.runFunctor_bound L w c f with ⟨d, -, heq⟩ | ⟨-, heq⟩
    · rw [heq]
      exact hobserve.trans (callFunctor_stable _ L d w f)
    · rw [heq]
      exact hobserve.trans (crash_stable _)

theorem setRevents_rel {R : Server → Server → Prop} (hrefl : ∀ s, R s s) (htrans : ∀ {s t u}, R s t → R t u → R s u)
    (hset : ∀ s c e, R s (s.setTcp c
      { (s.conn c).tcp with pSocketChannel := (s.conn c).tcp.pSocketChannel.setRevents e }))
    (s : Server) (events : List (Source × Events)) : R s (s.setRevents events) := by
  induction events generalizing s with
  | nil => exact hrefl s
  | cons p events ih =>
    obtain ⟨src, e⟩ := p
    cases src with
    | listen => exact ih s
    | conn c => exact htrans (hset s c e) (ih _)

@[simp]
theorem setRevents_loops (s : Server) (events : List (Source × Events)) : (s.setRevents events).loops = s.loops :=
  setRevents_rel (R := fun s u => u.loops = s.loops) (fun _ => rfl) (fun h k => k.trans h) (fun _ _ _ => rfl) s events

theorem setRevents_stable (s : Server) (events : List (Source × Events)) : Stable s (s.setRevents events) :=
  setRevents_rel Stable.refl Stable.trans (fun s c _ => s.setTcp_stable c _ rfl) s events

theorem step_fixed {s u : Server} {l : Label} (h : step s l = some u) (hl : ∀ fd, l ≠ .accept fd) : Fixed s u := by
  cases l with
  | poll L events =>
    obtain ⟨-, rfl⟩ := Machine.guard_some.mp h
    exact (s.setRevents_stable events).toFixed.trans (setLoop_fixed _ L _)
  | accept fd => exact absurd rfl (hl fd)
  | statement =>
    obtain ⟨c, stage, -, -, rfl⟩ := statement_inv h
    exact (s.statement_stable c stage).toFixed
  | handle L res w =>
    obtain ⟨c, rest, -, -, hmoves⟩ := handle_moves h
    exact (s.setLoop_fixed L _).trans hmoves.stable.toFixed
  | return_ L w =>
    obtain ⟨c, rest, -, -, -, rfl⟩ := return_inv h
    exact (s.return_stable L c w rest).toFixed
  | act L a =>
    obtain ⟨arg, -, -, -, -, rfl⟩ := act_inv h
    exact (s.act_stable _ a).toFixed
  | foreign a =>
    obtain ⟨-, rfl⟩ := Machine.guard_some.mp h
    exact (s.act_stable _ a).toFixed
  | swap L =>
    obtain ⟨-, rfl⟩ := Machine.guard_some.mp h
    exact s.setLoop_fixed L _
  | runFunctor L w =>
    obtain ⟨f, rest, -, -, rfl⟩ := runFunctor_inv h
    exact (s.setLoop_fixed L _).trans (runFunctor_stable _ L w f).toFixed
  | endBatch L =>
    obtain ⟨-, rfl⟩ := Machine.guard_some.mp h
    exact s.setLoop_fixed L _

/-! ## Loops -/

structure Formed (s : Server) : Prop where
  loop : ∀ c, (s.conn c).loop ≤ s.n
  next : s.n = 0 ∨ s.next < s.n
  batch : ∀ L, (s.loops L).phase = .draining ∨ (s.loops L).tempRuns = []

theorem init_formed (n : Nat) (user : Bool) (listenfd : Int) (address : ConnId → TcpConnection.Addr) :
    (init n user listenfd address).Formed where
  loop := fun _ => Nat.zero_le _
  next := by simp only [init]; omega
  batch := fun _ => Or.inr rfl

theorem getNextLoop_le {s : Server} (hs : s.Formed) :
    s.getNextLoop.2 ≤ s.n ∧ (s.n = 0 ∨ s.getNextLoop.1.next < s.n) := by
  have hnext := hs.next
  unfold getNextLoop
  split
  · rename_i hn
    exact ⟨Nat.zero_le _, Or.inl hn⟩
  · simp only
    split <;> omega

theorem step_batch {s u : Server} {l : Label} (hs : s.Formed) (h : step s l = some u) (L : Nat) :
    (u.loops L).phase = .draining ∨ (u.loops L).tempRuns = [] := by
  have hstable : ∀ {t : Server}, Stable s t → (t.loops L).phase = .draining ∨ (t.loops L).tempRuns = [] := by
    intro t ht
    rw [ht.phase, ht.tempRuns]
    exact hs.batch L
  have hset : ∀ {t : Server} (M : Nat) (lp : Loop), lp.phase = .draining ∨ lp.tempRuns = [] →
      t.loops = s.loops →
        ((t.setLoop M lp).loops L).phase = .draining ∨ ((t.setLoop M lp).loops L).tempRuns = [] := by
    intro t M lp hlp ht
    by_cases hL : L = M
    · subst hL
      simpa [setLoop] using hlp
    · simpa [setLoop, hL, ht] using hs.batch L
  cases l with
  | poll M events =>
    obtain ⟨⟨hready, -⟩, rfl⟩ := Machine.guard_some.mp h
    refine hset M _ (Or.inr ?_) (setRevents_loops s events)
    exact (hs.batch M).resolve_left (by simp [hready.2.2.1])
  | accept fd =>
    obtain ⟨rest, -, -, -, rfl⟩ := accept_inv h
    have hpop := hset 0 { s.loops 0 with active := rest } (hs.batch 0) rfl
    simpa [takeActive] using hpop
  | statement =>
    obtain ⟨c, stage, -, -, rfl⟩ := statement_inv h
    exact hstable (s.statement_stable c stage)
  | handle M res w =>
    obtain ⟨c, rest, -, -, hmoves⟩ := handle_moves h
    rw [hmoves.stable.phase, hmoves.stable.tempRuns]
    exact hset M _ (hs.batch M) rfl
  | return_ M w =>
    obtain ⟨c, rest, -, -, -, rfl⟩ := return_inv h
    exact hstable (s.return_stable M c w rest)
  | act M a =>
    obtain ⟨arg, -, -, -, -, rfl⟩ := act_inv h
    exact hstable (s.act_stable _ a)
  | foreign a =>
    obtain ⟨-, rfl⟩ := Machine.guard_some.mp h
    exact hstable (s.act_stable _ a)
  | swap M =>
    obtain ⟨-, rfl⟩ := Machine.guard_some.mp h
    exact hset M _ (Or.inl rfl) rfl
  | runFunctor M w =>
    obtain ⟨f, rest, -, hready, rfl⟩ := runFunctor_inv h
    have hrun := runFunctor_stable
      (s.takeFunctor M f rest) M w f
    rw [hrun.phase, hrun.tempRuns]
    exact hset M _ (Or.inl hready.2.2.1) rfl
  | endBatch M =>
    obtain ⟨⟨-, hruns⟩, rfl⟩ := Machine.guard_some.mp h
    exact hset M _ (Or.inr hruns) rfl

theorem accept_formed {s : Server} (hs : s.Formed) (fd : Int) (c : ConnId) :
    ((s.accept fd).conn c).loop ≤ s.n ∧ (s.n = 0 ∨ (s.accept fd).next < s.n) := by
  refine ⟨?_, by simpa using (getNextLoop_le hs).2⟩
  by_cases hc : c = s.size
  · subst hc
    simpa using (getNextLoop_le hs).1
  · rw [accept_old s fd hc]
    exact hs.loop c

theorem step_formed {s u : Server} {l : Label} (hs : s.Formed) (h : step s l = some u) : u.Formed := by
  by_cases hl : ∃ fd, l = .accept fd
  · obtain ⟨fd, rfl⟩ := hl
    have hbatch := step_batch hs h
    obtain ⟨rest, -, -, -, rfl⟩ := accept_inv h
    have hpop : (s.takeActive 0 rest).Formed := by
      refine ⟨hs.loop, hs.next, fun L => ?_⟩
      by_cases hL : L = 0
      · subst hL
        simpa using hs.batch 0
      · simpa [takeActive, setLoop, hL] using hs.batch L
    have hn : ((s.takeActive 0 rest).accept fd).n = s.n := accept_n _ fd
    refine ⟨fun c => ?_, ?_, hbatch⟩
    · rw [hn]
      exact (accept_formed hpop fd c).1
    · rw [hn]
      exact (accept_formed hpop fd 0).2
  · have hfixed := step_fixed h fun fd hfd => hl ⟨fd, hfd⟩
    refine ⟨fun c => ?_, ?_, step_batch hs h⟩
    · rw [hfixed.loop, hfixed.n]
      exact hs.loop c
    · rw [hfixed.next, hfixed.n]
      exact hs.next

end Muduo.Server
