import Muduo.Connection.Stream
import Muduo.Connection.Updates
import Muduo.Server.Threads

/-! # The streams of a server

What the threads of a server do with one of its connections is a history of calls, one after the other. The stream of
a connection is conserved in the midst of the others as it is by itself.
-/

namespace Muduo

namespace Link

/-- What a step of a server can do with a connection. -/
inductive Op where
  | create (sockfd : Int)
  | call (e : Event)
  | setRevents (revents : Events)
  | enableReading
  | setUser
  | setUpLayerCloseCallback
  | disableChannel

def Op.conn (tcp : TcpConnection) : Op → TcpConnection
  | .create sockfd => TcpConnection.init sockfd
  | .call (.sendInLoop message w) => (tcp.sendInLoop message w).conn
  | .call (.handleWrite w) => (tcp.handleWrite w).conn
  | .call (.handleRead res) => (tcp.handleRead res).1
  | .setRevents revents => { tcp with pSocketChannel := tcp.pSocketChannel.setRevents revents }
  | .enableReading => tcp.enableReading.1
  | .setUser => tcp.setUser
  | .setUpLayerCloseCallback => tcp.setUpLayerCloseCallback
  | .disableChannel => tcp.disableChannel.1

/-- What an operation asks of epoll. -/
def Op.ctls (tcp : TcpConnection) : Op → List Ctl
  | .call (.sendInLoop message w) => Link.ctls (tcp.sendInLoop message w).effects
  | .call (.handleWrite w) => Link.ctls (tcp.handleWrite w).effects
  | .enableReading => [tcp.enableReading.2]
  | .disableChannel => [tcp.disableChannel.2]
  | .create _ | .call (.handleRead _) | .setRevents _ | .setUser | .setUpLayerCloseCallback => []

/-- With a connection that is made its stream begins. -/
def apply (k : Link) : Op → Link
  | .create sockfd => ⟨TcpConnection.init sockfd, [], [], false⟩
  | .call e => k.next e
  | op => { k with conn := op.conn k.conn }

theorem apply_conn (k : Link) (op : Op) : (k.apply op).conn = op.conn k.conn := by
  cases op with
  | call e => cases e <;> rfl
  | _ => rfl

/-- A connection that nothing has been sent on. -/
def silent (tcp : TcpConnection) : Link := ⟨tcp, [], [], false⟩

theorem possible_congr {k : Link} {tcp : TcpConnection} (h : k.conn = tcp) (e : Event) :
    k.Possible e ↔ (silent tcp).Possible e := by
  subst h
  cases e <;> exact Iff.rfl

theorem exact_congr {k : Link} {tcp : TcpConnection} (h : k.conn = tcp) (e : Event) :
    k.Exact e ↔ (silent tcp).Exact e := by
  subst h
  cases e <;> exact Iff.rfl

end Link

namespace Server

open Link (Op)

/-! ## The calls of a step -/

section

variable (s : Server) (c : ConnId)

def testOutOp (w : WriteResult) : Option Op :=
  if s.alive c && s.revents c &&& EPOLLOUT != 0 then some (.call (.handleWrite w)) else none

def handleReadOp (res : Buffer.ReadResult) (w : WriteResult) : Option Op :=
  match ((s.conn c).tcp.handleRead res).2 with
  | .onMessage => some (.call (.handleRead res))
  | .handleClose => some .disableChannel
  | .nothing => s.testOutOp c w

def handleEventOp (res : Buffer.ReadResult) (w : WriteResult) : Option Op :=
  if s.alive c then
    if s.revents c &&& EPOLLHUP != 0 && s.revents c &&& EPOLLIN == 0 then some .disableChannel
    else if s.revents c &&& EPOLLIN != 0 then s.handleReadOp c res w else s.testOutOp c w
  else none

def statementOp : Stage → Option Op
  | .enableReading => some .enableReading
  | .setUser => if s.user then some .setUser else none
  | .setUpLayerCloseCallback => some .setUpLayerCloseCallback
  | .sharedPtr | .insert | .runInLoop => none

def returnOp (L : Nat) (w : WriteResult) : Rest → Option Op
  | .connected | .established | .completed => none
  | .read => (s.setFrame L .idle).testOutOp c w
  | .closed _ =>
    let s := if (s.conn c).tcp.closeCallback then s.removeConnection c else s
    (s.setFrame L .idle).testOutOp c w

def runFunctorOp (w : WriteResult) : Queued → Option Op
  | .bound d (.onMessageCB message) => if s.pointee d = some c then some (.call (.sendInLoop message w)) else none
  | _ => none

/-- The connection that user code acts on. -/
def Act.conn : Act → ConnId
  | .send c _ _ | .keep c | .drop c => c

def actOp (thread : Option Nat) : Act → Option Op
  | .send c message w => if thread = some (s.conn c).loop then some (.call (.sendInLoop message w)) else none
  | .keep _ | .drop _ => none

/-- What a step does with connection `c`, if it does anything with it. -/
def op : Label → Option Op
  | .poll _ events => (events.find? (·.1 = .conn c)).map fun p => .setRevents p.2
  | .accept fd => if c = s.size then some (.create fd) else none
  | .statement =>
    match (s.loops 0).frame with
    | .newConnection d stage => if d = c then s.statementOp stage else none
    | _ => none
  | .handle L res w =>
    match (s.loops L).active with
    | .conn d :: rest => if d = c then (s.takeActive L rest).handleEventOp d res w else none
    | _ => none
  | .return_ L w =>
    match (s.loops L).frame with
    | .user d rest => if d = c then s.returnOp d L w rest else none
    | _ => none
  | .act L a => if a.conn = c then s.actOp (some L) a else none
  | .runFunctor L w =>
    match (s.loops L).tempRuns with
    | f :: rest => (s.takeFunctor L f rest).runFunctorOp c w f
    | [] => none
  | _ => none

end

/-- The interest lists behind these calls of `epoll_ctl` for `c`. -/
def controls (s : Server) (c : ConnId) (ctls : List Ctl) : Nat → Interest Source :=
  Function.update s.interest (s.conn c).loop
    (ctls.foldl (fun interest ctl => epollCtl (.conn c) ctl interest) (s.interest (s.conn c).loop))

/-- From `s` to `u` this was done with `c`, and nothing with the other connections. -/
structure Does (s : Server) (c : ConnId) (op : Option Op) (u : Server) : Prop where
  conn : ∀ d, (u.conn d).tcp =
    if d = c then op.elim (s.conn d).tcp (Op.conn (s.conn d).tcp) else (s.conn d).tcp
  interest : u.interest = op.elim s.interest fun op => s.controls c (op.ctls (s.conn c).tcp)

section

variable {s t u : Server} {c : ConnId}

theorem controls_nil (s : Server) (c : ConnId) : s.controls c [] = s.interest :=
  Function.update_eq_self (s.conn c).loop s.interest

theorem does_none (h : u.conn = s.conn) (hinterest : u.interest = s.interest) : s.Does c none u :=
  ⟨fun d => by rw [h]; simp, hinterest⟩

theorem Does.observed {o : Obs} {op : Option Op} (h : (s.observe o).Does c op u) : s.Does c op u :=
  ⟨h.conn, h.interest⟩

theorem Does.entered {L : Nat} {frame : Frame} {op : Option Op} (h : (s.setFrame L frame).Does c op u) :
    s.Does c op u :=
  ⟨h.conn, h.interest⟩

theorem Does.before {op : Option Op} (h : s.Does c op t) (hconn : u.conn = t.conn)
    (hinterest : u.interest = t.interest) : s.Does c op u where
  conn := fun d => by rw [hconn, h.conn d]
  interest := by rw [hinterest, h.interest]

theorem does_setConn (op : Op) {k : Conn} (h : k.tcp = op.conn (s.conn c).tcp) (hctls : op.ctls (s.conn c).tcp = []) :
    s.Does c (some op) (s.setConn c k) where
  conn := fun d => by
    by_cases hd : d = c
    · subst hd
      simp [setConn, h]
    · simp [setConn, hd]
  interest := by
    rw [Option.elim_some, hctls, controls_nil]
    rfl

theorem does_setTcp (op : Op) {tcp : TcpConnection} (h : tcp = op.conn (s.conn c).tcp)
    (hctls : op.ctls (s.conn c).tcp = []) : s.Does c (some op) (s.setTcp c tcp) :=
  does_setConn op (k := { s.conn c with tcp }) h hctls

theorem effects_interest (s : Server) (c : ConnId) (effects : List Effect) :
    (effects.foldl (effect c) s).interest = s.controls c (Link.ctls effects) := by
  induction effects generalizing s with
  | nil => exact (s.controls_nil c).symm
  | cons e effects ih =>
    rw [List.foldl_cons, ih]
    cases e with
    | write data w => rfl
    | queueInLoop f => rfl
    | epollCtl ctl =>
      change (s.control c ctl).controls c (Link.ctls effects) = _
      simp [controls, control, Link.ctls]

theorem does_called (op : Op) {call : Call} (h : call.conn = op.conn (s.conn c).tcp)
    (hctls : op.ctls (s.conn c).tcp = Link.ctls call.effects) : s.Does c (some op) (s.called c call) where
  conn := fun d => by
    by_cases hd : d = c
    · subst hd
      rw [if_pos rfl, called_tcp, h]
      rfl
    · rw [if_neg hd, (s.called_quiet c call).others d hd]
  interest := by
    rw [called_eq, effects_interest, Option.elim_some, hctls]
    simp [controls, setTcp, setConn]

theorem testOut_does (s : Server) (c : ConnId) (w : WriteResult) : s.Does c (s.testOutOp c w) (s.testOut c w) := by
  rw [testOut_eq, testOutOp]
  by_cases h : (s.alive c && s.revents c &&& EPOLLOUT != 0) = true
  · rw [if_pos h, if_pos h]
    exact Does.observed (does_called (.call (.handleWrite w)) rfl rfl).observed
  · rw [if_neg h, if_neg h]
    exact does_none rfl rfl

theorem onMessage_same (s : Server) (L : Nat) (c : ConnId) :
    (s.onMessage L c).conn = s.conn ∧ (s.onMessage L c).interest = s.interest := by
  rw [onMessage_eq]
  split <;> exact ⟨rfl, rfl⟩

theorem disableChannel_does (s : Server) (c : ConnId) : s.Does c (some .disableChannel) (s.disableChannel c) where
  conn := fun d => by
    rw [disableChannel_tcp]
    by_cases hd : d = c
    · subst hd
      rw [if_pos rfl, if_pos rfl]
      rfl
    · rw [if_neg hd, if_neg hd]
  interest := by simp [disableChannel_eq, controls, control, setTcp, setConn, observe, Op.ctls]

theorem handleClose_does (s : Server) (L : Nat) (c : ConnId) : s.Does c (some .disableChannel) (s.handleClose L c) := by
  rw [handleClose_eq]
  split
  · split <;> exact (s.disableChannel_does c).before rfl rfl
  · exact (s.disableChannel_does c).before rfl rfl

theorem handleRead_does (s : Server) (L : Nat) (c : ConnId) (res : Buffer.ReadResult) (w : WriteResult) :
    s.Does c (s.handleReadOp c res w) (s.handleRead L c res w) := by
  rw [handleRead_eq, handleReadOp]
  rcases hread : (s.conn c).tcp.handleRead res with ⟨tcp, next⟩
  cases next with
  | onMessage =>
    have htcp : tcp = Op.conn (s.conn c).tcp (.call (.handleRead res)) := by
      simp only [Op.conn, hread]
    obtain ⟨hconn, hinterest⟩ := ((s.observe (.handler c .handleRead (s.ready c))).setTcp c tcp).onMessage_same L c
    have hset : (s.observe (.handler c .handleRead (s.ready c))).Does c (some (.call (.handleRead res)))
        ((s.observe (.handler c .handleRead (s.ready c))).setTcp c tcp) := does_setTcp _ htcp rfl
    exact (hset.before hconn hinterest).observed
  | handleClose => exact (handleClose_does _ L c).observed
  | nothing => exact (testOut_does _ c w).observed

theorem handleEvent_does (s : Server) (L : Nat) (c : ConnId) (res : Buffer.ReadResult) (w : WriteResult) :
    s.Does c (s.handleEventOp c res w) (s.handleEvent L c res w) := by
  rw [handleEvent_eq, handleEventOp]
  by_cases halive : s.alive c = true
  · rw [if_pos halive, if_pos halive]
    by_cases hhup : (s.revents c &&& EPOLLHUP != 0 && s.revents c &&& EPOLLIN == 0) = true
    · rw [if_pos hhup, if_pos hhup]
      exact (handleClose_does _ L c).observed
    · rw [if_neg hhup, if_neg hhup, testIn_eq, if_pos (show (s.observe _).alive c = true from halive)]
      by_cases hin : (s.revents c &&& EPOLLIN != 0) = true
      · rw [if_pos hin, if_pos (show ((s.observe _).revents c &&& EPOLLIN != 0) = true from hin)]
        exact Does.observed (handleRead_does _ L c res w).observed
      · rw [if_neg hin, if_neg (show ¬((s.observe _).revents c &&& EPOLLIN != 0) = true from hin)]
        exact Does.observed (testOut_does _ c w).observed
  · rw [if_neg halive, if_neg halive]
    exact does_none rfl rfl

theorem connectEstablished_same (s : Server) (L : Nat) (c : ConnId) (rest : Rest) :
    (s.connectEstablished L c rest).conn = s.conn ∧ (s.connectEstablished L c rest).interest = s.interest := by
  unfold connectEstablished
  split <;> exact ⟨rfl, rfl⟩

theorem statement_does (s : Server) (c : ConnId) (stage : Stage) :
    s.Does c (s.statementOp stage) (s.statement c stage) := by
  cases stage with
  | enableReading =>
    refine ⟨fun d => ?_, by
      simp [statement, statementOp, controls, control, setTcp, setConn, setFrame, setLoop, Op.ctls]⟩
    by_cases hd : d = c
    · subst hd
      simp [statement, statementOp, control, setTcp, setConn, setFrame, setLoop, Op.conn]
    · simp [statement, control, setTcp, setConn, setFrame, setLoop, hd]
  | setUser =>
    simp only [statement, statementOp]
    split
    · exact (does_setTcp .setUser rfl rfl).before rfl rfl
    · exact does_none rfl rfl
  | setUpLayerCloseCallback => exact (does_setTcp .setUpLayerCloseCallback rfl rfl).before rfl rfl
  | sharedPtr =>
    refine ⟨fun d => ?_, rfl⟩
    by_cases hd : d = c
    · subst hd
      simp [statement, statementOp, setFrame, setLoop, setConn]
    · simp [statement, setFrame, setLoop, setConn, hd]
  | insert => exact does_none rfl rfl
  | runInLoop =>
    simp only [statement, statementOp]
    split
    · obtain ⟨hconn, hinterest⟩ := s.connectEstablished_same 0 c .connected
      exact does_none hconn hinterest
    · exact does_none rfl rfl

theorem return_does (s : Server) (L : Nat) (c : ConnId) (w : WriteResult) (rest : Rest) :
    s.Does c (s.returnOp c L w rest) (s.return_ L c w rest) := by
  cases rest with
  | connected | established | completed => exact does_none rfl rfl
  | read => exact ((s.setFrame L .idle).testOut_does c w).entered
  | closed called =>
    simp only [return_, returnOp]
    split
    · have h := ((s.removeConnection c).setFrame L .idle).testOut_does c w
      exact ⟨h.conn, h.interest⟩
    · exact ((s.setFrame L .idle).testOut_does c w).entered

theorem held_tcp (s : Server) (d : ConnId) {k : Conn} (hk : k.tcp = (s.conn d).tcp) (c : ConnId) :
    ((s.setConn d k).conn c).tcp = (s.conn c).tcp := by
  by_cases hd : c = d
  · subst hd
    simpa [setConn] using hk
  · simp [setConn, hd]

theorem actOp_none (s : Server) (a : Act) : s.actOp none a = none := by
  cases a <;> simp [actOp]

theorem act_does (s : Server) (thread : Option Nat) (a : Act) : s.Does a.conn (s.actOp thread a) (s.act thread a) := by
  cases a with
  | send d message w =>
    simp only [act, actOp]
    split
    · exact does_called (.call (.sendInLoop message w)) rfl rfl
    · exact does_none rfl rfl
  | keep d =>
    refine ⟨fun c => ?_, rfl⟩
    rw [show (s.act thread (.keep d)) = s.setConn d { s.conn d with held := (s.conn d).held + 1 } from rfl, held_tcp]
    · simp [actOp]
    · rfl
  | drop d =>
    refine ⟨fun c => ?_, rfl⟩
    rw [show (s.act thread (.drop d)) = s.setConn d { s.conn d with held := (s.conn d).held - 1 } from rfl, held_tcp]
    · simp [actOp]
    · rfl

theorem runFunctor_does (s : Server) (L : Nat) (w : WriteResult) (q : Queued) :
    ∃ c, s.Does c (s.runFunctorOp c w q) (s.runFunctor L w q) ∧ ∀ d, d ≠ c → s.runFunctorOp d w q = none := by
  cases q with
  | connectEstablished c =>
    obtain ⟨hconn, hinterest⟩ := s.connectEstablished_same L c .established
    exact ⟨c, does_none hconn hinterest, fun _ _ => rfl⟩
  | bound c f =>
    rcases s.runFunctor_bound L w c f with ⟨d, hd, heq⟩ | ⟨hnone, heq⟩
    · rw [heq]
      cases f with
      | onWriteComplateCB =>
        refine ⟨d, ?_, fun _ _ => rfl⟩
        rw [callFunctor_completed]
        split <;> exact does_none rfl rfl
      | onMessageCB message =>
        refine ⟨d, ?_, fun e he => if_neg fun hpointee => he (Option.some.inj (hpointee.symm.trans hd))⟩
        simp only [runFunctorOp]
        rw [if_pos hd]
        have hcall : (s.observe (.functor c (.onMessageCB message) (s.alive c))).Does d
            (some (.call (.sendInLoop message w)))
            ((s.observe (.functor c (.onMessageCB message) (s.alive c))).called d
              ((s.conn d).tcp.sendInLoop message w)) :=
          does_called _ rfl rfl
        exact ⟨hcall.conn, hcall.interest⟩
    · rw [heq]
      have hop : ∀ d, s.runFunctorOp d w (.bound c f) = none := by
        intro d
        cases f with
        | onWriteComplateCB => rfl
        | onMessageCB message => exact if_neg (by simp [hnone])
      refine ⟨c, ?_, fun d _ => hop d⟩
      rw [hop c]
      exact does_none rfl rfl

theorem setRevents_tcp (s : Server) (c : ConnId) {events : List (Source × Events)} (h : (events.map Prod.fst).Nodup) :
    ((s.setRevents events).conn c).tcp =
      ((events.find? (·.1 = .conn c)).map fun p => Op.setRevents p.2).elim (s.conn c).tcp (Op.conn (s.conn c).tcp) := by
  induction events generalizing s with
  | nil => rfl
  | cons p events ih =>
    obtain ⟨src, revents⟩ := p
    obtain ⟨hnew, hnodup⟩ := List.nodup_cons.mp h
    cases src with
    | listen => simpa [setRevents] using ih s hnodup
    | conn d =>
      rw [setRevents, ih _ hnodup]
      by_cases hd : d = c
      · -- No later entry is of the same channel.
        subst hd
        have hnone : events.find? (·.1 = .conn d) = none := by
          rw [List.find?_eq_none]
          rintro ⟨src, revents'⟩ hin hsrc
          rw [decide_eq_true_eq] at hsrc
          exact hnew (List.mem_map.mpr ⟨_, hin, hsrc⟩)
        rw [hnone]
        simp [setTcp, setConn, Op.conn]
      · have hconn : (s.setTcp d { (s.conn d).tcp with
            pSocketChannel := (s.conn d).tcp.pSocketChannel.setRevents revents }).conn c = s.conn c :=
          Function.update_of_ne (Ne.symm hd) ..
        rw [hconn, List.find?_cons_of_neg (by simpa using hd)]

theorem step_does {s u : Server} {l : Label} (h : step s l = some u) (haccept : ∀ fd, l ≠ .accept fd)
    (hpoll : ∀ L events, l ≠ .poll L events) : ∃ c, s.Does c (s.op c l) u ∧ ∀ d, d ≠ c → s.op d l = none := by
  cases l with
  | accept fd => exact absurd rfl (haccept fd)
  | poll L events => exact absurd rfl (hpoll L events)
  | statement =>
    obtain ⟨c, stage, hframe, -, rfl⟩ := statement_inv h
    simp only [op, hframe]
    refine ⟨c, ?_, fun d hd => if_neg (Ne.symm hd)⟩
    rw [if_pos rfl]
    exact s.statement_does c stage
  | handle L res w =>
    obtain ⟨c, rest, hactive, -, rfl⟩ := handle_inv h
    simp only [op, hactive]
    refine ⟨c, ?_, fun d hd => if_neg (Ne.symm hd)⟩
    rw [if_pos rfl]
    have hdoes := handleEvent_does (s.takeActive L rest) L c res w
    exact ⟨hdoes.conn, hdoes.interest⟩
  | return_ L w =>
    obtain ⟨c, rest, hframe, -, -, rfl⟩ := return_inv h
    simp only [op, hframe]
    refine ⟨c, ?_, fun d hd => if_neg (Ne.symm hd)⟩
    rw [if_pos rfl]
    exact s.return_does L c w rest
  | act L a =>
    obtain ⟨arg, -, -, -, -, rfl⟩ := act_inv h
    simp only [op]
    refine ⟨a.conn, ?_, fun d hd => if_neg (Ne.symm hd)⟩
    rw [if_pos rfl]
    exact s.act_does (some L) a
  | foreign a =>
    obtain ⟨-, rfl⟩ := Machine.guard_some.mp h
    have hdoes := s.act_does none a
    rw [s.actOp_none a] at hdoes
    exact ⟨a.conn, hdoes, fun _ _ => rfl⟩
  | swap L =>
    obtain ⟨-, rfl⟩ := Machine.guard_some.mp h
    exact ⟨0, does_none rfl rfl, fun _ _ => rfl⟩
  | runFunctor L w =>
    obtain ⟨q, rest, hruns, -, rfl⟩ := runFunctor_inv h
    simp only [op, hruns]
    obtain ⟨c, hdoes, hothers⟩ := runFunctor_does (s.takeFunctor L q rest) L w q
    exact ⟨c, ⟨hdoes.conn, hdoes.interest⟩, hothers⟩
  | endBatch L =>
    obtain ⟨-, rfl⟩ := Machine.guard_some.mp h
    exact ⟨0, does_none rfl rfl, fun _ _ => rfl⟩

/-- Every step does with every connection what its call says, and nothing else. -/
theorem step_op {s u : Server} {l : Label} (h : step s l = some u) (c : ConnId) :
    (u.conn c).tcp = (s.op c l).elim (s.conn c).tcp (Op.conn (s.conn c).tcp) := by
  by_cases haccept : ∃ fd, l = .accept fd
  · obtain ⟨fd, rfl⟩ := haccept
    obtain ⟨rest, -, -, -, rfl⟩ := accept_inv h
    simp only [op]
    by_cases hc : c = s.size
    · subst hc
      rw [if_pos rfl]
      exact congrArg Conn.tcp (accept_new (s.takeActive 0 rest) fd)
    · rw [if_neg hc]
      exact congrArg Conn.tcp (accept_old (s.takeActive 0 rest) fd hc)
  by_cases hpoll : ∃ L events, l = .poll L events
  · obtain ⟨L, events, rfl⟩ := hpoll
    obtain ⟨⟨-, -, hnodup⟩, rfl⟩ := Machine.guard_some.mp h
    exact s.setRevents_tcp c hnodup
  obtain ⟨d, hdoes, hothers⟩ := step_does h (fun fd hfd => haccept ⟨fd, hfd⟩) fun L events hl => hpoll ⟨L, events, hl⟩
  rw [hdoes.conn c]
  by_cases hd : c = d
  · rw [if_pos hd, hd]
  · rw [if_neg hd, hothers c hd]
    rfl

end

/-- If the step calls a member function of `c`, then the thread of the loop of `c` takes it. -/
def CallsInLoop (s : Server) (c : ConnId) (l : Label) : Prop :=
  ∀ e, s.op c l = some (.call e) → l.thread = some (s.conn c).loop

/-! ## Conservation -/

/-- The step of a server, and what it adds to the stream of connection `c`. -/
def follow (c : ConnId) : Server × Link → Label → Option (Server × Link) :=
  Machine.recorded step fun s l k => (s.op c l).elim k k.apply

/-- A server that has started, and a connection that has no stream yet. -/
def opening (n : Nat) (user : Bool) (listenfd : Int) (address : ConnId → TcpConnection.Addr) (c : ConnId) :
    Server × Link :=
  (init n user listenfd address, .silent ((init n user listenfd address).conn c).tcp)

/-- What is passed to `sendInLoop` fits a `std::string`, and `::write` does not accept more of it than there is. -/
def Sized (s : Server) (c : ConnId) (l : Label) : Prop :=
  match s.op c l with
  | some (.call (.sendInLoop message w)) => message.length < 0x8000000000000000 ∧ w.Possible message.length
  | _ => True

/-- If the step calls a member function of `c`, then the call is exact. -/
def Exact (s : Server) (c : ConnId) (l : Label) : Prop :=
  match s.op c l with
  | some (.call e) => (Link.silent (s.conn c).tcp).Exact e
  | _ => True

instance (s : Server) (c : ConnId) (l : Label) : Decidable (s.Sized c l) := by
  unfold Sized
  split <;> infer_instance

instance (s : Server) (c : ConnId) (l : Label) : Decidable (s.Exact c l) := by
  unfold Exact
  split <;> infer_instance

section

variable {s u : Server} {l : Label} {c : ConnId} {k : Link}

theorem follow_conn {k' : Link} (hconn : k.conn = (s.conn c).tcp) (h : follow c (s, k) l = some (u, k')) :
    k'.conn = (u.conn c).tcp := by
  obtain ⟨hstep, rfl⟩ := Machine.recorded_inv h
  rw [step_op hstep]
  cases s.op c l with
  | none => exact hconn
  | some op => rw [Option.elim_some, Option.elim_some, Link.apply_conn, hconn]

theorem testOutOp_some {w : WriteResult} {op : Op} (h : s.testOutOp c w = some op) : op = .call (.handleWrite w) := by
  unfold testOutOp at h
  split at h <;> cases h
  rfl

theorem handleEventOp_some {res : Buffer.ReadResult} {w : WriteResult} {op : Op}
    (h : s.handleEventOp c res w = some op) :
    op = .disableChannel ∨ op = .call (.handleWrite w) ∨
      (op = .call (.handleRead res) ∧ ((s.conn c).tcp.handleRead res).2 = .onMessage) := by
  unfold handleEventOp at h
  split at h
  · split at h
    · cases h
      exact Or.inl rfl
    · split at h
      · unfold handleReadOp at h
        split at h
        · cases h
          exact Or.inr (Or.inr ⟨rfl, by assumption⟩)
        · cases h
          exact Or.inl rfl
        · exact Or.inr (Or.inl (testOutOp_some h))
      · exact Or.inr (Or.inl (testOutOp_some h))
  · cases h

theorem actOp_some {thread : Option Nat} {a : Act} {op : Op} (h : s.actOp thread a = some op) :
    ∃ message w, op = .call (.sendInLoop message w) := by
  cases a with
  | send d message w =>
    simp only [actOp] at h
    split at h <;> cases h
    exact ⟨message, w, rfl⟩
  | keep d => cases h
  | drop d => cases h

theorem statementOp_some {stage : Stage} {op : Op} (h : s.statementOp stage = some op) :
    op = .enableReading ∨ op = .setUser ∨ op = .setUpLayerCloseCallback := by
  cases stage with
  | enableReading => exact Or.inl (Option.some.inj h).symm
  | setUser =>
    simp only [statementOp] at h
    split at h <;> cases h
    exact Or.inr (Or.inl rfl)
  | setUpLayerCloseCallback => exact Or.inr (Or.inr (Option.some.inj h).symm)
  | sharedPtr | insert | runInLoop => cases h

theorem returnOp_some {L : Nat} {w : WriteResult} {rest : Rest} {op : Op} (h : s.returnOp c L w rest = some op) :
    op = .call (.handleWrite w) := by
  cases rest with
  | connected | established | completed => cases h
  | read | closed called => exact testOutOp_some h

theorem runFunctorOp_some {w : WriteResult} {q : Queued} {op : Op} (h : s.runFunctorOp c w q = some op) :
    ∃ d message, q = .bound d (.onMessageCB message) ∧ s.pointee d = some c ∧ op = .call (.sendInLoop message w) := by
  unfold runFunctorOp at h
  split at h
  · rename_i d message
    split at h <;> cases h
    exact ⟨d, message, rfl, by assumption, rfl⟩
  · cases h

theorem op_create {fd : Int} (hop : s.op c l = some (.create fd)) : l = .accept fd ∧ c = s.size := by
  cases l with
  | accept fd' =>
    simp only [op] at hop
    split at hop <;> cases hop
    exact ⟨rfl, by assumption⟩
  | poll L events =>
    simp only [op, Option.map_eq_some_iff] at hop
    obtain ⟨p, -, hp⟩ := hop
    cases hp
  | statement =>
    simp only [op] at hop
    split at hop
    · split at hop
      · rcases statementOp_some hop with he | he | he <;> cases he
      · cases hop
    · cases hop
  | handle L res w =>
    simp only [op] at hop
    split at hop
    · split at hop
      · rcases handleEventOp_some hop with he | he | ⟨he, -⟩ <;> cases he
      · cases hop
    · cases hop
  | return_ L w =>
    simp only [op] at hop
    split at hop
    · split at hop
      · cases returnOp_some hop
      · cases hop
    · cases hop
  | act L a =>
    simp only [op] at hop
    split at hop
    · obtain ⟨message, w, he⟩ := actOp_some hop
      cases he
    · cases hop
  | runFunctor L w =>
    simp only [op] at hop
    split at hop
    · obtain ⟨d, message, -, -, he⟩ := runFunctorOp_some hop
      cases he
    · cases hop
  | foreign a => cases hop
  | swap L => cases hop
  | endBatch L => cases hop

theorem step_callsInLoop (hs : s.Placed) (hlives : s.FunctorLives l) : s.CallsInLoop c l := by
  intro e hop
  cases l with
  | poll L events =>
    simp only [op, Option.map_eq_some_iff] at hop
    obtain ⟨p, -, hp⟩ := hop
    cases hp
  | accept fd =>
    simp only [op] at hop
    split at hop <;> cases hop
  | statement =>
    simp only [op] at hop
    split at hop
    · split at hop
      · rcases statementOp_some hop with he | he | he <;> cases he
      · cases hop
    · cases hop
  | handle L res w =>
    simp only [op] at hop
    split at hop
    · rename_i d rest hactive
      split at hop
      · subst d
        exact congrArg some (hs.active L c (by rw [hactive]; exact List.mem_cons_self)).2
      · cases hop
    · cases hop
  | return_ L w =>
    simp only [op] at hop
    split at hop
    · rename_i d rest hframe
      split at hop
      · subst d
        refine congrArg some ((hs.user L c rest hframe).2 ?_)
        rintro rfl
        cases hop
      · cases hop
    · cases hop
  | act L a =>
    simp only [op] at hop
    split at hop
    · subst c
      cases a with
      | send d message w =>
        simp only [actOp] at hop
        split at hop
        · assumption
        · cases hop
      | keep d => cases hop
      | drop d => cases hop
    · cases hop
  | runFunctor L w =>
    simp only [op] at hop
    split at hop
    · rename_i q rest hruns
      obtain ⟨d, message, rfl, hpointee, -⟩ := runFunctorOp_some hop
      rw [takeFunctor_pointee hruns, hlives.pointee hruns] at hpointee
      obtain rfl := Option.some.inj hpointee
      have hd : s.Assigned L d :=
        hs.functors L (.bound d (.onMessageCB message)) (Or.inl (by rw [hruns]; exact List.mem_cons_self))
      exact congrArg some hd.2
    · cases hop
  | foreign a => cases hop
  | swap L => cases hop
  | endBatch L => cases hop

theorem run_callsInLoop {n : Nat} {user : Bool} {listenfd : Int} {address : ConnId → TcpConnection.Addr}
    {labels : List Label} (hlives : Machine.Meets step FunctorLives (init n user listenfd address) labels) :
    Machine.Meets step (fun s l => s.CallsInLoop c l) (init n user listenfd address) labels :=
  Machine.meets_of_meets (fun _ _ _ hs _ h => step_rooted hs h)
    (fun _ _ hs hl => step_callsInLoop hs.placed hl) (init_rooted n user listenfd address) hlives

theorem handle_possible {L : Nat} {res : Buffer.ReadResult} {w : WriteResult} (h : step s (.handle L res w) = some u)
    {rest : List Source} (hactive : (s.loops L).active = .conn c :: rest) :
    (s.conn c).tcp.inBuf.raw.Allowed (.readFd res) ∧ w.Possible (s.conn c).tcp.outBuf.readableBytes := by
  simp only [step, hactive] at h
  exact (Machine.guard_some.mp h).1.2

theorem return_possible {L : Nat} {w : WriteResult} (h : step s (.return_ L w) = some u) {rest : Rest}
    (hframe : (s.loops L).frame = .user c rest) : w.Possible (s.conn c).tcp.outBuf.readableBytes := by
  simp only [step, hframe] at h
  exact (Machine.guard_some.mp h).1.2.2

theorem op_possible (h : step s l = some u) (hsized : s.Sized c l) {e : Link.Event} (hop : s.op c l = some (.call e)) :
    (Link.silent (s.conn c).tcp).Possible e := by
  rw [Sized, hop] at hsized
  cases l with
  | poll L events =>
    simp only [op, Option.map_eq_some_iff] at hop
    obtain ⟨p, -, hp⟩ := hop
    cases hp
  | accept fd =>
    simp only [op] at hop
    split at hop <;> cases hop
  | statement =>
    obtain ⟨d, stage, hframe, -, -⟩ := statement_inv h
    simp only [op, hframe] at hop
    split at hop
    · rcases statementOp_some hop with he | he | he <;> cases he
    · cases hop
  | handle L res w =>
    obtain ⟨d, rest, hactive, -, -⟩ := handle_inv h
    simp only [op, hactive] at hop
    split at hop
    · subst d
      obtain ⟨hallowed, hw⟩ := handle_possible h hactive
      rcases handleEventOp_some hop with he | he | ⟨he, hnext⟩
      · cases he
      · cases he
        exact hw
      · cases he
        have hread : ((s.conn c).tcp.handleRead res).2 = .onMessage := hnext
        exact ⟨hallowed, by simp [Link.silent, hread]⟩
    · cases hop
  | return_ L w =>
    obtain ⟨d, rest, hframe, -, -, -⟩ := return_inv h
    simp only [op, hframe] at hop
    split at hop
    · subst d
      cases returnOp_some hop
      exact return_possible h hframe
    · cases hop
  | act L a =>
    simp only [op] at hop
    split at hop
    · obtain ⟨message, w, he⟩ := actOp_some hop
      cases he
      exact hsized
    · cases hop
  | runFunctor L w =>
    obtain ⟨q, rest, hruns, -, -⟩ := runFunctor_inv h
    simp only [op, hruns] at hop
    obtain ⟨d, message, -, -, he⟩ := runFunctorOp_some hop
    cases he
    exact hsized
  | foreign a => cases hop
  | swap L => cases hop
  | endBatch L => cases hop

theorem apply_conserved {k : Link} (h : k.Conserved) {op : Op} (hcall : ∀ e, op ≠ .call e) :
    (k.apply op).Conserved := by
  cases op with
  | create sockfd => exact ⟨rfl, WfBuffer.content_init Buffer.kInitialSize⟩
  | call e => exact absurd rfl (hcall e)
  | _ => exact h

theorem follow_step {k k' : Link} (hconn : k.conn = (s.conn c).tcp) (hconserved : k.Conserved) (hsized : s.Sized c l)
    (h : follow c (s, k) l = some (u, k')) : k'.Conserved ↔ s.Exact c l := by
  obtain ⟨hstep, rfl⟩ := Machine.recorded_inv h
  cases hop : s.op c l with
  | none => simpa [hop, Exact] using hconserved
  | some op =>
    simp only [hop, Option.elim_some, Exact]
    by_cases hcall : ∃ e, op = .call e
    · obtain ⟨e, rfl⟩ := hcall
      have hpos : k.Possible e := (Link.possible_congr hconn e).mpr (op_possible hstep hsized hop)
      exact (Link.next_exact hconserved e hpos).trans (Link.exact_congr hconn e)
    · have hquiet : (k.apply op).Conserved := apply_conserved hconserved fun e he => hcall ⟨e, he⟩
      cases op with
      | call e => exact absurd ⟨e, rfl⟩ hcall
      | _ => exact iff_of_true hquiet trivial

theorem follow_always {ls : List Label} (hconn : k.conn = (s.conn c).tcp) (hconserved : k.Conserved)
    (hsized : Machine.Meets step (fun s l => s.Sized c l) s ls) (hrun : Machine.run step s ls = some u) :
    Machine.Always (follow c) (fun p => p.2.Conserved) (s, k) ls ↔
      Machine.Meets step (fun s l => s.Exact c l) s ls := by
  induction ls generalizing s k with
  | nil => exact iff_of_true (Machine.always_nil.mpr hconserved) (Machine.meets_nil s)
  | cons l ls ih =>
    obtain ⟨t, ht, hrest⟩ := Machine.run_cons_some.mp hrun
    obtain ⟨hl, hsized⟩ := (Machine.meets_cons ht).mp hsized
    have hfollow : follow c (s, k) l = some _ := Machine.recorded_some ht k
    have hexact := follow_step hconn hconserved hl hfollow
    rw [Machine.always_cons hfollow, Machine.meets_cons ht, ← hexact]
    constructor
    · rintro ⟨-, hall⟩
      have hnext := hall [] _ List.nil_prefix rfl
      exact ⟨hnext, (ih (follow_conn hconn hfollow) hnext hsized hrest).mp hall⟩
    · rintro ⟨hnext, hmeets⟩
      exact ⟨hconserved, (ih (follow_conn hconn hfollow) hnext hsized hrest).mpr hmeets⟩

/-- The pool's thread sends three bytes in `onConnection`, of which the kernel accepts one. Another thread sends a
fourth one. `handleWrite` accepts the second before the fourth is behind it. -/
def sending : List Label :=
  accepting 5 ++ [.poll 1 [], .swap 1, .runFunctor 1 .error, .act 1 (.send 0 [1, 2, 3] (.ok 1)), .act 1 (.keep 0),
    .return_ 1 .error, .endBatch 1, .foreign (.send 0 [4] .error), .poll 1 [(.conn 0, EPOLLOUT)],
    .handle 1 (.error 11) (.ok 1), .swap 1, .runFunctor 1 .error]

example : ((Machine.run (follow 0) (opening 1 true 3 id 0) sending).map fun p =>
    (p.2.accepted, p.2.conn.outBuf.content, p.2.sent)) = some ([1, 2], [3, 4], [1, 2, 3, 4]) := by decide +kernel

end

end Server

end Muduo
