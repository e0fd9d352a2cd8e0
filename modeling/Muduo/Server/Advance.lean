import Muduo.Server.Functors
import Muduo.Server.Callbacks

/-! # Connections on their way to `onConnection`

The calls of `connectEstablished` that are still to come, and what can act on a connection meanwhile.
-/

namespace Muduo.Server

def Frame.connecting (c : ConnId) : Frame → Nat
  | .newConnection d _ => if d = c then 1 else 0
  | .idle | .user _ _ => 0

def Loop.connecting (c : ConnId) (lp : Loop) : Nat :=
  (lp.tempRuns.map (Queued.holds c)).sum + (lp.pendingFunctors.map (Queued.holds c)).sum

/-- How often `connectEstablished` will still be called for `c`, by `newConnection` or from a queue. -/
def connecting (s : Server) (c : ConnId) : Nat :=
  (s.loops 0).frame.connecting c + ((List.range (s.n + 1)).map fun L => (s.loops L).connecting c).sum

/-- User code or a functor can act on the connection, or its channel waits until it can write. -/
inductive Engaged (s : Server) (c : ConnId) : Prop
  | waits (h : c ∈ s.waiting)
  | held (h : 0 < (s.conn c).held)
  | calls (L : Nat) (rest : Rest) (hframe : (s.loops L).frame = .user c rest) (hrest : rest ≠ .closed false)
  | writes (h : (s.conn c).tcp.pSocketChannel.isWriting = true)

/-- What `newConnection` has set. -/
def Conn.flags (k : Conn) : Bool × Bool × Bool := (k.shared, k.tcp.pUser, k.tcp.closeCallback)

/-- A part of a step that makes no connection and calls no `onConnection`: connections get engaged only behind
a callback. -/
structure Advance (s u : Server) : Prop where
  n : u.n = s.n
  flags : ∀ c, (u.conn c).flags = (s.conn c).flags
  trace : ∃ os, u.trace = s.trace ++ os ∧ ∀ c, .callback c .onConnection ∉ os
  engaged : ∀ c, u.Engaged c → s.Engaged c ∨ u.established c = true
  entering : ∀ c stage, (u.loops 0).frame = .newConnection c stage ↔ (s.loops 0).frame = .newConnection c stage
  queued : ∀ L c, (u.loops L).connecting c = (s.loops L).connecting c

theorem Advance.established {s u : Server} (h : Advance s u) {c : ConnId} (hc : s.established c = true) :
    u.established c = true := by
  obtain ⟨os, htrace, -⟩ := h.trace
  exact established_mono htrace hc

theorem Advance.refl (s : Server) : Advance s s :=
  ⟨rfl, fun _ => rfl, ⟨[], by simp, by simp⟩, fun _ h => Or.inl h, fun _ _ => Iff.rfl, fun _ _ => rfl⟩

theorem Advance.trans {s t u : Server} (h : Advance s t) (k : Advance t u) : Advance s u where
  n := k.n.trans h.n
  flags := fun c => (k.flags c).trans (h.flags c)
  trace := by
    obtain ⟨os, hos, hnone⟩ := h.trace
    obtain ⟨ps, hps, hnone'⟩ := k.trace
    refine ⟨os ++ ps, by rw [hps, hos, List.append_assoc], fun c hc => ?_⟩
    exact (List.mem_append.mp hc).elim (hnone c) (hnone' c)
  engaged := fun c hc => by
    rcases k.engaged c hc with ht | hu
    · exact (h.engaged c ht).imp_right k.established
    · exact Or.inr hu
  entering := fun c stage => (k.entering c stage).trans (h.entering c stage)
  queued := fun L c => (k.queued L c).trans (h.queued L c)

theorem Advance.of_eq {s u : Server} (hn : u.n = s.n) (hconn : u.conn = s.conn) (hloops : u.loops = s.loops)
    {os : List Obs} (htrace : u.trace = s.trace ++ os) (hnone : ∀ c, .callback c .onConnection ∉ os) :
    Advance s u where
  n := hn
  flags := fun c => by rw [hconn]
  trace := ⟨os, htrace, hnone⟩
  engaged := fun c hc => by
    cases hc with
    | waits h =>
      rw [mem_waiting, hn, hloops] at h
      exact Or.inl (.waits (mem_waiting.mpr h))
    | held h => exact Or.inl (.held (hconn ▸ h))
    | calls L rest hframe hrest => exact Or.inl (.calls L rest (hloops ▸ hframe) hrest)
    | writes h => exact Or.inl (.writes (hconn ▸ h))
  entering := fun c stage => by rw [hloops]
  queued := fun L c => by rw [hloops]

theorem observe_advance (s : Server) {o : Obs} (ho : ∀ c, o ≠ .callback c .onConnection) : Advance s (s.observe o) :=
  Advance.of_eq rfl rfl rfl rfl fun c hc => ho c (List.mem_singleton.mp hc).symm

theorem control_advance (s : Server) (c : ConnId) (ctl : Ctl) : Advance s (s.control c ctl) :=
  Advance.of_eq rfl rfl rfl (List.append_nil _).symm (by simp)

theorem crash_advance (s : Server) (b : Bool) : Advance s { s with crashed := b } :=
  Advance.of_eq rfl rfl rfl (List.append_nil _).symm (by simp)

theorem setTable_advance (s : Server) (table : Int → Option ConnId) : Advance s { s with connections := table } :=
  Advance.of_eq rfl rfl rfl (List.append_nil _).symm (by simp)

theorem setConn_advance (s : Server) (c : ConnId) {k : Conn} (hflags : k.flags = (s.conn c).flags)
    (hheld : 0 < k.held → s.Engaged c)
    (hwrites : k.tcp.pSocketChannel.isWriting = true → s.Engaged c) : Advance s (s.setConn c k) where
  n := rfl
  flags := fun d => by
    by_cases hdc : d = c
    · subst hdc
      simpa [setConn] using hflags
    · simp [setConn, hdc]
  trace := ⟨[], (List.append_nil _).symm, by simp⟩
  engaged := fun d hd => by
    by_cases hdc : d = c
    · subst hdc
      cases hd with
      | waits h => exact Or.inl (.waits h)
      | held h => exact Or.inl (hheld (by simpa [setConn] using h))
      | calls L rest hframe hrest => exact Or.inl (.calls L rest hframe hrest)
      | writes h => exact Or.inl (hwrites (by simpa [setConn] using h))
    · have hsame : (s.setConn c k).conn d = s.conn d := Function.update_of_ne hdc _ _
      cases hd with
      | waits h => exact Or.inl (.waits h)
      | held h => exact Or.inl (.held (hsame ▸ h))
      | calls L rest hframe hrest => exact Or.inl (.calls L rest hframe hrest)
      | writes h => exact Or.inl (.writes (hsame ▸ h))
  entering := fun _ _ => Iff.rfl
  queued := fun _ _ => rfl

theorem keeps_flags {k : Conn} {tcp : TcpConnection} (h : k.tcp.Keeps tcp) : { k with tcp }.flags = k.flags := by
  simp only [Conn.flags, h.pUser, h.closeCallback]

theorem setTcp_advance (s : Server) (c : ConnId) (tcp : TcpConnection)
    (hflags : { s.conn c with tcp }.flags = (s.conn c).flags)
    (hwrites : tcp.pSocketChannel.isWriting = true → s.Engaged c) : Advance s (s.setTcp c tcp) :=
  s.setConn_advance c (k := { s.conn c with tcp }) hflags .held hwrites

theorem setLoop_advance (s : Server) (L : Nat) (lp : Loop)
    (hqueues : ∀ f, f ∈ lp.tempRuns ∨ f ∈ lp.pendingFunctors →
      f ∈ (s.loops L).tempRuns ∨ f ∈ (s.loops L).pendingFunctors)
    (hqueued : ∀ c, lp.connecting c = (s.loops L).connecting c)
    (hentering : ∀ c stage, lp.frame = .newConnection c stage ↔ (s.loops L).frame = .newConnection c stage)
    (hcalls : ∀ c rest, lp.frame = .user c rest → rest ≠ .closed false →
      s.established c = true ∨ (s.loops L).frame = .user c rest) : Advance s (s.setLoop L lp) where
  n := rfl
  flags := fun _ => rfl
  trace := ⟨[], (List.append_nil _).symm, by simp⟩
  engaged := fun c hc => by
    cases hc with
    | waits h => exact Or.inl (.waits ((s.setLoop_still L lp hqueues).waiting c h))
    | held h => exact Or.inl (.held h)
    | calls M rest hframe hrest =>
      by_cases hM : M = L
      · subst hM
        simp only [setLoop, Function.update_self] at hframe
        exact (hcalls c rest hframe hrest).symm.imp_left fun h => .calls M rest h hrest
      · simp only [setLoop, Function.update_of_ne hM] at hframe
        exact Or.inl (.calls M rest hframe hrest)
    | writes h => exact Or.inl (.writes h)
  entering := fun c stage => by
    by_cases hL : 0 = L
    · subst hL
      simpa [setLoop] using hentering c stage
    · simp [setLoop, hL]
  queued := fun M c => by
    by_cases hM : M = L
    · subst hM
      simpa [setLoop] using hqueued c
    · simp [setLoop, hM]

theorem takeActive_advance (s : Server) (L : Nat) (rest : List Source) : Advance s (s.takeActive L rest) :=
  s.setLoop_advance L _ (fun _ h => h) (fun _ => rfl) (fun _ _ => Iff.rfl) fun _ _ h _ => Or.inr h

theorem setFrame_advance (s : Server) (L : Nat) (frame : Frame)
    (hold : ∀ c stage, (s.loops L).frame ≠ .newConnection c stage) (hnew : ∀ c stage, frame ≠ .newConnection c stage)
    (hcalls : ∀ c rest, frame = .user c rest → rest ≠ .closed false → s.established c = true) :
    Advance s (s.setFrame L frame) :=
  s.setLoop_advance L _ (fun _ h => h) (fun _ => rfl) (fun c stage => iff_of_false (hnew c stage) (hold c stage))
    fun c rest hframe hrest => Or.inl (hcalls c rest hframe hrest)

theorem leave_advance (s : Server) (L : Nat) (hold : ∀ c stage, (s.loops L).frame ≠ .newConnection c stage) :
    Advance s (s.setFrame L .idle) := s.setFrame_advance L _ hold (by simp) (by simp)

theorem callback_advance (s : Server) {L : Nat} (hidle : (s.loops L).frame = .idle) (c : ConnId) (rest : Rest)
    (cb : Callback) (hcb : cb ≠ .onConnection) :
    Advance s ((s.setFrame L (.user c rest)).observe (.callback c cb)) := by
  have hobserve := s.observe_advance (o := .callback c cb) (by simp [hcb])
  refine hobserve.trans ((s.observe (.callback c cb)).setFrame_advance L (.user c rest) ?_ (by simp) ?_)
  · intro d stage hd
    cases hidle.symm.trans hd
  · rintro d rest' hframe -
    cases hframe
    rw [established_iff, observe, callbacks_append]
    simp [callbacks]

/-! ## Calls -/

theorem Quiet.advance {c : ConnId} {s u : Server} (h : Quiet c s u) (hkeeps : (s.conn c).tcp.Keeps (u.conn c).tcp)
    (hc : s.Engaged c ∨ s.established c = true) : Advance s u where
  n := h.n
  flags := fun d => by
    by_cases hdc : d = c
    · subst hdc
      simp only [Conn.flags, h.kept.2.2, hkeeps.pUser, hkeeps.closeCallback]
    · rw [h.others d hdc]
  trace := ⟨[], by rw [h.trace, List.append_nil], by simp⟩
  engaged := fun d hd => by
    by_cases hdc : d = c
    · subst hdc
      exact hc.imp_right fun hc => by rwa [Server.established, h.trace]
    · cases hd with
      | waits hd =>
        obtain ⟨M, hM, g, hg⟩ := mem_waiting.mp hd
        obtain ⟨fs, hfs⟩ := h.loops M
        rw [hfs] at hg
        simp only [List.mem_append, List.mem_map, Queued.bound.injEq, Ne.symm hdc, false_and, and_false, exists_false,
          or_false] at hg
        exact Or.inl (.waits (mem_waiting.mpr ⟨M, h.n ▸ hM, g, hg⟩))
      | held hd => exact Or.inl (.held (h.others d hdc ▸ hd))
      | calls M rest hframe hrest =>
        obtain ⟨fs, hfs⟩ := h.loops M
        rw [hfs] at hframe
        exact Or.inl (.calls M rest hframe hrest)
      | writes hd => exact Or.inl (.writes (h.others d hdc ▸ hd))
  entering := fun d stage => by
    obtain ⟨fs, hfs⟩ := h.loops 0
    rw [hfs]
  queued := fun M d => by
    obtain ⟨fs, hfs⟩ := h.loops M
    rw [hfs]
    simp only [Loop.connecting, List.map_append, List.sum_append, holds_bound, Nat.add_zero]

theorem called_advance (s : Server) {c : ConnId} {call : Call} (hcall : Calm (s.conn c).tcp call)
    (hc : s.Engaged c ∨ s.established c = true) : Advance s (s.called c call) :=
  (s.called_quiet c call).advance (by rw [called_tcp]; exact hcall.keeps) hc

theorem handleWrite_advance (s : Server) (c : ConnId) (w : WriteResult) :
    Advance s (s.called c ((s.conn c).tcp.handleWrite w)) := by
  by_cases hwrites : (s.conn c).tcp.pSocketChannel.isWriting = true
  · exact s.called_advance (TcpConnection.handleWrite_calm _ w) (Or.inl (.writes hwrites))
  · have hcall : (s.conn c).tcp.handleWrite w = ⟨(s.conn c).tcp, [], false⟩ := by
      rw [TcpConnection.handleWrite, if_neg hwrites]
    rw [hcall]
    exact s.setTcp_advance c _ rfl fun h => absurd h hwrites

theorem handleRead_channel {tcp after : TcpConnection} {res : Buffer.ReadResult} {next : TcpConnection.AfterRead}
    (h : tcp.handleRead res = (after, next)) : after.pSocketChannel = tcp.pSocketChannel := by
  cases res with
  | ok data =>
    simp only [TcpConnection.handleRead] at h
    split at h <;> cases h <;> rfl
  | error errno =>
    simp only [TcpConnection.handleRead] at h
    split at h <;> cases h <;> rfl

theorem disableChannel_advance (s : Server) (c : ConnId) : Advance s (s.disableChannel c) := by
  have hnone : ¬ (s.conn c).tcp.disableChannel.1.pSocketChannel.isWriting = true := by
    simp [TcpConnection.disableChannel, Channel.disableAll, Channel.setIndex, Channel.update, Channel.isWriting]
  have hset := setTcp_advance (s.observe (.handler c .handleClose (s.ready c))) c
    (s.conn c).tcp.disableChannel.1 rfl fun h => absurd h hnone
  exact (s.observe_advance (by simp)).trans (hset.trans (control_advance _ c _))

theorem handleClose_advance (s : Server) {L : Nat} (hidle : (s.loops L).frame = .idle) (c : ConnId) :
    Advance s (s.handleClose L c) := by
  have hclosed := s.disableChannel_advance c
  have hstill : ((s.disableChannel c).loops L).frame = .idle := hidle
  rw [handleClose_eq]
  split
  · split
    · exact hclosed.trans (callback_advance _ hstill c _ .onClose (by simp))
    · refine hclosed.trans (setFrame_advance _ L _ (by simp [hstill]) (by simp) ?_)
      rintro d rest hframe hrest
      cases hframe
      exact absurd rfl hrest
  · exact hclosed.trans (crash_advance _ true)

theorem Move.advance {L : Nat} {c : ConnId} {t u : Server} (h : Move L c t u) : Advance t u := by
  cases h with
  | consult => exact t.observe_advance (by simp)
  | read => exact t.observe_advance (by simp)
  | onMessage halive hidle hread =>
    rename_i res tcp
    have hset := t.setTcp_advance c tcp (keeps_flags (TcpConnection.handleRead_keeps hread))
      fun h => .writes (handleRead_channel hread ▸ h)
    refine hset.trans ?_
    rw [onMessage_eq]
    split
    · exact callback_advance (t.setTcp c tcp) hidle c .read .onMessage (by simp)
    · exact crash_advance _ true
  | close halive hidle => exact t.handleClose_advance hidle c
  | write halive =>
    rename_i w
    exact (t.observe_advance (by simp)).trans (handleWrite_advance (t.observe _) c w)

theorem Moves.advance {L : Nat} {c : ConnId} {s u : Server} (h : Moves L c s u) : Advance s u :=
  moves_invariant (I := Advance s) h (Advance.refl s) fun _ _ ht hmove => ht.trans hmove.advance

theorem testOut_advance (s : Server) (c : ConnId) (w : WriteResult) : Advance s (s.testOut c w) :=
  (s.testOut_moves 0 c w).advance

theorem setRevents_advance (s : Server) (events : List (Source × Events)) : Advance s (s.setRevents events) :=
  setRevents_rel Advance.refl Advance.trans (fun s c _ => s.setTcp_advance c _ rfl .writes) s events

theorem return_advance (s : Server) {L : Nat} {c : ConnId} {rest : Rest} (hframe : (s.loops L).frame = .user c rest)
    (w : WriteResult) : Advance s (s.return_ L c w rest) := by
  have hleave : ∀ t : Server, t.loops = s.loops → Advance t (t.setFrame L .idle) :=
    fun t ht => t.leave_advance L (by simp [ht, hframe])
  cases rest with
  | connected | established | completed => exact hleave s rfl
  | read => exact (hleave s rfl).trans (testOut_advance _ c w)
  | closed called =>
    simp only [return_]
    split
    · exact (s.setTable_advance _).trans ((hleave (s.removeConnection c) rfl).trans (testOut_advance _ c w))
    · exact (hleave s rfl).trans (testOut_advance _ c w)

theorem act_advance (s : Server) (thread : Option Nat) {a : Act}
    (hact : ∀ c, (∃ message w, a = .send c message w) ∨ a = .keep c ∨ a = .drop c → s.Engaged c) :
    Advance s (s.act thread a) := by
  cases a with
  | send c message w =>
    have hc : s.Engaged c ∨ s.established c = true := Or.inl (hact c (Or.inl ⟨message, w, rfl⟩))
    simp only [act]
    split
    · exact s.called_advance (TcpConnection.sendInLoop_calm _ message w) hc
    · exact (s.queueInLoop_quiet c _ _).advance (TcpConnection.Keeps.refl _) hc
  | keep c => exact s.setConn_advance c rfl (fun _ => hact c (Or.inr (Or.inl rfl))) .writes
  | drop c => exact s.setConn_advance c rfl (fun _ => hact c (Or.inr (Or.inr rfl))) .writes

theorem callFunctor_advance (s : Server) {L : Nat} (hidle : (s.loops L).frame = .idle) (w : WriteResult) {c : ConnId}
    (hc : s.established c = true) (f : Functor) : Advance s (s.callFunctor L c w f) := by
  cases f with
  | onWriteComplateCB =>
    rw [callFunctor_completed]
    split
    · exact s.callback_advance hidle c .completed .onWriteComplate (by simp)
    · exact Advance.refl s
  | onMessageCB message =>
    exact (s.called_advance (TcpConnection.sendInLoop_calm _ message w) (Or.inr hc)).trans (crash_advance _ _)

theorem bound_advance (s : Server) {L : Nat} (hidle : (s.loops L).frame = .idle) (w : WriteResult) {c : ConnId}
    (hc : ∀ d, s.pointee c = some d → s.established d = true) (f : Functor) :
    Advance s (s.runFunctor L w (.bound c f)) := by
  have hobserve := s.observe_advance (o := .functor c f (s.alive c)) (by simp)
  rcases s.runFunctor_bound L w c f with ⟨d, hd, heq⟩ | ⟨-, heq⟩
  · rw [heq]
    have hest := (established_observe (s := s) (o := .functor c f (s.alive c)) (by simp) d).trans (hc d hd)
    exact hobserve.trans (callFunctor_advance (s.observe _) hidle w hest f)
  · rw [heq]
    exact hobserve.trans (crash_advance _ _)

end Muduo.Server
