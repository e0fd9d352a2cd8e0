import Muduo.Server.Advance
import Muduo.Server.Dispatch

/-! # `onConnection` comes first

`newConnection` registers the descriptor with the epoll of an IO loop before it has set up the connection,
and the loop may see an event at any time from then on.
-/

namespace Muduo

/-- `handleRead` finds nothing to read, and goes on without a callback. -/
def TcpConnection.ReadsNothing (tcp : TcpConnection) : Buffer.ReadResult → Prop
  | .ok _ => tcp.pSocketChannel.sockfd < 0
  | .error errno => tcp.pSocketChannel.sockfd < 0 ∨ errno ≠ ECONNRESET

instance (tcp : TcpConnection) : (res : Buffer.ReadResult) → Decidable (tcp.ReadsNothing res)
  | .ok _ => inferInstanceAs (Decidable (tcp.pSocketChannel.sockfd < 0))
  | .error errno => inferInstanceAs (Decidable (tcp.pSocketChannel.sockfd < 0 ∨ errno ≠ TcpConnection.ECONNRESET))

theorem TcpConnection.readsNothing_iff (tcp : TcpConnection) (res : Buffer.ReadResult) :
    (tcp.handleRead res).2 = .nothing ↔ tcp.ReadsNothing res := by
  cases res with
  | ok data =>
    simp only [handleRead, ReadsNothing]
    split
    · rename_i hfd
      exact iff_of_true rfl hfd
    · rename_i hfd
      refine iff_of_false ?_ hfd
      split <;> simp
  | error errno =>
    simp only [handleRead, ReadsNothing]
    split
    · rename_i hfd
      exact iff_of_true rfl (Or.inl hfd)
    · rename_i hfd
      by_cases herrno : errno = ECONNRESET <;> simp [herrno, hfd]

theorem Channel.enableReading_isWriting (ch : Channel) : ch.enableReading.1.isWriting = ch.isWriting := by
  have hevents : ch.enableReading.1.events = ch.events ||| EPOLLIN := by
    unfold enableReading update
    split <;> rfl
  have hout : (ch.events ||| EPOLLIN) &&& EPOLLOUT = ch.events &&& EPOLLOUT := by
    rw [BitVec.and_comm, BitVec.and_or_distrib_left, show EPOLLOUT &&& EPOLLIN = 0 by decide, BitVec.and_comm]
    exact BitVec.or_zero
  rw [isWriting, hevents, hout, isWriting]

namespace Server

/-- `newConnection` has yet to set the user or the close callback of `c`. -/
def Frame.settingUp (c : ConnId) : Frame → Bool
  | .newConnection d stage => d == c && stage != .runInLoop
  | .idle | .user _ _ => false

/-- A hang-up waits until `connectEstablished` has been called, and so does data. Where there is nothing to read the
event need only wait for `newConnection` to set up the connection. -/
def EventsWait (s : Server) : Label → Prop
  | .handle L res _ => ∀ c ∈ headConn (s.loops L).active,
      ((s.revents c &&& EPOLLHUP != 0 && s.revents c &&& EPOLLIN == 0) = true → s.connecting c = 0) ∧
      ((s.revents c &&& EPOLLIN != 0) = true →
        (s.loops 0).frame.settingUp c = false ∧ (s.connecting c = 0 ∨ (s.conn c).tcp.ReadsNothing res))
  | _ => True

instance (s : Server) : (l : Label) → Decidable (s.EventsWait l)
  | .handle L res _ => inferInstanceAs (Decidable (∀ c ∈ headConn (s.loops L).active,
      ((s.revents c &&& EPOLLHUP != 0 && s.revents c &&& EPOLLIN == 0) = true → s.connecting c = 0) ∧
      ((s.revents c &&& EPOLLIN != 0) = true →
        (s.loops 0).frame.settingUp c = false ∧ (s.connecting c = 0 ∨ (s.conn c).tcp.ReadsNothing res))))
  | .poll _ _ | .accept _ | .statement | .return_ _ _ | .act _ _ | .foreign _ | .swap _ | .runFunctor _ _
  | .endBatch _ => .isTrue trivial

/-- A functor that is called gets a connection for which `connectEstablished` has been called. -/
def FunctorAnnounced (s : Server) : Label → Prop
  | .runFunctor L _ => ∀ c ∈ (s.loops L).tempRuns.head?.bind Queued.plain, ∀ d ∈ s.pointee c, s.established d = true
  | _ => True

/-! ## Counting -/

def queued (s : Server) (c : ConnId) : Nat := ((List.range (s.n + 1)).map fun L => (s.loops L).connecting c).sum

theorem connecting_eq (s : Server) (c : ConnId) : s.connecting c = (s.loops 0).frame.connecting c + s.queued c := rfl

theorem queued_congr {s u : Server} {c : ConnId} (hn : u.n = s.n)
    (h : ∀ L, (u.loops L).connecting c = (s.loops L).connecting c) : u.queued c = s.queued c := by
  simp only [queued, hn, h]

theorem setLoop_queued (s : Server) {L : Nat} (hL : L ≤ s.n) (lp : Loop) (c : ConnId) :
    (s.setLoop L lp).queued c + (s.loops L).connecting c = s.queued c + lp.connecting c := by
  have hloops : (fun M => ((s.setLoop L lp).loops M).connecting c) =
      Function.update (fun M => (s.loops M).connecting c) L (lp.connecting c) := by
    funext M
    by_cases hM : M = L
    · subst hM
      simp [setLoop]
    · simp [setLoop, hM]
  rw [queued, hloops]
  exact sum_update (fun M => (s.loops M).connecting c) (show L < s.n + 1 by omega) (lp.connecting c)

theorem setFrame_queued (s : Server) (L : Nat) (frame : Frame) (c : ConnId) :
    (s.setFrame L frame).queued c = s.queued c :=
  queued_congr rfl fun M => by simp [Loop.connecting]

theorem settingUp_of_zero {s : Server} {c : ConnId} (h : s.connecting c = 0) :
    (s.loops 0).frame.settingUp c = false := by
  rw [connecting_eq] at h
  cases hframe : (s.loops 0).frame with
  | newConnection d stage =>
    have hd : d ≠ c := fun hd => by simp [hframe, Frame.connecting, hd] at h
    simp [Frame.settingUp, hd]
  | idle | user => rfl

theorem alive_of_connecting {s : Server} {c : ConnId} (h : 0 < s.connecting c) : s.alive c = true := by
  rw [alive_iff]
  refine Or.inr (Or.inr ?_)
  by_cases hframe : 0 < (s.loops 0).frame.connecting c
  · refine ⟨0, Nat.zero_le _, ?_⟩
    have hle : (s.loops 0).frame.connecting c ≤ (s.loops 0).frame.holds c := by
      cases (s.loops 0).frame with
      | newConnection d stage => exact Nat.le_refl _
      | idle | user => exact Nat.zero_le _
    simp only [Loop.holds]
    omega
  · have hqueued : 0 < ((List.range (s.n + 1)).map fun L => (s.loops L).connecting c).sum := by
      rw [connecting_eq, queued] at h
      omega
    obtain ⟨k, hk, hpos⟩ := List.sum_pos_iff_exists_pos_nat.mp hqueued
    obtain ⟨L, hL, rfl⟩ := List.mem_map.mp hk
    refine ⟨L, Nat.lt_succ_iff.mp (List.mem_range.mp hL), ?_⟩
    simp only [Loop.connecting] at hpos
    simp only [Loop.holds]
    omega

/-! ## The invariant -/

/-- What `newConnection` has set when `stage` comes next. -/
def Stage.Built (k : Conn) : Stage → Prop
  | .enableReading | .sharedPtr => k.tcp.closeCallback = false
  | .insert | .setUser => k.tcp.closeCallback = false ∧ k.shared = true
  | .setUpLayerCloseCallback => k.tcp.closeCallback = false ∧ k.shared = true ∧ k.tcp.pUser = true
  | .runInLoop => k.tcp.closeCallback = true ∧ k.shared = true ∧ k.tcp.pUser = true

/-- The call of `connectEstablished` is still to come, or it has been made. -/
def Counted (s : Server) : Prop :=
  ∀ c, s.connecting c + s.trace.count (.callback c .onConnection) = if c < s.size then 1 else 0

structure Announcing (s : Server) : Prop where
  user : s.user = true
  counted : s.Counted
  engaged : ∀ c, s.Engaged c → s.established c = true
  callback : ∀ c, (s.conn c).tcp.closeCallback = true → (s.conn c).shared = true ∧ (s.conn c).tcp.pUser = true
  entering : ∀ c stage, (s.loops 0).frame = .newConnection c stage → stage.Built (s.conn c)
  made : ∀ c, c < s.size → (∀ stage, (s.loops 0).frame ≠ .newConnection c stage) → (s.conn c).tcp.closeCallback = true

theorem init_announcing (n : Nat) (listenfd : Int) (address : ConnId → TcpConnection.Addr) :
    (init n true listenfd address).Announcing where
  user := rfl
  counted := fun c => by simp [init, idleLoop, connecting, Frame.connecting, Loop.connecting]
  engaged := fun c hc => by
    cases hc with
    | waits h => simp [mem_waiting, init, idleLoop] at h
    | held h => simp [init] at h
    | calls L rest hframe => simp [init, idleLoop] at hframe
    | writes h => simp [init, TcpConnection.init, Channel.init, Channel.setCallback, Channel.isWriting] at h
  callback := fun c h => by simp [init, TcpConnection.init] at h
  entering := fun c stage h => by simp [init, idleLoop] at h
  made := fun c h => by simp [init] at h

theorem flags_eq {k k' : Conn} (h : k'.flags = k.flags) :
    k'.shared = k.shared ∧ k'.tcp.pUser = k.tcp.pUser ∧ k'.tcp.closeCallback = k.tcp.closeCallback := by
  simpa [Conn.flags] using h

theorem built_congr {k k' : Conn} (h : k'.flags = k.flags) (stage : Stage) : stage.Built k' ↔ stage.Built k := by
  obtain ⟨hshared, huser, hcallback⟩ := flags_eq h
  cases stage <;> simp only [Stage.Built, hshared, huser, hcallback]

theorem built_callback {k : Conn} {stage : Stage} (h : stage.Built k) (hcallback : k.tcp.closeCallback = true) :
    k.shared = true ∧ k.tcp.pUser = true := by
  cases stage with
  | enableReading | sharedPtr => simp [Stage.Built, hcallback] at h
  | insert | setUser | setUpLayerCloseCallback => simp [Stage.Built, hcallback] at h
  | runInLoop => exact h.2

theorem frame_connecting_congr {f g : Frame} {c : ConnId}
    (h : ∀ stage, g = .newConnection c stage ↔ f = .newConnection c stage) :
    g.connecting c = f.connecting c := by
  have hone : ∀ frame : Frame, frame.connecting c = 1 ∧ (∃ stage, frame = .newConnection c stage) ∨
      frame.connecting c = 0 ∧ ∀ stage, frame ≠ .newConnection c stage := by
    intro frame
    cases frame with
    | newConnection d stage =>
      by_cases hd : d = c
      · exact Or.inl ⟨by simp [Frame.connecting, hd], stage, by rw [hd]⟩
      · exact Or.inr ⟨by simp [Frame.connecting, hd], by simp [hd]⟩
    | idle | user => exact Or.inr ⟨rfl, by simp⟩
  rcases hone f with ⟨hf, stage, hstage⟩ | ⟨hf, hnone⟩ <;> rcases hone g with ⟨hg, stage', hstage'⟩ | ⟨hg, hnone'⟩
  · rw [hf, hg]
  · exact absurd ((h stage).mpr hstage) (hnone' stage)
  · exact absurd ((h stage').mp hstage') (hnone stage')
  · rw [hf, hg]

theorem Announcing.advance {s u : Server} (hs : s.Announcing) (h : Advance s u) (hfixed : Fixed s u) :
    u.Announcing where
  user := hfixed.user.trans hs.user
  counted := fun c => by
    obtain ⟨os, htrace, hnone⟩ := h.trace
    rw [connecting_eq, frame_connecting_congr (h.entering c),
      queued_congr h.n fun L => h.queued L c, hfixed.size, htrace,
      List.count_append, List.count_eq_zero_of_not_mem (hnone c), Nat.add_zero]
    exact hs.counted c
  engaged := fun c hc => (h.engaged c hc).elim (fun hold => h.established (hs.engaged c hold)) fun hnew => hnew
  callback := fun c hc => by
    obtain ⟨hshared, huser, hcallback⟩ := flags_eq (h.flags c)
    rw [hshared, huser]
    exact hs.callback c (hcallback ▸ hc)
  entering := fun c stage hframe =>
    (built_congr (h.flags c) stage).mpr (hs.entering c stage ((h.entering c stage).mp hframe))
  made := fun c hsize hframe => by
    rw [(flags_eq (h.flags c)).2.2]
    exact hs.made c (hfixed.size ▸ hsize) fun stage hstage => hframe stage ((h.entering c stage).mpr hstage)

/-! ## `newConnection` -/

/-- What a statement does to the connection. -/
def Stage.after (user : Bool) (k : Conn) : Stage → Conn
  | .enableReading => { k with tcp := k.tcp.enableReading.1 }
  | .sharedPtr => { k with shared := true }
  | .setUser => if user then { k with tcp := k.tcp.setUser } else k
  | .setUpLayerCloseCallback => { k with tcp := k.tcp.setUpLayerCloseCallback }
  | .insert | .runInLoop => k

def Stage.next : Stage → Stage
  | .enableReading => .sharedPtr
  | .sharedPtr => .insert
  | .insert => .setUser
  | .setUser => .setUpLayerCloseCallback
  | .setUpLayerCloseCallback | .runInLoop => .runInLoop

theorem statement_conn (s : Server) (c : ConnId) {stage : Stage} (hstage : stage ≠ .runInLoop) :
    (s.statement c stage).conn = Function.update s.conn c (stage.after s.user (s.conn c)) := by
  cases stage with
  | setUser =>
    simp only [statement, Stage.after]
    split
    · rfl
    · exact (Function.update_eq_self c s.conn).symm
  | insert => exact (Function.update_eq_self c s.conn).symm
  | enableReading | sharedPtr | setUpLayerCloseCallback => rfl
  | runInLoop => exact absurd rfl hstage

theorem statement_loops (s : Server) (c : ConnId) {stage : Stage} (hstage : stage ≠ .runInLoop) :
    (s.statement c stage).loops = (s.setFrame 0 (.newConnection c stage.next)).loops := by
  cases stage with
  | setUser =>
    simp only [statement]
    split <;> rfl
  | enableReading | sharedPtr | insert | setUpLayerCloseCallback => rfl
  | runInLoop => exact absurd rfl hstage

theorem statement_silent (s : Server) (c : ConnId) {stage : Stage} (hstage : stage ≠ .runInLoop) :
    (s.statement c stage).trace = s.trace := by
  rw [statement_trace, if_neg fun h => hstage h.1, List.append_nil]

theorem after_held (user : Bool) (k : Conn) (stage : Stage) : (stage.after user k).held = k.held := by
  cases stage <;> simp only [Stage.after]
  split <;> rfl

theorem after_writes (user : Bool) (k : Conn) (stage : Stage) :
    (stage.after user k).tcp.pSocketChannel.isWriting = k.tcp.pSocketChannel.isWriting := by
  cases stage with
  | enableReading => exact Channel.enableReading_isWriting _
  | setUser =>
    simp only [Stage.after]
    split <;> rfl
  | sharedPtr | insert | setUpLayerCloseCallback | runInLoop => rfl

theorem statement_engaged (s : Server) (c : ConnId) {stage : Stage} (hstage : stage ≠ .runInLoop) {d : ConnId}
    (h : (s.statement c stage).Engaged d) : s.Engaged d := by
  have hconn := s.statement_conn c hstage
  cases h with
  | waits h => exact .waits ((s.statement_still c stage).waiting d h)
  | held h =>
    rw [hconn] at h
    by_cases hd : d = c
    · subst hd
      rw [Function.update_self, after_held] at h
      exact .held h
    · rw [Function.update_of_ne hd] at h
      exact .held h
  | calls L rest hframe hrest =>
    rw [statement_loops s c hstage, setFrame_loop] at hframe
    by_cases hL : L = 0
    · simp [hL] at hframe
    · simp only [hL, if_false] at hframe
      exact .calls L rest hframe hrest
  | writes h =>
    rw [hconn] at h
    by_cases hd : d = c
    · subst hd
      rw [Function.update_self, after_writes] at h
      exact .writes h
    · rw [Function.update_of_ne hd] at h
      exact .writes h

theorem built_next {k : Conn} {stage : Stage} (h : stage.Built k) (hstage : stage ≠ .runInLoop) :
    stage.next.Built (stage.after true k) := by
  cases stage with
  | enableReading => exact h
  | sharedPtr => exact ⟨h, rfl⟩
  | insert => exact h
  | setUser => exact ⟨h.1, h.2, rfl⟩
  | setUpLayerCloseCallback => exact ⟨rfl, h.2⟩
  | runInLoop => exact absurd rfl hstage

theorem Announcing.statement {s : Server} (hs : s.Announcing) {c : ConnId} {stage : Stage}
    (hframe : (s.loops 0).frame = .newConnection c stage) (hstage : stage ≠ .runInLoop) :
    (s.statement c stage).Announcing := by
  have hfixed := s.statement_stable c stage
  have hconn := s.statement_conn c hstage
  have hloops := s.statement_loops c hstage
  have htrace := s.statement_silent c hstage
  have hnext : ((s.statement c stage).loops 0).frame = .newConnection c stage.next := by
    rw [hloops, setFrame_frame]
  have hbuilt : stage.next.Built ((s.statement c stage).conn c) := by
    rw [hconn, Function.update_self, hs.user]
    exact built_next (hs.entering c stage hframe) hstage
  refine ⟨hfixed.user.trans hs.user, fun d => ?_, fun d hd => ?_, fun d hd => ?_,
    fun d stage' hd => ?_, fun d hsize hd => ?_⟩
  · have hqueued : (s.statement c stage).queued d = s.queued d := by
      rw [← s.setFrame_queued 0 (.newConnection c stage.next) d]
      exact queued_congr hfixed.n fun L => by rw [hloops]
    have hcount := hs.counted d
    rw [connecting_eq, hframe] at hcount
    rw [connecting_eq, hqueued, hnext, htrace, hfixed.size]
    exact hcount
  · rw [established, htrace]
    exact hs.engaged d (s.statement_engaged c hstage hd)
  · by_cases hdc : d = c
    · subst hdc
      exact built_callback hbuilt hd
    · rw [hconn, Function.update_of_ne hdc] at hd ⊢
      exact hs.callback d hd
  · rw [hnext] at hd
    cases hd
    exact hbuilt
  · have hdc : d ≠ c := fun hdc => hd stage.next (hdc ▸ hnext)
    rw [hconn, Function.update_of_ne hdc]
    refine hs.made d (hfixed.size ▸ hsize) fun stage' hstage' => hdc ?_
    rw [hframe] at hstage'
    cases hstage'
    rfl

/-! ## `connectEstablished` -/

theorem Announcing.connected {s : Server} (hs : s.Announcing) {L : Nat} (hL : L ≤ s.n) (lp : Loop) {c : ConnId}
    {rest : Rest} (hframe : lp.frame = .user c rest)
    (hqueues : ∀ f, f ∈ lp.tempRuns ∨ f ∈ lp.pendingFunctors →
      f ∈ (s.loops L).tempRuns ∨ f ∈ (s.loops L).pendingFunctors)
    (hcount : ∀ d, (s.loops L).frame.connecting d + (s.loops L).connecting d =
      lp.connecting d + if c = d then 1 else 0)
    (hleft : ∀ d stage, (s.loops L).frame = .newConnection d stage → L = 0 ∧ (s.conn d).tcp.closeCallback = true) :
    ((s.setLoop L lp).observe (.callback c .onConnection)).Announcing := by
  have hself : ((s.setLoop L lp).loops L) = lp := by simp [setLoop]
  have hother : ∀ M, M ≠ L → (s.setLoop L lp).loops M = s.loops M := fun M hM => by simp [setLoop, hM]
  have hest : ∀ d, s.established d = true →
      ((s.setLoop L lp).observe (.callback c .onConnection)).established d = true :=
    fun d => established_mono rfl
  refine ⟨hs.user, fun d => ?_, fun d hd => ?_, hs.callback, fun d stage hd => ?_, fun d hsize hd => ?_⟩
  · have hqueued := s.setLoop_queued hL lp d
    have hbefore := hs.counted d
    have hmoved := hcount d
    have hcalled : ((s.setLoop L lp).observe (.callback c .onConnection)).trace.count (.callback d .onConnection) =
        s.trace.count (.callback d .onConnection) + if c = d then 1 else 0 := by
      change (s.trace ++ [_]).count _ = _
      rw [List.count_append, List.count_singleton]
      by_cases hcd : c = d <;> simp [hcd]
    change (s.setLoop L lp).connecting d + _ = if d < s.size then 1 else 0
    rw [connecting_eq] at hbefore
    rw [hcalled, connecting_eq]
    by_cases hzero : L = 0
    · subst hzero
      rw [hself, hframe]
      simp only [Frame.connecting]
      omega
    · have hframe' : (s.loops L).frame.connecting d = 0 := by
        cases hold : (s.loops L).frame with
        | newConnection e stage => exact absurd (hleft e stage hold).1 hzero
        | idle | user => rfl
      rw [hother 0 (Ne.symm hzero)]
      omega
  · cases hd with
    | waits h => exact hest d (hs.engaged d (.waits ((s.setLoop_still L lp hqueues).waiting d h)))
    | held h => exact hest d (hs.engaged d (.held h))
    | calls M rest' hd hrest =>
      by_cases hM : M = L
      · subst hM
        have hdc : Frame.user c rest = .user d rest' := by rw [← hframe, ← hself]; exact hd
        cases hdc
        rw [established_iff, observe, callbacks_append]
        simp [callbacks]
      · exact hest d (hs.engaged d (.calls M rest' (hother M hM ▸ hd) hrest))
    | writes h => exact hest d (hs.engaged d (.writes h))
  · by_cases hzero : 0 = L
    · subst hzero
      have hd : ((s.setLoop 0 lp).loops 0).frame = .newConnection d stage := hd
      rw [hself, hframe] at hd
      cases hd
    · exact hs.entering d stage (hother 0 hzero ▸ hd)
  · by_cases hleaves : ∃ stage, (s.loops L).frame = .newConnection d stage
    · obtain ⟨stage, hstage⟩ := hleaves
      exact (hleft d stage hstage).2
    · refine hs.made d hsize fun stage hstage => ?_
      by_cases hzero : 0 = L
      · exact hleaves ⟨stage, hzero ▸ hstage⟩
      · exact hd stage ((congrArg Loop.frame (hother 0 hzero)).trans hstage)

theorem Announcing.queue {s : Server} (hs : s.Announcing) {c : ConnId} {L : Nat} (hL : L ≤ s.n)
    (hframe : (s.loops 0).frame = .newConnection c .runInLoop) :
    ((s.queueInLoop L (.connectEstablished c)).setFrame 0 .idle).Announcing := by
  have hidle : (((s.queueInLoop L (.connectEstablished c)).setFrame 0 .idle).loops 0).frame = .idle :=
    setFrame_frame _ 0 _
  have hstill : s.Still ((s.queueInLoop L (.connectEstablished c)).setFrame 0 .idle) :=
    (s.queueEstablished_still L c).trans (setFrame_still _ 0 _)
  refine ⟨hs.user, fun d => ?_, fun d hd => hs.engaged d ?_, hs.callback, fun d stage hd => ?_, fun d hsize hd => ?_⟩
  · have hqueued : (s.queueInLoop L (.connectEstablished c)).queued d + (s.loops L).connecting d = s.queued d + _ :=
      s.setLoop_queued hL _ d
    have hbefore := hs.counted d
    change _ + s.trace.count _ = if d < s.size then 1 else 0
    rw [connecting_eq, hframe] at hbefore
    rw [connecting_eq, hidle, setFrame_queued]
    simp only [Loop.connecting, List.map_append, List.map_cons, List.map_nil, List.sum_append, List.sum_cons,
      List.sum_nil, Queued.holds] at hqueued
    simp only [Frame.connecting] at hbefore ⊢
    omega
  · cases hd with
    | waits h => exact .waits (hstill.waiting d h)
    | held h => exact .held h
    | calls M rest hd hrest =>
      rw [setFrame_loop] at hd
      by_cases hM : M = 0
      · simp [hM] at hd
      · simp only [hM, if_false] at hd
        rw [queueInLoop_frame] at hd
        exact .calls M rest hd hrest
    | writes h => exact .writes h
  · rw [hidle] at hd
    cases hd
  · by_cases hdc : d = c
    · subst hdc
      exact (hs.entering d .runInLoop hframe).1
    · refine hs.made d hsize fun stage hstage => hdc ?_
      rw [hframe] at hstage
      cases hstage
      rfl

theorem Announcing.queued_user {s : Server} (hs : s.Announcing) {L : Nat} (hL : L ≤ s.n) {c : ConnId}
    (hmem : .connectEstablished c ∈ (s.loops L).tempRuns) : (s.conn c).tcp.pUser = true := by
  have hone : 0 < (s.loops L).connecting c := by
    have hpos : 0 < ((s.loops L).tempRuns.map (Queued.holds c)).sum :=
      List.sum_pos_iff_exists_pos_nat.mpr ⟨1, List.mem_map.mpr ⟨_, hmem, by simp [Queued.holds]⟩, Nat.one_pos⟩
    simp only [Loop.connecting]
    omega
  have hqueued : 0 < s.queued c :=
    List.sum_pos_iff_exists_pos_nat.mpr ⟨_, List.mem_map.mpr ⟨L, List.mem_range.mpr (by omega), rfl⟩, hone⟩
  have hcount := hs.counted c
  rw [connecting_eq] at hcount
  have hsize : c < s.size := by
    by_contra hsize
    rw [if_neg hsize] at hcount
    omega
  refine (hs.callback c (hs.made c hsize fun stage hstage => ?_)).2
  rw [hstage, if_pos hsize] at hcount
  simp only [Frame.connecting, if_true] at hcount
  omega

theorem Announcing.accept {s : Server} (hs : s.Announcing) (hidle : (s.loops 0).frame = .idle) (fd : Int) :
    (s.accept fd).Announcing := by
  have hnew := s.accept_new fd
  have hconn : ∀ d, d ≠ s.size → (s.accept fd).conn d = s.conn d := fun d => s.accept_old fd
  have hframe : ((s.accept fd).loops 0).frame = .newConnection s.size .enableReading := by simp
  have htrace := s.accept_trace fd
  have hest : ∀ d, s.established d = true → (s.accept fd).established d = true := fun d => established_mono htrace
  refine ⟨(s.accept_user fd).trans hs.user, fun d => ?_, fun d hd => hest d (hs.engaged d ?_), fun d hd => ?_,
    fun d stage hd => ?_, fun d hd hstage => ?_⟩
  · have hqueued : (s.accept fd).queued d = s.queued d :=
      queued_congr (s.accept_n fd) fun M => by simp [Loop.connecting]
    have hbefore := hs.counted d
    rw [connecting_eq, hidle] at hbefore
    rw [connecting_eq, hframe, hqueued, htrace, accept_size, List.count_append]
    simp only [Frame.connecting, List.count_singleton, beq_iff_eq, reduceCtorEq, if_false] at hbefore ⊢
    by_cases hd : s.size = d
    · subst hd
      simp at hbefore ⊢
      omega
    · have hlt : (if d < s.size + 1 then 1 else 0) = if d < s.size then 1 else 0 := by
        simp only [Nat.lt_succ_iff_lt_or_eq, Ne.symm hd, or_false]
      rw [if_neg hd, hlt]
      omega
  · cases hd with
    | waits h => exact .waits ((s.accept_still fd).waiting d h)
    | held h =>
      by_cases hd : d = s.size
      · rw [hd, hnew] at h
        cases h
      · exact .held (hconn d hd ▸ h)
    | calls M rest hd hrest =>
      by_cases hM : M = 0
      · rw [hM, hframe] at hd
        cases hd
      · rw [accept_loops, setFrame_loop, if_neg hM] at hd
        exact .calls M rest hd hrest
    | writes h =>
      by_cases hd : d = s.size
      · rw [hd, hnew] at h
        simp [TcpConnection.init, Channel.init, Channel.setCallback, Channel.isWriting] at h
      · exact .writes (hconn d hd ▸ h)
  · by_cases hdc : d = s.size
    · rw [hdc, hnew] at hd
      cases hd
    · rw [hconn d hdc] at hd ⊢
      exact hs.callback d hd
  · rw [hframe] at hd
    cases hd
    rw [hnew]
    rfl
  · have hdc : d ≠ s.size := fun hdc => hstage .enableReading (hdc ▸ hframe)
    rw [hconn d hdc]
    rw [accept_size] at hd
    exact hs.made d (Nat.lt_of_le_of_ne (Nat.lt_succ_iff.mp hd) hdc) (by simp [hidle])

/-! ## Steps -/

theorem mayAct_engaged {s : Server} {arg : Option ConnId} {a : Act} (hmay : s.MayAct arg a)
    (harg : ∀ c, arg = some c → s.Engaged c) (c : ConnId)
    (ha : (∃ message w, a = .send c message w) ∨ a = .keep c ∨ a = .drop c) : s.Engaged c := by
  rcases ha with ⟨message, w, rfl⟩ | rfl | rfl
  · exact hmay.1.elim (harg c) .held
  · exact Or.elim hmay (harg c) .held
  · exact .held hmay

theorem FunctorAnnounced.pointee {s : Server} {L : Nat} {w : WriteResult} {c : ConnId} {f : Functor}
    {rest : List Queued} (h : s.FunctorAnnounced (.runFunctor L w)) (hruns : (s.loops L).tempRuns = .bound c f :: rest)
    (d : ConnId) (hd : (s.takeFunctor L (.bound c f) rest).pointee c = some d) : s.established d = true :=
  h c (by rw [hruns]; rfl) d ((takeFunctor_pointee hruns c).symm.trans hd)

/-- Functors wait for announced connections only, and such a connection keeps its address while it lives. -/
theorem Announcing.functorAnnounced {s u : Server} {l : Label} (hs : s.Announcing) (hlives : s.FunctorLives l)
    (h : step s l = some u) : s.FunctorAnnounced l := by
  cases l with
  | runFunctor L w =>
    obtain ⟨f, rest, hruns, hready, -⟩ := runFunctor_inv h
    intro c hc d hd
    rw [hruns] at hc
    cases f with
    | connectEstablished e => cases hc
    | bound e f =>
      obtain rfl : e = c := Option.some.inj hc
      rw [hlives.pointee hruns] at hd
      obtain rfl : e = d := Option.some.inj hd
      exact hs.engaged e (.waits (mem_waiting.mpr ⟨L, hready.2.1, f, Or.inl (hruns ▸ List.mem_cons_self)⟩))
  | poll | accept | statement | handle | return_ | act | foreign | swap | endBatch => trivial

theorem Announcing.runFunctor {s : Server} (hs : s.Announcing) {L : Nat} (hready : s.Ready L .draining) {f : Queued}
    {rest : List Queued} (hruns : (s.loops L).tempRuns = f :: rest) {w : WriteResult}
    (hannounced : s.FunctorAnnounced (.runFunctor L w)) :
    ((s.takeFunctor L f rest).runFunctor L w f).Announcing := by
  have hidle := hready.2.2.2
  have hmem : ∀ g, g ∈ rest ∨ g ∈ (s.loops L).pendingFunctors →
      g ∈ (s.loops L).tempRuns ∨ g ∈ (s.loops L).pendingFunctors :=
    fun g hg => hg.imp_left fun hg => hruns ▸ List.mem_cons_of_mem f hg
  cases f with
  | connectEstablished c =>
    have huser := hs.queued_user hready.2.1 (hruns ▸ List.mem_cons_self)
    have hcall := hs.connected hready.2.1 { s.loops L with
      ran := (s.loops L).ran ++ [.connectEstablished c], tempRuns := rest,
      frame := .user c .established } rfl hmem ?_ ?_
    · simp only [Server.runFunctor, connectEstablished]
      rw [if_pos (show ((s.takeFunctor L _ _).conn c).tcp.pUser = true from huser)]
      simpa [takeFunctor, setFrame, setLoop] using hcall
    · intro d
      rw [hidle]
      simp only [Frame.connecting, Loop.connecting, hruns, List.map_cons, List.sum_cons, Queued.holds]
      omega
    · intro d stage hd
      rw [hidle] at hd
      cases hd
  | bound c f =>
    have hpop := s.setLoop_advance L { s.loops L with ran := (s.loops L).ran ++ [.bound c f], tempRuns := rest } hmem
      (fun d => by simp [Loop.connecting, hruns, Queued.holds]) (fun _ _ => Iff.rfl) fun _ _ h _ => Or.inr h
    have hrun := bound_advance (s.takeFunctor L (.bound c f) rest) (L := L) (by simpa using hidle) w
      (hannounced.pointee hruns) f
    exact hs.advance (hpop.trans hrun) ((s.setLoop_fixed L _).trans (runFunctor_stable _ L w _).toFixed)

theorem step_announcing {s u : Server} {l : Label} (hformed : s.Formed) (hs : s.Announcing)
    (hannounced : s.FunctorAnnounced l) (h : step s l = some u) : u.Announcing := by
  have hadvance : (∀ fd, l ≠ .accept fd) → Advance s u → u.Announcing :=
    fun hl hadvance => hs.advance hadvance (step_fixed h hl)
  cases l with
  | poll L events =>
    refine hadvance (by simp) ?_
    obtain ⟨-, rfl⟩ := Machine.guard_some.mp h
    refine (s.setRevents_advance events).trans (setLoop_advance _ L _ ?_ ?_ ?_ ?_) <;> rw [setRevents_loops]
    · exact fun _ hf => hf
    · exact fun _ => rfl
    · exact fun _ _ => Iff.rfl
    · exact fun _ _ hf _ => Or.inr hf
  | accept fd =>
    obtain ⟨rest, -, hready, -, rfl⟩ := accept_inv h
    have hpop := hs.advance (s.takeActive_advance 0 rest) (s.setLoop_fixed 0 _)
    exact hpop.accept (by simpa using hready.2.2.2) fd
  | statement =>
    obtain ⟨c, stage, hframe, -, rfl⟩ := statement_inv h
    by_cases hstage : stage = .runInLoop
    · subst hstage
      obtain ⟨hcallback, -, huser⟩ := hs.entering c _ hframe
      simp only [Server.statement]
      split
      · have hcall := hs.connected (Nat.zero_le _) { s.loops 0 with frame := .user c .connected } rfl (fun _ hf => hf)
          (fun d => ?_) fun d stage hd => ?_
        · rw [connectEstablished, if_pos huser]
          exact hcall
        · rw [hframe]
          simp only [Frame.connecting, Loop.connecting]
          omega
        · rw [hframe] at hd
          cases hd
          exact ⟨rfl, hcallback⟩
      · exact hs.queue (hformed.loop c) hframe
    · exact hs.statement hframe hstage
  | handle L res w =>
    refine hadvance (by simp) ?_
    obtain ⟨c, rest, -, -, hmoves⟩ := handle_moves h
    exact (s.takeActive_advance L rest).trans hmoves.advance
  | return_ L w =>
    refine hadvance (by simp) ?_
    obtain ⟨c, rest, hframe, -, -, rfl⟩ := return_inv h
    exact s.return_advance hframe w
  | act L a =>
    refine hadvance (by simp) ?_
    obtain ⟨arg, hcode, -, -, hmay, rfl⟩ := act_inv h
    refine s.act_advance _ (mayAct_engaged hmay fun c hc => ?_)
    subst hc
    obtain ⟨rest, hframe, hrest⟩ := userCode_arg hcode
    exact .calls L rest hframe hrest
  | foreign a =>
    refine hadvance (by simp) ?_
    obtain ⟨⟨-, hmay⟩, rfl⟩ := Machine.guard_some.mp h
    exact s.act_advance _ (mayAct_engaged hmay (by simp))
  | swap L =>
    refine hadvance (by simp) ?_
    obtain ⟨⟨hready, -⟩, rfl⟩ := Machine.guard_some.mp h
    have hruns := (hformed.batch L).resolve_left (by simp [hready.2.2.1])
    exact s.setLoop_advance L _ (by simp +contextual) (by simp [Loop.connecting, hruns]) (fun _ _ => Iff.rfl)
      fun _ _ hf _ => Or.inr hf
  | runFunctor L w =>
    obtain ⟨f, rest, hruns, hready, rfl⟩ := runFunctor_inv h
    exact hs.runFunctor hready hruns hannounced
  | endBatch L =>
    refine hadvance (by simp) ?_
    obtain ⟨-, rfl⟩ := Machine.guard_some.mp h
    exact s.setLoop_advance L _ (fun _ hf => hf) (fun _ => rfl) (fun _ _ => Iff.rfl) fun _ _ hf _ => Or.inr hf

/-! ## Runs -/

theorem mem_callbacks {c : ConnId} {cb : Callback} {trace : List Obs} :
    cb ∈ callbacks c trace ↔ .callback c cb ∈ trace := by
  simp only [callbacks, List.mem_filterMap]
  constructor
  · rintro ⟨o, ho, hcb⟩
    cases o with
    | callback d cb' =>
      by_cases hd : d = c
      · simp only [hd, if_true, Option.some.injEq] at hcb
        exact hd ▸ hcb ▸ ho
      · simp [hd] at hcb
    | accepted | consulted | handler | functor => cases hcb
  · intro hmem
    exact ⟨_, hmem, by simp⟩

/-- While the order holds, a callback has been called exactly when no call of `connectEstablished` is to come. -/
theorem Announcing.established_iff {s : Server} (hs : s.Announcing) (hfirst : s.ConnectionFirst) {c : ConnId}
    (hsize : c < s.size) : s.established c = true ↔ s.connecting c = 0 := by
  have hcount := hs.counted c
  rw [if_pos hsize] at hcount
  have hcalled : s.established c = true ↔ 0 < s.trace.count (.callback c .onConnection) := by
    rw [Server.established_iff, List.count_pos_iff, ← mem_callbacks]
    constructor
    · intro hsome
      have hhead := List.head?_eq_some_head hsome
      have hcb := hfirst.1 c _ hhead
      exact hcb ▸ List.head_mem hsome
    · exact List.ne_nil_of_mem
  rw [hcalled]
  omega

theorem Announcing.ready_iff {s : Server} (hs : s.Announcing) {c : ConnId} (hsize : c < s.size) :
    s.ready c = true ↔ (s.loops 0).frame.settingUp c = false := by
  have hready : s.ready c = true ↔ (s.conn c).tcp.closeCallback = true := by
    rw [ready, Bool.and_eq_true]
    exact ⟨And.right, fun h => ⟨(hs.callback c h).2, h⟩⟩
  rw [hready]
  by_cases hframe : ∃ stage, (s.loops 0).frame = .newConnection c stage
  · obtain ⟨stage, hstage⟩ := hframe
    have hbuilt := hs.entering c stage hstage
    rw [hstage]
    cases stage with
    | enableReading | sharedPtr => simp [Frame.settingUp, show _ = _ from hbuilt]
    | insert | setUser | setUpLayerCloseCallback => simp [Frame.settingUp, hbuilt.1]
    | runInLoop => simp [Frame.settingUp, hbuilt.1]
  · refine iff_of_true (hs.made c hsize fun stage hstage => hframe ⟨stage, hstage⟩) ?_
    cases hframe' : (s.loops 0).frame with
    | newConnection d stage =>
      have hd : d ≠ c := fun hd => hframe ⟨stage, hd ▸ hframe'⟩
      simp [Frame.settingUp, hd]
    | idle | user => rfl

theorem handle_first {s u : Server} {L : Nat} {res : Buffer.ReadResult} {w : WriteResult} (hs : s.Announcing)
    (hknown : ∀ c, s.alive c = true → c < s.size) (hfirst : s.ConnectionFirst)
    (h : step s (.handle L res w) = some u) :
    u.ConnectionFirst ↔ s.EventsWait (.handle L res w) := by
  obtain ⟨c, rest, hactive, hready, rfl⟩ := handle_inv h
  simp only [EventsWait, hactive, headConn, Option.mem_def, Option.some.injEq, forall_eq']
  have hpop : (s.takeActive L rest).alive c = s.alive c := alive_congr (s.setLoop_same rfl)
  by_cases halive : s.alive c = true
  · have hsize := hknown c halive
    have hset : (s.takeActive L rest).ready c = true →
        (s.conn c).shared = true ∧ (s.conn c).tcp.pUser = true := fun h => by
      rw [ready, Bool.and_eq_true] at h
      exact hs.callback c h.2
    have hzero := settingUp_of_zero (s := s) (c := c)
    rw [handleEvent_first hset (hpop.trans halive) L res w,
      and_iff_right (show ConnectionFirst (s.takeActive L _) from hfirst),
      show (s.takeActive L rest).ready c = s.ready c from rfl,
      show (s.takeActive L rest).established c = s.established c from rfl,
      show (s.takeActive L rest).revents c = s.revents c from rfl,
      show (s.takeActive L rest).conn c = s.conn c from rfl,
      hs.ready_iff hsize, hs.established_iff hfirst hsize, TcpConnection.readsNothing_iff]
    tauto
  · rw [Bool.not_eq_true] at halive
    have hzero : s.connecting c = 0 := by
      by_contra hpos
      rw [alive_of_connecting (Nat.pos_of_ne_zero hpos)] at halive
      cases halive
    rw [handleEvent_dead (hpop.trans halive)]
    exact iff_of_true hfirst ⟨fun _ => hzero, fun _ => ⟨settingUp_of_zero hzero, Or.inl hzero⟩⟩

theorem step_first {s u : Server} {l : Label} (hs : s.Announcing) (hknown : ∀ c, s.alive c = true → c < s.size)
    (hannounced : s.FunctorAnnounced l) (hfirst : s.ConnectionFirst) (h : step s l = some u) :
    u.ConnectionFirst ↔ s.EventsWait l := by
  have hsilent : u.trace = s.trace → u.ConnectionFirst := fun htrace => by
    unfold ConnectionFirst
    rw [htrace]
    exact hfirst
  have hconnected : ∀ {t : Server} (c : ConnId) (b : Prop) [Decidable b], t.trace = s.trace →
      u.trace = t.trace ++ (if b then [.callback c .onConnection] else []) → u.ConnectionFirst := by
    intro t c b _ ht hu
    unfold ConnectionFirst
    rw [hu, ht]
    split
    · exact (firstIn_fine (o := .callback c .onConnection) (Or.inl rfl)).mpr hfirst
    · rw [List.append_nil]
      exact hfirst
  cases l with
  | poll L events =>
    obtain ⟨-, rfl⟩ := Machine.guard_some.mp h
    exact iff_of_true (hsilent (s.setRevents_trace events)) trivial
  | accept fd =>
    obtain ⟨rest, -, -, -, rfl⟩ := accept_inv h
    refine iff_of_true ?_ trivial
    unfold ConnectionFirst
    rw [accept_trace]
    exact (firstIn_fine (o := .accepted fd s.size) trivial).mpr hfirst
  | statement =>
    obtain ⟨c, stage, -, -, rfl⟩ := statement_inv h
    exact iff_of_true (hconnected c _ rfl (s.statement_trace c stage)) trivial
  | handle L res w => exact handle_first hs hknown hfirst h
  | return_ L w =>
    obtain ⟨c, rest, -, -, -, rfl⟩ := return_inv h
    refine iff_of_true ?_ trivial
    cases rest with
    | connected | established | completed => exact hfirst
    | read => exact (testOut_first _ c w).mpr hfirst
    | closed called =>
      simp only [return_]
      split
      · exact (testOut_first _ c w).mpr hfirst
      · exact (testOut_first _ c w).mpr hfirst
  | act L a =>
    obtain ⟨arg, -, -, -, -, rfl⟩ := act_inv h
    exact iff_of_true (hsilent (s.act_trace _ a)) trivial
  | foreign a =>
    obtain ⟨-, rfl⟩ := Machine.guard_some.mp h
    exact iff_of_true (hsilent (s.act_trace _ a)) trivial
  | swap L =>
    obtain ⟨-, rfl⟩ := Machine.guard_some.mp h
    exact iff_of_true hfirst trivial
  | runFunctor L w =>
    obtain ⟨f, rest, hruns, hready, rfl⟩ := runFunctor_inv h
    refine iff_of_true ?_ trivial
    cases f with
    | connectEstablished c => exact hconnected c _ rfl (connectEstablished_trace _ L c _)
    | bound c f =>
      exact (bound_first (s := s.takeFunctor L (.bound c f) rest) (hannounced.pointee hruns) L w f).mpr hfirst
  | endBatch L =>
    obtain ⟨-, rfl⟩ := Machine.guard_some.mp h
    exact iff_of_true hfirst trivial

/-- Data comes when the IO loop has called `connectEstablished`. -/
def dataWaits : List Label :=
  [.poll 0 [(.listen, EPOLLIN)], .accept 5, .statement, .statement, .statement, .statement, .statement, .statement,
    .poll 1 [], .swap 1, .runFunctor 1 .error, .return_ 1 .error, .endBatch 1, .poll 1 [(.conn 0, EPOLLIN)],
    .handle 1 (.ok [1]) .error]

/-- Data comes behind `enableReading`, before the constructor returns. -/
def dataInConstructor : List Label :=
  [.poll 0 [(.listen, EPOLLIN)], .accept 5, .statement, .poll 1 [(.conn 0, EPOLLIN)], .handle 1 (.ok [1]) .error]

theorem single_waits {s : Server} (hs : s.Table) {L : Nat} {phase : Phase} (hready : s.Ready L phase) (c : ConnId) :
    s.connecting c = 0 := by
  obtain rfl := hs.zero hready.2.1
  obtain ⟨-, htemp, hpending⟩ := hs.direct c
  rw [connecting_eq, queued, hs.single, hready.2.2.2]
  simp [Frame.connecting, Loop.connecting, holds_none, htemp, hpending]

theorem single_announced {s u : Server} {l : Label} (hs : s.Lone) (hannouncing : s.Announcing)
    (hfirst : s.ConnectionFirst) (h : step s l = some u) : s.FunctorAnnounced l := by
  cases l with
  | runFunctor L w =>
    obtain ⟨f, rest, -, hready, -⟩ := runFunctor_inv h
    intro c _ d hd
    have hsize := hs.known d (pointee_alive hd)
    exact (hannouncing.established_iff hfirst hsize).mpr (single_waits hs.table hready d)
  | poll | accept | statement | handle | return_ | act | foreign | swap | endBatch => trivial

theorem single_loop_first (listenfd : Int) (address : ConnId → TcpConnection.Addr) (labels : List Label) (s : Server)
    (hrun : Machine.run step (init 0 true listenfd address) labels = some s) : s.ConnectionFirst := by
  have hall : s.Lone ∧ s.Announcing ∧ s.ConnectionFirst := by
    refine Machine.run_invariant (I := fun t => t.Lone ∧ t.Announcing ∧ t.ConnectionFirst) ?_ ?_ hrun
    · rintro t l u ⟨hlone, hannouncing, hfirst⟩ hstep
      have hannounced := single_announced hlone hannouncing hfirst hstep
      refine ⟨step_lone hlone hstep, step_announcing hlone.formed hannouncing hannounced hstep,
        (step_first hannouncing hlone.known hannounced hfirst hstep).mpr ?_⟩
      cases l with
      | handle L res w =>
        obtain ⟨-, -, -, hready, -⟩ := handle_inv hstep
        intro c _
        have hzero := single_waits hlone.table hready c
        exact ⟨fun _ => hzero, fun _ => ⟨settingUp_of_zero hzero, Or.inl hzero⟩⟩
      | poll | accept | statement | return_ | act | foreign | swap | runFunctor | endBatch => trivial
    · exact ⟨init_lone true listenfd address, init_announcing 0 listenfd address,
        fun c cb h => by simp [init, callbacks] at h, fun c k h => by simp [init] at h⟩
  exact hall.2.2

end Server

end Muduo
