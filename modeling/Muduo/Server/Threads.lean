import Muduo.Server.Functors
import Muduo.Server.Placed

/-! # Which thread does what

Each loop has a thread of its own, and thread 0 is the base loop's.
-/

namespace Muduo

namespace Server

/-- The thread that takes a step: that of a loop, or another one. -/
def Label.thread : Label → Option Nat
  | .accept _ | .statement => some 0
  | .poll L _ | .handle L _ _ | .return_ L _ | .act L _ | .swap L | .runFunctor L _ | .endBatch L => some L
  | .foreign _ => none

/-! ## The table -/

/-- What a step does to `_connections`. -/
inductive TableOp where
  | insert (c : ConnId)
  | erase (c : ConnId)
  deriving DecidableEq, Repr

def tableOp (s : Server) : Label → Option TableOp
  | .statement =>
    match (s.loops 0).frame with
    | .newConnection c .insert => some (.insert c)
    | _ => none
  | .return_ L _ =>
    match (s.loops L).frame with
    | .user c (.closed _) => if (s.conn c).tcp.closeCallback then some (.erase c) else none
    | _ => none
  | _ => none

/-- Only the base loop's thread touches the table. -/
def TableInBase (s : Server) (l : Label) : Prop := s.tableOp l = none ∨ l.thread = some 0

instance (s : Server) (l : Label) : Decidable (s.TableInBase l) :=
  inferInstanceAs (Decidable (s.tableOp l = none ∨ l.thread = some 0))

/-- No IO thread finds that a peer has hung up. -/
def ClosesInBase (s : Server) : Label → Prop
  | .handle L res _ => ∀ c ∈ headConn (s.loops L).active, (s.conn c).tcp.Closes res → L = 0
  | _ => True

instance (s : Server) : (l : Label) → Decidable (s.ClosesInBase l)
  | .handle L res _ =>
    inferInstanceAs (Decidable (∀ c ∈ headConn (s.loops L).active, (s.conn c).tcp.Closes res → L = 0))
  | .poll _ _ | .accept _ | .statement | .return_ _ _ | .act _ _ | .foreign _ | .swap _ | .runFunctor _ _
  | .endBatch _ => .isTrue trivial

theorem connectEstablished_connections (s : Server) (L : Nat) (c : ConnId) (rest : Rest) :
    (s.connectEstablished L c rest).connections = s.connections :=
  (s.connectEstablished_mild L c rest).connections

theorem statement_connections (s : Server) (c : ConnId) (stage : Stage) : (s.statement c stage).connections =
    if stage = .insert then Function.update s.connections (s.fd c) (some c) else s.connections := by
  cases stage with
  | setUser =>
    simp only [statement]
    split <;> rfl
  | runInLoop =>
    simp only [statement]
    split
    · exact s.connectEstablished_connections 0 c _
    · rfl
  | enableReading | sharedPtr | insert | setUpLayerCloseCallback => rfl

theorem return_connections (s : Server) (L : Nat) (c : ConnId) (w : WriteResult) (rest : Rest) (hsize : c < s.size) :
    (s.return_ L c w rest).connections = match rest with
      | .closed _ =>
        if (s.conn c).tcp.closeCallback then Function.update s.connections (s.fd c) none else s.connections
      | _ => s.connections := by
  cases rest with
  | connected | established | completed => rfl
  | read => exact (testOut_mild (s := s.setFrame L .idle) (fun _ => hsize) w).connections
  | closed called =>
    simp only [return_]
    split
    · exact (testOut_mild (s := (s.removeConnection c).setFrame L .idle) (fun _ => hsize) w).connections
    · exact (testOut_mild (s := s.setFrame L .idle) (fun _ => hsize) w).connections

theorem step_tableOp {s u : Server} {l : Label} (hs : s.Placed) (hknown : ∀ c, s.alive c = true → c < s.size)
    (h : step s l = some u) : u.connections = match s.tableOp l with
      | none => s.connections
      | some (.insert c) => Function.update s.connections (s.fd c) (some c)
      | some (.erase c) => Function.update s.connections (s.fd c) none := by
  cases l with
  | poll L events =>
    obtain ⟨-, rfl⟩ := Machine.guard_some.mp h
    exact (s.setRevents_mild events).connections
  | accept fd =>
    obtain ⟨rest, -, -, -, rfl⟩ := accept_inv h
    exact accept_connections _ fd
  | statement =>
    obtain ⟨c, stage, hframe, -, rfl⟩ := statement_inv h
    rw [statement_connections]
    cases stage <;> simp [tableOp, hframe]
  | handle L res w =>
    obtain ⟨c, rest, hactive, -, hmoves⟩ := handle_moves h
    exact (hmoves.mild (hs.active L c (by rw [hactive]; exact List.mem_cons_self)).1).connections
  | return_ L w =>
    obtain ⟨c, rest, hframe, -, -, rfl⟩ := return_inv h
    rw [return_connections s L c w rest (hs.user L c rest hframe).1]
    cases rest with
    | closed called =>
      simp only [tableOp, hframe]
      split <;> simp
    | connected | established | completed | read => simp [tableOp, hframe]
  | act L a =>
    obtain ⟨arg, hcode, -, hL, hmay, rfl⟩ := act_inv h
    refine (act_mild _ fun c message w ha => ?_).connections
    subst ha
    exact hknown c (mayAct_alive hL hcode hmay.1)
  | foreign a =>
    obtain ⟨⟨-, hmay⟩, rfl⟩ := Machine.guard_some.mp h
    refine (act_mild _ fun c message w ha => ?_).connections
    subst ha
    exact hknown c (kept_alive hmay.1)
  | swap L =>
    obtain ⟨-, rfl⟩ := Machine.guard_some.mp h
    rfl
  | runFunctor L w =>
    obtain ⟨f, rest, hruns, -, rfl⟩ := runFunctor_inv h
    change ((s.takeFunctor L f rest).runFunctor L w f).connections = (s.takeFunctor L f rest).connections
    cases f with
    | connectEstablished c => exact (s.takeFunctor L _ rest).connectEstablished_connections L c .established
    | bound c f => exact (bound_mild (takeFunctor_known hknown hruns)).connections
  | endBatch L =>
    obtain ⟨-, rfl⟩ := Machine.guard_some.mp h
    rfl

/-! ## Frames -/

/-- A callback of `handleClose` is running. -/
def Frame.closes : Frame → Bool
  | .user _ (.closed _) => true
  | _ => false

theorem onMessage_closes (s : Server) (L : Nat) (c : ConnId) (h : ((s.onMessage L c).loops L).frame.closes = true) :
    (s.loops L).frame.closes = true := by
  rw [onMessage_eq] at h
  split at h
  · simp [observe, Frame.closes] at h
  · exact h

theorem handleEvent_frame (s : Server) (L : Nat) (c : ConnId) (res : Buffer.ReadResult) (w : WriteResult)
    (h : ((s.handleEvent L c res w).loops L).frame.closes = true) :
    (s.loops L).frame.closes = true ∨ (s.conn c).tcp.Closes res := by
  obtain ⟨v, hhost, hevent⟩ := host.handleEvent_cases s L c res w
  obtain ⟨-, hframe⟩ := moves_host L hhost
  rw [← hframe L]
  unfold handleEvent at h
  generalize host.handleEvent s L c res w = u at h hevent
  cases hevent with
  | nothing => exact Or.inl h
  | onMessage halive hread => exact Or.inl (onMessage_closes (v.setTcp c _) L c h)
  | close halive hcloses => exact Or.inr hcloses

theorem Move.other {L M : Nat} {c : ConnId} {t u : Server} (h : Move L c t u) (hM : M ≠ L) :
    (u.loops M).frame = (t.loops M).frame := by
  cases h with
  | consult | read => rfl
  | onMessage halive hidle hread =>
    rw [onMessage_eq]
    split
    · simp [observe, setFrame_loop, hM, setTcp, setConn]
    · rfl
  | close halive hidle =>
    rw [handleClose_eq]
    split
    · split
      · simp [observe, setFrame_loop, hM, disableChannel_eq, control, setTcp, setConn]
      · simp [setFrame_loop, hM, disableChannel_eq, control, setTcp, setConn, observe]
    · rfl
  | write halive => exact called_frame (t.observe _) c _ M

theorem Moves.other {L M : Nat} {c : ConnId} {s u : Server} (h : Moves L c s u) (hM : M ≠ L) :
    (u.loops M).frame = (s.loops M).frame :=
  moves_invariant (I := fun t => (t.loops M).frame = (s.loops M).frame) h rfl fun _ _ ht hmove =>
    (hmove.other hM).trans ht

theorem setLoop_frame (s : Server) (L M : Nat) {lp : Loop} (hframe : lp.frame = (s.loops L).frame) :
    ((s.setLoop L lp).loops M).frame = (s.loops M).frame := by
  by_cases hM : M = L
  · subst hM
    simpa [setLoop] using hframe
  · simp [setLoop, hM]

theorem setFrame_closes (s : Server) (L M : Nat) {frame : Frame} (hframe : frame.closes = false)
    (h : ((s.setFrame L frame).loops M).frame.closes = true) : (s.loops M).frame.closes = true := by
  rw [setFrame_loop] at h
  simp only at h
  split at h
  · rw [hframe] at h
    cases h
  · exact h

theorem connectEstablished_closes (s : Server) (L M : Nat) (c : ConnId) {rest : Rest} (hrest : ∀ b, rest ≠ .closed b)
    (h : ((s.connectEstablished L c rest).loops M).frame.closes = true) : (s.loops M).frame.closes = true := by
  have hframe : (Frame.user c rest).closes = false := by
    cases rest with
    | closed called => exact absurd rfl (hrest called)
    | connected | established | completed | read => rfl
  unfold connectEstablished at h
  split at h
  · exact s.setFrame_closes L M hframe h
  · exact s.setFrame_closes L M rfl h

theorem statement_closes (s : Server) (c : ConnId) (stage : Stage) (M : Nat)
    (h : ((s.statement c stage).loops M).frame.closes = true) : (s.loops M).frame.closes = true := by
  cases stage with
  | runInLoop =>
    simp only [statement] at h
    split at h
    · exact s.connectEstablished_closes 0 M c (by simp) h
    · rw [← s.queueInLoop_frame (s.conn c).loop M (.connectEstablished c)]
      exact setFrame_closes _ 0 M rfl h
  | setUser =>
    simp only [statement] at h
    split at h
    · exact setFrame_closes (s.setTcp c _) 0 M rfl h
    · exact s.setFrame_closes 0 M rfl h
  | enableReading | sharedPtr | insert | setUpLayerCloseCallback => exact setFrame_closes _ 0 M rfl h

theorem return_closes (s : Server) (L : Nat) (c : ConnId) (w : WriteResult) (rest : Rest) (M : Nat)
    (h : ((s.return_ L c w rest).loops M).frame.closes = true) : (s.loops M).frame.closes = true := by
  cases rest with
  | connected | established | completed => exact s.setFrame_closes L M rfl h
  | read =>
    rw [return_, testOut_frame] at h
    exact s.setFrame_closes L M rfl h
  | closed called =>
    simp only [return_] at h
    split at h
    · rw [testOut_frame] at h
      exact (s.removeConnection c).setFrame_closes L M rfl h
    · rw [testOut_frame] at h
      exact s.setFrame_closes L M rfl h

theorem bound_closes (s : Server) (L : Nat) (w : WriteResult) (c : ConnId) (f : Functor) (M : Nat)
    (h : ((s.runFunctor L w (.bound c f)).loops M).frame.closes = true) : (s.loops M).frame.closes = true := by
  rcases s.runFunctor_bound L w c f with ⟨d, -, heq⟩ | ⟨-, heq⟩
  · rw [heq] at h
    cases f with
    | onWriteComplateCB =>
      rw [callFunctor_completed] at h
      split at h
      · exact (s.observe _).setFrame_closes L M rfl h
      · exact h
    | onMessageCB message =>
      have hsame : (((s.observe (.functor c (.onMessageCB message) (s.alive c))).callFunctor L d w
          (.onMessageCB message)).loops M).frame = (s.loops M).frame := called_frame (s.observe _) d _ M
      rwa [hsame] at h
  · rw [heq] at h
    exact h

theorem step_closes {s u : Server} {l : Label} (h : step s l = some u) {M : Nat}
    (hopen : ∀ res w, l = .handle M res w → ∀ c ∈ headConn (s.loops M).active, ¬ (s.conn c).tcp.Closes res)
    (hframe : (u.loops M).frame.closes = true) : (s.loops M).frame.closes = true := by
  cases l with
  | poll L events =>
    obtain ⟨-, rfl⟩ := Machine.guard_some.mp h
    rw [setLoop_frame _ L M (by rw [setRevents_loops])] at hframe
    rwa [setRevents_loops] at hframe
  | accept fd =>
    obtain ⟨rest, -, -, -, rfl⟩ := accept_inv h
    rw [accept_loops] at hframe
    have htaken := setFrame_closes _ 0 M rfl hframe
    rwa [takeActive, setLoop_frame s 0 M (by rfl)] at htaken
  | statement =>
    obtain ⟨c, stage, -, -, rfl⟩ := statement_inv h
    exact s.statement_closes c stage M hframe
  | handle L res w =>
    obtain ⟨c, rest, hactive, hready, rfl⟩ := handle_inv h
    by_cases hL : M = L
    · subst hL
      rcases handleEvent_frame _ M c res w hframe with hframe | hcloses
      · rwa [takeActive, setLoop_frame s M M (by rfl)] at hframe
      · exact absurd hcloses (hopen res w rfl c (by rw [hactive]; rfl))
    · have hmoves := handleEvent_moves (s.takeActive L rest) (L := L) (by simpa using hready.2.2.2) c res w
      rw [hmoves.other hL, takeActive, setLoop_frame s L M (by rfl)] at hframe
      exact hframe
  | return_ L w =>
    obtain ⟨c, rest, -, -, -, rfl⟩ := return_inv h
    exact s.return_closes L c w rest M hframe
  | act L a =>
    obtain ⟨arg, -, -, -, -, rfl⟩ := act_inv h
    rwa [act_frame] at hframe
  | foreign a =>
    obtain ⟨-, rfl⟩ := Machine.guard_some.mp h
    rwa [act_frame] at hframe
  | swap L =>
    obtain ⟨-, rfl⟩ := Machine.guard_some.mp h
    rwa [setLoop_frame s L M (by rfl)] at hframe
  | runFunctor L w =>
    obtain ⟨f, rest, -, -, rfl⟩ := runFunctor_inv h
    have htaken : (((s.takeFunctor L f rest).loops M).frame.closes = true) := by
      cases f with
      | connectEstablished c => exact connectEstablished_closes _ L M c (by simp) hframe
      | bound c f => exact bound_closes _ L w c f M hframe
    rwa [takeFunctor, setLoop_frame s L M (by rfl)] at htaken
  | endBatch L =>
    obtain ⟨-, rfl⟩ := Machine.guard_some.mp h
    rwa [setLoop_frame s L M (by rfl)] at hframe

/-- Where no IO thread finds that a peer has hung up, only the base loop's thread inserts into `_connections` and
erases from it. -/
theorem table_confined (n : Nat) (user : Bool) (listenfd : Int) (address : ConnId → TcpConnection.Addr)
    (labels : List Label)
    (hcloses : Machine.Meets step ClosesInBase (init n user listenfd address) labels) :
    Machine.Meets step TableInBase (init n user listenfd address) labels := by
  refine Machine.meets_of_meets (I := fun s => ∀ M, M ≠ 0 → (s.loops M).frame.closes = false)
    (fun s l u hs hl hstep M hM => ?_) (fun s l hs _ => ?_) (fun _ _ => rfl) hcloses
  · by_contra hframe
    rw [Bool.not_eq_false] at hframe
    have hbefore := step_closes hstep (fun res w hhandle c hc hcloses => ?_) hframe
    · rw [hs M hM] at hbefore
      cases hbefore
    · subst hhandle
      exact hM (hl c hc hcloses)
  · cases l with
    | statement => exact Or.inr rfl
    | return_ L w =>
      by_cases hL : L = 0
      · exact Or.inr (by rw [hL]; rfl)
      · refine Or.inl ?_
        have hframe := hs L hL
        simp only [tableOp]
        split
        · rename_i hclosed
          rw [hclosed] at hframe
          cases hframe
        · rfl
    | poll | accept | handle | act | foreign | swap | runFunctor | endBatch => exact Or.inl rfl

/-- An IO loop takes over a connection and reads from it. -/
def readOnIoThread : List Label :=
  accepting 5 ++ [.swap 0, .endBatch 0, .poll 1 [], .swap 1, .runFunctor 1 .error, .return_ 1 .error, .endBatch 1,
    .poll 1 [(.conn 0, EPOLLIN)], .handle 1 (.ok [104]) .error, .return_ 1 .error]

theorem table_confined_read : Machine.Meets step TableInBase (init 1 true 3 id) readOnIoThread :=
  table_confined 1 true 3 id readOnIoThread (by decide +kernel)

/-- The IO thread erases the first connection while the base loop is about to insert the second. -/
def eraseOverlapsInsert : List Label :=
  accepting 5 ++ [.swap 0, .endBatch 0, .poll 1 [], .swap 1, .runFunctor 1 .error, .return_ 1 .error, .endBatch 1,
    .poll 1 [(.conn 0, EPOLLHUP)], .handle 1 (.ok []) .error, .poll 0 [(.listen, EPOLLIN)], .accept 6, .statement,
    .statement, .return_ 1 .error]

theorem erase_overlaps_insert : ¬ Machine.Meets step TableInBase (init 1 true 3 id) eraseOverlapsInsert := by
  decide +kernel

/-! ## Connections -/

/-- The connection that an observation is a call of. -/
def Obs.calls : Obs → Option ConnId
  | .handler c _ _ | .callback c _ => some c
  | .accepted _ _ | .consulted _ _ | .functor _ _ _ => none

/-- `_inBuf` and `_outBuf` of `c` are what they were. -/
def SameBuffers (s : Server) (c : ConnId) (u : Server) : Prop :=
  (u.conn c).tcp.inBuf = (s.conn c).tcp.inBuf ∧ (u.conn c).tcp.outBuf = (s.conn c).tcp.outBuf

/-- The connection whose `sendInLoop` a step calls. -/
def sendsInLoop (s : Server) : Label → Option ConnId
  | .act L (.send c _ _) => if L = (s.conn c).loop then some c else none
  | .runFunctor L _ =>
    match (s.loops L).tempRuns with
    | .bound c (.onMessageCB _) :: _ => s.pointee c
    | _ => none
  | _ => none

/-- The handlers, the callbacks and the `sendInLoop` that run in a step run in the thread of their connection's
loop, and a step of another thread leaves its buffers alone. -/
structure Confined (s : Server) (l : Label) (u : Server) : Prop where
  calls : ∀ o ∈ u.trace.drop s.trace.length, ∀ c ∈ o.calls, l.thread = some (s.conn c).loop
  sends : ∀ c ∈ s.sendsInLoop l, l.thread = some (s.conn c).loop
  buffers : ∀ c, c < s.size → l.thread ≠ some (s.conn c).loop → s.SameBuffers c u

theorem Moves.others {L : Nat} {c d : ConnId} {s u : Server} (h : Moves L c s u) (hd : d ≠ c) :
    u.conn d = s.conn d := by
  refine moves_invariant (I := fun t => t.conn d = s.conn d) h rfl fun t v ht hmove => ?_
  rw [← ht]
  cases hmove with
  | consult | read => rfl
  | onMessage =>
    rw [onMessage_eq]
    split <;> simp [observe, setFrame, setLoop, setTcp, setConn, hd]
  | close =>
    rw [← (t.disableChannel_tcp c d).trans (if_neg hd)]
    rw [handleClose_eq]
    split
    · split <;> rfl
    · rfl
  | write => exact (called_quiet _ c _).others d hd

theorem Moves.calls {L : Nat} {c : ConnId} {s u : Server} (h : Moves L c s u) :
    ∃ os, u.trace = s.trace ++ os ∧ ∀ o ∈ os, ∀ d ∈ o.calls, d = c := by
  obtain ⟨os, htrace, hos⟩ := h.shows
  refine ⟨os, htrace, fun o ho d hd => ?_⟩
  rcases hos o ho with ⟨alive, rfl⟩ | ⟨k, ready, rfl⟩ | rfl | rfl
  · cases hd
  all_goals exact (Option.some.inj hd).symm

theorem return_calls (s : Server) (L : Nat) (c : ConnId) (w : WriteResult) (rest : Rest) :
    ∃ os, (s.return_ L c w rest).trace = s.trace ++ os ∧ ∀ o ∈ os, ∀ d ∈ o.calls, d = c := by
  cases rest with
  | connected | established | completed => exact ⟨[], by simp [return_, setFrame, setLoop], by simp⟩
  | read => exact ((s.setFrame L .idle).testOut_moves L c w).calls
  | closed called =>
    simp only [return_]
    split
    · exact (((s.removeConnection c).setFrame L .idle).testOut_moves L c w).calls
    · exact ((s.setFrame L .idle).testOut_moves L c w).calls

theorem runFunctor_calls (s : Server) (L : Nat) (w : WriteResult) {q : Queued}
    (hq : ∀ c f, q = .bound c f → s.pointee c = some c) :
    ∃ os, (s.runFunctor L w q).trace = s.trace ++ os ∧ ∀ o ∈ os, ∀ d ∈ o.calls, d = q.conn := by
  cases q with
  | connectEstablished c =>
    refine ⟨_, s.connectEstablished_trace L c _, fun o ho d hd => ?_⟩
    split at ho
    · rw [List.mem_singleton] at ho
      subst ho
      exact (Option.some.inj hd).symm
    · cases ho
  | bound c f =>
    obtain ⟨os, htrace, hos⟩ := s.bound_trace L w c f
    refine ⟨_, htrace, fun o ho d hd => ?_⟩
    rcases List.mem_cons.mp ho with rfl | ho
    · cases hd
    · rcases hos with rfl | ⟨e, he, -, rfl⟩
      · cases ho
      · rw [hq c f rfl, Option.some.injEq] at he
        subst he
        rw [List.mem_singleton.mp ho] at hd
        exact (Option.some.inj hd).symm

theorem step_calls {s u : Server} {l : Label} (hs : s.Placed) (hlives : s.FunctorLives l) (h : step s l = some u) :
    ∃ os, u.trace = s.trace ++ os ∧ ∀ o ∈ os, ∀ c ∈ o.calls, l.thread = some (s.conn c).loop := by
  have hnone : u.trace = s.trace →
      ∃ os, u.trace = s.trace ++ os ∧ ∀ o ∈ os, ∀ c ∈ o.calls, l.thread = some (s.conn c).loop :=
    fun htrace => ⟨[], by simpa using htrace, by simp⟩
  have hone : ∀ {L c}, s.Assigned L c → l.thread = some L →
      (∃ os, u.trace = s.trace ++ os ∧ ∀ o ∈ os, ∀ d ∈ o.calls, d = c) →
      ∃ os, u.trace = s.trace ++ os ∧ ∀ o ∈ os, ∀ c ∈ o.calls, l.thread = some (s.conn c).loop := by
    rintro L c hc hL ⟨os, htrace, hos⟩
    refine ⟨os, htrace, fun o ho d hd => ?_⟩
    rw [hos o ho d hd, ← hc.2, hL]
  cases l with
  | poll L events =>
    obtain ⟨-, rfl⟩ := Machine.guard_some.mp h
    exact hnone (s.setRevents_trace events)
  | accept fd =>
    obtain ⟨rest, -, -, -, rfl⟩ := accept_inv h
    exact ⟨[.accepted fd s.size], accept_trace _ fd, by simp [Obs.calls]⟩
  | statement =>
    obtain ⟨c, stage, -, -, rfl⟩ := statement_inv h
    refine ⟨_, s.statement_trace c stage, fun o ho d hd => ?_⟩
    split at ho
    · rename_i hbase
      rw [List.mem_singleton] at ho
      subst ho
      cases hd
      exact congrArg some hbase.2.1.symm
    · cases ho
  | handle L res w =>
    obtain ⟨c, rest, hactive, -, hmoves⟩ := handle_moves h
    exact hone (hs.active L c (by rw [hactive]; exact List.mem_cons_self)) rfl hmoves.calls
  | return_ L w =>
    obtain ⟨c, rest, hframe, -, -, rfl⟩ := return_inv h
    by_cases hrest : rest = .completed
    · subst hrest
      exact hnone rfl
    · obtain ⟨hsize, hloop⟩ := hs.user L c rest hframe
      exact hone ⟨hsize, hloop hrest⟩ rfl (s.return_calls L c w rest)
  | act L a =>
    obtain ⟨arg, -, -, -, -, rfl⟩ := act_inv h
    exact hnone (s.act_trace _ a)
  | foreign a =>
    obtain ⟨-, rfl⟩ := Machine.guard_some.mp h
    exact hnone (s.act_trace _ a)
  | swap L =>
    obtain ⟨-, rfl⟩ := Machine.guard_some.mp h
    exact hnone rfl
  | runFunctor L w =>
    obtain ⟨f, rest, hruns, -, rfl⟩ := runFunctor_inv h
    refine hone (hs.functors L f (Or.inl (by rw [hruns]; exact List.mem_cons_self))) rfl
      ((s.takeFunctor L f rest).runFunctor_calls L w fun c g hf => ?_)
    subst hf
    exact (takeFunctor_pointee hruns c).trans (hlives.pointee hruns)
  | endBatch L =>
    obtain ⟨-, rfl⟩ := Machine.guard_some.mp h
    exact hnone rfl

theorem step_sends {s : Server} (hs : s.Placed) {l : Label} (hlives : s.FunctorLives l) :
    ∀ c ∈ s.sendsInLoop l, l.thread = some (s.conn c).loop := by
  intro c hc
  unfold sendsInLoop at hc
  split at hc
  · split at hc
    · rename_i hL
      cases hc
      exact congrArg some hL
    · cases hc
  · split at hc
    · rename_i hruns
      rw [hlives.pointee hruns] at hc
      cases hc
      exact congrArg some (hs.functors _ _ (Or.inl (by rw [hruns]; exact List.mem_cons_self))).2
    · cases hc
  · cases hc

section

variable {s u : Server} {c : ConnId}

theorem SameBuffers.of_conn (h : u.conn c = s.conn c) : s.SameBuffers c u := by
  rw [SameBuffers, h]
  exact ⟨rfl, rfl⟩

theorem setConn_buffers (d : ConnId) {k : Conn} (hin : k.tcp.inBuf = (s.conn d).tcp.inBuf)
    (hout : k.tcp.outBuf = (s.conn d).tcp.outBuf) : s.SameBuffers c (s.setConn d k) := by
  by_cases h : c = d
  · subst h
    simpa [SameBuffers, setConn] using ⟨hin, hout⟩
  · exact .of_conn (by simp [setConn, h])

theorem setRevents_buffers (events : List (Source × Events)) : s.SameBuffers c (s.setRevents events) :=
  setRevents_rel (R := fun t v => t.SameBuffers c v) (fun _ => ⟨rfl, rfl⟩)
    (fun h k => ⟨k.1.trans h.1, k.2.trans h.2⟩) (fun _ d _ => setConn_buffers d rfl rfl) s events

theorem statement_buffers (d : ConnId) (stage : Stage) : s.SameBuffers c (s.statement d stage) := by
  cases stage with
  | setUser =>
    simp only [statement]
    split
    · exact setConn_buffers d rfl rfl
    · exact ⟨rfl, rfl⟩
  | runInLoop =>
    simp only [statement]
    split
    · unfold connectEstablished
      split <;> exact ⟨rfl, rfl⟩
    · exact ⟨rfl, rfl⟩
  | insert => exact ⟨rfl, rfl⟩
  | enableReading => exact setConn_buffers d rfl rfl
  | sharedPtr => exact setConn_buffers d rfl rfl
  | setUpLayerCloseCallback => exact setConn_buffers d rfl rfl

theorem act_buffers (thread : Option Nat) (a : Act) (hthread : thread ≠ some (s.conn c).loop) :
    s.SameBuffers c (s.act thread a) := by
  cases a with
  | send d message w =>
    simp only [act]
    split
    · rename_i hloop
      have hd : c ≠ d := by
        rintro rfl
        exact hthread hloop
      exact .of_conn ((s.called_quiet d _).others c hd)
    · exact ⟨rfl, rfl⟩
  | keep d => exact setConn_buffers d rfl rfl
  | drop d => exact setConn_buffers d rfl rfl

theorem runFunctor_buffers (L : Nat) (w : WriteResult) (q : Queued)
    (hq : ∀ d f, q = .bound d f → s.pointee d ≠ some c) : s.SameBuffers c (s.runFunctor L w q) := by
  cases q with
  | connectEstablished d =>
    simp only [runFunctor, connectEstablished]
    split <;> exact ⟨rfl, rfl⟩
  | bound d f =>
    rcases s.runFunctor_bound L w d f with ⟨e, he, heq⟩ | ⟨-, heq⟩
    · rw [heq]
      cases f with
      | onWriteComplateCB =>
        rw [callFunctor_completed]
        split <;> exact ⟨rfl, rfl⟩
      | onMessageCB message =>
        refine .of_conn ((called_quiet (s.observe _) e _).others c ?_)
        rintro rfl
        exact hq d _ rfl he
    · rw [heq]
      exact ⟨rfl, rfl⟩

end

theorem step_buffers {s u : Server} {l : Label} (hs : s.Placed) (hlives : s.FunctorLives l)
    (h : step s l = some u) {c : ConnId} (hsize : c < s.size) (hthread : l.thread ≠ some (s.conn c).loop) :
    s.SameBuffers c u := by
  have hother : ∀ {L d}, s.Assigned L d → l.thread = some L → c ≠ d := by
    rintro L d hd hL rfl
    exact hthread (hd.2 ▸ hL)
  cases l with
  | poll L events =>
    obtain ⟨-, rfl⟩ := Machine.guard_some.mp h
    exact s.setRevents_buffers events
  | accept fd =>
    obtain ⟨rest, -, -, -, rfl⟩ := accept_inv h
    exact .of_conn (accept_old (s.takeActive 0 rest) fd (Nat.ne_of_lt hsize))
  | statement =>
    obtain ⟨d, stage, -, -, rfl⟩ := statement_inv h
    exact statement_buffers d stage
  | handle L res w =>
    obtain ⟨d, rest, hactive, -, hmoves⟩ := handle_moves h
    exact .of_conn (hmoves.others (hother (hs.active L d (by rw [hactive]; exact List.mem_cons_self)) rfl))
  | return_ L w =>
    obtain ⟨d, rest, hframe, -, -, rfl⟩ := return_inv h
    obtain ⟨hsize, hloop⟩ := hs.user L d rest hframe
    cases rest with
    | connected | established | completed => exact ⟨rfl, rfl⟩
    | read =>
      have hd : c ≠ d := hother ⟨hsize, hloop (by simp)⟩ rfl
      exact .of_conn (((s.setFrame L .idle).testOut_moves L d w).others hd)
    | closed called =>
      have hd : c ≠ d := hother ⟨hsize, hloop (by simp)⟩ rfl
      simp only [return_]
      split
      · exact .of_conn ((((s.removeConnection d).setFrame L .idle).testOut_moves L d w).others hd)
      · exact .of_conn (((s.setFrame L .idle).testOut_moves L d w).others hd)
  | act L a =>
    obtain ⟨arg, -, -, -, -, rfl⟩ := act_inv h
    exact act_buffers _ a hthread
  | foreign a =>
    obtain ⟨-, rfl⟩ := Machine.guard_some.mp h
    exact act_buffers _ a (by simp)
  | swap L =>
    obtain ⟨-, rfl⟩ := Machine.guard_some.mp h
    exact ⟨rfl, rfl⟩
  | runFunctor L w =>
    obtain ⟨q, rest, hruns, -, rfl⟩ := runFunctor_inv h
    refine runFunctor_buffers (s := s.takeFunctor L q rest) L w q fun d f hq hpointee => ?_
    have hc := hother (hs.functors L q (Or.inl (by rw [hruns]; exact List.mem_cons_self))) rfl
    subst hq
    rw [takeFunctor_pointee hruns, hlives.pointee hruns] at hpointee
    exact hc (Option.some.inj hpointee).symm
  | endBatch L =>
    obtain ⟨-, rfl⟩ := Machine.guard_some.mp h
    exact ⟨rfl, rfl⟩

theorem step_confined {s u : Server} {l : Label} (hs : s.Placed) (hlives : s.FunctorLives l)
    (h : step s l = some u) : s.Confined l u := by
  obtain ⟨os, htrace, hos⟩ := step_calls hs hlives h
  refine ⟨?_, step_sends hs hlives, fun c => step_buffers hs hlives h⟩
  rw [htrace, List.drop_left]
  exact hos

/-! ## Runs -/

/-- What the run of a server with IO threads keeps. -/
structure Rooted (s : Server) : Prop where
  formed : s.Formed
  known : ∀ c, s.alive c = true → c < s.size
  placed : s.Placed

theorem init_rooted (n : Nat) (user : Bool) (listenfd : Int) (address : ConnId → TcpConnection.Addr) :
    (init n user listenfd address).Rooted :=
  ⟨init_formed n user listenfd address, init_known n user listenfd address, init_placed n user listenfd address⟩

theorem step_rooted {s u : Server} {l : Label} (hs : s.Rooted) (h : step s l = some u) : u.Rooted :=
  ⟨step_formed hs.formed h, step_known hs.formed hs.known h, step_placed hs.placed hs.known h⟩

theorem run_rooted {n : Nat} {user : Bool} {listenfd : Int} {address : ConnId → TcpConnection.Addr}
    {labels : List Label} {s : Server}
    (hrun : Machine.run step (init n user listenfd address) labels = some s) : s.Rooted :=
  Machine.run_invariant (fun _ _ _ hs h => step_rooted hs h) (init_rooted n user listenfd address) hrun

end Server

/-! ## Addresses -/

/-- A pointer to `x` leads to `x` while it lives, and to what is found at its address behind that. Where no two of
those that live are at one address, that is the one there. -/
theorem find_at_address {α β : Type} {f : α → β} {P : α → Prop} [DecidablePred P] {xs : List α} {p : α → Bool} {x : α}
    (hall : ∀ y, P y → y ∈ xs) (hp : ∀ y ∈ xs, p y = true ↔ P y ∧ f y = f x)
    (hone : ∀ y z, P y → P z → f y = f z → y = z) (y : α) :
    (if P x then some x else xs.find? p) = some y ↔ P y ∧ f y = f x := by
  split
  · rename_i hx
    rw [Option.some.injEq]
    exact ⟨fun h => h ▸ ⟨hx, rfl⟩, fun ⟨hy, heq⟩ => hone x y hx hy heq.symm⟩
  · refine ⟨fun h => (hp y (List.mem_of_find?_eq_some h)).mp (List.find?_some h), fun ⟨hy, heq⟩ => ?_⟩
    cases hfound : xs.find? p with
    | some z =>
      obtain ⟨hz, hxz⟩ := (hp z (List.mem_of_find?_eq_some hfound)).mp (List.find?_some hfound)
      rw [hone z y hz hy (hxz.trans heq.symm)]
    | none => exact absurd ((hp y (hall y hy)).mpr ⟨hy, heq⟩) (List.find?_eq_none.mp hfound y (hall y hy))

namespace Server

/-- No two connections live at one address. -/
def Distinct (s : Server) : Prop :=
  ∀ c d, s.alive c = true → s.alive d = true → s.address c = s.address d → c = d

theorem init_distinct (n : Nat) (user : Bool) (listenfd : Int) (address : ConnId → TcpConnection.Addr) :
    (init n user listenfd address).Distinct :=
  fun c _ hc => absurd (init_known n user listenfd address c hc) (Nat.not_lt_zero c)

theorem step_distinct {s u : Server} {l : Label} (hs : s.Rooted) (hdistinct : s.Distinct) (h : step s l = some u) :
    u.Distinct := by
  have hfree : ∀ c, s.alive c = true → (∃ fd, l = .accept fd) → s.address c ≠ s.address s.size := by
    rintro c hc ⟨fd, rfl⟩
    exact accept_free h c (List.mem_range.mpr (hs.known c hc)) hc
  intro c d hc hd heq
  rw [step_address h] at heq
  rcases step_lived hs.formed h hc with hc | ⟨rfl, hl⟩ <;> rcases step_lived hs.formed h hd with hd | ⟨rfl, hl'⟩
  · exact hdistinct c d hc hd heq
  · exact absurd heq (hfree c hc hl')
  · exact absurd heq.symm (hfree d hd hl)
  · rfl

/-- In every run a plain `this` points to the one connection that lives at its address, if there is one. -/
theorem run_pointee {n : Nat} {user : Bool} {listenfd : Int} {address : ConnId → TcpConnection.Addr}
    {labels : List Label} {s : Server} (hrun : Machine.run step (init n user listenfd address) labels = some s)
    (c d : ConnId) : s.pointee c = some d ↔ s.alive d = true ∧ s.address d = s.address c := by
  have hs := run_rooted hrun
  have hdistinct : s.Distinct :=
    (Machine.run_invariant (I := fun s => s.Rooted ∧ s.Distinct)
      (fun _ _ _ hs h => ⟨step_rooted hs.1 h, step_distinct hs.1 hs.2 h⟩)
      ⟨init_rooted n user listenfd address, init_distinct n user listenfd address⟩ hrun).2
  exact find_at_address (f := s.address) (P := fun d => s.alive d = true)
    (fun e he => List.mem_range.mpr (hs.known e he)) (fun e _ => by simp) hdistinct d

end Server

end Muduo
