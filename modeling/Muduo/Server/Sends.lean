import Muduo.Server.Streams

/-! # What is sent on a connection of a server

On the thread of the connection's loop `send` calls `sendInLoop`, and on another thread it puts a functor into the
loop's queue. As long as the connection outlives its functors, no message is lost, and none is sent twice.
-/

namespace Muduo

/-- A call that queues no message. -/
def Call.Mute (call : Call) : Prop := ∀ message, Effect.queueInLoop (.onMessageCB message) ∉ call.effects

namespace TcpConnection

theorem bufferRest_mute (c : TcpConnection) (message : List Byte) (n : Int) : (c.bufferRest message n).Mute := by
  intro other
  unfold bufferRest
  split
  · split
    · simp
    · simp only
      split <;> simp
  · simp

theorem sendInLoop_mute (c : TcpConnection) (message : List Byte) (w : WriteResult) :
    (c.sendInLoop message w).Mute := by
  intro other
  unfold sendInLoop
  split
  · have hrest := c.bufferRest_mute message w.n other
    simp only [Call.behind_effects, List.mem_append, List.mem_cons, reduceCtorEq, false_or, not_or]
    refine ⟨?_, hrest⟩
    split <;> simp
  · exact c.bufferRest_mute message 0 other

theorem handleWrite_mute (c : TcpConnection) (w : WriteResult) : (c.handleWrite w).Mute := by
  intro other
  unfold handleWrite
  split
  · simp only
    split
    · split <;> simp
    · simp
  · simp

end TcpConnection

namespace Server

/-! ## Messages in queues -/

def Queued.message (c : ConnId) : Queued → Option (List Byte)
  | .bound d (.onMessageCB message) => if d = c then some message else none
  | _ => none

theorem Queued.message_other {c : ConnId} (q : Queued) (h : q.conn ≠ c) : q.message c = none := by
  cases q with
  | connectEstablished d => rfl
  | bound d f =>
    cases f with
    | onWriteComplateCB => rfl
    | onMessageCB message => exact if_neg h

/-- The messages for `c` in the queues of a loop, in the order in which they will be sent. -/
def Loop.messages (c : ConnId) (lp : Loop) : List (List Byte) :=
  (lp.tempRuns ++ lp.pendingFunctors).filterMap (Queued.message c)

/-- The messages that wait for the loop of `c`. -/
def inbox (s : Server) (c : ConnId) : List (List Byte) := (s.loops (s.conn c).loop).messages c

/-- The queues hold the same messages. -/
def SameMessages (s u : Server) : Prop := ∀ L c, (u.loops L).messages c = (s.loops L).messages c

section

variable {s t u : Server} {l : Label} {c : ConnId}

theorem SameMessages.trans (h : SameMessages s t) (k : SameMessages t u) : SameMessages s u :=
  fun L c => (k L c).trans (h L c)

theorem sameMessages_of_loops (h : u.loops = s.loops) : SameMessages s u := fun L c => by rw [h]

theorem setLoop_messages (s : Server) (L : Nat) {lp : Loop} (h : ∀ c, lp.messages c = (s.loops L).messages c) :
    SameMessages s (s.setLoop L lp) := by
  intro M c
  by_cases hM : M = L
  · subst hM
    simpa [setLoop] using h c
  · simp [setLoop, hM]

theorem setFrame_messages (s : Server) (L : Nat) (frame : Frame) : SameMessages s (s.setFrame L frame) :=
  s.setLoop_messages L fun _ => rfl

theorem takeActive_messages (s : Server) (L : Nat) (rest : List Source) : SameMessages s (s.takeActive L rest) :=
  s.setLoop_messages L fun _ => rfl

theorem queueInLoop_messages (s : Server) (L : Nat) (q : Queued) (M : Nat) (c : ConnId) :
    ((s.queueInLoop L q).loops M).messages c =
      (s.loops M).messages c ++ if M = L then (q.message c).toList else [] := by
  by_cases hM : M = L
  · subst hM
    cases hq : q.message c <;> simp [queueInLoop, setLoop, Loop.messages, hq]
  · simp [queueInLoop, setLoop, hM]

theorem effect_messages (s : Server) (c : ConnId) {e : Effect}
    (he : ∀ message, e ≠ .queueInLoop (.onMessageCB message)) :
    SameMessages s (effect c s e) := by
  cases e with
  | write data w => exact sameMessages_of_loops rfl
  | epollCtl ctl => exact sameMessages_of_loops rfl
  | queueInLoop f =>
    cases f with
    | onMessageCB message => exact absurd rfl (he message)
    | onWriteComplateCB =>
      intro M d
      refine (queueInLoop_messages s _ _ M d).trans ?_
      simp [Queued.message]

theorem called_messages (s : Server) (c : ConnId) {call : Call} (h : call.Mute) : SameMessages s (s.called c call) := by
  have heffects : ∀ (effects : List Effect) (t : Server), (∀ message, .queueInLoop (.onMessageCB message) ∉ effects) →
      SameMessages t (effects.foldl (effect c) t) := by
    intro effects
    induction effects with
    | nil => exact fun t _ => sameMessages_of_loops rfl
    | cons e effects ih =>
      intro t hnone
      have he := effect_messages t c (e := e) fun message heq => hnone message (heq ▸ List.mem_cons_self)
      exact he.trans (ih _ fun message hin => hnone message (List.mem_cons_of_mem e hin))
  exact (sameMessages_of_loops rfl).trans (heffects call.effects _ h)

theorem disableChannel_messages (s : Server) (c : ConnId) : SameMessages s (s.disableChannel c) :=
  sameMessages_of_loops rfl

theorem Move.messages {L : Nat} (h : Move L c t u) : SameMessages t u := by
  cases h with
  | consult => exact sameMessages_of_loops rfl
  | read => exact sameMessages_of_loops rfl
  | onMessage =>
    rw [onMessage_eq]
    split
    · exact (setFrame_messages (t.setTcp c _) L _).trans (sameMessages_of_loops rfl)
    · exact sameMessages_of_loops rfl
  | close =>
    rw [handleClose_eq]
    split
    · have hclose : ∀ frame, SameMessages t ((t.disableChannel c).setFrame L frame) := fun frame =>
        (t.disableChannel_messages c).trans (setFrame_messages _ L frame)
      split
      · exact (hclose _).trans (sameMessages_of_loops rfl)
      · exact hclose _
    · exact sameMessages_of_loops rfl
  | write => exact called_messages (t.observe _) c (TcpConnection.handleWrite_mute _ _)

theorem Moves.messages {L : Nat} (h : Moves L c s u) : SameMessages s u :=
  moves_invariant h (sameMessages_of_loops rfl) fun _ _ hs hmove => hs.trans hmove.messages

theorem connectEstablished_messages (s : Server) (L : Nat) (c : ConnId) (rest : Rest) :
    SameMessages s (s.connectEstablished L c rest) := by
  unfold connectEstablished
  split
  · exact (s.setFrame_messages L _).trans (sameMessages_of_loops rfl)
  · exact s.setFrame_messages L _

theorem statement_messages (s : Server) (c : ConnId) (stage : Stage) : SameMessages s (s.statement c stage) := by
  cases stage with
  | enableReading | sharedPtr | insert | setUpLayerCloseCallback =>
    exact SameMessages.trans (sameMessages_of_loops rfl) (setFrame_messages _ 0 _)
  | setUser =>
    simp only [statement]
    split
    · exact SameMessages.trans (sameMessages_of_loops rfl) (setFrame_messages _ 0 _)
    · exact s.setFrame_messages 0 _
  | runInLoop =>
    simp only [statement]
    split
    · exact s.connectEstablished_messages 0 c _
    · refine SameMessages.trans (fun M d => ?_) (setFrame_messages _ 0 _)
      rw [queueInLoop_messages]
      simp [Queued.message]

theorem return_messages (s : Server) (L : Nat) (c : ConnId) (w : WriteResult) (rest : Rest) :
    SameMessages s (s.return_ L c w rest) := by
  cases rest with
  | connected | established | completed => exact s.setFrame_messages L _
  | read => exact (s.setFrame_messages L _).trans (testOut_moves _ L c w).messages
  | closed called =>
    simp only [return_]
    split
    · refine SameMessages.trans (sameMessages_of_loops rfl) ?_
      exact (setFrame_messages (s.removeConnection c) L _).trans (testOut_moves _ L c w).messages
    · exact (s.setFrame_messages L _).trans (testOut_moves _ L c w).messages

theorem callFunctor_messages (s : Server) (L : Nat) (c : ConnId) (w : WriteResult) (f : Functor) :
    SameMessages s (s.callFunctor L c w f) := by
  cases f with
  | onWriteComplateCB =>
    rw [callFunctor_completed]
    split
    · exact (setFrame_messages s L _).trans (sameMessages_of_loops rfl)
    · exact sameMessages_of_loops rfl
  | onMessageCB message =>
    exact (called_messages s c (TcpConnection.sendInLoop_mute _ message w)).trans (sameMessages_of_loops rfl)

theorem runFunctor_messages (s : Server) (L : Nat) (w : WriteResult) (q : Queued) :
    SameMessages s (s.runFunctor L w q) := by
  cases q with
  | connectEstablished c => exact s.connectEstablished_messages L c _
  | bound c f =>
    have hobserve : SameMessages s (s.observe (.functor c f (s.alive c))) := sameMessages_of_loops rfl
    rcases s.runFunctor_bound L w c f with ⟨d, -, heq⟩ | ⟨-, heq⟩
    · rw [heq]
      exact hobserve.trans (callFunctor_messages _ L d w f)
    · rw [heq]
      exact hobserve.trans (sameMessages_of_loops rfl)

/-! ## One step -/

/-- The message of the functor that a step calls. -/
def taken (s : Server) (c : ConnId) : Label → List (List Byte)
  | .runFunctor L _ => ((s.loops L).tempRuns.head?.bind (Queued.message c)).toList
  | _ => []

/-- The message that another thread sends on `c`. -/
def posted (s : Server) (c : ConnId) : Label → List (List Byte)
  | .act L (.send d message _) => if d = c ∧ L ≠ (s.conn c).loop then [message] else []
  | .foreign (.send d message _) => if d = c then [message] else []
  | _ => []

/-- The message that the thread of its own loop sends on `c`. -/
def direct (s : Server) (c : ConnId) : Label → List (List Byte)
  | .act L (.send d message _) => if d = c ∧ L = (s.conn c).loop then [message] else []
  | _ => []

theorem act_messages (s : Server) (thread : Option Nat) (a : Act) (M : Nat) (c : ConnId) :
    ((s.act thread a).loops M).messages c = (s.loops M).messages c ++
      match a with
      | .send d message _ =>
        if d = c ∧ thread ≠ some (s.conn c).loop ∧ M = (s.conn c).loop then [message] else []
      | _ => [] := by
  cases a with
  | send d message w =>
    simp only [act]
    by_cases hthread : thread = some (s.conn d).loop
    · rw [if_pos hthread, called_messages s d (TcpConnection.sendInLoop_mute _ message w) M c, if_neg, List.append_nil]
      rintro ⟨rfl, hother, -⟩
      exact hother hthread
    · rw [if_neg hthread, queueInLoop_messages]
      congr 1
      by_cases hd : d = c
      · subst hd
        simp [Queued.message, hthread]
      · simp [Queued.message, hd]
  | keep d => simp [act, setConn]
  | drop d => simp [act, setConn]

theorem takeFunctor_messages {L : Nat} {q : Queued} {rest : List Queued} (h : (s.loops L).tempRuns = q :: rest)
    (M : Nat) (c : ConnId) : (s.loops M).messages c =
      (if M = L then (q.message c).toList else []) ++ ((s.takeFunctor L q rest).loops M).messages c := by
  by_cases hM : M = L
  · subst hM
    cases hq : q.message c <;> simp [takeFunctor, setLoop, Loop.messages, h, hq]
  · simp [takeFunctor, setLoop, hM]

theorem unknown_messages (hs : s.Placed) (hc : ¬ c < s.size) (L : Nat) : (s.loops L).messages c = [] := by
  unfold Loop.messages
  rw [List.filterMap_eq_nil_iff]
  intro q hq
  have hknown := (hs.functors L q (List.mem_append.mp hq)).1
  exact q.message_other fun hq => hc (hq ▸ hknown)

theorem step_inbox (hs : s.Rooted) (h : step s l = some u) :
    s.taken c l ++ u.inbox c = s.inbox c ++ s.posted c l := by
  have hsame : ∀ {t v : Server}, Fixed t v → SameMessages t v → v.inbox c = t.inbox c := by
    intro t v hfixed hmessages
    rw [inbox, hfixed.loop, hmessages, inbox]
  cases l with
  | poll L events =>
    have hfixed := step_fixed h (by simp)
    obtain ⟨-, rfl⟩ := Machine.guard_some.mp h
    rw [hsame hfixed]
    · simp [taken, posted]
    · exact (sameMessages_of_loops (s.setRevents_loops events)).trans
        (setLoop_messages _ L fun _ => by simp [Loop.messages])
  | accept fd =>
    obtain ⟨rest, -, -, -, rfl⟩ := accept_inv h
    have hmessages : SameMessages s ((s.takeActive 0 rest).accept fd) := by
      refine (s.takeActive_messages 0 rest).trans ?_
      exact (setFrame_messages (s.takeActive 0 rest) 0 _).trans (sameMessages_of_loops (accept_loops _ fd))
    simp only [taken, posted, List.nil_append, List.append_nil]
    by_cases hc : c = s.size
    · have hunknown := unknown_messages hs.placed (c := c) (hc ▸ lt_irrefl s.size)
      rw [inbox, inbox, hmessages, hunknown, hunknown]
    · rw [inbox, hmessages, inbox, show ((s.takeActive 0 rest).accept fd).conn c = s.conn c from accept_old _ fd hc]
  | statement =>
    have hfixed := step_fixed h (by simp)
    obtain ⟨d, stage, -, -, rfl⟩ := statement_inv h
    rw [hsame hfixed (s.statement_messages d stage)]
    simp [taken, posted]
  | handle L res w =>
    have hfixed := step_fixed h (by simp)
    obtain ⟨d, rest, -, -, hmoves⟩ := handle_moves h
    rw [hsame hfixed]
    · simp [taken, posted]
    · exact (s.takeActive_messages L rest).trans hmoves.messages
  | return_ L w =>
    have hfixed := step_fixed h (by simp)
    obtain ⟨d, rest, -, -, -, rfl⟩ := return_inv h
    rw [hsame hfixed (s.return_messages L d w rest)]
    simp [taken, posted]
  | act L a =>
    have hfixed := step_fixed h (by simp)
    obtain ⟨arg, -, -, -, -, rfl⟩ := act_inv h
    rw [inbox, hfixed.loop, act_messages, inbox]
    simp only [taken, List.nil_append]
    cases a <;> simp [posted]
  | foreign a =>
    have hfixed := step_fixed h (by simp)
    obtain ⟨-, rfl⟩ := Machine.guard_some.mp h
    rw [inbox, hfixed.loop, act_messages, inbox]
    simp only [taken, List.nil_append]
    cases a <;> simp [posted]
  | swap L =>
    have hfixed := step_fixed h (by simp)
    obtain ⟨⟨hready, -⟩, rfl⟩ := Machine.guard_some.mp h
    rw [hsame hfixed]
    · simp [taken, posted]
    · have hempty : (s.loops L).tempRuns = [] := (hs.formed.batch L).resolve_left (by rw [hready.2.2.1]; decide)
      exact s.setLoop_messages L fun _ => by simp [Loop.messages, hempty]
  | runFunctor L w =>
    have hfixed := step_fixed h (by simp)
    obtain ⟨q, rest, hruns, -, rfl⟩ := runFunctor_inv h
    rw [inbox, hfixed.loop, runFunctor_messages, inbox, takeFunctor_messages hruns (s.conn c).loop c]
    simp only [taken, posted, List.append_nil, hruns, List.head?_cons, Option.bind_some]
    congr 1
    by_cases hL : (s.conn c).loop = L
    · rw [if_pos hL]
    · -- A functor of `c` waits only for the loop of `c`.
      have hplaced := hs.placed.functors L q (Or.inl (hruns ▸ List.mem_cons_self))
      have hother : q.conn ≠ c := fun hq => hL (hq ▸ hplaced.2.symm)
      rw [if_neg hL, q.message_other hother]
      rfl
  | endBatch L =>
    have hfixed := step_fixed h (by simp)
    obtain ⟨-, rfl⟩ := Machine.guard_some.mp h
    rw [hsame hfixed]
    · simp [taken, posted]
    · exact s.setLoop_messages L fun _ => rfl

/-! ## Calls -/

inductive Way where
  /-- `send` on the thread of the connection's loop. -/
  | direct
  /-- A functor of the loop. -/
  | queued
  deriving DecidableEq, Repr

def Label.way : Label → Way
  | .runFunctor _ _ => .queued
  | _ => .direct

/-- What a step passes to `sendInLoop` of `c`, and how it got there. -/
def calls (s : Server) (c : ConnId) (l : Label) : List (Way × List Byte) :=
  match s.op c l with
  | some (.call (.sendInLoop message _)) => [(l.way, message)]
  | _ => []

def Way.of (way : Way) (calls : List (Way × List Byte)) : List (List Byte) :=
  (calls.filter (·.1 = way)).map Prod.snd

/-- A functor of a connection at the address of `c` is called behind the end of its connection. -/
def late (s : Server) (c : ConnId) : Obs → Bool
  | .functor d _ alive => s.address d == s.address c && !alive
  | _ => false

/-- No functor of a connection at the address of `c` has been called behind the end of its connection. -/
def Outlives (s : Server) (c : ConnId) : Prop := ∀ o ∈ s.trace, s.late c o = false

instance (s : Server) (c : ConnId) : Decidable (s.Outlives c) := List.decidableBAll _ s.trace

theorem Way.of_append (way : Way) (calls calls' : List (Way × List Byte)) :
    way.of (calls ++ calls') = way.of calls ++ way.of calls' := by
  simp [Way.of]

theorem Way.of_map (way way' : Way) (messages : List (List Byte)) :
    way.of (messages.map (way', ·)) = if way' = way then messages else [] := by
  by_cases hway : way' = way
  · rw [if_pos hway, Way.of, List.filter_eq_self.mpr (by simp [hway]), List.map_map]
    exact List.map_id messages
  · rw [if_neg hway, Way.of, List.filter_eq_nil_iff.mpr (by simp [hway]), List.map_nil]

theorem late_congr (h : u.address = s.address) (o : Obs) : u.late c o = s.late c o := by
  cases o <;> simp only [late, h]

theorem step_outlives (h : step s l = some u) (hu : u.Outlives c) : s.Outlives c := by
  obtain ⟨os, htrace, -⟩ := step_shows h
  intro o ho
  rw [← late_congr (step_address h)]
  exact hu o (htrace ▸ List.mem_append_left os ho)

theorem runFunctorOp_message {L : Nat} {w : WriteResult} {q : Queued} (hu : (s.runFunctor L w q).Outlives c)
    (haddress : (s.runFunctor L w q).address = s.address) :
    s.runFunctorOp c w q = (q.message c).map fun message => .call (.sendInLoop message w) := by
  cases q with
  | connectEstablished d => rfl
  | bound d f =>
    cases f with
    | onWriteComplateCB => rfl
    | onMessageCB message =>
      have hlate : s.late c (.functor d (.onMessageCB message) (s.alive d)) = false := by
        obtain ⟨os, htrace, -⟩ := s.bound_trace L w d (.onMessageCB message)
        rw [← late_congr haddress]
        exact hu _ (htrace ▸ List.mem_append_right _ List.mem_cons_self)
      have hpointee : s.pointee d = some c ↔ d = c := by
        cases halive : s.alive d with
        | true => rw [pointee_of_alive halive, Option.some.injEq]
        | false =>
          have hapart : s.address d ≠ s.address c := by simpa [late, halive] using hlate
          exact iff_of_false (fun h => hapart (pointee_address h).symm) fun h => hapart (congrArg s.address h)
      simp only [runFunctorOp, Queued.message, hpointee]
      by_cases hd : d = c <;> simp [hd]

theorem calls_none (h : ∀ message w, s.op c l ≠ some (.call (.sendInLoop message w))) : s.calls c l = [] := by
  unfold calls
  split
  · rename_i message w hop
    exact absurd hop (h message w)
  · rfl

theorem calls_eq (h : step s l = some u) (hu : u.Outlives c) :
    s.calls c l = (s.direct c l).map (Way.direct, ·) ++ (s.taken c l).map (Way.queued, ·) := by
  cases l with
  | poll L events =>
    refine calls_none fun message w hop => ?_
    simp only [op, Option.map_eq_some_iff] at hop
    obtain ⟨p, -, hp⟩ := hop
    cases hp
  | accept fd =>
    refine calls_none fun message w hop => ?_
    simp only [op] at hop
    split at hop <;> cases hop
  | statement =>
    refine calls_none fun message w hop => ?_
    obtain ⟨d, stage, hframe, -, -⟩ := statement_inv h
    simp only [op, hframe] at hop
    split at hop
    · rcases statementOp_some hop with he | he | he <;> cases he
    · cases hop
  | handle L res w =>
    refine calls_none fun message w' hop => ?_
    obtain ⟨d, rest, hactive, -, -⟩ := handle_inv h
    simp only [op, hactive] at hop
    split at hop
    · subst d
      rcases handleEventOp_some hop with he | he | ⟨he, -⟩ <;> cases he
    · cases hop
  | return_ L w =>
    refine calls_none fun message w' hop => ?_
    obtain ⟨d, rest, hframe, -, -, -⟩ := return_inv h
    simp only [op, hframe] at hop
    split at hop
    · cases returnOp_some hop
    · cases hop
  | act L a =>
    cases a with
    | send d message w =>
      simp only [calls, op, Act.conn, actOp, direct, taken, List.map_nil, List.append_nil, Option.some.injEq]
      by_cases hd : d = c
      · subst hd
        by_cases hL : L = (s.conn d).loop <;> simp [hL, Label.way]
      · simp [hd]
    | keep d => simp [calls, op, actOp, direct, taken]
    | drop d => simp [calls, op, actOp, direct, taken]
  | runFunctor L w =>
    have haddress := step_address h
    obtain ⟨q, rest, hruns, -, rfl⟩ := runFunctor_inv h
    simp only [calls, op, hruns, direct, taken, List.map_nil, List.nil_append, List.head?_cons, Option.bind_some]
    rw [runFunctorOp_message hu haddress]
    cases q.message c <;> rfl
  | foreign a => rfl
  | swap L => rfl
  | endBatch L => rfl

theorem taken_known (hs : s.Placed) (hc : ¬ c < s.size) (l : Label) : s.taken c l = [] := by
  cases l with
  | runFunctor L w =>
    simp only [taken]
    cases hruns : (s.loops L).tempRuns with
    | nil => rfl
    | cons q rest =>
      have hnone := takeFunctor_messages hruns L c
      rw [unknown_messages hs hc, if_pos rfl, eq_comm, List.append_eq_nil_iff] at hnone
      exact hnone.1
  | _ => rfl

theorem direct_known (hs : s.Rooted) (h : step s l = some u) (hc : ¬ c < s.size) : s.direct c l = [] := by
  cases l with
  | act L a =>
    cases a with
    | send d message w =>
      obtain ⟨arg, hcode, -, hL, hmay, -⟩ := act_inv h
      refine if_neg ?_
      rintro ⟨rfl, -⟩
      exact hc (hs.known d (mayAct_alive hL hcode hmay.1))
    | keep d => rfl
    | drop d => rfl
  | _ => rfl

theorem calls_known (hs : s.Rooted) (h : step s l = some u) (hu : u.Outlives c) (hc : ¬ c < s.size) :
    s.calls c l = [] := by
  rw [calls_eq h hu, direct_known hs h hc, taken_known hs.placed hc]
  rfl

theorem step_size (h : step s l = some u) : s.size ≤ u.size := by
  by_cases hl : ∃ fd, l = .accept fd
  · obtain ⟨fd, rfl⟩ := hl
    obtain ⟨rest, -, -, -, rfl⟩ := accept_inv h
    rw [accept_size]
    exact Nat.le_succ s.size
  · exact (step_fixed h fun fd hfd => hl ⟨fd, hfd⟩).size.ge

/-! ## Runs -/

theorem apply_sent {k : Link} (hnew : ¬ c < s.size → k.sent = []) :
    ((s.op c l).elim k k.apply).sent = k.sent ++ ((s.calls c l).map Prod.snd).flatten := by
  unfold calls
  cases hop : s.op c l with
  | none => simp
  | some op =>
    cases op with
    | create fd =>
      -- Nothing was sent before.
      rw [hnew ((op_create hop).2 ▸ lt_irrefl s.size)]
      simp [Link.apply]
    | call e => cases e <;> simp [Link.apply, Link.next, Link.after]
    | _ => simp [Link.apply]

theorem run_outlives {ls : List Label} (hrun : Machine.run step s ls = some u) (hu : u.Outlives c) : s.Outlives c := by
  induction ls generalizing s with
  | nil =>
    rw [Machine.run_nil, Option.some.injEq] at hrun
    exact hrun ▸ hu
  | cons l ls ih =>
    obtain ⟨t, ht, hrest⟩ := Machine.run_cons_some.mp hrun
    exact step_outlives ht (ih hrest)

theorem run_calls {ls : List Label} (hrun : Machine.run step s ls = some u) (hu : u.Outlives c) :
    Way.direct.of (Machine.outputs step (fun s l => s.calls c l) s ls) =
      Machine.outputs step (fun s l => s.direct c l) s ls ∧
    Way.queued.of (Machine.outputs step (fun s l => s.calls c l) s ls) =
      Machine.outputs step (fun s l => s.taken c l) s ls := by
  induction ls generalizing s with
  | nil => exact ⟨rfl, rfl⟩
  | cons l ls ih =>
    obtain ⟨t, ht, hrest⟩ := Machine.run_cons_some.mp hrun
    obtain ⟨hdirect, hqueued⟩ := ih hrest
    have hcalls := calls_eq ht (run_outlives hrest hu)
    simp only [Machine.outputs_cons ht, Way.of_append, hdirect, hqueued, hcalls, Way.of_map]
    simp

theorem run_sent {ls : List Label} {k : Link} (hs : s.Rooted) (hnew : ¬ c < s.size → k.sent = [])
    (hrun : Machine.run step s ls = some u) (hu : u.Outlives c) :
    ∃ k', Machine.run (follow c) (s, k) ls = some (u, k') ∧
      k'.sent = k.sent ++ ((Machine.outputs step (fun s l => s.calls c l) s ls).map Prod.snd).flatten := by
  induction ls generalizing s k with
  | nil =>
    rw [Machine.run_nil, Option.some.injEq] at hrun
    exact ⟨k, by rw [Machine.run_nil, hrun], (List.append_nil _).symm⟩
  | cons l ls ih =>
    obtain ⟨t, ht, hrest⟩ := Machine.run_cons_some.mp hrun
    have hsent := apply_sent (l := l) hnew
    have hnew' : ¬ c < t.size → ((s.op c l).elim k k.apply).sent = [] := by
      intro hc
      have hc' : ¬ c < s.size := fun hlt => hc (lt_of_lt_of_le hlt (step_size ht))
      rw [hsent, hnew hc', calls_known hs ht (run_outlives hrest hu) hc']
      rfl
    obtain ⟨k', hfollow, hk'⟩ := ih (step_rooted hs ht) hnew' hrest
    refine ⟨k', Machine.run_cons_some.mpr ⟨_, Machine.recorded_some ht k, hfollow⟩, ?_⟩
    rw [hk', hsent, Machine.outputs_cons ht, List.map_append, List.flatten_append, List.append_assoc]

/-- What a server sends on a connection. `sendInLoop` gets each message that is passed to `send` once: what the thread
of the connection's loop sends in its order, and what other threads send in theirs, as far as it has left the queue of
the loop. The stream is these messages. -/
theorem sends_in_order (n : Nat) (user : Bool) (listenfd : Int) (address : ConnId → TcpConnection.Addr) (c : ConnId)
    (labels : List Label) (s : Server)
    (hrun : Machine.run step (init n user listenfd address) labels = some s) (houtlives : s.Outlives c) :
    let calls := Machine.outputs step (fun s l => s.calls c l) (init n user listenfd address) labels
    Way.direct.of calls = Machine.outputs step (fun s l => s.direct c l) (init n user listenfd address) labels ∧
    Way.queued.of calls ++ s.inbox c =
      Machine.outputs step (fun s l => s.posted c l) (init n user listenfd address) labels ∧
    ∃ k, Machine.run (follow c) (opening n user listenfd address c) labels = some (s, k) ∧
      k.sent = (calls.map Prod.snd).flatten := by
  obtain ⟨hdirect, hqueued⟩ := run_calls hrun houtlives
  have hroot := init_rooted n user listenfd address
  refine ⟨hdirect, ?_, ?_⟩
  · rw [hqueued]
    exact Machine.outputs_queue (fun _ _ _ => step_rooted) (fun _ _ _ => step_inbox) hroot hrun
  · exact run_sent hroot (fun _ => rfl) hrun houtlives

theorem sends_in_order_sending : ∃ s, Machine.run step (init 1 true 3 id) sending = some s ∧
    Machine.outputs step (fun s l => s.posted 0 l) (init 1 true 3 id) sending = [[4]] ∧
    Way.queued.of (Machine.outputs step (fun s l => s.calls 0 l) (init 1 true 3 id) sending) ++ s.inbox 0 = [[4]] := by
  have hlives : (Machine.run step (init 1 true 3 id) sending).map (fun s => decide (s.Outlives 0)) = some true := by
    decide +kernel
  obtain ⟨s, hrun, houtlives⟩ := Option.map_eq_some_iff.mp hlives
  obtain ⟨-, hposted, -⟩ := sends_in_order 1 true 3 id 0 sending s hrun (of_decide_eq_true houtlives)
  have hfour : Machine.outputs step (fun s l => s.posted 0 l) (init 1 true 3 id) sending = [[4]] := by decide +kernel
  exact ⟨s, hrun, hfour, hposted.trans hfour⟩

end

end Server

end Muduo
