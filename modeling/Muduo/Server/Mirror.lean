import Muduo.Server.Dispatch

/-! # The table and the open connections

What `accept` opened and `handleClose` has not closed is what `_connections` holds between two events.
-/

namespace Muduo.Server

/-- An accept that succeeds opens a connection under its descriptor, and `handleClose` closes one. -/
def Obs.record (table : Int → Option ConnId) : Obs → Int → Option ConnId
  | .accepted fd c => if 0 ≤ fd then Function.update table fd (some c) else table
  | .handler c .handleClose _ => fun fd => if table fd = some c then none else table fd
  | _ => table

def openConnections (trace : List Obs) : Int → Option ConnId := trace.foldl Obs.record fun _ => none

/-- The connection of an accept that succeeds. -/
def Obs.opens : Obs → Option ConnId
  | .accepted fd c => if 0 ≤ fd then some c else none
  | _ => none

/-- The connection of any accept. -/
def Obs.makes : Obs → Option ConnId
  | .accepted _ c => some c
  | _ => none

def Obs.announces : Obs → Option ConnId
  | .callback c .onConnection => some c
  | _ => none

/-- Between two events the table holds the open connections under their descriptors, and `onConnection` has
been called once for each accept that succeeded. -/
def Mirrors (s : Server) : Prop :=
  (s.loops 0).frame = .idle →
    s.connections = openConnections s.trace ∧ (∀ fd c, s.connections fd = some c → s.fd c = fd) ∧
      s.trace.filterMap Obs.announces = s.trace.filterMap Obs.opens

def AcceptSucceeds (_ : Server) : Label → Prop
  | .accept fd => 0 ≤ fd
  | _ => True

instance (s : Server) : (l : Label) → Decidable (s.AcceptSucceeds l)
  | .accept fd => inferInstanceAs (Decidable (0 ≤ fd))
  | .poll _ _ | .statement | .handle _ _ _ | .return_ _ _ | .act _ _ | .foreign _ | .swap _ | .runFunctor _ _
  | .endBatch _ => .isTrue trivial

def Succeeded (s : Server) : Prop := ∀ fd c, .accepted fd c ∈ s.trace → 0 ≤ fd

/-! ## Records -/

/-- Opens nothing, closes nothing, announces nothing. -/
structure Obs.Neutral (o : Obs) : Prop where
  record : ∀ table, Obs.record table o = table
  makes : o.makes = none
  announces : o.announces = none

def Frame.entering : Frame → List ConnId
  | .newConnection c _ => [c]
  | _ => []

def Stage.inserted : Stage → Bool
  | .enableReading | .sharedPtr | .insert => false
  | .setUser | .setUpLayerCloseCallback | .runInLoop => true

/-- The table when the base loop has finished what it is at. -/
def expected (s : Server) : Int → Option ConnId :=
  match (s.loops 0).frame with
  | .newConnection c stage =>
    if stage.inserted then s.connections else Function.update s.connections (s.fd c) (some c)
  | .user c (.closed _) => Function.update s.connections (s.fd c) none
  | _ => s.connections

structure Recorded (s : Server) : Prop where
  user : s.user = true
  calls : s.trace.filterMap Obs.announces ++ (s.loops 0).frame.entering = s.trace.filterMap Obs.makes
  table : s.Succeeded → openConnections s.trace = s.expected

theorem openConnections_snoc (trace : List Obs) (os : List Obs) :
    openConnections (trace ++ os) = os.foldl Obs.record (openConnections trace) := List.foldl_append

theorem neutral_record {os : List Obs} (hos : ∀ o ∈ os, o.Neutral) (table : Int → Option ConnId) :
    os.foldl Obs.record table = table := by
  induction os with
  | nil => rfl
  | cons o os ih =>
    rw [List.foldl_cons, (hos o List.mem_cons_self).record]
    exact ih fun p hp => hos p (List.mem_cons_of_mem o hp)

theorem neutral_filterMap {os : List Obs} {f : Obs → Option ConnId} (hos : ∀ o ∈ os, f o = none) :
    os.filterMap f = [] := List.filterMap_eq_nil_iff.mpr hos

theorem Succeeded.before {s u : Server} {os : List Obs} (h : u.Succeeded) (htrace : u.trace = s.trace ++ os) :
    s.Succeeded := fun fd c hc => h fd c (by rw [htrace]; exact List.mem_append_left os hc)

theorem Recorded.neutral {s u : Server} (hs : s.Recorded) {os : List Obs} (htrace : u.trace = s.trace ++ os)
    (hos : ∀ o ∈ os, o.Neutral) (huser : u.user = s.user)
    (hentering : (u.loops 0).frame.entering = (s.loops 0).frame.entering) (hexpected : u.expected = s.expected) :
    u.Recorded where
  user := huser.trans hs.user
  calls := by
    rw [htrace, List.filterMap_append, List.filterMap_append, neutral_filterMap fun o ho => (hos o ho).announces,
      neutral_filterMap fun o ho => (hos o ho).makes, hentering, List.append_nil, List.append_nil]
    exact hs.calls
  table := fun hok => by
    rw [htrace, openConnections_snoc, neutral_record hos, hexpected]
    exact hs.table (hok.before htrace)

theorem Recorded.silent {s u : Server} (hs : s.Recorded) (htrace : u.trace = s.trace) (huser : u.user = s.user)
    (hentering : (u.loops 0).frame.entering = (s.loops 0).frame.entering) (hexpected : u.expected = s.expected) :
    u.Recorded := by
  have hnone : u.trace = s.trace ++ [] := by rw [htrace, List.append_nil]
  exact hs.neutral hnone (by simp) huser hentering hexpected

theorem expected_congr {s u : Server} (hframe : (u.loops 0).frame = (s.loops 0).frame)
    (hconn : u.connections = s.connections) (hfd : ∀ c, u.fd c = s.fd c) : u.expected = s.expected := by
  unfold expected
  rw [hframe, hconn]
  split
  · rw [hfd]
  · rw [hfd]
  · rfl

/-- The loop is not in the middle of a change of the table. -/
def Frame.Plain : Frame → Prop
  | .idle | .user _ .connected | .user _ .established | .user _ .completed | .user _ .read => True
  | .newConnection _ _ | .user _ (.closed _) => False

theorem expected_plain {s : Server} (h : (s.loops 0).frame.Plain) :
    s.expected = s.connections ∧ (s.loops 0).frame.entering = [] := by
  unfold expected
  generalize (s.loops 0).frame = frame at h ⊢
  cases frame with
  | idle => exact ⟨rfl, rfl⟩
  | newConnection c stage => exact h.elim
  | user c rest =>
    cases rest with
    | connected | established | completed | read => exact ⟨rfl, rfl⟩
    | closed called => exact h.elim

theorem expected_closing {s : Server} {c : ConnId} {called : Bool}
    (h : (s.loops 0).frame = .user c (.closed called)) :
    s.expected = Function.update s.connections (s.fd c) none := by
  unfold expected
  rw [h]

theorem expected_entering {s : Server} {c : ConnId} {stage : Stage} (h : (s.loops 0).frame = .newConnection c stage) :
    s.expected = (if stage.inserted then s.connections else Function.update s.connections (s.fd c) (some c)) ∧
      (s.loops 0).frame.entering = [c] := by
  unfold expected
  rw [h]
  exact ⟨rfl, rfl⟩

theorem Recorded.plain {s u : Server} (hs : s.Recorded) {os : List Obs} (htrace : u.trace = s.trace ++ os)
    (hos : ∀ o ∈ os, o.Neutral) (huser : u.user = s.user) (hconn : u.connections = s.connections)
    (hbefore : (s.loops 0).frame.Plain) (hafter : (u.loops 0).frame.Plain) : u.Recorded := by
  refine hs.neutral htrace hos huser ?_ ?_
  · rw [(expected_plain hafter).2, (expected_plain hbefore).2]
  · rw [(expected_plain hafter).1, (expected_plain hbefore).1, hconn]

theorem neutral_consulted (c : ConnId) (alive : Bool) : (Obs.consulted c alive).Neutral := ⟨fun _ => rfl, rfl, rfl⟩

theorem neutral_functor (c : ConnId) (f : Functor) (alive : Bool) : (Obs.functor c f alive).Neutral :=
  ⟨fun _ => rfl, rfl, rfl⟩

theorem neutral_handler (c : ConnId) {h : Handler} (ready : Bool) (hh : h ≠ .handleClose) :
    (Obs.handler c h ready).Neutral := by
  cases h with
  | handleRead => exact ⟨fun _ => rfl, rfl, rfl⟩
  | handleWrite => exact ⟨fun _ => rfl, rfl, rfl⟩
  | handleClose => exact absurd rfl hh

theorem neutral_callback (c : ConnId) {cb : Callback} (hcb : cb ≠ .onConnection) : (Obs.callback c cb).Neutral := by
  refine ⟨fun _ => rfl, rfl, ?_⟩
  cases cb with
  | onConnection => exact absurd rfl hcb
  | onMessage => rfl
  | onClose => rfl
  | onWriteComplate => rfl

/-! ## Handlers -/

theorem Recorded.close {s : Server} (hr : s.Recorded) (hs : s.Table) {c : ConnId} (hopen : s.Open c)
    (hidle : (s.loops 0).frame = .idle) : (s.handleClose 0 c).Recorded := by
  obtain ⟨hshared, huser, -⟩ := hs.made c hopen (idle_not_entering hidle c)
  have hplain : (s.loops 0).frame.Plain := by rw [hidle]; trivial
  have htrace : (s.handleClose 0 c).trace =
      s.trace ++ [.handler c .handleClose (s.ready c), .callback c .onClose] := by
    rw [handleClose_trace, hshared, huser hr.user]
    rfl
  have hcalled : (s.handleClose 0 c) = ((s.disableChannel c).setFrame 0 (.user c (.closed true))).observe
      (.callback c .onClose) := by rw [handleClose_eq, if_pos hshared, if_pos (huser hr.user)]
  have hfd : (s.handleClose 0 c).fd c = s.fd c := by
    rw [hcalled]
    exact (s.disableChannel_stable c).fd c
  have hframe : ((s.handleClose 0 c).loops 0).frame = .user c (.closed true) := by
    rw [hcalled]
    exact setFrame_frame _ 0 _
  have htable : (s.handleClose 0 c).connections = s.connections := by
    rw [hcalled]
    rfl
  refine ⟨?_, ?_, fun hok => ?_⟩
  · rw [hcalled]
    exact hr.user
  · rw [htrace, hframe]
    have hcalls := hr.calls
    rw [(expected_plain hplain).2, List.append_nil] at hcalls
    rw [List.filterMap_append, List.filterMap_append, List.append_assoc]
    exact congrArg (· ++ []) hcalls
  · have hbefore := hr.table (hok.before htrace)
    rw [(expected_plain hplain).1] at hbefore
    rw [htrace, openConnections_snoc, hbefore, expected_closing hframe, hfd, htable]
    funext fd
    change (if s.connections fd = some c then none else s.connections fd) =
      Function.update s.connections (s.fd c) none fd
    by_cases h : fd = s.fd c
    · rw [h, Function.update_self]
      exact if_pos hopen
    · rw [Function.update_of_ne h, if_neg fun hentry => h (hs.key fd c hentry).symm]

theorem Recorded.move {c : ConnId} {t v : Server} (hr : t.Recorded) (hs : t.Table) (ht : t.Taken c)
    (hmove : Move 0 c t v) : v.Recorded := by
  have hsame : ∀ {os : List Obs}, v.trace = t.trace ++ os → (∀ o ∈ os, o.Neutral) →
      (v.loops 0).frame = (t.loops 0).frame → v.Recorded := by
    intro os htrace hos hframe
    have hmild := hmove.mild fun _ => ht.size
    exact hr.neutral htrace hos hmild.user (by rw [hframe]) (expected_congr hframe hmild.connections hmild.fd)
  cases hmove with
  | consult => exact hsame rfl (by simpa using neutral_consulted c _) rfl
  | read => exact hsame rfl (by simpa using neutral_handler c _ (by simp)) rfl
  | onMessage halive hidle hread =>
    rename_i res tcp
    have hmild := (Move.onMessage halive hidle hread).mild fun _ => ht.size
    refine hr.plain (onMessage_trace _ 0 c) (fun o ho => ?_) hmild.user hmild.connections (by rw [hidle]; trivial) ?_
    · split at ho <;> simp at ho
      rw [ho]
      exact neutral_callback c (by simp)
    · rw [onMessage_eq]
      split
      · rw [show
            ((((t.setTcp c tcp).setFrame 0 (.user c .read)).observe (.callback c .onMessage)).loops 0).frame = _ from
          setFrame_frame _ 0 _]
        trivial
      · rw [show (({ t.setTcp c tcp with crashed := true } : Server).loops 0).frame = .idle from hidle]
        trivial
  | close halive hidle => exact hr.close hs ht.opened hidle
  | write halive =>
    exact hsame (called_quiet _ c _).trace (by simpa using neutral_handler c _ (by simp)) (called_frame _ c _ 0)

/-! ## Steps -/

theorem Recorded.accept {s : Server} (hr : s.Recorded) (hidle : (s.loops 0).frame = .idle) (fd : Int) :
    (s.accept fd).Recorded := by
  have hplain : (s.loops 0).frame.Plain := by rw [hidle]; trivial
  have htrace := s.accept_trace fd
  have hframe : ((s.accept fd).loops 0).frame = .newConnection s.size .enableReading := by simp
  have hfd : (s.accept fd).fd s.size = fd := by simp [Server.fd, TcpConnection.init]
  refine ⟨(s.accept_user fd).trans hr.user, ?_, fun hok => ?_⟩
  · have hcalls := hr.calls
    rw [(expected_plain hplain).2, List.append_nil] at hcalls
    rw [htrace, hframe, List.filterMap_append, List.filterMap_append, hcalls, List.append_assoc]
    rfl
  · have hpos : 0 ≤ fd := hok fd s.size (by rw [htrace]; simp)
    have hbefore := hr.table (hok.before htrace)
    rw [(expected_plain hplain).1] at hbefore
    rw [htrace, openConnections_snoc, hbefore, (expected_entering hframe).1, hfd, accept_connections]
    simp [Obs.record, hpos, Stage.inserted]

theorem Recorded.next {s u : Server} (hr : s.Recorded) {c : ConnId} {stage next : Stage}
    (hbefore : (s.loops 0).frame = .newConnection c stage) (hafter : (u.loops 0).frame = .newConnection c next)
    (hstage : stage.inserted = next.inserted) (hstable : Stable s u) (htable : u.connections = s.connections)
    (htrace : u.trace = s.trace) : u.Recorded := by
  refine hr.silent htrace hstable.user ?_ ?_
  · rw [hbefore, hafter]
    rfl
  · rw [(expected_entering hbefore).1, (expected_entering hafter).1, hstage, htable, hstable.fd]

theorem Recorded.statement {s : Server} (hr : s.Recorded) (hs : s.Table) {c : ConnId} {stage : Stage}
    (hframe : (s.loops 0).frame = .newConnection c stage) : (s.statement c stage).Recorded := by
  have hstable := s.statement_stable c stage
  have htrace := s.statement_trace c stage
  have hreached := hs.entering c stage hframe
  cases stage with
  | enableReading | sharedPtr | setUpLayerCloseCallback =>
    exact hr.next hframe (setFrame_frame _ 0 _) rfl hstable rfl (by simpa using htrace)
  | setUser =>
    simp only [Server.statement] at hstable htrace ⊢
    refine hr.next hframe (setFrame_frame _ 0 _) rfl hstable ?_ (by simpa using htrace)
    split <;> rfl
  | insert =>
    have hafter : ((s.statement c .insert).loops 0).frame = .newConnection c .setUser := setFrame_frame _ 0 _
    refine hr.silent (by simpa using htrace) hstable.user ?_ ?_
    · rw [hframe, hafter]
      rfl
    · rw [(expected_entering hframe).1, (expected_entering hafter).1]
      rfl
  | runInLoop =>
    obtain ⟨-, -, huser, -⟩ := hreached
    have hcalled : s.statement c .runInLoop =
        (s.setFrame 0 (.user c .connected)).observe (.callback c .onConnection) := by
      simp only [Server.statement, hs.loop, if_true, connectEstablished, huser hr.user]
    have hafter : ((s.statement c .runInLoop).loops 0).frame = .user c .connected := by
      rw [hcalled]
      exact setFrame_frame _ 0 _
    have hplain : ((s.statement c .runInLoop).loops 0).frame.Plain := by rw [hafter]; trivial
    have htrace : (s.statement c .runInLoop).trace = s.trace ++ [.callback c .onConnection] := by rw [hcalled]; rfl
    refine ⟨hstable.user.trans hr.user, ?_, fun hok => ?_⟩
    · rw [htrace, (expected_plain hplain).2, List.filterMap_append, List.filterMap_append, ← hr.calls,
        (expected_entering hframe).2]
      simp [Obs.announces, Obs.makes]
    · rw [htrace, openConnections_snoc, hr.table (hok.before htrace), (expected_entering hframe).1,
        (expected_plain hplain).1, hcalled]
      rfl

theorem Recorded.return_ {s : Server} (hr : s.Recorded) (hs : s.Table) {c : ConnId} {rest : Rest}
    (hframe : (s.loops 0).frame = .user c rest) (w : WriteResult) : (s.return_ 0 c w rest).Recorded := by
  have hneutral : ∀ t : Server, ∃ os, (t.testOut c w).trace = t.trace ++ os ∧ ∀ o ∈ os, o.Neutral := by
    intro t
    refine ⟨_, t.testOut_trace c w, fun o ho => ?_⟩
    rcases List.mem_cons.mp ho with rfl | ho
    · exact neutral_consulted c _
    · split at ho <;> simp at ho
      rw [ho]
      exact neutral_handler c _ (by simp)
  have hafter : ∀ t : Server, (((t.setFrame 0 .idle).testOut c w).loops 0).frame.Plain := by
    intro t
    rw [testOut_frame, setFrame_frame]
    trivial
  have htest : ∀ t : Server, (t.testOut c w).connections = t.connections := by
    intro t
    rw [testOut_eq]
    split
    · exact (called_quiet _ c _).connections
    · rfl
  have huser := (s.return_stable 0 c w rest).user
  cases rest with
  | connected | established | completed =>
    have htrace : (s.setFrame 0 .idle).trace = s.trace ++ [] := (List.append_nil _).symm
    exact hr.plain htrace (by simp) huser rfl (by rw [hframe]; trivial)
      (by simp [Server.return_, Frame.Plain])
  | read =>
    obtain ⟨os, htrace, hos⟩ := hneutral (s.setFrame 0 .idle)
    exact hr.plain htrace hos huser (htest _) (by rw [hframe]; trivial) (hafter s)
  | closed called =>
    obtain ⟨hopen, -, -⟩ := hs.handling c _ hframe
    have hcallback := (hs.made c hopen (not_entering (fun d stage => by simp [hframe]) c)).2.2
    simp only [Server.return_, hcallback, if_true] at huser ⊢
    obtain ⟨os, htrace, hos⟩ := hneutral ((s.removeConnection c).setFrame 0 .idle)
    refine hr.neutral htrace hos huser ?_ ?_
    · rw [(expected_plain (hafter _)).2, hframe]
      rfl
    · rw [(expected_plain (hafter _)).1, expected_closing hframe, htest]
      rfl

theorem init_recorded (listenfd : Int) (address : ConnId → TcpConnection.Addr) :
    (init 0 true listenfd address).Recorded where
  user := rfl
  calls := rfl
  table := fun _ => rfl

theorem Recorded.idle {s u : Server} (hr : s.Recorded) (htrace : u.trace = s.trace) (huser : u.user = s.user)
    (hconn : u.connections = s.connections) (hbefore : (s.loops 0).frame = .idle)
    (hafter : (u.loops 0).frame = .idle) :
    u.Recorded := by
  have hnone : u.trace = s.trace ++ [] := by rw [htrace, List.append_nil]
  exact hr.plain hnone (by simp) huser hconn (by rw [hbefore]; trivial) (by rw [hafter]; trivial)

theorem step_recorded {s u : Server} {l : Label} (hs : s.Lone) (hr : s.Recorded) (h : step s l = some u) :
    u.Recorded := by
  have hact : ∀ thread a, (∀ c message w, a = .send c message w → c < s.size) → (s.act thread a).Recorded := by
    intro thread a hsize
    have hmild := act_mild thread hsize
    exact hr.silent (act_trace s thread a) hmild.user (by rw [act_frame])
      (expected_congr (s.act_frame thread a 0) hmild.connections hmild.fd)
  cases l with
  | poll L events =>
    obtain ⟨⟨hready, -⟩, rfl⟩ := Machine.guard_some.mp h
    obtain rfl := hs.table.zero hready.2.1
    refine hr.idle (s.setRevents_trace events) (s.setRevents_mild events).user (s.setRevents_mild events).connections
      hready.2.2.2 ?_
    simpa [setLoop] using hready.2.2.2
  | accept fd =>
    obtain ⟨rest, -, hready, -, rfl⟩ := accept_inv h
    have hidle : ((s.takeActive 0 rest).loops 0).frame = .idle := by simpa using hready.2.2.2
    exact (hr.idle (u := s.setLoop 0 _) rfl rfl rfl hready.2.2.2 hidle).accept hidle fd
  | statement =>
    obtain ⟨c, stage, hframe, -, rfl⟩ := statement_inv h
    exact hr.statement hs.table hframe
  | handle L res w =>
    obtain ⟨c, rest, hactive, hready, hmoves⟩ := handle_moves h
    obtain rfl := hs.table.zero hready.2.1
    obtain ⟨hset, htaken⟩ := hs.table.take hs.known hactive hready.2.2.2
    have hidle : ((s.takeActive 0 rest).loops 0).frame = .idle := by simpa using hready.2.2.2
    have hpop : (s.takeActive 0 rest).Recorded := hr.idle rfl rfl rfl hready.2.2.2 hidle
    exact (hset.moves htaken hmoves hpop fun t v ht htaken hr hmove => hr.move ht htaken hmove).2
  | return_ L w =>
    obtain ⟨c, rest, hframe, -, hL, rfl⟩ := return_inv h
    obtain rfl := hs.table.zero hL
    exact hr.return_ hs.table hframe w
  | act L a =>
    obtain ⟨arg, hcode, -, hL, hmay, rfl⟩ := act_inv h
    refine hact _ a fun c message w ha => ?_
    subst ha
    exact hs.known c (mayAct_alive hL hcode hmay.1)
  | foreign a =>
    obtain ⟨⟨-, hmay⟩, rfl⟩ := Machine.guard_some.mp h
    refine hact _ a fun c message w ha => ?_
    subst ha
    exact hs.known c (kept_alive hmay.1)
  | swap L =>
    obtain ⟨⟨hready, -⟩, rfl⟩ := Machine.guard_some.mp h
    obtain rfl := hs.table.zero hready.2.1
    exact hr.idle rfl rfl rfl hready.2.2.2 (by simpa [setLoop] using hready.2.2.2)
  | runFunctor L w =>
    obtain ⟨f, rest, hruns, hready, rfl⟩ := runFunctor_inv h
    obtain rfl := hs.table.zero hready.2.1
    cases f with
    | connectEstablished c => exact absurd (by rw [hruns]; exact List.mem_cons_self) (hs.table.direct c).2.1
    | bound c f =>
      have hidle : ((s.takeFunctor 0 (.bound c f) rest).loops 0).frame = .idle := by simpa using hready.2.2.2
      have hmild := bound_mild (L := 0) (w := w) (c := c) (f := f) (takeFunctor_known hs.known hruns)
      obtain ⟨os, htrace, hos⟩ := bound_trace (s.takeFunctor 0 (.bound c f) rest) 0 w c f
      refine hr.plain htrace (fun o ho => ?_) hmild.user hmild.connections (by rw [hready.2.2.2]; trivial) ?_
      · rcases List.mem_cons.mp ho with rfl | ho
        · exact neutral_functor c f _
        · rcases hos with rfl | ⟨d, -, -, rfl⟩
          · cases ho
          · rw [List.mem_singleton.mp ho]
            exact neutral_callback d (by simp)
      · rcases bound_frame (s.takeFunctor 0 (.bound c f) rest) 0 w c f with hsame | ⟨d, -, hcalls⟩
        · rw [hsame, hidle]
          trivial
        · rw [hcalls]
          trivial
  | endBatch L =>
    obtain ⟨⟨hready, -⟩, rfl⟩ := Machine.guard_some.mp h
    obtain rfl := hs.table.zero hready.2.1
    exact hr.idle rfl rfl rfl hready.2.2.2 (by simpa [setLoop] using hready.2.2.2)

/-! ## Runs -/

theorem opens_all {trace : List Obs}
    (h : trace.filterMap Obs.makes = trace.filterMap Obs.opens) {fd : Int} {c : ConnId}
    (hmem : .accepted fd c ∈ trace) : 0 ≤ fd := by
  have hle : ∀ os : List Obs, (os.filterMap Obs.opens).length ≤ (os.filterMap Obs.makes).length := by
    intro os
    induction os with
    | nil => simp
    | cons o os ih =>
      cases o with
      | accepted fd c =>
        by_cases hfd : 0 ≤ fd
        · simpa [Obs.opens, Obs.makes, hfd] using ih
        · simp only [Obs.opens, Obs.makes, hfd, List.filterMap_cons, if_false, List.length_cons]
          omega
      | consulted | handler | callback | functor => exact ih
  induction trace with
  | nil => simp at hmem
  | cons o trace ih =>
    cases o with
    | accepted fd' c' =>
      by_cases hfd : 0 ≤ fd'
      · simp only [Obs.opens, Obs.makes, hfd, List.filterMap_cons, if_true, List.cons.injEq, true_and] at h
        rcases List.mem_cons.mp hmem with heq | hmem
        · cases heq
          exact hfd
        · exact ih h hmem
      · simp only [Obs.opens, Obs.makes, hfd, List.filterMap_cons, if_false] at h
        have hlen := hle trace
        rw [← h, List.length_cons] at hlen
        omega
    | consulted | handler | callback | functor =>
      simp only [Obs.opens, Obs.makes, List.filterMap_cons] at h
      exact ih h (by simpa using hmem)

theorem Succeeded.opens {s : Server} (h : s.Succeeded) :
    s.trace.filterMap Obs.makes = s.trace.filterMap Obs.opens := by
  refine List.filterMap_congr fun o ho => ?_
  cases o with
  | accepted fd c => simp [Obs.makes, Obs.opens, h fd c ho]
  | consulted | handler | callback | functor => rfl

theorem mirrors_iff {s : Server} (hs : s.Lone) (hr : s.Recorded) (hidle : (s.loops 0).frame = .idle) :
    s.Mirrors ↔ s.Succeeded := by
  have hplain : (s.loops 0).frame.Plain := by rw [hidle]; trivial
  have hcalls := hr.calls
  rw [(expected_plain hplain).2, List.append_nil] at hcalls
  constructor
  · intro h fd c hmem
    exact opens_all (hcalls.symm.trans (h hidle).2.2) hmem
  · intro h _
    refine ⟨?_, hs.table.key, hcalls.trans h.opens⟩
    rw [hr.table h, (expected_plain hplain).1]

theorem step_succeeded {s u : Server} {l : Label} (hs : s.Succeeded) (h : step s l = some u) :
    u.Succeeded ↔ s.AcceptSucceeds l := by
  cases l with
  | accept fd =>
    obtain ⟨rest, -, -, -, rfl⟩ := accept_inv h
    have hnew : ((s.takeActive 0 rest).accept fd).trace = s.trace ++ [.accepted fd s.size] :=
      accept_trace _ fd
    constructor
    · intro hu
      exact hu fd s.size (by rw [hnew]; simp)
    · intro hfd fd' c hmem
      rw [hnew, List.mem_append, List.mem_singleton] at hmem
      rcases hmem with hmem | heq
      · exact hs fd' c hmem
      · cases heq
        exact hfd
  | poll | statement | handle | return_ | act | foreign | swap | runFunctor | endBatch =>
    exact iff_of_true (fun fd c hmem => hs fd c (step_mem h (by simp [Obs.By]) hmem)) trivial

theorem run_lone_recorded {listenfd : Int} {address : ConnId → TcpConnection.Addr} {labels : List Label} {s : Server}
    (hrun : Machine.run step (init 0 true listenfd address) labels = some s) : s.Lone ∧ s.Recorded :=
  Machine.run_invariant (I := fun t => t.Lone ∧ t.Recorded)
    (fun _ _ _ ht hstep => ⟨step_lone ht.1 hstep, step_recorded ht.1 ht.2 hstep⟩)
    ⟨init_lone true listenfd address, init_recorded listenfd address⟩ hrun

theorem run_succeeded {t u : Server} {labels : List Label} (hrun : Machine.run step t labels = some u)
    (hu : u.Succeeded) : t.Succeeded := by
  induction labels generalizing t with
  | nil =>
    rw [Machine.run_nil, Option.some.injEq] at hrun
    exact hrun ▸ hu
  | cons l labels ih =>
    obtain ⟨v, hstep, hrest⟩ := Machine.run_cons_some.mp hrun
    obtain ⟨os, htrace, -⟩ := step_shows hstep
    exact (ih hrest).before htrace

/-- Without IO threads the table mirrors the open connections, and `onConnection` is called once for each of
them, in every run whose accepts succeed. A run that ends between two events does so only then. -/
theorem table_mirrors (listenfd : Int) (address : ConnId → TcpConnection.Addr) (labels : List Label) (s : Server)
    (hrun : Machine.run step (init 0 true listenfd address) labels = some s) :
    (Machine.Meets step AcceptSucceeds (init 0 true listenfd address) labels →
      Machine.Always step Mirrors (init 0 true listenfd address) labels) ∧
    ((s.loops 0).frame = .idle → Machine.Always step Mirrors (init 0 true listenfd address) labels →
      Machine.Meets step AcceptSucceeds (init 0 true listenfd address) labels) := by
  have hsucceeded := Machine.always_iff_meets (I := fun _ => True) (fun _ _ _ _ _ _ _ => trivial)
    (fun _ _ _ _ hs hstep => step_succeeded hs hstep) trivial
    (show (init 0 true listenfd address).Succeeded from fun fd c hmem => by simp [init] at hmem) hrun
  constructor
  · intro hmeets pre t hpre ht hidle
    obtain ⟨hlone, hrecorded⟩ := run_lone_recorded ht
    exact (mirrors_iff hlone hrecorded hidle).mpr (hsucceeded.mpr hmeets pre t hpre ht) hidle
  · intro hidle halways
    obtain ⟨hlone, hrecorded⟩ := run_lone_recorded hrun
    have hend := (mirrors_iff hlone hrecorded hidle).mp (halways labels s (List.prefix_refl _) hrun)
    refine hsucceeded.mp fun pre t hpre ht => ?_
    obtain ⟨rest, rfl⟩ := hpre
    obtain ⟨v, hv, hrest⟩ := Machine.run_append_some.mp hrun
    rw [ht, Option.some.injEq] at hv
    exact run_succeeded (hv ▸ hrest) hend

/-- Two connections are accepted, and the first is closed. -/
def twoConnections : List Label :=
  accepting 5 ++ [.return_ 0 .error, .swap 0, .endBatch 0] ++ accepting 6 ++
    [.return_ 0 .error, .swap 0, .endBatch 0, .poll 0 [(.conn 0, EPOLLIN)], .handle 0 (.ok []) .error,
      .return_ 0 .error]

theorem table_mirrors_twoConnections : Machine.Always step Mirrors (init 0 true 3 id) twoConnections := by
  have hsome : (Machine.run step (init 0 true 3 id) twoConnections).isSome = true := by decide +kernel
  obtain ⟨s, hrun⟩ := Option.isSome_iff_exists.mp hsome
  exact (table_mirrors 3 id twoConnections s hrun).1 (by decide +kernel)

/-- A failed accept leaves an entry under -1. -/
theorem failed_accept_entered :
    ¬ Machine.Always step Mirrors (init 0 true 3 id) (accepting (-1) ++ [.return_ 0 .error]) := by
  refine Machine.not_always (fun s =>
    decide ((s.loops 0).frame = .idle ∧ s.connections (-1) ≠ openConnections s.trace (-1)))
    (fun s hs => ?_) (by decide +kernel)
  rw [decide_eq_false_iff_not]
  rintro ⟨hidle, hne⟩
  exact hne (congrFun (hs hidle).1 (-1))

end Muduo.Server
