import Muduo.Server.Owners

/-! # Giving references up

A step leaves a connection alive exactly when it gives up fewer references than there are.
-/

namespace Muduo.Server

/-- The references to `c` that the step gives up. -/
def released (s : Server) (c : ConnId) : Label → Nat
  | .statement =>
    match (s.loops 0).frame with
    -- the entry that is overwritten
    | .newConnection d .insert => if d ≠ c ∧ s.fd c = s.fd d ∧ s.connections (s.fd c) = some c then 1 else 0
    | .newConnection d .runInLoop => if d = c ∧ (s.conn d).loop = 0 ∧ (s.conn d).tcp.pUser = false then 1 else 0
    | _ => 0
  | .return_ L _ =>
    match (s.loops L).frame with
    | .user d (.closed _) =>
      (if d = c then 1 else 0) +
        if (s.conn d).tcp.closeCallback = true ∧ s.fd c = s.fd d ∧ s.connections (s.fd c) = some c then 1 else 0
    | .user d _ => if d = c then 1 else 0
    | _ => 0
  | .act _ (.drop d) | .foreign (.drop d) => if d = c then 1 else 0
  | .endBatch L => ((s.loops L).ran.map (Queued.holds c)).sum
  | _ => 0

theorem alive_pos {s : Server} {c : ConnId} : s.alive c = true ↔ 0 < s.owners c := decide_eq_true_iff

/-- No connection gains its first owner or loses its last. -/
structure SameAlive (s u : Server) : Prop where
  alive : ∀ d, u.alive d = s.alive d

theorem SameAlive.trans {s t u : Server} (h : SameAlive s t) (k : SameAlive t u) : SameAlive s u :=
  ⟨fun d => (k.alive d).trans (h.alive d)⟩

theorem SameAlive.of_owners {s u : Server} (h : ∀ d, u.owners d = s.owners d) : SameAlive s u :=
  ⟨fun d => alive_congr (h d)⟩

theorem observe_sameAlive (s : Server) (o : Obs) : SameAlive s (s.observe o) := ⟨fun _ => rfl⟩

theorem crash_sameAlive (s : Server) : SameAlive s { s with crashed := true } := ⟨fun _ => rfl⟩

theorem setConn_owners (s : Server) (c : ConnId) {k : Conn} (hfd : k.tcp.sockfd = s.fd c)
    (hheld : k.held = (s.conn c).held) (d : ConnId) : (s.setConn c k).owners d = s.owners d := by
  by_cases hd : d = c
  · subst hd
    refine owners_congr rfl rfl ?_ ?_ fun _ => rfl
    · simp [fd, setConn, hfd]
    · simp [setConn, hheld]
  · refine owners_congr rfl rfl ?_ ?_ fun _ => rfl
    · simp [fd, setConn, hd]
    · simp [setConn, hd]

theorem setTcp_owners (s : Server) (c : ConnId) (tcp : TcpConnection) (hfd : tcp.sockfd = s.fd c) (d : ConnId) :
    (s.setTcp c tcp).owners d = s.owners d := s.setConn_owners c (k := { s.conn c with tcp }) hfd rfl d

theorem setTcp_sameAlive (s : Server) (c : ConnId) (tcp : TcpConnection) (hfd : tcp.sockfd = s.fd c) :
    SameAlive s (s.setTcp c tcp) := SameAlive.of_owners (s.setTcp_owners c tcp hfd)

theorem control_sameAlive (s : Server) (c : ConnId) (ctl : Ctl) : SameAlive s (s.control c ctl) := ⟨fun _ => rfl⟩

theorem enter_sameAlive {s : Server} {L : Nat} {c : ConnId} (hL : L ≤ s.n) (hidle : (s.loops L).frame = .idle)
    (halive : s.alive c = true) (rest : Rest) : SameAlive s (s.setFrame L (.user c rest)) := by
  refine ⟨fun d => ?_⟩
  have h := s.setFrame_owners hL (.user c rest) d
  rw [alive_pos] at halive
  simp only [hidle, Frame.holds] at h
  rw [Bool.eq_iff_iff, alive_pos, alive_pos]
  by_cases hd : c = d
  · subst hd
    rw [if_pos rfl] at h
    omega
  · rw [if_neg hd] at h
    omega

/-! ## Calls -/

theorem disableChannel_sameAlive (s : Server) (c : ConnId) : SameAlive s (s.disableChannel c) :=
  (s.observe_sameAlive _).trans ((setTcp_sameAlive _ c _ (sockfd_disableChannel _)).trans (control_sameAlive _ c _))

theorem handleClose_sameAlive {s : Server} {L : Nat} {c : ConnId} (hL : L ≤ s.n)
    (hidle : (s.loops L).frame = .idle) (halive : s.alive c = true) : SameAlive s (s.handleClose L c) := by
  have hclosed := s.disableChannel_sameAlive c
  rw [handleClose_eq]
  split
  · have henter := enter_sameAlive (s := s.disableChannel c) hL hidle ((hclosed.alive c).trans halive)
    split
    · exact hclosed.trans ((henter _).trans (observe_sameAlive _ _))
    · exact hclosed.trans (henter _)
  · exact hclosed.trans (crash_sameAlive _)

theorem onMessage_sameAlive {s : Server} {L : Nat} {c : ConnId} (hL : L ≤ s.n)
    (hidle : (s.loops L).frame = .idle) (halive : s.alive c = true) : SameAlive s (s.onMessage L c) := by
  rw [onMessage_eq]
  split
  · exact (enter_sameAlive hL hidle halive _).trans (observe_sameAlive _ _)
  · exact s.crash_sameAlive

theorem testOut_owners (s : Server) (c : ConnId) (w : WriteResult) (d : ConnId) :
    (s.testOut c w).owners d = s.owners d := by
  rw [testOut_eq]
  split
  · refine (called_owners _ c ?_ d).trans rfl
    exact sockfd_handleWrite _ w
  · rfl

theorem called_sameAlive (s : Server) (c : ConnId) {call : Call} (hfd : call.conn.sockfd = s.fd c) :
    SameAlive s (s.called c call) := SameAlive.of_owners (s.called_owners c hfd)

theorem Move.sameAlive {L : Nat} {c : ConnId} {t u : Server} (h : Move L c t u) (hL : L ≤ t.n) : SameAlive t u := by
  cases h with
  | consult => exact t.observe_sameAlive _
  | read => exact t.observe_sameAlive _
  | onMessage halive hidle hread =>
    rename_i res tcp
    have hset : SameAlive t (t.setTcp c tcp) := t.setTcp_sameAlive c tcp (handleRead_sockfd hread)
    exact hset.trans (onMessage_sameAlive (s := t.setTcp c tcp) hL hidle ((hset.alive c).trans halive))
  | close halive hidle => exact handleClose_sameAlive hL hidle halive
  | write => exact (t.observe_sameAlive _).trans (called_sameAlive _ c (sockfd_handleWrite _ _))

theorem Moves.sameAlive {L : Nat} {c : ConnId} {s u : Server} (h : Moves L c s u) (hL : L ≤ s.n) : SameAlive s u := by
  have hboth : u.n = s.n ∧ SameAlive s u := by
    refine moves_invariant (I := fun t => t.n = s.n ∧ SameAlive s t) h ⟨rfl, ⟨fun _ => rfl⟩⟩ ?_
    rintro t v ⟨hn, hsame⟩ hmove
    exact ⟨hmove.stable.n.trans hn, hsame.trans (hmove.sameAlive (hn ▸ hL))⟩
  exact hboth.2

/-! ## Statements -/

theorem connectEstablished_owners (s : Server) {L : Nat} (hL : L ≤ s.n) (c : ConnId) (rest : Rest) (d : ConnId) :
    (s.connectEstablished L c rest).owners d + (s.loops L).frame.holds d =
      s.owners d + if c = d ∧ (s.conn c).tcp.pUser = true then 1 else 0 := by
  unfold connectEstablished
  split
  · rename_i huser
    have h := s.setFrame_owners hL (.user c rest) d
    simp only [huser, and_true]
    exact h
  · rename_i huser
    have h := s.setFrame_owners hL .idle d
    simp only [huser, and_false, if_false, Bool.false_eq_true]
    exact h

theorem nextStatement_owners {s : Server} {c : ConnId} {stage : Stage}
    (hframe : (s.loops 0).frame = .newConnection c stage) (next : Stage) (d : ConnId) :
    (s.setFrame 0 (.newConnection c next)).owners d = s.owners d := by
  have h := s.setFrame_owners (Nat.zero_le _) (.newConnection c next) d
  simp only [hframe, Frame.holds] at h
  omega

theorem insert_owners (s : Server) (c : ConnId) {d : ConnId} (hd : c ≠ d) :
    ({ s with connections := Function.update s.connections (s.fd c) (some c) } : Server).owners d +
      (if s.fd d = s.fd c ∧ s.connections (s.fd d) = some d then 1 else 0) = s.owners d := by
  unfold owners
  change (if Function.update s.connections (s.fd c) (some c) (s.fd d) = some d then 1 else 0) +
    (s.conn d).held + _ + _ = _
  by_cases hfd : s.fd d = s.fd c
  · simp only [hfd, Function.update_self, Option.some.injEq, hd, if_false, true_and]
    omega
  · simp only [Function.update_of_ne hfd, hfd, false_and, if_false]
    rfl

theorem removeConnection_owners (s : Server) (c d : ConnId) :
    (s.removeConnection c).owners d +
      (if s.fd d = s.fd c ∧ s.connections (s.fd d) = some d then 1 else 0) = s.owners d := by
  unfold owners removeConnection
  change (if Function.update s.connections (s.fd c) none (s.fd d) = some d then 1 else 0) +
    (s.conn d).held + _ + _ = _
  by_cases hfd : s.fd d = s.fd c
  · simp only [hfd, Function.update_self, reduceCtorEq, if_false, true_and]
    omega
  · simp only [Function.update_of_ne hfd, hfd, false_and, if_false]
    rfl

theorem queueEstablished_owners {s : Server} {L : Nat} (hL : L ≤ s.n) (c d : ConnId) :
    (s.queueInLoop L (.connectEstablished c)).owners d = s.owners d + if c = d then 1 else 0 := by
  have h : (s.queueInLoop L (.connectEstablished c)).owners d + (s.loops L).holds d = s.owners d + _ :=
    s.setLoop_owners hL _ d
  simp only [Loop.holds, List.map_append, List.map_cons, List.map_nil, List.sum_append, List.sum_cons, List.sum_nil,
    Queued.holds] at h
  omega

theorem newConnection_holds (c d : ConnId) (stage : Stage) :
    (Frame.newConnection c stage).holds d = if c = d then 1 else 0 := rfl

theorem statement_owners {s : Server} {c d : ConnId} {stage : Stage} (hloops : ∀ c, (s.conn c).loop ≤ s.n)
    (hframe : (s.loops 0).frame = .newConnection c stage) (hd : stage = .insert → c ≠ d) :
    (s.statement c stage).owners d + s.released d .statement = s.owners d := by
  simp only [released, hframe]
  cases stage with
  | enableReading =>
    have hset := s.setTcp_owners c (s.conn c).tcp.enableReading.1 rfl d
    exact (nextStatement_owners (s := (s.setTcp c _).control c _) hframe _ d).trans hset
  | sharedPtr =>
    have hset := s.setConn_owners c (k := { s.conn c with shared := true }) rfl rfl d
    exact (nextStatement_owners (s := s.setConn c _) hframe _ d).trans hset
  | insert =>
    have hinsert := s.insert_owners c (hd rfl)
    have hnext :=
      nextStatement_owners (s := { s with connections := Function.update s.connections (s.fd c) (some c) })
      hframe .setUser d
    simp only [statement, ne_eq, hd rfl, not_false_eq_true, true_and]
    omega
  | setUser =>
    simp only [statement]
    split
    · have hset := s.setTcp_owners c (s.conn c).tcp.setUser rfl d
      exact (nextStatement_owners (s := s.setTcp c _) hframe _ d).trans hset
    · exact nextStatement_owners hframe _ d
  | setUpLayerCloseCallback =>
    have hset := s.setTcp_owners c (s.conn c).tcp.setUpLayerCloseCallback rfl d
    exact (nextStatement_owners (s := s.setTcp c _) hframe _ d).trans hset
  | runInLoop =>
    simp only [statement]
    split
    · rename_i hloop
      have h := s.connectEstablished_owners (Nat.zero_le _) c .connected d
      rw [hframe, newConnection_holds] at h
      cases huser : (s.conn c).tcp.pUser <;> simp only [huser, hloop] at h ⊢ <;> simp at h ⊢ <;> omega
    · rename_i hloop
      have hqueue := queueEstablished_owners (hloops c) c d
      have h := (s.queueInLoop (s.conn c).loop (.connectEstablished c)).setFrame_owners (Nat.zero_le _) .idle d
      have hstill : ((s.queueInLoop (s.conn c).loop (.connectEstablished c)).loops 0).frame =
          .newConnection c .runInLoop := by
        rw [← hframe]
        simp [queueInLoop, setLoop, Ne.symm hloop]
      rw [hstill, newConnection_holds, hqueue] at h
      simp only [hloop, false_and, and_false, if_false, Frame.holds] at h ⊢
      omega

/-! ## Steps -/

theorem accept_owners {s : Server} (hidle : (s.loops 0).frame = .idle) (fd : Int) {d : ConnId} (hd : d ≠ s.size) :
    (s.accept fd).owners d = s.owners d := by
  have hold := s.accept_old fd hd
  refine owners_congr (s.accept_n fd) (s.accept_connections fd) (by rw [Server.fd, hold, Server.fd]) (by rw [hold])
    fun L => ?_
  by_cases hL : L = 0
  · subst hL
    simp [Loop.holds, hidle, Frame.holds, Ne.symm hd]
  · simp [setFrame_loop, hL]

theorem return_owners {s : Server} {L : Nat} {c : ConnId} {rest : Rest} (hL : L ≤ s.n)
    (hframe : (s.loops L).frame = .user c rest) (w : WriteResult) (d : ConnId) :
    (s.return_ L c w rest).owners d + s.released d (.return_ L w) = s.owners d := by
  have hleave : ∀ t : Server, t.n = s.n → t.loops = s.loops →
      (t.setFrame L .idle).owners d + (if c = d then 1 else 0) = t.owners d := by
    intro t hn hloops
    have h := t.setFrame_owners (hn ▸ hL) .idle d
    rw [hloops, hframe] at h
    simpa [Frame.holds] using h
  simp only [released, hframe]
  cases rest with
  | connected | established | completed => exact hleave s rfl rfl
  | read =>
    simp only [return_, testOut_owners]
    exact hleave s rfl rfl
  | closed called =>
    simp only [return_]
    split
    · rename_i hcallback
      have hremove := s.removeConnection_owners c d
      have h := hleave (s.removeConnection c) rfl rfl
      simp only [testOut_owners, hcallback, true_and]
      omega
    · rename_i hcallback
      have h := hleave s rfl rfl
      have hentry : ¬((s.conn c).tcp.closeCallback = true ∧ s.fd d = s.fd c ∧ s.connections (s.fd d) = some d) :=
        fun hc => hcallback hc.1
      rw [testOut_owners, if_neg hentry]
      omega

theorem act_alive {s : Server} (thread : Option Nat) {a : Act}
    (halive : ∀ c, (∃ message w, a = .send c message w) ∨ a = .keep c → s.alive c = true)
    (hdrop : ∀ c, a ≠ .drop c) : SameAlive s (s.act thread a) := by
  cases a with
  | send c message w =>
    simp only [act]
    split
    · exact s.called_sameAlive c (sockfd_sendInLoop _ message w)
    · exact SameAlive.of_owners ((s.queueInLoop_quiet c _ _).owners rfl)
  | keep c =>
    refine ⟨fun d => ?_⟩
    by_cases hd : d = c
    · subst hd
      rw [halive d (Or.inr rfl), alive_iff]
      exact Or.inr (Or.inl (by simp [act, setConn]))
    · exact alive_congr
        (owners_congr rfl rfl (by simp [act, fd, setConn, hd]) (by simp [act, setConn, hd]) fun _ => rfl)
  | drop c => exact absurd rfl (hdrop c)

theorem drop_owners {s : Server} {c : ConnId} (hheld : 0 < (s.conn c).held) (thread : Option Nat) (d : ConnId) :
    (s.act thread (.drop c)).owners d + (if c = d then 1 else 0) = s.owners d := by
  by_cases hd : d = c
  · subst hd
    have hfd : (s.act thread (.drop d)).fd d = s.fd d := by simp [act, fd, setConn]
    have hafter : ((s.act thread (.drop d)).conn d).held = (s.conn d).held - 1 := by simp [act, setConn]
    rw [owners, owners, hfd, hafter, if_pos rfl]
    change _ + _ + ((List.range (s.n + 1)).map fun L => (s.loops L).holds d).sum + _ = _
    change (if s.connections (s.fd d) = some d then 1 else 0) + _ + _ + _ = _
    omega
  · rw [if_neg (Ne.symm hd)]
    exact owners_congr rfl rfl (by simp [act, fd, setConn, hd]) (by simp [act, setConn, hd]) fun _ => rfl

theorem established_sameAlive {s : Server} {L : Nat} {c : ConnId} (hL : L ≤ s.n) (hidle : (s.loops L).frame = .idle)
    (halive : s.alive c = true) (rest : Rest) : SameAlive s (s.connectEstablished L c rest) := by
  refine ⟨fun d => ?_⟩
  have h := s.connectEstablished_owners hL c rest d
  simp only [hidle, Frame.holds, Nat.add_zero] at h
  rw [alive_pos] at halive
  rw [Bool.eq_iff_iff, alive_pos, alive_pos, h]
  by_cases hd : c = d
  · subst hd
    omega
  · simp [hd]

theorem takeFunctor_owners {s : Server} {L : Nat} {f : Queued} {rest : List Queued}
    (h : (s.loops L).tempRuns = f :: rest) (d : ConnId) : (s.takeFunctor L f rest).owners d = s.owners d := by
  refine s.setLoop_same ?_
  simp only [Loop.holds, h, List.map_append, List.map_cons, List.map_nil, List.sum_append, List.sum_cons,
    List.sum_nil]
  omega

theorem takeFunctor_known {s : Server} {L : Nat} {f : Queued} {rest : List Queued}
    (hknown : ∀ c, s.alive c = true → c < s.size) (h : (s.loops L).tempRuns = f :: rest) (c : ConnId)
    (hc : (s.takeFunctor L f rest).alive c = true) : c < (s.takeFunctor L f rest).size :=
  hknown c ((alive_congr (takeFunctor_owners h c)).symm.trans hc)

theorem callFunctor_sameAlive {s : Server} {L : Nat} {c : ConnId} (hL : L ≤ s.n) (hidle : (s.loops L).frame = .idle)
    (halive : s.alive c = true) (w : WriteResult) (f : Functor) : SameAlive s (s.callFunctor L c w f) := by
  cases f with
  | onWriteComplateCB =>
    rw [callFunctor_completed]
    split
    · exact (enter_sameAlive hL hidle halive .completed).trans (observe_sameAlive _ _)
    · exact ⟨fun _ => rfl⟩
  | onMessageCB message =>
    exact (s.called_sameAlive c (sockfd_sendInLoop (s.conn c).tcp message w)).trans ⟨fun _ => rfl⟩

theorem runFunctor_sameAlive {s : Server} {L : Nat} {f : Queued} (hL : L ≤ s.n) (hidle : (s.loops L).frame = .idle)
    (hf : f ∈ (s.loops L).ran) (w : WriteResult) : SameAlive s (s.runFunctor L w f) := by
  cases f with
  | connectEstablished c =>
    refine established_sameAlive hL hidle ?_ _
    refine alive_iff.mpr (Or.inr (Or.inr ⟨L, hL, ?_⟩))
    have hone : 0 < ((s.loops L).ran.map (Queued.holds c)).sum :=
      List.sum_pos_iff_exists_pos_nat.mpr ⟨1, List.mem_map.mpr ⟨_, hf, by simp [Queued.holds]⟩, Nat.one_pos⟩
    simp only [Loop.holds]
    omega
  | bound c f =>
    have hobserve := s.observe_sameAlive (.functor c f (s.alive c))
    rcases s.runFunctor_bound L w c f with ⟨d, hd, heq⟩ | ⟨-, heq⟩
    · rw [heq]
      have halive := (hobserve.alive d).trans (pointee_alive hd)
      exact hobserve.trans (callFunctor_sameAlive (s := s.observe _) hL hidle halive w f)
    · rw [heq]
      exact hobserve.trans (crash_sameAlive _)

theorem setRevents_sameAlive (s : Server) (events : List (Source × Events)) : SameAlive s (s.setRevents events) :=
  setRevents_rel (R := SameAlive) (fun _ => ⟨fun _ => rfl⟩) SameAlive.trans
    (fun s c _ => s.setTcp_sameAlive c _ rfl) s events

theorem insert_alive {s : Server} {c : ConnId} (hframe : (s.loops 0).frame = .newConnection c .insert) :
    s.alive c = true ∧ (s.statement c .insert).alive c = true := by
  constructor
  · refine alive_iff.mpr (Or.inr (Or.inr ⟨0, Nat.zero_le _, ?_⟩))
    simp only [Loop.holds, hframe, newConnection_holds, if_true]
    omega
  · exact alive_iff.mpr (Or.inl (by simp [statement, setFrame, setLoop, fd]))

/-- Behind a step a connection is alive exactly when the step gave up fewer references than there were. -/
theorem step_alive {s u : Server} {l : Label} (hs : s.Formed) (h : step s l = some u)
    {d : ConnId} (hd : (∃ fd, l = .accept fd) → d ≠ s.size) : u.alive d = true ↔ s.released d l < s.owners d := by
  have hnone : ∀ {t}, SameAlive s t → s.released d l = 0 → (t.alive d = true ↔ s.released d l < s.owners d) := by
    intro t hsame hzero
    rw [hsame.alive, alive_pos, hzero]
  have hsome : ∀ {t : Server}, t.owners d + s.released d l = s.owners d →
      (t.alive d = true ↔ s.released d l < s.owners d) := by
    intro t howners
    rw [alive_pos]
    omega
  cases l with
  | poll L events =>
    obtain ⟨-, rfl⟩ := Machine.guard_some.mp h
    refine hnone ((s.setRevents_sameAlive events).trans (SameAlive.of_owners fun e => setLoop_same _ ?_)) rfl
    rw [setRevents_loops]
    rfl
  | accept fd =>
    obtain ⟨rest, -, hready, -, rfl⟩ := accept_inv h
    refine hsome ?_
    have haccept := accept_owners (s := s.takeActive 0 rest)
      (by simpa using hready.2.2.2) fd (hd ⟨fd, rfl⟩)
    exact haccept.trans (setLoop_same s rfl)
  | statement =>
    obtain ⟨c, stage, hframe, -, rfl⟩ := statement_inv h
    by_cases hinsert : stage = .insert ∧ c = d
    · obtain ⟨rfl, rfl⟩ := hinsert
      obtain ⟨hbefore, hafter⟩ := insert_alive hframe
      simpa [released, hframe, hafter, ← alive_pos] using hbefore
    · exact hsome (statement_owners hs.loop hframe (by tauto))
  | handle L res w =>
    obtain ⟨c, rest, -, hready, hmoves⟩ := handle_moves h
    have hset : SameAlive s (s.takeActive L rest) :=
      SameAlive.of_owners fun e => setLoop_same _ rfl
    exact hnone (hset.trans (hmoves.sameAlive hready.2.1)) rfl
  | return_ L w =>
    obtain ⟨c, rest, hframe, -, hL, rfl⟩ := return_inv h
    exact hsome (return_owners hL hframe w d)
  | act L a =>
    obtain ⟨arg, hcode, -, hL, hmay, rfl⟩ := act_inv h
    cases a with
    | send c message w =>
      refine hnone (act_alive _ ?_ (by simp)) rfl
      rintro e (⟨_, _, he⟩ | he) <;> cases he
      exact mayAct_alive hL hcode hmay.1
    | keep c =>
      refine hnone (act_alive _ ?_ (by simp)) rfl
      rintro e (⟨_, _, he⟩ | he) <;> cases he
      exact mayAct_alive hL hcode hmay
    | drop c => exact hsome (drop_owners hmay _ d)
  | foreign a =>
    obtain ⟨⟨-, hmay⟩, rfl⟩ := Machine.guard_some.mp h
    cases a with
    | send c message w =>
      refine hnone (act_alive _ ?_ (by simp)) rfl
      rintro e (⟨_, _, he⟩ | he) <;> cases he
      exact kept_alive hmay.1
    | keep c =>
      refine hnone (act_alive _ ?_ (by simp)) rfl
      rintro e (⟨_, _, he⟩ | he) <;> cases he
      exact kept_alive hmay
    | drop c => exact hsome (drop_owners hmay _ d)
  | swap L =>
    obtain ⟨⟨hready, -⟩, rfl⟩ := Machine.guard_some.mp h
    refine hnone (SameAlive.of_owners fun e => setLoop_same _ ?_) rfl
    have hruns := (hs.batch L).resolve_left (by simp [hready.2.2.1])
    simp only [Loop.holds, hruns, List.map_nil, List.sum_nil]
    omega
  | runFunctor L w =>
    obtain ⟨f, rest, hruns, hready, rfl⟩ := runFunctor_inv h
    have hpop : SameAlive s (s.takeFunctor L f rest) := SameAlive.of_owners (takeFunctor_owners hruns)
    have hframe : ((s.takeFunctor L f rest).loops L).frame = .idle := by simpa using hready.2.2.2
    have hmem : f ∈ ((s.takeFunctor L f rest).loops L).ran := by simp
    refine hnone (hpop.trans (runFunctor_sameAlive ?_ hframe hmem w)) rfl
    exact hready.2.1
  | endBatch L =>
    obtain ⟨⟨hready, -⟩, rfl⟩ := Machine.guard_some.mp h
    have howners := s.setLoop_owners hready.2.1 { s.loops L with phase := .polling, ran := [] } d
    simp only [Loop.holds, List.map_nil, List.sum_nil] at howners
    refine hsome ?_
    simp only [released]
    omega

theorem init_known (n : Nat) (user : Bool) (listenfd : Int) (address : ConnId → TcpConnection.Addr) (c : ConnId) :
    (init n user listenfd address).alive c = true → c < (init n user listenfd address).size := by
  rw [alive_iff]
  simp [init, idleLoop, Loop.holds, Frame.holds]

theorem step_lived {s u : Server} {l : Label} (hs : s.Formed) (h : step s l = some u) {c : ConnId}
    (hc : u.alive c = true) : s.alive c = true ∨ (c = s.size ∧ ∃ fd, l = .accept fd) := by
  by_cases hnew : (∃ fd, l = .accept fd) ∧ c = s.size
  · exact Or.inr hnew.symm
  · have hbefore := (step_alive hs h fun hl heq => hnew ⟨hl, heq⟩).mp hc
    exact Or.inl (alive_pos.mpr (by omega))

theorem step_address {s u : Server} {l : Label} (h : step s l = some u) : u.address = s.address := by
  by_cases hl : ∃ fd, l = .accept fd
  · obtain ⟨fd, rfl⟩ := hl
    obtain ⟨rest, -, -, -, rfl⟩ := accept_inv h
    exact accept_address (s.takeActive 0 rest) fd
  · exact (step_fixed h fun fd hfd => hl ⟨fd, hfd⟩).address

theorem step_known {s u : Server} {l : Label} (hs : s.Formed) (hknown : ∀ c, s.alive c = true → c < s.size)
    (h : step s l = some u) : ∀ c, u.alive c = true → c < u.size := by
  intro c hc
  by_cases hl : ∃ fd, l = .accept fd
  · obtain ⟨fd, rfl⟩ := hl
    have hsize : u.size = s.size + 1 := by
      obtain ⟨rest, -, -, -, rfl⟩ := accept_inv h
      exact accept_size _ fd
    rw [hsize]
    rcases step_lived hs h hc with hbefore | ⟨rfl, -⟩
    · exact Nat.lt_succ_of_lt (hknown c hbefore)
    · exact Nat.lt_succ_self _
  · rw [(step_fixed h fun fd hfd => hl ⟨fd, hfd⟩).size]
    exact hknown c ((step_lived hs h hc).resolve_right fun hnew => hl hnew.2)

end Muduo.Server
