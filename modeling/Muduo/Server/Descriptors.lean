import Muduo.Server.Announce
import Muduo.Server.Threads

/-! # The descriptors that `accept` returns

The server calls `::close` nowhere: a descriptor is in good hands as long as its connection is open.
-/

namespace Muduo.Server

/-- The connection whose `handleClose` returns. -/
def completes (s : Server) : Label → Option ConnId
  | .return_ L _ => (s.loops L).frame.closing
  | _ => none

/-- The connections whose `handleClose` has returned. -/
def completed (s : Server) (labels : List Label) : List ConnId :=
  Machine.outputs step (fun t l => (t.completes l).toList) s labels

/-- Every descriptor that was accepted belongs to a connection that exists and has not completed `handleClose`. -/
def DescriptorsOwned (s : Server) (done : List ConnId) : Prop :=
  ∀ fd c, .accepted fd c ∈ s.trace → 0 ≤ fd → s.fd c = fd ∧ s.alive c = true ∧ c ∉ done

/-- No peer hangs up. -/
def NothingCloses (s : Server) : Label → Prop
  | .handle L res _ => ∀ c ∈ headConn (s.loops L).active, ¬ (s.conn c).tcp.Closes res
  | _ => True

instance (s : Server) : (l : Label) → Decidable (s.NothingCloses l)
  | .handle L res _ => inferInstanceAs (Decidable (∀ c ∈ headConn (s.loops L).active, ¬ (s.conn c).tcp.Closes res))
  | .poll _ _ | .accept _ | .statement | .return_ _ _ | .act _ _ | .foreign _ | .swap _ | .runFunctor _ _
  | .endBatch _ => .isTrue trivial

/-! ## Frames -/

/-- The statement that enters the connection into the table is still to come. -/
def Stage.early : Stage → Bool
  | .enableReading | .sharedPtr | .insert => true
  | .setUser | .setUpLayerCloseCallback | .runInLoop => false

theorem setFrame_other (s : Server) {L M : Nat} (hM : M ≠ L) (frame : Frame) :
    ((s.setFrame L frame).loops M).frame = (s.loops M).frame := by
  rw [setFrame_loop, if_neg hM]

theorem connectEstablished_other (s : Server) {L M : Nat} (hM : M ≠ L) (c : ConnId) (rest : Rest) :
    ((s.connectEstablished L c rest).loops M).frame = (s.loops M).frame := by
  unfold connectEstablished
  split
  · exact s.setFrame_other hM _
  · exact s.setFrame_other hM _

theorem return_other (s : Server) {L M : Nat} (hM : M ≠ L) (c : ConnId) (w : WriteResult) (rest : Rest) :
    ((s.return_ L c w rest).loops M).frame = (s.loops M).frame := by
  cases rest with
  | connected | established | completed => exact s.setFrame_other hM _
  | read =>
    rw [return_, testOut_frame]
    exact s.setFrame_other hM _
  | closed called =>
    simp only [return_]
    split
    · rw [testOut_frame]
      exact (s.removeConnection c).setFrame_other hM _
    · rw [testOut_frame]
      exact s.setFrame_other hM _

theorem callFunctor_other (s : Server) {L M : Nat} (hM : M ≠ L) (c : ConnId) (w : WriteResult) (f : Functor) :
    ((s.callFunctor L c w f).loops M).frame = (s.loops M).frame := by
  cases f with
  | onWriteComplateCB =>
    rw [callFunctor_completed]
    split
    · exact s.setFrame_other hM _
    · rfl
  | onMessageCB message => exact called_frame s c _ M

theorem runFunctor_other (s : Server) {L M : Nat} (hM : M ≠ L) (w : WriteResult) (q : Queued) :
    ((s.runFunctor L w q).loops M).frame = (s.loops M).frame := by
  cases q with
  | connectEstablished c => exact s.connectEstablished_other hM c _
  | bound c f =>
    rcases s.runFunctor_bound L w c f with ⟨d, -, heq⟩ | ⟨-, heq⟩
    · rw [heq]
      exact (s.observe _).callFunctor_other hM d w f
    · rw [heq]
      rfl

theorem step_entering {s u : Server} {l : Label} (h : step s l = some u) {c : ConnId} {stage : Stage}
    (hframe : (s.loops 0).frame = .newConnection c stage) :
    l = .statement ∨ (u.loops 0).frame = .newConnection c stage := by
  have hbusy : ∀ {L phase}, s.Ready L phase → 0 ≠ L := by
    rintro L phase hready rfl
    rw [hready.2.2.2] at hframe
    cases hframe
  have hset : ∀ {L} {lp : Loop}, lp.frame = (s.loops L).frame →
      ((s.setLoop L lp).loops 0).frame = .newConnection c stage :=
    fun {L lp} hlp => (s.setLoop_frame L 0 hlp).trans hframe
  cases l with
  | statement => exact Or.inl rfl
  | poll L events =>
    obtain ⟨-, rfl⟩ := Machine.guard_some.mp h
    refine Or.inr ?_
    rw [setLoop_frame _ L 0 (by rw [setRevents_loops]), setRevents_loops]
    exact hframe
  | accept fd =>
    obtain ⟨rest, -, hready, -, rfl⟩ := accept_inv h
    exact absurd rfl (hbusy hready)
  | handle L res w =>
    obtain ⟨d, rest, -, hready, hmoves⟩ := handle_moves h
    exact Or.inr ((hmoves.other (hbusy hready)).trans (hset rfl))
  | return_ L w =>
    obtain ⟨d, rest, huser, -, -, rfl⟩ := return_inv h
    have hL : 0 ≠ L := by
      rintro rfl
      rw [hframe] at huser
      cases huser
    exact Or.inr ((s.return_other hL d w rest).trans hframe)
  | act L a =>
    obtain ⟨arg, -, -, -, -, rfl⟩ := act_inv h
    exact Or.inr ((s.act_frame _ a 0).trans hframe)
  | foreign a =>
    obtain ⟨-, rfl⟩ := Machine.guard_some.mp h
    exact Or.inr ((s.act_frame _ a 0).trans hframe)
  | swap L =>
    obtain ⟨-, rfl⟩ := Machine.guard_some.mp h
    exact Or.inr (hset rfl)
  | runFunctor L w =>
    obtain ⟨f, rest, -, hready, rfl⟩ := runFunctor_inv h
    exact Or.inr (((s.takeFunctor L f rest).runFunctor_other (hbusy hready) w f).trans (hset rfl))
  | endBatch L =>
    obtain ⟨-, rfl⟩ := Machine.guard_some.mp h
    exact Or.inr (hset rfl)

theorem return_back (s : Server) (L : Nat) (c : ConnId) (w : WriteResult) (rest : Rest) :
    ((s.return_ L c w rest).loops L).frame = .idle := by
  cases rest with
  | connected | established | completed => exact setFrame_frame s L _
  | read =>
    rw [return_, testOut_frame]
    exact setFrame_frame s L _
  | closed called =>
    simp only [return_]
    split
    · rw [testOut_frame]
      exact setFrame_frame (s.removeConnection c) L _
    · rw [testOut_frame]
      exact setFrame_frame s L _

theorem step_entered {s u : Server} {l : Label} (hs : s.Rooted) (h : step s l = some u) (hstatement : l ≠ .statement)
    (haccept : ∀ fd, l ≠ .accept fd) {c : ConnId} {stage : Stage}
    (hframe : (u.loops 0).frame = .newConnection c stage) : (s.loops 0).frame = .newConnection c stage := by
  have hadds : ∀ {t : Server}, Adds t u → (t.loops 0).frame = (s.loops 0).frame →
      (s.loops 0).frame = .newConnection c stage := by
    intro t hadds ht
    rcases hadds.frame 0 with heq | hidle | ⟨d, rest, huser, -⟩
    · exact ht.symm.trans (heq.symm.trans hframe)
    · rw [hframe] at hidle
      cases hidle
    · rw [hframe] at huser
      cases huser
  cases l with
  | statement => exact absurd rfl hstatement
  | accept fd => exact absurd rfl (haccept fd)
  | poll L events =>
    obtain ⟨-, rfl⟩ := Machine.guard_some.mp h
    rw [setLoop_frame _ L 0 (by rw [setRevents_loops]), setRevents_loops] at hframe
    exact hframe
  | handle L res w =>
    obtain ⟨d, rest, hactive, -, hmoves⟩ := handle_moves h
    have hd : (s.takeActive L rest).Assigned L d :=
      hs.placed.active L d (by rw [hactive]; exact List.mem_cons_self)
    exact hadds (hmoves.adds hd) (s.setLoop_frame L 0 rfl)
  | return_ L w =>
    obtain ⟨d, rest, -, -, -, rfl⟩ := return_inv h
    by_cases hL : 0 = L
    · subst hL
      rw [return_back] at hframe
      cases hframe
    · rwa [s.return_other hL d w rest] at hframe
  | act L a =>
    obtain ⟨arg, -, -, -, -, rfl⟩ := act_inv h
    rwa [act_frame] at hframe
  | foreign a =>
    obtain ⟨-, rfl⟩ := Machine.guard_some.mp h
    rwa [act_frame] at hframe
  | swap L =>
    obtain ⟨-, rfl⟩ := Machine.guard_some.mp h
    rwa [setLoop_frame s L 0 (by rfl)] at hframe
  | runFunctor L w =>
    obtain ⟨f, rest, hruns, -, rfl⟩ := runFunctor_inv h
    have hf : (s.takeFunctor L f rest).Assigned L f.conn :=
      hs.placed.functors L f (Or.inl (by rw [hruns]; exact List.mem_cons_self))
    have hrun : Adds (s.takeFunctor L f rest) ((s.takeFunctor L f rest).runFunctor L w f) := by
      cases f with
      | connectEstablished d => exact connectEstablished_adds hf _
      | bound d f => exact bound_adds (takeFunctor_known hs.known hruns) L w d f
    exact hadds hrun (s.setLoop_frame L 0 rfl)
  | endBatch L =>
    obtain ⟨-, rfl⟩ := Machine.guard_some.mp h
    rwa [setLoop_frame s L 0 (by rfl)] at hframe

/-! ## The invariant -/

/-- While no connection closes, each one is in the table or on its way there. -/
structure Standing (s : Server) : Prop where
  rooted : s.Rooted
  frames : ∀ L, (s.loops L).frame.closes = false
  accepted : ∀ fd c, .accepted fd c ∈ s.trace → c < s.size ∧ s.fd c = fd
  entering : ∀ c stage, (s.loops 0).frame = .newConnection c stage → stage.early = true → 0 ≤ s.fd c →
    s.connections (s.fd c) = none
  standing : ∀ c, c < s.size → 0 ≤ s.fd c →
    s.Open c ∨ ∃ stage, (s.loops 0).frame = .newConnection c stage ∧ stage.early = true

theorem init_standing (n : Nat) (user : Bool) (listenfd : Int) (address : ConnId → TcpConnection.Addr) :
    (init n user listenfd address).Standing where
  rooted := init_rooted n user listenfd address
  frames := fun _ => rfl
  accepted := fun _ _ h => by simp [init] at h
  entering := fun _ _ h => by simp [init, idleLoop] at h
  standing := fun _ h => by simp [init] at h

theorem Standing.alive {s : Server} (hs : s.Standing) {c : ConnId} (hsize : c < s.size) (hfd : 0 ≤ s.fd c) :
    s.alive c = true := by
  rcases hs.standing c hsize hfd with hopen | ⟨stage, hframe, -⟩
  · exact hopen.alive
  · refine alive_iff.mpr (Or.inr (Or.inr ⟨0, Nat.zero_le _, ?_⟩))
    simp only [Loop.holds, hframe, newConnection_holds, if_true]
    omega

theorem Standing.completes {s : Server} (hs : s.Standing) (l : Label) : s.completes l = none := by
  cases l with
  | return_ L w =>
    have hframe := hs.frames L
    simp only [Server.completes]
    cases hcase : (s.loops L).frame with
    | user c rest =>
      cases rest with
      | closed called =>
        rw [hcase] at hframe
        cases hframe
      | connected | established | completed | read => rfl
    | idle | newConnection => rfl
  | poll | accept | statement | handle | act | foreign | swap | runFunctor | endBatch => rfl

theorem Standing.tableOp {s : Server} (hs : s.Standing) {l : Label} (hl : l ≠ .statement) : s.tableOp l = none := by
  cases l with
  | statement => exact absurd rfl hl
  | return_ L w =>
    have hframe := hs.frames L
    simp only [Server.tableOp]
    split
    · rename_i hclosed
      rw [hclosed] at hframe
      cases hframe
    · rfl
  | poll | accept | handle | act | foreign | swap | runFunctor | endBatch => rfl

theorem step_accepted {s u : Server} {l : Label} (hs : ∀ fd c, .accepted fd c ∈ s.trace → c < s.size ∧ s.fd c = fd)
    (h : step s l = some u) : ∀ fd c, .accepted fd c ∈ u.trace → c < u.size ∧ u.fd c = fd := by
  intro f c hmem
  by_cases hl : ∃ fd, l = .accept fd
  · obtain ⟨g, rfl⟩ := hl
    obtain ⟨rest, -, -, -, rfl⟩ := accept_inv h
    rw [accept_size]
    rw [accept_trace, List.mem_append, List.mem_singleton] at hmem
    rcases hmem with hold | hnew
    · obtain ⟨hsize, hfd⟩ := hs f c hold
      refine ⟨Nat.lt_succ_of_lt hsize, ?_⟩
      rw [fd, accept_old (s.takeActive 0 rest) g (Nat.ne_of_lt hsize)]
      exact hfd
    · rw [Obs.accepted.injEq] at hnew
      obtain ⟨rfl, rfl⟩ := hnew
      refine ⟨Nat.lt_succ_self _, ?_⟩
      rw [fd, accept_new]
      rfl
  · have hold : .accepted f c ∈ s.trace := by
      refine step_mem h (fun hby => ?_) hmem
      cases l with
      | accept fd => exact hl ⟨fd, rfl⟩
      | poll | statement | handle | return_ | act | foreign | swap | runFunctor | endBatch => exact hby
    have hfixed := step_fixed h fun fd hfd => hl ⟨fd, hfd⟩
    rw [hfixed.size, hfixed.fd]
    exact hs f c hold

theorem statement_next (s : Server) (c d : ConnId) (stage stage' : Stage)
    (h : ((s.statement c stage).loops 0).frame = .newConnection d stage') :
    d = c ∧ stage' = stage.next ∧ stage ≠ .runInLoop := by
  by_cases hstage : stage = .runInLoop
  · subst hstage
    simp only [statement] at h
    split at h
    · unfold connectEstablished at h
      split at h
      · rw [show (((s.setFrame 0 (.user c .connected)).observe (.callback c .onConnection)).loops 0).frame =
          .user c .connected from setFrame_frame s 0 _] at h
        cases h
      · rw [setFrame_frame] at h
        cases h
    · rw [setFrame_frame] at h
      cases h
  · rw [statement_loops s c hstage, setFrame_frame, Frame.newConnection.injEq] at h
    exact ⟨h.1.symm, h.2.symm, hstage⟩

theorem Stage.early_of_next {stage : Stage} (h : stage.next.early = true) : stage.early = true ∧ stage ≠ .insert := by
  cases stage <;> simp [Stage.next, Stage.early] at h ⊢

theorem Standing.statement {s : Server} (hs : s.Standing) {c : ConnId} {stage : Stage}
    (hframe : (s.loops 0).frame = .newConnection c stage) :
    (∀ d stage', ((s.statement c stage).loops 0).frame = .newConnection d stage' → stage'.early = true →
      0 ≤ s.fd d → (s.statement c stage).connections (s.fd d) = none) ∧
    ∀ d, d < s.size → 0 ≤ s.fd d → (s.statement c stage).connections (s.fd d) = some d ∨
      ∃ stage', ((s.statement c stage).loops 0).frame = .newConnection d stage' ∧ stage'.early = true := by
  have hconnections := s.statement_connections c stage
  constructor
  · intro d stage' hnext hearly hfd
    obtain ⟨rfl, rfl, -⟩ := s.statement_next c d stage stage' hnext
    obtain ⟨hearly, hinsert⟩ := Stage.early_of_next hearly
    rw [hconnections, if_neg hinsert]
    exact hs.entering d stage hframe hearly hfd
  · intro d hd hfd
    by_cases hinsert : stage = .insert
    · subst hinsert
      rw [hconnections, if_pos rfl]
      refine Or.inl ?_
      by_cases hdc : d = c
      · rw [hdc, Function.update_self]
      · rcases hs.standing d hd hfd with hopen | ⟨stage', hframe', -⟩
        · have hne : s.fd d ≠ s.fd c := by
            intro heq
            have hnone := hs.entering c .insert hframe rfl (heq ▸ hfd)
            rw [Open, heq, hnone] at hopen
            cases hopen
          rw [Function.update_of_ne hne]
          exact hopen
        · rw [hframe, Frame.newConnection.injEq] at hframe'
          exact absurd hframe'.1.symm hdc
    · rw [hconnections, if_neg hinsert]
      rcases hs.standing d hd hfd with hopen | ⟨stage', hframe', hearly⟩
      · exact Or.inl hopen
      · rw [hframe, Frame.newConnection.injEq] at hframe'
        obtain ⟨rfl, rfl⟩ := hframe'
        refine Or.inr ⟨stage.next, ?_, ?_⟩
        · rw [statement_loops s c (by rintro rfl; cases hearly), setFrame_frame]
        · cases stage <;> simp [Stage.next, Stage.early] at hearly hinsert ⊢

theorem step_standing {s u : Server} {l : Label} (hs : s.Standing) (hopen : s.NothingCloses l)
    (h : step s l = some u) : u.Standing := by
  have hframes : ∀ L, (u.loops L).frame.closes = false := by
    intro L
    by_contra hframe
    rw [Bool.not_eq_false] at hframe
    have hbefore := step_closes h (fun res w hl c hc => ?_) hframe
    · rw [hs.frames L] at hbefore
      cases hbefore
    · subst hl
      exact hopen c hc
  have hrooted := step_rooted hs.rooted h
  have haccepted := step_accepted hs.accepted h
  have htable := step_tableOp hs.rooted.placed hs.rooted.known h
  by_cases hl : ∃ fd, l = .accept fd
  · obtain ⟨f, rfl⟩ := hl
    obtain ⟨rest, -, hready, hacceptable, rfl⟩ := accept_inv h
    have hidle : ∀ c stage, (s.loops 0).frame ≠ .newConnection c stage := by
      rw [hready.2.2.2]
      simp
    have hframe : (((s.takeActive 0 rest).accept f).loops 0).frame = .newConnection s.size .enableReading := by
      rw [accept_loops, setFrame_frame]
      rfl
    have hnew : ((s.takeActive 0 rest).accept f).fd s.size = f := by
      rw [fd, show s.size = (s.takeActive 0 rest).size from rfl, accept_new]
      rfl
    refine ⟨hrooted, hframes, haccepted, fun c stage hc _ hfd => ?_, fun c hc hfd => ?_⟩
    · rw [hframe, Frame.newConnection.injEq] at hc
      obtain ⟨rfl, rfl⟩ := hc
      rw [hnew] at hfd ⊢
      rw [accept_connections]
      exact (hacceptable.resolve_left (by omega)).2.2.1
    · rw [accept_size] at hc
      by_cases hsize : c = s.size
      · exact Or.inr ⟨.enableReading, hsize ▸ hframe, rfl⟩
      · have hold : ((s.takeActive 0 rest).accept f).fd c = s.fd c := by
          rw [fd, accept_old (s.takeActive 0 rest) f hsize]
          rfl
        rw [hold] at hfd
        have hlt : c < s.size := lt_of_le_of_ne (Nat.le_of_lt_succ hc) hsize
        rcases hs.standing c hlt hfd with hstands | ⟨stage, hstage, -⟩
        · refine Or.inl ?_
          rw [Open, hold, accept_connections]
          exact hstands
        · exact absurd hstage (hidle c stage)
  · have hfixed := step_fixed h fun fd hfd => hl ⟨fd, hfd⟩
    by_cases hstatement : l = .statement
    · subst hstatement
      obtain ⟨c, stage, hframe, -, rfl⟩ := statement_inv h
      obtain ⟨hentering, hstanding⟩ := hs.statement hframe
      refine ⟨hrooted, hframes, haccepted, fun d stage' hd hearly hfd => ?_, fun d hd hfd => ?_⟩
      · rw [hfixed.fd] at hfd ⊢
        exact hentering d stage' hd hearly hfd
      · rw [hfixed.fd] at hfd
        rw [Open, hfixed.fd]
        exact hstanding d (hfixed.size ▸ hd) hfd
    · rw [hs.tableOp hstatement] at htable
      have hback : ∀ c stage, (u.loops 0).frame = .newConnection c stage →
          (s.loops 0).frame = .newConnection c stage :=
        fun c stage => step_entered hs.rooted h hstatement fun fd hfd => hl ⟨fd, hfd⟩
      refine ⟨hrooted, hframes, haccepted, fun c stage hc hearly hfd => ?_, fun c hc hfd => ?_⟩
      · rw [hfixed.fd] at hfd ⊢
        rw [htable]
        exact hs.entering c stage (hback c stage hc) hearly hfd
      · rw [hfixed.fd] at hfd
        rw [Open, hfixed.fd, htable]
        rcases hs.standing c (hfixed.size ▸ hc) hfd with hopen | ⟨stage, hframe, hearly⟩
        · exact Or.inl hopen
        · exact Or.inr ⟨stage, (step_entering h hframe).resolve_left hstatement, hearly⟩

/-! ## Runs -/

/-- Where no peer hangs up, the server leaks no descriptor. -/
theorem run_descriptorsOwned {n : Nat} {user : Bool} {listenfd : Int} {address : ConnId → TcpConnection.Addr}
    {labels : List Label} {s : Server}
    (hopen : Machine.Meets step NothingCloses (init n user listenfd address) labels)
    (hrun : Machine.run step (init n user listenfd address) labels = some s) :
    s.DescriptorsOwned ((init n user listenfd address).completed labels) := by
  have hstart := init_standing n user listenfd address
  have hstanding : s.Standing :=
    Machine.run_invariant_of_meets (fun _ _ _ hs hl h => step_standing hs hl h) hstart hopen hrun
  have hnone : (init n user listenfd address).completed labels = [] :=
    Machine.outputs_nil (Machine.meets_of_meets (fun _ _ _ hs hl h => step_standing hs hl h)
      (fun t l ht _ => by rw [ht.completes l, Option.toList_none]) hstart hopen)
  intro f c hc hfd
  obtain ⟨hsize, heq⟩ := hstanding.accepted f c hc
  exact ⟨heq, hstanding.alive hsize (heq ▸ hfd), by rw [hnone]; exact List.not_mem_nil⟩

end Muduo.Server
