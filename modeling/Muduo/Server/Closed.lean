import Muduo.Server.Table
import Muduo.Server.Threads

/-! # Behind `handleClose`

Once `handleClose` has deleted a channel, no event reaches its connection.
-/

namespace Muduo.Server

/-- `handleClose` has begun. -/
def Closing (s : Server) (c : ConnId) : Prop := ∃ ready, .handler c .handleClose ready ∈ s.trace

/-- The channel is deleted, and no loop has an event of it left. -/
structure Closed (s : Server) (c : ConnId) : Prop where
  size : c < s.size
  deleted : s.Deleted c
  inactive : ∀ L, .conn c ∉ (s.loops L).active

/-- What only an event leads to. -/
def Obs.ofEvent (c : ConnId) : Obs → Bool
  | .handler d .handleClose _ | .callback d .onClose | .callback d .onMessage => d = c
  | _ => false

theorem Placed.unregistered {s : Server} (hs : s.Placed) {c : ConnId} (hdel : s.Deleted c) (L : Nat) (fd : Int)
    (e : Events) : s.interest L fd ≠ some (.conn c, e) :=
  fun he => (hs.interest L fd c e he).2.2 hdel

/-! ## One step -/

theorem Closed.stable {s u : Server} {c : ConnId} (hs : s.Closed c) (h : Stable s u) (hdel : u.Deleted c) :
    u.Closed c :=
  ⟨by rw [h.size]; exact hs.size, hdel, fun L => by rw [h.active]; exact hs.inactive L⟩

theorem Closed.mild {s u : Server} {c : ConnId} (hs : s.Closed c) (h : Mild s u) : u.Closed c :=
  hs.stable h.toStable (h.deleted c hs.deleted)

theorem Closed.setLoop {s : Server} {c : ConnId} (hs : s.Closed c) (L : Nat) {lp : Loop} (hlp : .conn c ∉ lp.active) :
    (s.setLoop L lp).Closed c := by
  refine ⟨hs.size, hs.deleted, fun M => ?_⟩
  by_cases hM : M = L
  · subst hM
    simpa [Server.setLoop] using hlp
  · simpa [Server.setLoop, hM] using hs.inactive M

theorem Closed.statement {s : Server} {c d : ConnId} (hs : s.Closed c) (stage : Stage) :
    (s.statement d stage).Closed c := by
  have hset : ∀ tcp : TcpConnection,
      (tcp.pSocketChannel.index = .kDeleted ↔ (s.conn d).tcp.pSocketChannel.index = .kDeleted) →
      (s.setTcp d tcp).Deleted c := by
    intro tcp hindex
    by_cases hd : c = d
    · subst hd
      simpa [Deleted, setTcp, setConn] using hindex.mpr hs.deleted
    · simpa [Deleted, setTcp, setConn, hd] using hs.deleted
  refine hs.stable (s.statement_stable d stage) ?_
  cases stage with
  | enableReading => exact hset _ (TcpConnection.enableReading_keeps _).deleted
  | sharedPtr =>
    exact (s.setConn_mild d (k := { s.conn d with shared := true }) rfl (fun _ => rfl)
      (TcpConnection.Keeps.refl _)).deleted c hs.deleted
  | insert => exact hs.deleted
  | setUser =>
    simp only [Server.statement]
    split
    · exact hset (s.conn d).tcp.setUser Iff.rfl
    · exact hs.deleted
  | setUpLayerCloseCallback => exact hset (s.conn d).tcp.setUpLayerCloseCallback Iff.rfl
  | runInLoop =>
    simp only [Server.statement]
    split
    · exact (s.connectEstablished_mild 0 d _).deleted c hs.deleted
    · exact hs.deleted

theorem Closed.poll {s : Server} {c : ConnId} (hplaced : s.Placed) (hs : s.Closed c) {L : Nat}
    {events : List (Source × Events)} (hregistered : ∀ p ∈ events, s.Registered L p.1) :
    .conn c ∉ events.map Prod.fst := by
  intro hc
  obtain ⟨p, hp, hpc⟩ := List.mem_map.mp hc
  have hentry := hregistered p hp
  rw [hpc, Registered, Option.map_eq_some_iff] at hentry
  obtain ⟨⟨src, e⟩, hentry, rfl⟩ := hentry
  exact hplaced.unregistered hs.deleted L _ e hentry

theorem step_closed {s u : Server} {l : Label} {c : ConnId} (hrooted : s.Rooted) (hs : s.Closed c)
    (h : step s l = some u) : u.Closed c := by
  have hplaced := hrooted.placed
  cases l with
  | poll L events =>
    obtain ⟨⟨-, hregistered, -⟩, rfl⟩ := Machine.guard_some.mp h
    exact (hs.mild (s.setRevents_mild events)).setLoop L (hs.poll hplaced hregistered)
  | accept fd =>
    obtain ⟨rest, hactive, -, -, rfl⟩ := accept_inv h
    have hne : c ≠ s.size := Nat.ne_of_lt hs.size
    refine ⟨?_, ?_, fun L => ?_⟩
    · rw [accept_size]
      exact Nat.lt_succ_of_lt hs.size
    · rw [Deleted, accept_old (s.takeActive 0 rest) fd hne]
      exact hs.deleted
    · rw [accept_loops, setFrame_active]
      exact (hs.setLoop 0 fun hc => hs.inactive 0 (by rw [hactive]; exact List.mem_cons_of_mem _ hc)).inactive L
  | statement =>
    obtain ⟨d, stage, -, -, rfl⟩ := statement_inv h
    exact hs.statement stage
  | handle L res w =>
    obtain ⟨d, rest, hactive, -, hmoves⟩ := handle_moves h
    have hd := hplaced.active L d (by rw [hactive]; exact List.mem_cons_self)
    refine (hs.setLoop L fun hc => hs.inactive L ?_).mild (hmoves.mild hd.1)
    rw [hactive]
    exact List.mem_cons_of_mem _ hc
  | return_ L w =>
    obtain ⟨d, rest, hframe, -, -, rfl⟩ := return_inv h
    have hd := (hplaced.user L d rest hframe).1
    refine hs.stable (s.return_stable L d w rest) ?_
    have htest : ∀ {t : Server}, t.Deleted c → t.size = s.size → (t.testOut d w).Deleted c := fun {t} ht hsize =>
      (testOut_mild (fun _ => by rw [hsize]; exact hd) w).deleted c ht
    cases rest with
    | connected | established | completed => exact hs.deleted
    | read => exact htest (t := s.setFrame L .idle) hs.deleted rfl
    | closed called =>
      simp only [return_]
      split
      · exact htest (t := (s.removeConnection d).setFrame L .idle) hs.deleted rfl
      · exact htest (t := s.setFrame L .idle) hs.deleted rfl
  | act L a =>
    obtain ⟨arg, hcode, -, hL, hmay, rfl⟩ := act_inv h
    refine hs.mild (act_mild _ fun d message w ha => ?_)
    subst ha
    exact hrooted.known d (mayAct_alive hL hcode hmay.1)
  | foreign a =>
    obtain ⟨⟨-, hmay⟩, rfl⟩ := Machine.guard_some.mp h
    refine hs.mild (act_mild _ fun d message w ha => ?_)
    subst ha
    exact hrooted.known d (kept_alive hmay.1)
  | swap L =>
    obtain ⟨-, rfl⟩ := Machine.guard_some.mp h
    exact hs.setLoop L (hs.inactive L)
  | runFunctor L w =>
    obtain ⟨f, rest, hruns, -, rfl⟩ := runFunctor_inv h
    have htaken : (s.takeFunctor L f rest).Closed c := hs.setLoop L (hs.inactive L)
    cases f with
    | connectEstablished d => exact htaken.mild (connectEstablished_mild _ L d _)
    | bound d f => exact htaken.mild (bound_mild (takeFunctor_known hrooted.known hruns))
  | endBatch L =>
    obtain ⟨-, rfl⟩ := Machine.guard_some.mp h
    exact hs.setLoop L (hs.inactive L)

theorem Obs.ofEvent_by {o : Obs} {c : ConnId} {l : Label} (h : o.ofEvent c = true) (hby : o.By l) :
    c ∈ o.calls ∧ ∃ L res w, l = .handle L res w := by
  cases o with
  | accepted | consulted | functor => cases h
  | handler d k ready =>
    cases k with
    | handleRead | handleWrite => cases h
    | handleClose =>
      refine ⟨congrArg some (of_decide_eq_true h), ?_⟩
      cases l with
      | handle L res w => exact ⟨L, res, w, rfl⟩
      | poll | accept | statement | return_ | act | foreign | swap | runFunctor | endBatch => cases hby
  | callback d cb =>
    cases cb with
    | onConnection | onWriteComplate => cases h
    | onMessage | onClose =>
      refine ⟨congrArg some (of_decide_eq_true h), ?_⟩
      cases l with
      | handle L res w => exact ⟨L, res, w, rfl⟩
      | poll | accept | statement | return_ | act | foreign | swap | runFunctor | endBatch => cases hby

/-- From `s` to `u` nothing is shown that only an event of `c` leads to. -/
def Silent (c : ConnId) (s u : Server) : Prop := ∃ os, u.trace = s.trace ++ os ∧ ∀ o ∈ os, o.ofEvent c = false

theorem step_silent {s u : Server} {l : Label} (h : step s l = some u) (c : ConnId) : Silent c s u ∨
    ∃ L res w rest, l = .handle L res w ∧ (s.loops L).active = .conn c :: rest ∧
      u = (s.takeActive L rest).handleEvent L c res w := by
  obtain ⟨os, htrace, hos⟩ := step_shows h
  by_cases hsilent : ∀ o ∈ os, o.ofEvent c = false
  · exact Or.inl ⟨os, htrace, hsilent⟩
  · push Not at hsilent
    obtain ⟨o, ho, hevent⟩ := hsilent
    rw [Bool.ne_false_iff] at hevent
    obtain ⟨hc, L, res, w, rfl⟩ := Obs.ofEvent_by hevent (hos o ho)
    obtain ⟨d, rest, hactive, hready, rfl⟩ := handle_inv h
    obtain ⟨os', htrace', hcalls⟩ :=
      (handleEvent_moves (s.takeActive L rest) (L := L) (by simpa using hready.2.2.2) d res w).calls
    obtain rfl : os = os' := List.append_cancel_left (htrace.symm.trans htrace')
    obtain rfl := hcalls o ho c hc
    exact Or.inr ⟨L, res, w, rest, rfl, hactive, rfl⟩

/-! ## `handleClose` -/

/-- `handleClose` and `onClose` are called once at most, and no `onMessage` comes behind them. -/
def Obs.ClosesOnce (c : ConnId) : List Obs → Prop :=
  Machine.ClosesOnce (· = .callback c .onMessage) (fun o => ∃ ready, o = .handler c .handleClose ready)
    (· = .callback c .onClose)

theorem Obs.not_ofEvent {o : Obs} {c : ConnId} : o.ofEvent c = false ↔
    o ≠ .callback c .onMessage ∧ (¬ ∃ ready, o = .handler c .handleClose ready) ∧ o ≠ .callback c .onClose := by
  cases o with
  | accepted | consulted | functor => simp [ofEvent]
  | handler d k ready => cases k <;> simp [ofEvent]
  | callback d cb => cases cb <;> simp [ofEvent]

/-- What a step does to the history of `c`. -/
abbrev Settles (c : ConnId) : Server → Server → Prop :=
  Machine.Settles (· = .callback c .onMessage) (fun o => ∃ ready, o = .handler c .handleClose ready)
    (· = .callback c .onClose) Server.trace (Closed · c)

theorem Deleted.of_handleClose (s : Server) (L : Nat) (c : ConnId) : (s.handleClose L c).Deleted c := by
  have hdel := s.disableChannel_deleted c
  rw [handleClose_eq]
  split
  · split
    · exact hdel
    · exact hdel
  · exact hdel

theorem moves_silent {c : ConnId} {s u : Server} (h : host.Moves c s u) : Silent c s u := by
  induction h with
  | refl => exact ⟨[], by simp, by simp⟩
  | tail _ hmove ih =>
    obtain ⟨os, htrace, hos⟩ := ih
    rename_i t u _
    have hsnoc : ∀ {o : Obs}, u.trace = t.trace ++ [o] → o.ofEvent c = false → Silent c s u := by
      intro o hv ho
      refine ⟨os ++ [o], by rw [hv, htrace, List.append_assoc], fun p hp => ?_⟩
      rcases List.mem_append.mp hp with hp | hp
      · exact hos p hp
      · rwa [List.mem_singleton.mp hp]
    cases hmove with
    | consult => exact hsnoc rfl rfl
    | read => exact hsnoc rfl rfl
    | write => exact hsnoc (called_quiet _ c _).trace rfl

theorem handleEvent_grows (s : Server) (L : Nat) (c : ConnId) (res : Buffer.ReadResult) (w : WriteResult) :
    ∃ os, (s.handleEvent L c res w).trace = s.trace ++ os ∧ Obs.ClosesOnce c os ∧
      ((∃ o ∈ os, ∃ ready, o = .handler c .handleClose ready) → (s.handleEvent L c res w).Deleted c) := by
  obtain ⟨v, hhost, hevent⟩ := host.handleEvent_cases s L c res w
  obtain ⟨os, htrace, hos⟩ := moves_silent hhost
  have hsilent : Obs.ClosesOnce c os := Machine.closesOnce_open fun o ho => (Obs.not_ofEvent.mp (hos o ho)).2
  have hbehind : ∀ {u : Server} {ps : List Obs}, u.trace = v.trace ++ ps → Obs.ClosesOnce c ps →
      ((∃ o ∈ ps, ∃ ready, o = .handler c .handleClose ready) → u.Deleted c) →
      ∃ os, u.trace = s.trace ++ os ∧ Obs.ClosesOnce c os ∧
        ((∃ o ∈ os, ∃ ready, o = .handler c .handleClose ready) → u.Deleted c) := by
    intro u ps hu honce hdel
    refine ⟨os ++ ps, by rw [hu, htrace, List.append_assoc], hsilent.append honce fun o ho hbegins => ?_, ?_⟩
    · exact absurd hbegins (Obs.not_ofEvent.mp (hos o ho)).2.1
    · rintro ⟨o, ho, hbegins⟩
      rcases List.mem_append.mp ho with ho | ho
      · exact absurd hbegins (Obs.not_ofEvent.mp (hos o ho)).2.1
      · exact hdel ⟨o, ho, hbegins⟩
  unfold handleEvent
  generalize host.handleEvent s L c res w = u at hevent ⊢
  cases hevent with
  | nothing => exact hbehind (List.append_nil _).symm (Machine.closesOnce_open (by simp)) (by simp)
  | onMessage halive hread =>
    refine hbehind (onMessage_trace (v.setTcp c _) L c) (Machine.closesOnce_open fun o ho => ?_) ?_
    · split at ho
      · simp [List.mem_singleton.mp ho]
      · cases ho
    · rintro ⟨o, ho, ready, rfl⟩
      split at ho <;> simp at ho
  | close halive hcloses =>
    refine hbehind (v.handleClose_trace L c) ?_ fun _ => Deleted.of_handleClose v L c
    have hbegins : ∀ {os : List Obs}, ∃ p ∈ .handler c .handleClose (v.ready c) :: os,
        ∃ ready, p = .handler c .handleClose ready := ⟨_, List.mem_cons_self, _, rfl⟩
    split
    · exact ⟨List.pairwise_pair.mpr (by simp), fun _ _ _ => hbegins⟩
    · exact ⟨List.pairwise_singleton _ _, fun _ _ _ => hbegins⟩

/-! ## Runs -/

theorem step_settles {s u : Server} {l : Label} (hrooted : s.Rooted) (c : ConnId) (h : step s l = some u) :
    Settles c s u := by
  rcases step_silent h c with ⟨os, htrace, hos⟩ | ⟨L, res, w, rest, rfl, hactive, rfl⟩
  · exact .silent (fun hs => step_closed hrooted hs h) ⟨os, htrace, fun o ho => Obs.not_ofEvent.mp (hos o ho)⟩
  · have hassigned := fun M => hrooted.placed.active M c
    have hc : s.Assigned L c := hassigned L (by rw [hactive]; exact List.mem_cons_self)
    have hopen : ¬ s.Closed c := fun hs => hs.inactive L (by rw [hactive]; exact List.mem_cons_self)
    obtain ⟨os, htrace, honce, hdel⟩ := handleEvent_grows (s.takeActive L rest) L c res w
    refine ⟨fun hs => absurd hs hopen, os, htrace, honce, fun hbegins => ?_, fun hs => absurd hs hopen⟩
    obtain ⟨d, rest', hactive', -, hmoves⟩ := handle_moves h
    obtain ⟨rfl, rfl⟩ : d = c ∧ rest' = rest := by simpa using hactive'.symm.trans hactive
    refine ⟨by rw [hmoves.stable.size]; exact hc.1, hdel hbegins, fun M hM => ?_⟩
    rw [hmoves.stable.active] at hM
    by_cases hL : M = L
    · subst hL
      have hnodup := hrooted.placed.nodup M
      rw [hactive] at hnodup
      rw [takeActive_loop] at hM
      exact (List.nodup_cons.mp hnodup).1 hM
    · simp only [takeActive, setLoop, Function.update_of_ne hL] at hM
      exact hL ((hassigned M hM).2.trans hc.2.symm)

/-- `c` is out of epoll, no event of it has been handled since `s`, and it was closed once. -/
structure StaysClosed (s u : Server) (c : ConnId) : Prop where
  unregistered : ∀ L fd e, u.interest L fd ≠ some (.conn c, e)
  silent : ∀ o ∈ u.trace.drop s.trace.length, o.ofEvent c = false
  once : Obs.ClosesOnce c u.trace

theorem run_staysClosed {n : Nat} {user : Bool} {listenfd : Int} {address : ConnId → TcpConnection.Addr}
    {labels later : List Label} {s u : Server}
    (hrun : Machine.run step (init n user listenfd address) labels = some s) {c : ConnId} (hc : s.Closing c)
    (hlater : Machine.run step s later = some u) : s.StaysClosed u c := by
  obtain ⟨ready, hmem⟩ := hc
  obtain ⟨hrooted, hclosed, hsilent, honce⟩ := Machine.run_settles (C := fun _ _ => True)
    (fun _ _ _ ht _ hstep => step_rooted ht hstep) (fun _ _ _ ht _ hstep => step_settles ht c hstep)
    (init_rooted n user listenfd address) rfl (fun _ _ _ _ _ => trivial) hrun ⟨_, hmem, ready, rfl⟩ hlater
  exact ⟨hrooted.placed.unregistered hclosed.deleted, fun o ho => Obs.not_ofEvent.mpr (hsilent o ho), honce⟩

end Muduo.Server
