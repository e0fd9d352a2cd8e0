import Muduo.Server.Release
import Muduo.Server.Trace

/-! # What a loop knows of

Epoll, the ready channels, the queues and the callbacks of a loop belong to connections of that loop.
-/

namespace Muduo.Server

def Queued.conn : Queued → ConnId
  | .connectEstablished c | .bound c _ => c

/-- `c` has been made, and `newConnection` gave it to loop `L`. -/
def Assigned (s : Server) (L : Nat) (c : ConnId) : Prop := c < s.size ∧ L = (s.conn c).loop

structure Placed (s : Server) : Prop where
  interest : ∀ L fd c e, s.interest L fd = some (.conn c, e) → s.Assigned L c ∧
    (s.conn c).tcp.pSocketChannel.sockfd = fd ∧ (s.conn c).tcp.pSocketChannel.index ≠ .kDeleted
  active : ∀ L c, .conn c ∈ (s.loops L).active → s.Assigned L c
  nodup : ∀ L, (s.loops L).active.Nodup
  functors : ∀ L q, q ∈ (s.loops L).tempRuns ∨ q ∈ (s.loops L).pendingFunctors → s.Assigned L q.conn
  user : ∀ L c rest, (s.loops L).frame = .user c rest → c < s.size ∧ (rest ≠ .completed → L = (s.conn c).loop)
  entering : ∀ L c stage, (s.loops L).frame = .newConnection c stage → c < s.size

theorem init_placed (n : Nat) (user : Bool) (listenfd : Int) (address : ConnId → TcpConnection.Addr) :
    (init n user listenfd address).Placed where
  interest := by
    intro L fd c e h
    simp only [init] at h
    split at h <;> cases h
  active := fun _ _ h => by simp [init, idleLoop] at h
  nodup := fun _ => List.nodup_nil
  functors := fun _ _ h => by simp [init, idleLoop] at h
  user := fun _ _ _ h => by simp [init, idleLoop] at h
  entering := fun _ _ _ h => by simp [init, idleLoop] at h

/-! ## Parts of a step -/

theorem Fixed.assigned {s u : Server} (h : Fixed s u) (L : Nat) (c : ConnId) : u.Assigned L c ↔ s.Assigned L c := by
  rw [Assigned, Assigned, h.size, h.loop]

/-- What a part of a step adds to the frames and the queues. `onWriteComplate` may be called for a connection of
another loop, by a functor whose own connection is gone. -/
structure Adds (s u : Server) : Prop extends Fixed s u where
  frame : ∀ L, (u.loops L).frame = (s.loops L).frame ∨ (u.loops L).frame = .idle ∨
    ∃ c rest, (u.loops L).frame = .user c rest ∧ c < s.size ∧ (rest ≠ .completed → L = (s.conn c).loop)
  pending : ∀ L q, q ∈ (u.loops L).pendingFunctors → q ∈ (s.loops L).pendingFunctors ∨ s.Assigned L q.conn

theorem Fixed.adds {s u : Server} (h : Fixed s u) (hloops : u.loops = s.loops) : Adds s u :=
  ⟨h, fun _ => Or.inl (by rw [hloops]), fun _ _ hq => Or.inl (by rwa [hloops] at hq)⟩

theorem Adds.trans {s t u : Server} (h : Adds s t) (k : Adds t u) : Adds s u where
  toFixed := h.toFixed.trans k.toFixed
  frame := fun L => by
    rcases k.frame L with heq | hidle | ⟨c, rest, hframe, hc⟩
    · rw [heq]
      exact h.frame L
    · exact Or.inr (Or.inl hidle)
    · rw [h.size, h.loop] at hc
      exact Or.inr (Or.inr ⟨c, rest, hframe, hc⟩)
  pending := fun L q hq => by
    rcases k.pending L q hq with hq | hq
    · exact h.pending L q hq
    · exact Or.inr ((h.toFixed.assigned L _).mp hq)

theorem Placed.mild {s u : Server} (hs : s.Placed) (h : Mild s u) (hadds : Adds s u) : u.Placed where
  interest := by
    intro L fd c e he
    rw [h.toFixed.assigned, h.channelfd]
    rcases h.interest L fd _ he with hold | ⟨-, d, hd, hL, hfd, hsize, hindex⟩
    · obtain ⟨hc, hfd, hindex⟩ := hs.interest L fd c e hold
      refine ⟨hc, hfd, fun hdel => ?_⟩
      refine ((h.unregistered c hdel).resolve_left hindex) e ?_
      rw [← hc.2, hfd]
      exact he
    · obtain rfl : c = d := by simpa using hd
      refine ⟨⟨hsize, hL⟩, hfd, fun hdel => ?_⟩
      refine ((h.unregistered c hdel).resolve_left hindex) e ?_
      rw [← hL, hfd]
      exact he
  active := fun L c hc => by
    rw [h.active] at hc
    exact (h.toFixed.assigned L c).mpr (hs.active L c hc)
  nodup := fun L => by
    rw [h.active]
    exact hs.nodup L
  functors := fun L q hq => by
    rw [h.toFixed.assigned]
    rcases hq with hq | hq
    · rw [h.tempRuns] at hq
      exact hs.functors L q (Or.inl hq)
    · exact (hadds.pending L q hq).elim (fun hq => hs.functors L q (Or.inr hq)) id
  user := fun L c rest hframe => by
    rw [h.size, h.loop]
    rcases hadds.frame L with heq | hidle | ⟨d, rest', hframe', hd⟩
    · exact hs.user L c rest (heq ▸ hframe)
    · rw [hidle] at hframe
      cases hframe
    · rw [hframe'] at hframe
      cases hframe
      exact hd
  entering := fun L c stage hframe => by
    rw [h.size]
    rcases hadds.frame L with heq | hidle | ⟨d, rest, hframe', -⟩
    · exact hs.entering L c stage (heq ▸ hframe)
    · rw [hidle] at hframe
      cases hframe
    · rw [hframe'] at hframe
      cases hframe

theorem Placed.setLoop {s : Server} (hs : s.Placed) (L : Nat) {lp : Loop}
    (hactive : ∀ c, .conn c ∈ lp.active → s.Assigned L c) (hnodup : lp.active.Nodup)
    (hfunctors : ∀ q, q ∈ lp.tempRuns ∨ q ∈ lp.pendingFunctors → s.Assigned L q.conn)
    (huser : ∀ c rest, lp.frame = .user c rest → c < s.size ∧ (rest ≠ .completed → L = (s.conn c).loop))
    (hentering : ∀ c stage, lp.frame = .newConnection c stage → c < s.size) : (s.setLoop L lp).Placed := by
  have hloop : ∀ M, (s.setLoop L lp).loops M = if M = L then lp else s.loops M := fun M => by
    by_cases hM : M = L
    · simp [Server.setLoop, hM]
    · simp [Server.setLoop, hM]
  refine ⟨hs.interest, fun M c hc => ?_, fun M => ?_, fun M q hq => ?_, fun M c rest hframe => ?_,
    fun M c stage hframe => ?_⟩
  · rw [hloop] at hc
    split at hc
    · rename_i hM
      exact hM ▸ hactive c hc
    · exact hs.active M c hc
  · rw [hloop]
    split
    · exact hnodup
    · exact hs.nodup M
  · rw [hloop] at hq
    split at hq
    · rename_i hM
      exact hM ▸ hfunctors q hq
    · exact hs.functors M q hq
  · rw [hloop] at hframe
    split at hframe
    · rename_i hM
      exact hM ▸ huser c rest hframe
    · exact hs.user M c rest hframe
  · rw [hloop] at hframe
    split at hframe
    · exact hentering c stage hframe
    · exact hs.entering M c stage hframe

theorem Placed.setFrame {s : Server} (hs : s.Placed) (L : Nat) {frame : Frame}
    (huser : ∀ c rest, frame = .user c rest → c < s.size ∧ (rest ≠ .completed → L = (s.conn c).loop))
    (hentering : ∀ c stage, frame = .newConnection c stage → c < s.size) : (s.setFrame L frame).Placed :=
  hs.setLoop L (hs.active L) (hs.nodup L) (hs.functors L) huser hentering

theorem Placed.congr {s u : Server} (hs : s.Placed) (hsize : u.size = s.size) (hinterest : u.interest = s.interest)
    (hloops : u.loops = s.loops) (hloop : ∀ c, (u.conn c).loop = (s.conn c).loop)
    (hchannel : ∀ c, (u.conn c).tcp.pSocketChannel = (s.conn c).tcp.pSocketChannel) : u.Placed := by
  have hassigned : ∀ L c, u.Assigned L c ↔ s.Assigned L c := fun L c => by rw [Assigned, Assigned, hsize, hloop]
  refine ⟨fun L fd c e he => ?_, fun L c hc => ?_, fun L => ?_, fun L q hq => ?_, fun L c rest hframe => ?_,
    fun L c stage hframe => ?_⟩
  · rw [hassigned, hchannel]
    exact hs.interest L fd c e (hinterest ▸ he)
  · rw [hassigned]
    exact hs.active L c (hloops ▸ hc)
  · rw [hloops]
    exact hs.nodup L
  · rw [hassigned]
    exact hs.functors L q (hloops ▸ hq)
  · rw [hsize, hloop]
    exact hs.user L c rest (hloops ▸ hframe)
  · rw [hsize]
    exact hs.entering L c stage (hloops ▸ hframe)

theorem Placed.queueInLoop {s : Server} (hs : s.Placed) {L : Nat} {q : Queued} (hq : s.Assigned L q.conn) :
    (s.queueInLoop L q).Placed :=
  hs.setLoop L (hs.active L) (hs.nodup L)
    (fun p hp => by
      rcases hp with hp | hp
      · exact hs.functors L p (Or.inl hp)
      · rcases List.mem_append.mp hp with hp | hp
        · exact hs.functors L p (Or.inr hp)
        · exact List.mem_singleton.mp hp ▸ hq)
    (hs.user L) (hs.entering L)

/-! ## Calls -/

theorem observe_adds (s : Server) (o : Obs) : Adds s (s.observe o) := (s.observe_stable o).toFixed.adds rfl

theorem crash_adds (s : Server) (b : Bool) : Adds s { s with crashed := b } :=
  Fixed.adds ⟨rfl, rfl, rfl, rfl, rfl, rfl, fun _ => rfl, fun _ => rfl⟩ rfl

theorem setTcp_adds (s : Server) (c : ConnId) (tcp : TcpConnection) (hfd : tcp.sockfd = s.fd c) :
    Adds s (s.setTcp c tcp) := (s.setTcp_stable c tcp hfd).toFixed.adds rfl

theorem setFrame_adds (s : Server) {L : Nat} {c : ConnId} {rest : Rest} (hsize : c < s.size)
    (hloop : rest ≠ .completed → L = (s.conn c).loop) : Adds s (s.setFrame L (.user c rest)) where
  toFixed := (s.setFrame_stable L _).toFixed
  frame := fun M => by
    by_cases hM : M = L
    · subst hM
      exact Or.inr (Or.inr ⟨c, rest, setFrame_frame s M _, hsize, hloop⟩)
    · exact Or.inl (by rw [setFrame_loop, if_neg hM])
  pending := fun M q hq => Or.inl (by simpa using hq)

theorem idle_adds (s : Server) (L : Nat) : Adds s (s.setFrame L .idle) where
  toFixed := (s.setFrame_stable L _).toFixed
  frame := fun M => by
    by_cases hM : M = L
    · subst hM
      exact Or.inr (Or.inl (setFrame_frame s M _))
    · exact Or.inl (by rw [setFrame_loop, if_neg hM])
  pending := fun M q hq => Or.inl (by simpa using hq)

theorem queueInLoop_adds (s : Server) {L : Nat} {q : Queued} (hq : s.Assigned L q.conn) :
    Adds s (s.queueInLoop L q) where
  toFixed := (s.queueInLoop_stable L q).toFixed
  frame := fun M => Or.inl (s.queueInLoop_frame L M q)
  pending := fun M p hp => by
    by_cases hM : M = L
    · subst hM
      simp only [queueInLoop, Server.setLoop, Function.update_self, List.mem_append, List.mem_singleton] at hp
      refine hp.imp_right ?_
      rintro rfl
      exact hq
    · simp only [queueInLoop, Server.setLoop, Function.update_of_ne hM] at hp
      exact Or.inl hp

theorem effect_adds {s : Server} {c : ConnId} (hsize : c < s.size) (e : Effect) : Adds s (effect c s e) := by
  cases e with
  | write data w => exact (Stable.refl s).toFixed.adds rfl
  | queueInLoop f => exact s.queueInLoop_adds (q := .bound c f) ⟨hsize, rfl⟩
  | epollCtl ctl => exact (s.control_stable c ctl).toFixed.adds rfl

theorem effects_adds {s : Server} {c : ConnId} (hsize : c < s.size) (effects : List Effect) :
    Adds s (effects.foldl (effect c) s) := by
  induction effects generalizing s with
  | nil => exact (Stable.refl s).toFixed.adds rfl
  | cons e effects ih =>
    have hone := effect_adds hsize e
    exact hone.trans (ih (by rw [hone.size]; exact hsize))

theorem called_adds {s : Server} {c : ConnId} (hsize : c < s.size) {call : Call} (hfd : call.conn.sockfd = s.fd c) :
    Adds s (s.called c call) :=
  (s.setTcp_adds c call.conn hfd).trans (effects_adds (s := s.setTcp c call.conn) hsize call.effects)

theorem act_adds {s : Server} (thread : Option Nat) {a : Act}
    (hsize : ∀ c message w, a = .send c message w → c < s.size) : Adds s (s.act thread a) := by
  have hfixed := (s.act_stable thread a).toFixed
  cases a with
  | send c message w =>
    have hc := hsize c message w rfl
    simp only [act]
    split
    · exact called_adds hc (sockfd_sendInLoop _ message w)
    · exact s.queueInLoop_adds (q := .bound c (.onMessageCB message)) ⟨hc, rfl⟩
  | keep c => exact hfixed.adds rfl
  | drop c => exact hfixed.adds rfl

theorem testOut_adds {s : Server} {c : ConnId} (hsize : s.alive c = true → c < s.size) (w : WriteResult) :
    Adds s (s.testOut c w) := by
  rw [testOut_eq]
  split
  · rename_i h
    rw [Bool.and_eq_true] at h
    exact (s.observe_adds _).trans ((observe_adds _ _).trans
      (called_adds (s := (s.observe _).observe _) (hsize h.1) (sockfd_handleWrite _ w)))
  · exact s.observe_adds _

theorem callFunctor_adds {s : Server} {c : ConnId} (hsize : c < s.size) (L : Nat) (w : WriteResult) (f : Functor) :
    Adds s (s.callFunctor L c w f) := by
  cases f with
  | onWriteComplateCB =>
    rw [callFunctor_completed]
    split
    · exact (s.setFrame_adds hsize fun hne => absurd rfl hne).trans (observe_adds _ _)
    · exact (Stable.refl s).toFixed.adds rfl
  | onMessageCB message => exact (called_adds hsize (sockfd_sendInLoop _ message w)).trans (crash_adds _ _)

theorem bound_adds {s : Server} (hknown : ∀ d, s.alive d = true → d < s.size) (L : Nat) (w : WriteResult) (c : ConnId)
    (f : Functor) : Adds s (s.runFunctor L w (.bound c f)) := by
  have hobserve := s.observe_adds (.functor c f (s.alive c))
  rcases s.runFunctor_bound L w c f with ⟨d, hd, heq⟩ | ⟨-, heq⟩
  · rw [heq]
    exact hobserve.trans (callFunctor_adds (s := s.observe _) (hknown d (pointee_alive hd)) L w f)
  · rw [heq]
    exact hobserve.trans (crash_adds _ _)

theorem Move.adds {L : Nat} {c : ConnId} {t u : Server} (h : Move L c t u) (hc : t.Assigned L c) : Adds t u := by
  cases h with
  | consult => exact t.observe_adds _
  | read => exact t.observe_adds _
  | onMessage halive hidle hread =>
    have hset := t.setTcp_adds c _ (handleRead_sockfd hread)
    refine hset.trans ?_
    rw [onMessage_eq]
    split
    · have hc' := (hset.toFixed.assigned L c).mpr hc
      exact (setFrame_adds _ hc'.1 fun _ => hc'.2).trans (observe_adds _ _)
    · exact crash_adds _ _
  | close halive hidle =>
    have hset : Adds t (t.disableChannel c) := (t.disableChannel_stable c).toFixed.adds rfl
    have hc' := (hset.toFixed.assigned L c).mpr hc
    refine hset.trans ?_
    rw [handleClose_eq]
    split
    · split
      · exact (setFrame_adds _ hc'.1 fun _ => hc'.2).trans (observe_adds _ _)
      · exact setFrame_adds _ hc'.1 fun _ => hc'.2
    · exact crash_adds _ _
  | write halive => exact (t.observe_adds _).trans (called_adds (s := t.observe _) hc.1 (sockfd_handleWrite _ _))

theorem Moves.adds {L : Nat} {c : ConnId} {s u : Server} (h : Moves L c s u) (hc : s.Assigned L c) : Adds s u :=
  moves_invariant (I := Adds s) h ((Stable.refl s).toFixed.adds rfl) fun _ _ ht hmove =>
    ht.trans (hmove.adds ((ht.toFixed.assigned L c).mpr hc))

theorem Moves.mild {L : Nat} {c : ConnId} {s u : Server} (h : Moves L c s u) (hsize : c < s.size) : Mild s u := by
  refine moves_invariant (I := Mild s) h (Mild.refl s) fun t v ht hmove => ht.trans (hmove.mild fun _ => ?_)
  rw [ht.size]
  exact hsize

/-! ## Steps -/

theorem Placed.takeActive {s : Server} (hs : s.Placed) {L : Nat} {src : Source} {rest : List Source}
    (hactive : (s.loops L).active = src :: rest) : (s.takeActive L rest).Placed := by
  have hnodup := hs.nodup L
  rw [hactive] at hnodup
  exact hs.setLoop L (fun c hc => hs.active L c (by rw [hactive]; exact List.mem_cons_of_mem _ hc))
    (List.nodup_cons.mp hnodup).2 (hs.functors L) (hs.user L) (hs.entering L)

theorem Placed.takeFunctor {s : Server} (hs : s.Placed) {L : Nat} {f : Queued} {rest : List Queued}
    (hruns : (s.loops L).tempRuns = f :: rest) : (s.takeFunctor L f rest).Placed :=
  hs.setLoop L (hs.active L) (hs.nodup L)
    (fun q hq => hs.functors L q (hq.imp_left fun hq => by rw [hruns]; exact List.mem_cons_of_mem _ hq))
    (hs.user L) (hs.entering L)

theorem Placed.poll {s : Server} (hs : s.Placed) {L : Nat} {events : List (Source × Events)}
    (hregistered : ∀ p ∈ events, s.Registered L p.1) (hnodup : (events.map Prod.fst).Nodup) :
    ((s.setRevents events).setLoop L
      { s.loops L with phase := .handling, active := events.map Prod.fst }).Placed := by
  have hmild := s.setRevents_mild events
  have hset : (s.setRevents events).Placed := hs.mild hmild (hmild.toFixed.adds (s.setRevents_loops events))
  have hassigned := hmild.toFixed.assigned L
  refine hset.setLoop L (fun c hc => ?_) hnodup (fun q hq => (hassigned _).mpr (hs.functors L q hq))
    (fun c rest hframe => ?_) fun c stage hframe => ?_
  · obtain ⟨p, hp, hpc⟩ := List.mem_map.mp hc
    have hentry := hregistered p hp
    rw [hpc, Registered, Option.map_eq_some_iff] at hentry
    obtain ⟨⟨src, e⟩, hentry, rfl⟩ := hentry
    exact (hassigned c).mpr (hs.interest L _ c e hentry).1
  · rw [hmild.size, hmild.loop]
    exact hs.user L c rest hframe
  · rw [hmild.size]
    exact hs.entering L c stage hframe

theorem Placed.accept {s : Server} (hs : s.Placed) (fd : Int) :
    (s.accept fd).Placed := by
  have hassigned : ∀ L c, s.Assigned L c → (s.accept fd).Assigned L c := by
    rintro L c ⟨hsize, hL⟩
    rw [Assigned, accept_size, accept_old s fd (Nat.ne_of_lt hsize)]
    exact ⟨Nat.lt_succ_of_lt hsize, hL⟩
  refine ⟨fun L fd' c e he => ?_, fun L c hc => ?_, fun L => ?_, fun L q hq => ?_, fun L c rest hframe => ?_,
    fun L c stage hframe => ?_⟩
  · rw [accept_interest] at he
    obtain ⟨hc, hchannel⟩ := hs.interest L fd' c e he
    rw [accept_old s fd (Nat.ne_of_lt hc.1)]
    exact ⟨hassigned L c hc, hchannel⟩
  · rw [accept_loops, setFrame_active] at hc
    exact hassigned L c (hs.active L c hc)
  · rw [accept_loops, setFrame_active]
    exact hs.nodup L
  · rw [accept_loops, setFrame_tempRuns, setFrame_pendingFunctors] at hq
    exact hassigned L _ (hs.functors L q hq)
  · rw [accept_loops, setFrame_loop] at hframe
    simp only at hframe
    split at hframe
    · cases hframe
    · obtain ⟨hsize, hloop⟩ := hs.user L c rest hframe
      rw [accept_size, accept_old s fd (Nat.ne_of_lt hsize)]
      exact ⟨Nat.lt_succ_of_lt hsize, hloop⟩
  · rw [accept_size]
    rw [accept_loops, setFrame_loop] at hframe
    simp only at hframe
    split at hframe
    · cases hframe
      exact Nat.lt_succ_self _
    · exact Nat.lt_succ_of_lt (hs.entering L c stage hframe)

theorem connectEstablished_adds {s : Server} {L : Nat} {c : ConnId} (hc : s.Assigned L c) (rest : Rest) :
    Adds s (s.connectEstablished L c rest) := by
  unfold connectEstablished
  split
  · exact (s.setFrame_adds hc.1 fun _ => hc.2).trans (observe_adds _ _)
  · exact s.idle_adds L

theorem connectEstablished_mild (s : Server) (L : Nat) (c : ConnId) (rest : Rest) :
    Mild s (s.connectEstablished L c rest) := by
  unfold connectEstablished
  split
  · exact (s.setFrame_mild L _).trans (observe_mild _ _)
  · exact s.setFrame_mild L _

theorem Placed.statement {s : Server} (hs : s.Placed) {c : ConnId} (hsize : c < s.size) (stage : Stage) :
    (s.statement c stage).Placed := by
  have hnext : ∀ {t : Server}, t.Placed → t.size = s.size →
      ∀ next, (t.setFrame 0 (.newConnection c next)).Placed := by
    intro t ht hsame next
    refine ht.setFrame 0 (fun d rest hframe => ?_) fun d stage hframe => ?_
    · cases hframe
    · cases hframe
      exact hsame ▸ hsize
  -- What `setUser` and `setUpLayerCloseCallback` do leaves the channel alone.
  have hset : ∀ tcp : TcpConnection, tcp.sockfd = s.fd c → tcp.pSocketChannel = (s.conn c).tcp.pSocketChannel →
      (s.setTcp c tcp).Placed := by
    intro tcp hfd hchannel
    refine hs.congr rfl rfl rfl (s.setTcp_stable c tcp hfd).loop fun d => ?_
    by_cases hd : d = c
    · subst hd
      simpa [setTcp, setConn] using hchannel
    · simp [setTcp, setConn, hd]
  cases stage with
  | enableReading =>
    have hkeeps := (s.conn c).tcp.enableReading_keeps
    have hset := s.setTcp_mild c _ hkeeps
    have hcontrol : Mild (s.setTcp c (s.conn c).tcp.enableReading.1)
        ((s.setTcp c (s.conn c).tcp.enableReading.1).control c (s.conn c).tcp.enableReading.2) :=
      control_mild (by rw [hset.size]; exact hsize) (by rw [hset.channelfd]; exact (Channel.update_ctl _).1)
        (fun hdel => by
          simp only [setTcp, setConn, Function.update_self] at hdel
          exact (Channel.update_ctl _).2 (hkeeps.deleted.mp hdel))
    exact hnext (hs.mild (hset.trans hcontrol) ((hset.trans hcontrol).toFixed.adds rfl)) rfl _
  | sharedPtr =>
    have hmild := s.setConn_mild c (k := { s.conn c with shared := true }) rfl (fun _ => rfl)
      (TcpConnection.Keeps.refl _)
    exact hnext (hs.mild hmild (hmild.toFixed.adds rfl)) rfl _
  | insert =>
    have hinsert : Placed { s with connections := Function.update s.connections (s.fd c) (some c) } :=
      hs.congr rfl rfl rfl (fun _ => rfl) fun _ => rfl
    exact hnext hinsert rfl _
  | setUser =>
    simp only [Server.statement]
    split
    · exact hnext (hset (s.conn c).tcp.setUser rfl rfl) rfl _
    · exact hnext hs rfl _
  | setUpLayerCloseCallback => exact hnext (hset (s.conn c).tcp.setUpLayerCloseCallback rfl rfl) rfl _
  | runInLoop =>
    simp only [Server.statement]
    split
    · rename_i hloop
      exact hs.mild (s.connectEstablished_mild 0 c _) (connectEstablished_adds ⟨hsize, hloop.symm⟩ _)
    · exact (hs.queueInLoop (q := .connectEstablished c) ⟨hsize, rfl⟩).setFrame 0 (fun _ _ h => by cases h)
        fun _ _ h => by cases h

theorem Placed.return_ {s : Server} (hs : s.Placed) {L : Nat} {c : ConnId} {rest : Rest}
    (hframe : (s.loops L).frame = .user c rest) (w : WriteResult) : (s.return_ L c w rest).Placed := by
  have hidle : ∀ {t : Server}, t.Placed → (t.setFrame L .idle).Placed := fun ht =>
    ht.setFrame L (fun _ _ h => by cases h) fun _ _ h => by cases h
  have hc := (hs.user L c rest hframe).1
  have htest : ∀ {t : Server}, t.Placed → t.size = s.size → (t.testOut c w).Placed := fun {t} ht hsize =>
    ht.mild (testOut_mild (fun _ => by rw [hsize]; exact hc) w) (testOut_adds (fun _ => by rw [hsize]; exact hc) w)
  cases rest with
  | connected | established | completed => exact hidle hs
  | read => exact htest (hidle hs) rfl
  | closed called =>
    have hremoved : (s.removeConnection c).Placed := hs.congr rfl rfl rfl (fun _ => rfl) fun _ => rfl
    simp only [Server.return_]
    split
    · exact htest (hidle hremoved) rfl
    · exact htest (hidle hs) rfl

theorem step_placed {s u : Server} {l : Label} (hs : s.Placed) (hknown : ∀ c, s.alive c = true → c < s.size)
    (h : step s l = some u) : u.Placed := by
  cases l with
  | poll L events =>
    obtain ⟨⟨-, hregistered, hnodup⟩, rfl⟩ := Machine.guard_some.mp h
    exact hs.poll hregistered hnodup
  | accept fd =>
    obtain ⟨rest, hactive, -, -, rfl⟩ := accept_inv h
    exact (hs.takeActive hactive).accept fd
  | statement =>
    obtain ⟨c, stage, hframe, -, rfl⟩ := statement_inv h
    exact hs.statement (hs.entering 0 c stage hframe) stage
  | handle L res w =>
    obtain ⟨c, rest, hactive, -, hmoves⟩ := handle_moves h
    have hc : (s.takeActive L rest).Assigned L c := hs.active L c (by rw [hactive]; exact List.mem_cons_self)
    exact (hs.takeActive hactive).mild (hmoves.mild hc.1) (hmoves.adds hc)
  | return_ L w =>
    obtain ⟨c, rest, hframe, -, -, rfl⟩ := return_inv h
    exact hs.return_ hframe w
  | act L a =>
    obtain ⟨arg, hcode, -, hL, hmay, rfl⟩ := act_inv h
    have hsize : ∀ c message w, a = .send c message w → c < s.size := by
      rintro c message w rfl
      exact hknown c (mayAct_alive hL hcode hmay.1)
    exact hs.mild (act_mild _ hsize) (act_adds _ hsize)
  | foreign a =>
    obtain ⟨⟨-, hmay⟩, rfl⟩ := Machine.guard_some.mp h
    have hsize : ∀ c message w, a = .send c message w → c < s.size := by
      rintro c message w rfl
      exact hknown c (kept_alive hmay.1)
    exact hs.mild (act_mild _ hsize) (act_adds _ hsize)
  | swap L =>
    obtain ⟨⟨hready, -⟩, rfl⟩ := Machine.guard_some.mp h
    exact hs.setLoop L (hs.active L) (hs.nodup L)
      (fun q hq => hs.functors L q (hq.elim Or.inr fun hq => absurd hq List.not_mem_nil)) (hs.user L) (hs.entering L)
  | runFunctor L w =>
    obtain ⟨f, rest, hruns, -, rfl⟩ := runFunctor_inv h
    have hf : (s.takeFunctor L f rest).Assigned L f.conn :=
      hs.functors L f (Or.inl (by rw [hruns]; exact List.mem_cons_self))
    have htaken := hs.takeFunctor hruns
    cases f with
    | connectEstablished c => exact htaken.mild (connectEstablished_mild _ L c _) (connectEstablished_adds hf _)
    | bound c f =>
      have hknown' := takeFunctor_known hknown hruns
      exact htaken.mild (bound_mild hknown') (bound_adds hknown' L w c f)
  | endBatch L =>
    obtain ⟨-, rfl⟩ := Machine.guard_some.mp h
    exact hs.setLoop L (hs.active L) (hs.nodup L) (hs.functors L) (hs.user L) (hs.entering L)

end Muduo.Server
