import Muduo.Server.Calls
import Muduo.Server.Release

/-! # The table of a single loop

Without IO threads the base loop does everything, one handler at a time.
-/

namespace Muduo.Server

/-- The connection is in the table, under its own descriptor. -/
def Open (s : Server) (c : ConnId) : Prop := s.connections (s.fd c) = some c

/-- `newConnection` is at work on it. -/
def Entering (s : Server) (c : ConnId) : Prop := ∃ stage, (s.loops 0).frame = .newConnection c stage

def Deleted (s : Server) (c : ConnId) : Prop := (s.conn c).tcp.pSocketChannel.index = .kDeleted

/-- What `newConnection` has done with `c` when `stage` comes next. -/
def Reached (s : Server) (c : ConnId) : Stage → Prop
  | .enableReading | .sharedPtr => 0 ≤ s.fd c → s.connections (s.fd c) = none
  | .insert => (s.conn c).shared = true ∧ (0 ≤ s.fd c → s.connections (s.fd c) = none)
  | .setUser => (s.conn c).shared = true ∧ s.Open c
  | .setUpLayerCloseCallback =>
    (s.conn c).shared = true ∧ s.Open c ∧ (s.user = true → (s.conn c).tcp.pUser = true)
  | .runInLoop =>
    (s.conn c).shared = true ∧ s.Open c ∧ (s.user = true → (s.conn c).tcp.pUser = true) ∧
      (s.conn c).tcp.closeCallback = true

/-- A handler that calls back has taken its channel from the ready ones, and `handleClose` has deleted it. -/
def Handling (s : Server) (c : ConnId) : Rest → Prop
  | .connected | .established | .completed => True
  | .read => s.Open c ∧ .conn c ∉ (s.loops 0).active
  | .closed _ => s.Open c ∧ .conn c ∉ (s.loops 0).active ∧ s.Deleted c

structure Table (s : Server) : Prop where
  single : s.n = 0
  loop : ∀ c, (s.conn c).loop = 0
  direct : ∀ c, .connectEstablished c ∉ (s.loops 0).ran ∧ .connectEstablished c ∉ (s.loops 0).tempRuns ∧
    .connectEstablished c ∉ (s.loops 0).pendingFunctors
  key : ∀ fd c, s.connections fd = some c → s.fd c = fd
  channelfd : ∀ c, (s.conn c).tcp.pSocketChannel.sockfd = s.fd c
  registered : ∀ fd c e, s.interest 0 fd = some (.conn c, e) → s.fd c = fd ∧ ¬ s.Deleted c ∧ (s.Open c ∨ s.Entering c)
  positive : ∀ fd x, s.interest 0 fd = some x → 0 ≤ fd
  standing : ∀ c, c < s.size → ¬ s.Deleted c → 0 ≤ s.fd c → s.Open c ∨ s.Entering c
  made : ∀ c, s.Open c → ¬ s.Entering c →
    (s.conn c).shared = true ∧ (s.user = true → (s.conn c).tcp.pUser = true) ∧
      (s.conn c).tcp.closeCallback = true
  entering : ∀ c stage, (s.loops 0).frame = .newConnection c stage → s.Reached c stage
  handling : ∀ c rest, (s.loops 0).frame = .user c rest → s.Handling c rest
  nodup : (s.loops 0).active.Nodup
  active : ∀ c, .conn c ∈ (s.loops 0).active → s.Open c ∧ 0 ≤ s.fd c

theorem init_table (user : Bool) (listenfd : Int) (address : ConnId → TcpConnection.Addr) :
    (init 0 user listenfd address).Table where
  single := rfl
  loop := fun c => rfl
  direct := fun c => by simp [init, idleLoop]
  key := fun fd c h => by simp [init] at h
  channelfd := fun c => rfl
  registered := fun fd c e h => by
    simp only [init] at h
    split at h <;> cases h
  positive := fun fd x h => by
    simp only [init] at h
    split at h
    · rename_i hfd
      exact hfd.2.2
    · cases h
  standing := fun c h => by simp [init] at h
  made := fun c h => by simp [Open, init] at h
  entering := fun c stage h => by simp [init, idleLoop] at h
  handling := fun c rest h => by simp [init, idleLoop] at h
  nodup := by simp [init, idleLoop]
  active := fun c h => by simp [init, idleLoop] at h

theorem Table.zero {s : Server} (hs : s.Table) {L : Nat} (hL : L ≤ s.n) : L = 0 := by
  rw [hs.single] at hL
  exact Nat.le_zero.mp hL

theorem Table.isSome_pos {s : Server} (hs : s.Table) {fd : Int} (h : (s.interest 0 fd).isSome = true) : 0 ≤ fd := by
  obtain ⟨x, hx⟩ := Option.isSome_iff_exists.mp h
  exact hs.positive fd x hx

/-! ## Calls -/

section

variable {s u : Server} (h : Mild s u)

include h

theorem Mild.open_iff (c : ConnId) : u.Open c ↔ s.Open c := by
  rw [Open, Open, h.connections, h.fd]

theorem Mild.reached {c : ConnId} {stage : Stage} (hs : s.Reached c stage) : u.Reached c stage := by
  cases stage <;>
    simp only [Reached, h.open_iff, h.connections, h.fd, h.pUser, h.closeCallback, h.user] at hs ⊢ <;>
    first
    | exact hs
    | exact ⟨h.shared c hs.1, hs.2⟩

theorem Mild.handling {c : ConnId} {rest : Rest} (hs : s.Handling c rest) : u.Handling c rest := by
  cases rest <;> simp only [Handling, h.open_iff, h.active] at hs ⊢
  · exact hs
  · exact ⟨hs.1, hs.2.1, h.deleted c hs.2.2⟩

theorem Table.mild (hs : s.Table) (hentering : ∀ c, s.Entering c ↔ u.Entering c)
    (hreached : ∀ c stage, (u.loops 0).frame = .newConnection c stage → u.Reached c stage)
    (hhandling : ∀ c rest, (u.loops 0).frame = .user c rest → u.Handling c rest) : u.Table where
  single := h.n.trans hs.single
  loop := fun c => (h.loop c).trans (hs.loop c)
  direct := fun c => by
    obtain ⟨hran, htemp, hpending⟩ := hs.direct c
    exact ⟨by rwa [h.ran], by rwa [h.tempRuns], fun hc => hpending (h.pending 0 c hc)⟩
  key := fun fd c hc => by
    rw [h.connections] at hc
    rw [h.fd]
    exact hs.key fd c hc
  channelfd := fun c => by rw [h.channelfd, h.fd, hs.channelfd]
  registered := fun fd c e he => by
    have hpresent := h.interest 0 fd _ he
    have hold : s.fd c = fd ∧ ¬ s.Deleted c ∧ (s.Open c ∨ s.Entering c) := by
      rcases hpresent with hold | ⟨hnew, d, hd, -, hfd, hsize, hindex⟩
      · exact hs.registered fd c e hold
      · cases hd
        rw [hs.channelfd] at hfd
        have hpos : 0 ≤ fd := hnew.elim (fun hsome => hs.isSome_pos hsome) fun hpos => hpos
        exact ⟨hfd, hindex, hs.standing c hsize hindex (hfd ▸ hpos)⟩
    obtain ⟨hfd, hdel, hstand⟩ := hold
    refine ⟨(h.fd c).trans hfd, fun hdu => ?_, by rwa [h.open_iff, ← hentering]⟩
    have hnone := (h.unregistered c hdu).resolve_left hdel e
    rw [hs.loop, hs.channelfd, hfd] at hnone
    exact hnone he
  positive := fun fd x hx => by
    rcases h.interest 0 fd x hx with hold | ⟨hpresent | hfd, -⟩
    · exact hs.positive fd x hold
    · exact hs.isSome_pos hpresent
    · exact hfd
  standing := fun c hsize hdel hfd => by
    rw [h.size] at hsize
    rw [h.fd] at hfd
    rw [h.open_iff, ← hentering]
    exact hs.standing c hsize (fun hd => hdel (h.deleted c hd)) hfd
  made := fun c hopen hnot => by
    rw [h.open_iff] at hopen
    rw [← hentering] at hnot
    obtain ⟨hshared, huser, hcallback⟩ := hs.made c hopen hnot
    rw [h.pUser, h.user, h.closeCallback]
    exact ⟨h.shared c hshared, huser, hcallback⟩
  entering := hreached
  handling := hhandling
  nodup := by
    rw [h.active]
    exact hs.nodup
  active := fun c hc => by
    rw [h.active] at hc
    rw [h.open_iff, h.fd]
    exact hs.active c hc

end

/-! ## The loop -/

theorem Table.setLoop {s : Server} (hs : s.Table) (hidle : (s.loops 0).frame = .idle) {lp : Loop}
    (hframe : lp.frame = .idle)
    (hqueues : ∀ q, q ∈ lp.ran ∨ q ∈ lp.tempRuns ∨ q ∈ lp.pendingFunctors →
      q ∈ (s.loops 0).ran ∨ q ∈ (s.loops 0).tempRuns ∨ q ∈ (s.loops 0).pendingFunctors)
    (hnodup : lp.active.Nodup) (hactive : ∀ c, .conn c ∈ lp.active → s.Open c ∧ 0 ≤ s.fd c) :
    (s.setLoop 0 lp).Table := by
  have hself : (s.setLoop 0 lp).loops 0 = lp := by simp [Server.setLoop]
  have hentering : ∀ c, ¬ s.Entering c := fun c => by
    rintro ⟨stage, hstage⟩
    rw [hidle] at hstage
    cases hstage
  exact {
    single := hs.single
    loop := hs.loop
    direct := fun c => by
      have hnone : ¬(.connectEstablished c ∈ lp.ran ∨ .connectEstablished c ∈ lp.tempRuns ∨
          .connectEstablished c ∈ lp.pendingFunctors) := by
        intro hc
        have := hs.direct c
        have := hqueues _ hc
        tauto
      rw [hself]
      tauto
    key := hs.key
    channelfd := hs.channelfd
    registered := fun fd c e he => by
      obtain ⟨hfd, hdel, hstand⟩ := hs.registered fd c e he
      exact ⟨hfd, hdel, Or.inl (hstand.resolve_right (hentering c))⟩
    positive := hs.positive
    standing := fun c hsize hdel hfd => Or.inl ((hs.standing c hsize hdel hfd).resolve_right (hentering c))
    made := fun c hopen _ => hs.made c hopen (hentering c)
    entering := fun c stage hstage => by
      rw [hself, hframe] at hstage
      cases hstage
    handling := fun c rest hrest => by
      rw [hself, hframe] at hrest
      cases hrest
    nodup := by rwa [hself]
    active := fun c hc => by
      rw [hself] at hc
      exact hactive c hc }

theorem Table.sameFrame {s u : Server} (hs : s.Table) (h : Mild s u)
    (hframe : (u.loops 0).frame = (s.loops 0).frame) : u.Table := by
  refine hs.mild h (fun c => ?_) (fun c stage hstage => ?_) fun c rest hrest => ?_
  · simp only [Entering, hframe]
  · exact h.reached (hs.entering c stage (hframe ▸ hstage))
  · exact h.handling (hs.handling c rest (hframe ▸ hrest))

theorem not_entering {s : Server} (h : ∀ c stage, (s.loops 0).frame ≠ .newConnection c stage) (c : ConnId) :
    ¬ s.Entering c := fun ⟨stage, hstage⟩ => h c stage hstage

theorem Table.calls {s u : Server} (hs : s.Table) (h : Mild s u)
    (hbefore : ∀ c stage, (s.loops 0).frame ≠ .newConnection c stage)
    (hafter : ∀ c stage, (u.loops 0).frame ≠ .newConnection c stage)
    (hhandling : ∀ c rest, (u.loops 0).frame = .user c rest → u.Handling c rest) : u.Table :=
  hs.mild h (fun c => iff_of_false (not_entering hbefore c) (not_entering hafter c))
    (fun c stage hstage => absurd hstage (hafter c stage)) hhandling

/-- The loop handles `c`, which it has taken from the ready channels. -/
structure Taken (s : Server) (c : ConnId) : Prop where
  size : c < s.size
  opened : s.Open c
  taken : .conn c ∉ (s.loops 0).active
  frame : ∀ d stage, (s.loops 0).frame ≠ .newConnection d stage

theorem Table.move {c : ConnId} {t u : Server} (hs : t.Table) (ht : t.Taken c) (hmove : Move 0 c t u) :
    u.Table ∧ u.Taken c := by
  have hmild := hmove.mild fun _ => ht.size
  have hsize : c < u.size := hmild.size ▸ ht.size
  have hopen : u.Open c := (hmild.open_iff c).mpr ht.opened
  have htaken : .conn c ∉ (u.loops 0).active := by
    rw [hmild.active]
    exact ht.taken
  rcases hmove.frame with hsame | hread | ⟨called, hclosed, hdel⟩
  · have hafter : ∀ d stage, (u.loops 0).frame ≠ .newConnection d stage := by
      rw [hsame]
      exact ht.frame
    exact ⟨hs.sameFrame hmild hsame, hsize, hopen, htaken, hafter⟩
  · have hafter : ∀ d stage, (u.loops 0).frame ≠ .newConnection d stage := by simp [hread]
    refine ⟨hs.calls hmild ht.frame hafter fun d rest hrest => ?_, hsize, hopen, htaken, hafter⟩
    rw [hread] at hrest
    cases hrest
    exact ⟨hopen, htaken⟩
  · have hafter : ∀ d stage, (u.loops 0).frame ≠ .newConnection d stage := by simp [hclosed]
    refine ⟨hs.calls hmild ht.frame hafter fun d rest hrest => ?_, hsize, hopen, htaken, hafter⟩
    rw [hclosed] at hrest
    cases hrest
    exact ⟨hopen, htaken, hdel⟩

theorem Table.moves {I : Server → Prop} {c : ConnId} {s u : Server} (hs : s.Table) (ht : s.Taken c)
    (hmoves : Moves 0 c s u) (hI : I s) (keep : ∀ t v, t.Table → t.Taken c → I t → Move 0 c t v → I v) :
    u.Table ∧ I u := by
  have hall : u.Table ∧ u.Taken c ∧ I u := by
    refine moves_invariant (I := fun t => t.Table ∧ t.Taken c ∧ I t) hmoves ⟨hs, ht, hI⟩ ?_
    rintro t v ⟨hs, ht, hI⟩ hmove
    exact ⟨(hs.move ht hmove).1, (hs.move ht hmove).2, keep t v hs ht hI hmove⟩
  exact ⟨hall.1, hall.2.2⟩

/-! ## `newConnection` -/

theorem entering_iff {s : Server} {c : ConnId} {stage : Stage} (hframe : (s.loops 0).frame = .newConnection c stage)
    (d : ConnId) : s.Entering d ↔ d = c := by
  constructor
  · rintro ⟨other, hother⟩
    rw [hframe] at hother
    cases hother
    rfl
  · rintro rfl
    exact ⟨stage, hframe⟩

theorem Table.enter {s : Server} (hs : s.Table) {c : ConnId} {stage : Stage} (next : Stage) {k : Conn}
    (hframe : (s.loops 0).frame = .newConnection c stage) (hloop : k.loop = (s.conn c).loop)
    (hfd : k.tcp.sockfd = s.fd c) (hchannel : k.tcp.pSocketChannel = (s.conn c).tcp.pSocketChannel)
    (hreached : ((s.setConn c k).setFrame 0 (.newConnection c next)).Reached c next) :
    ((s.setConn c k).setFrame 0 (.newConnection c next)).Table := by
  have hstable := (s.setConn_stable c hloop hfd).trans (setFrame_stable _ 0 (.newConnection c next))
  have hafter : (((s.setConn c k).setFrame 0 (.newConnection c next)).loops 0).frame = .newConnection c next :=
    setFrame_frame _ 0 _
  have hopen : ∀ d, ((s.setConn c k).setFrame 0 (.newConnection c next)).Open d ↔ s.Open d := fun d => by
    rw [Open, Open, hstable.fd]
    rfl
  have hentering : ∀ d, ((s.setConn c k).setFrame 0 (.newConnection c next)).Entering d ↔ s.Entering d := fun d => by
    rw [entering_iff hafter, entering_iff hframe]
  have hchan : ∀ d, (((s.setConn c k).setFrame 0 (.newConnection c next)).conn d).tcp.pSocketChannel =
      (s.conn d).tcp.pSocketChannel := fun d => by
    by_cases hd : d = c
    · subst hd
      simpa [setFrame, Server.setLoop, setConn] using hchannel
    · simp [setFrame, Server.setLoop, setConn, hd]
  have hdel : ∀ d, ((s.setConn c k).setFrame 0 (.newConnection c next)).Deleted d ↔ s.Deleted d := fun d => by
    rw [Deleted, Deleted, hchan]
  exact {
    single := hs.single
    loop := fun d => (hstable.loop d).trans (hs.loop d)
    direct := fun d => by simpa [setConn] using hs.direct d
    key := fun fd d hd => (hstable.fd d).trans (hs.key fd d hd)
    channelfd := fun d => by rw [hchan, hs.channelfd, hstable.fd]
    registered := fun fd d e he => by
      rw [hstable.fd, hdel, hopen, hentering]
      exact hs.registered fd d e he
    positive := hs.positive
    standing := fun d hsize hd hfd => by
      rw [hstable.fd] at hfd
      rw [hdel] at hd
      rw [hopen, hentering]
      exact hs.standing d hsize hd hfd
    made := fun d hd hnot => by
      rw [hopen] at hd
      rw [hentering] at hnot
      have hne : d ≠ c := fun h => hnot ((entering_iff hframe d).mpr h)
      simpa [setFrame, Server.setLoop, setConn, hne] using hs.made d hd hnot
    entering := fun d other hother => by
      rw [hafter] at hother
      cases hother
      exact hreached
    handling := fun d rest hrest => by
      rw [hafter] at hrest
      cases hrest
    nodup := by
      rw [hstable.active]
      exact hs.nodup
    active := fun d hd => by
      rw [hstable.active] at hd
      rw [hopen, hstable.fd]
      exact hs.active d hd }

theorem Table.insert {s : Server} (hs : s.Table) {c : ConnId}
    (hframe : (s.loops 0).frame = .newConnection c .insert) :
    (s.statement c .insert).Table := by
  have hafter : ((s.statement c .insert).loops 0).frame = .newConnection c .setUser := setFrame_frame _ 0 _
  obtain ⟨hshared, habsent⟩ := hs.entering c .insert hframe
  have hself : (s.statement c .insert).Open c := by
    simp [Open, statement, setFrame, Server.setLoop, fd]
  have hother : ∀ d, d ≠ c → ((s.statement c .insert).Open d ↔ s.Open d ∧ s.fd d ≠ s.fd c) := fun d hd => by
    change Function.update s.connections (s.fd c) (some c) (s.fd d) = some d ↔ _
    by_cases hfd : s.fd d = s.fd c
    · rw [hfd, Function.update_self]
      simp [Ne.symm hd]
    · rw [Function.update_of_ne hfd]
      simp [Open, hfd]
  have hopen : ∀ d, 0 ≤ s.fd d → s.Open d → (s.statement c .insert).Open d := fun d hpos hd => by
    by_cases hdc : d = c
    · exact hdc ▸ hself
    · refine (hother d hdc).mpr ⟨hd, fun hfd => ?_⟩
      rw [Open, hfd, habsent (hfd ▸ hpos)] at hd
      cases hd
  have hentering : ∀ d, (s.statement c .insert).Entering d ↔ s.Entering d := fun d => by
    rw [entering_iff hafter, entering_iff hframe]
  exact {
    single := hs.single
    loop := hs.loop
    direct := fun d => by simpa [statement] using hs.direct d
    key := fun fd d hd => by
      change Function.update s.connections (s.fd c) (some c) fd = some d at hd
      by_cases hfd : fd = s.fd c
      · subst hfd
        rw [Function.update_self, Option.some.injEq] at hd
        rw [← hd]
        rfl
      · rw [Function.update_of_ne hfd] at hd
        exact hs.key fd d hd
    channelfd := hs.channelfd
    registered := fun fd d e he => by
      obtain ⟨hfd, hdel, hstand⟩ := hs.registered fd d e he
      refine ⟨hfd, hdel, ?_⟩
      rw [hentering]
      exact hstand.imp_left (hopen d (hfd ▸ hs.positive fd _ he))
    positive := hs.positive
    standing := fun d hsize hdel hfd => by
      rw [hentering]
      exact (hs.standing d hsize hdel hfd).imp_left (hopen d hfd)
    made := fun d hd hnot => by
      rw [hentering] at hnot
      have hdc : d ≠ c := fun h => hnot ((entering_iff hframe d).mpr h)
      exact hs.made d ((hother d hdc).mp hd).1 hnot
    entering := fun d stage hstage => by
      rw [hafter] at hstage
      cases hstage
      exact ⟨hshared, hself⟩
    handling := fun d rest hrest => by
      rw [hafter] at hrest
      cases hrest
    nodup := by simpa [statement] using hs.nodup
    active := fun d hd => by
      have hactive : .conn d ∈ (s.loops 0).active := by simpa [statement] using hd
      exact ⟨hopen d (hs.active d hactive).2 (hs.active d hactive).1, (hs.active d hactive).2⟩ }

theorem Table.leave {s : Server} (hs : s.Table) {c : ConnId}
    (hframe : (s.loops 0).frame = .newConnection c .runInLoop)
    {frame : Frame} (hafter : frame = .idle ∨ frame = .user c .connected) : (s.setFrame 0 frame).Table := by
  obtain ⟨hshared, hopen, huser, hcallback⟩ := hs.entering c .runInLoop hframe
  have hstand : ∀ d, s.Open d ∨ s.Entering d → s.Open d := fun d hd =>
    hd.elim (fun h => h) fun h => (entering_iff hframe d).mp h ▸ hopen
  have hnone : ∀ d stage, frame ≠ .newConnection d stage := fun d stage h => by
    rcases hafter with rfl | rfl <;> cases h
  exact {
    single := hs.single
    loop := hs.loop
    direct := fun d => by simpa using hs.direct d
    key := hs.key
    channelfd := hs.channelfd
    registered := fun fd d e he => by
      obtain ⟨hfd, hdel, hd⟩ := hs.registered fd d e he
      exact ⟨hfd, hdel, Or.inl (hstand d hd)⟩
    positive := hs.positive
    standing := fun d hsize hdel hfd => Or.inl (hstand d (hs.standing d hsize hdel hfd))
    made := fun d hd _ => by
      by_cases hdc : d = c
      · exact hdc ▸ ⟨hshared, huser, hcallback⟩
      · exact hs.made d hd fun h => hdc ((entering_iff hframe d).mp h)
    entering := fun d stage hstage => by
      rw [setFrame_frame] at hstage
      exact absurd hstage (hnone d stage)
    handling := fun d rest hrest => by
      rw [setFrame_frame] at hrest
      rcases hafter with rfl | rfl
      · cases hrest
      · cases hrest
        trivial
    nodup := by simpa using hs.nodup
    active := fun d hd => hs.active d (by simpa using hd) }

theorem Table.statement {s : Server} (hs : s.Table) (hknown : ∀ c, s.alive c = true → c < s.size) {c : ConnId}
    {stage : Stage}
    (hframe : (s.loops 0).frame = .newConnection c stage) : (s.statement c stage).Table := by
  have hsize : c < s.size := by
    refine hknown c (alive_iff.mpr (Or.inr (Or.inr ⟨0, Nat.zero_le _, ?_⟩)))
    simp only [Loop.holds, hframe, newConnection_holds, if_true]
    omega
  have hreached := hs.entering c stage hframe
  cases stage with
  | enableReading =>
    have hctl := Channel.update_ctl { (s.conn c).tcp.pSocketChannel with
      events := (s.conn c).tcp.pSocketChannel.events ||| EPOLLIN }
    have hset := s.setTcp_mild c _ (s.conn c).tcp.enableReading_keeps
    have hcontrol :
      Mild s ((s.setTcp c (s.conn c).tcp.enableReading.1).control c (s.conn c).tcp.enableReading.2) := by
      refine hset.trans (control_mild hsize ?_ ?_)
      · rw [hset.channelfd]
        exact hctl.1
      · intro hdel
        have hself : ((s.setTcp c (s.conn c).tcp.enableReading.1).conn c).tcp = (s.conn c).tcp.enableReading.1 := by
          simp [setTcp, setConn]
        rw [hself, (s.conn c).tcp.enableReading_keeps.deleted] at hdel
        exact hctl.2 hdel
    have hmild := hcontrol.trans (setFrame_mild _ 0 (.newConnection c .sharedPtr))
    have hafter : ((s.statement c .enableReading).loops 0).frame = .newConnection c .sharedPtr := setFrame_frame _ 0 _
    refine hs.mild hmild (fun d => ?_) (fun d other hother => ?_) fun d rest hrest => ?_
    · exact (entering_iff hframe d).trans (entering_iff hafter d).symm
    · rw [hafter] at hother
      cases hother
      exact hmild.reached (show s.Reached c .sharedPtr from hreached)
    · rw [hafter] at hrest
      cases hrest
  | sharedPtr =>
    refine hs.enter _ hframe (k := { s.conn c with shared := true }) rfl rfl rfl ?_
    simpa [Reached, setFrame, Server.setLoop, setConn, fd] using hreached
  | insert => exact hs.insert hframe
  | setUser =>
    simp only [Server.statement]
    split
    · rename_i huser
      refine hs.enter _ hframe (k := { s.conn c with tcp := (s.conn c).tcp.setUser }) rfl rfl rfl ?_
      simpa [Reached, Open, setFrame, Server.setLoop, setConn, fd, TcpConnection.setUser, huser] using hreached
    · rename_i huser
      have hsame : s.setConn c (s.conn c) = s := by simp [setConn]
      have henter := hs.enter .setUpLayerCloseCallback hframe (k := s.conn c) rfl rfl rfl
      rw [hsame] at henter
      refine henter ?_
      simpa [Reached, Open, setFrame, Server.setLoop, fd, huser] using hreached
  | setUpLayerCloseCallback =>
    refine hs.enter _ hframe (k := { s.conn c with tcp := (s.conn c).tcp.setUpLayerCloseCallback }) rfl rfl rfl ?_
    simpa [Reached, Open, setFrame, Server.setLoop, setConn, fd, TcpConnection.setUpLayerCloseCallback] using hreached
  | runInLoop =>
    simp only [Server.statement, hs.loop, if_true, connectEstablished]
    split
    · exact (hs.leave hframe (Or.inr rfl)).sameFrame (observe_mild _ _) rfl
    · exact hs.leave hframe (Or.inl rfl)

/-! ## Comings and goings -/

theorem idle_not_entering {s : Server} (hidle : (s.loops 0).frame = .idle) (c : ConnId) : ¬ s.Entering c :=
  not_entering (fun d stage => by simp [hidle]) c

theorem Table.accept {s : Server} (hs : s.Table) (hknown : ∀ c, s.alive c = true → c < s.size)
    (hidle : (s.loops 0).frame = .idle) {fd : Int} (hfd : s.Acceptable fd) : (s.accept fd).Table := by
  have hsize : ∀ c, s.Open c → c ≠ s.size := fun c hc h =>
    Nat.lt_irrefl s.size (h ▸ hknown c (alive_iff.mpr (Or.inl hc)))
  have hstand : ∀ c, s.Open c ∨ s.Entering c → s.Open c := fun c hc =>
    hc.resolve_right (idle_not_entering hidle c)
  have hconn : ∀ c, c ≠ s.size → (s.accept fd).conn c = s.conn c := fun c => s.accept_old fd
  have hfd' : ∀ c, c ≠ s.size → (s.accept fd).fd c = s.fd c := fun c hc => by
    rw [Server.fd, hconn c hc, Server.fd]
  have htable := s.accept_connections fd
  have hactive : ((s.accept fd).loops 0).active = (s.loops 0).active := by simp
  have hframe : ((s.accept fd).loops 0).frame = .newConnection s.size .enableReading := by simp
  have hopen : ∀ c, s.Open c → (s.accept fd).Open c := fun c hc => by
    rw [Open, htable, hfd' c (hsize c hc)]
    exact hc
  have hsome : ∀ fd c, s.connections fd = some c → c ≠ s.size := fun fd c hc => by
    have hkey := hs.key fd c hc
    exact hsize c (by rw [Open, hkey]; exact hc)
  exact {
    single := (s.accept_n fd).trans hs.single
    loop := fun c => by
      by_cases hc : c = s.size
      · simp [hc, getNextLoop, hs.single]
      · rw [hconn c hc]
        exact hs.loop c
    direct := fun c => by simpa using hs.direct c
    key := fun fd c hc => by
      rw [htable] at hc
      rw [hfd' c (hsome fd c hc)]
      exact hs.key fd c hc
    channelfd := fun c => by
      by_cases hc : c = s.size
      · simp [hc, Server.fd, TcpConnection.init, Channel.init, Channel.setCallback]
      · rw [hconn c hc, hfd' c hc]
        exact hs.channelfd c
    registered := fun fd c e he => by
      rw [accept_interest] at he
      obtain ⟨hfdc, hdel, hd⟩ := hs.registered fd c e he
      have hc := hsize c (hstand c hd)
      rw [hfd' c hc, Deleted, hconn c hc]
      exact ⟨hfdc, hdel, Or.inl (hopen c (hstand c hd))⟩
    positive := fun fd x hx => by
      rw [accept_interest] at hx
      exact hs.positive fd x hx
    standing := fun c hcsize hdel hpos => by
      by_cases hc : c = s.size
      · exact Or.inr ((entering_iff hframe c).mpr hc)
      · rw [Deleted, hconn c hc] at hdel
        rw [hfd' c hc] at hpos
        rw [accept_size] at hcsize
        have hold : c < s.size := Nat.lt_of_le_of_ne (Nat.le_of_lt_succ hcsize) hc
        exact Or.inl (hopen c (hstand c (hs.standing c hold hdel hpos)))
    made := fun c hc _ => by
      rw [Open, htable] at hc
      have hne := hsome _ c hc
      rw [hfd' c hne] at hc
      rw [hconn c hne, accept_user]
      exact hs.made c hc (idle_not_entering hidle c)
    entering := fun c stage hstage => by
      rw [hframe] at hstage
      cases hstage
      intro hpos
      have hnew : (s.accept fd).fd s.size = fd := by simp [Server.fd, TcpConnection.init]
      rw [hnew] at hpos ⊢
      rw [htable]
      rcases hfd with rfl | ⟨-, -, hnone, -⟩
      · omega
      · exact hnone
    handling := fun c rest hrest => by
      rw [hframe] at hrest
      cases hrest
    nodup := by
      rw [hactive]
      exact hs.nodup
    active := fun c hc => by
      rw [hactive] at hc
      obtain ⟨hopenc, hpos⟩ := hs.active c hc
      exact ⟨hopen c hopenc, by rwa [hfd' c (hsize c hopenc)]⟩ }

theorem Table.remove {s : Server} (hs : s.Table) {c : ConnId} {called : Bool}
    (hframe : (s.loops 0).frame = .user c (.closed called)) : ((s.removeConnection c).setFrame 0 .idle).Table := by
  obtain ⟨hopen, htaken, hdel⟩ := hs.handling c _ hframe
  have hbefore : ∀ d, ¬ s.Entering d := not_entering fun d stage => by simp [hframe]
  have hstays : ∀ d, ((s.removeConnection c).setFrame 0 .idle).Open d ↔ s.Open d ∧ d ≠ c := fun d => by
    change Function.update s.connections (s.fd c) none (s.fd d) = some d ↔ s.connections (s.fd d) = some d ∧ d ≠ c
    by_cases hfd : s.fd d = s.fd c
    · have hentry : s.connections (s.fd d) = some c := by rw [hfd]; exact hopen
      rw [hfd, Function.update_self, ← hfd, hentry, Option.some.injEq]
      constructor
      · intro h
        cases h
      · rintro ⟨rfl, h⟩
        exact absurd rfl h
    · rw [Function.update_of_ne hfd]
      exact ⟨fun h => ⟨h, fun hdc => hfd (hdc ▸ rfl)⟩, fun h => h.1⟩
  have hstand : ∀ d, ¬ s.Deleted d → s.Open d ∨ s.Entering d → ((s.removeConnection c).setFrame 0 .idle).Open d :=
    fun d hd h => (hstays d).mpr ⟨h.resolve_right (hbefore d), fun hdc => hd (hdc ▸ hdel)⟩
  exact {
    single := hs.single
    loop := hs.loop
    direct := fun d => by simpa [removeConnection] using hs.direct d
    key := fun fd d hd => by
      change Function.update s.connections (s.fd c) none fd = some d at hd
      by_cases hfd : fd = s.fd c
      · rw [hfd, Function.update_self] at hd
        cases hd
      · rw [Function.update_of_ne hfd] at hd
        exact hs.key fd d hd
    channelfd := hs.channelfd
    registered := fun fd d e he => by
      obtain ⟨hfd, hd, hold⟩ := hs.registered fd d e he
      exact ⟨hfd, hd, Or.inl (hstand d hd hold)⟩
    positive := hs.positive
    standing := fun d hsize hd hfd => Or.inl (hstand d hd (hs.standing d hsize hd hfd))
    made := fun d hd _ => hs.made d ((hstays d).mp hd).1 (hbefore d)
    entering := fun d stage hstage => by
      rw [setFrame_frame] at hstage
      cases hstage
    handling := fun d rest hrest => by
      rw [setFrame_frame] at hrest
      cases hrest
    nodup := by simpa [removeConnection] using hs.nodup
    active := fun d hd => by
      have hactive : .conn d ∈ (s.loops 0).active := by simpa [removeConnection] using hd
      obtain ⟨hd, hfd⟩ := hs.active d hactive
      exact ⟨(hstays d).mpr ⟨hd, fun hdc => htaken (hdc ▸ hactive)⟩, hfd⟩ }

theorem Table.take {s : Server} (hs : s.Table) (hknown : ∀ c, s.alive c = true → c < s.size) {c : ConnId}
    {rest : List Source} (hactive : (s.loops 0).active = .conn c :: rest) (hidle : (s.loops 0).frame = .idle) :
    (s.takeActive 0 rest).Table ∧ (s.takeActive 0 rest).Taken c := by
  have hself := s.takeActive_loop 0 rest
  have hnodup := List.nodup_cons.mp (hactive ▸ hs.nodup)
  have hhead := hs.active c (by rw [hactive]; exact List.mem_cons_self)
  constructor
  · refine hs.setLoop hidle hidle (fun q hq => hq) hnodup.2 fun d hd => ?_
    exact hs.active d (by rw [hactive]; exact List.mem_cons_of_mem _ hd)
  · refine ⟨hknown c (alive_iff.mpr (Or.inl hhead.1)), hhead.1, ?_, fun d stage => ?_⟩
    · rw [hself]
      exact hnodup.1
    · rw [hself]
      simp [hidle]

/-! ## Steps -/

theorem Table.return_ {s : Server} (hs : s.Table) (hknown : ∀ c, s.alive c = true → c < s.size) {c : ConnId}
    {rest : Rest}
    (hframe : (s.loops 0).frame = .user c rest) (w : WriteResult) : (s.return_ 0 c w rest).Table := by
  have hidle : ∀ {t : Server}, (t.setFrame 0 .idle).Table → (t.setFrame 0 .idle).size = s.size →
      ((t.setFrame 0 .idle).alive c = true → s.alive c = true) → ((t.setFrame 0 .idle).testOut c w).Table := by
    intro t ht hsize halive
    exact ht.sameFrame (testOut_mild (fun h => hsize ▸ hknown c (halive h)) w) (testOut_frame _ c w 0)
  have hleave : (s.setFrame 0 .idle).Table := by
    refine hs.calls (s.setFrame_mild 0 .idle) (fun d stage => by simp [hframe]) (fun d stage => by simp)
      fun d rest h => ?_
    rw [setFrame_frame] at h
    cases h
  have halive : s.alive c = true := by
    refine alive_iff.mpr (Or.inr (Or.inr ⟨0, Nat.zero_le _, ?_⟩))
    simp only [Loop.holds, hframe, Frame.holds, if_true]
    omega
  cases rest with
  | connected | established | completed => exact hleave
  | read => exact hidle hleave rfl fun _ => halive
  | closed called =>
    simp only [Server.return_]
    split
    · exact hidle (hs.remove hframe) rfl fun _ => halive
    · exact hidle hleave rfl fun _ => halive

theorem step_table {s u : Server} {l : Label} (hs : s.Table) (hknown : ∀ c, s.alive c = true → c < s.size)
    (h : step s l = some u) : u.Table := by
  cases l with
  | poll L events =>
    obtain ⟨⟨hready, hregistered, hnodup⟩, rfl⟩ := Machine.guard_some.mp h
    obtain rfl := hs.zero hready.2.1
    have hset := hs.sameFrame (s.setRevents_mild events) (by rw [setRevents_loops])
    have hmild := s.setRevents_mild events
    refine hset.setLoop ?_ hready.2.2.2 ?_ hnodup fun c hc => ?_
    · rw [setRevents_loops]
      exact hready.2.2.2
    · rw [setRevents_loops]
      exact fun q hq => hq
    · obtain ⟨⟨src, e⟩, hp, hsrc⟩ := List.mem_map.mp hc
      cases hsrc
      obtain ⟨⟨src, e'⟩, hx, hsrc⟩ := Option.map_eq_some_iff.mp (hregistered _ hp)
      cases hsrc
      obtain ⟨-, -, hopen⟩ := hs.registered _ c e' hx
      rw [hmild.open_iff, hmild.fd]
      exact ⟨hopen.resolve_right (idle_not_entering hready.2.2.2 c), hs.positive _ _ hx⟩
  | accept fd =>
    obtain ⟨rest, hactive, hready, hfd, rfl⟩ := accept_inv h
    have hset : (s.takeActive 0 rest).Table := by
      refine hs.setLoop hready.2.2.2 hready.2.2.2 (fun q hq => hq) ?_ fun c hc => ?_
      · exact (List.nodup_cons.mp (hactive ▸ hs.nodup)).2
      · exact hs.active c (by rw [hactive]; exact List.mem_cons_of_mem _ hc)
    have hsame : SameAlive s (s.takeActive 0 rest) := SameAlive.of_owners fun d => setLoop_same s rfl
    have hidle : ((s.takeActive 0 rest).loops 0).frame = .idle := by simpa using hready.2.2.2
    exact hset.accept (fun c hc => hknown c ((hsame.alive c).symm.trans hc)) hidle hfd
  | statement =>
    obtain ⟨c, stage, hframe, -, rfl⟩ := statement_inv h
    exact hs.statement hknown hframe
  | handle L res w =>
    obtain ⟨c, rest, hactive, hready, hmoves⟩ := handle_moves h
    obtain rfl := hs.zero hready.2.1
    obtain ⟨hset, htaken⟩ := hs.take hknown hactive hready.2.2.2
    exact (hset.moves (I := fun _ => True) htaken hmoves trivial fun _ _ _ _ _ _ => trivial).1
  | return_ L w =>
    obtain ⟨c, rest, hframe, -, hL, rfl⟩ := return_inv h
    obtain rfl := hs.zero hL
    exact hs.return_ hknown hframe w
  | act L a =>
    obtain ⟨arg, hcode, -, hL, hmay, rfl⟩ := act_inv h
    refine hs.sameFrame (act_mild _ fun c message w ha => ?_) (s.act_frame _ a 0)
    subst ha
    exact hknown c (mayAct_alive hL hcode hmay.1)
  | foreign a =>
    obtain ⟨⟨-, hmay⟩, rfl⟩ := Machine.guard_some.mp h
    refine hs.sameFrame (act_mild _ fun c message w ha => ?_) (s.act_frame _ a 0)
    subst ha
    exact hknown c (kept_alive hmay.1)
  | swap L =>
    obtain ⟨⟨hready, hactive⟩, rfl⟩ := Machine.guard_some.mp h
    obtain rfl := hs.zero hready.2.1
    refine hs.setLoop hready.2.2.2 hready.2.2.2 (fun q hq => ?_) hs.nodup hs.active
    rcases hq with hq | hq | hq
    · exact Or.inl hq
    · exact Or.inr (Or.inr hq)
    · cases hq
  | runFunctor L w =>
    obtain ⟨f, rest, hruns, hready, rfl⟩ := runFunctor_inv h
    obtain rfl := hs.zero hready.2.1
    have hself := s.takeFunctor_loop 0 f rest
    have hset : (s.takeFunctor 0 f rest).Table := by
      refine hs.setLoop hready.2.2.2 hready.2.2.2 (fun q hq => ?_) hs.nodup hs.active
      simp only [List.mem_append, List.mem_singleton] at hq
      rw [hruns, List.mem_cons]
      tauto
    cases f with
    | connectEstablished c => exact absurd (by rw [hruns]; exact List.mem_cons_self) (hs.direct c).2.1
    | bound c f =>
      have hmild := bound_mild (L := 0) (w := w) (c := c) (f := f) (takeFunctor_known hknown hruns)
      rcases bound_frame (s.takeFunctor 0 (.bound c f) rest) 0 w c f with hsame | ⟨d, -, hcalls⟩
      · exact hset.sameFrame hmild hsame
      · refine hset.calls hmild (fun d stage => ?_) (fun d stage => by simp [hcalls]) fun d rest hrest => ?_
        · rw [hself]
          simp [hready.2.2.2]
        · rw [hcalls] at hrest
          cases hrest
          trivial
  | endBatch L =>
    obtain ⟨⟨hready, -⟩, rfl⟩ := Machine.guard_some.mp h
    obtain rfl := hs.zero hready.2.1
    refine hs.setLoop hready.2.2.2 hready.2.2.2 (fun q hq => ?_) hs.nodup hs.active
    rcases hq with hq | hq | hq
    · cases hq
    · exact Or.inr (Or.inl hq)
    · exact Or.inr (Or.inr hq)

end Muduo.Server
