import Muduo.Client.Code
import Muduo.Server.Threads

/-! # Steps of a client

What a step can do, for the invariants to use.
-/

namespace Muduo.Client

/-! ## Steps -/

/-- The loop turns to its next ready channel. -/
def takeActive (s : Client) (rest : List Source) : Client := s.setLoop { s.loop with active := rest }

/-- The loop turns to the next functor of its batch. -/
def takeFunctor (s : Client) (rest : List Queued) : Client := s.setLoop { s.loop with tempRuns := rest }

theorem handle_inv {s u : Client} {res : Buffer.ReadResult} {w : WriteResult} {so : Option Int}
    (h : step s (.handle res w so) = some u) :
    ∃ src rest, s.loop.active = src :: rest ∧ s.Ready .handling ∧ (∀ ch ∈ s.dataPtr src, s.Answers res w so ch) ∧
      u = (s.takeActive rest).handle res w so src := by
  simp only [step] at h
  split at h
  · rename_i src rest hactive
    obtain ⟨⟨hready, hanswers⟩, rfl⟩ := Machine.guard_some.mp h
    exact ⟨src, rest, hactive, hready, hanswers, rfl⟩
  · cases h

theorem return_inv {s u : Client} {w : WriteResult} (h : step s (.return_ w) = some u) :
    ∃ c rest, s.loop.frame = .user c rest ∧ u = s.return_ c w rest := by
  simp only [step] at h
  split at h
  · rename_i c rest hframe
    obtain ⟨-, rfl⟩ := Machine.guard_some.mp h
    exact ⟨c, rest, hframe, rfl⟩
  · cases h

theorem act_inv {s u : Client} {a : Act} (h : step s (.act a) = some u) :
    ∃ arg, s.userCode = some arg ∧ s.MayAct true arg a ∧ u = s.act true a := by
  simp only [step] at h
  split at h
  · rename_i arg hcode
    obtain ⟨⟨-, hmay⟩, rfl⟩ := Machine.guard_some.mp h
    exact ⟨arg, hcode, hmay, rfl⟩
  · cases h

theorem runFunctor_inv {s u : Client} {w : WriteResult} {fd savedErrno : Int}
    (h : step s (.runFunctor w fd savedErrno) = some u) :
    ∃ f rest, s.loop.tempRuns = f :: rest ∧ s.Ready .draining ∧ (f = .connect → s.Possible fd savedErrno) ∧
      u = (s.takeFunctor rest).runFunctor w fd savedErrno f := by
  simp only [step] at h
  split at h
  · rename_i f rest hruns
    obtain ⟨⟨hready, hpossible⟩, rfl⟩ := Machine.guard_some.mp h
    exact ⟨f, rest, hruns, hready, hpossible, rfl⟩
  · cases h

theorem userCode_arg {s : Client} {c : ConnId} (h : s.userCode = some (some c)) :
    ∃ rest, s.loop.frame = .user c rest := by
  unfold userCode at h
  split at h
  · cases h
  · rename_i d rest _ hframe
    simp only [Option.some.injEq] at h
    exact ⟨rest, h ▸ hframe⟩
  · cases h
  · simp at h

/-! ## Addresses -/

section

variable {s : Client}

theorem mem_channels {ch : Source} (h : ch ∈ s.channels) : s.Exists ch := by
  rw [channels, List.mem_append] at h
  rcases h with h | h
  · rw [Option.mem_toList, Option.map_eq_some_iff] at h
    obtain ⟨p, hp, rfl⟩ := h
    rw [Exists, hp, Option.map_some]
  · obtain ⟨c, hc, rfl⟩ := List.mem_map.mp h
    exact (List.mem_filter.mp hc).2

theorem dataPtr_of_exists {src : Source} (h : s.Exists src) : s.dataPtr src = some src := if_pos h

theorem dataPtr_exists {src ch : Source} (h : s.dataPtr src = some ch) : s.Exists ch := by
  unfold dataPtr at h
  split at h
  · rename_i hsrc
    exact Option.some.inj h ▸ hsrc
  · exact mem_channels (List.mem_of_find?_eq_some h)

theorem pointee_alive {c d : ConnId} (h : s.pointee c = some d) : s.alive d = true := by
  unfold pointee at h
  split at h
  · rename_i hc
    exact Option.some.inj h ▸ hc
  · have hfound := List.find?_some h
    rw [Bool.and_eq_true] at hfound
    exact hfound.1

theorem runFunctor_bound (s : Client) (w : WriteResult) (fd savedErrno : Int) (c : ConnId) (f : Functor) :
    (∃ d, s.pointee c = some d ∧
      s.runFunctor w fd savedErrno (.bound c f) = (s.observe (.functor c f (s.alive c))).callFunctor d w f) ∨
    s.runFunctor w fd savedErrno (.bound c f) = { s.observe (.functor c f (s.alive c)) with crashed := true } := by
  have hsame : (s.observe (.functor c f (s.alive c))).pointee c = s.pointee c := rfl
  cases hp : s.pointee c with
  | some d => exact Or.inl ⟨d, rfl, by simp only [runFunctor, hsame, hp]⟩
  | none => exact Or.inr (by simp only [runFunctor, hsame, hp])

end

/-! ## Calls that call nobody back -/

def Deleted (s : Client) (c : ConnId) : Prop := (s.conn c).tcp.pSocketChannel.index = .kDeleted

instance (s : Client) (c : ConnId) : Decidable (s.Deleted c) :=
  inferInstanceAs (Decidable ((s.conn c).tcp.pSocketChannel.index = .kDeleted))

/-- The attempt, the descriptor and the index of the `Connector`'s channel. -/
def slot (s : Client) : Option (Attempt × Int × Index) := s.pSockChan.map fun p => (p.1, p.2.sockfd, p.2.index)

def Obs.inner : Obs → Bool
  | .consulted _ _ | .functor _ _ _ | .handler _ .handleRead | .handler _ .handleWrite => true
  | _ => false

/-- From `s` to `u` events have been set and member functions of connections have run. They touch the
connections, epoll, and the end of the queue. -/
structure Quiet (s u : Client) : Prop where
  same : u = { s with
    pSockChan := u.pSockChan
    conn := u.conn
    interest := u.interest
    loop := { s.loop with pendingFunctors := u.loop.pendingFunctors }
    crashed := u.crashed
    trace := u.trace }
  slot : u.slot = s.slot
  held : ∀ c, (u.conn c).held = (s.conn c).held
  descriptor : ∀ c, (u.conn c).descriptor = (s.conn c).descriptor
  sockfd : ∀ c, (u.conn c).tcp.sockfd = (s.conn c).tcp.sockfd
  channelfd : ∀ c, (u.conn c).tcp.pSocketChannel.sockfd = (s.conn c).tcp.pSocketChannel.sockfd
  deleted : ∀ c, u.Deleted c ↔ s.Deleted c
  interest : ∀ fd x, u.interest fd = some x → s.interest fd = some x ∨
    ∃ c, x.1 = .conn c ∧ (s.conn c).tcp.pSocketChannel.sockfd = fd ∧ c < s.size ∧ ¬ s.Deleted c
  pending : ∀ q ∈ u.loop.pendingFunctors, q ∈ s.loop.pendingFunctors ∨ ∃ c f, q = .bound c f
  trace : ∃ os, u.trace = s.trace ++ os ∧ ∀ o ∈ os, o.inner = true

namespace Quiet

variable {s t u : Client}

theorem refl (s : Client) : Quiet s s where
  same := rfl
  slot := rfl
  held := fun _ => rfl
  descriptor := fun _ => rfl
  sockfd := fun _ => rfl
  channelfd := fun _ => rfl
  deleted := fun _ => Iff.rfl
  interest := fun _ _ h => Or.inl h
  pending := fun _ h => Or.inl h
  trace := ⟨[], by simp, by simp⟩

theorem size (h : Quiet s u) : u.size = s.size := (congrArg Client.size h.same :)
theorem attempts (h : Quiet s u) : u.attempts = s.attempts := (congrArg Client.attempts h.same :)
theorem fds (h : Quiet s u) : u.fds = s.fds := (congrArg Client.fds h.same :)
theorem sockFd (h : Quiet s u) : u.sockFd = s.sockFd := (congrArg Client.sockFd h.same :)
theorem isOpen (h : Quiet s u) : u.isOpen = s.isOpen := (congrArg Client.isOpen h.same :)
theorem connection (h : Quiet s u) : u.connection = s.connection := (congrArg Client.connection h.same :)
theorem frame (h : Quiet s u) : u.loop.frame = s.loop.frame := (congrArg (fun t : Client => t.loop.frame) h.same :)
theorem active (h : Quiet s u) : u.loop.active = s.loop.active :=
  (congrArg (fun t : Client => t.loop.active) h.same :)
theorem tempRuns (h : Quiet s u) : u.loop.tempRuns = s.loop.tempRuns :=
  (congrArg (fun t : Client => t.loop.tempRuns) h.same :)

theorem trans (h : Quiet s t) (k : Quiet t u) : Quiet s u where
  same := by
    refine k.same.trans ?_
    rw [h.same]
  slot := k.slot.trans h.slot
  held := fun c => (k.held c).trans (h.held c)
  descriptor := fun c => (k.descriptor c).trans (h.descriptor c)
  sockfd := fun c => (k.sockfd c).trans (h.sockfd c)
  channelfd := fun c => (k.channelfd c).trans (h.channelfd c)
  deleted := fun c => (k.deleted c).trans (h.deleted c)
  interest := by
    intro fd x hx
    rcases k.interest fd x hx with ht | ⟨c, hc, hfd, hsize, hdel⟩
    · exact h.interest fd x ht
    · refine Or.inr ⟨c, hc, ?_, h.size ▸ hsize, fun hd => hdel ((h.deleted c).mpr hd)⟩
      rw [← h.channelfd c]
      exact hfd
  pending := by
    intro q hq
    rcases k.pending q hq with ht | hbound
    · exact h.pending q ht
    · exact Or.inr hbound
  trace := by
    obtain ⟨os, hs, hos⟩ := h.trace
    obtain ⟨ps, ht, hps⟩ := k.trace
    refine ⟨os ++ ps, by rw [ht, hs, List.append_assoc], fun o ho => ?_⟩
    exact (List.mem_append.mp ho).elim (hos o) (hps o)

theorem mem_trace (h : Quiet s u) {o : Obs} (ho : o.inner = false) : o ∈ u.trace ↔ o ∈ s.trace := by
  obtain ⟨os, htrace, hos⟩ := h.trace
  rw [htrace, List.mem_append, or_iff_left]
  intro hnew
  rw [hos o hnew] at ho
  cases ho

theorem owners (h : Quiet s u) (c : ConnId) : u.owners c = s.owners c := by
  unfold Client.owners
  rw [h.connection, h.held, h.frame]

end Quiet

variable (s : Client)

theorem observe_quiet {o : Obs} (ho : o.inner = true) : Quiet s (s.observe o) :=
  { Quiet.refl s with same := rfl, trace := ⟨[o], rfl, by simp [ho]⟩ }

theorem crash_quiet (crashed : Bool) : Quiet s { s with crashed } := { Quiet.refl s with same := rfl }

theorem setTcp_quiet (c : ConnId) {tcp : TcpConnection} (hsockfd : tcp.sockfd = (s.conn c).tcp.sockfd)
    (hfd : tcp.pSocketChannel.sockfd = (s.conn c).tcp.pSocketChannel.sockfd)
    (hindex : tcp.pSocketChannel.index = .kDeleted ↔ s.Deleted c) : Quiet s (s.setTcp c tcp) := by
  have hall : ∀ {P : ConnId → Conn → Prop}, P c { s.conn c with tcp } → (∀ d, P d (s.conn d)) →
      ∀ d, P d ((s.setTcp c tcp).conn d) := by
    intro P hself hother d
    by_cases h : d = c
    · subst h
      simpa [setTcp, setConn] using hself
    · simpa [setTcp, setConn, h] using hother d
  exact { Quiet.refl s with
    same := rfl
    held := hall (P := fun d k => k.held = (s.conn d).held) rfl fun _ => rfl
    descriptor := hall (P := fun d k => k.descriptor = (s.conn d).descriptor) rfl fun _ => rfl
    sockfd := hall (P := fun d k => k.tcp.sockfd = (s.conn d).tcp.sockfd) hsockfd fun _ => rfl
    channelfd := hall (P := fun d k => k.tcp.pSocketChannel.sockfd = (s.conn d).tcp.pSocketChannel.sockfd) hfd
      fun _ => rfl
    deleted := hall (P := fun d k => k.tcp.pSocketChannel.index = .kDeleted ↔ s.Deleted d) hindex fun _ => Iff.rfl }

theorem keeps_quiet (c : ConnId) {tcp : TcpConnection} (hkeeps : (s.conn c).tcp.Keeps tcp) :
    Quiet s (s.setTcp c tcp) := s.setTcp_quiet c hkeeps.sockfd hkeeps.channelfd hkeeps.deleted

theorem queueInLoop_quiet (c : ConnId) (f : Functor) : Quiet s (s.queueInLoop (.bound c f)) := by
  refine { Quiet.refl s with same := rfl, pending := fun q hq => ?_ }
  rcases List.mem_append.mp hq with hold | hnew
  · exact Or.inl hold
  · rw [List.mem_singleton] at hnew
    exact Or.inr ⟨c, f, hnew⟩

theorem control_quiet {c : ConnId} {ctl : Ctl} (hsize : c < s.size)
    (hfd : ctl.fd = (s.conn c).tcp.pSocketChannel.sockfd) (hdel : s.Deleted c → ctl.op = .del) :
    Quiet s (s.control (.conn c) ctl) := by
  refine { Quiet.refl s with same := rfl, interest := fun fd x hx => ?_ }
  rcases epollCtl_some hx with hold | ⟨rfl, hc, hop, -⟩
  · exact Or.inl hold
  · exact Or.inr ⟨c, hc, hfd.symm, hsize, fun hd => hop (hdel hd)⟩

theorem effect_conn (c : ConnId) (e : Effect) : (effect c s e).conn = s.conn := by
  cases e with
  | write data w => rfl
  | queueInLoop f => rfl
  | epollCtl ctl => rfl

theorem effects_quiet {s : Client} {c : ConnId} {effects : List Effect} (hsize : c < s.size)
    (hctl : ∀ ctl, .epollCtl ctl ∈ effects →
      ctl.fd = (s.conn c).tcp.pSocketChannel.sockfd ∧ (s.Deleted c → ctl.op = .del)) :
    Quiet s (effects.foldl (effect c) s) := by
  induction effects generalizing s with
  | nil => exact Quiet.refl s
  | cons e effects ih =>
    have hone : Quiet s (effect c s e) := by
      cases e with
      | write data w => exact Quiet.refl s
      | queueInLoop f => exact s.queueInLoop_quiet c f
      | epollCtl ctl =>
        obtain ⟨hfd, hdel⟩ := hctl ctl List.mem_cons_self
        exact s.control_quiet hsize hfd hdel
    refine hone.trans (ih (hone.size ▸ hsize) fun ctl he => ?_)
    rw [Deleted, s.effect_conn c e]
    exact hctl ctl (List.mem_cons_of_mem e he)

theorem called_quiet {c : ConnId} {call : Call} (hsize : c < s.size) (hcall : Calm (s.conn c).tcp call) :
    Quiet s (s.called c call) := by
  refine (s.keeps_quiet c hcall.keeps).trans (effects_quiet hsize fun ctl hctl => ?_)
  have hself : ((s.setTcp c call.conn).conn c).tcp = call.conn := by simp [setTcp, setConn]
  rw [Deleted, hself, hcall.keeps.channelfd, hcall.keeps.deleted]
  exact hcall.ctl ctl hctl

theorem setChannel_quiet (events : Events) (ch : Source) : Quiet s (s.setChannel events ch) := by
  cases ch with
  | attempt a =>
    refine { Quiet.refl s with same := rfl, slot := ?_ }
    simp only [setChannel, slot, Option.map_map]
    rfl
  | conn c => exact s.setTcp_quiet c rfl rfl Iff.rfl

theorem setRevents_quiet (events : List (Source × Events)) : Quiet s (s.setRevents events) := by
  induction events generalizing s with
  | nil => exact Quiet.refl s
  | cons p events ih =>
    obtain ⟨src, e⟩ := p
    rw [setRevents]
    split
    · exact (s.setChannel_quiet e _).trans (ih _)
    · exact (s.crash_quiet true).trans (ih _)

theorem send_quiet {c : ConnId} (hsize : c < s.size) (inLoop : Bool) (message : List Byte) (w : WriteResult) :
    Quiet s (s.act inLoop (.send c message w)) := by
  simp only [act]
  split
  · exact s.called_quiet hsize (TcpConnection.sendInLoop_calm _ message w)
  · exact s.queueInLoop_quiet c _

/-! ## `handleEvent` -/

theorem moves_quiet {s u : Client} {c : ConnId} (hsize : s.alive c = true → c < s.size) (h : host.Moves c s u) :
    Quiet s u := by
  induction h with
  | refl => exact Quiet.refl s
  | tail _ hmove ih =>
    rename_i t u _
    have hknown : t.alive c = true → c < t.size := by
      intro halive
      rw [alive, ih.owners] at halive
      exact ih.size ▸ hsize halive
    refine ih.trans ?_
    cases hmove with
    | consult => exact t.observe_quiet rfl
    | read => exact t.observe_quiet rfl
    | write halive =>
      have hobserve : Quiet t (t.observe (.handler c .handleWrite)) := t.observe_quiet rfl
      exact hobserve.trans (called_quiet _ (hknown halive) (TcpConnection.handleWrite_calm _ _))

theorem testOut_quiet {c : ConnId} (hsize : s.alive c = true → c < s.size) (w : WriteResult) :
    Quiet s (s.testOut c w) := moves_quiet hsize (host.testOut_moves s c w)

/-- What `handleEvent` leads to: nothing, `onMessage`, or `handleClose`. -/
inductive Event (s : Client) (c : ConnId) (res : Buffer.ReadResult) (v : Client) : Client → Prop
  | nothing : Event s c res v v
  | read : Event s c res v ((v.setFrame (.user c .read)).observe (.callback c .onMessage))
  | close (hcloses : (s.conn c).tcp.Closes res) (halive : s.alive c = true) : Event s c res v (v.handleClose c)

theorem handleEvent_cases {c : ConnId} (hsize : s.alive c = true → c < s.size) (res : Buffer.ReadResult)
    (w : WriteResult) : ∃ v, Quiet s v ∧ Event s c res v (s.handleEvent c res w) := by
  obtain ⟨v, hmoves, hevent⟩ := host.handleEvent_cases s () c res w
  have hquiet := moves_quiet hsize hmoves
  unfold handleEvent
  generalize host.handleEvent s () c res w = u at hevent ⊢
  cases hevent with
  | nothing => exact ⟨v, hquiet, .nothing⟩
  | onMessage halive hread =>
    have hset := hquiet.trans (v.keeps_quiet c (TcpConnection.handleRead_keeps hread))
    unfold Host.onMessage
    split
    · exact ⟨_, hset, .read⟩
    · exact ⟨_, hset.trans (crash_quiet _ true), .nothing⟩
  | close halive hcloses =>
    refine ⟨v, hquiet, .close hcloses ?_⟩
    rw [alive, ← hquiet.owners]
    exact halive

theorem handleClose_eq (c : ConnId) : s.handleClose c =
    { s with
      conn := Function.update s.conn c { s.conn c with tcp := (s.conn c).tcp.disableChannel.1 }
      interest := epollCtl (.conn c) ⟨.del, (s.conn c).tcp.pSocketChannel.sockfd, 0⟩ s.interest
      loop := { s.loop with frame := .user c (.closed (s.conn c).tcp.pUser) }
      trace := s.trace ++
        .handler c .handleClose :: if (s.conn c).tcp.pUser then [.callback c .onClose] else [] } := by
  cases hcase : (s.conn c).tcp.pUser <;>
    simp [handleClose, Host.handleClose, Host.disableChannel, host, control, setTcp, setConn, observe, setFrame,
      TcpConnection.disableChannel, Channel.disableAll, Channel.update, Channel.setIndex, hcase]

theorem handleClose_deleted (c d : ConnId) : (s.handleClose c).Deleted d ↔ d = c ∨ s.Deleted d := by
  rw [handleClose_eq]
  by_cases h : d = c
  · subst h
    simp [Deleted, TcpConnection.disableChannel, Channel.disableAll, Channel.update, Channel.setIndex]
  · simp [Deleted, h]

theorem setHeld_deleted (c d : ConnId) (held : Nat) :
    (s.setConn c { s.conn c with held }).Deleted d ↔ s.Deleted d := by
  by_cases h : d = c
  · subst h
    simp [Deleted, setConn]
  · simp [Deleted, setConn, h]

/-! ## `TcpClient` -/

/-- The connection that `newConnection` makes. -/
def fresh (sockfd : Int) : Conn :=
  let tcp := (TcpConnection.init sockfd).enableReading.1
  ⟨if s.user then tcp.setUser else tcp.setUpLayerCloseCallback, 0, s.attempts - 1⟩

theorem newConnection_eq (sockfd : Int) : s.newConnection sockfd =
    { s with
      size := s.size + 1
      conn := Function.update s.conn s.size (s.fresh sockfd)
      connection := if s.user then s.connection else some s.size
      interest := epollCtl (.conn s.size) ⟨.add, sockfd, EPOLLIN⟩ s.interest
      loop := { s.loop with frame := if s.user then .user s.size .connected else .idle }
      trace := s.trace ++ if s.user then [.callback s.size .onConnection] else [] } := by
  cases hcase : s.user <;>
    simp [newConnection, connectionMade, fresh, control, setTcp, setConn, observe, setFrame, TcpConnection.init,
      TcpConnection.enableReading, Channel.enableReading, Channel.update, Channel.setIndex, Channel.init,
      Channel.setCallback, hcase]

theorem fresh_sockfd (sockfd : Int) : (s.fresh sockfd).tcp.sockfd = sockfd := by
  unfold fresh
  dsimp only
  split <;> rfl

theorem fresh_channel (sockfd : Int) : (s.fresh sockfd).tcp.pSocketChannel.sockfd = sockfd ∧
    (s.fresh sockfd).tcp.pSocketChannel.index = .kAdded := by
  unfold fresh
  dsimp only
  split <;> exact ⟨rfl, rfl⟩

theorem newConnection_deleted {sockfd : Int} {c : ConnId} (hc : c ≠ s.size) :
    (s.newConnection sockfd).Deleted c ↔ s.Deleted c := by
  rw [newConnection_eq]
  simp only [Deleted, Function.update_of_ne hc]

theorem return_closed (c : ConnId) (w : WriteResult) (called : Bool) : ∃ connection,
    (connection = s.connection ∨ connection = none ∧ s.connection = some c) ∧
    s.return_ c w (.closed called) = ({ s with connection }.setFrame .idle).testOut c w := by
  simp only [return_, removeConnection]
  split
  · split
    · rename_i h
      exact ⟨none, Or.inr ⟨rfl, h⟩, rfl⟩
    · exact ⟨s.connection, Or.inl rfl, rfl⟩
  · exact ⟨s.connection, Or.inl rfl, rfl⟩

/-! ## `Connector` -/

/-- The attempt for which `handleWrite` finds that it is connected, and what `getsockopt` stored. -/
def succeeds : Label → Option (Attempt × Int)
  | .handle _ _ (some optval) =>
    match s.loop.active.head?.bind s.dataPtr, s.pSockChan with
    | some (.attempt _), some (a, ch) => if ch.revents &&& EPOLLOUT ≠ 0 then some (a, optval) else none
    | _, _ => none
  | _ => none

/-- `handleWrite` before it calls `newConnection`. -/
def leave (a : Attempt) (ch : Channel) : Client :=
  { s with
    pSockChan := some (a, (ch.setIndex .kDeleted).disableAll.1)
    interest := epollCtl (.attempt a) ⟨.del, ch.sockfd, 0⟩ s.interest
    loop := { s.loop with pendingFunctors := s.loop.pendingFunctors ++ [.resetChannel false (some a)] } }

theorem handleWrite_eq (a : Attempt) (ch : Channel) (optval : Int) : s.handleWrite a ch (some optval) =
    if s.callback then ((s.leave a ch).observe (.newConnection a s.sockFd optval)).newConnection s.sockFd
    else { s.leave a ch with crashed := true } := rfl

theorem handleWrite_size (a : Attempt) (ch : Channel) (optval : Int) :
    (s.handleWrite a ch (some optval)).size = if s.callback then s.size + 1 else s.size := by
  rw [handleWrite_eq]
  split
  · rw [newConnection_eq]
    rfl
  · rfl

variable {s}

theorem handle_attempt {u : Client} {src : Source} {a : Attempt} {rest : List Source} {res : Buffer.ReadResult}
    {w : WriteResult} {so : Option Int} (hactive : s.loop.active = src :: rest)
    (hptr : s.dataPtr src = some (.attempt a)) (hu : u = (s.takeActive rest).handle res w so src) :
    (s.succeeds (.handle res w so) = none ∧ Quiet (s.takeActive rest) u) ∨
      ∃ ch optval, s.pSockChan = some (a, ch) ∧ so = some optval ∧
        s.succeeds (.handle res w so) = some (a, optval) ∧
        u = ((s.takeActive rest).observe (.consulted (.attempt a) true)).handleWrite a ch (some optval) := by
  have hobserve : Quiet (s.takeActive rest) ((s.takeActive rest).observe (.consulted (.attempt a) true)) :=
    observe_quiet _ rfl
  have hhead : s.loop.active.head?.bind s.dataPtr = some (.attempt a) := by
    rw [hactive, List.head?_cons, Option.bind_some, hptr]
  obtain ⟨⟨b, ch⟩, hchan, hb⟩ : ∃ p, s.pSockChan = some p ∧ p.1 = a :=
    Option.map_eq_some_iff.mp (dataPtr_exists hptr)
  obtain rfl : b = a := hb
  have hhandle : u = (s.takeActive rest).handleAttempt so := by
    have hsame : (s.takeActive rest).dataPtr src = some (.attempt b) := hptr
    rw [hu, handle, hsame]
  have hsame : (s.takeActive rest).pSockChan = some (b, ch) := hchan
  rw [hhandle, handleAttempt, hsame]
  by_cases hout : ch.revents &&& EPOLLOUT ≠ 0
  · simp only [if_pos hout]
    cases so with
    | none => exact Or.inl ⟨rfl, hobserve⟩
    | some optval =>
      refine Or.inr ⟨ch, optval, hchan, rfl, ?_, rfl⟩
      simp only [succeeds, hhead, hchan]
      exact if_pos hout
  · simp only [if_neg hout]
    refine Or.inl ⟨?_, hobserve⟩
    cases so with
    | none => rfl
    | some optval => simp only [succeeds, hhead, hchan, if_neg hout]

theorem succeeds_conn {res : Buffer.ReadResult} {w : WriteResult} {so : Option Int}
    (h : ∀ a, s.loop.active.head?.bind s.dataPtr ≠ some (.attempt a)) : s.succeeds (.handle res w so) = none := by
  cases so with
  | none => rfl
  | some optval =>
    simp only [succeeds]
    split
    · rename_i a _ _ hhead _
      exact absurd hhead (h a)
    · rfl

end Muduo.Client
