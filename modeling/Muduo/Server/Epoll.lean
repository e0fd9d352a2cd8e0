import Muduo.Server.Writing

/-! # What the loops of a server wait for

The server closes no descriptor, so `accept` does not return one that a connection has had. Then what the loops wait
for is what the channels of the open connections say, and the listening descriptor.
-/

namespace Muduo

theorem Link.Op.updated {op : Link.Op} (hnew : ∀ fd, op ≠ .create fd) (tcp : TcpConnection) :
    tcp.pSocketChannel.Updated (op.conn tcp).pSocketChannel (op.ctls tcp) := by
  cases op with
  | create fd => exact absurd rfl (hnew fd)
  | call e =>
    cases e with
    | sendInLoop message w => exact tcp.sendInLoop_updated message w
    | handleWrite w => exact tcp.handleWrite_updated w
    | handleRead res =>
      have hsame := tcp.handleRead_channel res
      exact .same (congrArg Channel.sockfd hsame) (congrArg Channel.index hsame) (congrArg Channel.events hsame)
  | enableReading => exact tcp.pSocketChannel.enableReading_updated
  | disableChannel => exact .updated { tcp.pSocketChannel.setIndex .kDeleted with events := 0 } rfl (Or.inr rfl)
  | setRevents revents | setUser | setUpLayerCloseCallback => exact .same rfl rfl rfl

namespace Server

open Link (Op)

/-! ## Steps -/

/-- `accept` fails, or returns a descriptor that no connection has had. -/
def Fresh (s : Server) : Label → Prop
  | .accept fd => fd < 0 ∨ ∀ c < s.size, s.fd c ≠ fd
  | _ => True

instance (s : Server) : (l : Label) → Decidable (s.Fresh l)
  | .accept fd => inferInstanceAs (Decidable (fd < 0 ∨ ∀ c < s.size, s.fd c ≠ fd))
  | .poll _ _ | .statement | .handle _ _ _ | .return_ _ _ | .act _ _ | .foreign _ | .swap _ | .runFunctor _ _
  | .endBatch _ => .isTrue trivial

/-- What the loops wait for but for the connections. -/
def listening (listenfd : Int) : Nat → Interest Source := fun L fd =>
  if L = 0 ∧ fd = listenfd ∧ 0 ≤ fd then some (.listen, EPOLLIN) else none

def channel (s : Server) (c : ConnId) : Channel := (s.conn c).tcp.pSocketChannel

/-- From `s` to `u` what epoll is told is what becomes of the channel of one connection. -/
def Tells (s u : Server) : Prop :=
  ∃ c ctls, (s.channel c).Updated (u.channel c) ctls ∧ (∀ d, d ≠ c → (s.channel d).Updated (u.channel d) []) ∧
    u.interest = s.controls c ctls

theorem step_tells {s u : Server} {l : Label} (h : step s l = some u) (hl : ∀ fd, l ≠ .accept fd) : s.Tells u := by
  by_cases hpoll : ∃ L events, l = .poll L events
  · obtain ⟨L, events, rfl⟩ := hpoll
    have hsame : ∀ c, (s.channel c).Updated (u.channel c) [] := by
      intro c
      rw [channel, channel, step_op h c, op]
      cases events.find? (·.1 = .conn c) with
      | none => exact .refl _
      | some p => exact .same rfl rfl rfl
    obtain ⟨-, rfl⟩ := Machine.guard_some.mp h
    refine ⟨0, [], hsame 0, fun d _ => hsame d, ?_⟩
    rw [controls_nil]
    exact setRevents_rel (R := fun s u => u.interest = s.interest) (fun _ => rfl) (fun h k => k.trans h)
      (fun _ _ _ => rfl) s events
  · obtain ⟨c, hdoes, hothers⟩ := step_does h hl fun L events hp => hpoll ⟨L, events, hp⟩
    have hsame : ∀ d, d ≠ c → (s.channel d).Updated (u.channel d) [] := by
      intro d hd
      rw [channel, channel, step_op h d, hothers d hd]
      exact .refl _
    cases hop : s.op c l with
    | none =>
      refine ⟨c, [], ?_, hsame, ?_⟩
      · rw [channel, channel, step_op h c, hop]
        exact .refl _
      · rw [hdoes.interest, hop, controls_nil]
        rfl
    | some op =>
      refine ⟨c, op.ctls (s.conn c).tcp, ?_, hsame, ?_⟩
      · rw [channel, channel, step_op h c, hop]
        exact Op.updated (fun fd hfd => hl fd (op_create (hfd ▸ hop)).1) (s.conn c).tcp
      · rw [hdoes.interest, hop]
        rfl

theorem accept_fd (s : Server) (fd : Int) (c : ConnId) :
    (s.accept fd).fd c = if c = s.size then fd else s.fd c := by
  by_cases hc : c = s.size
  · rw [if_pos hc, hc, Server.fd, accept_new]
    rfl
  · rw [if_neg hc, Server.fd, accept_old s fd hc, Server.fd]

theorem accept_listenfd (s : Server) (fd : Int) : (s.accept fd).listenfd = s.listenfd := by
  rw [accept_eq]
  rfl

/-! ## The invariant -/

structure Watched (s : Server) (listenfd : Int) : Prop where
  acceptor : s.listenfd = listenfd
  unborn : ∀ c, s.size ≤ c → s.fd c < 0
  sockfd : ∀ c, (s.channel c).sockfd = s.fd c
  other : ∀ c, 0 ≤ s.fd c → s.fd c ≠ listenfd
  apart : ∀ c d, 0 ≤ s.fd c → s.fd c = s.fd d → c = d
  entry : ∀ c, (s.channel c).Mirrored (.conn c) (s.interest (s.conn c).loop)
  rest : ∀ L fd, (0 ≤ fd → ∀ c, (s.conn c).loop = L → s.fd c ≠ fd) → s.interest L fd = listening listenfd L fd

theorem init_watched (n : Nat) (user : Bool) (listenfd : Int) (address : ConnId → TcpConnection.Addr) :
    (init n user listenfd address).Watched listenfd where
  acceptor := rfl
  other := fun c hfd => absurd hfd (by decide : ¬ (0 : Int) ≤ -1)
  unborn := fun c _ => (by decide : (-1 : Int) < 0)
  sockfd := fun _ => rfl
  apart := fun c d hfd _ => absurd hfd (by decide : ¬ (0 : Int) ≤ -1)
  entry := fun c hfd => absurd hfd (by decide : ¬ (0 : Int) ≤ -1)
  rest := fun _ _ _ => rfl

namespace Watched

variable {s u : Server} {listenfd : Int}

theorem told (hs : s.Watched listenfd) (hfixed : Fixed s u) (h : s.Tells u) : u.Watched listenfd := by
  obtain ⟨c, ctls, hc, hothers, hinterest⟩ := h
  have hupdate : u.interest = Function.update s.interest (s.conn c).loop
      (register (.conn c) (s.interest (s.conn c).loop) ctls) := hinterest
  refine ⟨hfixed.listenfd.trans hs.acceptor, fun d hd => ?_, fun d => ?_, fun d hd => ?_, fun d e hd hde => ?_,
    fun d => ?_, fun L fd hnone => ?_⟩
  · rw [hfixed.fd]
    exact hs.unborn d (hfixed.size ▸ hd)
  · rw [hfixed.fd, ← hs.sockfd d]
    by_cases hd : d = c
    · exact hd ▸ hc.sockfd
    · exact (hothers d hd).sockfd
  · rw [hfixed.fd] at hd ⊢
    exact hs.other d hd
  · rw [hfixed.fd] at hd hde
    rw [hfixed.fd] at hde
    exact hs.apart d e hd hde
  · rw [hfixed.loop, hupdate]
    by_cases hd : d = c
    · subst hd
      rw [Function.update_self]
      exact hc.mirrored (hs.entry d)
    · have hkept : (u.channel d).Mirrored (.conn d) (s.interest (s.conn d).loop) := (hothers d hd).mirrored (hs.entry d)
      by_cases hloop : (s.conn d).loop = (s.conn c).loop
      · rw [hloop, Function.update_self]
        intro hfd
        have hdfd : (u.channel d).sockfd = s.fd d := (hothers d hd).sockfd.trans (hs.sockfd d)
        have hne : (u.channel d).sockfd ≠ (s.channel c).sockfd := by
          rw [hdfd, hs.sockfd c]
          exact fun heq => hd (hs.apart d c (hdfd ▸ hfd) heq)
        rw [hc.of_ne (Source.conn c) _ hne, ← hloop]
        exact hkept hfd
      · rwa [Function.update_of_ne hloop]
  · have hfree : 0 ≤ fd → ∀ d, (s.conn d).loop = L → s.fd d ≠ fd := by
      intro hfd d hd
      rw [← hfixed.fd]
      exact hnone hfd d (by rw [hfixed.loop, hd])
    rw [hupdate, ← hs.rest L fd hfree]
    by_cases hL : L = (s.conn c).loop
    · subst hL
      rw [Function.update_self]
      by_cases hfd : fd = (s.channel c).sockfd
      · -- The connection was not accepted, and is not registered.
        have hneg : fd < 0 := by
          by_contra hpos
          exact hfree (not_lt.mp hpos) c rfl (by rw [hfd, hs.sockfd])
        have hempty : s.interest (s.conn c).loop fd = none := by
          rw [hs.rest _ _ hfree, listening, if_neg fun h => absurd h.2.2 (not_le.mpr hneg)]
        subst hfd
        rw [hc.invalid (Source.conn c) hneg hempty]
      · exact hc.of_ne (Source.conn c) _ hfd
    · rw [Function.update_of_ne hL]

theorem unused (hs : s.Watched listenfd) {fd : Int} (hfresh : s.Fresh (.accept fd)) (hpos : 0 ≤ fd) (c : ConnId) :
    s.fd c ≠ fd := by
  by_cases hc : c < s.size
  · exact hfresh.resolve_left (not_lt.mpr hpos) c hc
  · exact fun heq => absurd (hs.unborn c (not_lt.mp hc)) (not_lt.mpr (heq ▸ hpos))

theorem accepted (hs : s.Watched listenfd) {fd : Int} (hfresh : s.Fresh (.accept fd)) (hacceptable : s.Acceptable fd) :
    (s.accept fd).Watched listenfd := by
  have hold : ∀ c, c ≠ s.size → (s.accept fd).conn c = s.conn c := fun c hc => s.accept_old fd hc
  have hfd := s.accept_fd fd
  have hfree := hs.unused hfresh
  have hother : 0 ≤ fd → fd ≠ listenfd := by
    intro hpos
    have hopen := hacceptable.resolve_left fun heq => absurd hpos (by rw [heq]; decide)
    exact hs.acceptor ▸ hopen.2.1
  refine ⟨(s.accept_listenfd fd).trans hs.acceptor, fun c hc => ?_, fun c => ?_, fun c hc => ?_, fun c d hc hcd => ?_,
    fun c => ?_, fun L fd' hnone => ?_⟩
  · rw [accept_size] at hc
    rw [hfd, if_neg (Nat.ne_of_gt hc)]
    exact hs.unborn c (Nat.le_of_succ_le hc)
  · rw [hfd]
    by_cases hc : c = s.size
    · rw [if_pos hc, hc, channel, accept_new]
      rfl
    · rw [if_neg hc, channel, hold c hc]
      exact hs.sockfd c
  · rw [hfd] at hc ⊢
    split at hc
    · rename_i hnew
      rw [if_pos hnew]
      exact hother hc
    · rename_i hnew
      rw [if_neg hnew]
      exact hs.other c hc
  · rw [hfd] at hc
    rw [hfd, hfd] at hcd
    split at hc
    · rename_i hnew
      rw [if_pos hnew] at hcd
      split at hcd
      · rename_i hd
        exact hnew.trans hd.symm
      · exact absurd hcd.symm (hfree hc d)
    · rename_i hnew
      rw [if_neg hnew] at hcd
      split at hcd
      · exact absurd hcd (hfree (hcd ▸ hc) c)
      · exact hs.apart c d hc hcd
  · rw [accept_interest]
    by_cases hc : c = s.size
    · intro hpos
      rw [hc, channel, accept_new] at hpos ⊢
      have hpos : 0 ≤ fd := hpos
      have hrest := hs.rest s.getNextLoop.2 fd fun hpos d _ => hfree hpos d
      exact hrest.trans (if_neg fun h => hother hpos h.2.1)
    · rw [channel, hold c hc]
      exact hs.entry c
  · rw [accept_interest]
    refine hs.rest L fd' fun hpos c hc => ?_
    by_cases hnew : c = s.size
    · rw [hnew]
      exact fun heq => absurd (hs.unborn s.size le_rfl) (not_lt.mpr (heq ▸ hpos))
    · have hkept := hnone hpos c (by rw [hold c hnew, hc])
      rwa [hfd, if_neg hnew] at hkept

end Watched

theorem step_watched {s u : Server} {l : Label} {listenfd : Int} (hs : s.Watched listenfd) (hfresh : s.Fresh l)
    (h : step s l = some u) : u.Watched listenfd := by
  by_cases hl : ∃ fd, l = .accept fd
  · obtain ⟨fd, rfl⟩ := hl
    obtain ⟨rest, -, -, hacceptable, rfl⟩ := accept_inv h
    have htake : (s.takeActive 0 rest).Watched listenfd :=
      ⟨hs.acceptor, hs.unborn, hs.sockfd, hs.other, hs.apart, hs.entry, hs.rest⟩
    exact htake.accepted hfresh hacceptable
  · have hnot : ∀ fd, l ≠ .accept fd := fun fd hfd => hl ⟨fd, hfd⟩
    exact hs.told (step_fixed h hnot) (step_tells h hnot)

theorem Watched.interest {s : Server} {listenfd : Int} (hs : s.Watched listenfd) (L : Nat) (fd : Int) (src : Source)
    (events : Events) : s.interest L fd = some (src, events) ↔ 0 ≤ fd ∧
      ((src = .listen ∧ events = EPOLLIN ∧ L = 0 ∧ fd = listenfd) ∨ ∃ c, src = .conn c ∧ events = (s.channel c).events ∧
        L = (s.conn c).loop ∧ fd = s.fd c ∧ (s.channel c).index = .kAdded) := by
  by_cases hconn : 0 ≤ fd ∧ ∃ c, (s.conn c).loop = L ∧ s.fd c = fd
  · obtain ⟨hfd, c, rfl, rfl⟩ := hconn
    have hentry := hs.entry c (hs.sockfd c ▸ hfd)
    rw [hs.sockfd c] at hentry
    rw [hentry]
    constructor
    · intro h
      split at h <;> cases h
      exact ⟨hfd, Or.inr ⟨c, rfl, rfl, rfl, rfl, by assumption⟩⟩
    · rintro ⟨-, ⟨-, -, -, hlisten⟩ | ⟨d, rfl, rfl, -, hd, hadded⟩⟩
      · exact absurd hlisten (hs.other c hfd)
      · obtain rfl := hs.apart c d hfd hd
        rw [if_pos hadded]
  · have hfree : 0 ≤ fd → ∀ c, (s.conn c).loop = L → s.fd c ≠ fd := fun hfd c hc heq => hconn ⟨hfd, c, hc, heq⟩
    rw [hs.rest L fd hfree, listening]
    constructor
    · intro h
      split at h <;> cases h
      rename_i hlisten
      exact ⟨hlisten.2.2, Or.inl ⟨rfl, rfl, hlisten.1, hlisten.2.1⟩⟩
    · rintro ⟨hfd, ⟨rfl, rfl, hL, hlisten⟩ | ⟨c, -, -, hL, hc, -⟩⟩
      · rw [if_pos ⟨hL, hlisten, hfd⟩]
      · exact absurd ⟨hfd, c, hL.symm, hc.symm⟩ hconn

/-! ## Runs -/

/-- In every run the interest list of a loop has, its own eventfd and timerfd apart, the listening descriptor, if it is
the base loop's, and for each open connection of the loop its descriptor with the events of its channel, and nothing
else. So a loop that polls gets no closed connection, and none of another loop. -/
theorem loops_watch_open (n : Nat) (user : Bool) (listenfd : Int) (address : ConnId → TcpConnection.Addr)
    (labels : List Label) (s : Server)
    (hrun : Machine.run step (init n user listenfd address) labels = some s)
    (hfresh : Machine.Meets step Fresh (init n user listenfd address) labels) :
    (∀ L fd src events, s.interest L fd = some (src, events) ↔ 0 ≤ fd ∧
      ((src = .listen ∧ events = EPOLLIN ∧ L = 0 ∧ fd = listenfd) ∨ ∃ c, src = .conn c ∧ events = (s.channel c).events ∧
        L = (s.conn c).loop ∧ fd = s.fd c ∧ (s.channel c).index = .kAdded)) ∧
      ∀ L ready u, step s (.poll L ready) = some u → ∀ c revents, (.conn c, revents) ∈ ready →
        L = (s.conn c).loop ∧ (s.channel c).index = .kAdded := by
  have hwatched : s.Watched listenfd :=
    Machine.run_invariant_of_meets (fun _ _ _ => step_watched) (init_watched n user listenfd address) hfresh hrun
  refine ⟨hwatched.interest, fun L ready u h c revents hin => ?_⟩
  obtain ⟨⟨-, hregistered, -⟩, -⟩ := Machine.guard_some.mp h
  have hentry : (s.interest L (s.fd c)).map Prod.fst = some (.conn c) := hregistered _ hin
  obtain ⟨⟨src, events⟩, hsome, hsrc⟩ := Option.map_eq_some_iff.mp hentry
  obtain ⟨-, ⟨hlisten, -⟩ | ⟨d, hd, -, hL, -, hadded⟩⟩ := (hwatched.interest L (s.fd c) src events).mp hsome
  · rw [hlisten] at hsrc
    cases hsrc
  · rw [hd, Source.conn.injEq] at hsrc
    subst hsrc
    exact ⟨hL, hadded⟩

theorem loops_watch_open_sending : ∃ s, Machine.run step (init 1 true 3 id) sending = some s ∧
    s.interest 1 5 = some (.conn 0, EPOLLIN ||| EPOLLOUT) := by
  have hopen : (Machine.run step (init 1 true 3 id) sending).map
      (fun s => decide ((s.channel 0).events = EPOLLIN ||| EPOLLOUT ∧ (s.conn 0).loop = 1 ∧ s.fd 0 = 5 ∧
        (s.channel 0).index = .kAdded)) = some true := by decide +kernel
  obtain ⟨s, hrun, hfacts⟩ := Option.map_eq_some_iff.mp hopen
  obtain ⟨hevents, hloop, hfd, hindex⟩ := of_decide_eq_true hfacts
  have hwatch :=
    (loops_watch_open 1 true 3 id sending s hrun (by decide +kernel)).1 1 5 (.conn 0) (EPOLLIN ||| EPOLLOUT)
  exact ⟨s, hrun, hwatch.mpr ⟨by decide, Or.inr ⟨0, rfl, hevents.symm, hloop.symm, hfd.symm, hindex⟩⟩⟩

end Server

end Muduo
