import Muduo.Connection.Stream

/-! # When a connection asks to write

`sendInLoop` switches `EPOLLOUT` on and `handleWrite` switches it off. A connection asks for it exactly
while bytes wait in `_outBuf`, and when the last of them goes one `onWriteComplateCB` is queued.
-/

namespace Muduo

namespace Channel

theorem enableWriting_isWriting (ch : Channel) : ch.enableWriting.1.isWriting = true := by
  have hevents : ch.enableWriting.1.events = ch.events ||| EPOLLOUT := by
    unfold enableWriting update
    split <;> rfl
  have hout : (ch.events ||| EPOLLOUT) &&& EPOLLOUT = EPOLLOUT := by
    ext i hi
    rw [BitVec.getElem_and, BitVec.getElem_or]
    cases EPOLLOUT[i] <;> simp
  rw [isWriting, hevents, hout]
  decide

theorem disableWriting_isWriting (ch : Channel) : ch.disableWriting.1.isWriting = false := by
  have hevents : ch.disableWriting.1.events = ch.events &&& ~~~EPOLLOUT := by
    unfold disableWriting update
    split <;> rfl
  rw [isWriting, hevents, BitVec.and_assoc, show ~~~EPOLLOUT &&& EPOLLOUT = 0 by decide]
  simp

theorem update_added (ch : Channel) (h : ch.index = .kAdded) : ch.update = (ch, ⟨.mod, ch.sockfd, ch.events⟩) := by
  unfold update
  rw [h]

theorem enableWriting_added {ch : Channel} (h : ch.index = .kAdded) :
    ch.enableWriting.1.index = .kAdded ∧
    ch.enableWriting.2 = ⟨.mod, ch.enableWriting.1.sockfd, ch.enableWriting.1.events⟩ := by
  rw [enableWriting, update_added { ch with events := ch.events ||| EPOLLOUT } h]
  exact ⟨h, rfl⟩

theorem disableWriting_added {ch : Channel} (h : ch.index = .kAdded) :
    ch.disableWriting.1.index = .kAdded ∧
    ch.disableWriting.2 = ⟨.mod, ch.disableWriting.1.sockfd, ch.disableWriting.1.events⟩ := by
  rw [disableWriting, update_added { ch with events := ch.events &&& ~~~EPOLLOUT } h]
  exact ⟨h, rfl⟩

end Channel

/-- An open connection with what it last told epoll and how often it has queued `onWriteComplateCB`. -/
structure Watch where
  link : Link
  ctl : Ctl
  completions : Nat

namespace Watch

def init (sockfd : Int) : Watch := ⟨Link.init sockfd, (TcpConnection.init sockfd).enableReading.2, 0⟩

def effects (s : Link) : Link.Event → List Effect
  | .sendInLoop message w => (s.conn.sendInLoop message w).effects
  | .handleWrite w => (s.conn.handleWrite w).effects
  | .handleRead _ => []

/-- The last call of `epoll_ctl`. -/
def lastCtl : Ctl → List Effect → Ctl
  | ctl, [] => ctl
  | _, .epollCtl ctl :: effects => lastCtl ctl effects
  | ctl, _ :: effects => lastCtl ctl effects

def completed (effects : List Effect) : Nat := effects.count (.queueInLoop .onWriteComplateCB)

def next (s : Watch) (e : Link.Event) : Watch :=
  { link := s.link.next e
    ctl := lastCtl s.ctl (effects s.link e)
    completions := s.completions + completed (effects s.link e) }

def step (s : Watch) (e : Link.Event) : Option Watch := if s.link.Possible e then some (s.next e) else none

/-- Bytes wait in `_outBuf`. -/
def Waiting (s : Watch) : Prop := s.link.conn.outBuf.content ≠ []

/-! ## One call -/

/-- The channel is registered, `ctl` is what epoll was told last, and `EPOLLOUT` is in it exactly while bytes
wait. -/
structure Asks (c : TcpConnection) (ctl : Ctl) : Prop where
  index : c.pSocketChannel.index = .kAdded
  op : ctl.op ≠ .del
  events : ctl.events = c.pSocketChannel.events
  writing : c.pSocketChannel.isWriting = true ↔ c.outBuf.content ≠ []

/-- A call after which the connection asks for what it needs, and which completes what waited before or what
waits behind it only when nothing is left. -/
structure Settles (c : TcpConnection) (ctl : Ctl) (call : Call) : Prop where
  asks : Asks call.conn (lastCtl ctl call.effects)
  complete : c.outBuf.content ≠ [] ∨ call.conn.outBuf.content ≠ [] →
    completed call.effects = if call.conn.outBuf.content = [] then 1 else 0

theorem settles_same {c : TcpConnection} {ctl : Ctl} (h : Asks c ctl) {effects : List Effect} (raised : Bool)
    (hctl : lastCtl ctl effects = ctl) (hnone : completed effects = 0) : Settles c ctl ⟨c, effects, raised⟩ where
  asks := by rwa [hctl]
  complete := fun hwaits => by rw [hnone, if_neg (or_self_iff.mp hwaits)]

theorem substr_ne_nil {message rest : List Byte} {n : Int} (hlt : n < toInt message.length)
    (hn : -0x80000000 ≤ n) (hlen : message.length < 0x8000000000000000)
    (hsub : substr message (toSize n) message.length = some rest) : rest ≠ [] := by
  obtain ⟨hle, rfl⟩ := Link.substr_some hsub
  have hmessage := Link.toInt_le message.length
  have hrange := Link.toInt_range message.length
  have hpos : 0 ≤ n := by
    by_contra hneg
    have hbig := Link.le_toSize_of_neg (by omega) hn
    omega
  have hsize := Link.toSize_of_nonneg hpos (by omega)
  intro hnil
  have hdrop := congrArg List.length hnil
  rw [List.length_drop, List.length_nil] at hdrop
  omega

theorem bufferRest_settles {c : TcpConnection} {ctl : Ctl} (h : Asks c ctl) {message : List Byte} {n : Int}
    (hn : -0x80000000 ≤ n) (hlen : message.length < 0x8000000000000000) :
    Settles c ctl (c.bufferRest message n) := by
  unfold TcpConnection.bufferRest
  split
  · rename_i hlt
    cases hsub : substr message (toSize n) message.length with
    | none => exact settles_same h true rfl rfl
    | some rest =>
      have hwaits : (c.outBuf.append rest).content ≠ [] := by
        simpa using fun _ => substr_ne_nil hlt hn hlen hsub
      simp only
      split
      · rename_i hwriting
        exact ⟨⟨h.index, h.op, h.events, iff_of_true hwriting hwaits⟩, fun _ => (if_neg hwaits).symm⟩
      · obtain ⟨hindex, hctl⟩ := Channel.enableWriting_added h.index
        refine ⟨⟨hindex, ?_, ?_, iff_of_true (Channel.enableWriting_isWriting _) hwaits⟩,
          fun _ => (if_neg hwaits).symm⟩
        · rw [hctl]
          simp [lastCtl]
        · rw [hctl]
          rfl
  · exact settles_same h false rfl rfl

theorem Settles.behind_write {c : TcpConnection} {ctl : Ctl} {call : Call} (h : Settles c ctl call)
    (data : List Byte) (w : WriteResult) : Settles c ctl (call.behind [.write data w]) where
  asks := h.asks
  complete := fun hwaits => by
    rw [Call.behind_conn, ← h.complete hwaits, Call.behind_effects, List.singleton_append]
    exact List.count_cons_of_ne (by simp)

theorem sendInLoop_settles {c : TcpConnection} {ctl : Ctl} (h : Asks c ctl) {message : List Byte} {w : WriteResult}
    (hlen : message.length < 0x8000000000000000) (hw : w.Possible message.length) :
    Settles c ctl (c.sendInLoop message w) := by
  unfold TcpConnection.sendInLoop
  split
  · rename_i hempty
    have hrest := bufferRest_settles h (Link.n_bounds hw).1 hlen
    split
    · -- The whole message is written: nothing waits before the call or behind it.
      rename_i hall
      have hnone : c.bufferRest message w.n = ⟨c, [], false⟩ := by
        rw [TcpConnection.bufferRest, if_neg (by omega)]
      rw [WfBuffer.readableBytes_eq] at hempty
      have hnil := List.eq_nil_of_length_eq_zero hempty
      rw [hnone]
      exact ⟨h, fun hwaits => absurd hnil (or_self_iff.mp hwaits)⟩
    · exact hrest.behind_write message w
  · exact bufferRest_settles h (by decide) hlen

theorem handleWrite_settles {c : TcpConnection} {ctl : Ctl} (h : Asks c ctl) (w : WriteResult) :
    Settles c ctl (c.handleWrite w) := by
  unfold TcpConnection.handleWrite
  split
  · rename_i hwriting
    simp only
    split
    · split
      · rename_i hempty
        rw [WfBuffer.readableBytes_eq] at hempty
        have hnil := List.eq_nil_of_length_eq_zero hempty
        obtain ⟨hindex, hctl⟩ := Channel.disableWriting_added h.index
        refine ⟨⟨hindex, ?_, ?_, iff_of_false ?_ (not_not_intro hnil)⟩, fun _ => (if_pos hnil).symm⟩
        · rw [hctl]
          simp [lastCtl]
        · rw [hctl]
          rfl
        · simp [Channel.disableWriting_isWriting]
      · rename_i hleft
        rw [WfBuffer.readableBytes_eq] at hleft
        have hwaits : (c.outBuf.retrieve (toSize w.n)).content ≠ [] := fun hnil => hleft (by rw [hnil]; rfl)
        exact ⟨⟨h.index, h.op, h.events, iff_of_true hwriting hwaits⟩, fun _ => (if_neg hwaits).symm⟩
    · exact settles_same h false rfl rfl
  · exact settles_same h false rfl rfl

/-! ## Steps -/

theorem step_settles {s u : Watch} {e : Link.Event} (h : Asks s.link.conn s.ctl) (hstep : step s e = some u) :
    Asks u.link.conn u.ctl ∧
    (s.Waiting ∨ u.Waiting → u.completions = s.completions + if u.link.conn.outBuf.content = [] then 1 else 0) := by
  obtain ⟨hpos, rfl⟩ := Machine.guard_some.mp hstep
  cases e with
  | sendInLoop message w =>
    have hcall := sendInLoop_settles h hpos.1 hpos.2
    exact ⟨hcall.asks, fun hwaits => congrArg _ (hcall.complete hwaits)⟩
  | handleWrite w =>
    have hcall := handleWrite_settles h w
    exact ⟨hcall.asks, fun hwaits => congrArg _ (hcall.complete hwaits)⟩
  | handleRead res =>
    have hsame : (s.link.conn.handleRead res).1.pSocketChannel = s.link.conn.pSocketChannel ∧
        (s.link.conn.handleRead res).1.outBuf = s.link.conn.outBuf := by
      cases res <;> simp only [TcpConnection.handleRead] <;> split <;> exact ⟨rfl, rfl⟩
    obtain ⟨hchannel, hout⟩ := hsame
    have hasks : Asks (s.link.conn.handleRead res).1 s.ctl :=
      ⟨by rw [hchannel]; exact h.index, h.op, by rw [hchannel]; exact h.events,
        by rw [hchannel, hout]; exact h.writing⟩
    refine ⟨hasks, fun hwaits => ?_⟩
    have hleft : (s.link.conn.handleRead res).1.outBuf.content ≠ [] := by
      rcases hwaits with hwaits | hwaits
      · rw [hout]
        exact hwaits
      · exact hwaits
    exact (if_neg hleft).symm ▸ rfl

theorem init_asks (sockfd : Int) : Asks (init sockfd).link.conn (init sockfd).ctl where
  index := rfl
  op := by simp [init, TcpConnection.enableReading, Channel.enableReading, Channel.update, TcpConnection.init,
    Channel.init, Channel.setCallback]
  events := rfl
  writing := by
    have hempty : (init sockfd).link.conn.outBuf.content = [] := Link.init_empty sockfd
    have hevents : (init sockfd).link.conn.pSocketChannel.events = 0 ||| EPOLLIN := rfl
    refine iff_of_false ?_ (not_not_intro hempty)
    rw [Channel.isWriting, hevents]
    decide

theorem run_asks {sockfd : Int} {events : List Link.Event} {s : Watch}
    (hrun : Machine.run step (init sockfd) events = some s) : Asks s.link.conn s.ctl :=
  Machine.run_invariant (fun _ _ _ h hstep => (step_settles h hstep).1) (init_asks sockfd) hrun

/-! ## Periods -/

/-- Bytes wait after each of the events. -/
def Throughout (s : Watch) (events : List Link.Event) : Prop :=
  ∀ front t, front ≠ [] → front <+: events → Machine.run step s front = some t → t.Waiting

theorem throughout_cons {s t : Watch} {e : Link.Event} {events : List Link.Event} (hstep : step s e = some t)
    (h : s.Throughout (e :: events)) : t.Waiting ∧ t.Throughout events := by
  refine ⟨h [e] t (by simp) (by simp) (by rw [Machine.run_cons, hstep]; rfl), fun front u _ hfront hrun => ?_⟩
  refine h (e :: front) u (by simp) (List.cons_prefix_cons.mpr ⟨rfl, hfront⟩) ?_
  rw [Machine.run_cons, hstep]
  exact hrun

theorem throughout_completions {s t : Watch} {events : List Link.Event} (h : Asks s.link.conn s.ctl)
    (hthroughout : s.Throughout events) (hrun : Machine.run step s events = some t) :
    t.completions = s.completions ∧ Asks t.link.conn t.ctl ∧ (events ≠ [] → t.Waiting) := by
  induction events generalizing s with
  | nil =>
    rw [Machine.run_nil, Option.some.injEq] at hrun
    subst hrun
    exact ⟨rfl, h, fun hne => absurd rfl hne⟩
  | cons e events ih =>
    obtain ⟨v, hstep, hrest⟩ := Machine.run_cons_some.mp hrun
    obtain ⟨hwaits, hlater⟩ := throughout_cons hstep hthroughout
    obtain ⟨hasks, hcompletions⟩ := step_settles h hstep
    obtain ⟨hsame, hend, hlast⟩ := ih hasks hlater hrest
    refine ⟨?_, hend, fun _ => ?_⟩
    · rw [hsame, hcompletions (Or.inr hwaits), if_neg hwaits, Nat.add_zero]
    · cases events with
      | nil =>
        rw [Machine.run_nil, Option.some.injEq] at hrest
        exact hrest ▸ hwaits
      | cons => exact hlast (by simp)

/-- `EPOLLOUT` is asked for exactly while bytes wait in `_outBuf`. A period in which bytes wait queues no
`onWriteComplateCB` until it ends, and one when it ends. -/
theorem interest_matches (sockfd : Int) (events : List Link.Event) (s : Watch)
    (hrun : Machine.run step (init sockfd) events = some s) :
    (s.ctl.op ≠ .del ∧ (s.ctl.events &&& EPOLLOUT ≠ 0 ↔ s.Waiting)) ∧
    (∀ period t, s.Throughout period → Machine.run step s period = some t →
      t.completions = s.completions ∧
      ∀ last u, period ≠ [] → step t last = some u → ¬ u.Waiting → u.completions = s.completions + 1) := by
  have hasks := run_asks hrun
  refine ⟨⟨hasks.op, ?_⟩, fun period t hthroughout hperiod => ?_⟩
  · rw [hasks.events, ← bne_iff_ne]
    exact hasks.writing
  · obtain ⟨hsame, hend, hwaits⟩ := throughout_completions hasks hthroughout hperiod
    refine ⟨hsame, fun last u hne hlast hover => ?_⟩
    rw [(step_settles hend hlast).2 (Or.inl (hwaits hne)), if_pos (not_not.mp hover), hsame]

/-- A direct write leaves two bytes behind, and `handleWrite` writes them one at a time. -/
def drained : List Link.Event := [.sendInLoop [1, 2, 3] (.ok 1), .handleWrite (.ok 1), .handleWrite (.ok 1)]

theorem interest_matches_drained : ∃ s, Machine.run step (init 3) drained = some s ∧ s.completions = 1 ∧
    (s.ctl.events &&& EPOLLOUT ≠ 0 ↔ s.Waiting) := by
  have hdone : (Machine.run step (init 3) drained).map Watch.completions = some 1 := by decide +kernel
  obtain ⟨s, hrun, hone⟩ := Option.map_eq_some_iff.mp hdone
  exact ⟨s, hrun, hone, (interest_matches 3 drained s hrun).1.2⟩

end Watch

end Muduo
