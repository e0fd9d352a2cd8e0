import Muduo.Connection.Drain
import Muduo.Connection.Updates

/-! # From one connection to the other

A client's connection and the server's, with what is under way between them. The kernel delivers what it accepted, in
order, and a byte that user code sends on one side is one that user code gets on the other.
-/

namespace Muduo

namespace Wire

inductive Side where
  | client | server
  deriving DecidableEq, Repr

def Side.other : Side → Side
  | .client => .server
  | .server => .client

@[simp]
theorem Side.other_other (x : Side) : x.other.other = x := by cases x <;> rfl

@[simp]
theorem Side.other_ne (x : Side) : x.other ≠ x := by cases x <;> simp [other]

@[simp]
theorem Side.ne_other (x : Side) : x ≠ x.other := (other_ne x).symm

theorem Side.eq_or (x y : Side) : y = x ∨ y = x.other := by cases x <;> cases y <;> simp [other]

/-- What the loop of a connection does. -/
inductive Event where
  | sendInLoop (message : List Byte) (w : WriteResult)
  | handleWrite (w : WriteResult)
  /-- `readv` returns these bytes, and `onMessage` takes `n` bytes of what is in `_inBuf` then. -/
  | handleRead (data : List Byte) (n : Nat)
  | readFails (errno : Int)
  deriving DecidableEq, Repr

/-- The call of the connection's member function. -/
def Event.call : Event → Link.Event
  | .sendInLoop message w => .sendInLoop message w
  | .handleWrite w => .handleWrite w
  | .handleRead data _ => .handleRead (.ok data)
  | .readFails errno => .handleRead (.error errno)

end Wire

open Wire in
structure Wire where
  watch : Side → Watch
  /-- What user code has taken out of `_inBuf`. -/
  taken : Side → List Byte
  /-- What the kernel has accepted from this side and the other one has not read. -/
  flight : Side → List Byte

namespace Wire

def init (sockfd : Side → Int) : Wire := ⟨fun x => .init (sockfd x), fun _ => [], fun _ => []⟩

def link (s : Wire) (x : Side) : Link := (s.watch x).link

/-- Bytes arrive in the order in which the kernel accepted them, and user code asks for no more than there is. -/
def Carries (s : Wire) (x : Side) : Event → Prop
  | .handleRead data n => data <+: s.flight x.other ∧ ((s.link x).conn.handleRead (.ok data)).2 = .onMessage ∧
      n ≤ ((s.link x).next (.handleRead (.ok data))).conn.inBuf.readableBytes
  | .sendInLoop _ _ | .handleWrite _ | .readFails _ => True

instance (s : Wire) (x : Side) : (e : Event) → Decidable (s.Carries x e)
  | .handleRead data n => inferInstanceAs (Decidable (data <+: s.flight x.other ∧
      ((s.link x).conn.handleRead (.ok data)).2 = .onMessage ∧
      n ≤ ((s.link x).next (.handleRead (.ok data))).conn.inBuf.readableBytes))
  | .sendInLoop _ _ | .handleWrite _ | .readFails _ => .isTrue trivial

/-- `retrieveAsString(n)`: what it returns. -/
def string (k : Watch) (n : Nat) : List Byte := ((k.link.conn.inBuf.raw.retrieveAsString n).map Prod.snd).getD []

/-- `retrieveAsString(n)`: what it leaves. -/
def retrieve (k : Watch) (n : Nat) : Watch :=
  { k with link := { k.link with conn := { k.link.conn with inBuf := k.link.conn.inBuf.retrieve n } } }

/-- A call that may give bytes to the kernel. -/
def called (s : Wire) (x : Side) (e : Link.Event) : Wire :=
  { s with
    watch := Function.update s.watch x ((s.watch x).next e)
    flight := Function.update s.flight x (s.flight x ++ Link.acceptedBytes (Watch.effects (s.link x) e)) }

def next (s : Wire) (x : Side) : Event → Wire
  | .handleRead data n =>
    let k := (s.watch x).next (.handleRead (.ok data))
    { watch := Function.update s.watch x (retrieve k n)
      taken := Function.update s.taken x (s.taken x ++ string k n)
      flight := Function.update s.flight x.other ((s.flight x.other).drop data.length) }
  | .sendInLoop message w => s.called x (.sendInLoop message w)
  | .handleWrite w => s.called x (.handleWrite w)
  | .readFails errno => s.called x (.handleRead (.error errno))

def step (s : Wire) (l : Side × Event) : Option Wire :=
  if (s.link l.1).Possible l.2.call ∧ s.Carries l.1 l.2 then some (s.next l.1 l.2) else none

/-- Every byte sent on one side has been taken on the other, waits in a buffer or is under way, in order. -/
def Conserved (s : Wire) : Prop :=
  ∀ x, (s.link x).raised = false ∧
    s.taken x.other ++ (s.link x.other).conn.inBuf.content ++ s.flight x ++ (s.link x).conn.outBuf.content =
      (s.link x).sent

/-- The call is exact. -/
def Exact (s : Wire) (l : Side × Event) : Prop := (s.link l.1).Exact l.2.call

instance (s : Wire) (l : Side × Event) : Decidable (s.Exact l) := inferInstanceAs (Decidable ((s.link l.1).Exact _))

/-! ## One call -/

theorem retrieve_conserved {k : Watch} {n : Nat} (hn : n ≤ k.link.conn.inBuf.readableBytes) :
    string k n ++ (retrieve k n).link.conn.inBuf.content = k.link.conn.inBuf.content := by
  have hstring : string k n = k.link.conn.inBuf.content.take n := by
    rw [string, Buffer.retrieveAsString_spec k.link.conn.inBuf.wf n hn]
    rfl
  rw [hstring, retrieve, WfBuffer.content_retrieve]
  exact List.take_append_drop n k.link.conn.inBuf.content

theorem next_accepted (k : Link) (e : Link.Event) :
    (k.next e).accepted = k.accepted ++ Link.acceptedBytes (Watch.effects k e) := by
  cases e with
  | sendInLoop message w => rfl
  | handleWrite w => rfl
  | handleRead res => exact (List.append_nil k.accepted).symm

theorem next_inBuf (k : Link) {e : Link.Event} (he : ∀ data, e ≠ .handleRead (.ok data)) :
    (k.next e).conn.inBuf = k.conn.inBuf := by
  cases e with
  | sendInLoop message w => exact Link.sendInLoop_inBuf k.conn message w
  | handleWrite w => exact Link.handleWrite_inBuf k.conn w
  | handleRead res =>
    cases res with
    | ok data => exact absurd rfl (he data)
    | error errno =>
      simp only [Link.next, TcpConnection.handleRead]
      split <;> rfl

theorem next_read {k : Link} {data : List Byte} (h : (k.conn.handleRead (.ok data)).2 = .onMessage) :
    (k.next (.handleRead (.ok data))).conn.inBuf.content = k.conn.inBuf.content ++ data := by
  simp only [Link.next, TcpConnection.handleRead] at h ⊢
  split at h
  · cases h
  · rename_i hfd
    rw [if_neg hfd]
    exact WfBuffer.content_readFd k.conn.inBuf data

/-- What a step does to the connection of side `x` is what a call does, with a `retrieveAsString` behind it at most. -/
theorem next_link (s : Wire) (x : Side) (e : Event) :
    ((s.next x e).link x).accepted = ((s.link x).next e.call).accepted ∧
      ((s.next x e).link x).sent = ((s.link x).next e.call).sent ∧
      ((s.next x e).link x).raised = ((s.link x).next e.call).raised ∧
      ((s.next x e).link x).conn.outBuf = ((s.link x).next e.call).conn.outBuf := by
  cases e <;> simp [next, called, link, retrieve, Watch.next, Event.call]

@[simp]
theorem called_self (s : Wire) (x : Side) (e : Link.Event) : (s.called x e).watch x = (s.watch x).next e := by
  simp [called]

@[simp]
theorem read_self (s : Wire) (x : Side) (data : List Byte) (n : Nat) :
    (s.next x (.handleRead data n)).watch x = retrieve ((s.watch x).next (.handleRead (.ok data))) n := by
  simp [next]

theorem next_other (s : Wire) (x : Side) (e : Event) : (s.next x e).watch x.other = s.watch x.other := by
  cases e <;> simp [next, called]

/-! ## What arrives -/

/-- What the kernel accepted has been taken on the other side, waits in its `_inBuf`, or is under way. -/
def Arrives (s : Wire) (x : Side) : Prop :=
  (s.link x).accepted = s.taken x.other ++ (s.link x.other).conn.inBuf.content ++ s.flight x

theorem init_arrives (sockfd : Side → Int) (x : Side) : (init sockfd).Arrives x := by
  have hempty : ((init sockfd).link x.other).conn.inBuf.content = [] := WfBuffer.content_init Buffer.kInitialSize
  rw [Arrives, hempty]
  rfl

theorem called_arrives {s : Wire} (hs : ∀ x, s.Arrives x) (x : Side) {e : Link.Event}
    (he : ∀ data, e ≠ .handleRead (.ok data)) (y : Side) : (s.called x e).Arrives y := by
  have hother : (s.called x e).link x.other = s.link x.other := by simp [called, link]
  have hself : (s.called x e).link x = (s.link x).next e := by simp [called, link, Watch.next]
  rcases x.eq_or y with rfl | rfl
  · have hflight : (s.called y e).flight y = s.flight y ++ Link.acceptedBytes (Watch.effects (s.link y) e) := by
      simp [called]
    rw [Arrives, hself, hother, hflight, next_accepted, hs y, List.append_assoc _ (s.flight y)]
    rfl
  · have hflight : (s.called x e).flight x.other = s.flight x.other := by simp [called]
    rw [Arrives, hother, hflight, Side.other_other, hself, next_inBuf (s.link x) he, hs x.other, Side.other_other]
    rfl

theorem read_arrives {s : Wire} (hs : ∀ x, s.Arrives x) {x : Side} {data : List Byte} {n : Nat}
    (hcarries : s.Carries x (.handleRead data n)) (y : Side) : (s.next x (.handleRead data n)).Arrives y := by
  obtain ⟨⟨rest, hrest⟩, hmessage, hn⟩ := hcarries
  have hother : (s.next x (.handleRead data n)).link x.other = s.link x.other := by
    rw [link, next_other, link]
  obtain ⟨haccepted, -⟩ := s.next_link x (.handleRead data n)
  rcases x.eq_or y with rfl | rfl
  · have hflight : (s.next y (.handleRead data n)).flight y = s.flight y := by simp [next]
    have htaken : (s.next y (.handleRead data n)).taken y.other = s.taken y.other := by simp [next]
    rw [Arrives, hother, hflight, htaken, haccepted]
    exact hs y
  · -- What was under way begins with what is read, and what is taken comes from the front of the buffer.
    have hflight : (s.next x (.handleRead data n)).flight x.other = rest := by
      simp [next, ← hrest]
    have htaken : (s.next x (.handleRead data n)).taken x ++
        ((s.next x (.handleRead data n)).link x).conn.inBuf.content =
          s.taken x ++ ((s.link x).conn.inBuf.content ++ data) := by
      have hfront := retrieve_conserved (k := (s.watch x).next (.handleRead (.ok data))) hn
      rw [← next_read hmessage]
      simp only [next, link, Function.update_self, List.append_assoc]
      exact congrArg _ hfront
    rw [Arrives, hother, Side.other_other, htaken, hflight, hs x.other, Side.other_other, ← hrest]
    simp only [List.append_assoc]

theorem step_arrives {s u : Wire} {l : Side × Event} (hs : ∀ x, s.Arrives x) (h : step s l = some u) :
    ∀ x, u.Arrives x := by
  obtain ⟨x, e⟩ := l
  obtain ⟨⟨-, hcarries⟩, rfl⟩ := Machine.guard_some.mp h
  cases e with
  | sendInLoop message w => exact called_arrives hs x (by simp)
  | handleWrite w => exact called_arrives hs x (by simp)
  | handleRead data n => exact read_arrives hs hcarries
  | readFails errno => exact called_arrives hs x (by simp)

theorem conserved_iff {s : Wire} (hs : ∀ x, s.Arrives x) : s.Conserved ↔ ∀ x, (s.link x).Conserved := by
  refine forall_congr' fun x => ?_
  rw [Link.Conserved, hs x]

theorem step_exact {s u : Wire} {l : Side × Event} (hs : ∀ x, s.Arrives x) (hconserved : s.Conserved)
    (h : step s l = some u) : u.Conserved ↔ s.Exact l := by
  have hu := step_arrives hs h
  obtain ⟨x, e⟩ := l
  obtain ⟨⟨hpos, -⟩, rfl⟩ := Machine.guard_some.mp h
  have hlinks := (conserved_iff hs).mp hconserved
  obtain ⟨haccepted, hsent, hraised, hout⟩ := s.next_link x e
  have hself : ((s.next x e).link x).Conserved ↔ ((s.link x).next e.call).Conserved := by
    rw [Link.Conserved, Link.Conserved, haccepted, hsent, hraised, hout]
  have hother : ((s.next x e).link x.other).Conserved := by
    rw [link, next_other]
    exact hlinks x.other
  rw [conserved_iff hu]
  constructor
  · intro h
    exact (Link.next_exact (hlinks x) e.call hpos).mp (hself.mp (h x))
  · intro h y
    rcases x.eq_or y with rfl | rfl
    · exact hself.mpr ((Link.next_exact (hlinks y) e.call hpos).mpr h)
    · exact hother

theorem init_conserved (sockfd : Side → Int) : (init sockfd).Conserved :=
  (conserved_iff (init_arrives sockfd)).mpr fun x => Link.init_conserved (sockfd x)

/-- In every run of both sides what the kernel accepted on one side is, in order, what user code has taken on the
other, what waits there and what is under way. The same is true of what was sent, with what waits in `_outBuf`, in every
state on the way, exactly when every call is exact. -/
theorem bytes_delivered (sockfd : Side → Int) (labels : List (Side × Event)) (s : Wire)
    (hrun : Machine.run step (init sockfd) labels = some s) :
    (∀ x, (s.link x).accepted = s.taken x.other ++ (s.link x.other).conn.inBuf.content ++ s.flight x) ∧
      (Machine.Always step Conserved (init sockfd) labels ↔ Machine.Meets step Exact (init sockfd) labels) :=
  ⟨Machine.run_invariant (I := fun s => ∀ x, s.Arrives x) (fun _ _ _ => step_arrives) (init_arrives sockfd) hrun,
    Machine.always_iff_meets (I := fun s => ∀ x, s.Arrives x) (fun _ _ _ hs _ _ h => step_arrives hs h)
      (fun _ _ _ hs hconserved h => step_exact hs hconserved h) (init_arrives sockfd) (init_conserved sockfd) hrun⟩

/-- The client sends three bytes, of which the kernel accepts one at a time. The server answers the first. -/
def crossing : List (Side × Event) :=
  [(.client, .sendInLoop [1, 2, 3] (.ok 1)), (.server, .handleRead [1] 0), (.server, .sendInLoop [9] (.ok 1)),
    (.client, .handleWrite (.ok 1)), (.client, .handleRead [9] 1)]

example : ((Machine.run step (init fun _ => 3) crossing).map fun s =>
    (s.taken .client, (s.link .server).conn.inBuf.content, s.flight .client, (s.link .client).conn.outBuf.content)) =
      some ([9], [1], [2], [3]) := by decide +kernel

theorem bytes_delivered_crossing : Machine.Always step Conserved (init fun _ => 3) crossing := by
  have hsome : (Machine.run step (init fun _ => 3) crossing).isSome = true := by decide +kernel
  obtain ⟨s, hrun⟩ := Option.isSome_iff_exists.mp hsome
  exact (bytes_delivered (fun _ => 3) crossing s hrun).2.mpr (by decide +kernel)

/-! ## Left alone -/

/-- The kernel accepts something that waits in `_outBuf`, or it delivers something. -/
def Proceeds : Side × Event → Prop
  | (_, .handleWrite (.ok k)) => 0 < k ∧ k < 0x80000000
  | (_, .handleRead data _) => data ≠ []
  | _ => False

/-- A byte in `_outBuf` has two steps ahead, and one that is under way has one. -/
def load (s : Wire) (x : Side) : Nat := 2 * (s.watch x).backlog + (s.flight x).length

def loads (s : Wire) : Nat := s.load .client + s.load .server

theorem loads_eq (s : Wire) (x : Side) : s.loads = s.load x + s.load x.other := by
  cases x
  · rfl
  · exact Nat.add_comm _ _

theorem next_sockfd (k : Link) (e : Link.Event) :
    (k.next e).conn.pSocketChannel.sockfd = k.conn.pSocketChannel.sockfd := by
  cases e with
  | sendInLoop message w => exact (k.conn.sendInLoop_updated message w).sockfd
  | handleWrite w => exact (k.conn.handleWrite_updated w).sockfd
  | handleRead res => exact congrArg Channel.sockfd (k.conn.handleRead_channel res)

/-- What lasts from the start on. -/
structure Lasts (k : Watch) : Prop where
  valid : 0 ≤ k.link.conn.pSocketChannel.sockfd
  asks : Watch.Asks k.link.conn k.ctl

theorem init_lasts {sockfd : Int} (hfd : 0 ≤ sockfd) : Lasts (.init sockfd) := ⟨hfd, Watch.init_asks sockfd⟩

theorem Lasts.next {k : Watch} (hk : Lasts k) {e : Link.Event} (hpos : k.link.Possible e) : Lasts (k.next e) where
  valid := by
    rw [Watch.next, next_sockfd]
    exact hk.valid
  asks := (Watch.step_settles hk.asks (if_pos hpos)).1

theorem Lasts.retrieve {k : Watch} (hk : Lasts k) (n : Nat) : Lasts (retrieve k n) :=
  ⟨hk.valid, hk.asks.index, hk.asks.op, hk.asks.events, hk.asks.writing⟩

theorem step_lasts {s u : Wire} {l : Side × Event} (hs : ∀ x, Lasts (s.watch x)) (h : step s l = some u) :
    ∀ x, Lasts (u.watch x) := by
  obtain ⟨x, e⟩ := l
  obtain ⟨⟨hpos, -⟩, rfl⟩ := Machine.guard_some.mp h
  intro y
  rcases x.eq_or y with rfl | rfl
  · cases e with
    | handleRead data n =>
      rw [read_self]
      exact ((hs y).next hpos).retrieve n
    | sendInLoop message w | handleWrite w | readFails errno =>
      rw [Wire.next, called_self]
      exact (hs y).next hpos
  · rw [next_other]
    exact hs x.other

theorem read_backlog (k : Watch) (res : Buffer.ReadResult) : (k.next (.handleRead res)).backlog = k.backlog := by
  have hout : (k.link.conn.handleRead res).1.outBuf = k.link.conn.outBuf := by
    cases res <;> simp only [TcpConnection.handleRead] <;> split <;> rfl
  simp only [Watch.backlog, Watch.next, Link.next, hout]

theorem next_lower {s : Wire} (hs : ∀ x, Lasts (s.watch x)) {x : Side} {e : Event} (hl : Proceeds (x, e))
    (hpos : (s.link x).Possible e.call) (hcarries : s.Carries x e) : (s.next x e).loads < s.loads := by
  rw [loads_eq _ x, loads_eq s x]
  have hother : (s.next x e).watch x.other = s.watch x.other := s.next_other x e
  cases e with
  | sendInLoop message w => cases hl
  | readFails errno => cases hl
  | handleWrite w =>
    cases w with
    | error => cases hl
    | ok k =>
      obtain ⟨haccepted, hbacklog⟩ := Watch.accepts_moves (hs x).asks hl.1 hl.2 hpos
      have hself : (s.next x (.handleWrite (.ok k))).flight x =
          s.flight x ++ Link.acceptedBytes (Watch.effects (s.link x) (.handleWrite (.ok k))) := by
        simp [Wire.next, called]
      have hsame : (s.next x (.handleWrite (.ok k))).flight x.other = s.flight x.other := by simp [Wire.next, called]
      have hlength : ((s.next x (.handleWrite (.ok k))).flight x).length = (s.flight x).length + k := by
        rw [hself, List.length_append]
        exact congrArg _ haccepted
      have hk := hl.1
      rw [load, load, load, load, hlength, hsame, hother, Wire.next, called_self]
      omega
  | handleRead data n =>
    obtain ⟨⟨rest, hrest⟩, -, -⟩ := hcarries
    have hself : (s.next x (.handleRead data n)).flight x = s.flight x := by simp [Wire.next]
    have hless : ((s.next x (.handleRead data n)).flight x.other).length + data.length =
        (s.flight x.other).length := by
      rw [← hrest]
      simp [Wire.next, ← hrest, Nat.add_comm]
    have hbacklog : (retrieve ((s.watch x).next (.handleRead (.ok data))) n).backlog = (s.watch x).backlog :=
      read_backlog (s.watch x) (.ok data)
    have hdata : 0 < data.length := List.length_pos_iff.mpr hl
    rw [load, load, load, load, hself, hother, read_self, hbacklog]
    omega

theorem proceeds_lower {s u : Wire} {l : Side × Event} (hs : ∀ x, Lasts (s.watch x)) (hl : Proceeds l)
    (h : step s l = some u) : u.loads < s.loads := by
  obtain ⟨⟨hpos, hcarries⟩, rfl⟩ := Machine.guard_some.mp h
  exact next_lower hs hl hpos hcarries

theorem read_possible {s : Wire} {x : Side} (hs : Lasts (s.watch x)) {b : Byte} {rest : List Byte}
    (hflight : s.flight x.other = b :: rest) : ∃ u, step s (x, .handleRead [b] 0) = some u := by
  have hfd : ¬ (s.link x).conn.pSocketChannel.sockfd < 0 := not_lt.mpr hs.valid
  have hmessage : ((s.link x).conn.handleRead (.ok [b])).2 = .onMessage := by
    rw [TcpConnection.handleRead, if_neg hfd]
    rfl
  have hallowed : (s.link x).conn.inBuf.raw.Allowed (.readFd (.ok [b])) := by
    show 1 ≤ (s.link x).conn.inBuf.raw.offered
    unfold Buffer.offered Buffer.sizeofExtrabuf
    split <;> omega
  refine ⟨_, if_pos ⟨⟨hallowed, ?_⟩, ⟨rest, hflight.symm⟩, hmessage, Nat.zero_le _⟩⟩
  rw [hmessage]
  decide

theorem atRest_iff {s : Wire} (hs : ∀ x, Lasts (s.watch x)) :
    Machine.AtRest step Proceeds s ↔ ∀ x, (s.link x).conn.outBuf.content = [] ∧ s.flight x = [] := by
  constructor
  · intro hrest x
    constructor
    · by_contra hwaits
      have hpos : (s.link x).Possible (.handleWrite (.ok 1)) := by
        rw [Link.Possible, WriteResult.Possible, WfBuffer.readableBytes_eq]
        exact List.length_pos_iff.mpr hwaits
      have hnone := hrest (x, .handleWrite (.ok 1)) ⟨by decide, by decide⟩
      rw [step, if_pos ⟨hpos, trivial⟩] at hnone
      cases hnone
    · cases hflight : s.flight x with
      | nil => rfl
      | cons b rest =>
        obtain ⟨u, hu⟩ := read_possible (hs x.other) (x.other_other.symm ▸ hflight)
        have hnone := hrest (x.other, .handleRead [b] 0) (List.cons_ne_nil b [])
        rw [hnone] at hu
        cases hu
  · rintro hempty ⟨x, e⟩ hl
    refine if_neg fun hstep => ?_
    obtain ⟨hpos, hcarries⟩ := hstep
    cases e with
    | sendInLoop message w => cases hl
    | readFails errno => cases hl
    | handleWrite w =>
      cases w with
      | error => cases hl
      | ok k =>
        have hle : k ≤ (s.link x).conn.outBuf.readableBytes := hpos
        rw [WfBuffer.readableBytes_eq, (hempty x).1] at hle
        exact absurd hl.1 (Nat.not_lt.mpr hle)
    | handleRead data n =>
      have hprefix : data <+: s.flight x.other := hcarries.1
      rw [(hempty x.other).2] at hprefix
      exact hl (List.prefix_nil.mp hprefix)

theorem proceeds_exact {s : Wire} {l : Side × Event} (hl : Proceeds l) : s.Exact l := by
  obtain ⟨x, e⟩ := l
  cases e with
  | sendInLoop message w => cases hl
  | readFails errno => cases hl
  | handleWrite w =>
    cases w with
    | error => cases hl
    | ok k =>
      rintro - k' hk'
      cases hk'
      exact hl.2
  | handleRead data n => trivial

theorem proceeds_sent {s u : Wire} {l : Side × Event} (hl : Proceeds l) (h : step s l = some u) (y : Side) :
    (u.link y).sent = (s.link y).sent := by
  obtain ⟨x, e⟩ := l
  obtain ⟨-, rfl⟩ := Machine.guard_some.mp h
  rcases x.eq_or y with rfl | rfl
  · rw [(s.next_link y e).2.1]
    cases e with
    | sendInLoop message w => cases hl
    | handleWrite w => exact List.append_nil _
    | handleRead data n | readFails errno => rfl
  · rw [link, next_other, link]

/-- From every state that exact calls lead to, both sides come to rest when nothing more is sent: after at most two
steps for each byte that waits and one for each that is under way. At rest everything that was sent on one side is
taken on the other or waits there in `_inBuf`, and no side asks for `EPOLLOUT`. -/
theorem bytes_arrive (sockfd : Side → Int) (hvalid : ∀ x, 0 ≤ sockfd x) (labels : List (Side × Event)) (s : Wire)
    (hrun : Machine.run step (init sockfd) labels = some s)
    (hexact : Machine.Meets step Exact (init sockfd) labels) :
    (∃ ls u, (∀ l ∈ ls, Proceeds l) ∧ Machine.run step s ls = some u ∧ Machine.AtRest step Proceeds u) ∧
    ∀ ls u, (∀ l ∈ ls, Proceeds l) → Machine.run step s ls = some u →
      ls.length + u.loads ≤ s.loads ∧
      (Machine.AtRest step Proceeds u → ∀ x,
        u.taken x.other ++ (u.link x.other).conn.inBuf.content = (s.link x).sent ∧
          (u.watch x).ctl.events &&& EPOLLOUT = 0) := by
  have hkeep : ∀ t l v, (∀ x, Lasts (t.watch x)) → step t l = some v → ∀ x, Lasts (v.watch x) :=
    fun t l v ht h => step_lasts ht h
  have hlower : ∀ t l v, (∀ x, Lasts (t.watch x)) → Proceeds l → step t l = some v → v.loads < t.loads :=
    fun t l v ht hl h => proceeds_lower ht hl h
  have hlasts : ∀ x, Lasts (s.watch x) := Machine.run_invariant hkeep (fun x => init_lasts (hvalid x)) hrun
  have hwhole : (∀ x, s.Arrives x) ∧ s.Conserved :=
    Machine.run_invariant_of_meets (I := fun t => (∀ x, t.Arrives x) ∧ t.Conserved) (C := Exact)
      (fun t l v ht hl h => ⟨step_arrives ht.1 h, (step_exact ht.1 ht.2 h).mpr hl⟩)
      ⟨init_arrives sockfd, init_conserved sockfd⟩ hexact hrun
  refine ⟨Machine.exists_rest hkeep hlower hlasts, fun ls u hls hleft => ?_⟩
  refine ⟨Machine.length_le_potential hkeep hlower hlasts hls hleft, fun hrest x => ?_⟩
  have hmeets : Machine.Meets step (fun _ l => Proceeds l) s ls := Machine.meets_of_forall hls
  obtain ⟨⟨-, hend⟩, hsent⟩ : ((∀ x, u.Arrives x) ∧ u.Conserved) ∧ ∀ x, (u.link x).sent = (s.link x).sent :=
    Machine.run_invariant_of_meets
      (I := fun t => ((∀ x, t.Arrives x) ∧ t.Conserved) ∧ ∀ x, (t.link x).sent = (s.link x).sent)
      (fun t l v ht hl h => ⟨⟨step_arrives ht.1.1 h, (step_exact ht.1.1 ht.1.2 h).mpr (proceeds_exact hl)⟩,
        fun x => (proceeds_sent hl h x).trans (ht.2 x)⟩) ⟨hwhole, fun _ => rfl⟩ hmeets hleft
  have hstill := Machine.run_invariant hkeep hlasts hleft
  obtain ⟨hout, hflight⟩ := (atRest_iff hstill).mp hrest x
  obtain ⟨-, hstream⟩ := hend x
  refine ⟨?_, ?_⟩
  · rw [hout, hflight, List.append_nil, List.append_nil, hsent x] at hstream
    exact hstream
  · have hidle : (u.link x).conn.pSocketChannel.isWriting ≠ true := fun hwriting =>
      (hstill x).asks.writing.mp hwriting hout
    rw [(hstill x).asks.events]
    show (u.link x).conn.pSocketChannel.events &&& EPOLLOUT = 0
    simpa [Channel.isWriting] using hidle

theorem bytes_arrive_crossing : ∃ s, Machine.run step (init fun _ => 3) crossing = some s ∧
    ∃ ls u, (∀ l ∈ ls, Proceeds l) ∧ Machine.run step s ls = some u ∧ Machine.AtRest step Proceeds u := by
  have hsome : (Machine.run step (init fun _ => 3) crossing).isSome = true := by decide +kernel
  obtain ⟨s, hrun⟩ := Option.isSome_iff_exists.mp hsome
  exact ⟨s, hrun, (bytes_arrive (fun _ => 3) (fun _ => by decide) crossing s hrun (by decide +kernel)).1⟩

end Wire

end Muduo
