import Muduo.Client.Steps

/-! # What a step is made of

A step is a chain of parts. Most of them leave the connections alone, or they leave the `Connector` alone.
-/

namespace Muduo.Client

/-- Epoll, the callbacks and the references belong to connections that have been made. -/
structure Placed (s : Client) : Prop where
  interest : ∀ fd c e, s.interest fd = some (.conn c, e) →
    c < s.size ∧ (s.conn c).tcp.pSocketChannel.sockfd = fd ∧ ¬ s.Deleted c
  nodup : s.loop.active.Nodup
  user : ∀ c rest, s.loop.frame = .user c rest → c < s.size
  closing : ∀ c called, s.loop.frame = .user c (.closed called) → s.Deleted c
  connection : ∀ c, s.connection = some c → c < s.size
  held : ∀ c, 0 < (s.conn c).held → c < s.size

theorem init_placed (user : Bool) (heap : Heap) : (init user heap).Placed where
  interest := fun _ _ _ h => by simp [init] at h
  nodup := List.nodup_nil
  user := fun _ _ h => by simp [init] at h
  closing := fun _ _ h => by simp [init] at h
  connection := fun _ h => by simp [init] at h
  held := fun _ h => by simp [init] at h

theorem alive_iff {s : Client} {c : ConnId} : s.alive c = true ↔
    s.connection = some c ∨ 0 < (s.conn c).held ∨ ∃ rest, s.loop.frame = .user c rest := by
  rw [alive, decide_eq_true_iff, owners]
  have hframe : 0 < s.loop.frame.holds c ↔ ∃ rest, s.loop.frame = .user c rest := by
    cases s.loop.frame with
    | idle => simp [Frame.holds]
    | user d rest =>
      by_cases h : d = c <;> simp [Frame.holds, h]
  rw [← hframe]
  by_cases h : s.connection = some c
  · simp only [h, if_true, true_or, iff_true]
    omega
  · simp only [h, if_false, false_or]
    omega

theorem Placed.known {s : Client} (hs : s.Placed) {c : ConnId} (h : s.alive c = true) : c < s.size := by
  rcases alive_iff.mp h with h | h | ⟨rest, h⟩
  · exact hs.connection c h
  · exact hs.held c h
  · exact hs.user c rest h

/-- The connection that an observation is a call of. -/
def Obs.calls : Obs → Option ConnId
  | .handler c _ | .callback c _ => some c
  | _ => none

/-! ## The connections are left alone -/

structure Apart (s u : Client) : Prop where
  heap : u.heap = s.heap
  size : u.size = s.size
  conn : u.conn = s.conn
  connection : u.connection = s.connection
  frame : u.loop.frame = s.loop.frame
  active : u.loop.active.Sublist s.loop.active
  interest : ∀ fd c e, u.interest fd = some (.conn c, e) → s.interest fd = some (.conn c, e)
  trace : ∃ os, u.trace = s.trace ++ os ∧ ∀ o ∈ os, o.calls = none

namespace Apart

variable {s t u : Client}

theorem refl (s : Client) : Apart s s where
  heap := rfl
  size := rfl
  conn := rfl
  connection := rfl
  frame := rfl
  active := List.Sublist.refl _
  interest := fun _ _ _ h => h
  trace := ⟨[], by simp, by simp⟩

theorem trans (h : Apart s t) (k : Apart t u) : Apart s u where
  heap := k.heap.trans h.heap
  size := k.size.trans h.size
  conn := k.conn.trans h.conn
  connection := k.connection.trans h.connection
  frame := k.frame.trans h.frame
  active := k.active.trans h.active
  interest := fun fd c e he => h.interest fd c e (k.interest fd c e he)
  trace := by
    obtain ⟨os, hs, hos⟩ := h.trace
    obtain ⟨ps, ht, hps⟩ := k.trace
    refine ⟨os ++ ps, by rw [ht, hs, List.append_assoc], fun o ho => ?_⟩
    exact (List.mem_append.mp ho).elim (hos o) (hps o)

theorem deleted (h : Apart s u) (c : ConnId) : u.Deleted c ↔ s.Deleted c := by
  rw [Deleted, Deleted, h.conn]

theorem owners (h : Apart s u) (c : ConnId) : u.owners c = s.owners c := by
  unfold Client.owners
  rw [h.connection, h.conn, h.frame]

end Apart

/-! ## The `Connector` is left alone -/

/-- What no member function of `Connector` shows. -/
def Obs.aside : Obs → Bool
  | .consulted _ _ | .handler _ _ | .callback _ _ | .functor _ _ _ => true
  | .socket _ _ | .close _ _ | .newConnection _ _ _ | .resetChannel _ _ => false

structure Aside (s u : Client) : Prop where
  sockFd : u.sockFd = s.sockFd
  slot : u.slot = s.slot
  attempts : u.attempts = s.attempts
  fds : u.fds = s.fds
  isOpen : u.isOpen = s.isOpen
  active : ∀ a, .attempt a ∈ u.loop.active →
    .attempt a ∈ s.loop.active ∨ ∃ e, s.interest (s.fds a) = some (.attempt a, e)
  resets : ∀ stopped of,
    .resetChannel stopped of ∈ u.loop.tempRuns ∨ .resetChannel stopped of ∈ u.loop.pendingFunctors →
    .resetChannel stopped of ∈ s.loop.tempRuns ∨ .resetChannel stopped of ∈ s.loop.pendingFunctors
  interest : ∀ fd a e, u.interest fd = some (.attempt a, e) → s.interest fd = some (.attempt a, e)
  trace : ∃ os, u.trace = s.trace ++ os ∧ ∀ o ∈ os, o.aside = true

namespace Aside

variable {s t u : Client}

theorem refl (s : Client) : Aside s s where
  sockFd := rfl
  slot := rfl
  attempts := rfl
  fds := rfl
  isOpen := rfl
  active := fun _ h => Or.inl h
  resets := fun _ _ h => h
  interest := fun _ _ _ h => h
  trace := ⟨[], by simp, by simp⟩

theorem trans (h : Aside s t) (k : Aside t u) : Aside s u where
  sockFd := k.sockFd.trans h.sockFd
  slot := k.slot.trans h.slot
  attempts := k.attempts.trans h.attempts
  fds := k.fds.trans h.fds
  isOpen := k.isOpen.trans h.isOpen
  active := fun a ha => by
    rcases k.active a ha with ha | ⟨e, he⟩
    · exact h.active a ha
    · exact Or.inr ⟨e, h.fds ▸ h.interest _ a e he⟩
  resets := fun stopped of hq => h.resets stopped of (k.resets stopped of hq)
  interest := fun fd a e he => h.interest fd a e (k.interest fd a e he)
  trace := by
    obtain ⟨os, hs, hos⟩ := h.trace
    obtain ⟨ps, ht, hps⟩ := k.trace
    refine ⟨os ++ ps, by rw [ht, hs, List.append_assoc], fun o ho => ?_⟩
    exact (List.mem_append.mp ho).elim (hos o) (hps o)

theorem mem_trace (h : Aside s u) {o : Obs} (ho : o.aside = false) : o ∈ u.trace ↔ o ∈ s.trace := by
  obtain ⟨os, htrace, hos⟩ := h.trace
  rw [htrace, List.mem_append, or_iff_left]
  intro hnew
  rw [hos o hnew] at ho
  cases ho

theorem quiet (h : Quiet s u) : Aside s u where
  sockFd := h.sockFd
  slot := h.slot
  attempts := h.attempts
  fds := h.fds
  isOpen := h.isOpen
  active := fun _ ha => Or.inl (h.active ▸ ha)
  resets := by
    rintro stopped of (hq | hq)
    · exact Or.inl (h.tempRuns ▸ hq)
    · rcases h.pending _ hq with hold | ⟨c, f, hf⟩
      · exact Or.inr hold
      · cases hf
  interest := by
    intro fd a e he
    rcases h.interest fd _ he with hold | ⟨c, hc, -⟩
    · exact hold
    · cases hc
  trace := by
    obtain ⟨os, htrace, hos⟩ := h.trace
    refine ⟨os, htrace, fun o ho => ?_⟩
    have hinner := hos o ho
    cases o with
    | consulted | handler | functor => rfl
    | socket | close | newConnection | resetChannel | callback => cases hinner

end Aside

/-! ## The `Connector` at work -/

/-- What `::socket` and `::connect` return to the `Connector::connect` that a step calls. -/
def connects (s : Client) : Label → Option (Int × Int)
  | .act (.connect fd savedErrno) | .act (.start fd savedErrno) => some (fd, savedErrno)
  | .runFunctor _ fd savedErrno => if s.loop.tempRuns.head? = some .connect then some (fd, savedErrno) else none
  | _ => none

/-- The `resetChannel` that a step calls. -/
def resets (s : Client) : Label → Option (Bool × Option Attempt)
  | .runFunctor _ _ _ =>
    match s.loop.tempRuns with
    | .resetChannel stopped of :: _ => some (stopped, of)
    | _ => none
  | _ => none

/-- A step queues a `resetChannel` for user code. -/
def Label.stops : Label → Bool
  | .act .stop | .foreign .stop => true
  | _ => false

/-- A step leaves the `Connector` alone. -/
def Untouched (s : Client) (l : Label) : Prop :=
  s.connects l = none ∧ s.resets l = none ∧ s.succeeds l = none ∧ l.stops = false

/-- A step calls `handleEvent` of the channel of `c`. -/
def Handles (s : Client) (c : ConnId) : Label → Prop
  | .handle _ _ _ => s.loop.active.head?.bind s.dataPtr = some (.conn c)
  | _ => False

/-- A step calls `handleEvent` of the channel of `c`, and that ends in `handleClose`. -/
def Closes (s : Client) (c : ConnId) : Label → Prop
  | .handle res _ _ => s.loop.active.head?.bind s.dataPtr = some (.conn c) ∧ (s.conn c).tcp.Closes res
  | _ => False

instance (s : Client) (c : ConnId) : (l : Label) → Decidable (s.Closes c l)
  | .handle res _ _ =>
    inferInstanceAs (Decidable (s.loop.active.head?.bind s.dataPtr = some (.conn c) ∧ (s.conn c).tcp.Closes res))
  | .loop | .poll _ | .return_ _ | .act _ | .foreign _ | .swap | .runFunctor _ _ _ | .endBatch => .isFalse id

theorem Closes.handles {s : Client} {c : ConnId} {l : Label} (h : s.Closes c l) : s.Handles c l := by
  cases l with
  | handle => exact h.1
  | loop | poll | return_ | act | foreign | swap | runFunctor | endBatch => cases h

theorem Handles.alive {s : Client} {c : ConnId} {l : Label} (h : s.Handles c l) : s.alive c = true := by
  cases l with
  | handle =>
    obtain ⟨src, -, hsrc⟩ := Option.bind_eq_some_iff.mp h
    exact dataPtr_exists hsrc
  | loop | poll | return_ | act | foreign | swap | runFunctor | endBatch => cases h

/-! ## What leaves the connections alone -/

section

variable (s : Client)

theorem observe_apart {o : Obs} (ho : o.calls = none) : Apart s (s.observe o) :=
  { Apart.refl s with trace := ⟨[o], rfl, by simp [ho]⟩ }

theorem queueInLoop_apart (q : Queued) : Apart s (s.queueInLoop q) := { Apart.refl s with }

theorem control_apart (a : Attempt) (ctl : Ctl) : Apart s (s.control (.attempt a) ctl) :=
  { Apart.refl s with interest := fun fd c e h => epollCtl_other h (by simp) }

theorem newChannel_apart (a : Attempt) : Apart s (s.newChannel a) :=
  { Apart.refl s with interest := (s.control_apart a _).interest }

theorem connect_apart (fd savedErrno : Int) : Apart s (s.connect fd savedErrno) := by
  have hsocket : Apart s (s.socket fd) :=
    { Apart.refl s with trace := ⟨[.socket s.attempts fd], rfl, by simp [Obs.calls]⟩ }
  unfold connect
  dsimp only
  split
  · exact hsocket.trans (newChannel_apart _ _)
  · exact hsocket
  · refine hsocket.trans ?_
    exact { Apart.refl (s.socket fd) with trace := ⟨[.close s.attempts fd], rfl, by simp [Obs.calls]⟩ }

theorem start_apart (inLoop : Bool) (fd savedErrno : Int) : Apart s (s.start inLoop fd savedErrno) := by
  unfold start
  split
  · exact s.connect_apart fd savedErrno
  · exact s.queueInLoop_apart .connect

theorem queueConnect_aside : Aside s (s.queueInLoop .connect) := by
  refine { Aside.refl s with resets := fun stopped of h => h.imp_right fun h => ?_ }
  simpa [queueInLoop] using h

theorem resetChannel_apart (of : Option Attempt) : Apart s (s.resetChannel of) :=
  { Apart.refl s with trace := ⟨[.resetChannel of _], rfl, by simp [Obs.calls]⟩ }

theorem leave_apart (a : Attempt) (ch : Channel) : Apart s (s.leave a ch) :=
  { Apart.refl s with interest := (s.control_apart a _).interest }

theorem setLoop_apart {lp : Loop} (hframe : lp.frame = s.loop.frame) (hactive : lp.active.Sublist s.loop.active) :
    Apart s (s.setLoop lp) := { Apart.refl s with frame := hframe, active := hactive }

theorem setLoop_aside {lp : Loop} (hactive : lp.active.Sublist s.loop.active)
    (hfunctors : ∀ q, q ∈ lp.tempRuns ∨ q ∈ lp.pendingFunctors → q ∈ s.loop.tempRuns ∨ q ∈ s.loop.pendingFunctors) :
    Aside s (s.setLoop lp) :=
  { Aside.refl s with
    active := fun _ ha => Or.inl (hactive.subset ha)
    resets := fun stopped of => hfunctors (.resetChannel stopped of) }

end

/-! ## Parts -/

/-- A part of the step that `l` takes in `o`. -/
inductive Part (o : Client) (l : Label) (s : Client) : Client → Prop
  | quiet {u : Client} (h : Quiet s u) : Part o l s u
  | apart {u : Client} (h : Apart s u) (haside : o.Untouched l → Aside s u) : Part o l s u
  | poll {events : List (Source × Events)}
      (hregistered : ∀ p ∈ events, (s.interest (s.fd p.1)).map Prod.fst = some p.1)
      (hnodup : (events.map Prod.fst).Nodup) :
      Part o l s ((s.setRevents events).setLoop { s.loop with phase := .handling, active := events.map Prod.fst })
  | idle : Part o l s (s.setFrame .idle)
  | onMessage {c : ConnId} (halive : s.alive c = true) (hhandles : o.Handles c l) :
      Part o l s ((s.setFrame (.user c .read)).observe (.callback c .onMessage))
  | onWriteComplate {c : ConnId} (halive : s.alive c = true) :
      Part o l s ((s.setFrame (.user c .completed)).observe (.callback c .onWriteComplate))
  | handleClose {c : ConnId} (halive : s.alive c = true) (hcloses : o.Closes c l) : Part o l s (s.handleClose c)
  | setHeld {c : ConnId} {held : Nat} (halive : s.alive c = true) : Part o l s (s.setConn c { s.conn c with held })
  | connection {connection : Option ConnId} (halive : ∀ c, connection = some c → s.alive c = true) :
      Part o l s { s with connection }
  | newConnection {sockfd : Int} (hl : ¬ o.Untouched l) : Part o l s (s.newConnection sockfd)

abbrev Parts (o : Client) (l : Label) : Client → Client → Prop := Relation.ReflTransGen (Part o l)

/-- What every part extends, a whole step extends. -/
theorem parts_rel {R : Client → Client → Prop} {o s u : Client} {l : Label} (refl : ∀ t, R t t)
    (trans : ∀ {t v w}, R t v → R v w → R t w) (part : ∀ {t v}, Part o l t v → R t v) (h : Parts o l s u) :
    R s u := by
  induction h with
  | refl => exact refl s
  | tail _ hpart ih => exact trans ih (part hpart)

section

variable {o s u : Client} {l : Label}

theorem Part.setLoop {lp : Loop} (hframe : lp.frame = s.loop.frame) (hactive : lp.active.Sublist s.loop.active)
    (hfunctors : ∀ q, q ∈ lp.tempRuns ∨ q ∈ lp.pendingFunctors → q ∈ s.loop.tempRuns ∨ q ∈ s.loop.pendingFunctors) :
    Part o l s (s.setLoop lp) :=
  .apart (s.setLoop_apart hframe hactive) fun _ => s.setLoop_aside hactive hfunctors

theorem Part.touch (h : Apart s u) (hl : ¬ o.Untouched l) : Part o l s u := .apart h fun hu => absurd hu hl

theorem takeActive_part {src : Source} {rest : List Source} (h : s.loop.active = src :: rest) :
    Part o l s (s.takeActive rest) :=
  .setLoop rfl (by rw [h]; exact List.sublist_cons_self src rest) fun _ hq => hq

theorem takeFunctor_part {q : Queued} {rest : List Queued} (h : s.loop.tempRuns = q :: rest) :
    Part o l s (s.takeFunctor rest) :=
  .setLoop rfl (List.Sublist.refl _) fun _ hq => hq.imp_left fun hq => by rw [h]; exact List.mem_cons_of_mem q hq

theorem event_parts {c : ConnId} {res : Buffer.ReadResult} {v : Client} (halive : s.alive c = true)
    (hhandles : o.Handles c l) (hcloses : (s.conn c).tcp.Closes res → o.Closes c l) (hquiet : Quiet s v)
    (h : Event s c res v u) : Parts o l s u := by
  have hfirst : Parts o l s v := .single (.quiet hquiet)
  have hc : v.alive c = true := by rwa [alive, hquiet.owners]
  cases h with
  | nothing => exact hfirst
  | read => exact hfirst.tail (.onMessage hc hhandles)
  | close hclose => exact hfirst.tail (.handleClose hc (hcloses hclose))

theorem handleWrite_parts (a : Attempt) (ch : Channel) (optval : Int) (hl : ¬ o.Untouched l) :
    Parts o l s (s.handleWrite a ch (some optval)) := by
  have hleave : Parts o l s (s.leave a ch) := .single (.touch (s.leave_apart a ch) hl)
  rw [handleWrite_eq]
  split
  · exact (hleave.tail (.touch (observe_apart _ rfl) hl)).tail (.newConnection hl)
  · exact hleave.tail (.quiet (crash_quiet _ true))

theorem return_parts (hs : s.Placed) {c : ConnId} {rest : Rest} (hframe : s.loop.frame = .user c rest)
    (w : WriteResult) : Parts o l s (s.return_ c w rest) := by
  have hsize : c < s.size := hs.user c rest hframe
  have hidle : ∀ t : Client, Parts o l t (t.setFrame .idle) := fun t => .single .idle
  have hout : ∀ t : Client, t.size = s.size → Part o l t (t.testOut c w) :=
    fun t ht => .quiet (t.testOut_quiet (fun _ => ht ▸ hsize) w)
  cases rest with
  | connected =>
    have htcp : Quiet s (s.setTcp c (s.conn c).tcp.setUpLayerCloseCallback) := s.setTcp_quiet c rfl rfl Iff.rfl
    refine ((Relation.ReflTransGen.single (.quiet htcp)).tail (.connection fun d (hd : some c = some d) => ?_)).trans
      (hidle _)
    cases hd
    exact alive_iff.mpr (Or.inr (Or.inr ⟨.connected, hframe⟩))
  | completed => exact hidle s
  | read => exact (hidle s).tail (hout _ rfl)
  | closed called =>
    obtain ⟨connection, hleft, hreturn⟩ := s.return_closed c w called
    have hsome : ∀ d, connection = some d → s.alive d = true := by
      intro d hd
      rcases hleft with heq | ⟨hnone, -⟩
      · exact alive_iff.mpr (Or.inl (heq ▸ hd))
      · rw [hnone] at hd
        cases hd
    rw [hreturn]
    exact ((Relation.ReflTransGen.single (.connection hsome)).trans (hidle _)).tail (hout _ rfl)

theorem start_part {inLoop : Bool} {fd savedErrno : Int} (h : inLoop = true → ¬ o.Untouched l) :
    Part o l s (s.start inLoop fd savedErrno) := by
  cases inLoop with
  | true => exact .touch (s.connect_apart fd savedErrno) (h rfl)
  | false => exact .apart (s.queueInLoop_apart _) fun _ => s.queueConnect_aside

theorem act_parts (hs : s.Placed) {inLoop : Bool} {arg : Option ConnId} {a : Act}
    (harg : ∀ c, arg = some c → s.alive c = true) (hmay : s.MayAct inLoop arg a)
    (hl : l = if inLoop then .act a else .foreign a) : Parts s l s (s.act inLoop a) := by
  have hheld : ∀ {c}, 0 < (s.conn c).held → s.alive c = true := fun h => alive_iff.mpr (Or.inr (Or.inl h))
  have hkept : ∀ {c}, arg = some c ∨ 0 < (s.conn c).held → s.alive c = true := fun {c} h => h.elim (harg c) hheld
  cases a with
  | send c message w => exact .single (.quiet (s.send_quiet (hs.known (hkept hmay.1)) inLoop message w))
  | keep c => exact .single (.setHeld (hkept hmay))
  | drop c => exact .single (.setHeld (hheld hmay))
  | connection =>
    simp only [Client.act]
    split
    · rename_i c hc
      exact .single (.setHeld (alive_iff.mpr (Or.inl hc)))
    · exact .refl
  | connect fd savedErrno =>
    have hcallback : Part s l s { s with callback := true } :=
      .apart { Apart.refl s with } fun _ => { Aside.refl s with }
    refine (Relation.ReflTransGen.single hcallback).tail (start_part fun hin hu => ?_)
    rw [hl, if_pos hin] at hu
    cases hu.1
  | start fd savedErrno =>
    refine .single (start_part fun hin hu => ?_)
    rw [hl, if_pos hin] at hu
    cases hu.1
  | stop =>
    refine .single (.touch (s.queueInLoop_apart _) fun hu => ?_)
    rw [hl] at hu
    cases inLoop <;> cases hu.2.2.2

theorem callFunctor_parts {c : ConnId} (halive : s.alive c = true) (hsize : c < s.size) (w : WriteResult)
    (f : Functor) : Parts o l s (s.callFunctor c w f) := by
  cases f with
  | onWriteComplateCB =>
    simp only [Client.callFunctor, Host.callFunctor]
    split
    · exact .single (.onWriteComplate halive)
    · exact .refl
  | onMessageCB message =>
    exact .single (.quiet ((s.called_quiet hsize (TcpConnection.sendInLoop_calm _ message w)).trans (crash_quiet _ _)))

theorem runFunctor_parts (hknown : ∀ c, s.alive c = true → c < s.size) {q : Queued}
    (hl : (∀ c f, q ≠ .bound c f) → ¬ o.Untouched l) (w : WriteResult) (fd savedErrno : Int) :
    Parts o l s (s.runFunctor w fd savedErrno q) := by
  cases q with
  | connect => exact .single (.touch (s.connect_apart fd savedErrno) (hl (by simp)))
  | resetChannel stopped of => exact .single (.touch (s.resetChannel_apart of) (hl (by simp)))
  | bound c f =>
    have hobserve : Parts o l s (s.observe (.functor c f (s.alive c))) := .single (.quiet (s.observe_quiet rfl))
    rcases s.runFunctor_bound w fd savedErrno c f with ⟨d, hd, heq⟩ | heq
    · rw [heq]
      exact hobserve.trans (callFunctor_parts (s := s.observe _) (pointee_alive hd) (hknown d (pointee_alive hd)) w f)
    · rw [heq]
      exact hobserve.tail (.quiet (crash_quiet _ true))

end

theorem step_parts {s u : Client} {l : Label} (hs : s.Placed) (h : step s l = some u) : Parts s l s u := by
  cases l with
  | loop =>
    obtain ⟨-, rfl⟩ := Machine.guard_some.mp h
    exact .single (.setLoop rfl (List.Sublist.refl _) fun _ hq => hq)
  | poll events =>
    obtain ⟨⟨-, hregistered, hnodup⟩, rfl⟩ := Machine.guard_some.mp h
    exact .single (.poll hregistered hnodup)
  | handle res w so =>
    obtain ⟨src, rest, hactive, -, -, rfl⟩ := handle_inv h
    have htaken : Parts s (.handle res w so) s (s.takeActive rest) := .single (takeActive_part hactive)
    have hsame : (s.takeActive rest).dataPtr src = s.dataPtr src := rfl
    cases hptr : s.dataPtr src with
    | none =>
      rw [handle, hsame, hptr]
      exact htaken.tail (.quiet (crash_quiet _ true))
    | some ch =>
      cases ch with
      | attempt a =>
        rcases handle_attempt hactive hptr rfl with ⟨-, hquiet⟩ | ⟨ch, optval, -, -, hsucceeds, hu⟩
        · exact htaken.tail (.quiet hquiet)
        · rw [hu]
          refine (htaken.tail (.quiet (observe_quiet _ rfl))).trans (handleWrite_parts a ch optval fun hl => ?_)
          rw [hl.2.2.1] at hsucceeds
          cases hsucceeds
      | conn c =>
        have halive : s.alive c = true := dataPtr_exists hptr
        obtain ⟨v, hquiet, hevent⟩ := (s.takeActive rest).handleEvent_cases (c := c) hs.known res w
        have hhead : s.loop.active.head?.bind s.dataPtr = some (.conn c) := by
          rw [hactive, List.head?_cons, Option.bind_some, hptr]
        rw [handle, hsame, hptr]
        exact htaken.trans
          (event_parts (s := s.takeActive rest) halive hhead (fun hcloses => ⟨hhead, hcloses⟩) hquiet hevent)
  | return_ w =>
    obtain ⟨c, rest, hframe, rfl⟩ := return_inv h
    exact return_parts hs hframe w
  | act a =>
    obtain ⟨arg, hcode, hmay, rfl⟩ := act_inv h
    refine act_parts hs (fun c hc => ?_) hmay rfl
    obtain ⟨rest, hframe⟩ := userCode_arg (hc ▸ hcode)
    exact alive_iff.mpr (Or.inr (Or.inr ⟨rest, hframe⟩))
  | foreign a =>
    obtain ⟨⟨-, hmay⟩, rfl⟩ := Machine.guard_some.mp h
    exact act_parts hs (by simp) hmay rfl
  | swap =>
    obtain ⟨-, rfl⟩ := Machine.guard_some.mp h
    refine .single (.setLoop rfl (List.Sublist.refl _) fun q hq => Or.inr ?_)
    exact hq.elim id fun hq => by cases hq
  | runFunctor w fd savedErrno =>
    obtain ⟨q, rest, hruns, -, -, rfl⟩ := runFunctor_inv h
    refine (Relation.ReflTransGen.single (takeFunctor_part hruns)).trans
      (runFunctor_parts (s := s.takeFunctor rest) (fun c hc => hs.known hc) (fun hq hl => ?_) w fd savedErrno)
    cases q with
    | connect =>
      have hconnects := hl.1
      simp [connects, hruns] at hconnects
    | resetChannel stopped of =>
      have hresets := hl.2.1
      simp [resets, hruns] at hresets
    | bound c f => exact hq c f rfl
  | endBatch =>
    obtain ⟨-, rfl⟩ := Machine.guard_some.mp h
    exact .single (.setLoop rfl (List.Sublist.refl _) fun _ hq => hq)

/-! ## `Placed` -/

namespace Placed

variable {s u : Client}

theorem apart (hs : s.Placed) (h : Apart s u) : u.Placed where
  interest := fun fd c e he => by
    rw [h.size, h.deleted, h.conn]
    exact hs.interest fd c e (h.interest fd c e he)
  nodup := hs.nodup.sublist h.active
  user := fun c rest hframe => by
    rw [h.size]
    exact hs.user c rest (h.frame ▸ hframe)
  closing := fun c called hframe => by
    rw [h.deleted]
    exact hs.closing c called (h.frame ▸ hframe)
  connection := fun c hc => by
    rw [h.size]
    exact hs.connection c (h.connection ▸ hc)
  held := fun c hc => by
    rw [h.size]
    exact hs.held c (h.conn ▸ hc)

theorem quiet (hs : s.Placed) (h : Quiet s u) : u.Placed where
  interest := by
    intro fd c e he
    rw [h.size, h.deleted, h.channelfd]
    rcases h.interest fd _ he with hold | ⟨d, hd, hfd, hsize, hdel⟩
    · exact hs.interest fd c e hold
    · obtain rfl : c = d := by simpa using hd
      exact ⟨hsize, hfd, hdel⟩
  nodup := h.active ▸ hs.nodup
  user := fun c rest hframe => by
    rw [h.size]
    exact hs.user c rest (h.frame ▸ hframe)
  closing := fun c called hframe => by
    rw [h.deleted]
    exact hs.closing c called (h.frame ▸ hframe)
  connection := fun c hc => by
    rw [h.size]
    exact hs.connection c (h.connection ▸ hc)
  held := fun c hc => by
    rw [h.size]
    exact hs.held c (h.held c ▸ hc)

theorem idle (hs : s.Placed) : (s.setFrame .idle).Placed := { hs with
  user := by simp [Client.setFrame]
  closing := by simp [Client.setFrame] }

theorem callBack (hs : s.Placed) {c : ConnId} (hsize : c < s.size) {rest : Rest} (hrest : ∀ b, rest ≠ .closed b)
    (cb : Callback) : ((s.setFrame (.user c rest)).observe (.callback c cb)).Placed := by
  refine { hs with user := fun d r hframe => ?_, closing := fun d b hframe => ?_ }
  · cases hframe
    exact hsize
  · cases hframe
    exact absurd rfl (hrest b)

theorem setHeld (hs : s.Placed) {c : ConnId} {held : Nat} (hsize : c < s.size) :
    (s.setConn c { s.conn c with held }).Placed := by
  have htcp : ∀ d, ((s.setConn c { s.conn c with held }).conn d).tcp = (s.conn d).tcp := fun d => by
    by_cases h : d = c
    · subst h
      simp [setConn]
    · simp [setConn, h]
  refine { hs with interest := fun fd d e he => ?_, closing := fun d called hframe => ?_, held := fun d hd => ?_ }
  · rw [Deleted, htcp]
    exact hs.interest fd d e he
  · rw [Deleted, htcp]
    exact hs.closing d called hframe
  · by_cases h : d = c
    · exact h ▸ hsize
    · exact hs.held d (by simpa [setConn, h] using hd)

theorem handleClose (hs : s.Placed) {c : ConnId} (hsize : c < s.size) : (s.handleClose c).Placed := by
  rw [handleClose_eq]
  refine { hs with interest := fun fd d e he => ?_, user := ?_, closing := ?_, held := fun d hd => ?_ }
  · dsimp only at he
    rw [epollCtl_del] at he
    split at he
    · cases he
    · rename_i hfd
      have hold := hs.interest fd d e he
      have hne : d ≠ c := by
        rintro rfl
        exact hfd hold.2.1.symm
      simpa only [Deleted, Function.update_of_ne hne] using hold
  · intro d rest hframe
    cases hframe
    exact hsize
  · intro d called hframe
    cases hframe
    simp only [Deleted, Function.update_self]
    rfl
  · by_cases h : d = c
    · exact h ▸ hsize
    · simp only [Function.update_of_ne h] at hd
      exact hs.held d hd

theorem newConnection (hs : s.Placed) (sockfd : Int) : (s.newConnection sockfd).Placed := by
  rw [newConnection_eq]
  have hlt : ∀ {c}, c < s.size → c < s.size + 1 := fun hc => Nat.lt_succ_of_lt hc
  refine ⟨fun fd c e he => ?_, hs.nodup, fun c rest hframe => ?_, fun c called hframe => ?_, fun c hc => ?_,
    fun c hc => ?_⟩
  · rcases epollCtl_some he with hold | ⟨rfl, hc, -⟩
    · obtain ⟨hc, hold⟩ := hs.interest fd c e hold
      refine ⟨hlt hc, ?_⟩
      simpa only [Deleted, Function.update_of_ne (Nat.ne_of_lt hc)] using hold
    · obtain rfl : c = s.size := by simpa using hc
      refine ⟨Nat.lt_succ_self _, ?_⟩
      simp [Deleted, (s.fresh_channel _).1, (s.fresh_channel _).2]
  · dsimp only at hframe
    split at hframe
    · cases hframe
      exact Nat.lt_succ_self _
    · cases hframe
  · dsimp only at hframe
    split at hframe <;> cases hframe
  · dsimp only at hc
    split at hc
    · exact hlt (hs.connection c hc)
    · cases hc
      exact Nat.lt_succ_self _
  · by_cases h : c = s.size
    · exact h ▸ Nat.lt_succ_self _
    · simp only [Function.update_of_ne h] at hc
      exact hlt (hs.held c hc)

theorem poll (hs : s.Placed) {events : List (Source × Events)} (hnodup : (events.map Prod.fst).Nodup) :
    ((s.setRevents events).setLoop { s.loop with phase := .handling, active := events.map Prod.fst }).Placed := by
  have hquiet := s.setRevents_quiet events
  have hset := hs.quiet hquiet
  exact { hset with
    nodup := hnodup
    user := fun c rest hframe => hset.user c rest (hquiet.frame.trans hframe)
    closing := fun c called hframe => hset.closing c called (hquiet.frame.trans hframe) }

theorem part (hs : s.Placed) {o : Client} {l : Label} (h : Part o l s u) : u.Placed := by
  cases h with
  | quiet h => exact hs.quiet h
  | apart h => exact hs.apart h
  | poll _ hnodup => exact hs.poll hnodup
  | idle => exact hs.idle
  | onMessage halive => exact hs.callBack (hs.known halive) (by simp) _
  | onWriteComplate halive => exact hs.callBack (hs.known halive) (by simp) _
  | handleClose halive => exact hs.handleClose (hs.known halive)
  | setHeld halive => exact hs.setHeld (hs.known halive)
  | connection halive => exact { hs with connection := fun c hc => hs.known (halive c hc) }
  | newConnection => exact hs.newConnection _

end Placed

theorem step_placed {s u : Client} {l : Label} (hs : s.Placed) (h : step s l = some u) : u.Placed :=
  parts_rel (R := fun t v => t.Placed → v.Placed) (fun _ ht => ht) (fun h k ht => k (h ht)) (fun h ht => ht.part h)
    (step_parts hs h) hs

/-! ## What lasts -/

/-- Connections are made, and none is opened again or gets another descriptor. -/
structure Onward (s u : Client) : Prop where
  size : s.size ≤ u.size
  deleted : ∀ c < s.size, s.Deleted c → u.Deleted c
  descriptor : ∀ c < s.size, (u.conn c).descriptor = (s.conn c).descriptor
  sockfd : ∀ c < s.size, (u.conn c).tcp.sockfd = (s.conn c).tcp.sockfd

namespace Onward

variable {s t u : Client}

theorem refl (s : Client) : Onward s s := ⟨le_rfl, fun _ _ h => h, fun _ _ => rfl, fun _ _ => rfl⟩

theorem trans (h : Onward s t) (k : Onward t u) : Onward s u where
  size := h.size.trans k.size
  deleted := fun c hc hd => k.deleted c (lt_of_lt_of_le hc h.size) (h.deleted c hc hd)
  descriptor := fun c hc => (k.descriptor c (lt_of_lt_of_le hc h.size)).trans (h.descriptor c hc)
  sockfd := fun c hc => (k.sockfd c (lt_of_lt_of_le hc h.size)).trans (h.sockfd c hc)

theorem quiet (h : Quiet s u) : Onward s u :=
  ⟨h.size.ge, fun c _ => (h.deleted c).mpr, fun c _ => h.descriptor c, fun c _ => h.sockfd c⟩

theorem apart (h : Apart s u) : Onward s u :=
  ⟨h.size.ge, fun c _ => (h.deleted c).mpr, fun c _ => by rw [h.conn], fun c _ => by rw [h.conn]⟩

theorem setHeld (c : ConnId) (held : Nat) : Onward s (s.setConn c { s.conn c with held }) := by
  refine ⟨le_rfl, fun d _ hd => (s.setHeld_deleted c d held).mpr hd, fun d _ => ?_, fun d _ => ?_⟩
  all_goals
    by_cases h : d = c
    · subst h
      simp [setConn]
    · simp [setConn, h]

theorem handleClose (c : ConnId) : Onward s (s.handleClose c) := by
  refine ⟨?_, fun d _ hd => (s.handleClose_deleted c d).mpr (Or.inr hd), fun d _ => ?_, fun d _ => ?_⟩
  · rw [handleClose_eq]
  all_goals
    rw [handleClose_eq]
    by_cases h : d = c
    · subst h
      simp
    · simp [h]

theorem newConnection (sockfd : Int) : Onward s (s.newConnection sockfd) := by
  refine ⟨?_, fun c hc hd => (s.newConnection_deleted (Nat.ne_of_lt hc)).mpr hd, fun c hc => ?_, fun c hc => ?_⟩
  · rw [newConnection_eq]
    exact Nat.le_succ _
  all_goals
    rw [newConnection_eq]
    simp only [Function.update_of_ne (Nat.ne_of_lt hc)]

theorem part {o : Client} {l : Label} (h : Part o l s u) : Onward s u := by
  cases h with
  | quiet h => exact .quiet h
  | apart h => exact .apart h
  | poll => exact .trans (.quiet (s.setRevents_quiet _)) ⟨le_rfl, fun _ _ h => h, fun _ _ => rfl, fun _ _ => rfl⟩
  | idle | onMessage | onWriteComplate | connection => exact ⟨le_rfl, fun _ _ h => h, fun _ _ => rfl, fun _ _ => rfl⟩
  | handleClose => exact .handleClose _
  | setHeld => exact .setHeld _ _
  | newConnection => exact .newConnection _

end Onward

theorem step_onward {s u : Client} {l : Label} (hs : s.Placed) (h : step s l = some u) : Onward s u :=
  parts_rel Onward.refl Onward.trans Onward.part (step_parts hs h)

theorem part_size {o s u : Client} {l : Label} (hl : o.Untouched l) (h : Part o l s u) : u.size = s.size := by
  cases h with
  | quiet h => exact h.size
  | apart h => exact h.size
  | poll => exact (s.setRevents_quiet _).size
  | handleClose => rw [handleClose_eq]
  | idle | onMessage | onWriteComplate | connection | setHeld => rfl
  | newConnection hnot => exact absurd hl hnot

/-! ## `Aside` -/

namespace Aside

variable {s u : Client}

theorem poll {events : List (Source × Events)}
    (hregistered : ∀ p ∈ events, (s.interest (s.fd p.1)).map Prod.fst = some p.1) :
    Aside s ((s.setRevents events).setLoop { s.loop with phase := .handling, active := events.map Prod.fst }) := by
  have hset := Aside.quiet (s.setRevents_quiet events)
  refine { hset with active := fun a ha => Or.inr ?_, resets := fun _ _ h => h }
  obtain ⟨p, hp, hpa⟩ := List.mem_map.mp ha
  have hentry := hregistered p hp
  rw [hpa, Option.map_eq_some_iff] at hentry
  obtain ⟨⟨src, e⟩, hentry, rfl⟩ := hentry
  exact ⟨e, hentry⟩

theorem handleClose (c : ConnId) : Aside s (s.handleClose c) := by
  rw [handleClose_eq]
  refine { Aside.refl s with
    interest := fun fd a e he => epollCtl_other he (by simp)
    trace := ⟨_, rfl, fun o ho => ?_⟩ }
  rcases List.mem_cons.mp ho with rfl | ho
  · rfl
  · split at ho
    · rw [List.mem_singleton.mp ho]
      rfl
    · cases ho

theorem newConnection (sockfd : Int) : Aside s (s.newConnection sockfd) := by
  rw [newConnection_eq]
  refine { Aside.refl s with
    interest := fun fd a e he => epollCtl_other he (by simp)
    trace := ⟨_, rfl, fun o ho => ?_⟩ }
  split at ho
  · rw [List.mem_singleton.mp ho]
    rfl
  · cases ho

theorem part {o : Client} {l : Label} (hl : o.Untouched l) (h : Part o l s u) : Aside s u := by
  cases h with
  | quiet h => exact .quiet h
  | apart h haside => exact haside hl
  | poll hregistered => exact .poll hregistered
  | idle => exact { Aside.refl s with }
  | onMessage => exact { Aside.refl s with trace := ⟨[.callback _ .onMessage], rfl, by simp [Obs.aside]⟩ }
  | onWriteComplate => exact { Aside.refl s with trace := ⟨[.callback _ .onWriteComplate], rfl, by simp [Obs.aside]⟩ }
  | handleClose => exact .handleClose _
  | setHeld => exact { Aside.refl s with }
  | connection => exact { Aside.refl s with }
  | newConnection => exact .newConnection _

end Aside

theorem step_aside {s u : Client} {l : Label} (hs : s.Placed) (hl : s.Untouched l) (h : step s l = some u) :
    Aside s u :=
  parts_rel Aside.refl Aside.trans (Aside.part hl) (step_parts hs h)

end Muduo.Client
