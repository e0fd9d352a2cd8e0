import Muduo.Client.Parts

/-! # Behind `handleClose`, and which thread does what

What another thread can do with the connections of a client, and what an event can do to one that is closed.
-/

namespace Muduo.Client

/-! ## Threads -/

/-- The loop's thread takes the step. -/
def Label.inLoop : Label → Bool
  | .foreign _ => false
  | .loop | .poll _ | .handle _ _ _ | .return_ _ | .act _ | .swap | .runFunctor _ _ _ | .endBatch => true

/-- The connection whose `sendInLoop` a step calls. -/
def sendsInLoop (s : Client) : Label → Option ConnId
  | .act (.send c _ _) => some c
  | .runFunctor _ _ _ =>
    match s.loop.tempRuns with
    | .bound c (.onMessageCB _) :: _ => s.pointee c
    | _ => none
  | _ => none

/-- `_inBuf` and `_outBuf` of `c` are what they were. -/
def SameBuffers (s : Client) (c : ConnId) (u : Client) : Prop :=
  (u.conn c).tcp.inBuf = (s.conn c).tcp.inBuf ∧ (u.conn c).tcp.outBuf = (s.conn c).tcp.outBuf

/-- The handlers, the callbacks and the `sendInLoop` that run in a step run in the loop's thread, and a step of
another thread leaves the buffers alone. -/
structure Confined (s : Client) (l : Label) (u : Client) : Prop where
  calls : ∀ o ∈ u.trace.drop s.trace.length, o.calls ≠ none → l.inLoop = true
  sends : s.sendsInLoop l ≠ none → l.inLoop = true
  buffers : ∀ c, l.inLoop = false → s.SameBuffers c u

theorem setHeld_buffers (s : Client) (c d : ConnId) (held : Nat) :
    s.SameBuffers c (s.setConn d { s.conn d with held }) := by
  by_cases h : c = d
  · subst h
    simp [SameBuffers, setConn]
  · simp [SameBuffers, setConn, h]

theorem foreign_confined (s : Client) (a : Act) : s.Confined (.foreign a) (s.act false a) := by
  have hboth : (s.act false a).trace = s.trace ∧ ∀ c, s.SameBuffers c (s.act false a) := by
    cases a with
    | send | connect | start | stop => exact ⟨rfl, fun _ => ⟨rfl, rfl⟩⟩
    | keep d => exact ⟨rfl, fun c => s.setHeld_buffers c d _⟩
    | drop d => exact ⟨rfl, fun c => s.setHeld_buffers c d _⟩
    | connection =>
      simp only [act]
      split
      · exact ⟨rfl, fun c => s.setHeld_buffers c _ _⟩
      · exact ⟨rfl, fun _ => ⟨rfl, rfl⟩⟩
  refine ⟨fun o ho => ?_, fun hc => absurd rfl hc, fun c _ => hboth.2 c⟩
  rw [hboth.1, List.drop_length] at ho
  cases ho

theorem step_confined {s u : Client} {l : Label} (h : step s l = some u) : s.Confined l u := by
  cases l with
  | foreign a =>
    obtain ⟨-, rfl⟩ := Machine.guard_some.mp h
    exact s.foreign_confined a
  | loop | poll | handle | return_ | act | swap | runFunctor | endBatch =>
    exact ⟨fun _ _ _ => rfl, fun _ => rfl, fun _ hl => by cases hl⟩

/-! ## Closed connections -/

/-- The channel of the entry that a step handles still exists. -/
def HandlesLive (s : Client) : Label → Prop
  | .handle _ _ _ => ∀ src ∈ s.loop.active.head?, s.Exists src
  | _ => True

instance (s : Client) : (l : Label) → Decidable (s.HandlesLive l)
  | .handle _ _ _ => inferInstanceAs (Decidable (∀ src ∈ s.loop.active.head?, s.Exists src))
  | .loop | .poll _ | .return_ _ | .act _ | .foreign _ | .swap | .runFunctor _ _ _ | .endBatch => .isTrue trivial

theorem Handles.head {s : Client} {c : ConnId} {l : Label} (h : s.Handles c l) (hlives : s.HandlesLive l) :
    s.loop.active.head? = some (.conn c) := by
  cases l with
  | handle =>
    obtain ⟨src, hsrc, hptr⟩ := Option.bind_eq_some_iff.mp h
    rw [dataPtr_of_exists (hlives src hsrc), Option.some.injEq] at hptr
    exact hptr ▸ hsrc
  | loop | poll | return_ | act | foreign | swap | runFunctor | endBatch => cases h

/-- `handleClose` has begun. -/
def Closing (s : Client) (c : ConnId) : Prop := .handler c .handleClose ∈ s.trace

/-- The channel is deleted, and the loop has no event of it left. -/
structure Closed (s : Client) (c : ConnId) : Prop where
  size : c < s.size
  deleted : s.Deleted c
  inactive : .conn c ∉ s.loop.active

/-- What only an event leads to. -/
def Obs.ofEvent (c : ConnId) : Obs → Bool
  | .handler d .handleClose | .callback d .onClose | .callback d .onMessage => d = c
  | _ => false

theorem Obs.ofEvent_inner {o : Obs} (h : o.inner = true) (c : ConnId) : o.ofEvent c = false := by
  cases o with
  | handler d k =>
    cases k with
    | handleRead | handleWrite => rfl
    | handleClose => cases h
  | consulted | functor => rfl
  | socket | close | newConnection | resetChannel | callback => cases h

theorem Obs.ofEvent_calls {o : Obs} (h : o.calls = none) (c : ConnId) : o.ofEvent c = false := by
  cases o with
  | handler | callback => cases h
  | socket | close | newConnection | resetChannel | consulted | functor => rfl

/-! ## Parts of a step -/

/-- From `s` to `u` no event of `c` is handled. -/
structure Spares (c : ConnId) (s u : Client) : Prop where
  closed : s.Closed c → u.Closed c
  silent : ∃ os, u.trace = s.trace ++ os ∧ ∀ o ∈ os, o.ofEvent c = false

namespace Spares

variable {c : ConnId} {s t u : Client}

theorem trans (h : Spares c s t) (k : Spares c t u) : Spares c s u where
  closed := fun hs => k.closed (h.closed hs)
  silent := by
    obtain ⟨os, hs, hos⟩ := h.silent
    obtain ⟨ps, ht, hps⟩ := k.silent
    refine ⟨os ++ ps, by rw [ht, hs, List.append_assoc], fun o ho => ?_⟩
    exact (List.mem_append.mp ho).elim (hos o) (hps o)

theorem quiet (h : Quiet s u) : Spares c s u where
  closed := fun hs => ⟨h.size ▸ hs.size, (h.deleted c).mpr hs.deleted, h.active ▸ hs.inactive⟩
  silent := by
    obtain ⟨os, htrace, hos⟩ := h.trace
    exact ⟨os, htrace, fun o ho => Obs.ofEvent_inner (hos o ho) c⟩

theorem apart (h : Apart s u) : Spares c s u where
  closed := fun hs =>
    ⟨h.size ▸ hs.size, (h.deleted c).mpr hs.deleted, fun hc => hs.inactive (h.active.subset hc)⟩
  silent := by
    obtain ⟨os, htrace, hos⟩ := h.trace
    exact ⟨os, htrace, fun o ho => Obs.ofEvent_calls (hos o ho) c⟩

theorem setHeld (d : ConnId) (held : Nat) : Spares c s (s.setConn d { s.conn d with held }) where
  closed := fun hs => ⟨hs.size, (s.setHeld_deleted d c held).mpr hs.deleted, hs.inactive⟩
  silent := ⟨[], by simp [setConn], by simp⟩

theorem newConnection (sockfd : Int) : Spares c s (s.newConnection sockfd) where
  closed := by
    intro hs
    have hdeleted : (s.newConnection sockfd).Deleted c :=
      (s.newConnection_deleted (Nat.ne_of_lt hs.size)).mpr hs.deleted
    rw [newConnection_eq] at hdeleted ⊢
    exact ⟨Nat.lt_succ_of_lt hs.size, hdeleted, hs.inactive⟩
  silent := by
    rw [newConnection_eq]
    refine ⟨_, rfl, fun o ho => ?_⟩
    split at ho
    · rw [List.mem_singleton.mp ho]
      rfl
    · cases ho

theorem handleClose {d : ConnId} (hd : d ≠ c) : Spares c s (s.handleClose d) where
  closed := by
    intro hs
    have hdeleted := (s.handleClose_deleted d c).mpr (Or.inr hs.deleted)
    rw [handleClose_eq] at hdeleted ⊢
    exact ⟨hs.size, hdeleted, hs.inactive⟩
  silent := by
    rw [handleClose_eq]
    refine ⟨_, rfl, fun o ho => ?_⟩
    rcases List.mem_cons.mp ho with rfl | ho
    · exact decide_eq_false hd
    · split at ho
      · rw [List.mem_singleton.mp ho]
        exact decide_eq_false hd
      · cases ho

theorem poll (hs : s.Placed) {events : List (Source × Events)}
    (hregistered : ∀ p ∈ events, (s.interest (s.fd p.1)).map Prod.fst = some p.1) :
    Spares c s ((s.setRevents events).setLoop { s.loop with phase := .handling, active := events.map Prod.fst }) := by
  refine (Spares.quiet (s.setRevents_quiet events)).trans
    ⟨fun hc => ⟨hc.size, hc.deleted, fun hmem => ?_⟩, [], ?_, ?_⟩
  · obtain ⟨p, hp, hpc⟩ := List.mem_map.mp hmem
    have hentry := hregistered p hp
    rw [hpc, Option.map_eq_some_iff] at hentry
    obtain ⟨⟨src, e⟩, hentry, rfl⟩ := hentry
    exact (hs.interest _ c e hentry).2.2 (((s.setRevents_quiet events).deleted c).mp hc.deleted)
  · simp [Client.setLoop]
  · simp

theorem part (hs : s.Placed) {o : Client} {l : Label} (hl : ¬ o.Handles c l) (h : Part o l s u) : Spares c s u := by
  have hother : ∀ {d}, o.Handles d l → d ≠ c := by
    rintro d hd rfl
    exact hl hd
  cases h with
  | quiet h => exact .quiet h
  | apart h => exact .apart h
  | poll hregistered => exact .poll hs hregistered
  | idle => exact ⟨fun hs => { hs with }, [], by simp [setFrame], by simp⟩
  | @onMessage d hsize hhandles =>
    refine ⟨fun hs => { hs with }, [.callback d .onMessage], rfl, fun p hp => ?_⟩
    rw [List.mem_singleton.mp hp]
    exact decide_eq_false (hother hhandles)
  | @onWriteComplate d => exact ⟨fun hs => { hs with }, [.callback d .onWriteComplate], rfl, by simp [Obs.ofEvent]⟩
  | handleClose hsize hcloses => exact .handleClose (hother hcloses.handles)
  | setHeld => exact .setHeld _ _
  | connection => exact ⟨fun hs => { hs with }, [], by simp, by simp⟩
  | newConnection => exact .newConnection _

end Spares

/-! ## Steps -/

theorem step_spares {s u : Client} {l : Label} (hs : s.Placed) {c : ConnId} (hl : ¬ s.Handles c l)
    (h : step s l = some u) : Spares c s u := by
  have hboth : s.Placed → u.Placed ∧ Spares c s u :=
    parts_rel (R := fun t v => t.Placed → v.Placed ∧ Spares c t v) (fun t ht => ⟨ht, .quiet (Quiet.refl t)⟩)
      (fun h k ht => ⟨(k (h ht).1).1, (h ht).2.trans (k (h ht).1).2⟩) (fun h ht => ⟨ht.part h, .part ht hl h⟩)
      (step_parts hs h)
  exact (hboth hs).2

theorem step_event {s u : Client} {l : Label} (hs : s.Placed) {c : ConnId} (hl : s.Handles c l)
    (h : step s l = some u) : ∃ src rest v res, s.loop.active = src :: rest ∧ s.dataPtr src = some (.conn c) ∧
      Quiet (s.takeActive rest) v ∧ Event (s.takeActive rest) c res v u := by
  obtain ⟨res, w, so, rfl⟩ : ∃ res w so, l = .handle res w so := by
    cases l with
    | handle res w so => exact ⟨res, w, so, rfl⟩
    | loop | poll | return_ | act | foreign | swap | runFunctor | endBatch => cases hl
  obtain ⟨src, rest, hactive, -, -, rfl⟩ := handle_inv h
  have hptr : s.dataPtr src = some (.conn c) := by simpa [Handles, hactive] using hl
  obtain ⟨v, hquiet, hevent⟩ :=
    (s.takeActive rest).handleEvent_cases (c := c) (fun _ => hs.known hl.alive) res w
  have hsame : (s.takeActive rest).dataPtr src = s.dataPtr src := rfl
  refine ⟨src, rest, v, res, hactive, hptr, hquiet, ?_⟩
  rw [handle, hsame, hptr]
  exact hevent

/-! ## One `handleClose` -/

/-- `handleClose` and `onClose` are called once at most, and no `onMessage` comes behind them. -/
def Obs.ClosesOnce (c : ConnId) : List Obs → Prop :=
  Machine.ClosesOnce (· = .callback c .onMessage) (· = .handler c .handleClose) (· = .callback c .onClose)

/-- What a step does to the history of `c`. -/
abbrev Settles (c : ConnId) : Client → Client → Prop :=
  Machine.Settles (· = .callback c .onMessage) (· = .handler c .handleClose) (· = .callback c .onClose) Client.trace
    (Closed · c)

theorem Obs.not_ofEvent {o : Obs} {c : ConnId} : o.ofEvent c = false ↔
    o ≠ .callback c .onMessage ∧ o ≠ .handler c .handleClose ∧ o ≠ .callback c .onClose := by
  cases o with
  | socket | close | newConnection | resetChannel | consulted | functor => simp [ofEvent]
  | handler d k => cases k <;> simp [ofEvent]
  | callback d cb => cases cb <;> simp [ofEvent]

theorem Spares.settles {s u : Client} {c : ConnId} (h : Spares c s u) : Settles c s u := by
  obtain ⟨os, htrace, hos⟩ := h.silent
  exact .silent h.closed ⟨os, htrace, fun o ho => Obs.not_ofEvent.mp (hos o ho)⟩

theorem Event.grows {s v u : Client} {c : ConnId} {res : Buffer.ReadResult} (h : Event s c res v u) :
    ∃ os, u.trace = v.trace ++ os ∧ Obs.ClosesOnce c os ∧ ((∃ o ∈ os, o = .handler c .handleClose) →
      u.size = v.size ∧ u.loop.active = v.loop.active ∧ u.Deleted c) := by
  cases h with
  | nothing => exact ⟨[], by simp, Machine.closesOnce_open (by simp), by simp⟩
  | read =>
    refine ⟨[.callback c .onMessage], rfl, Machine.closesOnce_open fun o ho => ?_, by simp⟩
    simp [List.mem_singleton.mp ho]
  | close =>
    have hdeleted := (v.handleClose_deleted c c).mpr (Or.inl rfl)
    rw [handleClose_eq] at hdeleted ⊢
    refine ⟨_, rfl, ?_, fun _ => ⟨rfl, rfl, hdeleted⟩⟩
    split
    · exact ⟨List.pairwise_pair.mpr (by simp), fun _ _ _ => ⟨_, List.mem_cons_self, rfl⟩⟩
    · exact ⟨List.pairwise_singleton _ _, fun _ _ _ => ⟨_, List.mem_cons_self, rfl⟩⟩

theorem step_settles {s u : Client} {l : Label} (hs : s.Placed) (c : ConnId) (hlives : s.HandlesLive l)
    (h : step s l = some u) : Settles c s u := by
  by_cases hl : s.Handles c l
  · have hhead := hl.head hlives
    obtain ⟨src, rest, v, res, hactive, -, hquiet, hevent⟩ := step_event hs hl h
    obtain ⟨os, htrace, honce, hcloses⟩ := hevent.grows
    have hspares : Spares c (s.takeActive rest) v := .quiet hquiet
    obtain ⟨ps, htrace', hps⟩ := hspares.silent
    have hopen : ¬ s.Closed c := fun hc => hc.inactive (List.mem_of_mem_head? hhead)
    have hnone : ∀ p ∈ ps, p ≠ .handler c .handleClose := fun p hp => (Obs.not_ofEvent.mp (hps p hp)).2.1
    refine ⟨fun hc => absurd hc hopen, ps ++ os, by rw [htrace, htrace', List.append_assoc]; rfl, ?_, ?_,
      fun hc => absurd hc hopen⟩
    · refine (Machine.closesOnce_open fun p hp => (Obs.not_ofEvent.mp (hps p hp)).2).append honce fun p hp hbegins => ?_
      exact absurd hbegins (hnone p hp)
    · rintro ⟨o, ho, hbegins⟩
      obtain ⟨hsize, hactive', hdeleted⟩ :=
        hcloses ⟨o, (List.mem_append.mp ho).resolve_left fun hp => hnone o hp hbegins, hbegins⟩
      have hnodup := hs.nodup
      rw [hactive, List.head?_cons, Option.some.injEq] at hhead
      rw [hactive, hhead] at hnodup
      refine ⟨?_, hdeleted, ?_⟩
      · rw [hsize, hquiet.size]
        exact hs.known hl.alive
      · rw [hactive', hquiet.active]
        exact (List.nodup_cons.mp hnodup).1
  · exact (step_spares hs hl h).settles

/-! ## Runs -/

/-- `c` is out of epoll, no event of it has been handled since `s`, and it was closed once. -/
structure StaysClosed (s u : Client) (c : ConnId) : Prop where
  unregistered : ∀ fd e, u.interest fd ≠ some (.conn c, e)
  silent : ∀ o ∈ u.trace.drop s.trace.length, o.ofEvent c = false
  once : Obs.ClosesOnce c u.trace

theorem run_staysClosed {user : Bool} {heap : Heap} {labels later : List Label} {s u : Client}
    (hlives : Machine.Meets step HandlesLive (init user heap) (labels ++ later))
    (hrun : Machine.run step (init user heap) labels = some s) {c : ConnId} (hc : s.Closing c)
    (hlater : Machine.run step s later = some u) : s.StaysClosed u c := by
  obtain ⟨hplaced, hclosed, hsilent, honce⟩ := Machine.run_settles
    (fun _ _ _ ht _ hstep => step_placed ht hstep) (fun _ _ _ ht hl hstep => step_settles ht c hl hstep)
    (init_placed user heap) rfl hlives hrun ⟨_, hc, rfl⟩ hlater
  exact ⟨fun fd e he => (hplaced.interest fd c e he).2.2 hclosed.deleted,
    fun o ho => Obs.not_ofEvent.mpr (hsilent o ho), honce⟩

end Muduo.Client
