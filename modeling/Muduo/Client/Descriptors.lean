import Muduo.Client.Owners

/-! # The descriptors that `::socket` returns

`Connector::connect` closes the descriptor of an attempt that fails, and nothing else does.
-/

namespace Muduo.Client

/-- The connection whose `handleClose` returns. -/
def completes (s : Client) : Label → Option ConnId
  | .return_ _ =>
    match s.loop.frame with
    | .user c (.closed _) => some c
    | _ => none
  | _ => none

/-- The connections whose `handleClose` has returned. -/
def completed (s : Client) (labels : List Label) : List ConnId :=
  Machine.outputs step (fun t l => (t.completes l).toList) s labels

/-- The channel of the attempt is there and has not left epoll. -/
def InProgress (s : Client) (a : Attempt) : Prop :=
  ∃ sockfd index, s.slot = some (a, sockfd, index) ∧ index ≠ .kDeleted

/-- Every descriptor that `::socket` returned belongs to an attempt in progress, or to a connection that exists and
has not completed `handleClose`, or it has been closed once. -/
def DescriptorsOwned (s : Client) (done : List ConnId) : Prop :=
  ∀ a fd, .socket a fd ∈ s.trace → 0 ≤ fd → s.InProgress a ∨
    (∃ c < s.size, (s.conn c).descriptor = a ∧ (s.conn c).tcp.sockfd = fd ∧ s.alive c = true ∧ c ∉ done) ∨
    s.trace.count (.close a fd) = 1

/-- No `connect` asks for a retry or replaces an attempt in progress, `resetChannel` ends none, a connected attempt
finds a callback, no peer hangs up, and open connections have owners. -/
def Conserves (s : Client) (l : Label) : Prop :=
  (∀ p ∈ s.connects l, 0 ≤ p.1 → outcome p.2 ≠ .retry ∧ (outcome p.2 = .connecting → s.Gone)) ∧
  (s.resets l ≠ none → s.Gone) ∧ (s.succeeds l ≠ none → s.callback = true) ∧
  (∀ c < s.size, ¬ s.Closes c l) ∧ s.Retains l

instance (s : Client) (l : Label) : Decidable (s.Conserves l) :=
  inferInstanceAs (Decidable ((∀ p ∈ s.connects l, 0 ≤ p.1 →
    outcome p.2 ≠ .retry ∧ (outcome p.2 = .connecting → s.Gone)) ∧
    (s.resets l ≠ none → s.Gone) ∧ (s.succeeds l ≠ none → s.callback = true) ∧
    (∀ c < s.size, ¬ s.Closes c l) ∧ s.Retains l))

/-! ## Open connections -/

/-- No connection has begun `handleClose`. -/
structure AllOpen (s : Client) : Prop where
  opened : ∀ c < s.size, ¬ s.Deleted c
  frame : ∀ c called, s.loop.frame ≠ .user c (.closed called)

theorem part_allOpen {o s u : Client} {l : Label} (hl : ∀ c, ¬ o.Closes c l) (hs : s.AllOpen) (h : Part o l s u) :
    u.AllOpen := by
  cases h with
  | quiet h => exact ⟨fun c hc hd => hs.opened c (h.size ▸ hc) ((h.deleted c).mp hd), h.frame ▸ hs.frame⟩
  | apart h => exact ⟨fun c hc hd => hs.opened c (h.size ▸ hc) ((h.deleted c).mp hd), h.frame ▸ hs.frame⟩
  | poll =>
    have hset := s.setRevents_quiet ‹_›
    exact ⟨fun c hc hd => hs.opened c (hset.size ▸ hc) ((hset.deleted c).mp hd), hs.frame⟩
  | idle | onMessage | onWriteComplate => exact ⟨hs.opened, fun c called h => by cases h⟩
  | handleClose _ hcloses => exact absurd hcloses (hl _)
  | setHeld => exact ⟨fun c hc hd => hs.opened c hc ((s.setHeld_deleted _ c _).mp hd), hs.frame⟩
  | connection => exact ⟨hs.opened, hs.frame⟩
  | newConnection =>
    refine ⟨fun c hc hd => ?_, fun c called h => ?_⟩
    · by_cases hnew : c = s.size
      · rw [newConnection_eq] at hd
        subst hnew
        simp [Deleted, (s.fresh_channel _).2] at hd
      · rw [newConnection_eq] at hc
        exact hs.opened c (lt_of_le_of_ne (Nat.le_of_lt_succ hc) hnew) ((s.newConnection_deleted hnew).mp hd)
    · rw [newConnection_eq] at h
      dsimp only at h
      split at h <;> cases h

theorem step_allOpen {s u : Client} {l : Label} (hs : s.Placed) (hopen : s.AllOpen)
    (hl : ∀ c < s.size, ¬ s.Closes c l) (h : step s l = some u) : u.AllOpen := by
  have hnone : ∀ c, ¬ s.Closes c l := fun c hc => hl c (hs.known hc.handles.alive) hc
  exact parts_rel (R := fun t v => t.AllOpen → v.AllOpen) (fun _ ht => ht) (fun h k ht => k (h ht))
    (fun h ht => part_allOpen hnone ht h) (step_parts hs h) hopen

theorem AllOpen.completes {s : Client} (hs : s.AllOpen) (l : Label) : s.completes l = none := by
  cases l with
  | return_ w =>
    simp only [Client.completes]
    split
    · rename_i hframe
      exact absurd hframe (hs.frame _ _)
    · rfl
  | loop | poll | handle | act | foreign | swap | runFunctor | endBatch => rfl

/-! ## Attempts -/

/-- Who has the descriptor of `a`. -/
def Conserved (s : Client) (a : Attempt) : Prop :=
  s.InProgress a ∨ (∃ c < s.size, (s.conn c).descriptor = a ∧ (s.conn c).tcp.sockfd = s.fds a) ∨
    s.trace.count (.close a (s.fds a)) = 1

structure Accounted (s : Client) : Prop where
  sockets : ∀ a fd, .socket a fd ∈ s.trace → a < s.attempts ∧ s.fds a = fd
  closes : ∀ a fd, .close a fd ∈ s.trace → a < s.attempts
  sockFd : ∀ a, s.attempts = a + 1 → s.sockFd = s.fds a
  current : s.isOpen s.sockFd = true → ∀ a, s.InProgress a → s.attempts = a + 1
  conserved : ∀ a < s.attempts, 0 ≤ s.fds a → s.Conserved a

theorem init_accounted (user : Bool) (heap : Heap) : (init user heap).Accounted where
  sockets := fun _ _ h => by simp [init] at h
  closes := fun _ _ h => by simp [init] at h
  sockFd := fun _ h => by simp [init] at h
  current := fun h => by simp [init] at h
  conserved := fun _ h => by simp [init] at h

theorem Gone.inProgress {s : Client} (h : s.Gone) (a : Attempt) : ¬ s.InProgress a := by
  rintro ⟨sockfd, index, hslot, hindex⟩
  obtain ⟨p, hp, heq⟩ := Option.map_eq_some_iff.mp hslot
  cases heq
  exact hindex (h p hp)

theorem Aside.inProgress {s u : Client} (h : Aside s u) (a : Attempt) : u.InProgress a ↔ s.InProgress a := by
  rw [InProgress, InProgress, h.slot]

theorem Aside.count_close {s u : Client} (h : Aside s u) (a : Attempt) (fd : Int) :
    u.trace.count (.close a fd) = s.trace.count (.close a fd) := by
  obtain ⟨os, htrace, hos⟩ := h.trace
  rw [htrace, List.count_append, Nat.add_eq_left, List.count_eq_zero]
  intro hmem
  cases hos _ hmem

theorem Conserved.later {s u : Client} {a : Attempt} (hs : s.Conserved a) (honward : Onward s u)
    (hprogress : s.InProgress a → u.InProgress a ∨ u.Conserved a) (hfd : u.fds a = s.fds a)
    (hcount : u.trace.count (.close a (s.fds a)) = s.trace.count (.close a (s.fds a))) : u.Conserved a := by
  rcases hs with hs | ⟨c, hc, hdescriptor, hsockfd⟩ | hclosed
  · exact (hprogress hs).elim Or.inl id
  · refine Or.inr (Or.inl ⟨c, lt_of_lt_of_le hc honward.size, ?_, ?_⟩)
    · rw [honward.descriptor c hc, hdescriptor]
    · rw [honward.sockfd c hc, hsockfd, hfd]
  · exact Or.inr (Or.inr (by rw [hfd, hcount, hclosed]))

theorem connect_conserved {s : Client} {fd savedErrno : Int} {a : Attempt} (hs : s.Conserved a) (ha : a < s.attempts)
    (hprogress : s.InProgress a → (s.connect fd savedErrno).InProgress a) :
    (s.connect fd savedErrno).Conserved a := by
  have hne : a ≠ s.attempts := Nat.ne_of_lt ha
  refine hs.later (.apart (s.connect_apart fd savedErrno)) (fun h => Or.inl (hprogress h))
    (by rw [connect_fds, Function.update_of_ne hne]) ?_
  rw [connect_trace]
  split <;> simp [List.count_append, Ne.symm hne]

theorem connect_failed {s : Client} {fd savedErrno : Int} (h : outcome savedErrno = .failed) :
    (s.connect fd savedErrno).isOpen fd = false := by
  simp [Client.connect, h, close, socket, observe]

theorem Accounted.connect {s : Client} (hs : s.Accounted) {fd savedErrno : Int}
    (hgone : outcome savedErrno = .connecting → s.Gone) (hretry : outcome savedErrno ≠ .retry) :
    (s.connect fd savedErrno).Accounted := by
  have hattempts := s.connect_attempts fd savedErrno
  have hfds := s.connect_fds fd savedErrno
  have hself : (s.connect fd savedErrno).fds s.attempts = fd := by rw [hfds, Function.update_self]
  have hslot := s.connect_slot fd savedErrno
  have houtcome : outcome savedErrno = .connecting ∨ outcome savedErrno = .failed := by
    cases h : outcome savedErrno with
    | connecting => exact Or.inl rfl
    | retry => exact absurd h hretry
    | failed => exact Or.inr rfl
  refine ⟨fun a f ha => ?_, fun a f ha => ?_, fun a ha => ?_, fun hopen a ha => ?_, fun a ha hpos => ?_⟩
  · rw [hattempts]
    rcases connect_mem ha with hold | hnew | hnew
    · obtain ⟨hlt, heq⟩ := hs.sockets a f hold
      exact ⟨Nat.lt_succ_of_lt hlt, by rw [hfds, Function.update_of_ne (Nat.ne_of_lt hlt), heq]⟩
    · cases hnew
      exact ⟨Nat.lt_succ_self _, hself⟩
    · cases hnew
  · rw [hattempts]
    rcases connect_mem ha with hold | hnew | hnew
    · exact Nat.lt_succ_of_lt (hs.closes a f hold)
    · cases hnew
    · cases hnew
      exact Nat.lt_succ_self _
  · obtain rfl : s.attempts = a := Nat.succ.inj (hattempts.symm.trans ha)
    rw [connect_sockFd, hself]
  · rcases houtcome with hconnecting | hfailed
    · obtain ⟨sockfd, index, hsome, -⟩ := ha
      rw [(hslot.resolve_right fun h => h.1 hconnecting).2.1, Option.some.injEq, Prod.mk.injEq] at hsome
      rw [hattempts, hsome.1]
    · rw [connect_sockFd, connect_failed hfailed] at hopen
      cases hopen
  · rw [hattempts] at ha
    by_cases hold : a < s.attempts
    · have hpos' : 0 ≤ s.fds a := by rwa [hfds, Function.update_of_ne (Nat.ne_of_lt hold)] at hpos
      refine connect_conserved (hs.conserved a hold hpos') hold fun hprogress => ?_
      rcases houtcome with hconnecting | hfailed
      · exact absurd hprogress ((hgone hconnecting).inProgress a)
      · rw [InProgress, (hslot.resolve_left fun h => by rw [hfailed] at h; cases h.1).2.1]
        exact hprogress
    · obtain rfl : a = s.attempts := le_antisymm (Nat.le_of_lt_succ ha) (not_lt.mp hold)
      rcases houtcome with hconnecting | hfailed
      · exact Or.inl ⟨fd, .kAdded, (hslot.resolve_right fun h => h.1 hconnecting).2.1, by simp⟩
      · have hnone : s.trace.count (.close s.attempts fd) = 0 := by
          rw [List.count_eq_zero]
          exact fun hmem => lt_irrefl _ (hs.closes _ _ hmem)
        refine Or.inr (Or.inr ?_)
        rw [hself, connect_trace, if_pos hfailed, List.count_append, hnone]
        simp

theorem Accounted.handleWrite {t : Client} (hs : t.Accounted) {a : Attempt} {ch : Channel} {optval : Int}
    (hchan : t.pSockChan = some (a, ch)) (hcallback : t.callback = true) (hopen : t.isOpen t.sockFd = true) :
    (t.handleWrite a ch (some optval)).Accounted := by
  have hslot : t.slot = some (a, ch.sockfd, ch.index) := by rw [slot, hchan, Option.map_some]
  have hreport : Apart t ((t.leave a ch).observe (.newConnection a t.sockFd optval)) :=
    (t.leave_apart a ch).trans (observe_apart _ rfl)
  have hnew := Aside.newConnection (s := (t.leave a ch).observe (.newConnection a t.sockFd optval)) t.sockFd
  rw [handleWrite_eq, if_pos hcallback]
  have hmem : ∀ o, o.aside = false → o ≠ .newConnection a t.sockFd optval →
      (o ∈ (((t.leave a ch).observe (.newConnection a t.sockFd optval)).newConnection t.sockFd).trace ↔
        o ∈ t.trace) := by
    intro o haside hother
    rw [hnew.mem_trace haside]
    simp only [observe, leave, List.mem_append, List.mem_singleton, or_iff_left_iff_imp]
    exact fun heq => absurd heq hother
  have hprogress : ∀ b, ¬ (((t.leave a ch).observe (.newConnection a t.sockFd optval)).newConnection
      t.sockFd).InProgress b := by
    intro b hb
    rw [hnew.inProgress] at hb
    obtain ⟨sockfd, index, hsome, hindex⟩ := hb
    cases hsome
    exact hindex rfl
  refine ⟨fun b fd hb => ?_, fun b fd hb => ?_, fun b hb => ?_, fun _ b hb => absurd hb (hprogress b),
    fun b hb hpos => ?_⟩
  · rw [hnew.attempts, hnew.fds]
    exact hs.sockets b fd ((hmem _ rfl (by simp)).mp hb)
  · rw [hnew.attempts]
    exact hs.closes b fd ((hmem _ rfl (by simp)).mp hb)
  · rw [hnew.sockFd, hnew.fds]
    exact hs.sockFd b (hnew.attempts.symm.trans hb)
  · rw [hnew.attempts] at hb
    rw [hnew.fds] at hpos
    refine (hs.conserved b hb hpos).later ((Onward.apart hreport).trans (.newConnection t.sockFd)) (fun hb => ?_)
      (congrFun hnew.fds b) ?_
    · obtain ⟨sockfd, index, hsome, -⟩ := id hb
      obtain rfl : a = b := by
        rw [hslot, Option.some.injEq, Prod.mk.injEq] at hsome
        exact hsome.1
      have hattempts := hs.current hopen a hb
      refine Or.inr (Or.inr (Or.inl ⟨t.size, ?_, ?_, ?_⟩))
      · rw [newConnection_eq]
        exact Nat.lt_succ_self t.size
      · rw [newConnection_eq]
        simp only [observe, leave, Function.update_self, fresh]
        rw [hattempts, Nat.add_sub_cancel]
      · rw [hnew.fds, newConnection_eq]
        simp only [observe, leave, Function.update_self, fresh_sockfd]
        exact hs.sockFd a hattempts
    · rw [hnew.count_close]
      simp [observe, leave, List.count_append]

theorem Accounted.aside {s u : Client} (hs : s.Accounted) (h : Aside s u) (honward : Onward s u) : u.Accounted where
  sockets := fun a fd ha => by
    rw [h.attempts, h.fds]
    exact hs.sockets a fd ((h.mem_trace rfl).mp ha)
  closes := fun a fd ha => by
    rw [h.attempts]
    exact hs.closes a fd ((h.mem_trace rfl).mp ha)
  sockFd := fun a ha => by
    rw [h.sockFd, h.fds]
    exact hs.sockFd a (h.attempts.symm.trans ha)
  current := fun hopen a ha => by
    rw [h.isOpen, h.sockFd] at hopen
    rw [h.attempts]
    exact hs.current hopen a ((h.inProgress a).mp ha)
  conserved := fun a ha hpos => by
    rw [h.attempts] at ha
    rw [h.fds] at hpos
    exact (hs.conserved a ha hpos).later honward (fun hb => Or.inl ((h.inProgress a).mpr hb)) (congrFun h.fds a)
      (h.count_close a _)

theorem Accounted.resetChannel {t : Client} (hs : t.Accounted) (hgone : t.Gone) (of : Option Attempt) :
    (t.resetChannel of).Accounted := by
  have hmem : ∀ o, (∀ of destroyed, o ≠ .resetChannel of destroyed) → o ∈ (t.resetChannel of).trace →
      o ∈ t.trace := by
    intro o ho hmem
    rcases List.mem_append.mp hmem with hold | hnew
    · exact hold
    · exact absurd (List.mem_singleton.mp hnew) (ho _ _)
  refine ⟨fun a fd ha => hs.sockets a fd (hmem _ (by simp) ha), fun a fd ha => hs.closes a fd (hmem _ (by simp) ha),
    hs.sockFd, fun _ a ⟨sockfd, index, hsome, _⟩ => ?_, fun a ha hpos => ?_⟩
  · simp [Client.resetChannel, slot, observe] at hsome
  · refine (hs.conserved a ha hpos).later (.apart (t.resetChannel_apart of))
      (fun hb => absurd hb (hgone.inProgress a)) rfl ?_
    simp [Client.resetChannel, observe, List.count_append]

theorem outcome_ebadf : outcome EBADF = .failed := by decide

theorem Aside.gone {s t : Client} (h : Aside s t) (hs : s.Gone) : t.Gone := by
  intro p hp
  have hslot : s.slot = some (p.1, p.2.sockfd, p.2.index) := by
    rw [← h.slot, Client.slot, hp, Option.map_some]
  obtain ⟨q, hq, heq⟩ := Option.map_eq_some_iff.mp hslot
  rw [Prod.mk.injEq, Prod.mk.injEq] at heq
  rw [← heq.2.2]
  exact hs q hq

theorem step_accounted {s u : Client} {l : Label} (hs : s.Placed) (ha : s.Accounted) (hl : s.Conserves l)
    (h : step s l = some u) : u.Accounted := by
  obtain ⟨hconnect, hreset, hsucceed, -, -⟩ := hl
  cases step_turn hs h with
  | aside _ haside => exact ha.aside haside (step_onward hs h)
  | @connect t fd savedErrno hconnects haside hapart hpossible =>
    rcases hpossible with ⟨-, rfl⟩ | ⟨hfd, -, -⟩
    · exact (ha.aside haside (.apart hapart)).connect (by simp [outcome_ebadf]) (by simp [outcome_ebadf])
    · obtain ⟨hretry, hgone⟩ := hconnect _ hconnects hfd
      exact (ha.aside haside (.apart hapart)).connect (fun h => haside.gone (hgone h)) hretry
  | stop => exact { ha with }
  | resetChannel hresets haside hapart =>
    exact (ha.aside haside (.apart hapart)).resetChannel (haside.gone (hreset (by simp [hresets]))) _
  | handleWrite hsucceeds haside hapart hcallback hopen hchan =>
    refine (ha.aside haside (.apart hapart)).handleWrite hchan ?_ ?_
    · rw [hcallback]
      exact hsucceed (by simp [hsucceeds])
    · rw [haside.isOpen, haside.sockFd]
      exact hopen

/-! ## Runs -/

theorem run_descriptorsOwned {user : Bool} {heap : Heap} {labels : List Label} {s : Client}
    (hconserves : Machine.Meets step Conserves (init user heap) labels)
    (hrun : Machine.run step (init user heap) labels = some s) :
    s.DescriptorsOwned ((init user heap).completed labels) := by
  have hkeep : ∀ (t : Client) (l : Label) (u : Client), t.Placed ∧ t.AllOpen ∧ t.Standing ∧ t.Accounted →
      t.Conserves l → step t l = some u → u.Placed ∧ u.AllOpen ∧ u.Standing ∧ u.Accounted := by
    rintro t l u ⟨hplaced, hopen, hstanding, haccounted⟩ hl h
    exact ⟨step_placed hplaced h, step_allOpen hplaced hopen hl.2.2.2.1 h,
      step_standing hplaced hstanding hl.2.2.2.2 h, step_accounted hplaced haccounted hl h⟩
  have hstart : (init user heap).Placed ∧ (init user heap).AllOpen ∧ (init user heap).Standing ∧
      (init user heap).Accounted :=
    ⟨init_placed user heap, ⟨fun _ h => by simp [init] at h, fun _ _ h => by simp [init] at h⟩,
      fun _ h => by simp [init] at h, init_accounted user heap⟩
  obtain ⟨-, hopen, hstanding, haccounted⟩ := Machine.run_invariant_of_meets hkeep hstart hconserves hrun
  have hnone : (init user heap).completed labels = [] := by
    refine Machine.outputs_nil (Machine.meets_of_meets hkeep (fun t l ht _ => ?_) hstart hconserves)
    rw [ht.2.1.completes l, Option.toList_none]
  intro a fd hsocket hfd
  obtain ⟨ha, rfl⟩ := haccounted.sockets a fd hsocket
  refine (haccounted.conserved a ha hfd).imp_right (Or.imp_left ?_)
  rintro ⟨c, hc, hdescriptor, hsockfd⟩
  exact ⟨c, hc, hdescriptor, hsockfd, hstanding c hc (hopen.opened c hc), by rw [hnone]; exact List.not_mem_nil⟩

end Muduo.Client
