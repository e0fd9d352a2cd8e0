import Muduo.Client.Parts

/-! # What the `Connector` knows of

Epoll and the channel of the `Connector` belong to attempts.
-/

namespace Muduo.Client

/-! ## Turns -/

/-- What a step does with the `Connector`: it leaves it alone, or it calls one of its member functions behind
something that leaves it and the connections alone. -/
inductive Turn (s : Client) (l : Label) : Client → Prop
  | aside {u : Client} (hl : s.Untouched l) (haside : Aside s u) : Turn s l u
  | connect {t : Client} {fd savedErrno : Int} (hconnects : s.connects l = some (fd, savedErrno)) (haside : Aside s t)
      (hapart : Apart s t) (hpossible : s.Possible fd savedErrno) : Turn s l (t.connect fd savedErrno)
  | stop (hstops : l.stops = true) : Turn s l s.stop
  | resetChannel {t : Client} {stopped : Bool} {of : Option Attempt} (hresets : s.resets l = some (stopped, of))
      (haside : Aside s t) (hapart : Apart s t)
      (hwaits : .resetChannel stopped of ∈ s.loop.tempRuns ∨ .resetChannel stopped of ∈ s.loop.pendingFunctors) :
      Turn s l (t.resetChannel of)
  | handleWrite {t : Client} {a : Attempt} {ch : Channel} {optval : Int}
      (hsucceeds : s.succeeds l = some (a, optval)) (haside : Aside s t) (hapart : Apart s t)
      (hcallback : t.callback = s.callback) (hopen : s.isOpen s.sockFd = true) (hchan : t.pSockChan = some (a, ch))
      (hfree : s.callback = true → s.Free (.conn s.size)) : Turn s l (t.handleWrite a ch (some optval))

theorem act_turn {s : Client} (hs : s.Placed) {inLoop : Bool} {arg : Option ConnId} {a : Act} {l : Label}
    (hmay : s.MayAct inLoop arg a) (hl : l = if inLoop then .act a else .foreign a)
    (h : step s l = some (s.act inLoop a)) :
    Turn s l (s.act inLoop a) := by
  cases a with
  | send | keep | drop | connection =>
    refine .aside ?_ (step_aside hs ?_ h) <;> subst hl <;> cases inLoop <;> exact ⟨rfl, rfl, rfl, rfl⟩
  | connect fd savedErrno =>
    cases inLoop with
    | true =>
      subst hl
      exact .connect (t := { s with callback := true }) rfl { Aside.refl s with } { Apart.refl s with } (hmay rfl)
    | false => exact .aside (hl ▸ ⟨rfl, rfl, rfl, rfl⟩) (step_aside hs (hl ▸ ⟨rfl, rfl, rfl, rfl⟩) h)
  | start fd savedErrno =>
    cases inLoop with
    | true =>
      subst hl
      exact .connect rfl (Aside.refl s) (Apart.refl s) (hmay rfl)
    | false => exact .aside (hl ▸ ⟨rfl, rfl, rfl, rfl⟩) (step_aside hs (hl ▸ ⟨rfl, rfl, rfl, rfl⟩) h)
  | stop =>
    refine .stop ?_
    subst hl
    cases inLoop <;> rfl

theorem step_turn {s u : Client} {l : Label} (hs : s.Placed) (h : step s l = some u) : Turn s l u := by
  have haside : s.Untouched l → Turn s l u := fun hl => .aside hl (step_aside hs hl h)
  cases l with
  | loop | poll | return_ | swap | endBatch => exact haside ⟨rfl, rfl, rfl, rfl⟩
  | handle res w so =>
    obtain ⟨src, rest, hactive, -, hanswers, hu⟩ := handle_inv h
    have hhead : s.loop.active.head?.bind s.dataPtr = s.dataPtr src := by
      rw [hactive, List.head?_cons, Option.bind_some]
    by_cases hptr : ∃ a, s.dataPtr src = some (.attempt a)
    · obtain ⟨a, hptr⟩ := hptr
      rcases handle_attempt hactive hptr hu with ⟨hnone, -⟩ | ⟨ch, optval, hchan, rfl, hsucceeds, rfl⟩
      · exact haside ⟨rfl, rfl, hnone, rfl⟩
      · have htake : Aside s (s.takeActive rest) :=
          s.setLoop_aside (by rw [hactive]; exact List.sublist_cons_self _ rest) fun _ hq => hq
        have htake' : Apart s (s.takeActive rest) :=
          s.setLoop_apart rfl (by rw [hactive]; exact List.sublist_cons_self _ rest)
        exact .handleWrite hsucceeds (htake.trans (.quiet (observe_quiet _ rfl))) (htake'.trans (observe_apart _ rfl))
          rfl (hanswers _ hptr rfl).1 hchan (hanswers _ hptr rfl).2
    · exact haside ⟨rfl, rfl, succeeds_conn fun a ha => hptr ⟨a, hhead ▸ ha⟩, rfl⟩
  | act a =>
    obtain ⟨arg, -, hmay, rfl⟩ := act_inv h
    exact act_turn hs hmay rfl h
  | foreign a =>
    obtain ⟨⟨-, hmay⟩, rfl⟩ := Machine.guard_some.mp h
    exact act_turn hs hmay rfl h
  | runFunctor w fd savedErrno =>
    obtain ⟨q, rest, hruns, -, hpossible, hu⟩ := runFunctor_inv h
    have hfunctors : ∀ f, f ∈ rest ∨ f ∈ s.loop.pendingFunctors → f ∈ s.loop.tempRuns ∨ f ∈ s.loop.pendingFunctors :=
      fun f hf => hf.imp_left fun hf => by rw [hruns]; exact List.mem_cons_of_mem q hf
    have htake : Aside s (s.takeFunctor rest) := s.setLoop_aside (List.Sublist.refl _) hfunctors
    have htake' : Apart s (s.takeFunctor rest) := s.setLoop_apart rfl (List.Sublist.refl _)
    cases q with
    | connect =>
      subst hu
      exact .connect (by simp [connects, hruns]) htake htake' (hpossible rfl)
    | resetChannel stopped of =>
      subst hu
      have hresets : s.resets (.runFunctor w fd savedErrno) = some (stopped, of) := by simp only [resets, hruns]
      refine .resetChannel hresets htake htake' (Or.inl ?_)
      rw [hruns]
      exact List.mem_cons_self
    | bound c f => exact haside ⟨by simp [connects, hruns], by simp [resets, hruns], rfl, rfl⟩

/-! ## `Tracked` -/

/-- The `Connector` has no channel, or one that has left epoll. -/
def Gone (s : Client) : Prop := ∀ p ∈ s.pSockChan, p.2.index = .kDeleted

instance (s : Client) : Decidable s.Gone := inferInstanceAs (Decidable (∀ p ∈ s.pSockChan, p.2.index = .kDeleted))

/-- Epoll and the channel of the `Connector` belong to attempts. -/
structure Tracked (s : Client) : Prop where
  interest : ∀ fd a e, s.interest fd = some (.attempt a, e) → a < s.attempts ∧ s.fds a = fd
  slot : ∀ a fd index, s.slot = some (a, fd, index) → a < s.attempts ∧ fd = s.fds a

theorem init_tracked (user : Bool) (heap : Heap) : (init user heap).Tracked where
  interest := fun _ _ _ h => by simp [init] at h
  slot := fun _ _ _ h => by simp [init, Client.slot] at h

theorem connect_trace (s : Client) (fd savedErrno : Int) : (s.connect fd savedErrno).trace =
    s.trace ++ .socket s.attempts fd :: if outcome savedErrno = .failed then [.close s.attempts fd] else [] := by
  unfold connect
  dsimp only
  split
  · rename_i h
    rw [if_neg (by simp [h])]
    rfl
  · rename_i h
    rw [if_neg (by simp [h])]
    rfl
  · rename_i h
    rw [if_pos h]
    exact List.append_assoc s.trace [_] [_]

theorem connect_mem {s : Client} {fd savedErrno : Int} {o : Obs} (h : o ∈ (s.connect fd savedErrno).trace) :
    o ∈ s.trace ∨ o = .socket s.attempts fd ∨ o = .close s.attempts fd := by
  rw [connect_trace, List.mem_append, List.mem_cons] at h
  refine h.imp_right fun hnew => hnew.imp_right fun hclose => ?_
  split at hclose
  · exact List.mem_singleton.mp hclose
  · cases hclose

theorem connect_fds (s : Client) (fd savedErrno : Int) :
    (s.connect fd savedErrno).fds = Function.update s.fds s.attempts fd := by
  unfold connect
  dsimp only
  split <;> rfl

theorem connect_sockFd (s : Client) (fd savedErrno : Int) : (s.connect fd savedErrno).sockFd = fd := by
  unfold connect
  dsimp only
  split <;> rfl

theorem connect_attempts (s : Client) (fd savedErrno : Int) :
    (s.connect fd savedErrno).attempts = s.attempts + 1 := by
  unfold connect
  dsimp only
  split <;> rfl

theorem connect_loop (s : Client) (fd savedErrno : Int) : (s.connect fd savedErrno).loop = s.loop := by
  unfold connect
  dsimp only
  split <;> rfl

theorem connect_slot (s : Client) (fd savedErrno : Int) :
    (outcome savedErrno = .connecting ∧ (s.connect fd savedErrno).slot = some (s.attempts, fd, .kAdded) ∧
      (s.connect fd savedErrno).interest = epollCtl (.attempt s.attempts) ⟨.add, fd, EPOLLOUT⟩ s.interest) ∨
    (outcome savedErrno ≠ .connecting ∧ (s.connect fd savedErrno).slot = s.slot ∧
      (s.connect fd savedErrno).interest = s.interest) := by
  unfold connect
  dsimp only
  split
  · rename_i h
    refine Or.inl ⟨h, rfl, ?_⟩
    simp [newChannel, control, socket, observe, Channel.init, Channel.setCallback, Channel.enableWriting,
      Channel.update, Channel.setIndex]
  · rename_i h
    exact Or.inr ⟨by simp [h], rfl, rfl⟩
  · rename_i h
    exact Or.inr ⟨by simp [h], rfl, rfl⟩

namespace Tracked

variable {s u : Client}

theorem aside (hs : s.Tracked) (h : Aside s u) : u.Tracked where
  interest := fun fd a e he => by
    rw [h.attempts, h.fds]
    exact hs.interest fd a e (h.interest fd a e he)
  slot := fun a fd index hslot => by
    rw [h.attempts, h.fds]
    exact hs.slot a fd index (h.slot ▸ hslot)

theorem connect (hs : s.Tracked) (fd savedErrno : Int) : (s.connect fd savedErrno).Tracked := by
  have hfds : ∀ {a}, a < s.attempts → (s.connect fd savedErrno).fds a = s.fds a := fun ha => by
    rw [connect_fds, Function.update_of_ne (Nat.ne_of_lt ha)]
  have hself : (s.connect fd savedErrno).fds s.attempts = fd := by rw [connect_fds, Function.update_self]
  have hlt : ∀ {a}, a < s.attempts → a < (s.connect fd savedErrno).attempts := fun ha => by
    rw [connect_attempts]
    exact Nat.lt_succ_of_lt ha
  have hnew : s.attempts < (s.connect fd savedErrno).attempts := by
    rw [connect_attempts]
    exact Nat.lt_succ_self _
  have hold : ∀ fd' a e, s.interest fd' = some (.attempt a, e) →
      a < (s.connect fd savedErrno).attempts ∧ (s.connect fd savedErrno).fds a = fd' := by
    intro fd' a e he
    obtain ⟨ha, hfd⟩ := hs.interest fd' a e he
    exact ⟨hlt ha, (hfds ha).trans hfd⟩
  refine ⟨fun fd' a e he => ?_, fun a fd' index hslot => ?_⟩
  · rcases s.connect_slot fd savedErrno with ⟨-, -, hinterest⟩ | ⟨-, -, hinterest⟩
    · rw [hinterest] at he
      rcases epollCtl_some he with he | ⟨rfl, ha, -⟩
      · exact hold fd' a e he
      · obtain rfl : a = s.attempts := by simpa using ha
        exact ⟨hnew, hself⟩
    · exact hold fd' a e (hinterest ▸ he)
  · rcases s.connect_slot fd savedErrno with ⟨-, hchan, -⟩ | ⟨-, hchan, -⟩
    · rw [hchan, Option.some.injEq, Prod.mk.injEq, Prod.mk.injEq] at hslot
      obtain ⟨rfl, rfl, -⟩ := hslot
      exact ⟨hnew, hself.symm⟩
    · obtain ⟨ha, hfd⟩ := hs.slot a fd' index (hchan ▸ hslot)
      exact ⟨hlt ha, hfd.trans (hfds ha).symm⟩

theorem resetChannel (hs : s.Tracked) (of : Option Attempt) : (s.resetChannel of).Tracked where
  interest := hs.interest
  slot := fun _ _ _ h => by simp [Client.resetChannel, Client.slot, observe] at h

theorem leave (hs : s.Tracked) {a : Attempt} {ch : Channel} (hchan : s.pSockChan = some (a, ch)) :
    (s.leave a ch).Tracked ∧ ∀ fd e, (s.leave a ch).interest fd ≠ some (.attempt a, e) := by
  have hslot : s.slot = some (a, ch.sockfd, ch.index) := by rw [Client.slot, hchan, Option.map_some]
  have hinterest : ∀ fd src e, (s.leave a ch).interest fd = some (src, e) →
      s.interest fd = some (src, e) ∧ fd ≠ ch.sockfd := by
    intro fd src e he
    rw [show (s.leave a ch).interest fd = if fd = ch.sockfd then none else s.interest fd from
      epollCtl_del _ _ _ _ _] at he
    split at he
    · cases he
    · rename_i hfd
      exact ⟨he, hfd⟩
  constructor
  · refine ⟨fun fd b e he => hs.interest fd b e (hinterest fd _ e he).1, fun b fd index h => ?_⟩
    rw [show (s.leave a ch).slot = some (a, ch.sockfd, .kDeleted) from rfl, Option.some.injEq, Prod.mk.injEq,
      Prod.mk.injEq] at h
    obtain ⟨rfl, rfl, -⟩ := h
    exact hs.slot a ch.sockfd ch.index hslot
  · intro fd e he
    obtain ⟨hold, hfd⟩ := hinterest fd _ e he
    exact hfd ((hs.interest fd a e hold).2.symm.trans (hs.slot a ch.sockfd ch.index hslot).2.symm)

theorem handleWrite (hs : s.Tracked) {a : Attempt} {ch : Channel} (hchan : s.pSockChan = some (a, ch))
    (optval : Int) : (s.handleWrite a ch (some optval)).Tracked := by
  have hleave := (hs.leave hchan).1
  rw [handleWrite_eq]
  split
  · have hreport : ((s.leave a ch).observe (.newConnection a s.sockFd optval)).Tracked := ⟨hleave.interest, hleave.slot⟩
    exact hreport.aside (.newConnection s.sockFd)
  · exact hleave.aside (.quiet (crash_quiet _ true))

end Tracked

theorem step_tracked {s u : Client} {l : Label} (hs : s.Placed) (ht : s.Tracked) (h : step s l = some u) :
    u.Tracked := by
  cases step_turn hs h with
  | aside hl haside => exact ht.aside haside
  | connect hconnects haside => exact (ht.aside haside).connect _ _
  | stop => exact { ht with }
  | resetChannel hresets haside => exact (ht.aside haside).resetChannel _
  | handleWrite hsucceeds haside hapart hcallback hopen hchan => exact (ht.aside haside).handleWrite hchan _

end Muduo.Client
