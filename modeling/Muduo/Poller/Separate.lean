import Muduo.Poller.Mirror

/-! # Attempts that do not overlap

Where no attempt begins before the channel of the last one is gone, and no channel is destroyed that epoll points to,
every hand-over finds its descriptor free.
-/

namespace Muduo.Poller

variable {κ : Type*} [DecidableEq κ]

/-- `connect` finds no channel of the `Connector`, and what is destroyed is not in epoll. -/
def Separate (s : Poller κ) : Label κ → Prop
  | .connect k _ _ _ => s.pSockChan k = none
  | .resetChannel k => ∀ a o, s.pSockChan k = some a → s.channels.lookup a = some o → o.ch.index ≠ .kAdded
  | .destroy a => ∀ o, s.channels.lookup a = some o → o.ch.index ≠ .kAdded
  | _ => True

/-- The invariant. Epoll points to channels that exist, each `Connector` knows its one channel and the channel's
descriptor, and its channel is in epoll when `handleWrite` is about to be called. -/
structure Settled (s : Poller κ) : Prop where
  entries : ∀ fd a e, s.interest fd = some (a, e) →
    ∃ o, s.channels.lookup a = some o ∧ o.ch.sockfd = fd ∧ o.ch.index = .kAdded
  slots : ∀ k a o, s.channels.lookup a = some o → o.owner = .connector k →
    s.pSockChan k = some a ∧ s.sockFd k = o.ch.sockfd
  nodup : s.active.Nodup
  ready : ∀ a o, a ∈ s.active → s.channels.lookup a = some o → o.owner.isConnector = true →
    o.ch.revents &&& EPOLLOUT ≠ 0 → o.ch.index = .kAdded

omit [DecidableEq κ] in
theorem init_settled : (init : Poller κ).Settled where
  entries := fun _ _ _ h => nomatch h
  slots := fun _ _ _ h => nomatch h
  nodup := List.nodup_nil
  ready := fun _ _ h => nomatch h

namespace Settled

variable {s : Poller κ}

omit [DecidableEq κ] in
theorem newChannel (h : s.Settled) (owner : Owner κ) {a : Addr} {fd : Int} (ha : s.channels.lookup a = none)
    (hslot : ∀ k, owner = .connector k → s.pSockChan k = some a ∧ s.sockFd k = fd) :
    (s.newChannel owner a fd).Settled where
  entries := fun fd' b e he => by
    obtain ⟨o, ho, hrest⟩ := h.entries fd' b e he
    exact ⟨o, (AList.lookup_insert_ne (not_mem_of_lookup ha ho)).trans ho, hrest⟩
  slots := fun k b o ho howner => by
    rcases lookup_insert_some ho with ⟨rfl, rfl⟩ | ⟨-, ho⟩
    · exact hslot k howner
    · exact h.slots k b o ho howner
  nodup := h.nodup
  ready := fun b o hb ho hconnector hevents => by
    rcases lookup_insert_some ho with ⟨rfl, rfl⟩ | ⟨-, ho⟩
    · exact absurd BitVec.zero_and hevents
    · exact h.ready b o hb ho hconnector hevents

omit [DecidableEq κ] in
theorem erase (h : s.Settled) {a : Addr} (ha : ∀ o, s.channels.lookup a = some o → o.ch.index ≠ .kAdded) :
    { s with channels := s.channels.erase a }.Settled where
  entries := fun fd b e he => by
    obtain ⟨o, ho, hfd, hindex⟩ := h.entries fd b e he
    have hb : b ≠ a := by
      rintro rfl
      exact ha o ho hindex
    exact ⟨o, (AList.lookup_erase_ne hb).trans ho, hfd, hindex⟩
  slots := fun k b o ho => h.slots k b o (lookup_erase_some ho).2
  nodup := h.nodup
  ready := fun b o hb ho => h.ready b o hb (lookup_erase_some ho).2

omit [DecidableEq κ] in
theorem closeFd (h : s.Settled) (fd : Int) : (s.closeFd fd).Settled where
  entries := fun fd' b e he => by
    by_cases hfd : fd' = fd
    · rw [hfd, show (s.closeFd fd).interest fd = none from Function.update_self fd _ _] at he
      cases he
    · rw [show (s.closeFd fd).interest fd' = s.interest fd' from Function.update_of_ne hfd _ _] at he
      exact h.entries fd' b e he
  slots := h.slots
  nodup := h.nodup
  ready := h.ready

omit [DecidableEq κ] in
theorem not_owned (h : s.Settled) {k : κ} (hk : s.pSockChan k = none) {a : Addr} {o : Object κ}
    (ho : s.channels.lookup a = some o) : o.owner ≠ .connector k := by
  intro howner
  rw [(h.slots k a o ho howner).1] at hk
  cases hk

omit [DecidableEq κ] in
theorem setConnector (h : s.Settled) {k : κ} (hk : ∀ a o, s.channels.lookup a = some o → o.owner ≠ .connector k)
    (sockFd : κ → Int) (pSockChan : κ → Option Addr) (hfd : ∀ j, j ≠ k → sockFd j = s.sockFd j)
    (hslot : ∀ j, j ≠ k → pSockChan j = s.pSockChan j) : { s with sockFd, pSockChan }.Settled := by
  refine { h with slots := fun j a o ho howner => ?_ }
  obtain ⟨hold, hsockfd⟩ := h.slots j a o ho howner
  have hj : j ≠ k := by
    rintro rfl
    exact hk a o ho howner
  exact ⟨(hslot j hj).trans hold, (hfd j hj).trans hsockfd⟩

theorem connect (h : s.Settled) {k : κ} (hk : s.pSockChan k = none) {a : Addr} (ha : s.channels.lookup a = none)
    (fd savedErrno : Int) : (s.connect k a fd savedErrno).Settled := by
  have hsockFd := h.setConnector (fun _ _ => h.not_owned hk) (Function.update s.sockFd k fd) s.pSockChan
    (fun _ hj => Function.update_of_ne hj _ _) fun _ _ => rfl
  have hsocket :
      { s with isOpen := Function.update s.isOpen fd true, sockFd := Function.update s.sockFd k fd }.Settled :=
    { hsockFd with }
  unfold Poller.connect
  split
  · have hset := hsocket.setConnector (fun _ _ => hsocket.not_owned hk) (Function.update s.sockFd k fd)
      (Function.update s.pSockChan k (some a)) (fun _ _ => rfl) fun _ hj => Function.update_of_ne hj _ _
    have hnew := hset.newChannel (.connector k) (a := a) ha fun j hj => by
      cases hj
      exact ⟨Function.update_self k _ _, Function.update_self k _ _⟩
    dsimp only [Poller.reset]
    split
    · rename_i b hb
      cases hk.symm.trans hb
    · exact { hnew with }
  · exact hsocket
  · exact hsocket.closeFd fd

theorem reset (h : s.Settled) {k : κ}
    (hk : ∀ a o, s.pSockChan k = some a → s.channels.lookup a = some o → o.ch.index ≠ .kAdded) :
    (s.reset k none).Settled := by
  unfold Poller.reset
  split
  · rename_i a ha
    refine (h.erase fun o => hk a o ha).setConnector (k := k) (fun b o ho howner => ?_) s.sockFd _ (fun _ _ => rfl)
      fun _ hj => Function.update_of_ne hj _ _
    obtain ⟨hb, ho⟩ := lookup_erase_some ho
    rw [(h.slots k b o ho howner).1, Option.some.injEq] at ha
    exact hb ha
  · rename_i hnone
    exact h.setConnector (k := k) (fun _ _ => h.not_owned hnone) s.sockFd _ (fun _ _ => rfl)
      fun _ hj => Function.update_of_ne hj _ _

omit [DecidableEq κ] in
theorem called (h : s.Settled) (hc : s.Consistent) {a : Addr} {o : Object κ} {ch : Channel} (k : s.Through a o ch)
    {active : List Addr} (pc : Pc) (hactive : active.Sublist s.active)
    (hstays : o.owner.isConnector = true → a ∈ active → ch.index ≠ .kDeleted) :
    { s.called a o ch.update with active, pc }.Settled := by
  have hindex : ch.index ≠ .kDeleted → ch.update.1.index = .kAdded := by
    intro hnot
    rw [ch.update_fst]
    cases hch : ch.index <;> simp_all
  have hsockfd : ch.update.1.sockfd = o.ch.sockfd := by
    rw [ch.update_fst]
    exact k.sockfd
  have hinterest : (s.called a o ch.update).interest = Function.update s.interest o.ch.sockfd
      (if ch.index = .kDeleted then none else some (a, ch.events)) :=
    hc.interest_update k.object k.sockfd (k.index.imp id And.left)
  refine ⟨fun fd b e he => ?_, fun j b p hp howner => ?_, h.nodup.sublist hactive,
    fun b p hb hp hconnector hevents => ?_⟩
  · change (s.called a o ch.update).interest fd = some (b, e) at he
    rw [hinterest] at he
    by_cases hfd : fd = o.ch.sockfd
    · subst hfd
      rw [Function.update_self] at he
      split at he
      · cases he
      · rename_i hnot
        rw [Option.some.injEq, Prod.mk.injEq] at he
        obtain ⟨rfl, -⟩ := he
        exact ⟨{ o with ch := ch.update.1 }, AList.lookup_insert _, hsockfd, hindex hnot⟩
    · rw [Function.update_of_ne hfd] at he
      obtain ⟨p, hp, hpfd, hpindex⟩ := h.entries fd b e he
      have hb : b ≠ a := by
        rintro rfl
        rw [k.object, Option.some.injEq] at hp
        exact hfd (hp ▸ hpfd.symm)
      exact ⟨p, (AList.lookup_insert_ne hb).trans hp, hpfd, hpindex⟩
  · rcases lookup_insert_some hp with ⟨rfl, rfl⟩ | ⟨-, hp⟩
    · obtain ⟨hslot, hfd⟩ := h.slots j b o k.object howner
      exact ⟨hslot, hfd.trans hsockfd.symm⟩
    · exact h.slots j b p hp howner
  · rcases lookup_insert_some hp with ⟨rfl, rfl⟩ | ⟨-, hp⟩
    · exact hindex (hstays hconnector hb)
    · exact h.ready b p (hactive.subset hb) hp hconnector hevents

omit [DecidableEq κ] in
theorem setRevents (h : s.Settled) {a : Addr} {o : Object κ} (ho : s.channels.lookup a = some o) (events : Events)
    (hindex : a ∈ s.active → o.ch.index = .kAdded) :
    { s with channels := s.channels.insert a { o with ch := o.ch.setRevents events } }.Settled := by
  refine { h with
    entries := fun fd b e he => ?_
    slots := fun j b p hp howner => ?_
    ready := fun b p hb hp hconnector hevents => ?_ }
  · obtain ⟨p, hp, hrest⟩ := h.entries fd b e he
    by_cases hba : b = a
    · subst hba
      rw [ho, Option.some.injEq] at hp
      subst hp
      exact ⟨{ o with ch := o.ch.setRevents events }, AList.lookup_insert _, hrest⟩
    · exact ⟨p, (AList.lookup_insert_ne hba).trans hp, hrest⟩
  · rcases lookup_insert_some hp with ⟨rfl, rfl⟩ | ⟨-, hp⟩
    · exact h.slots j b o ho howner
    · exact h.slots j b p hp howner
  · rcases lookup_insert_some hp with ⟨rfl, rfl⟩ | ⟨-, hp⟩
    · exact hindex hb
    · exact h.ready b p hb hp hconnector hevents

omit [DecidableEq κ] in
theorem setAllRevents {u : Poller κ} {ready : List Ready} (h : s.Settled)
    (hactive : ∀ a ∈ s.active, ∀ o, s.channels.lookup a = some o → o.ch.index = .kAdded)
    (hset : s.setRevents ready = some u) : u.Settled := by
  induction ready generalizing s with
  | nil => exact Option.some.inj hset ▸ h
  | cons r ready ih =>
    unfold Poller.setRevents at hset
    split at hset
    · rename_i o ho
      refine ih (h.setRevents ho r.events fun hr => hactive _ hr o ho) (fun a ha p hp => ?_) hset
      rcases lookup_insert_some hp with ⟨rfl, rfl⟩ | ⟨-, hp⟩
      · exact hactive _ ha o ho
      · exact hactive a ha p hp
    · cases hset

omit [DecidableEq κ] in
theorem poll {u : Poller κ} {ready : List Ready} (h : s.Settled)
    (hentries : ∀ r ∈ ready, (s.interest r.fd).map Prod.fst = some r.ptr) (hnodup : (ready.map Ready.fd).Nodup)
    (hset : { s with active := ready.map Ready.ptr }.setRevents ready = some u) : u.Settled := by
  have hptr : ∀ r ∈ ready, ∃ o, s.channels.lookup r.ptr = some o ∧ o.ch.sockfd = r.fd ∧ o.ch.index = .kAdded := by
    intro r hr
    obtain ⟨⟨a, e⟩, he, ha⟩ := Option.map_eq_some_iff.mp (hentries r hr)
    cases ha
    exact h.entries r.fd _ e he
  have hadded : ∀ a ∈ ready.map Ready.ptr, ∀ o, s.channels.lookup a = some o → o.ch.index = .kAdded := by
    intro a ha o ho
    obtain ⟨r, hr, rfl⟩ := List.mem_map.mp ha
    obtain ⟨p, hp, -, hindex⟩ := hptr r hr
    rw [ho, Option.some.injEq] at hp
    exact hp ▸ hindex
  have hpolled : { s with active := ready.map Ready.ptr }.Settled := by
    refine { h with nodup := ?_, ready := fun a o ha ho _ _ => hadded a ha o ho }
    refine hnodup.of_map.map_on fun r hr q hq hsame => ?_
    obtain ⟨o, ho, hofd, -⟩ := hptr r hr
    obtain ⟨p, hp, hpfd, -⟩ := hptr q hq
    rw [hsame, hp, Option.some.injEq] at ho
    exact List.inj_on_of_nodup_map hnodup hr hq (by rw [← hofd, ← hpfd, ho])
  exact hpolled.setAllRevents hadded hset

omit [DecidableEq κ] in
theorem handsOver (h : s.Settled) {k : κ} {a : Addr} {o : Object κ} (hover : s.handsOver = some (k, a, o)) :
    s.active.head? = some a ∧ o.owner = .connector k ∧ o.ch.index = .kAdded ∧ s.sockFd k = o.ch.sockfd := by
  obtain ⟨hslot, ho, b, ch, hhead, hb, hevents⟩ := handsOver_inv hover
  obtain ⟨hslot', hfd⟩ := h.slots k b _ hb rfl
  obtain rfl : a = b := Option.some.inj (hslot.symm.trans hslot')
  rw [ho, Option.some.injEq] at hb
  subst hb
  exact ⟨hhead, rfl, h.ready a _ (List.mem_of_head? hhead) ho rfl hevents, hfd⟩

end Settled

theorem orderly_of_settled {s : Poller κ} {l : Label κ} (hc : s.Consistent) (h : s.Settled) : s.Orderly l := by
  cases l with
  | handleWrite =>
    rintro ⟨k, a, o⟩ hover
    obtain ⟨-, howner, hindex, hfd⟩ := h.handsOver hover
    obtain ⟨-, ho, -⟩ := handsOver_inv hover
    refine ⟨fun e he hne => ?_, fun hother => absurd hfd hother⟩
    have hp := AList.mem_lookup_iff.mpr he
    have hapart : e.2.ch.sockfd ≠ o.ch.sockfd := by
      intro hsame
      rcases hc.shared e.1 a e.2 o hne hp ho hsame with ⟨-, hconnection⟩ | ⟨⟨-, hdeleted⟩, -⟩
      · rw [howner] at hconnection
        cases hconnection
      · rw [hindex] at hdeleted
        cases hdeleted
    exact ⟨hapart, hfd ▸ hapart⟩
  | _ => trivial

theorem step_settled {s u : Poller κ} {l : Label κ} (hc : s.Consistent) (h : s.Settled) (hl : s.Separate l)
    (hstep : step s l = some u) : u.Settled := by
  cases l with
  | construct owner a fd =>
    obtain ⟨⟨howner, ha, -⟩, rfl⟩ := Machine.guard_some.mp hstep
    have hopen : { s with isOpen := Function.update s.isOpen fd true }.Settled := { h with }
    refine hopen.newChannel owner ha fun k hk => ?_
    rw [hk] at howner
    cases howner
  | enable a =>
    obtain ⟨o, ch, hthrough, hnot, hindex, rfl⟩ := enable_through hc hstep
    exact h.called hc hthrough _ (List.Sublist.refl _) fun hconnector _ hdeleted =>
      hnot ⟨hconnector, hindex.symm.trans hdeleted⟩
  | connect k a fd savedErrno =>
    obtain ⟨⟨-, ha, -⟩, rfl⟩ := Machine.guard_some.mp hstep
    exact h.connect hl ha fd savedErrno
  | resetChannel k =>
    obtain ⟨-, rfl⟩ := Machine.guard_some.mp hstep
    exact h.reset hl
  | poll ready =>
    simp only [step] at hstep
    split at hstep
    · rename_i hguard
      obtain ⟨-, -, hentries, hnodup⟩ := hguard
      exact h.poll hentries hnodup hstep
    · cases hstep
  | handleEvent =>
    obtain ⟨-, rfl⟩ := Machine.guard_some.mp hstep
    exact { h with
      nodup := h.nodup.sublist (List.tail_sublist _)
      ready := fun a o ha => h.ready a o (List.mem_of_mem_tail ha) }
  | handleWrite =>
    obtain ⟨k, a, o, ch, hover, hthrough, -, -, -, -, -, -, rfl⟩ :=
      handleWrite_through hc (orderly_of_settled hc h) hstep
    obtain ⟨hhead, -⟩ := h.handsOver hover
    refine h.called hc hthrough _ (List.tail_sublist _) fun _ hmem _ => ?_
    -- The channel was the first of the active ones, and it was there once.
    have hnodup := h.nodup
    rw [← List.cons_head?_tail hhead, List.nodup_cons] at hnodup
    exact hnodup.1 hmem
  | newConnection a =>
    simp only [step] at hstep
    split at hstep
    · obtain ⟨ha, rfl⟩ := Machine.guard_some.mp hstep
      have hpc : { s with pc := .constructed a }.Settled := { h with }
      exact hpc.newChannel .connection ha fun k hk => by cases hk
    · cases hstep
  | enableWriting a | disableWriting a | handleClose a | endTimers a =>
    obtain ⟨o, ch, hthrough, howner, rfl⟩ := operation_through (a := a) hc (by simp) hstep
    refine h.called hc hthrough _ (List.Sublist.refl _) fun hconnector => ?_
    rw [howner] at hconnector
    cases hconnector
  | destroy a =>
    simp only [step] at hstep
    split at hstep
    · rename_i o ho
      obtain ⟨-, rfl⟩ := Machine.guard_some.mp hstep
      have herase := h.erase hl
      split
      · exact herase.closeFd _
      · exact herase
    · cases hstep
  | close fd =>
    obtain ⟨-, rfl⟩ := Machine.guard_some.mp hstep
    exact h.closeFd fd

/-! ## Runs -/

/-- Where attempts do not overlap every hand-over is orderly. -/
theorem orderly_of_separate (ls : List (Label κ)) (hseparate : Machine.Meets step Separate init ls) :
    Machine.Meets step Orderly init ls :=
  Machine.meets_of_meets (I := fun s => s.Consistent ∧ s.Settled)
    (fun _ _ _ h hl hstep => ⟨step_consistent h.1 (orderly_of_settled h.1 h.2) hstep, step_settled h.1 h.2 hl hstep⟩)
    (fun _ _ h _ => orderly_of_settled h.1 h.2) ⟨init_consistent, init_settled⟩ hseparate

end Muduo.Poller
