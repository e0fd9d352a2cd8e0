import Muduo.Client.Owners

/-! # The channels that epoll points to

`handleWrite` takes its channel out of epoll and leaves the rest to a functor. `connect` and `stop` destroy the
channel they find.
-/

namespace Muduo.Client

/-- Whenever the loop is about to call `epoll_wait`, every entry points to a channel that exists. `resetChannel` has
only destroyed the channel of the attempt that queued it, behind its `EPOLL_CTL_DEL`. -/
structure NothingDangles (s : Client) : Prop where
  entries : s.loop.phase = .polling → ∀ fd src e, s.interest fd = some (src, e) → s.Exists src
  resets : ∀ of a index, .resetChannel of (some (a, index)) ∈ s.trace → of = some a ∧ index = .kDeleted

def Queued.resets : Queued → Bool
  | .resetChannel _ _ => true
  | .connect | .bound _ _ => false

/-- Attempts do not overlap: none begins before the last one's channel has been destroyed, `stop` does not destroy a
channel that is in epoll, and open connections have owners. -/
def Orderly (s : Client) (l : Label) : Prop :=
  (∀ p ∈ s.connects l, outcome p.2 = .connecting →
    s.pSockChan = none ∧ ∀ q ∈ s.loop.tempRuns ++ s.loop.pendingFunctors, q.resets = false) ∧
  (∀ p ∈ s.resets l, p.1 = true → s.Gone) ∧ s.Retains l

instance (s : Client) (l : Label) : Decidable (s.Orderly l) :=
  inferInstanceAs (Decidable ((∀ p ∈ s.connects l, outcome p.2 = .connecting →
    s.pSockChan = none ∧ ∀ q ∈ s.loop.tempRuns ++ s.loop.pendingFunctors, q.resets = false) ∧
    (∀ p ∈ s.resets l, p.1 = true → s.Gone) ∧ s.Retains l))

/-! ## The invariant -/

/-- Epoll knows the channel of the `Connector`, or none of its channels, and a `resetChannel` that waits belongs to
the channel that is there. -/
structure Matched (s : Client) : Prop where
  attempt : ∀ fd a e, s.interest fd = some (.attempt a, e) →
    ∃ sockfd index, s.slot = some (a, sockfd, index) ∧ index ≠ .kDeleted
  waiting : ∀ stopped of,
    .resetChannel stopped of ∈ s.loop.tempRuns ∨ .resetChannel stopped of ∈ s.loop.pendingFunctors →
    ∀ a sockfd index, s.slot = some (a, sockfd, index) → of = some a ∧ (stopped = false → index = .kDeleted)
  resets : ∀ of a index, .resetChannel of (some (a, index)) ∈ s.trace → of = some a ∧ index = .kDeleted

theorem init_matched (user : Bool) (heap : Heap) : (init user heap).Matched where
  attempt := fun _ _ _ h => by simp [init] at h
  waiting := fun _ _ h => by simp [init] at h
  resets := fun _ _ _ h => by simp [init] at h

namespace Matched

variable {s u : Client}

theorem aside (hs : s.Matched) (h : Aside s u) : u.Matched where
  attempt := fun fd a e he => by
    rw [h.slot]
    exact hs.attempt fd a e (h.interest fd a e he)
  waiting := fun stopped of hq a sockfd index hslot =>
    hs.waiting stopped of (h.resets stopped of hq) a sockfd index (h.slot ▸ hslot)
  resets := fun of a index hmem => hs.resets of a index ((h.mem_trace rfl).mp hmem)

theorem connect (hs : s.Matched) {fd savedErrno : Int} (hnew : outcome savedErrno = .connecting → s.slot = none ∧
    ∀ stopped of, ¬ (.resetChannel stopped of ∈ s.loop.tempRuns ∨ .resetChannel stopped of ∈ s.loop.pendingFunctors)) :
    (s.connect fd savedErrno).Matched := by
  have hresets : ∀ of a index, .resetChannel of (some (a, index)) ∈ (s.connect fd savedErrno).trace →
      of = some a ∧ index = .kDeleted := by
    intro of a index hmem
    exact hs.resets of a index ((connect_mem hmem).resolve_right (by simp))
  rcases s.connect_slot fd savedErrno with ⟨houtcome, hslot, hinterest⟩ | ⟨-, hslot, hinterest⟩
  · obtain ⟨hnone, hnowait⟩ := hnew houtcome
    refine ⟨fun fd' a e he => ?_, fun stopped of hq => ?_, hresets⟩
    · rw [hinterest] at he
      rcases epollCtl_some he with he | ⟨-, ha, -⟩
      · obtain ⟨sockfd, index, hsome, -⟩ := hs.attempt fd' a e he
        rw [hnone] at hsome
        cases hsome
      · cases ha
        exact ⟨fd, .kAdded, hslot, by simp⟩
    · rw [connect_loop] at hq
      exact absurd hq (hnowait stopped of)
  · refine ⟨fun fd' a e he => ?_, fun stopped of hq a sockfd index hsome => ?_, hresets⟩
    · rw [hslot]
      exact hs.attempt fd' a e (hinterest ▸ he)
    · rw [connect_loop] at hq
      exact hs.waiting stopped of hq a sockfd index (hslot ▸ hsome)

theorem stop (hs : s.Matched) : s.stop.Matched := by
  refine { hs with waiting := fun stopped of hq a sockfd index hslot => ?_ }
  rcases hq with hq | hq
  · exact hs.waiting stopped of (Or.inl hq) a sockfd index hslot
  · rcases List.mem_append.mp hq with hq | hq
    · exact hs.waiting stopped of (Or.inr hq) a sockfd index hslot
    · rw [List.mem_singleton, Queued.resetChannel.injEq] at hq
      obtain ⟨rfl, rfl⟩ := hq
      refine ⟨?_, fun h => by cases h⟩
      rw [show s.stop.slot = s.slot from rfl, slot, Option.map_eq_some_iff] at hslot
      obtain ⟨p, hp, heq⟩ := hslot
      cases heq
      rw [hp, Option.map_some]

theorem resetChannel (hs : s.Matched) {of : Option Attempt}
    (hwaits : ∀ a sockfd index, s.slot = some (a, sockfd, index) → of = some a ∧ index = .kDeleted) :
    (s.resetChannel of).Matched := by
  have hnone : ∀ fd a e, s.interest fd ≠ some (.attempt a, e) := by
    intro fd a e he
    obtain ⟨sockfd, index, hslot, hindex⟩ := hs.attempt fd a e he
    exact hindex (hwaits a sockfd index hslot).2
  refine ⟨fun fd a e he => absurd he (hnone fd a e), fun _ _ _ _ _ _ hslot => ?_, fun of' a index hmem => ?_⟩
  · simp [Client.resetChannel, slot, observe] at hslot
  · rcases List.mem_append.mp hmem with hold | hnew
    · exact hs.resets of' a index hold
    · rw [List.mem_singleton, Obs.resetChannel.injEq] at hnew
      obtain ⟨rfl, hsome⟩ := hnew
      obtain ⟨p, hp, heq⟩ := Option.map_eq_some_iff.mp hsome.symm
      cases heq
      exact hwaits p.1 p.2.sockfd p.2.index (by rw [slot, hp, Option.map_some])

theorem handleWrite (hs : s.Matched) (ht : s.Tracked) {a : Attempt} {ch : Channel}
    (hchan : s.pSockChan = some (a, ch)) (optval : Int) : (s.handleWrite a ch (some optval)).Matched := by
  have hslot : s.slot = some (a, ch.sockfd, ch.index) := by rw [slot, hchan, Option.map_some]
  have hleave : (s.leave a ch).Matched := by
    refine ⟨fun fd b e he => ?_, fun stopped of hq b sockfd index hsome => ?_, hs.resets⟩
    · have hold : s.interest fd = some (.attempt b, e) := by
        rcases epollCtl_some he with hold | ⟨-, -, hop, -⟩
        · exact hold
        · exact absurd rfl hop
      obtain ⟨sockfd, index, hsome, -⟩ := hs.attempt fd b e hold
      rw [hslot, Option.some.injEq, Prod.mk.injEq] at hsome
      exact absurd (hsome.1 ▸ he) ((ht.leave hchan).2 fd e)
    · rw [show (s.leave a ch).slot = some (a, ch.sockfd, .kDeleted) from rfl, Option.some.injEq, Prod.mk.injEq,
        Prod.mk.injEq] at hsome
      obtain ⟨rfl, rfl, rfl⟩ := hsome
      refine ⟨?_, fun _ => rfl⟩
      rcases hq with hq | hq
      · exact (hs.waiting stopped of (Or.inl hq) _ _ _ hslot).1
      · rcases List.mem_append.mp hq with hq | hq
        · exact (hs.waiting stopped of (Or.inr hq) _ _ _ hslot).1
        · rw [List.mem_singleton, Queued.resetChannel.injEq] at hq
          exact hq.2
  rw [handleWrite_eq]
  split
  · have hreport : ((s.leave a ch).observe (.newConnection a s.sockFd optval)).Matched :=
      { hleave with resets := fun of b index hmem => hleave.resets of b index (by simpa [observe] using hmem) }
    exact hreport.aside (.newConnection s.sockFd)
  · exact hleave.aside (.quiet (crash_quiet _ true))

end Matched

theorem step_matched {s u : Client} {l : Label} (hs : s.Placed) (ht : s.Tracked) (hm : s.Matched) (hl : s.Orderly l)
    (h : step s l = some u) : u.Matched := by
  cases step_turn hs h with
  | aside _ haside => exact hm.aside haside
  | connect hconnects haside =>
    refine (hm.aside haside).connect fun houtcome => ?_
    obtain ⟨hnone, hnowait⟩ := hl.1 _ hconnects houtcome
    refine ⟨by rw [haside.slot, slot, hnone]; rfl, fun stopped of hq => ?_⟩
    have hresets := hnowait _ (List.mem_append.mpr (haside.resets stopped of hq))
    cases hresets
  | stop => exact hm.stop
  | @resetChannel t stopped of hresets haside hapart hwaits =>
    refine (hm.aside haside).resetChannel fun a sockfd index hslot => ?_
    rw [haside.slot] at hslot
    obtain ⟨hof, hindex⟩ := hm.waiting stopped of hwaits a sockfd index hslot
    refine ⟨hof, ?_⟩
    cases stopped with
    | false => exact hindex rfl
    | true =>
      have hgone := hl.2.1 _ hresets rfl
      obtain ⟨p, hp, heq⟩ := Option.map_eq_some_iff.mp hslot
      cases heq
      exact hgone p hp
  | handleWrite hsucceeds haside hapart hcallback hopen hchan =>
    exact (hm.aside haside).handleWrite (ht.aside haside) hchan _

/-! ## Runs -/

theorem exists_of_slot {s : Client} {a : Attempt} {sockfd : Int} {index : Index}
    (h : s.slot = some (a, sockfd, index)) : s.Exists (.attempt a) := by
  obtain ⟨p, hp, heq⟩ := Option.map_eq_some_iff.mp h
  cases heq
  rw [Exists, hp, Option.map_some]

theorem nothing_dangles (user : Bool) (heap : Heap) (labels : List Label)
    (horderly : Machine.Meets step Orderly (init user heap) labels) :
    Machine.Always step NothingDangles (init user heap) labels := by
  refine Machine.always_of_meets (I := fun s => s.Placed ∧ s.Tracked ∧ s.Standing ∧ s.Matched) ?_ ?_
    ⟨init_placed user heap, init_tracked user heap, fun _ h => by simp [init] at h, init_matched user heap⟩ horderly
  · rintro s l u ⟨hplaced, htracked, hstanding, hmatched⟩ hl h
    exact ⟨step_placed hplaced h, step_tracked hplaced htracked h, step_standing hplaced hstanding hl.2.2 h,
      step_matched hplaced htracked hmatched hl h⟩
  · rintro s ⟨hplaced, -, hstanding, hmatched⟩
    refine ⟨fun _ fd src e he => ?_, hmatched.resets⟩
    cases src with
    | attempt a =>
      obtain ⟨sockfd, index, hslot, -⟩ := hmatched.attempt fd a e he
      exact exists_of_slot hslot
    | conn c =>
      obtain ⟨hsize, -, hopen⟩ := hplaced.interest fd c e he
      exact hstanding c hsize hopen

/-- A client connects, and the channel of its attempt is destroyed. -/
def connectedOnce : List Label := connecting 5 ++ [.return_ .error, .swap, .runFunctor .error (-1) EBADF, .endBatch]

theorem nothing_dangles_connectedOnce : Machine.Always step NothingDangles (init true .distinct) connectedOnce :=
  nothing_dangles true .distinct connectedOnce (by decide +kernel)

/-- User code connects twice. The second attempt destroys the channel of the first one. -/
def connectedTwice : List Label := [.act (.connect 5 EINPROGRESS), .act (.connect 6 EINPROGRESS), .loop]

theorem second_connect_dangles : ¬ Machine.Always step NothingDangles (init true .distinct) connectedTwice := by
  refine Machine.not_always (fun u => decide (u.loop.phase = .polling) &&
    decide (u.interest 5 = some (.attempt 0, EPOLLOUT)) && decide (¬ u.Exists (.attempt 0))) (fun u hu => ?_)
    (by decide +kernel)
  rw [← Bool.not_eq_true, Bool.and_eq_true, Bool.and_eq_true, decide_eq_true_iff, decide_eq_true_iff,
    decide_eq_true_iff]
  rintro ⟨⟨hphase, hentry⟩, hgone⟩
  exact hgone (hu.entries hphase 5 (.attempt 0) EPOLLOUT hentry)

end Muduo.Client
