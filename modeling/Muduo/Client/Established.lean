import Muduo.Client.Connector

/-! # What `newConnection` is called with

`handleWrite` asks for `SO_ERROR`, but it looks only at what `getsockopt` returns.
-/

namespace Muduo.Client

def Obs.reported : Obs → Option Attempt
  | .newConnection a _ _ => some a
  | _ => none

/-- The attempts for which `newConnection` has been called. -/
def reported (s : Client) : List Attempt := s.trace.filterMap Obs.reported

/-- `newConnection` has been called at most once for an attempt, with its descriptor, where `SO_ERROR` was 0. -/
structure Established (s : Client) : Prop where
  descriptor : ∀ a sockfd optval, .newConnection a sockfd optval ∈ s.trace → sockfd = s.fds a ∧ optval = 0
  once : s.reported.Nodup

/-- Where `handleWrite` takes an attempt to be connected, `SO_ERROR` is 0, no later `connect` has replaced `_sockFd`,
and the attempt's channel has not left epoll. -/
def Verified (s : Client) (l : Label) : Prop :=
  ∀ p ∈ s.succeeds l, s.callback = true → p.2 = 0 ∧ s.sockFd = s.fds p.1 ∧ ¬ s.Gone

instance (s : Client) (l : Label) : Decidable (s.Verified l) :=
  inferInstanceAs (Decidable (∀ p ∈ s.succeeds l, s.callback = true → p.2 = 0 ∧ s.sockFd = s.fds p.1 ∧ ¬ s.Gone))

/-! ## Reports -/

theorem Aside.reported {s u : Client} (h : Aside s u) : u.reported = s.reported := by
  obtain ⟨os, htrace, hos⟩ := h.trace
  have hnone : os.filterMap Obs.reported = [] := by
    rw [List.filterMap_eq_nil_iff]
    intro o ho
    have haside := hos o ho
    cases o with
    | consulted | handler | callback | functor => rfl
    | socket | close | newConnection | resetChannel => cases haside
  rw [Client.reported, htrace, List.filterMap_append, hnone, List.append_nil, Client.reported]

theorem connect_reported (s : Client) (fd savedErrno : Int) : (s.connect fd savedErrno).reported = s.reported := by
  rw [reported, connect_trace]
  split <;> simp [reported, Obs.reported]

theorem mem_reported {s : Client} {a : Attempt} {sockfd optval : Int} (h : .newConnection a sockfd optval ∈ s.trace) :
    a ∈ s.reported := List.mem_filterMap.mpr ⟨_, h, rfl⟩

theorem succeeds_none {s : Client} {l : Label}
    (h : s.connects l ≠ none ∨ s.resets l ≠ none ∨ l.stops = true) : s.succeeds l = none := by
  cases l with
  | handle => simp [connects, resets, Label.stops] at h
  | loop | poll | return_ | act | foreign | swap | runFunctor | endBatch => rfl

theorem step_running {s u : Client} {l : Label} (h : step s l = some u) : s.crashed = false := by
  cases l with
  | loop => exact (Machine.guard_some.mp h).1.1
  | poll events => exact (Machine.guard_some.mp h).1.1.1
  | handle res w so =>
    obtain ⟨src, rest, -, hready, -⟩ := handle_inv h
    exact hready.1
  | return_ w =>
    simp only [step] at h
    split at h
    · exact (Machine.guard_some.mp h).1.1
    · cases h
  | act a =>
    simp only [step] at h
    split at h
    · exact (Machine.guard_some.mp h).1.1
    · cases h
  | foreign a => exact (Machine.guard_some.mp h).1.1
  | swap => exact (Machine.guard_some.mp h).1.1.1
  | runFunctor w fd savedErrno =>
    obtain ⟨f, rest, -, hready, -⟩ := runFunctor_inv h
    exact hready.1
  | endBatch => exact (Machine.guard_some.mp h).1.1.1

/-- `handleWrite` takes the channel out of epoll and reports its attempt. -/
structure Reporting (s : Client) : Prop where
  known : ∀ a ∈ s.reported, a < s.attempts
  slot : s.crashed = false → ∀ a fd index, s.slot = some (a, fd, index) → (index = .kDeleted ↔ a ∈ s.reported)

theorem init_reporting (user : Bool) (heap : Heap) : (init user heap).Reporting where
  known := fun _ h => by simp [init, reported] at h
  slot := fun _ _ _ _ h => by simp [init, slot] at h

theorem handleWrite_slot {s : Client} {a : Attempt} {ch : Channel} {optval : Int} (hcallback : s.callback = true) :
    (s.handleWrite a ch (some optval)).slot = some (a, ch.sockfd, .kDeleted) := by
  rw [handleWrite_eq, if_pos hcallback, newConnection_eq]
  rfl

theorem handleWrite_reported {s : Client} {a : Attempt} {ch : Channel} {optval : Int} (hcallback : s.callback = true) :
    (s.handleWrite a ch (some optval)).reported = s.reported ++ [a] := by
  rw [handleWrite_eq, if_pos hcallback, (Aside.newConnection _).reported]
  simp [reported, observe, leave, Obs.reported]

theorem handleWrite_attempts (s : Client) (a : Attempt) (ch : Channel) (optval : Int) :
    (s.handleWrite a ch (some optval)).attempts = s.attempts := by
  rw [handleWrite_eq]
  split
  · rw [newConnection_eq]
    rfl
  · rfl

theorem step_reporting {s u : Client} {l : Label} (hs : s.Placed) (ht : s.Tracked) (hr : s.Reporting)
    (h : step s l = some u) : u.Reporting := by
  have hslot := hr.slot (step_running h)
  cases step_turn hs h with
  | aside hl haside =>
    refine ⟨fun a ha => ?_, fun _ a fd index hsome => ?_⟩
    · rw [haside.attempts]
      exact hr.known a (haside.reported ▸ ha)
    · rw [haside.reported]
      exact hslot a fd index (haside.slot ▸ hsome)
  | @connect t fd savedErrno hconnects haside =>
    have hknown : ∀ a ∈ (t.connect fd savedErrno).reported, a < s.attempts := by
      intro a ha
      rw [connect_reported, haside.reported] at ha
      exact hr.known a ha
    refine ⟨fun a ha => ?_, fun _ a f index hsome => ?_⟩
    · rw [connect_attempts, haside.attempts]
      exact Nat.lt_succ_of_lt (hknown a ha)
    · rcases t.connect_slot fd savedErrno with ⟨-, hnew, -⟩ | ⟨-, hold, -⟩
      · rw [hnew, Option.some.injEq, Prod.mk.injEq, Prod.mk.injEq, haside.attempts] at hsome
        obtain ⟨rfl, -, rfl⟩ := hsome
        exact iff_of_false (by decide) fun ha => lt_irrefl _ (hknown _ ha)
      · rw [connect_reported, haside.reported]
        exact hslot a f index (haside.slot ▸ hold ▸ hsome)
  | stop => exact ⟨hr.known, fun _ => hslot⟩
  | resetChannel hresets haside =>
    refine ⟨fun a ha => ?_, fun _ a fd index hsome => ?_⟩
    · refine haside.attempts ▸ hr.known a (haside.reported ▸ ?_)
      simpa [reported, resetChannel, observe, Obs.reported] using ha
    · simp [resetChannel, slot, observe] at hsome
  | @handleWrite t a ch optval hsucceeds haside hapart hcallback hopen hchan =>
    have hsome : s.slot = some (a, ch.sockfd, ch.index) := by rw [← haside.slot, slot, hchan, Option.map_some]
    by_cases hset : t.callback = true
    · refine ⟨fun b hb => ?_, fun _ b fd index hb => ?_⟩
      · rw [handleWrite_attempts, haside.attempts]
        rw [handleWrite_reported hset, haside.reported, List.mem_append, List.mem_singleton] at hb
        exact hb.elim (hr.known b) fun hb => hb ▸ (ht.slot a ch.sockfd ch.index hsome).1
      · rw [handleWrite_slot hset, Option.some.injEq, Prod.mk.injEq, Prod.mk.injEq] at hb
        obtain ⟨rfl, -, rfl⟩ := hb
        rw [handleWrite_reported hset]
        exact iff_of_true rfl (List.mem_append_right _ (List.mem_singleton_self a))
    · rw [handleWrite_eq, if_neg hset]
      refine ⟨fun b hb => ?_, fun hcrashed => by cases hcrashed⟩
      exact haside.attempts ▸ hr.known b (haside.reported ▸ hb)

/-! ## Steps -/

theorem Established.of_same {s u : Client} (hs : s.Established) (hreported : u.reported = s.reported)
    (htrace : ∀ a sockfd optval, .newConnection a sockfd optval ∈ u.trace → .newConnection a sockfd optval ∈ s.trace)
    (hfds : ∀ a ∈ s.reported, u.fds a = s.fds a) : u.Established where
  descriptor := fun a sockfd optval h => by
    have hold := htrace a sockfd optval h
    rw [hfds a (mem_reported hold)]
    exact hs.descriptor a sockfd optval hold
  once := hreported ▸ hs.once

/-- A call of `newConnection` is as it should be where `SO_ERROR` is 0, the descriptor is the attempt's and the
attempt has not been reported. -/
theorem handleWrite_established {t : Client} {a : Attempt} {ch : Channel} {optval : Int} (hp : t.Established)
    (hset : t.callback = true) : (t.handleWrite a ch (some optval)).Established ↔
      optval = 0 ∧ t.sockFd = t.fds a ∧ a ∉ t.reported := by
  have hreported : (t.handleWrite a ch (some optval)).reported = t.reported ++ [a] := handleWrite_reported hset
  have honce : (t.handleWrite a ch (some optval)).reported.Nodup ↔ a ∉ t.reported := by
    rw [hreported, List.nodup_append]
    simp only [hp.once, List.nodup_singleton, true_and, List.mem_singleton, forall_eq]
    exact ⟨fun hne ha => hne a ha rfl, fun ha b hb heq => ha (heq ▸ hb)⟩
  have htrace := Aside.newConnection (s := (t.leave a ch).observe (.newConnection a t.sockFd optval)) t.sockFd
  have heq : t.handleWrite a ch (some optval) =
      ((t.leave a ch).observe (.newConnection a t.sockFd optval)).newConnection t.sockFd := by
    rw [handleWrite_eq, if_pos hset]
  have hfds : (t.handleWrite a ch (some optval)).fds = t.fds := by
    rw [heq, htrace.fds]
    rfl
  have hmem : ∀ b sockfd v, .newConnection b sockfd v ∈ (t.handleWrite a ch (some optval)).trace ↔
      .newConnection b sockfd v ∈ t.trace ∨ b = a ∧ sockfd = t.sockFd ∧ v = optval := by
    intro b sockfd v
    rw [heq, htrace.mem_trace rfl]
    simp [observe, leave]
  constructor
  · intro hu
    obtain ⟨hfd, hoptval⟩ :=
      hu.descriptor a t.sockFd optval ((hmem a t.sockFd optval).mpr (Or.inr ⟨rfl, rfl, rfl⟩))
    exact ⟨hoptval, hfds ▸ hfd, honce.mp hu.once⟩
  · rintro ⟨hoptval, hfd, hnew⟩
    refine ⟨fun b sockfd v hb => ?_, honce.mpr hnew⟩
    rw [hfds]
    rcases (hmem b sockfd v).mp hb with hb | ⟨rfl, rfl, rfl⟩
    · exact hp.descriptor b sockfd v hb
    · exact ⟨hfd, hoptval⟩

theorem step_established {s u : Client} {l : Label} (hs : s.Placed) (hr : s.Reporting) (hp : s.Established)
    (h : step s l = some u) : u.Established ↔ s.Verified l := by
  have hsame : s.succeeds l = none → u.reported = s.reported → (∀ a sockfd optval,
      .newConnection a sockfd optval ∈ u.trace → .newConnection a sockfd optval ∈ s.trace) →
      (∀ a ∈ s.reported, u.fds a = s.fds a) → (u.Established ↔ s.Verified l) := by
    intro hl hreported htrace hfds
    refine iff_of_true (hp.of_same hreported htrace hfds) fun p hsome => ?_
    rw [hl] at hsome
    cases hsome
  have hslot := hr.slot (step_running h)
  cases step_turn hs h with
  | aside hl haside =>
    exact hsame hl.2.2.1 haside.reported (fun _ _ _ hmem => (haside.mem_trace rfl).mp hmem) fun _ _ => by
      rw [haside.fds]
  | connect hconnects haside =>
    refine hsame (succeeds_none (Or.inl (by simp [hconnects]))) ((connect_reported _ _ _).trans haside.reported)
      (fun _ _ _ hmem => ?_) fun a ha => ?_
    · exact (haside.mem_trace rfl).mp ((connect_mem hmem).resolve_right (by simp))
    · rw [connect_fds, haside.fds, haside.attempts, Function.update_of_ne (Nat.ne_of_lt (hr.known a ha))]
  | stop hstops => exact hsame (succeeds_none (Or.inr (Or.inr hstops))) rfl (fun _ _ _ hmem => hmem) fun _ _ => rfl
  | resetChannel hresets haside =>
    refine hsame (succeeds_none (Or.inr (Or.inl (by simp [hresets])))) ?_ (fun _ _ _ hmem => ?_) fun _ _ => ?_
    · rw [← haside.reported]
      simp [reported, resetChannel, observe, Obs.reported]
    · exact (haside.mem_trace rfl).mp (by simpa [resetChannel, observe] using hmem)
    · exact congrFun haside.fds _
  | @handleWrite t a ch optval hsucceeds haside hapart hcallback hopen hchan =>
    have ht : t.Established := hp.of_same haside.reported
      (fun b sockfd optval hmem => (haside.mem_trace rfl).mp hmem) fun b _ => congrFun haside.fds b
    have hsome : s.slot = some (a, ch.sockfd, ch.index) := by rw [← haside.slot, slot, hchan, Option.map_some]
    have hgone : s.Gone ↔ a ∈ t.reported := by
      rw [haside.reported, ← hslot a ch.sockfd ch.index hsome]
      obtain ⟨q, hq, heq⟩ := Option.map_eq_some_iff.mp hsome
      rw [Prod.mk.injEq, Prod.mk.injEq] at heq
      rw [Gone, hq, ← heq.2.2]
      simp
    have hverifies : s.Verified l ↔ (t.callback = true → optval = 0 ∧ t.sockFd = t.fds a ∧ a ∉ t.reported) := by
      rw [Verified, hsucceeds, hcallback, haside.sockFd, haside.fds, hgone]
      simp
    rw [hverifies]
    by_cases hset : t.callback = true
    · rw [handleWrite_established ht hset]
      exact ⟨fun h _ => h, fun h => h hset⟩
    · rw [handleWrite_eq, if_neg hset]
      exact iff_of_true ⟨ht.descriptor, ht.once⟩ fun hcallback => absurd hcallback hset

/-- `newConnection` is called as it should be all along a run exactly when the run meets `Verified`. -/
theorem reports_established (user : Bool) (heap : Heap) (labels : List Label) {s : Client}
    (hrun : Machine.run step (init user heap) labels = some s) :
    Machine.Always step Established (init user heap) labels ↔ Machine.Meets step Verified (init user heap) labels := by
  refine Machine.always_iff_meets (I := fun t => t.Placed ∧ t.Tracked ∧ t.Reporting) (fun t l u ht _ _ h => ?_)
    (fun t l u ht hp h => step_established ht.1 ht.2.2 hp h)
    ⟨init_placed user heap, init_tracked user heap, init_reporting user heap⟩ ?_ hrun
  · exact ⟨step_placed ht.1 h, step_tracked ht.1 ht.2.1 h, step_reporting ht.1 ht.2.1 ht.2.2 h⟩
  · exact ⟨fun _ _ _ h => by simp [init] at h, List.nodup_nil⟩

theorem reports_established_connecting :
    Machine.Always step Established (init true .distinct) (connecting 5) := by
  obtain ⟨s, hrun⟩ := Option.isSome_iff_exists.mp
    (by decide +kernel : (Machine.run step (init true .distinct) (connecting 5)).isSome = true)
  exact (reports_established true .distinct (connecting 5) hrun).mpr (by decide +kernel)

/-- The peer refuses the connection: the socket becomes writable, and `SO_ERROR` is `ECONNREFUSED`. -/
def refused : List Label :=
  [.act (.connect 5 EINPROGRESS), .loop, .poll [(.attempt 0, EPOLLOUT ||| EPOLLHUP)],
    .handle (.ok []) .error (some ECONNREFUSED)]

theorem refused_reported : ¬ Machine.Always step Established (init true .distinct) refused := by
  refine Machine.not_always (fun u => decide (.newConnection 0 5 ECONNREFUSED ∈ u.trace)) (fun u hu => ?_)
    (by decide +kernel)
  rw [decide_eq_false_iff_not]
  intro hmem
  exact absurd (hu.descriptor 0 5 ECONNREFUSED hmem).2 (by decide)

end Muduo.Client
