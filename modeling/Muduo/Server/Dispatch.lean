import Muduo.Server.Table
import Muduo.Server.Trace

/-! # Dispatch behind `handleClose`

`handleEvent` goes on with the channel when `handleClose` returns, and by then the connection may be gone.
-/

namespace Muduo.Server

/-- `handleEvent` reads no channel of a connection that is gone. -/
def NoDeadDispatch (s : Server) : Prop := ∀ c, .consulted c false ∉ s.trace

/-- The connection that `handleClose` is closing. -/
def Frame.closing : Frame → Option ConnId
  | .user c (.closed _) => some c
  | _ => none

/-- Where `onClose` returns, user code keeps the connection. -/
def KeptAtClose (s : Server) : Label → Prop
  | .return_ L _ => ∀ c ∈ (s.loops L).frame.closing, 0 < (s.conn c).held
  | _ => True

instance (s : Server) : (l : Label) → Decidable (s.KeptAtClose l)
  | .return_ L _ => inferInstanceAs (Decidable (∀ c ∈ (s.loops L).frame.closing, 0 < (s.conn c).held))
  | .poll _ _ | .accept _ | .statement | .handle _ _ _ | .act _ _ | .foreign _ | .swap _ | .runFunctor _ _
  | .endBatch _ => .isTrue trivial

/-! ## Handlers -/

theorem Open.alive {s : Server} {c : ConnId} (h : s.Open c) : s.alive c = true := alive_iff.mpr (Or.inl h)

/-- A handler finds its channel, because only what follows it removes connections. -/
theorem moves_noDeadDispatch {c : ConnId} {s u : Server} (hmoves : Moves 0 c s u) (halive : s.alive c = true)
    (hs : s.NoDeadDispatch) : u.NoDeadDispatch := by
  have hall : u.n = s.n ∧ u.alive c = true ∧ u.NoDeadDispatch := by
    refine moves_invariant (I := fun t => t.n = s.n ∧ t.alive c = true ∧ t.NoDeadDispatch) hmoves
      ⟨rfl, halive, hs⟩ ?_
    rintro t v ⟨hn, halive, ht⟩ hmove
    refine ⟨hmove.stable.n.trans hn, ((hmove.sameAlive (Nat.zero_le _)).alive c).trans halive, fun d hd => ?_⟩
    obtain ⟨os, htrace, hshown⟩ := hmove.shows
    rw [htrace, List.mem_append] at hd
    rcases hd with hold | hnew
    · exact ht d hold
    · rcases hshown _ hnew with heq | ⟨_, heq⟩ | heq | heq
      · rw [halive] at heq
        cases heq
      · cases heq
      · cases heq
      · cases heq
  exact hall.2.2

theorem testOut_noDeadDispatch {s : Server} (hs : s.NoDeadDispatch) (c : ConnId) (w : WriteResult) :
    (s.testOut c w).NoDeadDispatch ↔ s.alive c = true := by
  constructor
  · intro h
    by_contra hdead
    rw [Bool.not_eq_true] at hdead
    refine h c ?_
    rw [testOut_trace, hdead]
    simp
  · intro halive
    exact moves_noDeadDispatch (s.testOut_moves 0 c w) halive hs

theorem removed_alive {s : Server} (hs : s.Table) (c : ConnId) :
    ((s.removeConnection c).setFrame 0 .idle).alive c = true ↔ 0 < (s.conn c).held := by
  have hholds : ∀ L, L ≤ s.n → (((s.removeConnection c).setFrame 0 .idle).loops L).holds c = 0 := by
    intro L hL
    obtain rfl := hs.zero hL
    obtain ⟨hran, htemp, hpending⟩ := hs.direct c
    simp [Loop.holds, Frame.holds, removeConnection, holds_none, hran, htemp, hpending]
  have hentry : ((s.removeConnection c).setFrame 0 .idle).connections (s.fd c) = none := by
    simp [removeConnection, setFrame, setLoop]
  rw [alive_iff]
  constructor
  · rintro (hopen | hheld | ⟨L, hL, hpos⟩)
    · rw [show ((s.removeConnection c).setFrame 0 .idle).fd c = s.fd c from rfl, hentry] at hopen
      cases hopen
    · exact hheld
    · rw [hholds L hL] at hpos
      omega
  · intro hheld
    exact Or.inr (Or.inl hheld)

theorem return_noDeadDispatch {s : Server} (hs : s.Table) (hdead : s.NoDeadDispatch) {c : ConnId} {rest : Rest}
    (hframe : (s.loops 0).frame = .user c rest) (w : WriteResult) :
    (s.return_ 0 c w rest).NoDeadDispatch ↔ s.KeptAtClose (.return_ 0 w) := by
  simp only [KeptAtClose, hframe]
  cases rest with
  | connected | established | completed => exact iff_of_true hdead (by simp [Frame.closing])
  | read =>
    have hopen : (s.setFrame 0 .idle).Open c := (hs.handling c _ hframe).1
    exact iff_of_true ((testOut_noDeadDispatch (s := s.setFrame 0 .idle) hdead c w).mpr hopen.alive)
      (by simp [Frame.closing])
  | closed called =>
    have hopen := (hs.handling c _ hframe).1
    have hcallback := (hs.made c hopen (not_entering (fun d stage => by simp [hframe]) c)).2.2
    have hafter : ((s.removeConnection c).setFrame 0 .idle).NoDeadDispatch := hdead
    simp only [return_, hcallback, if_true, Frame.closing, Option.mem_def, Option.some.injEq, forall_eq']
    rw [testOut_noDeadDispatch hafter, removed_alive hs c]

/-! ## Runs -/

/-- What the run of a single loop keeps. -/
structure Lone (s : Server) : Prop where
  formed : s.Formed
  known : ∀ c, s.alive c = true → c < s.size
  table : s.Table

theorem init_lone (user : Bool) (listenfd : Int) (address : ConnId → TcpConnection.Addr) :
    (init 0 user listenfd address).Lone :=
  ⟨init_formed 0 user listenfd address, init_known 0 user listenfd address, init_table user listenfd address⟩

theorem step_lone {s u : Server} {l : Label} (hs : s.Lone) (h : step s l = some u) : u.Lone :=
  ⟨step_formed hs.formed h, step_known hs.formed hs.known h, step_table hs.table hs.known h⟩

theorem step_noDeadDispatch {s u : Server} {l : Label} (hs : s.Lone) (hdead : s.NoDeadDispatch)
    (h : step s l = some u) : u.NoDeadDispatch ↔ s.KeptAtClose l := by
  have hother : (∀ c, ¬ (Obs.consulted c false).By l) → u.NoDeadDispatch :=
    fun hl c hc => hdead c (step_mem h (hl c) hc)
  cases l with
  | handle L res w =>
    obtain ⟨c, rest, hactive, hready, hmoves⟩ := handle_moves h
    obtain rfl := hs.table.zero hready.2.1
    have hopen : (s.takeActive 0 rest).Open c :=
      (hs.table.active c (by rw [hactive]; exact List.mem_cons_self)).1
    exact iff_of_true (moves_noDeadDispatch hmoves hopen.alive hdead) trivial
  | return_ L w =>
    obtain ⟨c, rest, hframe, -, hL, rfl⟩ := return_inv h
    obtain rfl := hs.table.zero hL
    exact return_noDeadDispatch hs.table hdead hframe w
  | poll | accept | statement | act | foreign | swap | runFunctor | endBatch =>
    exact iff_of_true (hother (by simp [Obs.By])) trivial

/-- A single loop reads no channel of a connection that is gone exactly when user code keeps a reference to
each connection whose `onClose` returns. -/
theorem no_dispatch_after_release (user : Bool) (listenfd : Int) (address : ConnId → TcpConnection.Addr)
    (labels : List Label) (s : Server)
    (hrun : Machine.run step (init 0 user listenfd address) labels = some s) :
    Machine.Always step NoDeadDispatch (init 0 user listenfd address) labels ↔
      Machine.Meets step KeptAtClose (init 0 user listenfd address) labels :=
  Machine.always_iff_meets (fun _ _ _ hI _ _ hstep => step_lone hI hstep)
    (fun _ _ _ hI hP hstep => step_noDeadDispatch hI hP hstep) (init_lone user listenfd address)
    (fun c hc => by simp [init] at hc) hrun

/-- User code keeps the connection from `onConnection` on. -/
def closeKept : List Label :=
  accepting 5 ++ [.act 0 (.keep 0), .return_ 0 .error, .swap 0, .endBatch 0, .poll 0 [(.conn 0, EPOLLHUP)],
    .handle 0 (.ok []) .error, .return_ 0 .error]

theorem no_dispatch_after_release_kept :
    Machine.Always step NoDeadDispatch (init 0 true 3 id) closeKept := by
  have hsome : (Machine.run step (init 0 true 3 id) closeKept).isSome = true := by decide +kernel
  obtain ⟨s, hrun⟩ := Option.isSome_iff_exists.mp hsome
  exact (no_dispatch_after_release true 3 id closeKept s hrun).mpr (by decide +kernel)

/-- The peer hangs up, and `handleEvent` goes on with a channel that its `handleClose` destroyed. -/
def hangUp : List Label :=
  accepting 5 ++ [.return_ 0 .error, .swap 0, .endBatch 0, .poll 0 [(.conn 0, EPOLLHUP)],
    .handle 0 (.ok []) .error, .return_ 0 .error]

theorem dispatch_after_release : ¬ Machine.Always step NoDeadDispatch (init 0 true 3 id) hangUp :=
  Machine.not_always (fun s => decide (.consulted 0 false ∈ s.trace)) (fun _ hs => decide_eq_false (hs 0))
    (by decide +kernel)

end Muduo.Server
