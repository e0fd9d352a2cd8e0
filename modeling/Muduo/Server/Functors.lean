import Muduo.Server.Release

/-! # Functors that outlive their connection

`sendInLoop`, `handleWrite` and `send` bind a plain `this`. The functor runs in a later phase of the
loop, when the connection's owners may be gone.
-/

namespace Muduo.Server

/-- The plain pointer that the functor is bound to. -/
def Queued.plain : Queued → Option ConnId
  | .connectEstablished _ => none
  | .bound c _ => some c

/-- The connections whose functors have not run yet. -/
def waiting (s : Server) : List ConnId :=
  (List.range (s.n + 1)).flatMap fun L =>
    ((s.loops L).tempRuns ++ (s.loops L).pendingFunctors).filterMap Queued.plain

theorem mem_waiting {s : Server} {c : ConnId} : c ∈ s.waiting ↔
    ∃ L, L ≤ s.n ∧ ∃ f, .bound c f ∈ (s.loops L).tempRuns ∨ .bound c f ∈ (s.loops L).pendingFunctors := by
  have hplain : ∀ q, Queued.plain q = some c ↔ ∃ f, q = .bound c f := by
    intro q
    cases q <;> simp [Queued.plain]
  simp only [waiting, List.mem_flatMap, List.mem_range, List.mem_filterMap, List.mem_append, hplain, Nat.lt_succ_iff]
  constructor
  · rintro ⟨L, hL, q, hq, f, rfl⟩
    exact ⟨L, hL, f, hq⟩
  · rintro ⟨L, hL, f, hf⟩
    exact ⟨L, hL, _, hf, f, rfl⟩

/-- Every functor found its connection alive. -/
def FunctorsOwned (s : Server) : Prop := ∀ c f, .functor c f false ∉ s.trace

/-- Of the references to a connection whose functors wait, the step gives up fewer than there are. -/
def KeepsOwners (s : Server) (l : Label) : Prop := ∀ c ∈ s.waiting, s.released c l < s.owners c

/-- No functor of a destroyed connection is called. -/
def FunctorLives (s : Server) : Label → Prop
  | .runFunctor L _ => ∀ c ∈ (s.loops L).tempRuns.head?.bind Queued.plain, s.alive c = true
  | _ => True

instance (s : Server) : (l : Label) → Decidable (s.FunctorLives l)
  | .runFunctor L _ =>
    inferInstanceAs (Decidable (∀ c ∈ (s.loops L).tempRuns.head?.bind Queued.plain, s.alive c = true))
  | .poll _ _ | .accept _ | .statement | .handle _ _ _ | .return_ _ _ | .act _ _ | .foreign _ | .swap _
  | .endBatch _ => .isTrue trivial

theorem takeFunctor_pointee {s : Server} {L : Nat} {f : Queued} {rest : List Queued}
    (hruns : (s.loops L).tempRuns = f :: rest) (c : ConnId) :
    (s.takeFunctor L f rest).pointee c = s.pointee c := by
  simp only [pointee, fun d => alive_congr (takeFunctor_owners hruns d)]
  rfl

theorem FunctorLives.pointee {s : Server} {L : Nat} {w : WriteResult} {c : ConnId} {f : Functor} {rest : List Queued}
    (h : s.FunctorLives (.runFunctor L w)) (hruns : (s.loops L).tempRuns = .bound c f :: rest) :
    s.pointee c = some c := by
  refine pointee_of_alive (h c ?_)
  rw [hruns]
  rfl

/-! ## Queues -/

/-- The part of a step that leaves the functors where they are. -/
structure Still (s u : Server) : Prop where
  waiting : ∀ c ∈ u.waiting, c ∈ s.waiting
  functors : ∀ c f b, .functor c f b ∈ u.trace → .functor c f b ∈ s.trace

/-- A step: new functors belong to connections that are alive. -/
structure Binds (s u : Server) : Prop where
  waiting : ∀ c ∈ u.waiting, c ∈ s.waiting ∨ u.alive c = true
  functors : ∀ c f b, .functor c f b ∈ u.trace → .functor c f b ∈ s.trace

theorem Still.binds {s u : Server} (h : Still s u) : Binds s u :=
  ⟨fun c hc => Or.inl (h.waiting c hc), h.functors⟩

theorem Still.trans_binds {s t u : Server} (h : Still s t) (k : Binds t u) : Binds s u :=
  ⟨fun c hc => (k.waiting c hc).imp_left (h.waiting c), fun c f b hf => h.functors c f b (k.functors c f b hf)⟩

theorem Still.refl (s : Server) : Still s s := ⟨fun _ hc => hc, fun _ _ _ hf => hf⟩

theorem Still.trans {s t u : Server} (h : Still s t) (k : Still t u) : Still s u :=
  ⟨fun c hc => h.waiting c (k.waiting c hc), fun c f b hf => h.functors c f b (k.functors c f b hf)⟩

theorem observe_still (s : Server) {o : Obs} (ho : ∀ c f b, o ≠ .functor c f b) : Still s (s.observe o) := by
  refine ⟨fun c hc => hc, fun c f b hf => ?_⟩
  simp only [observe, List.mem_append, List.mem_singleton] at hf
  rcases hf with hf | hf
  · exact hf
  · exact absurd hf.symm (ho c f b)

theorem setFrame_still (s : Server) (L : Nat) (frame : Frame) : Still s (s.setFrame L frame) :=
  ⟨fun c hc => by simpa [mem_waiting, show (s.setFrame L frame).n = s.n from rfl] using hc, fun _ _ _ hf => hf⟩

theorem setConn_still (s : Server) (c : ConnId) (k : Conn) : Still s (s.setConn c k) :=
  ⟨fun _ hd => hd, fun _ _ _ hf => hf⟩

theorem setTcp_still (s : Server) (c : ConnId) (tcp : TcpConnection) : Still s (s.setTcp c tcp) :=
  s.setConn_still c _

theorem control_still (s : Server) (c : ConnId) (ctl : Ctl) : Still s (s.control c ctl) :=
  ⟨fun _ hd => hd, fun _ _ _ hf => hf⟩

theorem setTable_still (s : Server) (table : Int → Option ConnId) : Still s { s with connections := table } :=
  ⟨fun _ hd => hd, fun _ _ _ hf => hf⟩

theorem crash_still (s : Server) : Still s { s with crashed := true } := ⟨fun _ hd => hd, fun _ _ _ hf => hf⟩

/-! ## `handleEvent` -/

theorem disableChannel_still (s : Server) (c : ConnId) : Still s (s.disableChannel c) :=
  (s.observe_still (by simp)).trans ((setTcp_still _ c _).trans (control_still _ c _))

theorem handleClose_still (s : Server) (L : Nat) (c : ConnId) : Still s (s.handleClose L c) := by
  have hclosed := s.disableChannel_still c
  rw [handleClose_eq]
  split
  · split
    · exact hclosed.trans ((setFrame_still _ L _).trans (observe_still _ (by simp)))
    · exact hclosed.trans (setFrame_still _ L _)
  · exact hclosed.trans (crash_still _)

theorem onMessage_still (s : Server) (L : Nat) (c : ConnId) : Still s (s.onMessage L c) := by
  rw [onMessage_eq]
  split
  · exact (s.setFrame_still L _).trans (observe_still _ (by simp))
  · exact s.crash_still

theorem called_binds (s : Server) (c : ConnId) {call : Call} (hfd : call.conn.sockfd = s.fd c)
    (halive : s.alive c = true) : Binds s (s.called c call) := by
  have hquiet := s.called_quiet c call
  refine ⟨fun d hd => ?_, fun d f b hf => hquiet.trace ▸ hf⟩
  obtain ⟨L, hL, f, hf⟩ := mem_waiting.mp hd
  obtain ⟨fs, hfs⟩ := hquiet.loops L
  rw [hfs] at hf
  simp only [List.mem_append, List.mem_map, Queued.bound.injEq] at hf
  rcases hf with hf | hf | ⟨g, -, rfl, -⟩
  · exact Or.inl (mem_waiting.mpr ⟨L, hquiet.n ▸ hL, f, Or.inl hf⟩)
  · exact Or.inl (mem_waiting.mpr ⟨L, hquiet.n ▸ hL, f, Or.inr hf⟩)
  · exact Or.inr (((s.called_sameAlive c hfd).alive c).trans halive)

theorem Binds.trans {s t u : Server} (h : Binds s t) (hsame : SameAlive t u) (k : Binds t u) : Binds s u := by
  refine ⟨fun c hc => ?_, fun c f b hf => h.functors c f b (k.functors c f b hf)⟩
  rcases k.waiting c hc with hwaits | halive
  · exact (h.waiting c hwaits).imp_right fun halive => (hsame.alive c).trans halive
  · exact Or.inr halive

theorem Move.binds {L : Nat} {c : ConnId} {t u : Server} (h : Move L c t u) : Binds t u := by
  cases h with
  | consult => exact (t.observe_still (by simp)).binds
  | read => exact (t.observe_still (by simp)).binds
  | onMessage halive hidle hread =>
    rename_i res tcp
    exact ((t.setTcp_still c tcp).trans (onMessage_still _ L c)).binds
  | close halive hidle => exact (t.handleClose_still L c).binds
  | write halive =>
    refine (t.observe_still (by simp)).trans_binds (called_binds (t.observe _) c ?_ halive)
    exact sockfd_handleWrite _ _

theorem Moves.binds {L : Nat} {c : ConnId} {s u : Server} (h : Moves L c s u) (hL : L ≤ s.n) : Binds s u := by
  have hboth : u.n = s.n ∧ Binds s u := by
    refine moves_invariant (I := fun t => t.n = s.n ∧ Binds s t) h ⟨rfl, (Still.refl s).binds⟩ ?_
    rintro t v ⟨hn, hbinds⟩ hmove
    exact ⟨hmove.stable.n.trans hn, hbinds.trans (hmove.sameAlive (hn ▸ hL)) hmove.binds⟩
  exact hboth.2

theorem testOut_binds (s : Server) (c : ConnId) (w : WriteResult) : Binds s (s.testOut c w) :=
  (s.testOut_moves 0 c w).binds (Nat.zero_le _)

/-! ## Steps -/

theorem setLoop_still (s : Server) (L : Nat) (lp : Loop)
    (h : ∀ f, f ∈ lp.tempRuns ∨ f ∈ lp.pendingFunctors →
      f ∈ (s.loops L).tempRuns ∨ f ∈ (s.loops L).pendingFunctors) : Still s (s.setLoop L lp) := by
  refine ⟨fun c hc => ?_, fun _ _ _ hf => hf⟩
  obtain ⟨M, hn, f, hf⟩ := mem_waiting.mp hc
  by_cases hM : M = L
  · subst hM
    simp only [setLoop, Function.update_self] at hf
    exact mem_waiting.mpr ⟨M, hn, f, h _ hf⟩
  · simp only [setLoop, Function.update_of_ne hM] at hf
    exact mem_waiting.mpr ⟨M, hn, f, hf⟩

theorem setRevents_still (s : Server) (events : List (Source × Events)) : Still s (s.setRevents events) :=
  setRevents_rel Still.refl Still.trans (fun s c _ => s.setConn_still c _) s events

theorem accept_still (s : Server) (fd : Int) : Still s (s.accept fd) := by
  have hnext : Still s s.getNextLoop.1 := by
    unfold getNextLoop
    split
    · exact Still.refl s
    · exact ⟨fun _ hc => hc, fun _ _ _ hf => hf⟩
  have hmake : ∀ t : Server, ∀ k, Still t ({ t with size := t.size + 1 }.setConn t.size k) := fun t k =>
    ⟨fun _ hc => hc, fun _ _ _ hf => hf⟩
  exact hnext.trans ((hmake _ _).trans ((setFrame_still _ 0 _).trans (observe_still _ (by simp))))

theorem connectEstablished_still (s : Server) (L : Nat) (c : ConnId) (rest : Rest) :
    Still s (s.connectEstablished L c rest) := by
  unfold connectEstablished
  split
  · exact (s.setFrame_still L _).trans (observe_still _ (by simp))
  · exact s.setFrame_still L _

theorem queueEstablished_still (s : Server) (L : Nat) (c : ConnId) :
    Still s (s.queueInLoop L (.connectEstablished c)) := by
  refine ⟨fun d hd => ?_, fun _ _ _ hf => hf⟩
  obtain ⟨M, hn, f, hf⟩ := mem_waiting.mp hd
  by_cases hM : M = L
  · subst hM
    simp [queueInLoop, setLoop] at hf
    exact mem_waiting.mpr ⟨M, hn, f, hf⟩
  · simp only [queueInLoop, setLoop, Function.update_of_ne hM] at hf
    exact mem_waiting.mpr ⟨M, hn, f, hf⟩

theorem statement_still (s : Server) (c : ConnId) (stage : Stage) : Still s (s.statement c stage) := by
  cases stage with
  | enableReading => exact (s.setConn_still c _).trans ((control_still _ c _).trans (setFrame_still _ 0 _))
  | sharedPtr => exact (s.setConn_still c _).trans (setFrame_still _ 0 _)
  | insert => exact (s.setTable_still _).trans (setFrame_still _ 0 _)
  | setUser =>
    simp only [statement]
    split
    · exact (s.setConn_still c _).trans (setFrame_still _ 0 _)
    · exact s.setFrame_still 0 _
  | setUpLayerCloseCallback => exact (s.setConn_still c _).trans (setFrame_still _ 0 _)
  | runInLoop =>
    simp only [statement]
    split
    · exact s.connectEstablished_still 0 c _
    · exact (s.queueEstablished_still _ c).trans (setFrame_still _ 0 _)

theorem return_binds (s : Server) (L : Nat) (c : ConnId) (w : WriteResult) (rest : Rest) :
    Binds s (s.return_ L c w rest) := by
  have hremove : Still s (s.removeConnection c) := s.setTable_still _
  cases rest with
  | connected | established | completed => exact (s.setFrame_still L _).binds
  | read => exact (s.setFrame_still L _).trans_binds (testOut_binds _ c w)
  | closed called =>
    simp only [return_]
    split
    · exact (hremove.trans (setFrame_still _ L _)).trans_binds (testOut_binds _ c w)
    · exact (s.setFrame_still L _).trans_binds (testOut_binds _ c w)

theorem queueInLoop_binds (s : Server) (c : ConnId) (L : Nat) (f : Functor) (halive : s.alive c = true) :
    Binds s (s.queueInLoop L (.bound c f)) := by
  refine ⟨fun d hd => ?_, fun _ _ _ hf => hf⟩
  obtain ⟨M, hM, g, hg⟩ := mem_waiting.mp hd
  obtain ⟨fs, hfs⟩ := (s.queueInLoop_quiet c L f).loops M
  rw [hfs] at hg
  simp only [List.mem_append, List.mem_map, Queued.bound.injEq] at hg
  rcases hg with hg | hg | ⟨-, -, rfl, -⟩
  · exact Or.inl (mem_waiting.mpr ⟨M, hM, g, Or.inl hg⟩)
  · exact Or.inl (mem_waiting.mpr ⟨M, hM, g, Or.inr hg⟩)
  · exact Or.inr ((alive_congr ((s.queueInLoop_quiet c L f).owners rfl c)).trans halive)

theorem act_binds (s : Server) (thread : Option Nat) (a : Act)
    (halive : ∀ c message w, a = .send c message w → s.alive c = true) : Binds s (s.act thread a) := by
  cases a with
  | send c message w =>
    simp only [act]
    split
    · exact s.called_binds c (sockfd_sendInLoop _ message w) (halive c message w rfl)
    · exact s.queueInLoop_binds c _ _ (halive c message w rfl)
  | keep c => exact (s.setConn_still c _).binds
  | drop c => exact (s.setConn_still c _).binds

/-! ## Functors -/

theorem bound_binds (s : Server) (L : Nat) (w : WriteResult) (c : ConnId) (f : Functor) :
    Binds (s.observe (.functor c f (s.alive c))) (s.runFunctor L w (.bound c f)) := by
  rcases s.runFunctor_bound L w c f with ⟨d, hd, heq⟩ | ⟨-, heq⟩
  · rw [heq]
    cases f with
    | onWriteComplateCB =>
      rw [callFunctor_completed]
      split
      · exact ((setFrame_still _ L _).trans (observe_still _ (by simp))).binds
      · exact (Still.refl _).binds
    | onMessageCB message =>
      have hcalled := called_binds (s.observe (.functor c (.onMessageCB message) (s.alive c))) d
        (sockfd_sendInLoop (s.conn d).tcp message w) (pointee_alive hd)
      exact ⟨hcalled.waiting, hcalled.functors⟩
  · rw [heq]
    exact (crash_still _).binds

/-- What a step does about functors: the one that runs comes from a queue. -/
structure Runs (s u : Server) : Prop where
  waiting : ∀ c ∈ u.waiting, c ∈ s.waiting ∨ u.alive c = true
  functors : ∀ c f b, .functor c f b ∈ u.trace → .functor c f b ∈ s.trace ∨ c ∈ s.waiting ∧ b = s.alive c

theorem Binds.runs {s u : Server} (h : Binds s u) : Runs s u :=
  ⟨h.waiting, fun c f b hf => Or.inl (h.functors c f b hf)⟩

theorem runFunctor_runs {s : Server} {L : Nat} (hL : L ≤ s.n) {f : Queued} {rest : List Queued} (w : WriteResult)
    (h : (s.loops L).tempRuns = f :: rest) : Runs s ((s.takeFunctor L f rest).runFunctor L w f) := by
  have hpop := s.setLoop_still L { s.loops L with ran := (s.loops L).ran ++ [f], tempRuns := rest }
    fun g hg => hg.imp_left fun hg => h ▸ List.mem_cons_of_mem f hg
  cases f with
  | connectEstablished c => exact (hpop.trans (connectEstablished_still _ L c _)).binds.runs
  | bound c f =>
    have hbinds := bound_binds (s.takeFunctor L (.bound c f) rest) L w c f
    refine ⟨fun d hd => (hbinds.waiting d hd).imp_left (hpop.waiting d), fun d g b hg => ?_⟩
    have hseen := hbinds.functors d g b hg
    simp only [observe, List.mem_append, List.mem_singleton] at hseen
    rcases hseen with hseen | hseen
    · exact Or.inl hseen
    · obtain ⟨rfl, rfl, rfl⟩ := Obs.functor.inj hseen
      exact Or.inr ⟨mem_waiting.mpr ⟨L, hL, g, Or.inl (h ▸ List.mem_cons_self)⟩, alive_congr (takeFunctor_owners h d)⟩

theorem step_runs {s u : Server} {l : Label} (h : step s l = some u) : Runs s u := by
  cases l with
  | poll L events =>
    obtain ⟨-, rfl⟩ := Machine.guard_some.mp h
    exact ((s.setRevents_still events).trans (setLoop_still _ L _ (by simp))).binds.runs
  | accept fd =>
    obtain ⟨rest, -, -, -, rfl⟩ := accept_inv h
    exact ((s.setLoop_still 0 _ (by simp)).trans (accept_still _ fd)).binds.runs
  | statement =>
    obtain ⟨c, stage, -, -, rfl⟩ := statement_inv h
    exact (s.statement_still c stage).binds.runs
  | handle L res w =>
    obtain ⟨c, rest, -, hready, hmoves⟩ := handle_moves h
    exact ((s.setLoop_still L _ (by simp)).trans_binds (hmoves.binds hready.2.1)).runs
  | return_ L w =>
    obtain ⟨c, rest, -, -, -, rfl⟩ := return_inv h
    exact (s.return_binds L c w rest).runs
  | act L a =>
    obtain ⟨arg, hcode, -, hL, hmay, rfl⟩ := act_inv h
    refine (s.act_binds (some L) a fun c message w ha => ?_).runs
    subst ha
    exact mayAct_alive hL hcode hmay.1
  | foreign a =>
    obtain ⟨⟨-, hmay⟩, rfl⟩ := Machine.guard_some.mp h
    refine (s.act_binds none a fun c message w ha => ?_).runs
    subst ha
    exact kept_alive hmay.1
  | swap L =>
    obtain ⟨-, rfl⟩ := Machine.guard_some.mp h
    exact (s.setLoop_still L _ (by simp +contextual)).binds.runs
  | runFunctor L w =>
    obtain ⟨f, rest, hruns, hready, rfl⟩ := runFunctor_inv h
    exact runFunctor_runs hready.2.1 w hruns
  | endBatch L =>
    obtain ⟨-, rfl⟩ := Machine.guard_some.mp h
    exact (s.setLoop_still L _ (by simp)).binds.runs

/-! ## Runs -/

/-- What waits is alive, and so was what ran. -/
structure Owned (s : Server) : Prop where
  formed : s.Formed
  known : ∀ c, s.alive c = true → c < s.size
  waiting : ∀ c ∈ s.waiting, s.alive c = true
  functors : s.FunctorsOwned

theorem init_owned (n : Nat) (user : Bool) (listenfd : Int) (address : ConnId → TcpConnection.Addr) :
    (init n user listenfd address).Owned where
  formed := init_formed n user listenfd address
  known := init_known n user listenfd address
  waiting := by
    intro c hc
    simp [mem_waiting, init, idleLoop] at hc
  functors := by
    intro c f hf
    simp [init] at hf

theorem step_owned {s u : Server} {l : Label} (hs : s.Owned) (hkeeps : s.KeepsOwners l) (h : step s l = some u) :
    u.Owned := by
  have hruns := step_runs h
  refine ⟨step_formed hs.formed h, step_known hs.formed hs.known h, fun c hc => ?_, fun c f hf => ?_⟩
  · rcases hruns.waiting c hc with hwaits | halive
    · have hknown := hs.known c (hs.waiting c hwaits)
      exact (step_alive hs.formed h fun _ => Nat.ne_of_lt hknown).mpr (hkeeps c hwaits)
    · exact halive
  · rcases hruns.functors c f false hf with hseen | ⟨hwaits, halive⟩
    · exact hs.functors c f hseen
    · rw [hs.waiting c hwaits] at halive
      cases halive

/-- Where every step leaves a reference to each connection with functors in its loop, every functor runs
on a connection that has an owner. -/
theorem functors_owned (n : Nat) (user : Bool) (listenfd : Int) (address : ConnId → TcpConnection.Addr)
    (labels : List Label)
    (h : Machine.Meets step KeepsOwners (init n user listenfd address) labels) :
    Machine.Always step FunctorsOwned (init n user listenfd address) labels := by
  intro pre s hpre hrun
  have hmeets : Machine.Meets step KeepsOwners (init n user listenfd address) pre :=
    fun front l t hfront => h front l t (hfront.trans hpre)
  exact (Machine.run_invariant_of_meets (fun _ _ _ hI hC hstep => step_owned hI hC hstep)
    (init_owned n user listenfd address) hmeets hrun).functors

instance (s : Server) (l : Label) : Decidable (s.KeepsOwners l) :=
  inferInstanceAs (Decidable (∀ c ∈ s.waiting, s.released c l < s.owners c))

/-- `onMessage` sends, and the functor runs behind the handler. -/
theorem functors_owned_echo : Machine.Always step FunctorsOwned (init 0 true 3 id)
    (accepting 5 ++ [.return_ 0 .error, .swap 0, .endBatch 0, .poll 0 [(.conn 0, EPOLLIN)],
      .handle 0 (.ok [1]) .error, .act 0 (.send 0 [1] (.ok 1)), .return_ 0 .error, .swap 0, .runFunctor 0 .error]) :=
  functors_owned 0 true 3 id _ (by decide +kernel)

/-- `onClose` sends, and the connection is gone when the functor runs. -/
def sendInOnClose : List Label :=
  accepting 5 ++ [.return_ 0 .error, .swap 0, .endBatch 0, .poll 0 [(.conn 0, EPOLLIN)],
    .handle 0 (.ok []) .error, .act 0 (.send 0 [1] (.ok 1)), .return_ 0 .error, .swap 0, .runFunctor 0 .error]

theorem functor_outlives : ¬ Machine.Always step FunctorsOwned (init 0 true 3 id) sendInOnClose :=
  Machine.not_always (fun s => decide (.functor 0 .onWriteComplateCB false ∈ s.trace))
    (fun _ hs => decide_eq_false (hs 0 .onWriteComplateCB)) (by decide +kernel)

end Muduo.Server
