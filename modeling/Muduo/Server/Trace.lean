import Muduo.Server.Calls

/-! # What a step shows

The observations that each step adds to the trace.
-/

namespace Muduo.Server

@[simp]
theorem setRevents_trace (s : Server) (events : List (Source × Events)) : (s.setRevents events).trace = s.trace :=
  setRevents_rel (R := fun s u => u.trace = s.trace) (fun _ => rfl) (fun h k => k.trans h) (fun _ _ _ => rfl) s events

@[simp]
theorem act_trace (s : Server) (thread : Option Nat) (a : Act) : (s.act thread a).trace = s.trace := by
  cases a with
  | send c message w =>
    simp only [act]
    split
    · exact (s.called_quiet c _).trace
    · rfl
  | keep c => rfl
  | drop c => rfl

theorem connectEstablished_trace (s : Server) (L : Nat) (c : ConnId) (rest : Rest) :
    (s.connectEstablished L c rest).trace =
      s.trace ++ if (s.conn c).tcp.pUser = true then [.callback c .onConnection] else [] := by
  unfold connectEstablished
  split
  · rfl
  · exact (List.append_nil _).symm

theorem statement_trace (s : Server) (c : ConnId) (stage : Stage) : (s.statement c stage).trace =
    s.trace ++ if stage = .runInLoop ∧ (s.conn c).loop = 0 ∧ (s.conn c).tcp.pUser = true then
      [.callback c .onConnection] else [] := by
  cases stage with
  | setUser =>
    simp only [statement]
    split <;> simp [setFrame, setLoop, setTcp, setConn]
  | runInLoop =>
    simp only [statement]
    split
    · rename_i hloop
      simp [connectEstablished_trace, hloop]
    · rename_i hloop
      simp [hloop, setFrame, setLoop, queueInLoop]
  | enableReading | sharedPtr | insert | setUpLayerCloseCallback =>
    simp [statement, setFrame, setLoop, setTcp, setConn, control]

theorem testOut_trace (s : Server) (c : ConnId) (w : WriteResult) : (s.testOut c w).trace =
    s.trace ++ .consulted c (s.alive c) ::
      if s.alive c && s.revents c &&& EPOLLOUT != 0 then [.handler c .handleWrite (s.ready c)] else [] := by
  rw [testOut_eq]
  split
  · rw [(called_quiet _ c _).trace]
    simp [observe]
  · rfl

theorem callFunctor_trace (s : Server) (L : Nat) (c : ConnId) (w : WriteResult) (f : Functor) :
    (s.callFunctor L c w f).trace = s.trace ++
      if f = .onWriteComplateCB ∧ (s.conn c).tcp.pUser = true then [.callback c .onWriteComplate] else [] := by
  cases f with
  | onWriteComplateCB =>
    rw [callFunctor_completed]
    split
    · rename_i huser
      simp [huser, observe, setFrame, setLoop]
    · rename_i huser
      simp [huser]
  | onMessageCB message =>
    change (called _ c _).trace = _
    rw [(called_quiet _ c _).trace]
    simp

theorem bound_trace (s : Server) (L : Nat) (w : WriteResult) (c : ConnId) (f : Functor) :
    ∃ os, (s.runFunctor L w (.bound c f)).trace = s.trace ++ .functor c f (s.alive c) :: os ∧
      (os = [] ∨ ∃ d, s.pointee c = some d ∧ (s.conn d).tcp.pUser = true ∧ os = [.callback d .onWriteComplate]) := by
  rcases s.runFunctor_bound L w c f with ⟨d, hd, heq⟩ | ⟨-, heq⟩
  · rw [heq]
    refine ⟨_, (callFunctor_trace _ L d w f).trans (List.append_cons _ _ _).symm, ?_⟩
    split
    · rename_i h
      exact Or.inr ⟨d, hd, h.2, rfl⟩
    · exact Or.inl rfl
  · exact ⟨[], by rw [heq]; rfl, Or.inl rfl⟩

/-! ## Moves -/

theorem onMessage_trace (s : Server) (L : Nat) (c : ConnId) : (s.onMessage L c).trace =
    s.trace ++ if (s.conn c).tcp.pUser && (s.conn c).shared then [.callback c .onMessage] else [] := by
  rw [onMessage_eq]
  split
  · rfl
  · exact (List.append_nil _).symm

theorem handleClose_trace (s : Server) (L : Nat) (c : ConnId) : (s.handleClose L c).trace =
    s.trace ++ .handler c .handleClose (s.ready c) ::
      if (s.conn c).shared && (s.conn c).tcp.pUser then [.callback c .onClose] else [] := by
  have htrace : (s.disableChannel c).trace = s.trace ++ [.handler c .handleClose (s.ready c)] := rfl
  rw [handleClose_eq]
  split
  · rename_i hshared
    split
    · rename_i huser
      simp [hshared, huser, observe, setFrame, setLoop, htrace]
    · rename_i huser
      simp [hshared, huser, setFrame, setLoop, htrace]
  · rename_i hshared
    simp [hshared, htrace]

theorem Move.shows {L : Nat} {c : ConnId} {t u : Server} (h : Move L c t u) :
    ∃ os, u.trace = t.trace ++ os ∧ ∀ o ∈ os, o = .consulted c (t.alive c) ∨ (∃ h, o = .handler c h (t.ready c)) ∨
      o = .callback c .onMessage ∨ o = .callback c .onClose := by
  cases h with
  | consult => exact ⟨[.consulted c (t.alive c)], rfl, by simp⟩
  | read => exact ⟨[.handler c .handleRead (t.ready c)], rfl, by simp⟩
  | onMessage halive hidle hread =>
    refine ⟨_, onMessage_trace _ L c, fun o ho => ?_⟩
    split at ho <;> simp at ho
    exact Or.inr (Or.inr (Or.inl ho))
  | close halive hidle =>
    refine ⟨_, t.handleClose_trace L c, fun o ho => ?_⟩
    rcases List.mem_cons.mp ho with heq | ho
    · exact Or.inr (Or.inl ⟨_, heq⟩)
    · split at ho <;> simp at ho
      exact Or.inr (Or.inr (Or.inr ho))
  | write halive => exact ⟨[.handler c .handleWrite (t.ready c)], (called_quiet _ c _).trace, by simp⟩

theorem Moves.shows {L : Nat} {c : ConnId} {s u : Server} (h : Moves L c s u) :
    ∃ os, u.trace = s.trace ++ os ∧ ∀ o ∈ os,
      (∃ alive, o = .consulted c alive) ∨ (∃ h ready, o = .handler c h ready) ∨
      o = .callback c .onMessage ∨ o = .callback c .onClose := by
  refine moves_invariant (I := fun t => ∃ os, t.trace = s.trace ++ os ∧ ∀ o ∈ os, (∃ alive, o = .consulted c alive) ∨
    (∃ h ready, o = .handler c h ready) ∨ o = .callback c .onMessage ∨ o = .callback c .onClose) h
    ⟨[], by simp, by simp⟩ ?_
  rintro t v ⟨os, htrace, hos⟩ hmove
  obtain ⟨new, hnew, hshown⟩ := hmove.shows
  refine ⟨os ++ new, by rw [hnew, htrace, List.append_assoc], fun o ho => ?_⟩
  rcases List.mem_append.mp ho with ho | ho
  · exact hos o ho
  · rcases hshown o ho with heq | ⟨k, heq⟩ | heq
    · exact Or.inl ⟨_, heq⟩
    · exact Or.inr (Or.inl ⟨k, _, heq⟩)
    · exact Or.inr (Or.inr heq)

/-! ## Steps -/

/-- Which steps show an observation. -/
def Obs.By : Obs → Label → Prop
  | .accepted _ _, .accept _ => True
  | .consulted _ _, .handle _ _ _ | .consulted _ _, .return_ _ _ => True
  | .handler _ _ _, .handle _ _ _ | .handler _ .handleWrite _, .return_ _ _ => True
  | .callback _ .onConnection, .statement | .callback _ .onConnection, .runFunctor _ _ => True
  | .callback _ .onMessage, .handle _ _ _ | .callback _ .onClose, .handle _ _ _ => True
  | .callback _ .onWriteComplate, .runFunctor _ _ => True
  | .functor _ _ _, .runFunctor _ _ => True
  | _, _ => False

theorem return_trace (s : Server) (L : Nat) (c : ConnId) (w : WriteResult) (rest : Rest) :
    ∃ os, (s.return_ L c w rest).trace = s.trace ++ os ∧ ∀ o ∈ os, o.By (.return_ L w) := by
  have htest : ∀ t : Server, t.trace = s.trace →
      ∃ os, (t.testOut c w).trace = s.trace ++ os ∧ ∀ o ∈ os, o.By (.return_ L w) := by
    intro t ht
    refine ⟨_, by rw [testOut_trace, ht], fun o ho => ?_⟩
    rcases List.mem_cons.mp ho with rfl | ho
    · trivial
    · split at ho <;> simp at ho
      rw [ho]
      trivial
  cases rest with
  | connected | established | completed => exact ⟨[], by simp [return_, setFrame, setLoop], by simp⟩
  | read => exact htest _ rfl
  | closed called =>
    simp only [return_]
    split
    · exact htest _ rfl
    · exact htest _ rfl

theorem step_shows {s u : Server} {l : Label} (h : step s l = some u) :
    ∃ os, u.trace = s.trace ++ os ∧ ∀ o ∈ os, o.By l := by
  have hnone : ∀ {t : Server}, t.trace = s.trace → ∃ os, t.trace = s.trace ++ os ∧ ∀ o ∈ os, o.By l :=
    fun ht => ⟨[], by simpa using ht, by simp⟩
  cases l with
  | poll L events =>
    obtain ⟨-, rfl⟩ := Machine.guard_some.mp h
    exact hnone (s.setRevents_trace events)
  | accept fd =>
    obtain ⟨rest, -, -, -, rfl⟩ := accept_inv h
    exact ⟨[.accepted fd s.size], accept_trace _ fd, by simp [Obs.By]⟩
  | statement =>
    obtain ⟨c, stage, -, -, rfl⟩ := statement_inv h
    refine ⟨_, s.statement_trace c stage, fun o ho => ?_⟩
    split at ho <;> simp at ho
    rw [ho]
    trivial
  | handle L res w =>
    obtain ⟨c, rest, -, -, hmoves⟩ := handle_moves h
    obtain ⟨os, htrace, hos⟩ := hmoves.shows
    refine ⟨os, htrace, fun o ho => ?_⟩
    rcases hos o ho with ⟨alive, rfl⟩ | ⟨k, ready, rfl⟩ | rfl | rfl
    · trivial
    · trivial
    · trivial
    · trivial
  | return_ L w =>
    obtain ⟨c, rest, -, -, -, rfl⟩ := return_inv h
    exact s.return_trace L c w rest
  | act L a =>
    obtain ⟨arg, -, -, -, -, rfl⟩ := act_inv h
    exact hnone (s.act_trace _ a)
  | foreign a =>
    obtain ⟨-, rfl⟩ := Machine.guard_some.mp h
    exact hnone (s.act_trace _ a)
  | swap L =>
    obtain ⟨-, rfl⟩ := Machine.guard_some.mp h
    exact hnone rfl
  | runFunctor L w =>
    obtain ⟨f, rest, -, -, rfl⟩ := runFunctor_inv h
    cases f with
    | connectEstablished c =>
      refine ⟨_, connectEstablished_trace _ L c _, fun o ho => ?_⟩
      split at ho <;> simp at ho
      rw [ho]
      trivial
    | bound c f =>
      obtain ⟨os, htrace, hos⟩ := bound_trace (s.takeFunctor L (.bound c f) rest) L w c f
      refine ⟨_, htrace, fun o ho => ?_⟩
      rcases List.mem_cons.mp ho with rfl | ho
      · trivial
      · rcases hos with rfl | ⟨d, -, -, rfl⟩
        · cases ho
        · rw [List.mem_singleton.mp ho]
          trivial
  | endBatch L =>
    obtain ⟨-, rfl⟩ := Machine.guard_some.mp h
    exact hnone rfl

theorem step_mem {s u : Server} {l : Label} (h : step s l = some u) {o : Obs} (ho : ¬ o.By l) (hmem : o ∈ u.trace) :
    o ∈ s.trace := by
  obtain ⟨os, htrace, hos⟩ := step_shows h
  rw [htrace, List.mem_append] at hmem
  exact hmem.resolve_right fun hnew => ho (hos o hnew)

end Muduo.Server
