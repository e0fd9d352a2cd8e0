import Muduo.Server.Trace

/-! # The order of callbacks

What a handler needs of its connection so that `onConnection` comes first.
-/

namespace Muduo.Server

/-- The callbacks for `c`, in order. -/
def callbacks (c : ConnId) (trace : List Obs) : List Callback :=
  trace.filterMap fun
    | .callback d cb => if d = c then some cb else none
    | _ => none

/-- A callback for `c` has been called. -/
def established (s : Server) (c : ConnId) : Bool := callbacks c s.trace != []

/-- The first callback for a connection is `onConnection`, and `handleRead` and `handleClose` find its user
and its close callback set. -/
def FirstIn (trace : List Obs) : Prop :=
  (∀ c, ∀ cb ∈ (callbacks c trace).head?, cb = .onConnection) ∧ ∀ c h, .handler c h false ∈ trace → h = .handleWrite

def ConnectionFirst (s : Server) : Prop := FirstIn s.trace

/-! ## Traces -/

/-- What may come next without breaking the order. -/
def Obs.Fine (trace : List Obs) : Obs → Prop
  | .callback c cb => cb = .onConnection ∨ callbacks c trace ≠ []
  | .handler _ h ready => ready = true ∨ h = .handleWrite
  | _ => True

theorem callbacks_append (c : ConnId) (trace os : List Obs) :
    callbacks c (trace ++ os) = callbacks c trace ++ callbacks c os := List.filterMap_append

theorem established_iff {s : Server} {c : ConnId} : s.established c = true ↔ callbacks c s.trace ≠ [] := by
  simp [established]

theorem established_mono {s u : Server} {os : List Obs} (htrace : u.trace = s.trace ++ os) {c : ConnId}
    (h : s.established c = true) : u.established c = true := by
  rw [established_iff] at h ⊢
  rw [htrace, callbacks_append]
  exact List.append_ne_nil_of_left_ne_nil h _

theorem firstIn_snoc {trace : List Obs} {o : Obs} : FirstIn (trace ++ [o]) ↔ FirstIn trace ∧ o.Fine trace := by
  constructor
  · rintro ⟨hfirst, hready⟩
    refine ⟨⟨fun c cb hcb => ?_, fun c h hmem => hready c h (List.mem_append_left _ hmem)⟩, ?_⟩
    · refine hfirst c cb ?_
      rw [callbacks_append, List.head?_append]
      rw [Option.mem_def] at hcb ⊢
      rw [hcb]
      rfl
    · cases o with
      | callback c cb =>
        by_cases hnone : callbacks c trace = []
        · refine Or.inl (hfirst c cb ?_)
          rw [callbacks_append, hnone]
          simp [callbacks]
        · exact Or.inr hnone
      | handler c h ready =>
        cases ready with
        | false => exact Or.inr (hready c h (by simp))
        | true => exact Or.inl rfl
      | accepted | consulted | functor => trivial
  · rintro ⟨⟨hfirst, hready⟩, hfine⟩
    refine ⟨fun c cb hcb => ?_, fun c h hmem => ?_⟩
    · rw [callbacks_append, List.head?_append] at hcb
      cases hhead : (callbacks c trace).head? with
      | some first =>
        rw [hhead] at hcb
        exact hfirst c cb (hhead.trans hcb)
      | none =>
        rw [hhead] at hcb
        rw [List.head?_eq_none_iff] at hhead
        cases o with
        | callback d new =>
          by_cases hd : d = c
          · subst hd
            have hnew : new = cb := by simpa [callbacks] using hcb
            exact hnew ▸ hfine.resolve_right fun h => h hhead
          · simp [callbacks, hd] at hcb
        | accepted | consulted | handler | functor => simp [callbacks] at hcb
    · rcases List.mem_append.mp hmem with hmem | hmem
      · exact hready c h hmem
      · rw [List.mem_singleton] at hmem
        subst hmem
        exact hfine.resolve_left (by simp)

theorem firstIn_fine {trace : List Obs} {o : Obs} (h : o.Fine trace) : FirstIn (trace ++ [o]) ↔ FirstIn trace :=
  firstIn_snoc.trans (and_iff_left h)

theorem observe_consulted_first (s : Server) (c : ConnId) (alive : Bool) :
    (s.observe (.consulted c alive)).ConnectionFirst ↔ s.ConnectionFirst := firstIn_snoc.trans (and_iff_left trivial)

theorem established_observe {s : Server} {o : Obs} (ho : ∀ c cb, o ≠ .callback c cb) (c : ConnId) :
    (s.observe o).established c = s.established c := by
  have hnone : callbacks c [o] = [] := by
    cases o with
    | callback d cb => exact absurd rfl (ho d cb)
    | accepted | consulted | handler | functor => rfl
  rw [established, established, observe, callbacks_append, hnone, List.append_nil]

/-! ## Events -/

theorem setTcp_ready (s : Server) (c : ConnId) (tcp : TcpConnection) :
    (s.setTcp c tcp).ready c = (tcp.pUser && tcp.closeCallback) := by simp [ready, setTcp, setConn]

theorem testOut_first (s : Server) (c : ConnId) (w : WriteResult) :
    (s.testOut c w).ConnectionFirst ↔ s.ConnectionFirst := by
  refine Iff.trans ?_ (s.observe_consulted_first c (s.alive c))
  unfold ConnectionFirst
  rw [testOut_trace, List.append_cons]
  split
  · exact firstIn_fine (Or.inr rfl)
  · rw [List.append_nil]
    rfl

theorem bound_first {s : Server} {c : ConnId} (hest : ∀ d, s.pointee c = some d → s.established d = true) (L : Nat)
    (w : WriteResult) (f : Functor) : (s.runFunctor L w (.bound c f)).ConnectionFirst ↔ s.ConnectionFirst := by
  have hshown : FirstIn (s.trace ++ [.functor c f (s.alive c)]) ↔ FirstIn s.trace := firstIn_fine trivial
  obtain ⟨os, htrace, hos⟩ := s.bound_trace L w c f
  unfold ConnectionFirst
  rw [htrace, List.append_cons]
  rcases hos with rfl | ⟨d, hd, -, rfl⟩
  · rw [List.append_nil]
    exact hshown
  · have hcalled : callbacks d (s.trace ++ [.functor c f (s.alive c)]) ≠ [] := by
      rw [callbacks_append]
      exact List.append_ne_nil_of_left_ne_nil (established_iff.mp (hest d hd)) _
    exact (firstIn_fine (o := .callback d .onWriteComplate) (Or.inr hcalled)).trans hshown

section

variable {s : Server} {c : ConnId} (hset : s.ready c = true → (s.conn c).shared = true ∧ (s.conn c).tcp.pUser = true)

include hset

theorem handleClose_first (L : Nat) : (s.handleClose L c).ConnectionFirst ↔
    s.ConnectionFirst ∧ s.ready c = true ∧ s.established c = true := by
  unfold ConnectionFirst
  rw [handleClose_trace, List.append_cons]
  have hhandler : (Obs.handler c .handleClose (s.ready c)).Fine s.trace ↔ s.ready c = true := by simp [Obs.Fine]
  by_cases hready : s.ready c = true
  · have hcallback : (Obs.callback c .onClose).Fine (s.trace ++ [.handler c .handleClose (s.ready c)]) ↔
        s.established c = true := by
      rw [established_iff, Obs.Fine, callbacks_append]
      simp [callbacks]
    rw [(hset hready).1, (hset hready).2, Bool.true_and, if_pos rfl, firstIn_snoc, firstIn_snoc, hhandler, hcallback]
    tauto
  · refine iff_of_false (fun h => hready ?_) fun h => hready h.2.1
    split at h
    · exact hhandler.mp (firstIn_snoc.mp (firstIn_snoc.mp h).1).2
    · rw [List.append_nil] at h
      exact hhandler.mp (firstIn_snoc.mp h).2

theorem onMessage_first (L : Nat) (hready : s.ready c = true) :
    (s.onMessage L c).ConnectionFirst ↔ s.ConnectionFirst ∧ s.established c = true := by
  unfold ConnectionFirst
  have hcallback : (Obs.callback c .onMessage).Fine s.trace ↔ s.established c = true := by
    rw [established_iff, Obs.Fine]
    simp
  rw [onMessage_trace, (hset hready).1, (hset hready).2, Bool.true_and, if_pos rfl, firstIn_snoc, hcallback]

end

theorem handleRead_first {s : Server} {c : ConnId}
    (hset : s.ready c = true → (s.conn c).shared = true ∧ (s.conn c).tcp.pUser = true) (L : Nat)
    (res : Buffer.ReadResult) (w : WriteResult) : (s.handleRead L c res w).ConnectionFirst ↔
      s.ConnectionFirst ∧ s.ready c = true ∧
        (s.established c = true ∨ ((s.conn c).tcp.handleRead res).2 = .nothing) := by
  have hread : (s.observe (.handler c .handleRead (s.ready c))).ConnectionFirst ↔
      s.ConnectionFirst ∧ s.ready c = true := by
    refine firstIn_snoc.trans (and_congr_right fun _ => ?_)
    simp [Obs.Fine]
  have hest : (s.observe (.handler c .handleRead (s.ready c))).established c = s.established c :=
    established_observe (by simp) c
  rw [handleRead_eq]
  split
  · rename_i tcp hresult
    have hkeeps := TcpConnection.handleRead_keeps hresult
    have htcp : (((s.observe (.handler c .handleRead (s.ready c))).setTcp c tcp).conn c) = { s.conn c with tcp } := by
      simp [setTcp, setConn, observe]
    have hsame : ((s.observe (.handler c .handleRead (s.ready c))).setTcp c tcp).ready c = s.ready c := by
      refine (setTcp_ready _ c tcp).trans ?_
      rw [hkeeps.pUser, hkeeps.closeCallback, ready]
    have hfirst : ((s.observe (.handler c .handleRead (s.ready c))).setTcp c tcp).ConnectionFirst ↔
        s.ConnectionFirst ∧ s.ready c = true := hread
    simp only [hresult, reduceCtorEq, or_false]
    by_cases hready : s.ready c = true
    · rw [onMessage_first (fun _ => ?_) L (hsame.trans hready), hfirst]
      · rw [show ((s.observe (.handler c .handleRead (s.ready c))).setTcp c tcp).established c = _ from hest]
        tauto
      · rw [htcp]
        exact ⟨(hset hready).1, hkeeps.pUser.trans (hset hready).2⟩
    · refine iff_of_false (fun h => ?_) fun h => hready h.2.1
      unfold ConnectionFirst at h
      rw [onMessage_trace] at h
      split at h
      · exact hready (hfirst.mp (firstIn_snoc.mp h).1).2
      · rw [List.append_nil] at h
        exact hready (hfirst.mp h).2
  · rename_i tcp hresult
    have hclose := handleClose_first (s := s.observe (.handler c .handleRead (s.ready c))) (c := c) hset L
    rw [hclose, hread, hest, hresult]
    simp only [reduceCtorEq, or_false]
    rw [show (s.observe (.handler c .handleRead (s.ready c))).ready c = s.ready c from rfl]
    tauto
  · rename_i tcp hresult
    rw [testOut_first, hread, hresult]
    simp

theorem testIn_first {s : Server} {c : ConnId}
    (hset : s.ready c = true → (s.conn c).shared = true ∧ (s.conn c).tcp.pUser = true) (halive : s.alive c = true)
    (L : Nat) (res : Buffer.ReadResult) (w : WriteResult) : (s.testIn L c res w).ConnectionFirst ↔
      s.ConnectionFirst ∧ ((s.revents c &&& EPOLLIN != 0) = true →
        s.ready c = true ∧ (s.established c = true ∨ ((s.conn c).tcp.handleRead res).2 = .nothing)) := by
  have hconsult := s.observe_consulted_first c (s.alive c)
  have hest : (s.observe (.consulted c (s.alive c))).established c = s.established c :=
    established_observe (by simp) c
  rw [testIn_eq, if_pos halive]
  split
  · rename_i hin
    rw [forall_prop_of_true hin, handleRead_first (s := s.observe (.consulted c (s.alive c))) hset L res w,
      hest, hconsult]
    rfl
  · rename_i hin
    rw [testOut_first, forall_prop_of_false hin, and_true]
    exact hconsult

theorem handleEvent_first {s : Server} {c : ConnId}
    (hset : s.ready c = true → (s.conn c).shared = true ∧ (s.conn c).tcp.pUser = true) (halive : s.alive c = true)
    (L : Nat) (res : Buffer.ReadResult) (w : WriteResult) : (s.handleEvent L c res w).ConnectionFirst ↔
      s.ConnectionFirst ∧
        ((s.revents c &&& EPOLLHUP != 0 && s.revents c &&& EPOLLIN == 0) = true →
          s.ready c = true ∧ s.established c = true) ∧
        ((s.revents c &&& EPOLLIN != 0) = true →
          s.ready c = true ∧ (s.established c = true ∨ ((s.conn c).tcp.handleRead res).2 = .nothing)) := by
  have hconsult := s.observe_consulted_first c (s.alive c)
  have hest : (s.observe (.consulted c (s.alive c))).established c = s.established c :=
    established_observe (by simp) c
  rw [handleEvent_eq, if_pos halive]
  split
  · rename_i hhup
    have hin : ¬(s.revents c &&& EPOLLIN != 0) = true := by
      simp only [Bool.and_eq_true, beq_iff_eq] at hhup
      simp [hhup.2]
    rw [handleClose_first (s := s.observe (.consulted c (s.alive c))) hset L,
      hconsult, hest, forall_prop_of_true hhup,
      forall_prop_of_false hin, and_true]
    rfl
  · rename_i hhup
    rw [testIn_first (s := s.observe (.consulted c (s.alive c))) hset halive L res w, hconsult, hest,
      forall_prop_of_false hhup, true_and]
    rfl

theorem handleEvent_dead {s : Server} {c : ConnId} (hdead : s.alive c = false) (L : Nat) (res : Buffer.ReadResult)
    (w : WriteResult) : (s.handleEvent L c res w).ConnectionFirst ↔ s.ConnectionFirst := by
  rw [handleEvent_eq, if_neg (by simp [hdead])]
  exact s.observe_consulted_first c _

end Muduo.Server
