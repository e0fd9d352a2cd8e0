import Muduo.Server.Steps

/-! # Owners

How many references there are to a connection, and which of them a step gives up.
-/

namespace Muduo.Server

/-! ## Counting -/

theorem alive_iff {s : Server} {c : ConnId} : s.alive c = true ↔
    s.connections (s.fd c) = some c ∨ 0 < (s.conn c).held ∨ ∃ L, L ≤ s.n ∧ 0 < (s.loops L).holds c := by
  have hsum : 0 < ((List.range (s.n + 1)).map fun L => (s.loops L).holds c).sum ↔
      ∃ L, L ≤ s.n ∧ 0 < (s.loops L).holds c := by
    rw [List.sum_pos_iff_exists_pos_nat]
    simp only [List.mem_map, List.mem_range, exists_exists_and_eq_and, Nat.lt_succ_iff]
  rw [alive, decide_eq_true_iff, owners]
  split
  · rename_i h
    simp only [h, true_or, iff_true]
    omega
  · rename_i h
    rw [← hsum]
    simp only [h, false_or]
    omega

theorem holds_bound (c d : ConnId) (fs : List Functor) :
    ((fs.map (Queued.bound c)).map (Queued.holds d)).sum = 0 := by
  induction fs with
  | nil => rfl
  | cons f fs ih => simpa [Queued.holds] using ih

theorem holds_none {c : ConnId} {qs : List Queued} (h : .connectEstablished c ∉ qs) :
    (qs.map (Queued.holds c)).sum = 0 := by
  refine List.sum_eq_zero_iff_forall_eq_nat.mpr fun k hk => ?_
  obtain ⟨q, hq, rfl⟩ := List.mem_map.mp hk
  cases q with
  | connectEstablished d =>
    have hd : d ≠ c := fun heq => h (heq ▸ hq)
    simp [Queued.holds, hd]
  | bound d f => rfl

theorem alive_congr {s u : Server} {c : ConnId} (h : u.owners c = s.owners c) : u.alive c = s.alive c := by
  rw [alive, alive, h]

theorem owners_congr {s u : Server} {c : ConnId} (hn : u.n = s.n) (hconn : u.connections = s.connections)
    (hfd : u.fd c = s.fd c) (hheld : (u.conn c).held = (s.conn c).held)
    (hholds : ∀ L, (u.loops L).holds c = (s.loops L).holds c) : u.owners c = s.owners c := by
  rw [owners, owners, hn, hconn, hfd, hheld]
  simp only [hholds]

theorem sum_update (f : Nat → Nat) {L k : Nat} (hL : L < k) (m : Nat) :
    ((List.range k).map (Function.update f L m)).sum + f L = ((List.range k).map f).sum + m := by
  induction k with
  | zero => omega
  | succ k ih =>
    rw [List.range_succ, List.map_append, List.map_append, List.sum_append, List.sum_append]
    simp only [List.map_cons, List.map_nil, List.sum_cons, List.sum_nil]
    by_cases h : L = k
    · subst h
      have hsame : (List.range L).map (Function.update f L m) = (List.range L).map f := by
        refine List.map_congr_left fun i hi => Function.update_of_ne ?_ _ _
        have := List.mem_range.mp hi
        omega
      rw [hsame, Function.update_self]
      omega
    · have := ih (by omega)
      rw [Function.update_of_ne (Ne.symm h)]
      omega

theorem setLoop_owners (s : Server) {L : Nat} (hL : L ≤ s.n) (lp : Loop) (c : ConnId) :
    (s.setLoop L lp).owners c + (s.loops L).holds c = s.owners c + lp.holds c := by
  have hloops : (fun M => ((s.setLoop L lp).loops M).holds c) =
      Function.update (fun M => (s.loops M).holds c) L (lp.holds c) := by
    funext M
    by_cases hM : M = L
    · subst hM
      simp [setLoop]
    · simp [setLoop, hM]
  have hsum := sum_update (fun M => (s.loops M).holds c) (show L < s.n + 1 by omega) (lp.holds c)
  rw [owners, owners, hloops]
  change (if s.connections (s.fd c) = some c then 1 else 0) + (s.conn c).held + _ + _ = _
  change _ + _ + ((List.range (s.n + 1)).map _).sum + _ = _
  omega

theorem setFrame_owners (s : Server) {L : Nat} (hL : L ≤ s.n) (frame : Frame) (c : ConnId) :
    (s.setFrame L frame).owners c + (s.loops L).frame.holds c = s.owners c + frame.holds c := by
  have h : (s.setFrame L frame).owners c + (s.loops L).holds c = s.owners c + _ :=
    s.setLoop_owners hL { s.loops L with frame } c
  simp only [Loop.holds] at h
  omega

theorem setLoop_same (s : Server) {L : Nat} {lp : Loop} {c : ConnId} (h : lp.holds c = (s.loops L).holds c) :
    (s.setLoop L lp).owners c = s.owners c := by
  refine owners_congr rfl rfl rfl rfl fun M => ?_
  by_cases hM : M = L
  · subst hM
    simpa [setLoop] using h
  · simp [setLoop, hM]

theorem Quiet.owners {c : ConnId} {s u : Server} (h : Quiet c s u) (hfd : u.fd c = s.fd c) (d : ConnId) :
    u.owners d = s.owners d := by
  have hholds : ∀ L, (u.loops L).holds d = (s.loops L).holds d := by
    intro L
    obtain ⟨fs, hfs⟩ := h.loops L
    simp only [hfs, Loop.holds, List.map_append, List.sum_append, holds_bound, Nat.add_zero]
  by_cases hd : d = c
  · subst hd
    exact owners_congr h.n h.connections hfd h.kept.1 hholds
  · have hsame := h.others d hd
    exact owners_congr h.n h.connections (by rw [fd, fd, hsame]) (by rw [hsame]) hholds

theorem called_owners (s : Server) (c : ConnId) {call : Call} (hfd : call.conn.sockfd = s.fd c) (d : ConnId) :
    (s.called c call).owners d = s.owners d :=
  (s.called_quiet c call).owners (by rw [fd, called_tcp, hfd]) d

theorem mayAct_alive {s : Server} {L : Nat} {arg : Option ConnId} {c : ConnId} (hL : L ≤ s.n)
    (hcode : s.userCode L = some arg) (h : arg = some c ∨ 0 < (s.conn c).held) : s.alive c = true := by
  rw [alive_iff]
  rcases h with rfl | hheld
  · obtain ⟨rest, hframe, -⟩ := userCode_arg hcode
    refine Or.inr (Or.inr ⟨L, hL, ?_⟩)
    simp only [Loop.holds, hframe, Frame.holds, if_true]
    omega
  · exact Or.inr (Or.inl hheld)

theorem kept_alive {s : Server} {c : ConnId} (h : none = some c ∨ 0 < (s.conn c).held) : s.alive c = true :=
  alive_iff.mpr (Or.inr (Or.inl (h.resolve_left (by simp))))

end Muduo.Server
