import Muduo.Connection.Interest
import Muduo.Potential
import Muduo.Simulation

/-! # The end of a period of writing

While the kernel accepts something, `handleWrite` empties `_outBuf` in at most as many calls as there are bytes in it.
-/

namespace Muduo

namespace Watch

/-- `handleWrite` is called, and the kernel accepts something. -/
def Accepts : Link.Event → Prop
  | .handleWrite (.ok k) => 0 < k ∧ k < 0x80000000
  | _ => False

/-- How many bytes wait. -/
def backlog (s : Watch) : Nat := s.link.conn.outBuf.content.length

section

variable {s t u : Watch} {e : Link.Event}

theorem accepts_inv (h : Accepts e) : ∃ k, e = .handleWrite (.ok k) ∧ 0 < k ∧ k < 0x80000000 := by
  cases e with
  | sendInLoop message w => cases h
  | handleWrite w =>
    cases w with
    | ok k => exact ⟨k, rfl, h⟩
    | error => cases h
  | handleRead res => cases h

theorem accepts_moves {k : Nat} (h : Asks s.link.conn s.ctl) (hk : 0 < k) (hint : k < 0x80000000)
    (hpos : s.link.Possible (.handleWrite (.ok k))) :
    (Link.acceptedBytes (effects s.link (.handleWrite (.ok k)))).length = k ∧
      (s.next (.handleWrite (.ok k))).backlog + k = s.backlog := by
  have hle : k ≤ s.backlog := by
    rw [backlog, ← WfBuffer.readableBytes_eq]
    exact hpos
  have hwriting : s.link.conn.pSocketChannel.isWriting = true := by
    rw [h.writing]
    exact List.ne_nil_of_length_pos (lt_of_lt_of_le hk hle)
  have hn : (WriteResult.ok k).n = k := Link.toInt_of_lt hint
  have hsize : toSize (k : Int) = k := by
    have := Link.toSize_of_nonneg (Int.natCast_nonneg k) (by omega)
    omega
  obtain ⟨-, htaken, hcontent⟩ := Link.handleWrite_writing hwriting (.ok k)
  rw [hn, hsize, if_pos (by omega)] at hcontent
  have hleft : (s.next (.handleWrite (.ok k))).backlog = s.backlog - k := by
    rw [backlog, backlog, ← List.length_drop, ← hcontent]
    rfl
  refine ⟨?_, by omega⟩
  rw [effects, htaken, WriteResult.accepted, List.length_take]
  exact Nat.min_eq_left hle

theorem accepts_lower (h : Asks s.link.conn s.ctl) (he : Accepts e) (hstep : step s e = some u) :
    u.backlog < s.backlog := by
  obtain ⟨hpos, rfl⟩ := Machine.guard_some.mp hstep
  obtain ⟨k, rfl, hk, hint⟩ := accepts_inv he
  have hmoves := (accepts_moves h hk hint hpos).2
  omega

theorem atRest_iff : Machine.AtRest step Accepts s ↔ ¬ s.Waiting := by
  constructor
  · intro hrest hwaits
    have hpos : s.link.Possible (.handleWrite (.ok 1)) := by
      rw [Link.Possible, WriteResult.Possible, WfBuffer.readableBytes_eq]
      exact List.length_pos_iff.mpr hwaits
    have hnone := hrest (.handleWrite (.ok 1)) ⟨by decide, by decide⟩
    rw [step, if_pos hpos] at hnone
    cases hnone
  · intro hempty e he
    obtain ⟨k, rfl, hk, -⟩ := accepts_inv he
    refine if_neg fun hpos => ?_
    rw [Link.Possible, WriteResult.Possible, WfBuffer.readableBytes_eq, not_not.mp hempty] at hpos
    exact absurd hk (Nat.not_lt.mpr hpos)

theorem accepts_conserved (h : s.link.Conserved) (he : Accepts e) (hstep : step s e = some u) : u.link.Conserved := by
  obtain ⟨hpos, rfl⟩ := Machine.guard_some.mp hstep
  refine (Link.next_exact h e hpos).mpr ?_
  obtain ⟨k, rfl, -, hint⟩ := accepts_inv he
  rintro - k' hk'
  cases hk'
  exact hint

theorem accepts_sent (he : Accepts e) (hstep : step s e = some u) : u.link.sent = s.link.sent := by
  obtain ⟨-, rfl⟩ := Machine.guard_some.mp hstep
  obtain ⟨k, rfl, -⟩ := accepts_inv he
  exact List.append_nil _

theorem accepts_completions {es : List Link.Event} (h : Asks s.link.conn s.ctl) (hwaits : s.Waiting)
    (hes : ∀ e ∈ es, Accepts e) (hrun : Machine.run step s es = some u) :
    u.completions = s.completions + if u.link.conn.outBuf.content = [] then 1 else 0 := by
  induction es generalizing s with
  | nil =>
    rw [Machine.run_nil, Option.some.injEq] at hrun
    subst hrun
    rw [if_neg hwaits, Nat.add_zero]
  | cons e es ih =>
    obtain ⟨t, ht, hrest⟩ := Machine.run_cons_some.mp hrun
    obtain ⟨hasks, hcompletions⟩ := step_settles h ht
    have hone := hcompletions (Or.inl hwaits)
    by_cases hmore : t.Waiting
    · rw [ih hasks hmore (fun e he => hes e (List.mem_cons_of_mem _ he)) hrest, hone, if_neg hmore, Nat.add_zero]
    · -- Nothing is left, so this was the last call.
      cases es with
      | nil =>
        rw [Machine.run_nil, Option.some.injEq] at hrest
        exact hrest ▸ hone
      | cons e' es =>
        obtain ⟨v, hv, -⟩ := Machine.run_cons_some.mp hrest
        rw [atRest_iff.mpr hmore e' (hes e' (by simp))] at hv
        cases hv

end

/-- From every state of an open connection in which bytes wait, calls of `handleWrite` that write something come to an
end within as many calls as bytes wait. At the end everything that was sent is accepted, `EPOLLOUT` is off, and one
`onWriteComplateCB` has been queued. -/
theorem writes_drain (sockfd : Int) (events : List Link.Event) (s : Watch)
    (hrun : Machine.run step (init sockfd) events = some s)
    (hexact : Machine.Meets step (fun s e => s.link.Exact e) (init sockfd) events) (hwaits : s.Waiting) :
    (∃ es u, (∀ e ∈ es, Accepts e) ∧ Machine.run step s es = some u ∧ Machine.AtRest step Accepts u) ∧
    ∀ es u, (∀ e ∈ es, Accepts e) → Machine.run step s es = some u →
      es.length + u.backlog ≤ s.backlog ∧
      (Machine.AtRest step Accepts u → u.link.accepted = s.link.sent ∧ u.ctl.events &&& EPOLLOUT = 0 ∧
        u.completions = s.completions + 1) := by
  have hasks := run_asks hrun
  have hconserved : s.link.Conserved :=
    Machine.run_invariant_of_meets (I := fun s => s.link.Conserved) (C := fun s e => s.link.Exact e)
      (fun t e v ht he hstep => by
        obtain ⟨hpos, rfl⟩ := Machine.guard_some.mp hstep
        exact (Link.next_exact ht e hpos).mpr he)
      (Link.init_conserved sockfd) hexact hrun
  have hkeep : ∀ t e v, Asks t.link.conn t.ctl → step t e = some v → Asks v.link.conn v.ctl :=
    fun t e v ht hstep => (step_settles ht hstep).1
  have hlower : ∀ t e v, Asks t.link.conn t.ctl → Accepts e → step t e = some v → v.backlog < t.backlog :=
    fun t e v ht he hstep => accepts_lower ht he hstep
  refine ⟨Machine.exists_rest hkeep hlower hasks, fun es u hes hdrain => ?_⟩
  refine ⟨Machine.length_le_potential hkeep hlower hasks hes hdrain, fun hrest => ?_⟩
  have hempty : u.link.conn.outBuf.content = [] := not_not.mp (atRest_iff.mp hrest)
  have hmeets : Machine.Meets step (fun _ e => Accepts e) s es := Machine.meets_of_forall hes
  obtain ⟨hend, hsent⟩ : u.link.Conserved ∧ u.link.sent = s.link.sent :=
    Machine.run_invariant_of_meets (I := fun t => t.link.Conserved ∧ t.link.sent = s.link.sent)
      (fun t e v ht he hstep => ⟨accepts_conserved ht.1 he hstep, (accepts_sent he hstep).trans ht.2⟩)
      ⟨hconserved, rfl⟩ hmeets hdrain
  have hstill := Machine.run_invariant hkeep hasks hdrain
  refine ⟨?_, ?_, ?_⟩
  · rw [← hsent, ← hend.2, hempty, List.append_nil]
  · have hidle : u.link.conn.pSocketChannel.isWriting ≠ true := fun hwriting => hstill.writing.mp hwriting hempty
    rw [hstill.events]
    simpa [Channel.isWriting] using hidle
  · rw [accepts_completions hasks hwaits hes hdrain, if_pos hempty]

/-- A direct write leaves two bytes, and two calls write one each. -/
theorem writes_drain_two : ∃ s, Machine.run step (init 3) [.sendInLoop [1, 2, 3] (.ok 1)] = some s ∧
    ∃ es u, (∀ e ∈ es, Accepts e) ∧ Machine.run step s es = some u ∧ Machine.AtRest step Accepts u := by
  have hwaits : (Machine.run step (init 3) [.sendInLoop [1, 2, 3] (.ok 1)]).map
      (fun s => decide (s.link.conn.outBuf.content ≠ [])) = some true := by decide +kernel
  obtain ⟨s, hrun, hs⟩ := Option.map_eq_some_iff.mp hwaits
  have hleft : s.link.conn.outBuf.content ≠ [] := of_decide_eq_true hs
  exact ⟨s, hrun, (writes_drain 3 _ s hrun (by decide +kernel) hleft).1⟩

end Watch

end Muduo
