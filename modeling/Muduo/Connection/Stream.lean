import Muduo.Connection.Code

/-!
# The outgoing stream of a connection

`sendInLoop` writes directly and `handleWrite` drains `_outBuf`. Together they keep the stream in
order, as long as no write of `sendInLoop` fails and no count is too large for an `int`.
-/

namespace Muduo

/-- An open connection with what the kernel accepted from it and what was passed to `sendInLoop`. -/
structure Link where
  conn : TcpConnection
  accepted : List Byte
  sent : List Byte
  raised : Bool

namespace Link

inductive Event where
  | sendInLoop (message : List Byte) (w : WriteResult)
  | handleWrite (w : WriteResult)
  | handleRead (res : Buffer.ReadResult)
  deriving DecidableEq, Repr

def init (sockfd : Int) : Link := ⟨(TcpConnection.init sockfd).enableReading.1, [], [], false⟩

/-- What the kernel can do, on messages that a `std::string` can hold. A read that ends in
`handleClose` is left out: the connection is open. -/
def Possible (s : Link) : Event → Prop
  | .sendInLoop message w => message.length < 0x8000000000000000 ∧ w.Possible message.length
  | .handleWrite w => w.Possible s.conn.outBuf.readableBytes
  | .handleRead res => s.conn.inBuf.raw.Allowed (.readFd res) ∧ (s.conn.handleRead res).2 ≠ .handleClose

instance (s : Link) : (e : Event) → Decidable (s.Possible e)
  | .sendInLoop message w =>
    inferInstanceAs (Decidable (message.length < 0x8000000000000000 ∧ w.Possible message.length))
  | .handleWrite w => inferInstanceAs (Decidable (w.Possible s.conn.outBuf.readableBytes))
  | .handleRead res => inferInstanceAs
      (Decidable (s.conn.inBuf.raw.Allowed (.readFd res) ∧ (s.conn.handleRead res).2 ≠ .handleClose))

def acceptedBytes (effects : List Effect) : List Byte :=
  effects.flatMap fun
    | .write data w => w.accepted data
    | _ => []

/-- The link after a call of a member function that was given `message`. -/
def after (s : Link) (message : List Byte) (call : Call) : Link :=
  { conn := call.conn
    accepted := s.accepted ++ acceptedBytes call.effects
    sent := s.sent ++ message
    raised := s.raised || call.raised }

def next (s : Link) : Event → Link
  | .sendInLoop message w => s.after message (s.conn.sendInLoop message w)
  | .handleWrite w => s.after [] (s.conn.handleWrite w)
  | .handleRead res => { s with conn := (s.conn.handleRead res).1 }

def step (s : Link) (e : Event) : Option Link := if s.Possible e then some (s.next e) else none

/-- Every byte sent is accepted or waits in `_outBuf`, in order, and nothing was thrown. -/
def Conserved (s : Link) : Prop :=
  s.raised = false ∧ s.accepted ++ s.conn.outBuf.content = s.sent

/-- The counts survive the conversions to `int`, and a direct write does not fail. -/
def Exact (s : Link) : Event → Prop
  | .sendInLoop message w =>
    if s.conn.outBuf.content = [] then
      ∃ k : Nat, w = .ok k ∧ (k = message.length ∨ (k < 0x80000000 ∧ (k : Int) < toInt message.length))
    else message = [] ∨ 0 < toInt message.length
  | .handleWrite w => s.conn.pSocketChannel.isWriting = true → ∀ k, w = .ok k → k < 0x80000000
  | .handleRead _ => True

instance (s : Link) : (e : Event) → Decidable (s.Exact e)
  | .sendInLoop message .error =>
    decidable_of_iff (s.conn.outBuf.content ≠ [] ∧ (message = [] ∨ 0 < toInt message.length))
      (by by_cases h : s.conn.outBuf.content = [] <;> simp [Exact, h])
  | .sendInLoop message (.ok n) =>
    decidable_of_iff (if s.conn.outBuf.content = [] then
        n = message.length ∨ (n < 0x80000000 ∧ (n : Int) < toInt message.length)
      else message = [] ∨ 0 < toInt message.length) (by simp [Exact])
  | .handleWrite .error => .isTrue (by simp [Exact])
  | .handleWrite (.ok n) =>
    decidable_of_iff (s.conn.pSocketChannel.isWriting = true → n < 0x80000000) (by simp [Exact])
  | .handleRead _ => .isTrue trivial

/-! ## Conversions -/

theorem toInt_of_lt {n : Nat} (h : n < 0x80000000) : toInt n = n := by
  unfold toInt; omega

theorem lt_of_toInt_eq {n : Nat} (h : toInt n = n) : n < 0x80000000 := by
  unfold toInt at h; omega

theorem toInt_le (n : Nat) : toInt n ≤ n := by
  unfold toInt; omega

theorem toSize_of_nonneg {n : Int} (h0 : 0 ≤ n) (h : n < 0x80000000) : (toSize n : Int) = n := by
  unfold toSize; omega

theorem le_toSize_of_neg {n : Int} (h0 : n < 0) (h : -0x80000000 ≤ n) : 0x8000000000000000 ≤ toSize n := by
  unfold toSize; omega

theorem toInt_range (n : Int) : -0x80000000 ≤ toInt n ∧ toInt n < 0x80000000 := by
  unfold toInt; omega

/-! ## `sendInLoop` -/

theorem substr_none {s : List Byte} {pos n : Nat} : substr s pos n = none ↔ s.length < pos := by
  unfold substr
  split <;> simp <;> omega

theorem substr_some {s rest : List Byte} {pos : Nat} (h : substr s pos s.length = some rest) :
    pos ≤ s.length ∧ rest = s.drop pos := by
  unfold substr at h
  split at h
  · rw [Option.some.injEq, List.take_of_length_le (by simp)] at h
    exact ⟨by assumption, h.symm⟩
  · cases h

theorem bufferRest_content (c : TcpConnection) (message : List Byte) (n : Int) :
    ((c.bufferRest message n).raised = true ∧ n < toInt message.length ∧ message.length < toSize n) ∨
    ((c.bufferRest message n).raised = false ∧ n < toInt message.length ∧ toSize n ≤ message.length ∧
      (c.bufferRest message n).conn.outBuf.content = c.outBuf.content ++ message.drop (toSize n)) ∨
    ((c.bufferRest message n).raised = false ∧ toInt message.length ≤ n ∧
      (c.bufferRest message n).conn.outBuf.content = c.outBuf.content) := by
  unfold TcpConnection.bufferRest
  split
  · rename_i hlt
    cases hsub : substr message (toSize n) message.length with
    | none => exact Or.inl ⟨rfl, hlt, substr_none.mp hsub⟩
    | some rest =>
      obtain ⟨hle, rfl⟩ := substr_some hsub
      refine Or.inr (Or.inl ⟨?_, hlt, hle, ?_⟩)
      · simp only; split <;> rfl
      · simp only; split <;> simp
  · exact Or.inr (Or.inr ⟨rfl, by omega, rfl⟩)

theorem bufferRest_effects (c : TcpConnection) (message : List Byte) (n : Int) :
    acceptedBytes (c.bufferRest message n).effects = [] := by
  unfold TcpConnection.bufferRest
  split
  · cases substr message (toSize n) message.length with
    | none => rfl
    | some rest => simp only; split <;> rfl
  · rfl

theorem conserved_after {s : Link} (h : s.Conserved) (message : List Byte) (call : Call) :
    (s.after message call).Conserved ↔ call.raised = false ∧
      acceptedBytes call.effects ++ call.conn.outBuf.content = s.conn.outBuf.content ++ message := by
  obtain ⟨hraised, hstream⟩ := h
  simp only [Conserved, after, hraised, Bool.false_or]
  rw [← hstream, List.append_assoc, List.append_assoc, List.append_cancel_left_eq]

theorem sendInLoop_direct {c : TcpConnection} (h : c.outBuf.content = []) (message : List Byte) (w : WriteResult) :
    (c.sendInLoop message w).conn = (c.bufferRest message w.n).conn ∧
    (c.sendInLoop message w).raised = (c.bufferRest message w.n).raised ∧
    acceptedBytes (c.sendInLoop message w).effects = w.accepted message := by
  have hempty : c.outBuf.readableBytes = 0 := by rw [WfBuffer.readableBytes_eq, h]; rfl
  have hrest := bufferRest_effects c message w.n
  unfold acceptedBytes at hrest ⊢
  rw [TcpConnection.sendInLoop, if_pos hempty]
  refine ⟨Call.behind_conn _ _, Call.behind_raised _ _, ?_⟩
  rw [Call.behind_effects, List.flatMap_append, hrest]
  split <;> simp

theorem sendInLoop_behind {c : TcpConnection} (h : c.outBuf.content ≠ []) (message : List Byte) (w : WriteResult) :
    c.sendInLoop message w = c.bufferRest message 0 := by
  have hfull : ¬ c.outBuf.readableBytes = 0 := by
    rw [WfBuffer.readableBytes_eq]
    exact fun hlen => h (List.eq_nil_of_length_eq_zero hlen)
  rw [TcpConnection.sendInLoop, if_neg hfull]

theorem take_append_drop_iff {message : List Byte} {k n : Nat} (hk : k ≤ message.length) (hn : n ≤ message.length) :
    message.take k ++ message.drop n = message ↔ n = k := by
  constructor
  · intro h
    have hlen := congrArg List.length h
    simp only [List.length_append, List.length_take, List.length_drop] at hlen
    omega
  · rintro rfl
    exact List.take_append_drop _ _

theorem take_eq_self_iff {message : List Byte} {k : Nat} (hk : k ≤ message.length) :
    message.take k = message ↔ k = message.length := by
  constructor
  · intro h
    have hlen := congrArg List.length h
    rw [List.length_take] at hlen
    omega
  · rintro rfl
    exact List.take_length

theorem n_bounds {w : WriteResult} {offered : Nat} (h : w.Possible offered) :
    -0x80000000 ≤ w.n ∧ w.n < 0x80000000 ∧ (0 ≤ w.n → w.n ≤ offered) := by
  cases w with
  | error => simp [WriteResult.n]
  | ok k =>
    have hle := toInt_le k
    obtain ⟨hge, hlt⟩ := toInt_range k
    simp only [WriteResult.n, WriteResult.Possible] at h ⊢
    omega

/-- `message.substr(n, ..)` throws exactly where the direct write left a negative `n`. -/
theorem direct_throws {message : List Byte} {w : WriteResult} (hw : w.Possible message.length)
    (hlen : message.length < 0x8000000000000000) : message.length < toSize w.n ↔ w.n < 0 := by
  obtain ⟨hge, hlt, hle⟩ := n_bounds hw
  constructor
  · intro hbig
    by_contra hn
    have := toSize_of_nonneg (by omega) hlt
    omega
  · intro hneg
    have := le_toSize_of_neg hneg hge
    omega

theorem direct_exact {s : Link} (h : s.Conserved) (hempty : s.conn.outBuf.content = []) (message : List Byte)
    (w : WriteResult) (hlen : message.length < 0x8000000000000000) (hw : w.Possible message.length) :
    (s.after message (s.conn.sendInLoop message w)).Conserved ↔
      ∃ k : Nat, w = .ok k ∧ (k = message.length ∨ (k < 0x80000000 ∧ (k : Int) < toInt message.length)) := by
  obtain ⟨hconn, hraised, htaken⟩ := sendInLoop_direct hempty message w
  have hthrows := direct_throws hw hlen
  rw [conserved_after h, hconn, hraised, htaken, hempty, List.nil_append]
  rcases bufferRest_content s.conn message w.n with ⟨hr, hlt, hbig⟩ | ⟨hr, hlt, hle, hcontent⟩ | ⟨hr, hle, hcontent⟩
  · -- `substr` throws.
    have hneg := hthrows.mp hbig
    constructor
    · intro hc
      rw [hr] at hc
      exact absurd hc.1 (by decide)
    · rintro ⟨k, rfl, rfl | ⟨hk, -⟩⟩
      · exact absurd hlt (by simp [WriteResult.n])
      · rw [WriteResult.n, toInt_of_lt hk] at hneg
        omega
  · -- The rest of the message, from `n` on, is buffered.
    have hnonneg : 0 ≤ w.n := by
      by_contra hn
      have := hthrows.mpr (by omega)
      omega
    have hsize := toSize_of_nonneg hnonneg (n_bounds hw).2.1
    rw [hr, hcontent, hempty, List.nil_append]
    cases w with
    | error => simp [WriteResult.n] at hnonneg
    | ok k =>
      simp only [WriteResult.accepted, WriteResult.Possible, true_and] at hw ⊢
      rw [take_append_drop_iff hw hle]
      simp only [WriteResult.n] at hsize hlt ⊢
      constructor
      · intro hnk
        have hk : toInt k = k := by omega
        exact ⟨k, rfl, Or.inr ⟨lt_of_toInt_eq hk, by omega⟩⟩
      · rintro ⟨k', hkk, hcases⟩
        cases hkk
        rcases hcases with rfl | ⟨hk, -⟩
        · omega
        · have := toInt_of_lt hk
          omega
  · -- Nothing is buffered.
    rw [hr, hcontent, hempty, List.append_nil]
    cases w with
    | error =>
      have hmessage : message ≠ [] := by
        rintro rfl
        simp [WriteResult.n, toInt] at hle
      simp [WriteResult.accepted, Ne.symm hmessage]
    | ok k =>
      simp only [WriteResult.accepted, WriteResult.Possible, true_and, WriteResult.n] at hw hle ⊢
      rw [take_eq_self_iff hw]
      constructor
      · intro hk
        exact ⟨k, rfl, Or.inl hk⟩
      · rintro ⟨k', hkk, hcases⟩
        cases hkk
        rcases hcases with hk | ⟨hk, hlt⟩
        · exact hk
        · have := toInt_of_lt hk
          omega

theorem behind_exact {s : Link} (h : s.Conserved) (hfull : s.conn.outBuf.content ≠ []) (message : List Byte)
    (w : WriteResult) :
    (s.after message (s.conn.sendInLoop message w)).Conserved ↔ message = [] ∨ 0 < toInt message.length := by
  have hsend := sendInLoop_behind hfull message w
  rw [conserved_after h, hsend, bufferRest_effects, List.nil_append]
  have hzero : toSize 0 = 0 := by simp [toSize]
  rcases bufferRest_content s.conn message 0 with ⟨-, -, hbig⟩ | ⟨hr, hlt, -, hcontent⟩ | ⟨hr, hle, hcontent⟩
  · omega
  · rw [hr, hcontent, hzero]
    simp [hlt]
  · rw [hr, hcontent, List.self_eq_append_right]
    constructor
    · rintro ⟨-, hm⟩
      exact Or.inl hm
    · rintro (hm | hm)
      · exact ⟨rfl, hm⟩
      · omega

/-! ## `handleWrite` -/

theorem handleWrite_writing {c : TcpConnection} (h : c.pSocketChannel.isWriting = true) (w : WriteResult) :
    (c.handleWrite w).raised = false ∧ acceptedBytes (c.handleWrite w).effects = w.accepted c.outBuf.content ∧
    (c.handleWrite w).conn.outBuf.content =
      if w.n > 0 then c.outBuf.content.drop (toSize w.n) else c.outBuf.content := by
  rw [TcpConnection.handleWrite, if_pos h]
  split
  · simp only
    split <;> simp [acceptedBytes]
  · simp [acceptedBytes]

theorem handleWrite_idle {c : TcpConnection} (h : ¬ c.pSocketChannel.isWriting = true) (w : WriteResult) :
    c.handleWrite w = ⟨c, [], false⟩ := by
  rw [TcpConnection.handleWrite, if_neg h]

theorem handleWrite_exact {s : Link} (h : s.Conserved) (w : WriteResult)
    (hw : w.Possible s.conn.outBuf.readableBytes) :
    (s.after [] (s.conn.handleWrite w)).Conserved ↔
      (s.conn.pSocketChannel.isWriting = true → ∀ k, w = .ok k → k < 0x80000000) := by
  rw [conserved_after h, List.append_nil]
  by_cases hwriting : s.conn.pSocketChannel.isWriting = true
  · obtain ⟨hraised, htaken, hcontent⟩ := handleWrite_writing hwriting w
    obtain ⟨-, hlt, hle⟩ := n_bounds hw
    rw [hraised, htaken, hcontent]
    rw [WfBuffer.readableBytes_eq] at hw hle
    cases w with
    | error => simp [WriteResult.accepted, WriteResult.n]
    | ok k =>
      by_cases hn : (WriteResult.ok k).n > 0
      · -- `n` bytes leave `_outBuf`, and the kernel has `k`.
        have hsize := toSize_of_nonneg (by omega : 0 ≤ (WriteResult.ok k).n) hlt
        simp only [if_pos hn, hwriting, true_implies, true_and, WriteResult.ok.injEq, forall_eq',
          WriteResult.accepted, WriteResult.Possible] at hw ⊢
        rw [take_append_drop_iff hw (by omega)]
        rw [WriteResult.n] at hsize hn ⊢
        constructor
        · intro hnk
          exact lt_of_toInt_eq (by omega)
        · intro hk
          have := toInt_of_lt hk
          omega
      · -- `n` looks like a failed write, and nothing leaves `_outBuf`.
        simp only [if_neg hn, hwriting, true_implies, true_and, WriteResult.ok.injEq, forall_eq',
          WriteResult.accepted, WriteResult.Possible] at hw ⊢
        rw [List.append_left_eq_self, List.take_eq_nil_iff]
        rw [WriteResult.n] at hn
        constructor
        · rintro (hk | hnil)
          · omega
          · rw [hnil, List.length_nil] at hw
            omega
        · intro hk
          have := toInt_of_lt hk
          exact Or.inl (by omega)
  · rw [handleWrite_idle hwriting]
    simp [acceptedBytes, hwriting]

/-! ## `_inBuf` -/

theorem bufferRest_inBuf (conn : TcpConnection) (message : List Byte) (n : Int) :
    (conn.bufferRest message n).conn.inBuf = conn.inBuf := by
  unfold TcpConnection.bufferRest
  split
  · cases substr message (toSize n) message.length with
    | none => rfl
    | some rest =>
      simp only
      split <;> rfl
  · rfl

theorem sendInLoop_inBuf (conn : TcpConnection) (message : List Byte) (w : WriteResult) :
    (conn.sendInLoop message w).conn.inBuf = conn.inBuf := by
  unfold TcpConnection.sendInLoop
  split
  · rw [Call.behind_conn, bufferRest_inBuf]
  · exact bufferRest_inBuf conn message 0

theorem handleWrite_inBuf (conn : TcpConnection) (w : WriteResult) : (conn.handleWrite w).conn.inBuf = conn.inBuf := by
  unfold TcpConnection.handleWrite
  split
  · simp only
    split
    · split <;> simp
    · simp
  · simp

/-! ## Runs -/

theorem next_exact {s : Link} (h : s.Conserved) (e : Event) (hpos : s.Possible e) :
    (s.next e).Conserved ↔ s.Exact e := by
  cases e with
  | sendInLoop message w =>
    by_cases hempty : s.conn.outBuf.content = []
    · rw [Exact, if_pos hempty]
      exact direct_exact h hempty message w hpos.1 hpos.2
    · rw [Exact, if_neg hempty]
      exact behind_exact h hempty message w
  | handleWrite w => exact handleWrite_exact h w hpos
  | handleRead res =>
    have hout : (s.conn.handleRead res).1.outBuf = s.conn.outBuf := by
      cases res <;> simp only [TcpConnection.handleRead] <;> split <;> rfl
    simp only [Exact, iff_true, next, Conserved, hout]
    exact h

theorem step_exact {s t : Link} {e : Event} (h : s.Conserved) (hstep : step s e = some t) :
    t.Conserved ↔ s.Exact e := by
  unfold step at hstep
  split at hstep
  · rename_i hpos
    cases hstep
    exact next_exact h e hpos
  · cases hstep

theorem init_conserved (sockfd : Int) : (init sockfd).Conserved :=
  ⟨rfl, WfBuffer.content_init Buffer.kInitialSize⟩

/-- In every run of an open connection the stream is conserved after every step, and no step throws,
exactly when every step is exact. -/
theorem outgoing_stream_conserved (sockfd : Int) (events : List Event) (s : Link)
    (hrun : Machine.run step (init sockfd) events = some s) :
    Machine.Always step Conserved (init sockfd) events ↔ Machine.Meets step Exact (init sockfd) events :=
  Machine.always_iff_meets (I := fun _ => True) (fun _ _ _ _ _ _ _ => trivial)
    (fun _ _ _ _ h hstep => step_exact h hstep) trivial (init_conserved sockfd) hrun

theorem init_empty (sockfd : Int) : (init sockfd).conn.outBuf.content = [] :=
  WfBuffer.content_init Buffer.kInitialSize

/-- A direct write that accepts the first of three bytes. -/
theorem outgoing_stream_conserved_partial :
    Machine.Always step Conserved (init 3) [.sendInLoop [1, 2, 3] (.ok 1)] := by
  have hpos : (init 3).Possible (.sendInLoop [1, 2, 3] (.ok 1)) := ⟨by decide, by decide⟩
  have hstep : step (init 3) (.sendInLoop [1, 2, 3] (.ok 1)) = some _ := if_pos hpos
  have hrun : Machine.run step (init 3) [.sendInLoop [1, 2, 3] (.ok 1)] = some _ := hstep
  refine (outgoing_stream_conserved 3 _ _ hrun).mpr ((Machine.meets_cons hstep).mpr ⟨?_, Machine.meets_nil _⟩)
  rw [Exact, if_pos (init_empty 3)]
  exact ⟨1, rfl, Or.inr (by decide)⟩

/-- `::write` fails with `EAGAIN` on an empty `_outBuf`: `message.substr(-1, ..)` throws. -/
theorem failed_write_throws :
    ¬ Machine.Always step Conserved (init 3) [.sendInLoop [104, 105] .error] := by
  have hpos : (init 3).Possible (.sendInLoop [104, 105] .error) := ⟨by decide, by decide⟩
  have hstep : step (init 3) (.sendInLoop [104, 105] .error) = some _ := if_pos hpos
  have hrun : Machine.run step (init 3) [.sendInLoop [104, 105] .error] = some _ := hstep
  intro h
  exact absurd (h _ _ (List.prefix_refl _) hrun).1 (by decide)

end Link
end Muduo
