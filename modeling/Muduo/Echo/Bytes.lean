import Muduo.Buffer.Capacity
import Muduo.Echo.Answers

/-! # The bytes of a connection

Every byte that an echo server reads is in a message, and every byte of a reply is written or waits in `_outBuf`. No
message is longer than one `readFd`, so no count of bytes outgrows an `int`.
-/

namespace Muduo

open Buffer (kMaxRead kCheapPrepend)

theorem WfBuffer.readFd_length {b : WfBuffer} (hfresh : b.raw.Fresh) (data : List Byte) :
    (b.readFd data).raw.buf.length = max b.raw.buf.length (kCheapPrepend + data.length) := by
  obtain ⟨b', h, -⟩ := Buffer.readFd_spec b.wf 0 data
  have hlength := Buffer.readFd_fresh b.wf hfresh h
  simpa [WfBuffer.readFd, h] using hlength

namespace Echo

variable {κ τ : Type*} [DecidableEq κ]

/-- What of these is for connection `c`. -/
def bytesOf (c : κ) (pieces : List (κ × List Byte)) : List Byte :=
  pieces.flatMap fun m => if m.1 = c then m.2 else []

@[simp]
theorem bytesOf_append (c : κ) (pieces later : List (κ × List Byte)) :
    bytesOf c (pieces ++ later) = bytesOf c pieces ++ bytesOf c later := by
  simp [bytesOf]

@[simp]
theorem bytesOf_self (c : κ) (bytes : List Byte) : bytesOf c [(c, bytes)] = bytes := by
  simp [bytesOf]

theorem bytesOf_other {c d : κ} (h : d ≠ c) (bytes : List Byte) : bytesOf c [(d, bytes)] = [] := by
  simp [bytesOf, h]

/-! ## The invariant -/

/-- The input buffer of an open connection between two handlers. -/
structure Emptied (s : Link) : Prop where
  fresh : s.conn.inBuf.raw.Fresh
  length : s.conn.inBuf.raw.buf.length ≤ kCheapPrepend + kMaxRead

/-- Each connection has been given to the user up to its last byte, in messages that are not too long, and its replies
have been passed to the link. -/
structure Streams (s : Echo κ τ) : Prop where
  emptied : ∀ c, Emptied (s.links c)
  read : ∀ c, bytesOf c s.messages = s.received c
  short : ∀ m ∈ s.messages, m.2.length ≤ kMaxRead
  passed : ∀ c, (s.links c).sent = bytesOf c s.replies
  raised : ∀ c, (s.links c).raised = false

/-- Every byte that was passed to a link is written or waits in `_outBuf`. -/
def Conserved (s : Echo κ τ) : Prop := ∀ c, (s.links c).Conserved

theorem Emptied.content {s : Link} (h : Emptied s) : s.conn.inBuf.content = [] := by
  obtain ⟨hr, hw⟩ := h.fresh
  refine List.eq_nil_of_length_eq_zero ?_
  rw [← WfBuffer.readableBytes_eq]
  simp [WfBuffer.readableBytes, Buffer.readableBytes, hr, hw]

theorem drained_emptied {s : Link} (h : s.conn.inBuf.raw.buf.length ≤ kCheapPrepend + kMaxRead) :
    Emptied (drained s) where
  fresh := Buffer.retrieve_fresh _
  length := by
    have hsame : (s.conn.inBuf.raw.retrieve s.conn.inBuf.raw.readableBytes).buf = s.conn.inBuf.raw.buf := by
      unfold Buffer.retrieve
      split <;> rfl
    exact hsame ▸ h

theorem read_spec {s : Link} (h : Emptied s) {res : Buffer.ReadResult} (hpos : s.Possible (.handleRead res)) :
    ((s.conn.handleRead res).2 = .onMessage ∧ (s.conn.handleRead res).1.inBuf.content = read res ∧
      (read res).length ≤ kMaxRead ∧
      (s.conn.handleRead res).1.inBuf.raw.buf.length ≤ kCheapPrepend + kMaxRead) ∨
    ((s.conn.handleRead res).2 = .nothing ∧ (s.conn.handleRead res).1 = s.conn) := by
  obtain ⟨hallowed, hopen⟩ := hpos
  cases res with
  | error errno =>
    right
    simp only [TcpConnection.handleRead] at hopen ⊢
    split at hopen
    · simp_all
    · split at hopen
      · exact absurd rfl hopen
      · simp_all
  | ok data =>
    have hread : data.length ≤ kMaxRead := Nat.le_trans hallowed (Buffer.offered_fresh h.fresh h.length)
    simp only [TcpConnection.handleRead] at hopen ⊢
    split at hopen
    · right
      simp_all
    · rename_i hfd
      left
      split at hopen
      · rename_i hdata
        have hold := h.length
        simp only [hfd, hdata, if_false, if_true, WfBuffer.content_readFd, h.content, List.nil_append, read,
          WfBuffer.readFd_length h.fresh data]
        exact ⟨trivial, trivial, hread, by omega⟩
      · exact absurd rfl hopen

/-! ## The calls -/

variable [DecidableEq τ]

omit [DecidableEq τ] in
theorem streams_congr {s u : Echo κ τ} (h : s.Streams) (hlinks : u.links = s.links)
    (hreceived : u.received = s.received)
    (hmessages : u.messages = s.messages) (hreplies : u.replies = s.replies) : u.Streams := by
  refine ⟨?_, ?_, ?_, ?_, ?_⟩
  · exact hlinks ▸ h.emptied
  · exact hmessages ▸ hreceived ▸ h.read
  · exact hmessages ▸ h.short
  · exact hlinks ▸ hreplies ▸ h.passed
  · exact hlinks ▸ h.raised

theorem forall_update {P : κ → Link → Prop} {links : κ → Link} (h : ∀ d, P d (links d)) {c : κ} {link : Link}
    (hc : P c link) (d : κ) : P d (Function.update links c link d) := by
  by_cases hd : d = c
  · subst hd
    simpa using hc
  · simpa [Function.update_of_ne hd] using h d

theorem after_streams {s : Echo κ τ} (h : s.Streams) {c : κ} {e : Link.Event} {message : List Byte}
    (hraised : ((s.links c).next e).raised = false) (hinBuf : ((s.links c).next e).conn.inBuf = (s.links c).conn.inBuf)
    (hsent : ((s.links c).next e).sent = (s.links c).sent ++ message) {replies : List (κ × List Byte)}
    (hreplies : bytesOf c replies = message) (hothers : ∀ d, d ≠ c → bytesOf d replies = []) :
    Streams { s.after c e with replies := s.replies ++ replies } := by
  refine ⟨?_, h.read, h.short, fun d => ?_, ?_⟩
  · refine forall_update (P := fun _ link => Emptied link) h.emptied ⟨?_, ?_⟩
    · exact hinBuf ▸ (h.emptied c).fresh
    · exact hinBuf ▸ (h.emptied c).length
  · by_cases hd : d = c
    · subst hd
      simp [after, hsent, h.passed, hreplies]
    · simp [after, Function.update_of_ne hd, h.passed, hothers d hd]
  · exact forall_update (P := fun _ link => link.raised = false) h.raised hraised

theorem sendInLoop_streams {s u : Echo κ τ} (h : s.Streams) {c : κ} {message : List Byte} {w : WriteResult}
    (hsend : s.sendInLoop c message w = some u) : u.Streams := by
  obtain ⟨-, hraised, rfl⟩ := sendInLoop_inv hsend
  refine after_streams h hraised (Link.sendInLoop_inBuf _ message w) rfl (bytesOf_self c message) fun d hd => ?_
  exact bytesOf_other (Ne.symm hd) message

theorem handleWrite_streams {s u : Echo κ τ} (h : s.Streams) {c : κ} {w : WriteResult}
    (hcall : s.call c (.handleWrite w) = some u) : u.Streams := by
  obtain ⟨-, hraised, rfl⟩ := call_inv hcall
  have hsent : ((s.links c).next (.handleWrite w)).sent = (s.links c).sent ++ [] := by simp [Link.next, Link.after]
  have hnone : bytesOf c [] = [] := rfl
  have hstreams := after_streams h hraised (Link.handleWrite_inBuf _ w) hsent hnone fun _ _ => rfl
  exact streams_congr hstreams rfl rfl rfl (by simp [after])

theorem retrieve_streams {s : Echo κ τ} (h : s.Streams) {c : κ} {res : Buffer.ReadResult}
    (hcontent : ((s.links c).conn.handleRead res).1.inBuf.content = read res) (hshort : (read res).length ≤ kMaxRead)
    (hlength : ((s.links c).conn.handleRead res).1.inBuf.raw.buf.length ≤ kCheapPrepend + kMaxRead) :
    (retrieve { s.after c (.handleRead res) with
      received := Function.update s.received c (s.received c ++ read res) } c).Streams := by
  have hlinks : (retrieve { s.after c (.handleRead res) with
      received := Function.update s.received c (s.received c ++ read res) } c).links =
        Function.update s.links c (drained ((s.links c).next (.handleRead res))) := by
    simp [retrieve, after]
  have hmessages : (retrieve { s.after c (.handleRead res) with
      received := Function.update s.received c (s.received c ++ read res) } c).messages =
        s.messages ++ [(c, read res)] := by
    rw [messages_retrieve]
    simp [after, Link.next, hcontent]
  refine ⟨?_, fun d => ?_, ?_, ?_, ?_⟩
  · rw [hlinks]
    exact forall_update (P := fun _ link => Emptied link) h.emptied (drained_emptied hlength)
  · rw [hmessages]
    by_cases hd : d = c
    · subst hd
      simp [retrieve, h.read]
    · simp [retrieve, Function.update_of_ne hd, bytesOf_other (Ne.symm hd), h.read]
  · rw [hmessages]
    intro m hm
    rcases List.mem_append.mp hm with hm | hm
    · exact h.short m hm
    · rw [List.mem_singleton.mp hm]
      exact hshort
  · rw [hlinks]
    exact forall_update (P := fun d link => link.sent = bytesOf d s.replies) h.passed (h.passed c)
  · rw [hlinks]
    exact forall_update (P := fun _ link => link.raised = false) h.raised (h.raised c)

theorem handleRead_streams {s u : Echo κ τ} (h : s.Streams) {c : κ} {res : Buffer.ReadResult} {woken : Finset τ}
    {w : WriteResult} (hread : s.handleRead c res woken w = some u) : u.Streams := by
  obtain ⟨hpos, hu⟩ := handleRead_inv hread
  rcases read_spec (h.emptied c) hpos with ⟨hafter, hcontent, hshort, hlength⟩ | ⟨hafter, hsame⟩
  · rcases hu with ⟨hnot, -⟩ | ⟨-, hmessage⟩
    · exact absurd hafter hnot
    · have hstreams := retrieve_streams h hcontent hshort hlength
      obtain ⟨threadpool, -, ⟨-, hsend⟩ | ⟨-, rfl⟩⟩ := onMessage_inv hmessage
      · exact sendInLoop_streams (streams_congr (u := { retrieve _ c with threadpool }) hstreams rfl rfl rfl rfl) hsend
      · exact streams_congr hstreams rfl rfl rfl rfl
  · rcases hu with ⟨-, rfl⟩ | ⟨hmessage, -⟩
    · have hlink : (s.links c).next (.handleRead res) = s.links c := by rw [Link.next, hsame]
      refine streams_congr h ?_ rfl rfl rfl
      rw [after, hlink, Function.update_eq_self]
    · simp [hafter] at hmessage

theorem callFunctor_streams {s u : Echo κ τ} (h : s.Streams) {task : EventLoop.Task (Option τ) (κ × Functor)}
    {w : WriteResult} (hcall : s.callFunctor task w = some u) : u.Streams := by
  obtain ⟨pLoop, -, ⟨message, -, hsend⟩ | ⟨-, rfl⟩⟩ := callFunctor_inv hcall
  · exact sendInLoop_streams (streams_congr (u := { s with pLoop }) h rfl rfl rfl rfl) hsend
  · exact streams_congr h rfl rfl rfl rfl

/-- Steps of the workers and of the loop between its handlers and functors leave the connections alone. -/
def Label.Inner : Label κ τ → Prop
  | .handleRead _ _ _ _ | .handleWrite _ _ | .callFunctor _ _ => False
  | _ => True

theorem inner_same {s u : Echo κ τ} {l : Label κ τ} (hstep : step s l = some u) (hl : l.Inner) :
    u.links = s.links ∧ u.received = s.received ∧ u.messages = s.messages ∧ u.replies = s.replies := by
  have hmap : ∀ {m : ThreadPool.Label τ (κ × List Byte)},
      ((s.threadpool.step m).map fun threadpool => { s with threadpool }) = some u →
        u.links = s.links ∧ u.received = s.received ∧ u.messages = s.messages ∧ u.replies = s.replies := by
    intro m hm
    obtain ⟨threadpool, -, rfl⟩ := Option.map_eq_some_iff.mp hm
    exact ⟨rfl, rfl, rfl, rfl⟩
  cases l with
  | startThread t created => exact hmap (Option.ite_none_right_eq_some.mp hstep).2
  | handleRead | handleWrite | callFunctor => exact hl.elim
  | take t | wake t | resume t => exact hmap hstep
  | send t =>
    obtain ⟨c, msg, pLoop, -, -, -, rfl⟩ := send_inv hstep
    exact ⟨rfl, rfl, rfl, rfl⟩
  | finish t =>
    obtain ⟨-, -, threadpool, -, rfl⟩ := finish_inv hstep
    exact ⟨rfl, rfl, rfl, rfl⟩
  | loop l =>
    obtain ⟨pLoop, -, rfl⟩ := Option.map_eq_some_iff.mp (Option.ite_none_right_eq_some.mp hstep).2
    exact ⟨rfl, rfl, rfl, rfl⟩

theorem step_streams {s u : Echo κ τ} {l : Label κ τ} (h : s.Streams) (hstep : step s l = some u) : u.Streams := by
  cases l with
  | handleRead c res woken w => exact handleRead_streams h (Option.ite_none_right_eq_some.mp hstep).2
  | handleWrite c w => exact handleWrite_streams h (Option.ite_none_right_eq_some.mp hstep).2
  | callFunctor task w => exact callFunctor_streams h hstep
  | startThread | take | wake | resume | send | finish | loop =>
    obtain ⟨hlinks, hreceived, hmessages, hreplies⟩ := inner_same hstep trivial
    exact streams_congr h hlinks hreceived hmessages hreplies

omit [DecidableEq τ] in
theorem init_streams (sockfd : κ → Int) : (init sockfd : Echo κ τ).Streams where
  emptied := fun _ => ⟨⟨rfl, rfl⟩, by simp [init, Link.init, TcpConnection.enableReading, TcpConnection.init,
    WfBuffer.init, Buffer.init, Buffer.kInitialSize, kMaxRead, Buffer.sizeofExtrabuf]⟩
  read := fun _ => rfl
  short := by simp [init]
  passed := fun _ => rfl
  raised := fun _ => rfl

theorem run_streams {sockfd : κ → Int} {labels : List (Label κ τ)} {s : Echo κ τ}
    (hrun : Machine.run step (init sockfd) labels = some s) : s.Streams :=
  Machine.run_invariant (fun _ _ _ h hstep => step_streams h hstep) (init_streams sockfd) hrun

/-! ## What is written -/

/-- The writes of `sendInLoop` do not fail, and no count of `handleWrite` outgrows an `int`. -/
def Label.Healthy : Label κ τ → Prop
  | .handleRead _ _ _ w | .callFunctor _ w => ∃ k, w = .ok k
  | .handleWrite _ w => ∀ k, w = .ok k → k < 0x80000000
  | _ => True

/-- What waits for `sendInLoop` is an answer to a message. -/
def Answers (s : Echo κ τ) : Prop := ∀ o ∈ s.queued, o ∈ s.messages.map answer

theorem echo_short {msg : List Byte} (h : msg.length ≤ kMaxRead) : echo msg ≠ [] ∧ (echo msg).length < 0x80000000 := by
  simp only [echo, kMaxRead, Buffer.sizeofExtrabuf, List.length_append, List.length_singleton] at h ⊢
  exact ⟨by simp, by omega⟩

theorem sendInLoop_conserved {s u : Echo κ τ} (h : s.Conserved) {c : κ} {message : List Byte} {w : WriteResult}
    (hmessage : message ≠ [] ∧ message.length < 0x80000000) (hw : ∃ k, w = .ok k)
    (hsend : s.sendInLoop c message w = some u) : u.Conserved := by
  obtain ⟨hpos, -, rfl⟩ := sendInLoop_inv hsend
  refine forall_update (P := fun _ link => link.Conserved) h ((Link.next_exact (h c) _ hpos).mpr ?_)
  obtain ⟨k, rfl⟩ := hw
  by_cases hempty : (s.links c).conn.outBuf.content = []
  · have hk : k ≤ message.length := hpos.2
    have hlength := hmessage.2
    rw [Link.Exact, if_pos hempty, Link.toInt_of_lt hlength]
    exact ⟨k, rfl, by omega⟩
  · have hne := List.length_pos_iff.mpr hmessage.1
    rw [Link.Exact, if_neg hempty, Link.toInt_of_lt hmessage.2]
    exact Or.inr (by omega)

theorem read_conserved {s : Link} (h : s.Conserved) (res : Buffer.ReadResult) :
    (s.next (.handleRead res)).Conserved ∧ (drained (s.next (.handleRead res))).Conserved := by
  have hout : (s.conn.handleRead res).1.outBuf = s.conn.outBuf := by
    cases res <;> simp only [TcpConnection.handleRead] <;> split <;> rfl
  simp only [Link.Conserved, drained, Link.next, hout]
  exact ⟨h, h⟩

theorem handleRead_conserved {s u : Echo κ τ} (hstreams : s.Streams) (h : s.Conserved) {c : κ}
    {res : Buffer.ReadResult} {woken : Finset τ} {w : WriteResult} (hw : ∃ k, w = .ok k)
    (hread : s.handleRead c res woken w = some u) : u.Conserved := by
  obtain ⟨hkept, hdrained⟩ := read_conserved (h c) res
  obtain ⟨hpos, ⟨-, rfl⟩ | ⟨hafter, hmessage⟩⟩ := handleRead_inv hread
  · exact forall_update (P := fun _ link => link.Conserved) h hkept
  · rcases read_spec (hstreams.emptied c) hpos with ⟨-, hcontent, hshort, -⟩ | ⟨hnothing, -⟩
    · have hretrieved : Conserved (retrieve { s.after c (.handleRead res) with
          received := Function.update s.received c (s.received c ++ read res) } c) := by
        have hlinks : (retrieve { s.after c (.handleRead res) with
            received := Function.update s.received c (s.received c ++ read res) } c).links =
              Function.update s.links c (drained ((s.links c).next (.handleRead res))) := by
          simp [retrieve, after]
        intro d
        rw [hlinks]
        exact forall_update (P := fun _ link => link.Conserved) h hdrained d
      obtain ⟨threadpool, -, ⟨-, hsend⟩ | ⟨-, rfl⟩⟩ := onMessage_inv hmessage
      · refine sendInLoop_conserved (s := { retrieve _ c with threadpool }) hretrieved ?_ hw hsend
        refine echo_short ?_
        simpa [after, Link.next, hcontent] using hshort
      · exact hretrieved
    · simp [hnothing] at hafter

theorem step_conserved {s u : Echo κ τ} {l : Label κ τ} (hstreams : s.Streams) (hsound : s.Sound)
    (hanswers : s.Answers) (h : s.Conserved) (hl : l.Healthy) (hstep : step s l = some u) : u.Conserved := by
  cases l with
  | handleRead c res woken w => exact handleRead_conserved hstreams h hl (Option.ite_none_right_eq_some.mp hstep).2
  | handleWrite c w =>
    obtain ⟨hpos, -, rfl⟩ := call_inv (Option.ite_none_right_eq_some.mp hstep).2
    exact forall_update (P := fun _ link => link.Conserved) h ((Link.next_exact (h c) _ hpos).mpr fun _ => hl)
  | callFunctor task w =>
    obtain ⟨pLoop, hloop, ⟨message, hcb, hsend⟩ | ⟨-, rfl⟩⟩ := callFunctor_inv hstep
    · have hqueued := queued_called hsound.batchDone hloop
      rw [reply, hcb] at hqueued
      obtain ⟨m, hm, hanswer⟩ := List.mem_map.mp (hanswers (task.cb.1, message) (by simp [hqueued]))
      refine sendInLoop_conserved (s := { s with pLoop }) h ?_ hl hsend
      rw [show message = echo m.2 from congrArg Prod.snd hanswer.symm]
      exact echo_short (hstreams.short m hm)
    · exact h
  | startThread | take | wake | resume | send | finish | loop =>
    obtain ⟨hlinks, -, -, -⟩ := inner_same hstep trivial
    exact fun c => hlinks ▸ h c

/-- Where no write fails, each connection gets back what it sent: the bytes read are cut into messages of less than
128k, and the bytes written are the first of its replies. With one worker, or none, these are its messages, each with a
newline, in order. -/
theorem bytes_echoed (sockfd : κ → Int) (labels : List (Label κ τ)) (s : Echo κ τ)
    (hrun : Machine.run step (init sockfd) labels = some s) (hhealthy : ∀ l ∈ labels, l.Healthy) :
    (∀ m ∈ s.messages, m.2.length ≤ kMaxRead) ∧
    ∀ c, bytesOf c s.messages = s.received c ∧
      (s.links c).accepted ++ (s.links c).conn.outBuf.content = bytesOf c s.replies ∧
      ∀ t, s.threadpool.workers ⊆ {t} → (s.links c).accepted <+: bytesOf c (s.messages.map answer) := by
  obtain ⟨hconserved, hstreams, -, hpipeline⟩ : s.Conserved ∧ s.Streams ∧ s.Sound ∧
      Machine.Reaches Machine.Pipeline.step (fun _ _ => True) Machine.Pipeline.init s.pipeline := by
    refine Machine.run_invariant_of_meets
      (I := fun s => s.Conserved ∧ s.Streams ∧ s.Sound ∧
        Machine.Reaches Machine.Pipeline.step (fun _ _ => True) Machine.Pipeline.init s.pipeline)
      (C := fun _ l => l.Healthy) ?_ ?_ (Machine.meets_of_forall hhealthy) hrun
    · rintro s l u ⟨h, hstreams, hsound, hpipeline⟩ hl hstep
      obtain ⟨p, hp, hsound', rfl⟩ := pipeline_simulated s l u s.pipeline ⟨hsound, rfl⟩ hstep
      have hanswers : s.Answers := fun o ho => Machine.Pipeline.mem_asked_of_queued hpipeline ho
      exact ⟨step_conserved hstreams hsound hanswers h hl hstep, step_streams hstreams hstep, hsound',
        hpipeline.trans hp⟩
    · have hinit : Machine.run step (init sockfd : Echo κ τ) [] = some (init sockfd) := rfl
      exact ⟨fun c => Link.init_conserved (sockfd c), init_streams sockfd, run_pipeline hinit⟩
  refine ⟨hstreams.short, fun c => ?_⟩
  have hbytes : (s.links c).accepted ++ (s.links c).conn.outBuf.content = bytesOf c s.replies := by
    rw [← hstreams.passed]
    exact (hconserved c).2
  refine ⟨hstreams.read c, hbytes, fun t hone => ?_⟩
  have horder := Machine.Pipeline.reaches_inOrder hpipeline t hone
  calc (s.links c).accepted <+: (s.links c).accepted ++ (s.links c).conn.outBuf.content := List.prefix_append _ _
    _ = bytesOf c s.replies := hbytes
    _ <+: bytesOf c (s.messages.map answer) := by
      rw [← show _ = s.messages.map answer from horder, bytesOf_append]
      exact List.prefix_append _ _

set_option maxRecDepth 20000 in
theorem bytes_echoed_twoMessages : ∃ s, Machine.run step (init fun _ => 5) twoMessages = some s ∧
    (s.links true).accepted = [104, 105] ∧
    (s.links true).accepted ++ (s.links true).conn.outBuf.content = bytesOf true s.replies := by
  have hrun : Machine.run step (init fun _ => 5) twoMessages = some _ := rfl
  have hhealthy : ∀ l ∈ twoMessages, l.Healthy := by simp [twoMessages, Label.Healthy]
  exact ⟨_, hrun, rfl, ((bytes_echoed _ twoMessages _ hrun hhealthy).2 true).2.1⟩

end Echo

end Muduo
