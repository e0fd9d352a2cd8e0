import Muduo.Client.Connector

/-! # The owners of a client's connections

A connection is destroyed with its last reference, also while its channel is registered.
-/

namespace Muduo.Client

/-- How many references to `c` a step gives up. The connection whose `onClose` returns is deleted, and nobody
counts its references. -/
def released (s : Client) (c : ConnId) : Label → Nat
  | .act (.drop d) | .foreign (.drop d) => if d = c then 1 else 0
  | .return_ _ =>
    match s.loop.frame with
    | .user d .connected => if d ≠ c ∧ s.connection = some c then 1 else 0
    | .user d .completed | .user d .read => if d = c then 1 else 0
    | _ => 0
  | l => if (s.succeeds l).isSome ∧ s.callback = true ∧ s.user = false ∧ s.connection = some c then 1 else 0

/-- The step does not give up the last reference to an open connection. -/
def Retains (s : Client) (l : Label) : Prop :=
  ∀ c < s.size, ¬ s.Deleted c → s.alive c = true → s.released c l < s.owners c

instance (s : Client) (l : Label) : Decidable (s.Retains l) :=
  inferInstanceAs (Decidable (∀ c < s.size, ¬ s.Deleted c → s.alive c = true → s.released c l < s.owners c))

/-! ## What grows -/

/-- Each connection has as many owners as before. -/
def Grows (s u : Client) : Prop := ∀ c, s.owners c ≤ u.owners c

section

variable {s t u v : Client}

theorem Grows.trans (h : Grows s t) (k : Grows t u) : Grows s u := fun c => (h c).trans (k c)

theorem Quiet.grows (h : Quiet s u) : Grows s u := fun c => (h.owners c).ge

theorem Apart.grows (h : Apart s u) : Grows s u := fun c => (h.owners c).ge

theorem alive_of_grows {c : ConnId} (h : Grows s u) (hs : 0 < s.owners c) : u.alive c = true :=
  decide_eq_true (lt_of_lt_of_le hs (h c))

theorem Grows.frame (hconnection : u.connection = s.connection) (hheld : ∀ c, (u.conn c).held = (s.conn c).held)
    (hidle : s.loop.frame = .idle) : Grows s u := by
  intro c
  unfold owners
  rw [hconnection, hheld, hidle, Frame.holds]
  omega

theorem owners_held (hconnection : u.connection = s.connection) (hframe : u.loop.frame = s.loop.frame) (c : ConnId) :
    u.owners c + (s.conn c).held = s.owners c + (u.conn c).held := by
  unfold owners
  rw [hconnection, hframe]
  omega

theorem Grows.keep {d : ConnId} : Grows s (s.setConn d { s.conn d with held := (s.conn d).held + 1 }) := by
  intro c
  have howners := owners_held (s := s) (u := s.setConn d { s.conn d with held := (s.conn d).held + 1 }) rfl rfl c
  by_cases h : c = d
  · subst h
    simp only [setConn, Function.update_self] at howners ⊢
    omega
  · simp only [setConn, Function.update_of_ne h] at howners ⊢
    omega

theorem event_grows {c : ConnId} {res : Buffer.ReadResult} (hidle : s.loop.frame = .idle)
    (hquiet : Quiet s v) (h : Event s c res v u) : Grows s u := by
  refine hquiet.grows.trans ?_
  have hv : v.loop.frame = .idle := hquiet.frame.trans hidle
  cases h with
  | nothing => exact fun _ => le_refl _
  | read => exact .frame rfl (fun _ => rfl) hv
  | close =>
    rw [handleClose_eq]
    refine .frame rfl (fun d => ?_) hv
    by_cases h : d = c
    · subst h
      simp
    · simp [h]

theorem callFunctor_grows {w : WriteResult} {d : ConnId} {f : Functor} (hidle : s.loop.frame = .idle)
    (hd : d < s.size) : Grows s (s.callFunctor d w f) := by
  cases f with
  | onWriteComplateCB =>
    simp only [callFunctor, Host.callFunctor]
    split
    · exact .frame rfl (fun _ => rfl) hidle
    · exact fun _ => le_refl _
  | onMessageCB message =>
    exact Quiet.grows ((s.called_quiet hd (TcpConnection.sendInLoop_calm _ message w)).trans (crash_quiet _ _))

theorem runFunctor_grows {w : WriteResult} {fd savedErrno : Int} {q : Queued} (hidle : s.loop.frame = .idle)
    (hknown : ∀ d, s.alive d = true → d < s.size) : Grows s (s.runFunctor w fd savedErrno q) := by
  cases q with
  | connect => exact (s.connect_apart fd savedErrno).grows
  | resetChannel stopped of => exact (s.resetChannel_apart of).grows
  | bound d f =>
    have hobserve : Grows s (s.observe (.functor d f (s.alive d))) := (s.observe_quiet rfl).grows
    rcases s.runFunctor_bound w fd savedErrno d f with ⟨e, he, heq⟩ | heq
    · rw [heq]
      exact hobserve.trans (callFunctor_grows (s := s.observe _) hidle (hknown e (pointee_alive he)))
    · rw [heq]
      exact hobserve.trans (crash_quiet _ true).grows

theorem newConnection_alive (hidle : t.loop.frame = .idle) {c : ConnId} (hsize : c < t.size) (sockfd : Int)
    (hkept : (if t.user = false ∧ t.connection = some c then 1 else 0) < t.owners c) :
    (t.newConnection sockfd).alive c = true := by
  rw [newConnection_eq]
  refine alive_iff.mpr ?_
  rw [owners, hidle, Frame.holds] at hkept
  simp only [Function.update_of_ne (Nat.ne_of_lt hsize)]
  by_cases hheld : 0 < (t.conn c).held
  · exact Or.inr (Or.inl hheld)
  · refine Or.inl ?_
    by_cases hc : t.connection = some c
    · cases huser : t.user with
      | true => simpa using hc
      | false =>
        simp only [huser, hc, and_self, if_true] at hkept
        omega
    · simp only [hc, and_false, if_false] at hkept
      omega

theorem handleWrite_alive {a : Attempt} {ch : Channel} {optval : Int} (hidle : t.loop.frame = .idle) {c : ConnId}
    (hsize : c < t.size)
    (hkept : (if t.callback = true ∧ t.user = false ∧ t.connection = some c then 1 else 0) < t.owners c) :
    (t.handleWrite a ch (some optval)).alive c = true := by
  have hleave := t.leave_apart a ch
  rw [handleWrite_eq]
  split
  · rename_i hcallback
    have hreport := hleave.trans (observe_apart _ (o := .newConnection a t.sockFd optval) rfl)
    simp only [hcallback, true_and] at hkept
    refine newConnection_alive (hreport.frame.trans hidle) (hreport.size ▸ hsize) t.sockFd ?_
    rw [hreport.owners]
    exact hkept
  · exact alive_of_grows (hleave.grows.trans (crash_quiet _ true).grows) (Nat.zero_lt_of_lt hkept)

end

/-! ## Steps -/

theorem drop_alive {s : Client} {c d : ConnId} (h : (if d = c then 1 else 0) < s.owners c) :
    (s.setConn d { s.conn d with held := (s.conn d).held - 1 }).alive c = true := by
  have howners := owners_held (s := s) (u := s.setConn d { s.conn d with held := (s.conn d).held - 1 }) rfl rfl c
  refine decide_eq_true ?_
  by_cases hd : c = d
  · subst hd
    rw [if_pos rfl] at h
    simp only [setConn, Function.update_self] at howners ⊢
    omega
  · rw [if_neg (Ne.symm hd)] at h
    simp only [setConn, Function.update_of_ne hd] at howners ⊢
    omega

theorem act_alive {s : Client} {inLoop : Bool} {arg : Option ConnId} {a : Act} {l : Label} (hs : s.Placed)
    (hmay : s.MayAct inLoop arg a) (harg : ∀ c, arg = some c → c < s.size)
    (hl : l = if inLoop then .act a else .foreign a) {c : ConnId} (hkept : s.released c l < s.owners c) :
    (s.act inLoop a).alive c = true := by
  have hpos : 0 < s.owners c := Nat.zero_lt_of_lt hkept
  cases a with
  | send d message w =>
    exact alive_of_grows (s.send_quiet (hmay.1.elim (harg d) (hs.held d)) inLoop message w).grows hpos
  | keep d => exact alive_of_grows .keep hpos
  | drop d =>
    refine drop_alive ?_
    subst hl
    cases inLoop <;> exact hkept
  | connection =>
    simp only [act]
    split
    · exact alive_of_grows .keep hpos
    · exact decide_eq_true hpos
  | connect fd savedErrno =>
    have hcallback : Apart s { s with callback := true } := { Apart.refl s with }
    exact alive_of_grows (hcallback.trans (start_apart _ inLoop fd savedErrno)).grows hpos
  | start fd savedErrno => exact alive_of_grows (s.start_apart inLoop fd savedErrno).grows hpos
  | stop => exact alive_of_grows (s.queueInLoop_apart _).grows hpos

theorem return_alive {s : Client} {d : ConnId} {rest : Rest} (hframe : s.loop.frame = .user d rest)
    (hsize : d < s.size) (w : WriteResult) {c : ConnId} (hclosed : ∀ called, rest = .closed called → c ≠ d)
    (hkept : s.released c (.return_ w) < s.owners c) : (s.return_ d w rest).alive c = true := by
  have hout : ∀ t : Client, t.size = s.size → t.alive c = true → (t.testOut d w).alive c = true := fun t ht hc =>
    alive_of_grows (t.testOut_quiet (fun _ => ht ▸ hsize) w).grows (of_decide_eq_true hc)
  have howners : s.owners c =
      (if s.connection = some c then 1 else 0) + (s.conn c).held + if d = c then 1 else 0 := by
    rw [owners, hframe, Frame.holds]
  rw [howners, released, hframe] at hkept
  cases rest with
  | connected =>
    refine alive_iff.mpr ?_
    by_cases hd : d = c
    · exact Or.inl (by rw [hd]; rfl)
    · refine Or.inr (Or.inl ?_)
      have htcp : Quiet s (s.setTcp d (s.conn d).tcp.setUpLayerCloseCallback) := s.setTcp_quiet d rfl rfl Iff.rfl
      have hheld : ((s.return_ d w .connected).conn c).held = (s.conn c).held := htcp.held c
      rw [hheld]
      by_cases hc : s.connection = some c
      · simp only [hd, hc, ne_eq, not_false_eq_true, and_self, if_true, if_false] at hkept
        omega
      · simp only [hd, hc, and_false, if_false] at hkept
        omega
  | completed =>
    refine alive_iff.mpr ?_
    by_cases hc : s.connection = some c
    · exact Or.inl hc
    · refine Or.inr (Or.inl ?_)
      simp only [hc, if_false] at hkept
      change 0 < (s.conn c).held
      omega
  | read =>
    refine hout (s.setFrame .idle) rfl (alive_iff.mpr ?_)
    by_cases hc : s.connection = some c
    · exact Or.inl hc
    · refine Or.inr (Or.inl ?_)
      simp only [hc, if_false] at hkept
      change 0 < (s.conn c).held
      omega
  | closed called =>
    have hd : ¬ d = c := fun h => hclosed called rfl h.symm
    obtain ⟨connection, hleft, hreturn⟩ := s.return_closed d w called
    rw [hreturn]
    refine hout _ rfl (alive_iff.mpr ?_)
    simp only [hd, if_false] at hkept
    by_cases hc : s.connection = some c
    · rcases hleft with heq | ⟨-, hsome⟩
      · exact Or.inl (heq.trans hc)
      · rw [hc, Option.some.injEq] at hsome
        exact absurd hsome.symm hd
    · refine Or.inr (Or.inl ?_)
      simp only [hc, if_false] at hkept
      change 0 < (s.conn c).held
      omega

theorem step_alive {s u : Client} {l : Label} (hs : s.Placed) (h : step s l = some u) {c : ConnId}
    (hsize : c < s.size) (hopen : ¬ s.Deleted c) (hkept : s.released c l < s.owners c) : u.alive c = true := by
  have hpos : 0 < s.owners c := Nat.zero_lt_of_lt hkept
  have hloop : ∀ {lp : Loop}, lp.frame = s.loop.frame → (s.setLoop lp).alive c = true := by
    intro lp hlp
    refine decide_eq_true ?_
    rw [owners, show (s.setLoop lp).loop.frame = s.loop.frame from hlp]
    exact hpos
  cases l with
  | loop =>
    obtain ⟨-, rfl⟩ := Machine.guard_some.mp h
    exact hloop rfl
  | poll events =>
    obtain ⟨-, rfl⟩ := Machine.guard_some.mp h
    have hset := (s.setRevents_quiet events)
    refine decide_eq_true ?_
    rw [← hset.owners, owners, hset.frame] at hpos
    exact hpos
  | handle res w so =>
    obtain ⟨src, rest, hactive, hready, -, hu⟩ := handle_inv h
    have htaken : 0 < (s.takeActive rest).owners c := of_decide_eq_true (hloop rfl)
    have hsame : (s.takeActive rest).dataPtr src = s.dataPtr src := rfl
    cases hptr : s.dataPtr src with
    | none =>
      rw [hu, handle, hsame, hptr]
      exact alive_of_grows (crash_quiet _ true).grows htaken
    | some ch =>
      cases ch with
      | conn d =>
        have hd : d < s.size := hs.known (dataPtr_exists hptr)
        obtain ⟨v, hquiet, hevent⟩ := (s.takeActive rest).handleEvent_cases (c := d) (fun _ => hd) res w
        rw [hu, handle, hsame, hptr]
        exact alive_of_grows (event_grows (s := s.takeActive rest) hready.2.2 hquiet hevent) htaken
      | attempt a =>
        rcases handle_attempt hactive hptr hu with ⟨-, hquiet⟩ | ⟨ch, optval, -, rfl, hsucceeds, rfl⟩
        · exact alive_of_grows hquiet.grows htaken
        · have hcase : s.released c (.handle res w (some optval)) =
              if s.callback = true ∧ s.user = false ∧ s.connection = some c then 1 else 0 := by
            simp [released, hsucceeds]
          rw [hcase] at hkept
          exact handleWrite_alive (t := (s.takeActive rest).observe (.consulted (.attempt a) true)) hready.2.2 hsize
            hkept
  | return_ w =>
    obtain ⟨d, rest, hframe, rfl⟩ := return_inv h
    refine return_alive hframe (hs.user d rest hframe) w (fun called hrest => ?_) hkept
    rintro rfl
    exact hopen (hs.closing c called (hrest ▸ hframe))
  | act a =>
    obtain ⟨arg, hcode, hmay, rfl⟩ := act_inv h
    refine act_alive hs hmay (fun d hd => ?_) rfl hkept
    obtain ⟨rest, hframe⟩ := userCode_arg (hd ▸ hcode)
    exact hs.user d rest hframe
  | foreign a =>
    obtain ⟨⟨-, hmay⟩, rfl⟩ := Machine.guard_some.mp h
    exact act_alive hs hmay (by simp) rfl hkept
  | swap =>
    obtain ⟨-, rfl⟩ := Machine.guard_some.mp h
    exact hloop rfl
  | runFunctor w fd savedErrno =>
    obtain ⟨q, rest, hruns, hready, -, rfl⟩ := runFunctor_inv h
    have htaken : 0 < (s.takeFunctor rest).owners c := of_decide_eq_true (hloop rfl)
    exact alive_of_grows (runFunctor_grows (s := s.takeFunctor rest) hready.2.2 fun d hd => hs.known hd) htaken
  | endBatch =>
    obtain ⟨-, rfl⟩ := Machine.guard_some.mp h
    exact hloop rfl

/-! ## Open connections -/

/-- Open connections are alive. -/
def Standing (s : Client) : Prop := ∀ c < s.size, ¬ s.Deleted c → s.alive c = true

theorem newConnection_new {s : Client} (sockfd : Int) : (s.newConnection sockfd).alive s.size = true := by
  refine alive_iff.mpr ?_
  rw [newConnection_eq]
  cases s.user with
  | true => exact Or.inr (Or.inr ⟨.connected, rfl⟩)
  | false => exact Or.inl rfl

theorem step_new {s u : Client} {l : Label} (hs : s.Placed) (h : step s l = some u) {c : ConnId} (hc : c < u.size)
    (hnew : ¬ c < s.size) : u.alive c = true := by
  have hsame : u.size ≠ s.size := fun heq => hnew (heq ▸ hc)
  cases step_turn hs h with
  | aside hl =>
    exact absurd (parts_rel (R := fun t v => v.size = t.size) (fun _ => rfl) (fun h k => k.trans h) (part_size hl)
      (step_parts hs h)) hsame
  | connect hconnects haside hapart => exact absurd ((connect_apart _ _ _).size.trans hapart.size) hsame
  | stop => exact absurd rfl hsame
  | resetChannel hresets haside hapart => exact absurd hapart.size hsame
  | @handleWrite t a ch optval hsucceeds haside hapart =>
    have hsize := t.handleWrite_size a ch optval
    rw [hapart.size] at hsize
    by_cases hset : t.callback = true
    · rw [hsize, if_pos hset] at hc
      obtain rfl : c = s.size := le_antisymm (Nat.le_of_lt_succ hc) (not_lt.mp hnew)
      rw [handleWrite_eq, if_pos hset, ← hapart.size]
      exact newConnection_new (s := (t.leave a ch).observe (.newConnection a t.sockFd optval)) t.sockFd
    · exact absurd (hsize.trans (if_neg hset)) hsame

theorem step_standing {s u : Client} {l : Label} (hs : s.Placed) (hstanding : s.Standing) (hl : s.Retains l)
    (h : step s l = some u) : u.Standing := by
  intro c hc hopen
  by_cases hsize : c < s.size
  · have hopen' : ¬ s.Deleted c := fun hd => hopen ((step_onward hs h).deleted c hsize hd)
    exact step_alive hs h hsize hopen' (hl c hsize hopen' (hstanding c hsize hopen'))
  · exact step_new hs h hc hsize

end Muduo.Client
