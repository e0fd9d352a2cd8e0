import Muduo.TimerQueue.Code

/-! # Who owns a timer

Every live timer is in exactly one place: `_pTimers`, the expired batch, a queued `addTimerInLoop`, or
a call of `addTimer` that has not handed it over.
-/

namespace Muduo.TimerQueue

variable {ι : Type*}

def Queued.adds : Queued → Option Addr
  | .addTimerInLoop timer => some timer
  | .cancelInLoop _ => none

def Adding.owns (c : Adding) : Option Addr := if c.handed then none else some c.timer

def inTimers (q : TimerQueue ι) (a : Addr) : Nat := (q.pTimers.toList.map Entry.second).count a

def inBatch (q : TimerQueue ι) (a : Addr) : Nat := (q.phase.batch.map Entry.second).count a

def inFunctors (q : TimerQueue ι) (a : Addr) : Nat :=
  (q.tempRuns.filterMap Queued.adds).count a + (q.pendingFunctors.filterMap Queued.adds).count a

def inCalls (q : TimerQueue ι) (a : Addr) : Nat := (q.adding.filterMap Adding.owns).count a

/-- The places of `a`, and the stamps under which `_pTimers` holds its timers. -/
structure Owned (q : TimerQueue ι) : Prop where
  idle : q.phase ≠ .draining → q.tempRuns = []
  once : ∀ a, q.inTimers a + q.inBatch a + q.inFunctors a + q.inCalls a = (q.live a).toNat
  stamps : ∀ e ∈ q.pTimers, q.getStamp e.second = e.first

/-! ## What the functions do -/

theorem addTimerInLoop_eq (q : TimerQueue ι) (timer : Addr) (now : Timestamp) :
    ∃ alarm, q.addTimerInLoop timer now =
      { q with pTimers := q.pTimers.insert ⟨q.getStamp timer, timer⟩, timerfd := alarm } := by
  change ∃ alarm, (if (q.insert timer).2 then (q.insert timer).1.resetTimerfd _ now else (q.insert timer).1) = _
  cases (q.insert timer).2 with
  | true => exact ⟨_, rfl⟩
  | false => exact ⟨_, rfl⟩

theorem rearm_eq (q : TimerQueue ι) (now : Timestamp) : ∃ alarm, q.rearm now = { q with timerfd := alarm } := by
  simp only [rearm]
  split
  · exact ⟨_, rfl⟩
  · split <;> exact ⟨_, rfl⟩

theorem cancelInLoop_eq (q : TimerQueue ι) (id : TimerId) :
    (⟨q.getStamp id.timer, id.timer⟩ ∈ q.pTimers ∧ q.cancelInLoop id =
      { q with
        pTimers := q.pTimers.erase ⟨q.getStamp id.timer, id.timer⟩
        live := Function.update q.live id.timer false }) ∨
    (⟨q.getStamp id.timer, id.timer⟩ ∉ q.pTimers ∧ q.cancelInLoop id = q) := by
  unfold cancelInLoop
  by_cases h : (⟨q.getStamp id.timer, id.timer⟩ : Entry) ∈ q.pTimers
  · exact Or.inl ⟨h, if_pos h⟩
  · exact Or.inr ⟨h, if_neg h⟩

theorem timeout_inv [Seconds ι] {q u : TimerQueue ι} (h : step q .timeout = some u) :
    ∃ ran e todo, q.phase = .firing ran (e :: todo) ∧ u = { q with phase := .firing (ran ++ [e]) todo } := by
  simp only [step] at h
  split at h
  · rename_i ran e todo hphase
    exact ⟨ran, e, todo, hphase, (Option.some.inj h).symm⟩
  · cases h

theorem reset_inv [Seconds ι] {q u : TimerQueue ι} (h : step q .reset = some u) :
    ∃ ran, q.phase = .firing ran [] ∧ u = { q with phase := .resetting ran } := by
  simp only [step] at h
  split at h
  · rename_i ran hphase
    exact ⟨ran, hphase, (Option.some.inj h).symm⟩
  · cases h

theorem resetOne_inv [Seconds ι] {q u : TimerQueue ι} {now : Timestamp} (h : step q (.resetOne now) = some u) :
    ∃ e todo, q.phase = .resetting (e :: todo) ∧ u = { q.resetOne e now with phase := .resetting todo } := by
  simp only [step] at h
  split at h
  · rename_i e todo hphase
    exact ⟨e, todo, hphase, (Option.some.inj h).symm⟩
  · cases h

theorem callFunctor_inv [Seconds ι] {q u : TimerQueue ι} {now : Timestamp} (h : step q (.callFunctor now) = some u) :
    ∃ f rest, q.phase = .draining ∧ q.tempRuns = f :: rest ∧
      u = callFunctor { q with tempRuns := rest } now f := by
  simp only [step] at h
  split at h
  · rename_i f rest hphase hruns
    exact ⟨f, rest, hphase, hruns, (Option.some.inj h).symm⟩
  · cases h

/-! ## One entry -/

theorem inTimers_pos {q : TimerQueue ι} {a : Addr} : 0 < q.inTimers a ↔ ∃ t, ⟨t, a⟩ ∈ q.pTimers := by
  rw [inTimers, List.count_pos_iff, List.mem_map]
  constructor
  · rintro ⟨⟨t, a⟩, he, rfl⟩
    exact ⟨t, he⟩
  · rintro ⟨t, he⟩
    exact ⟨⟨t, a⟩, he, rfl⟩

theorem Owned.live_of_mem {q : TimerQueue ι} (h : q.Owned) {e : Entry} (he : e ∈ q.pTimers) :
    q.live e.second = true := by
  have hpos : 0 < q.inTimers e.second := inTimers_pos.mpr ⟨e.first, he⟩
  have honce := h.once e.second
  cases hlive : q.live e.second with
  | true => rfl
  | false =>
    rw [hlive, Bool.toNat_false] at honce
    omega

theorem Owned.live_of_batch {q : TimerQueue ι} (h : q.Owned) {e : Entry} (he : e ∈ q.phase.batch) :
    q.live e.second = true := by
  have hpos : 0 < q.inBatch e.second := List.count_pos_iff.mpr (List.mem_map_of_mem he)
  have honce := h.once e.second
  cases hlive : q.live e.second with
  | true => rfl
  | false =>
    rw [hlive, Bool.toNat_false] at honce
    omega

/-- `cancelInLoop` looks for an entry of `_pTimers` under the stamp that it reads. -/
theorem entry_eq {q : TimerQueue ι} (h : ∀ e ∈ q.pTimers, q.getStamp e.second = e.first) {e : Entry}
    (he : e ∈ q.pTimers) {a : Addr} : e = ⟨q.getStamp a, a⟩ ↔ e.second = a := by
  constructor
  · rintro rfl
    rfl
  · rintro rfl
    rw [h e he]

theorem count_insert {s : OrderedSet Entry} {e : Entry} (he : e ∉ s) (a : Addr) :
    ((s.insert e).toList.map Entry.second).count a =
      (s.toList.map Entry.second).count a + if e.second = a then 1 else 0 := by
  rw [((OrderedSet.perm_insert he).map _).count_eq, List.map_cons, List.count_cons]
  simp

theorem count_erase {s : OrderedSet Entry} {e : Entry} (he : e ∈ s) (a : Addr) :
    (s.toList.map Entry.second).count a =
      ((s.erase e).toList.map Entry.second).count a + if e.second = a then 1 else 0 := by
  rw [((OrderedSet.perm_erase he).map _).count_eq, List.map_cons, List.count_cons]
  simp

theorem insert_stamps {q : TimerQueue ι} (h : ∀ e ∈ q.pTimers, q.getStamp e.second = e.first) (timer : Addr) :
    ∀ e ∈ q.pTimers.insert ⟨q.getStamp timer, timer⟩, q.getStamp e.second = e.first := by
  intro e he
  rcases OrderedSet.mem_insert.mp he with rfl | he
  · rfl
  · exact h e he

theorem count_calls {adding : List Adding} {c : Adding} (hc : c ∈ adding) (a : Addr) :
    (adding.filterMap Adding.owns).count a =
      ((adding.erase c).filterMap Adding.owns).count a + if c.owns = some a then 1 else 0 := by
  rw [((List.perm_cons_erase hc).filterMap _).count_eq, List.filterMap_cons]
  cases c.owns with
  | none => simp
  | some b => simp [List.count_cons]

/-! ## Steps -/

theorem addTimer_eq (q : TimerQueue ι) (timer : Addr) (when_ : Timestamp) (interval : ι) (now : Timestamp) :
    ∃ alarm, q.addTimer timer when_ interval now =
      { q.newTimer timer when_ interval with
        pTimers := q.pTimers.insert ⟨when_, timer⟩
        timerfd := alarm
        issued := ⟨⟨timer, q.sequeue + 1⟩, q.sequeue + 1⟩ :: q.issued } := by
  obtain ⟨alarm, halarm⟩ := (q.newTimer timer when_ interval).addTimerInLoop_eq timer now
  have hmem : (q.newTimer timer when_ interval).mem timer = ⟨when_, interval, q.sequeue + 1⟩ :=
    Function.update_self timer _ q.mem
  refine ⟨alarm, ?_⟩
  simp only [addTimer, halarm, getStamp, getsequence, hmem]
  rfl

theorem Owned.dead {q : TimerQueue ι} (h : q.Owned) {a : Addr} (hdead : q.live a = false) :
    q.inTimers a = 0 ∧ q.inBatch a = 0 ∧ q.inFunctors a = 0 ∧ q.inCalls a = 0 := by
  have honce := h.once a
  rw [hdead, Bool.toNat_false] at honce
  omega

theorem live_update (q : TimerQueue ι) (a b : Addr) (alive : Bool) :
    (Function.update q.live a alive b).toNat = if a = b then alive.toNat else (q.live b).toNat := by
  by_cases hab : a = b
  · rw [hab, Function.update_self, if_pos rfl]
  · rw [Function.update_of_ne (Ne.symm hab), if_neg hab]

theorem addTimer_owned {q : TimerQueue ι} (h : q.Owned) {timer : Addr} (hfree : q.Free timer) (when_ : Timestamp)
    (interval : ι) (now : Timestamp) : (q.addTimer timer when_ interval now).Owned := by
  obtain ⟨alarm, halarm⟩ := q.addTimer_eq timer when_ interval now
  obtain ⟨htimers, hbatch, hfunctors, hcalls⟩ := h.dead hfree.1
  have hnew : ∀ e ∈ q.pTimers, e.second ≠ timer := by
    rintro e he rfl
    exact absurd (inTimers_pos.mpr ⟨e.first, he⟩) (by omega)
  rw [halarm]
  refine ⟨h.idle, fun a => ?_, fun e he => ?_⟩
  · have honce := h.once a
    have hcount := count_insert (fun he => hnew ⟨when_, timer⟩ he rfl) a
    have hlive := q.live_update timer a true
    simp only [inTimers, inBatch, inFunctors, inCalls, newTimer, Bool.toNat_true] at *
    rw [hcount, hlive]
    by_cases ha : timer = a
    · subst ha
      rw [if_pos rfl, if_pos rfl]
      omega
    · rw [if_neg ha, if_neg ha]
      omega
  · rcases OrderedSet.mem_insert.mp he with rfl | he
    · simp [getStamp, newTimer]
    · simp only [getStamp, newTimer, Function.update_of_ne (hnew e he)]
      exact h.stamps e he

theorem newTimer_owned {q : TimerQueue ι} (h : q.Owned) {timer : Addr} (hfree : q.Free timer) (when_ : Timestamp)
    (interval : ι) :
    Owned { q.newTimer timer when_ interval with adding := ⟨timer, q.sequeue + 1, false⟩ :: q.adding } := by
  obtain ⟨htimers, hbatch, hfunctors, hcalls⟩ := h.dead hfree.1
  have hnew : ∀ e ∈ q.pTimers, e.second ≠ timer := by
    rintro e he rfl
    exact absurd (inTimers_pos.mpr ⟨e.first, he⟩) (by omega)
  refine ⟨h.idle, fun a => ?_, fun e he => ?_⟩
  · have honce := h.once a
    have hlive := q.live_update timer a true
    simp only [inTimers, inBatch, inFunctors, inCalls, newTimer, Adding.owns, List.filterMap_cons, Bool.toNat_true,
      Bool.false_eq_true, if_false, List.count_cons] at *
    rw [hlive]
    by_cases ha : timer = a
    · subst ha
      simp only [beq_self_eq_true, if_true]
      omega
    · simp only [beq_iff_eq, ha, if_false]
      omega
  · simp only [getStamp, newTimer, Function.update_of_ne (hnew e he)]
    exact h.stamps e he

theorem cancelInLoop_owned {q : TimerQueue ι} (h : q.Owned) (id : TimerId) : (q.cancelInLoop id).Owned := by
  rcases q.cancelInLoop_eq id with ⟨hmem, heq⟩ | ⟨-, heq⟩
  · rw [heq]
    refine ⟨h.idle, fun a => ?_, fun e he => h.stamps e (OrderedSet.mem_erase.mp he).2⟩
    have honce := h.once a
    have hcount := count_erase hmem a
    have hlive := q.live_update id.timer a false
    simp only [inTimers, inBatch, inFunctors, inCalls, Bool.toNat_false] at *
    rw [hlive]
    by_cases ha : id.timer = a
    · have hone := h.live_of_mem hmem
      rw [if_pos ha] at hcount ⊢
      rw [show q.live a = true from ha ▸ hone, Bool.toNat_true] at honce
      omega
    · rw [if_neg ha] at hcount ⊢
      omega
  · rw [heq]
    exact h

theorem callFunctor_owned {q : TimerQueue ι} (h : q.Owned) {f : Queued} {rest : List Queued} (now : Timestamp)
    (hphase : q.phase = .draining) (hruns : q.tempRuns = f :: rest) :
    (callFunctor { q with tempRuns := rest } now f).Owned := by
  cases f with
  | addTimerInLoop timer =>
    obtain ⟨alarm, halarm⟩ := addTimerInLoop_eq { q with tempRuns := rest } timer now
    rw [callFunctor, halarm]
    refine ⟨fun hne => absurd hphase hne, fun a => ?_, insert_stamps h.stamps timer⟩
    have hnew : (⟨q.getStamp timer, timer⟩ : Entry) ∉ q.pTimers := by
      intro he
      have hpos : 0 < q.inTimers timer := inTimers_pos.mpr ⟨_, he⟩
      have honce := h.once timer
      have hle := Bool.toNat_le (q.live timer)
      simp only [inFunctors, hruns, List.filterMap_cons, Queued.adds, List.count_cons_self] at honce
      omega
    have honce := h.once a
    have hcount := count_insert hnew a
    simp only [inTimers, inBatch, inFunctors, inCalls, hruns, List.filterMap_cons, Queued.adds, List.count_cons,
      beq_iff_eq, getStamp] at *
    omega
  | cancelInLoop i =>
    refine cancelInLoop_owned (q := { q with tempRuns := rest }) ⟨fun hne => absurd hphase hne, fun a => ?_, ?_⟩ i.id
    rotate_left
    · exact h.stamps
    have honce := h.once a
    simp only [inTimers, inBatch, inFunctors, inCalls, hruns, List.filterMap_cons, Queued.adds] at *
    exact honce

theorem handleRead_owned {q : TimerQueue ι} (h : q.Owned) (now : Timestamp) (hphase : q.phase = .handlers) :
    (q.handleRead now).Owned := by
  refine ⟨fun _ => h.idle (by simp [hphase]), fun a => ?_, fun e he => ?_⟩
  · have honce := h.once a
    have hsplit := q.pTimers.below_append (sentry now)
    simp only [inTimers, inBatch, inFunctors, inCalls, handleRead, getExpired, readTimerfd, Phase.batch, hphase,
      List.nil_append, List.map_nil, List.count_nil] at *
    rw [← hsplit, List.map_append, List.count_append] at honce
    omega
  · exact h.stamps e ((List.dropWhile_sublist _).subset he)

theorem resetOne_owned [Seconds ι] {q : TimerQueue ι} (h : q.Owned) {e : Entry} {todo : List Entry} (now : Timestamp)
    (hphase : q.phase = .resetting (e :: todo)) : Owned { q.resetOne e now with phase := .resetting todo } := by
  have hlive := h.live_of_batch (e := e) (by simp [hphase, Phase.batch])
  have honly := h.once e.second
  rw [hlive, Bool.toNat_true] at honly
  simp only [inBatch, hphase, Phase.batch, List.map_cons, List.count_cons_self] at honly
  have hne : ∀ d ∈ q.pTimers, d.second ≠ e.second := by
    intro d hd heq
    have hpos : 0 < q.inTimers e.second := inTimers_pos.mpr ⟨d.first, heq ▸ hd⟩
    omega
  have hidle := h.idle (by simp [hphase])
  unfold resetOne
  split
  · -- A repeating timer goes back into `_pTimers`, under its new stamp.
    refine ⟨fun _ => hidle, fun a => ?_, fun d hd => ?_⟩
    · have honce := h.once a
      have hnew : ∀ t, (⟨t, e.second⟩ : Entry) ∉ q.pTimers := fun t ht => hne _ ht rfl
      simp only [insert, inTimers, inBatch, inFunctors, inCalls, hphase, Phase.batch, List.map_cons,
        List.count_cons, beq_iff_eq, count_insert (hnew _)] at *
      omega
    · rcases OrderedSet.mem_insert.mp hd with rfl | hd
      · rfl
      · simp only [insert, getStamp, Function.update_of_ne (hne d hd)]
        exact h.stamps d hd
  · refine ⟨fun _ => hidle, fun a => ?_, h.stamps⟩
    have honce := h.once a
    have hlive := q.live_update e.second a false
    simp only [deleteTimer, inTimers, inBatch, inFunctors, inCalls, hphase, Phase.batch, List.map_cons,
      List.count_cons, beq_iff_eq, Bool.toNat_false] at *
    rw [hlive]
    by_cases ha : e.second = a
    · rw [if_pos ha] at honce ⊢
      subst ha
      omega
    · rw [if_neg ha] at honce ⊢
      exact honce

theorem step_owned [Seconds ι] {q u : TimerQueue ι} {l : Label ι} (h : q.Owned) (hstep : step q l = some u) :
    u.Owned := by
  cases l with
  | scribble timer t =>
    obtain ⟨hdead, rfl⟩ := Machine.guard_some.mp hstep
    refine ⟨h.idle, h.once, fun e he => ?_⟩
    have hne : e.second ≠ timer := by
      rintro rfl
      simp [h.live_of_mem he] at hdead
    simp only [getStamp, Function.update_of_ne hne]
    exact h.stamps e he
  | addTimer timer when_ interval now =>
    obtain ⟨⟨-, hfree⟩, rfl⟩ := Machine.guard_some.mp hstep
    exact addTimer_owned h hfree when_ interval now
  | cancelTimer i =>
    obtain ⟨-, rfl⟩ := Machine.guard_some.mp hstep
    exact cancelInLoop_owned h i.id
  | newTimer timer when_ interval =>
    obtain ⟨hfree, rfl⟩ := Machine.guard_some.mp hstep
    exact newTimer_owned h hfree when_ interval
  | handOver c =>
    obtain ⟨⟨hc, hhanded⟩, rfl⟩ := Machine.guard_some.mp hstep
    refine ⟨h.idle, fun a => ?_, h.stamps⟩
    have honce := h.once a
    have hcount := count_calls hc a
    simp only [inTimers, inBatch, inFunctors, inCalls, List.filterMap_append, List.count_append, List.filterMap_cons,
      List.filterMap_nil, Queued.adds, Adding.owns, hhanded, Bool.false_eq_true, if_false, if_true,
      Option.some.injEq, List.count_cons, List.count_nil, beq_iff_eq] at *
    omega
  | getsequence c =>
    obtain ⟨⟨hc, hhanded⟩, rfl⟩ := Machine.guard_some.mp hstep
    refine ⟨h.idle, fun a => ?_, h.stamps⟩
    have honce := h.once a
    have hcount := count_calls hc a
    simp only [inTimers, inBatch, inFunctors, inCalls, Adding.owns, hhanded, if_true, reduceCtorEq, if_false] at *
    omega
  | queueCancel i =>
    obtain ⟨-, rfl⟩ := Machine.guard_some.mp hstep
    refine ⟨h.idle, fun a => ?_, h.stamps⟩
    have honce := h.once a
    simp only [inTimers, inBatch, inFunctors, inCalls, List.filterMap_append, List.filterMap_cons, List.filterMap_nil,
      Queued.adds, List.append_nil] at *
    exact honce
  | handleRead now =>
    obtain ⟨hphase, rfl⟩ := Machine.guard_some.mp hstep
    exact handleRead_owned h now hphase
  | timeout =>
    obtain ⟨ran, e, todo, hphase, rfl⟩ := timeout_inv hstep
    refine ⟨fun _ => h.idle (by simp [hphase]), fun a => ?_, h.stamps⟩
    have honce := h.once a
    simp only [inTimers, inBatch, inFunctors, inCalls, hphase, Phase.batch, List.append_assoc,
      List.singleton_append] at *
    exact honce
  | reset =>
    obtain ⟨ran, hphase, rfl⟩ := reset_inv hstep
    refine ⟨fun _ => h.idle (by simp [hphase]), fun a => ?_, h.stamps⟩
    have honce := h.once a
    simp only [inTimers, inBatch, inFunctors, inCalls, hphase, Phase.batch, List.append_nil] at *
    exact honce
  | resetOne now =>
    obtain ⟨e, todo, hphase, rfl⟩ := resetOne_inv hstep
    exact resetOne_owned h now hphase
  | rearm now =>
    obtain ⟨hphase, rfl⟩ := Machine.guard_some.mp hstep
    obtain ⟨alarm, halarm⟩ := q.rearm_eq now
    rw [halarm]
    refine ⟨fun _ => h.idle (by simp [hphase]), fun a => ?_, h.stamps⟩
    have honce := h.once a
    simp only [inTimers, inBatch, inFunctors, inCalls, hphase, Phase.batch] at *
    exact honce
  | swap =>
    obtain ⟨hphase, rfl⟩ := Machine.guard_some.mp hstep
    refine ⟨fun hne => absurd rfl hne, fun a => ?_, h.stamps⟩
    have honce := h.once a
    have hempty := h.idle (by simp [hphase])
    simp only [inTimers, inBatch, inFunctors, inCalls, hphase, Phase.batch, hempty, List.filterMap_nil,
      List.count_nil] at *
    omega
  | callFunctor now =>
    obtain ⟨f, rest, hphase, hruns, rfl⟩ := callFunctor_inv hstep
    exact callFunctor_owned h now hphase hruns
  | endBatch =>
    obtain ⟨⟨hphase, hempty⟩, rfl⟩ := Machine.guard_some.mp hstep
    refine ⟨fun _ => hempty, fun a => ?_, h.stamps⟩
    have honce := h.once a
    simp only [inTimers, inBatch, inFunctors, inCalls, hphase, Phase.batch] at *
    exact honce

theorem init_owned (mem : Addr → Timer ι) : (init mem).Owned where
  idle := fun _ => rfl
  once := fun _ => rfl
  stamps := fun e he => absurd he (OrderedSet.not_mem_empty e)

end Muduo.TimerQueue
