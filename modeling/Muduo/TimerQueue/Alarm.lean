import Mathlib.Order.MinMax
import Muduo.TimerQueue.Names

/-! # When the timerfd goes off

The queue beside a clock that the wall clock and the timerfd share. The clock is past the epoch.
-/

namespace Muduo.TimerQueue

variable {ι : Type*}

/-- `handleRead` is not running. -/
def Outside (q : TimerQueue ι) : Prop := q.phase = .handlers ∨ q.phase = .draining

structure Timed (ι : Type*) where
  queue : TimerQueue ι
  clock : Nat

/-- What a step reads from the clock. -/
def Label.reads : Label ι → Option Timestamp
  | .addTimer _ _ _ now | .handleRead now | .resetOne now | .rearm now | .callFunctor now => some now
  | _ => none

namespace Timed

inductive Label (ι : Type*) where
  | op (l : TimerQueue.Label ι)
  /-- The timerfd goes off between the two statements `Timestamp::now()` and `readTimerfd` of `handleRead`. -/
  | lateRead
  | tick (clock : Nat)

def step [Seconds ι] (t : Timed ι) : Label ι → Option (Timed ι)
  | .op l =>
    if ∀ now ∈ l.reads, now = t.clock then (t.queue.step l).map fun queue => { t with queue } else none
  | .lateRead =>
    match t.queue.phase with
    | .firing [] _ => some { t with queue := t.queue.readTimerfd t.clock }
    | _ => none
  | .tick clock => if t.clock ≤ clock then some { t with clock } else none

def init (mem : Addr → Timer ι) (clock : Nat) : Timed ι := ⟨.init mem, clock⟩

/-- The timerfd is readable, or it is armed and goes off early enough. -/
def InTime (t : Timed ι) : Prop :=
  t.queue.Outside → ∀ e, t.queue.pTimers.first = some e → ∃ alarm, t.queue.timerfd = some alarm ∧
    (alarm.expires ≤ t.clock ∨ alarm.expires ≤ max e.first (alarm.setAt + 100))

/-- What a step reads from the clock in `restart`. -/
def Label.restarts : Label ι → Option Timestamp
  | .op (.resetOne now) => some now
  | _ => none

/-- A timer that `reset` restarts gets a stamp past the epoch. -/
def Restarts [Seconds ι] (t : Timed ι) (l : Label ι) : Prop :=
  ∀ now ∈ l.restarts, ∀ e ∈ t.queue.phase.batch.head?,
    (t.queue.mem e.second).isRepeat = true → 0 < Seconds.nowAfter now (t.queue.mem e.second).interval

instance [Seconds ι] (t : Timed ι) (l : Label ι) : Decidable (t.Restarts l) :=
  inferInstanceAs (Decidable (∀ now ∈ l.restarts, ∀ e ∈ t.queue.phase.batch.head?,
    (t.queue.mem e.second).isRepeat = true → 0 < Seconds.nowAfter now (t.queue.mem e.second).interval))

end Timed

/-! ## One alarm -/

/-- The value disarms nothing, is a proper `timespec` and means this many microseconds. -/
structure Means (value : Timespec) (microseconds : Int) : Prop where
  nonzero : value ≠ ⟨0, 0⟩
  nonneg : 0 ≤ value.tv_nsec
  lt : value.tv_nsec < 1000000000
  eq : value.tv_sec * 1000000000 + value.tv_nsec = microseconds * 1000

theorem howMuchTimeFromNow_eq (when_ now : Int) : howMuchTimeFromNow when_ now =
    ⟨max 100 (when_ - now) / 1000000, max 100 (when_ - now) % 1000000 * 1000⟩ := by
  have hmax : max 100 (when_ - now) = if when_ - now < 100 then 100 else when_ - now := by
    split <;> omega
  rw [hmax]
  rfl

theorem howMuchTimeFromNow_means (when_ now : Timestamp) :
    Means (howMuchTimeFromNow when_ now) (max 100 (when_ - now)) := by
  rw [howMuchTimeFromNow_eq]
  have hpos : (100 : Int) ≤ max 100 (when_ - now) := le_max_left _ _
  generalize max 100 (when_ - now) = microseconds at hpos
  refine ⟨fun hzero => ?_, by simp only; omega, by simp only; omega, by simp only; omega⟩
  rw [Timespec.mk.injEq] at hzero
  omega

theorem expires_eq (when_ now : Int) :
    (Alarm.mk now (howMuchTimeFromNow when_ now)).expires = max when_ (now + 100) := by
  rw [howMuchTimeFromNow_eq]
  change now + max 100 (when_ - now) / 1000000 * 1000000 + max 100 (when_ - now) % 1000000 * 1000 / 1000 = _
  omega

/-- The timerfd is armed for `stamp`, or for 100 microseconds after it was armed. -/
def Timely (timerfd : Option Alarm) (stamp : Timestamp) : Prop :=
  ∃ alarm, timerfd = some alarm ∧ alarm.expires ≤ max stamp (alarm.setAt + 100)

theorem timely_armed (when_ now : Timestamp) : Timely (some ⟨now, howMuchTimeFromNow when_ now⟩) when_ :=
  ⟨_, rfl, le_of_eq (expires_eq when_ now)⟩

theorem Timely.mono {timerfd : Option Alarm} {stamp later : Timestamp} (h : Timely timerfd stamp)
    (hle : stamp ≤ later) : Timely timerfd later := by
  obtain ⟨alarm, halarm, hexpires⟩ := h
  exact ⟨alarm, halarm, hexpires.trans (max_le_max hle le_rfl)⟩

theorem first_le_first {d e : Entry} (h : d ≤ e) : d.first ≤ e.first := by
  rcases Prod.Lex.toLex_le_toLex.mp h with hlt | ⟨heq, -⟩
  · exact le_of_lt hlt
  · exact le_of_eq heq

/-! ## What the functions do to the timerfd -/

theorem addTimerInLoop_timerfd (q : TimerQueue ι) (timer : Addr) (now : Timestamp) :
    ((∀ e ∈ q.pTimers, q.getStamp timer < e.first) ∧
      (q.addTimerInLoop timer now).timerfd = some ⟨now, howMuchTimeFromNow (q.getStamp timer) now⟩) ∨
    ((∃ e ∈ q.pTimers, e.first ≤ q.getStamp timer) ∧ (q.addTimerInLoop timer now).timerfd = q.timerfd) := by
  change (_ ∧ (if (q.insert timer).2 then (q.insert timer).1.resetTimerfd _ now else _).timerfd = _) ∨
    (_ ∧ (if (q.insert timer).2 then _ else (q.insert timer).1).timerfd = _)
  have hchanged : (q.insert timer).2 = q.pTimers.first.elim true fun e => q.getStamp timer < e.first := by
    unfold TimerQueue.insert
    cases q.pTimers.first <;> rfl
  cases hfirst : q.pTimers.first with
  | none =>
    rw [hfirst, Option.elim_none] at hchanged
    exact Or.inl ⟨fun e he => absurd he (OrderedSet.first_none.mp hfirst e), by rw [if_pos hchanged]; rfl⟩
  | some e =>
    rw [hfirst, Option.elim_some] at hchanged
    by_cases hlt : q.getStamp timer < e.first
    · refine Or.inl ⟨fun d hd => hlt.trans_le (first_le_first (OrderedSet.first_le hfirst hd)), ?_⟩
      rw [if_pos (hchanged.trans (decide_eq_true hlt))]
      rfl
    · refine Or.inr ⟨⟨e, OrderedSet.mem_of_first hfirst, not_lt.mp hlt⟩, ?_⟩
      rw [if_neg (by rw [hchanged, decide_eq_true_eq]; exact hlt)]
      rfl

theorem rearm_timerfd {q : TimerQueue ι} (h : ∀ e ∈ q.pTimers, q.getStamp e.second = e.first) (now : Timestamp) :
    (∀ e, q.pTimers.first = some e → e.first ≤ 0) ∧ (q.rearm now).timerfd = q.timerfd ∨
    ∃ e, q.pTimers.first = some e ∧ (q.rearm now).timerfd = some ⟨now, howMuchTimeFromNow e.first now⟩ := by
  have hrearm : q.rearm now =
      let nextExpire := q.pTimers.first.elim 0 fun e => q.getStamp e.second
      if 0 < nextExpire then q.resetTimerfd nextExpire now else q := by
    unfold rearm
    cases q.pTimers.first <;> rfl
  cases hfirst : q.pTimers.first with
  | none =>
    rw [hfirst, Option.elim_none] at hrearm
    exact Or.inl ⟨fun e he => absurd he (by simp), congrArg timerfd hrearm⟩
  | some e =>
    have hstamp : q.getStamp e.second = e.first := h e (OrderedSet.mem_of_first hfirst)
    simp only [hfirst, Option.elim_some, hstamp] at hrearm
    by_cases hpos : 0 < e.first
    · refine Or.inr ⟨e, rfl, ?_⟩
      rw [hrearm, if_pos hpos]
      rfl
    · rw [hrearm, if_neg hpos]
      refine Or.inl ⟨fun d hd => ?_, rfl⟩
      rw [Option.some.injEq] at hd
      exact hd ▸ not_lt.mp hpos

/-! ## Invariant -/

/-- While `handleRead` runs, only the timers that `reset` passes over must be covered. -/
structure Covered (q : TimerQueue ι) : Prop where
  fresh : ∀ todo, q.phase = .firing [] todo → ∀ e ∈ q.pTimers, 0 < e.first
  early : ∀ e ∈ q.pTimers, e.first ≤ 0 ∨ q.Outside → Timely q.timerfd e.first

theorem init_covered (mem : Addr → Timer ι) : (init mem).Covered where
  fresh := fun _ hphase => by simp [init] at hphase
  early := fun e he => absurd he (OrderedSet.not_mem_empty e)

theorem step_space [Seconds ι] {q u : TimerQueue ι} {l : Label ι} (h : ∀ a, q.live a = true → a < UINTPTR_MAX)
    (hstep : step q l = some u) : ∀ a, u.live a = true → a < UINTPTR_MAX := by
  have hnew : ∀ timer when_ (interval : ι), q.Free timer →
      ∀ a, (q.newTimer timer when_ interval).live a = true → a < UINTPTR_MAX := by
    intro timer when_ interval hfree a ha
    by_cases hid : a = timer
    · exact hid ▸ hfree.2
    · simp only [newTimer, Function.update_of_ne hid] at ha
      exact h a ha
  cases l with
  | addTimer timer when_ interval now =>
    obtain ⟨⟨-, hfree⟩, rfl⟩ := Machine.guard_some.mp hstep
    obtain ⟨alarm, halarm⟩ := q.addTimer_eq timer when_ interval now
    rw [halarm]
    exact hnew timer when_ interval hfree
  | newTimer timer when_ interval =>
    obtain ⟨hfree, rfl⟩ := Machine.guard_some.mp hstep
    exact hnew timer when_ interval hfree
  | cancelTimer i =>
    obtain ⟨-, rfl⟩ := Machine.guard_some.mp hstep
    exact fun a ha => h a ((q.cancelInLoop_shrinks i.id).2 a ha).1
  | scribble | handOver | getsequence | queueCancel | handleRead | swap | endBatch =>
    obtain ⟨-, rfl⟩ := Machine.guard_some.mp hstep
    exact h
  | timeout =>
    obtain ⟨ran, e, todo, -, rfl⟩ := timeout_inv hstep
    exact h
  | reset =>
    obtain ⟨ran, -, rfl⟩ := reset_inv hstep
    exact h
  | resetOne now =>
    obtain ⟨e, todo, -, rfl⟩ := resetOne_inv hstep
    exact fun a ha => h a ((q.resetOne_shrinks e now).2 a ha).1
  | rearm now =>
    obtain ⟨-, rfl⟩ := Machine.guard_some.mp hstep
    obtain ⟨alarm, halarm⟩ := q.rearm_eq now
    rw [halarm]
    exact h
  | callFunctor now =>
    obtain ⟨f, rest, -, -, rfl⟩ := callFunctor_inv hstep
    cases f with
    | addTimerInLoop timer =>
      obtain ⟨alarm, halarm⟩ := addTimerInLoop_eq { q with tempRuns := rest } timer now
      rw [callFunctor, halarm]
      exact h
    | cancelInLoop i => exact fun a ha => h a ((cancelInLoop_shrinks { q with tempRuns := rest } i.id).2 a ha).1

/-! ## What a step keeps -/

theorem addTimerInLoop_early {q : TimerQueue ι} (timer : Addr) (now : Timestamp) {outside : Prop}
    (h : ∀ e ∈ q.pTimers, e.first ≤ 0 ∨ outside → Timely q.timerfd e.first) :
    ∀ e ∈ (q.addTimerInLoop timer now).pTimers, e.first ≤ 0 ∨ outside →
      Timely (q.addTimerInLoop timer now).timerfd e.first := by
  obtain ⟨alarm, halarm⟩ := q.addTimerInLoop_eq timer now
  intro e he hcase
  rw [halarm] at he
  rcases q.addTimerInLoop_timerfd timer now with ⟨hearliest, hfd⟩ | ⟨⟨d, hd, hle⟩, hfd⟩
  · rw [hfd]
    refine (timely_armed _ now).mono ?_
    rcases OrderedSet.mem_insert.mp he with rfl | he
    · exact le_rfl
    · exact le_of_lt (hearliest e he)
  · rw [hfd]
    rcases OrderedSet.mem_insert.mp he with rfl | he
    · exact (h d hd (hcase.imp_left hle.trans)).mono hle
    · exact h e he hcase

theorem Covered.move {q u : TimerQueue ι} (h : q.Covered) (htimers : u.pTimers = q.pTimers)
    (hfd : u.timerfd = q.timerfd) (hfresh : ∀ todo, u.phase = .firing [] todo → q.phase = .firing [] todo)
    (hout : u.Outside → q.Outside) : u.Covered := by
  constructor
  · intro todo hphase
    rw [htimers]
    exact h.fresh todo (hfresh todo hphase)
  · intro e he hcase
    rw [htimers] at he
    rw [hfd]
    exact h.early e he (hcase.imp_right hout)

theorem cancelInLoop_covered {q : TimerQueue ι} (h : q.Covered) (id : TimerId) : (q.cancelInLoop id).Covered := by
  rcases q.cancelInLoop_eq id with ⟨-, heq⟩ | ⟨-, heq⟩
  · rw [heq]
    exact ⟨fun todo hphase e he => h.fresh todo hphase e (OrderedSet.mem_erase.mp he).2,
      fun e he hcase => h.early e (OrderedSet.mem_erase.mp he).2 hcase⟩
  · rw [heq]
    exact h

theorem addTimerInLoop_covered {q : TimerQueue ι} (h : q.Covered) (timer : Addr) (now : Timestamp)
    (hphase : ∀ todo, q.phase ≠ .firing [] todo) : (q.addTimerInLoop timer now).Covered := by
  obtain ⟨alarm, halarm⟩ := q.addTimerInLoop_eq timer now
  have hsame : (q.addTimerInLoop timer now).phase = q.phase := by rw [halarm]
  refine ⟨fun todo hfiring => absurd (hsame.symm.trans hfiring) (hphase todo), ?_⟩
  rw [Outside, hsame]
  exact addTimerInLoop_early timer now h.early

theorem handleRead_covered {q : TimerQueue ι} (howned : q.Owned) (hspace : ∀ a, q.live a = true → a < UINTPTR_MAX)
    {now : Timestamp} (hnow : 0 ≤ now) : (q.handleRead now).Covered := by
  have hlater : ∀ e ∈ (q.handleRead now).pTimers, 0 < e.first := by
    intro e he
    obtain ⟨hmem, hle⟩ := OrderedSet.mem_eraseBelow he
    rcases Prod.Lex.toLex_le_toLex.mp hle with hlt | ⟨-, hmax⟩
    · exact hnow.trans_lt hlt
    · exact absurd (hspace e.second (howned.live_of_mem hmem)) (Nat.not_lt.mpr hmax)
  refine ⟨fun _ _ => hlater, fun e he hcase => ?_⟩
  rcases hcase with hle | hout | hout
  · exact absurd (hlater e he) (not_lt.mpr hle)
  · simp [handleRead] at hout
  · simp [handleRead] at hout

theorem resetOne_covered [Seconds ι] {q : TimerQueue ι} (h : q.Covered) {e : Entry} {now : Timestamp}
    (todo : List Entry)
    (hrestarts : (q.mem e.second).isRepeat = true → 0 < Seconds.nowAfter now (q.mem e.second).interval) :
    Covered { q.resetOne e now with phase := .resetting todo } := by
  refine ⟨fun _ hphase => by simp at hphase, fun d hd hcase => ?_⟩
  have hle : d.first ≤ 0 := hcase.resolve_right (by simp [Outside])
  unfold resetOne at hd ⊢
  split at hd
  · rename_i hrepeat
    rw [if_pos hrepeat]
    rcases OrderedSet.mem_insert.mp hd with rfl | hd
    · simp only [getStamp, Function.update_self, Timer.restart] at hle
      exact absurd (hrestarts hrepeat) (not_lt.mpr hle)
    · exact h.early d hd (Or.inl hle)
  · rename_i hrepeat
    rw [if_neg hrepeat]
    exact h.early d hd (Or.inl hle)

theorem rearm_covered {q : TimerQueue ι} (howned : q.Owned) (h : q.Covered) (now : Timestamp) :
    Covered { q.rearm now with phase := .handlers } := by
  obtain ⟨alarm, halarm⟩ := q.rearm_eq now
  refine ⟨fun _ hphase => by simp at hphase, fun e he _ => ?_⟩
  change Timely (q.rearm now).timerfd e.first
  rw [halarm] at he
  rcases rearm_timerfd howned.stamps now with ⟨hpassed, hfd⟩ | ⟨d, hd, hfd⟩
  · rw [hfd]
    cases hfirst : q.pTimers.first with
    | none => exact absurd he (OrderedSet.first_none.mp hfirst e)
    | some d =>
      exact (h.early d (OrderedSet.mem_of_first hfirst) (Or.inl (hpassed d hfirst))).mono
        (first_le_first (OrderedSet.first_le hfirst he))
  · rw [hfd]
    exact (timely_armed _ now).mono (first_le_first (OrderedSet.first_le hd he))

theorem step_covered [Seconds ι] {q u : TimerQueue ι} {l : Label ι} (howned : q.Owned)
    (hspace : ∀ a, q.live a = true → a < UINTPTR_MAX) (h : q.Covered) (hclock : ∀ now ∈ l.reads, 0 ≤ now)
    (hrestarts : ∀ now e todo, l = .resetOne now → q.phase = .resetting (e :: todo) →
      (q.mem e.second).isRepeat = true → 0 < Seconds.nowAfter now (q.mem e.second).interval)
    (hstep : step q l = some u) : u.Covered := by
  cases l with
  | scribble | newTimer | handOver | getsequence | queueCancel =>
    obtain ⟨-, rfl⟩ := Machine.guard_some.mp hstep
    exact h.move rfl rfl (fun _ hphase => hphase) id
  | addTimer timer when_ interval now =>
    obtain ⟨⟨huser, -⟩, rfl⟩ := Machine.guard_some.mp hstep
    exact (addTimerInLoop_covered (q := q.newTimer timer when_ interval) (h.move rfl rfl (fun _ hphase => hphase) id)
      timer now huser.1).move rfl rfl (fun _ hphase => hphase) id
  | cancelTimer i =>
    obtain ⟨-, rfl⟩ := Machine.guard_some.mp hstep
    exact cancelInLoop_covered h i.id
  | handleRead now =>
    obtain ⟨-, rfl⟩ := Machine.guard_some.mp hstep
    exact handleRead_covered howned hspace (hclock now rfl)
  | timeout =>
    obtain ⟨ran, e, todo, hphase, rfl⟩ := timeout_inv hstep
    exact h.move rfl rfl (fun _ hfiring => by simp at hfiring) (fun hout => by simp [Outside] at hout)
  | reset =>
    obtain ⟨ran, hphase, rfl⟩ := reset_inv hstep
    exact h.move rfl rfl (fun _ hfiring => by simp at hfiring) (fun hout => by simp [Outside] at hout)
  | resetOne now =>
    obtain ⟨e, todo, hphase, rfl⟩ := resetOne_inv hstep
    exact resetOne_covered h todo (hrestarts now e todo rfl hphase)
  | rearm now =>
    obtain ⟨-, rfl⟩ := Machine.guard_some.mp hstep
    exact rearm_covered howned h now
  | swap =>
    obtain ⟨hphase, rfl⟩ := Machine.guard_some.mp hstep
    exact h.move rfl rfl (fun _ hfiring => by simp at hfiring) (fun _ => Or.inl hphase)
  | callFunctor now =>
    obtain ⟨f, rest, hphase, -, rfl⟩ := callFunctor_inv hstep
    have hrest : Covered { q with tempRuns := rest } := h.move rfl rfl (fun _ hfiring => hfiring) id
    cases f with
    | addTimerInLoop timer => exact addTimerInLoop_covered hrest timer now (fun todo => by simp [hphase])
    | cancelInLoop i => exact cancelInLoop_covered hrest i.id
  | endBatch =>
    obtain ⟨⟨hphase, -⟩, rfl⟩ := Machine.guard_some.mp hstep
    exact h.move rfl rfl (fun _ hfiring => by simp at hfiring) (fun _ => Or.inr hphase)

/-! ## What the timerfd is given -/

/-- A step that arms the timerfd arms it for the timer that is then the earliest. -/
def Sets (l : Label ι) (u : TimerQueue ι) (alarm : Alarm) : Prop :=
  ∃ e, u.pTimers.first = some e ∧ ∃ now ∈ l.reads, alarm = ⟨now, howMuchTimeFromNow e.first now⟩

theorem addTimerInLoop_sets (q : TimerQueue ι) (timer : Addr) (now : Timestamp) {alarm : Alarm}
    (h : (q.addTimerInLoop timer now).timerfd = some alarm) :
    q.timerfd = some alarm ∨ ∃ e, (q.addTimerInLoop timer now).pTimers.first = some e ∧
      alarm = ⟨now, howMuchTimeFromNow e.first now⟩ := by
  obtain ⟨alarm', halarm⟩ := q.addTimerInLoop_eq timer now
  rcases q.addTimerInLoop_timerfd timer now with ⟨hearliest, hfd⟩ | ⟨-, hfd⟩
  · refine Or.inr ?_
    rw [hfd, Option.some.injEq] at h
    rw [halarm]
    have hnew : (⟨q.getStamp timer, timer⟩ : Entry) ∈ q.pTimers.insert ⟨q.getStamp timer, timer⟩ :=
      OrderedSet.mem_insert.mpr (Or.inl rfl)
    cases hfirst : (q.pTimers.insert ⟨q.getStamp timer, timer⟩).first with
    | none => exact absurd hnew (OrderedSet.first_none.mp hfirst _)
    | some e =>
      refine ⟨e, rfl, ?_⟩
      rw [← h]
      rcases OrderedSet.mem_insert.mp (OrderedSet.mem_of_first hfirst) with rfl | he
      · rfl
      · exact absurd (first_le_first (OrderedSet.first_le hfirst hnew)) (not_le.mpr (hearliest e he))
  · exact Or.inl (hfd ▸ h)

theorem cancelInLoop_timerfd (q : TimerQueue ι) (id : TimerId) : (q.cancelInLoop id).timerfd = q.timerfd := by
  rcases q.cancelInLoop_eq id with ⟨-, heq⟩ | ⟨-, heq⟩ <;> rw [heq]

theorem readTimerfd_some {q : TimerQueue ι} {now : Timestamp} {alarm : Alarm}
    (h : (q.readTimerfd now).timerfd = some alarm) : q.timerfd = some alarm := by
  rw [readTimerfd, Option.filter_eq_some_iff] at h
  exact h.1

theorem step_sets [Seconds ι] {q u : TimerQueue ι} {l : Label ι} (howned : q.Owned) (hstep : step q l = some u)
    {alarm : Alarm} (h : u.timerfd = some alarm) : q.timerfd = some alarm ∨ Sets l u alarm := by
  cases l with
  | scribble | newTimer | handOver | getsequence | queueCancel | swap | endBatch =>
    obtain ⟨-, rfl⟩ := Machine.guard_some.mp hstep
    exact Or.inl h
  | addTimer timer when_ interval now =>
    obtain ⟨-, rfl⟩ := Machine.guard_some.mp hstep
    refine (addTimerInLoop_sets (q.newTimer timer when_ interval) timer now h).imp_right ?_
    exact fun ⟨e, he, halarm⟩ => ⟨e, he, now, rfl, halarm⟩
  | cancelTimer i =>
    obtain ⟨-, rfl⟩ := Machine.guard_some.mp hstep
    exact Or.inl (q.cancelInLoop_timerfd i.id ▸ h)
  | handleRead now =>
    obtain ⟨-, rfl⟩ := Machine.guard_some.mp hstep
    exact Or.inl (readTimerfd_some h)
  | timeout =>
    obtain ⟨ran, e, todo, -, rfl⟩ := timeout_inv hstep
    exact Or.inl h
  | reset =>
    obtain ⟨ran, -, rfl⟩ := reset_inv hstep
    exact Or.inl h
  | resetOne now =>
    obtain ⟨e, todo, -, rfl⟩ := resetOne_inv hstep
    refine Or.inl ?_
    simp only [resetOne] at h
    split at h <;> exact h
  | rearm now =>
    obtain ⟨-, rfl⟩ := Machine.guard_some.mp hstep
    obtain ⟨alarm', halarm⟩ := q.rearm_eq now
    rcases rearm_timerfd howned.stamps now with ⟨-, hfd⟩ | ⟨e, he, hfd⟩
    · exact Or.inl (hfd ▸ h)
    · refine Or.inr ⟨e, ?_, now, rfl, Option.some.inj (h.symm.trans hfd)⟩
      rw [halarm]
      exact he
  | callFunctor now =>
    obtain ⟨f, rest, -, -, rfl⟩ := callFunctor_inv hstep
    cases f with
    | addTimerInLoop timer =>
      refine (addTimerInLoop_sets { q with tempRuns := rest } timer now h).imp_right ?_
      exact fun ⟨e, he, halarm⟩ => ⟨e, he, now, rfl, halarm⟩
    | cancelInLoop i => exact Or.inl (cancelInLoop_timerfd { q with tempRuns := rest } i.id ▸ h)

/-! ## Runs -/

namespace Timed

variable [Seconds ι]

theorem op_inv {t v : Timed ι} {l : TimerQueue.Label ι} (h : t.step (.op l) = some v) :
    (∀ now ∈ l.reads, now = t.clock) ∧ TimerQueue.step t.queue l = some v.queue ∧ v.clock = t.clock := by
  obtain ⟨hreads, hstep⟩ := Option.ite_none_right_eq_some.mp h
  obtain ⟨queue, hqueue, rfl⟩ := Option.map_eq_some_iff.mp hstep
  exact ⟨hreads, hqueue, rfl⟩

theorem lateRead_inv {t v : Timed ι} (h : t.step .lateRead = some v) :
    ∃ todo, t.queue.phase = .firing [] todo ∧ v = { t with queue := t.queue.readTimerfd t.clock } := by
  simp only [step] at h
  split at h
  · rename_i todo hphase
    exact ⟨todo, hphase, (Option.some.inj h).symm⟩
  · cases h

structure Sound (t : Timed ι) : Prop where
  owned : t.queue.Owned
  space : ∀ a, t.queue.live a = true → a < UINTPTR_MAX
  covered : t.queue.Covered

theorem step_sound {t v : Timed ι} {l : Label ι} (h : t.Sound) (hrestarts : t.Restarts l) (hstep : t.step l = some v) :
    v.Sound := by
  cases l with
  | op l =>
    obtain ⟨hreads, hqueue, -⟩ := op_inv hstep
    have hclock : ∀ now ∈ l.reads, 0 ≤ now := fun now hnow => hreads now hnow ▸ Int.natCast_nonneg _
    refine ⟨step_owned h.owned hqueue, step_space h.space hqueue,
      step_covered h.owned h.space h.covered hclock (fun now e todo hl hphase => ?_) hqueue⟩
    subst hl
    exact hrestarts now rfl e (by rw [hphase]; rfl)
  | lateRead =>
    obtain ⟨todo, hphase, rfl⟩ := lateRead_inv hstep
    have hlater := h.covered.fresh todo hphase
    refine ⟨⟨h.owned.idle, h.owned.once, h.owned.stamps⟩, h.space, fun _ _ => hlater, fun e he hcase => ?_⟩
    rcases hcase with hle | hout | hout
    · exact absurd (hlater e he) (not_lt.mpr hle)
    · exact absurd (hphase.symm.trans hout) (by simp)
    · exact absurd (hphase.symm.trans hout) (by simp)
  | tick clock =>
    obtain ⟨-, rfl⟩ := Machine.guard_some.mp hstep
    exact ⟨h.owned, h.space, h.covered⟩

theorem step_alarm {t v : Timed ι} {l : Label ι} (h : t.Sound) (hstep : t.step l = some v) {alarm : Alarm}
    (halarm : v.queue.timerfd = some alarm) :
    t.queue.timerfd = some alarm ∨ ∃ e, v.queue.pTimers.first = some e ∧ alarm.setAt = v.clock ∧
      Means alarm.value (max 100 (e.first - v.clock)) := by
  cases l with
  | op l =>
    obtain ⟨hreads, hqueue, hclock⟩ := op_inv hstep
    refine (step_sets h.owned hqueue halarm).imp_right ?_
    rintro ⟨e, he, now, hnow, rfl⟩
    rw [hclock, ← hreads now hnow]
    exact ⟨e, he, rfl, howMuchTimeFromNow_means e.first now⟩
  | lateRead =>
    obtain ⟨todo, -, rfl⟩ := lateRead_inv hstep
    exact Or.inl (readTimerfd_some halarm)
  | tick clock =>
    obtain ⟨-, rfl⟩ := Machine.guard_some.mp hstep
    exact Or.inl halarm

/-- In every run whose restarts stay past the epoch: outside `handleRead` the timerfd goes off in time for the
earliest timer, and every value that the timerfd is armed with is the time to the timer that is then the earliest,
or 100 microseconds. -/
theorem armed_in_time (mem : Addr → Timer ι) (clock : Nat) (labels : List (Label ι)) (t : Timed ι)
    (hrestarts : Machine.Meets step Restarts (init mem clock) labels)
    (hrun : Machine.run step (init mem clock) labels = some t) :
    t.InTime ∧ ∀ l v, t.step l = some v → ∀ alarm, v.queue.timerfd = some alarm →
      t.queue.timerfd = some alarm ∨ ∃ e, v.queue.pTimers.first = some e ∧ alarm.setAt = v.clock ∧
        Means alarm.value (max 100 (e.first - v.clock)) := by
  have hsound : t.Sound := Machine.run_invariant_of_meets (fun _ _ _ h hl hstep => step_sound h hl hstep)
    ⟨init_owned mem, fun a ha => absurd ha (by simp [init, TimerQueue.init]), init_covered mem⟩ hrestarts hrun
  refine ⟨fun hout e he => ?_, fun l v hstep alarm halarm => step_alarm hsound hstep halarm⟩
  obtain ⟨alarm, halarm, hexpires⟩ := hsound.covered.early e (OrderedSet.mem_of_first he) (Or.inr hout)
  exact ⟨alarm, halarm, Or.inr hexpires⟩

/-- A timer in the past and a repeating one, whose callback adds another. -/
def fireAndRestart : List (Label Nat) :=
  [.op (.addTimer 16 5 1 7), .tick 120, .op (.handleRead 120), .lateRead, .op .timeout, .op (.addTimer 32 0 0 120),
    .op .reset, .tick 130, .op (.resetOne 130), .op (.rearm 130)]

theorem armed_in_time_fireAndRestart : Machine.Meets step Restarts (init (fun _ => ⟨0, 0, 0⟩) 7) fireAndRestart ∧
    ∃ t, Machine.run step (init (fun _ => ⟨0, 0, 0⟩) 7) fireAndRestart = some t ∧ t.InTime ∧
      t.queue.timerfd = some ⟨120, ⟨0, 100000⟩⟩ ∧ t.queue.pTimers.first = some ⟨0, 32⟩ := by
  have hmeets : Machine.Meets step Restarts (init (fun _ => ⟨0, 0, 0⟩) 7) fireAndRestart := by decide +kernel
  have hrun : Machine.run step (init (fun _ => ⟨0, 0, 0⟩) 7) fireAndRestart = some _ := rfl
  exact ⟨hmeets, _, hrun, (armed_in_time _ 7 fireAndRestart _ hmeets hrun).1, rfl, rfl⟩

end Timed

end Muduo.TimerQueue
