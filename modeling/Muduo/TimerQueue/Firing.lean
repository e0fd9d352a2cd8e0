import Mathlib.Algebra.Order.Group.Int
import Muduo.Recurrence
import Muduo.TimerQueue.Cancel
import Muduo.TimerQueue.Tick

/-! # When a timer fires

From `addTimer` to its `delete`, against the clock: not before the time it was added for, and after a `restart` not
before the stamp that `nowAfter` gave it.
-/

namespace Muduo.TimerQueue

variable {ι : Type*}

/-! ## One timer in one step -/

/-- The expired entries whose callbacks have been invoked and which `reset` has not passed over. -/
def Phase.spent : Phase → List Entry
  | .firing ran _ => ran
  | .resetting todo => todo
  | _ => []

/-- The timer at `a` has fired and is not restarted yet. -/
def Spent (q : TimerQueue ι) (a : Addr) : Prop := a ∈ q.phase.spent.map Entry.second

theorem Spent.in_batch {q : TimerQueue ι} {a : Addr} (h : q.Spent a) : a ∈ q.phase.batch.map Entry.second := by
  unfold Spent at h
  cases hphase : q.phase with
  | firing ran todo =>
    rw [hphase] at h
    rw [Phase.batch, List.map_append]
    exact List.mem_append_left _ h
  | resetting todo => rwa [hphase] at h
  | handlers | draining =>
    rw [hphase] at h
    cases h

theorem Owned.batch_nodup {q : TimerQueue ι} (h : q.Owned) : (q.phase.batch.map Entry.second).Nodup := by
  refine List.nodup_iff_count_le_one.mpr fun a => ?_
  have honce := h.once a
  have hle := Bool.toNat_le (q.live a)
  rw [inBatch] at honce
  omega

variable [Seconds ι]

/-- The sequence number of the timer that a `resetOne` step restarts. -/
def restarting (q : TimerQueue ι) : Option Nat :=
  match q.phase with
  | .resetting (e :: _) => if (q.mem e.second).isRepeat then some (q.getsequence e.second) else none
  | _ => none

/-- The sequence number of the timer that a step fires or restarts. -/
def marked (q : TimerQueue ι) : Label ι → Option Nat
  | .timeout => q.callback
  | .resetOne _ => q.restarting
  | _ => none

theorem marked_live {q : TimerQueue ι} {l : Label ι} {own : Nat} (howned : q.Owned) (h : q.marked l = some own) :
    ∃ a, q.live a = true ∧ q.getsequence a = own := by
  cases l with
  | timeout =>
    simp only [marked, callback] at h
    split at h
    · rename_i ran e todo hphase
      exact ⟨e.second, howned.live_of_batch (by simp [hphase, Phase.batch]), Option.some.inj h⟩
    · cases h
  | resetOne now =>
    simp only [marked, restarting] at h
    split at h
    · rename_i e todo hphase
      exact ⟨e.second, howned.live_of_batch (by simp [hphase, Phase.batch]),
        Option.some.inj (Option.ite_none_right_eq_some.mp h).2⟩
    · cases h
  | _ => cases h

/-- What a step does with the timer that lives at `a`. -/
inductive Fate (q u : TimerQueue ι) (l : Label ι) (a : Addr) : Prop where
  | kept (live : u.live a = true) (same : u.mem a = q.mem a) (spent : u.Spent a ↔ q.Spent a)
      (other : q.marked l ≠ some (q.getsequence a))
  | fired (live : u.live a = true) (same : u.mem a = q.mem a) (before : ¬ q.Spent a) (spent : u.Spent a)
      (hl : l = .timeout) (ran : List Entry) (e : Entry) (todo : List Entry)
      (hphase : q.phase = .firing ran (e :: todo)) (he : e.second = a)
  | restarted (live : u.live a = true) (now : Timestamp) (hl : l = .resetOne now) (repeats : (q.mem a).isRepeat = true)
      (again : u.mem a = (q.mem a).restart now) (before : q.Spent a) (fresh : ¬ u.Spent a) (todo : List Entry)
      (e : Entry) (hphase : q.phase = .resetting (e :: todo)) (he : e.second = a)
  | deleted (dead : u.live a = false) (other : q.marked l ≠ some (q.getsequence a))

theorem Fate.keep {q u : TimerQueue ι} {l : Label ι} {a : Addr} (hlive : u.live a = q.live a)
    (hmem : u.mem a = q.mem a) (ha : q.live a = true) (hspent : u.phase.spent = q.phase.spent)
    (hl : q.marked l = none) : q.Fate u l a :=
  .kept (hlive.trans ha) hmem (by rw [Spent, Spent, hspent]) (by simp [hl])

theorem cancelInLoop_fate {q u : TimerQueue ι} {l : Label ι} {a : Addr} (ha : q.live a = true) (id : TimerId)
    (runs : List Queued) (hl : q.marked l = none) (hu : u = cancelInLoop { q with tempRuns := runs } id) :
    q.Fate u l a := by
  rcases cancelInLoop_eq { q with tempRuns := runs } id with ⟨-, heq⟩ | ⟨-, heq⟩
  · rw [heq] at hu
    by_cases hid : a = id.timer
    · exact .deleted (by rw [hu, hid]; exact Function.update_self ..) (by simp [hl])
    · exact .keep (by rw [hu]; exact Function.update_of_ne hid ..) (by rw [hu]) ha (by rw [hu]) hl
  · rw [heq] at hu
    exact .keep (by rw [hu]) (by rw [hu]) ha (by rw [hu]) hl

theorem timeout_fate {q u : TimerQueue ι} {a : Addr} (howned : q.Owned) (hnamed : q.Named) (ha : q.live a = true)
    (hstep : step q .timeout = some u) : q.Fate u .timeout a := by
  obtain ⟨ran, e, todo, hphase, rfl⟩ := timeout_inv hstep
  have hnodup := howned.batch_nodup
  rw [hphase, Phase.batch, List.map_append, List.map_cons] at hnodup
  by_cases hae : e.second = a
  · subst hae
    refine .fired ha rfl ?_ ?_ rfl ran e todo hphase rfl
    · rw [Spent, hphase]
      exact fun hran => (List.nodup_append.mp hnodup).2.2 _ hran _ List.mem_cons_self rfl
    · simp [Spent, Phase.spent]
  · refine .kept ha rfl ?_ fun hcallback => hae ?_
    · simp [Spent, hphase, Phase.spent, Ne.symm hae]
    · have hlive := howned.live_of_batch (e := e) (by simp [hphase, Phase.batch])
      simp only [marked, callback, hphase, Option.some.injEq] at hcallback
      exact hnamed.distinct _ _ hlive ha hcallback

theorem resetOne_fate {q u : TimerQueue ι} {a : Addr} {now : Timestamp} (howned : q.Owned) (hnamed : q.Named)
    (ha : q.live a = true) (hstep : step q (.resetOne now) = some u) : q.Fate u (.resetOne now) a := by
  obtain ⟨e, todo, hphase, rfl⟩ := resetOne_inv hstep
  obtain ⟨-, hothers⟩ := head_alone howned hphase
  by_cases hae : a = e.second
  · subst hae
    have hbefore : q.Spent e.second := by simp [Spent, hphase, Phase.spent]
    cases hrepeat : (q.mem e.second).isRepeat with
    | true =>
      refine .restarted ?_ now rfl hrepeat ?_ hbefore ?_ todo e hphase rfl
      · simpa [resetOne, hrepeat, insert] using ha
      · simp [resetOne, hrepeat, insert]
      · simpa [Spent, Phase.spent] using fun d hd => hothers d hd
    | false =>
      exact .deleted (by simp [resetOne, hrepeat, deleteTimer]) (by simp [marked, restarting, hphase, hrepeat])
  · refine .kept ?_ ?_ ?_ fun hrestarting => hae ?_
    · unfold resetOne
      split
      · simpa [insert] using ha
      · simpa [deleteTimer, Function.update_of_ne hae] using ha
    · unfold resetOne
      split
      · simp [insert, Function.update_of_ne hae]
      · rfl
    · simp [Spent, hphase, Phase.spent, hae]
    · have hlive := howned.live_of_batch (e := e) (by simp [hphase, Phase.batch])
      simp only [marked, restarting, hphase] at hrestarting
      exact hnamed.distinct _ _ ha hlive (Option.some.inj (Option.ite_none_right_eq_some.mp hrestarting).2).symm

/-- Apart from its own callback, its `restart` and its `delete`, no step touches a timer. -/
theorem step_fate {q u : TimerQueue ι} {l : Label ι} {a : Addr} (howned : q.Owned) (hnamed : q.Named)
    (ha : q.live a = true) (hstep : step q l = some u) : q.Fate u l a := by
  cases l with
  | scribble timer t =>
    obtain ⟨hdead, rfl⟩ := Machine.guard_some.mp hstep
    have hne : a ≠ timer := by
      rintro rfl
      simp [hdead] at ha
    exact .keep rfl (Function.update_of_ne hne ..) ha rfl rfl
  | addTimer timer when_ interval now =>
    obtain ⟨⟨-, hfree⟩, rfl⟩ := Machine.guard_some.mp hstep
    obtain ⟨alarm, halarm⟩ := q.addTimer_eq timer when_ interval now
    have hne : a ≠ timer := by
      rintro rfl
      simp [hfree.1] at ha
    rw [halarm]
    exact .keep (Function.update_of_ne hne ..) (Function.update_of_ne hne ..) ha rfl rfl
  | newTimer timer when_ interval =>
    obtain ⟨hfree, rfl⟩ := Machine.guard_some.mp hstep
    have hne : a ≠ timer := by
      rintro rfl
      simp [hfree.1] at ha
    exact .keep (Function.update_of_ne hne ..) (Function.update_of_ne hne ..) ha rfl rfl
  | cancelTimer i =>
    obtain ⟨-, rfl⟩ := Machine.guard_some.mp hstep
    exact cancelInLoop_fate ha i.id q.tempRuns rfl rfl
  | handOver | getsequence | queueCancel =>
    obtain ⟨-, rfl⟩ := Machine.guard_some.mp hstep
    exact .keep rfl rfl ha rfl rfl
  | handleRead now | swap =>
    obtain ⟨hphase, rfl⟩ := Machine.guard_some.mp hstep
    exact .keep rfl rfl ha (by rw [hphase]; rfl) rfl
  | timeout => exact timeout_fate howned hnamed ha hstep
  | reset =>
    obtain ⟨ran, hphase, rfl⟩ := reset_inv hstep
    exact .keep rfl rfl ha (by rw [hphase]; rfl) rfl
  | resetOne now => exact resetOne_fate howned hnamed ha hstep
  | rearm now =>
    obtain ⟨hphase, rfl⟩ := Machine.guard_some.mp hstep
    obtain ⟨alarm, halarm⟩ := q.rearm_eq now
    rw [halarm]
    exact .keep rfl rfl ha (by rw [hphase]; rfl) rfl
  | callFunctor now =>
    obtain ⟨f, rest, hphase, -, rfl⟩ := callFunctor_inv hstep
    cases f with
    | addTimerInLoop timer =>
      obtain ⟨alarm, halarm⟩ := addTimerInLoop_eq { q with tempRuns := rest } timer now
      rw [callFunctor, halarm]
      exact .keep rfl rfl ha rfl rfl
    | cancelInLoop i => exact cancelInLoop_fate ha i.id rest rfl rfl
  | endBatch =>
    obtain ⟨⟨hphase, -⟩, rfl⟩ := Machine.guard_some.mp hstep
    exact .keep rfl rfl ha (by rw [hphase]; rfl) rfl

/-! ## What is seen of the timers -/

/-- A timer is created, its callback is invoked, or it is restarted. -/
inductive Mark (ι : Type*) where
  | created (own : Nat) (when_ : Timestamp) (interval : ι)
  | fired (own : Nat) (clock : Timestamp)
  /-- `clock` is what `nowAfter` read. -/
  | restarted (own : Nat) (clock : Timestamp)

def Mark.event (own : Nat) : Mark ι → Option (Recurrence.Event Timestamp)
  | .fired n clock => if n = own then some (.happened clock) else none
  | .restarted n clock => if n = own then some (.renewed clock) else none
  | .created _ _ _ => none

/-- The firings and the restarts of the timer numbered `own`. -/
def story (own : Nat) (os : List (Mark ι)) : List (Recurrence.Event Timestamp) := os.filterMap (Mark.event own)

omit [Seconds ι] in
@[simp]
theorem story_append (own : Nat) (os ps : List (Mark ι)) : story own (os ++ ps) = story own os ++ story own ps :=
  List.filterMap_append

namespace Timed

def marks (t : Timed ι) : Label ι → List (Mark ι)
  | .op (.addTimer _ when_ interval _) => [.created (t.queue.sequeue + 1) when_ interval]
  | .op (.newTimer _ when_ interval) => [.created (t.queue.sequeue + 1) when_ interval]
  | .op .timeout => t.queue.callback.toList.map fun own => .fired own t.clock
  | .op (.resetOne now) => t.queue.restarting.toList.map fun own => .restarted own now
  | _ => []

/-- `nowAfter` and `isRepeat` of an interval decide when a timer recurs. -/
def Recurs (when_ : Timestamp) (interval : ι) (events : List (Recurrence.Event Timestamp)) : Prop :=
  Recurrence.Recurs (Seconds.nowAfter · interval) (Seconds.positive interval = true) when_ events

def Due (when_ : Timestamp) (interval : ι) (events : List (Recurrence.Event Timestamp)) (due : Timestamp) : Prop :=
  Recurrence.Due (Seconds.nowAfter · interval) (Seconds.positive interval = true) when_ events due

/-- How far the timer numbered `own` has come, of which `events` have been seen. -/
inductive Stage (t : Timed ι) (own : Nat) (when_ : Timestamp) (interval : ι)
    (events : List (Recurrence.Event Timestamp)) : Prop where
  | waiting (a : Addr) (live : t.queue.live a = true) (number : t.queue.getsequence a = own)
      (same : (t.queue.mem a).interval = interval) (before : ¬ t.queue.Spent a)
      (due : Due when_ interval events (t.queue.getStamp a))
  | spent (a : Addr) (live : t.queue.live a = true) (number : t.queue.getsequence a = own)
      (same : (t.queue.mem a).interval = interval) (spent : t.queue.Spent a) (recurs : Recurs when_ interval events)
      (f : Timestamp) (last : events.getLast? = some (.happened f)) (past : f ≤ t.clock)
  | gone (gone : t.queue.Gone own) (recurs : Recurs when_ interval events)

theorem Stage.recurs {t : Timed ι} {own : Nat} {when_ : Timestamp} {interval : ι}
    {events : List (Recurrence.Event Timestamp)} (h : t.Stage own when_ interval events) :
    Recurs when_ interval events := by
  cases h with
  | waiting a live number same before due => exact due.recurs
  | spent a live number same spent recurs f last past => exact recurs
  | gone gone recurs => exact recurs

/-! ## Steps -/

/-- What `handleRead` has yet to fire is due. -/
structure Punctual (t : Timed ι) : Prop where
  owned : t.queue.Owned
  named : t.queue.Named
  space : ∀ a, t.queue.live a = true → a < UINTPTR_MAX
  expired : ∀ ran todo, t.queue.phase = .firing ran todo → ∀ e ∈ todo, t.queue.getStamp e.second ≤ t.clock

omit [Seconds ι] in
theorem init_punctual (mem : Addr → Timer ι) (clock : Nat) : (init mem clock).Punctual where
  owned := init_owned mem
  named := init_named mem
  space := fun a ha => by cases ha
  expired := fun ran todo hphase => by cases hphase

theorem handleRead_expired {q u : TimerQueue ι} {now : Timestamp} (howned : q.Owned)
    (hspace : ∀ a, q.live a = true → a < UINTPTR_MAX) (hstep : q.step (.handleRead now) = some u)
    {ran todo : List Entry} (hphase : u.phase = .firing ran todo) : ∀ e ∈ todo, u.getStamp e.second ≤ now := by
  obtain ⟨-, rfl⟩ := Machine.guard_some.mp hstep
  simp only [TimerQueue.handleRead, getExpired, Phase.firing.injEq] at hphase
  obtain ⟨-, rfl⟩ := hphase
  intro e he
  change e ∈ q.pTimers.below (sentry now) at he
  rw [below_due fun e he => hspace e.second (howned.live_of_mem he)] at he
  obtain ⟨hmem, hle⟩ := List.mem_filter.mp he
  change q.getStamp e.second ≤ now
  rw [howned.stamps e hmem]
  simpa using hle

theorem firing_inv {q u : TimerQueue ι} {l : TimerQueue.Label ι} (hstep : q.step l = some u) {ran todo : List Entry}
    (hphase : u.phase = .firing ran todo) :
    (∃ now, l = .handleRead now) ∨ ∃ ran' before, q.phase = .firing ran' before ∧ todo ⊆ before := by
  cases l with
  | handleRead now => exact Or.inl ⟨now, rfl⟩
  | scribble | newTimer | handOver | getsequence | queueCancel =>
    obtain ⟨-, rfl⟩ := Machine.guard_some.mp hstep
    exact Or.inr ⟨ran, todo, hphase, fun _ h => h⟩
  | addTimer timer when_ interval now =>
    obtain ⟨-, rfl⟩ := Machine.guard_some.mp hstep
    obtain ⟨alarm, halarm⟩ := q.addTimer_eq timer when_ interval now
    rw [halarm] at hphase
    exact Or.inr ⟨ran, todo, hphase, fun _ h => h⟩
  | cancelTimer i =>
    obtain ⟨-, rfl⟩ := Machine.guard_some.mp hstep
    rw [(q.cancelInLoop_ids i.id).2.2.2.2.1] at hphase
    exact Or.inr ⟨ran, todo, hphase, fun _ h => h⟩
  | timeout =>
    obtain ⟨ran', e, todo', hbefore, rfl⟩ := timeout_inv hstep
    simp only [Phase.firing.injEq] at hphase
    obtain ⟨-, rfl⟩ := hphase
    exact Or.inr ⟨ran', e :: todo', hbefore, fun _ h => List.mem_cons_of_mem e h⟩
  | reset =>
    obtain ⟨ran', -, rfl⟩ := reset_inv hstep
    cases hphase
  | resetOne now =>
    obtain ⟨e, todo', -, rfl⟩ := resetOne_inv hstep
    cases hphase
  | rearm | swap | endBatch =>
    obtain ⟨-, rfl⟩ := Machine.guard_some.mp hstep
    cases hphase
  | callFunctor now =>
    obtain ⟨f, rest, hdraining, -, rfl⟩ := callFunctor_inv hstep
    cases f with
    | addTimerInLoop timer =>
      obtain ⟨alarm, halarm⟩ := addTimerInLoop_eq { q with tempRuns := rest } timer now
      rw [callFunctor, halarm] at hphase
      cases hdraining.symm.trans hphase
    | cancelInLoop i =>
      rw [callFunctor, (cancelInLoop_ids { q with tempRuns := rest } i.id).2.2.2.2.1] at hphase
      cases hdraining.symm.trans hphase

theorem op_punctual {t v : Timed ι} {l : TimerQueue.Label ι} (h : t.Punctual) (hstep : t.step (.op l) = some v) :
    v.Punctual := by
  obtain ⟨hreads, hqueue, hclock⟩ := op_inv hstep
  have howned := step_owned h.owned hqueue
  refine ⟨howned, step_named h.named hqueue, step_space h.space hqueue, fun ran todo hphase e he => ?_⟩
  rw [hclock]
  rcases firing_inv hqueue hphase with ⟨now, rfl⟩ | ⟨ran', before, hbefore, hsub⟩
  · rw [← hreads now rfl]
    exact handleRead_expired h.owned h.space hqueue hphase e he
  · -- The timer lived before, and it is not one that a step touches in this phase.
    have hin : e ∈ t.queue.phase.batch := by
      rw [hbefore]
      exact List.mem_append_right ran' (hsub he)
    have hlive : v.queue.live e.second = true :=
      howned.live_of_batch (by rw [hphase]; exact List.mem_append_right ran he)
    have hle := h.expired ran' before hbefore e (hsub he)
    cases step_fate h.owned h.named (h.owned.live_of_batch hin) hqueue with
    | kept live same spent other => rwa [getStamp, same]
    | fired live same before spent hl ran e todo hphase he => rwa [getStamp, same]
    | restarted live now hl repeats again before fresh todo e hphase he => cases hbefore.symm.trans hphase
    | deleted dead other =>
      rw [dead] at hlive
      cases hlive

theorem step_punctual {t v : Timed ι} {l : Label ι} (h : t.Punctual) (hstep : t.step l = some v) : v.Punctual := by
  cases l with
  | op l => exact op_punctual h hstep
  | lateRead =>
    obtain ⟨todo, -, rfl⟩ := lateRead_inv hstep
    exact ⟨⟨h.owned.idle, h.owned.once, h.owned.stamps⟩,
      ⟨h.named.bound, h.named.distinct, h.named.issued, h.named.adding, h.named.functors⟩, h.space, h.expired⟩
  | tick clock =>
    obtain ⟨hle, rfl⟩ := Machine.guard_some.mp hstep
    refine ⟨h.owned, h.named, h.space, fun ran todo hphase e he => (h.expired ran todo hphase e he).trans ?_⟩
    exact Int.ofNat_le.mpr hle

theorem marks_quiet {t : Timed ι} {own : Nat} {l : TimerQueue.Label ι} (h : t.queue.marked l ≠ some own) :
    story own (t.marks (.op l)) = [] := by
  cases l with
  | timeout =>
    simp only [marked] at h
    cases hcallback : t.queue.callback with
    | none => simp [marks, hcallback, story]
    | some n =>
      have hne : n ≠ own := fun heq => h (heq ▸ hcallback)
      simp [marks, hcallback, story, Mark.event, hne]
  | resetOne now =>
    simp only [marked] at h
    cases hrestarting : t.queue.restarting with
    | none => simp [marks, hrestarting, story]
    | some n =>
      have hne : n ≠ own := fun heq => h (heq ▸ hrestarting)
      simp [marks, hrestarting, story, Mark.event, hne]
  | _ => rfl

theorem marks_fired {t : Timed ι} {own : Nat} (h : t.queue.callback = some own) :
    story own (t.marks (.op .timeout)) = [.happened t.clock] := by
  simp [marks, h, story, Mark.event]

theorem marks_restarted {t : Timed ι} {own : Nat} {now : Timestamp} (h : t.queue.restarting = some own) :
    story own (t.marks (.op (.resetOne now))) = [.renewed now] := by
  simp [marks, h, story, Mark.event]

theorem gone_of_deleted {q u : TimerQueue ι} {l : TimerQueue.Label ι} {a : Addr} (hnamed : q.Named)
    (ha : q.live a = true) (hstep : q.step l = some u) (hdead : u.live a = false) : u.Gone (q.getsequence a) := by
  obtain ⟨hseq, hlive⟩ := step_live hstep
  have hbound := hnamed.bound a ha
  refine ⟨hbound.trans hseq, fun b hb hsame => ?_⟩
  rcases hlive b hb with ⟨hold, hkept⟩ | ⟨hnew, -⟩
  · obtain rfl : b = a := hnamed.distinct b a hold ha (hkept.symm.trans hsame)
    rw [hdead] at hb
    cases hb
  · omega

omit [Seconds ι] in
theorem not_spent_of_dead {q : TimerQueue ι} (h : q.Owned) {a : Addr} (hdead : q.live a = false) : ¬ q.Spent a :=
  fun hspent => absurd (h.dead hdead).2.1 (List.count_pos_iff.mpr hspent.in_batch).ne'

theorem stage_new {v : Timed ι} (timer : Addr) {own : Nat} {when_ : Timestamp} {interval : ι}
    (hlive : v.queue.live timer = true) (hmem : v.queue.mem timer = ⟨when_, interval, own⟩)
    (hspent : ¬ v.queue.Spent timer) : v.Stage own when_ interval [] := by
  refine .waiting timer hlive (by rw [getsequence, hmem]) (by rw [hmem]) hspent ?_
  rw [getStamp, hmem]
  exact Recurrence.due_first

theorem created_stage {t v : Timed ι} {l : Label ι} (h : t.Punctual) (hstep : t.step l = some v) {own : Nat}
    {when_ : Timestamp} {interval : ι} (hcreated : .created own when_ interval ∈ t.marks l) :
    own = t.queue.sequeue + 1 ∧ v.Stage own when_ interval [] := by
  cases l with
  | op l =>
    obtain ⟨-, hqueue, -⟩ := op_inv hstep
    cases l with
    | addTimer timer w i now =>
      simp only [marks, List.mem_singleton, Mark.created.injEq] at hcreated
      obtain ⟨rfl, rfl, rfl⟩ := hcreated
      obtain ⟨⟨-, hfree⟩, hv⟩ := Machine.guard_some.mp hqueue
      obtain ⟨alarm, halarm⟩ := t.queue.addTimer_eq timer when_ interval now
      rw [halarm] at hv
      refine ⟨rfl, stage_new timer ?_ ?_ ?_⟩
      · rw [← hv]
        exact Function.update_self ..
      · rw [← hv]
        exact Function.update_self ..
      · rw [← hv]
        exact not_spent_of_dead h.owned hfree.1
    | newTimer timer w i =>
      simp only [marks, List.mem_singleton, Mark.created.injEq] at hcreated
      obtain ⟨rfl, rfl, rfl⟩ := hcreated
      obtain ⟨hfree, hv⟩ := Machine.guard_some.mp hqueue
      refine ⟨rfl, stage_new timer ?_ ?_ ?_⟩
      · rw [← hv]
        exact Function.update_self ..
      · rw [← hv]
        exact Function.update_self ..
      · rw [← hv]
        exact not_spent_of_dead h.owned hfree.1
    | timeout | resetOne =>
      obtain ⟨n, -, hn⟩ := List.mem_map.mp hcreated
      cases hn
    | _ => cases hcreated
  | lateRead => cases hcreated
  | tick clock => cases hcreated

theorem op_stage {t v : Timed ι} {l : TimerQueue.Label ι} (h : t.Punctual) (hstep : t.step (.op l) = some v) {own : Nat}
    {when_ : Timestamp} {interval : ι} {events : List (Recurrence.Event Timestamp)}
    (hstage : t.Stage own when_ interval events) :
    v.Stage own when_ interval (events ++ story own (t.marks (.op l))) := by
  obtain ⟨hreads, hqueue, hclock⟩ := op_inv hstep
  cases hstage with
  | gone gone recurs =>
    have hother : t.queue.marked l ≠ some own := by
      intro hmarked
      obtain ⟨a, ha, hown⟩ := marked_live h.owned hmarked
      exact gone.2 a ha hown
    rw [marks_quiet hother, List.append_nil]
    exact .gone (gone.step hqueue) recurs
  | waiting a live number same before due =>
    subst number
    cases step_fate h.owned h.named live hqueue with
    | kept live' same' spent other =>
      rw [marks_quiet other, List.append_nil]
      refine .waiting a live' (by rw [getsequence, same', getsequence]) (by rw [same', same]) (mt spent.mp before) ?_
      rw [getStamp, same']
      exact due
    | fired live' same' _ spent hl ran e todo hphase he =>
      subst hl he
      have hcallback : t.queue.callback = some (t.queue.getsequence e.second) := by rw [callback, hphase]
      rw [marks_fired hcallback]
      have hle := h.expired ran (e :: todo) hphase e List.mem_cons_self
      exact .spent e.second live' (by rw [getsequence, same', getsequence]) (by rw [same', same]) spent
        (due.happens hle) t.clock List.getLast?_concat (by rw [hclock])
    | restarted live' now hl repeats again spent => exact absurd spent before
    | deleted dead other =>
      rw [marks_quiet other, List.append_nil]
      exact .gone (gone_of_deleted h.named live hqueue dead) due.recurs
  | spent a live number same spent recurs f last past =>
    subst number
    cases step_fate h.owned h.named live hqueue with
    | kept live' same' spent' other =>
      rw [marks_quiet other, List.append_nil]
      exact .spent a live' (by rw [getsequence, same', getsequence]) (by rw [same', same]) (spent'.mpr spent) recurs f
        last (by rwa [hclock])
    | fired _ _ before => exact absurd spent before
    | restarted live' now hl repeats again _ fresh todo e hphase he =>
      subst hl he
      obtain rfl := hreads now rfl
      have hrestarting : t.queue.restarting = some (t.queue.getsequence e.second) := by
        simp [restarting, hphase, repeats]
      rw [marks_restarted hrestarting]
      refine .waiting e.second live' (by rw [getsequence, again]; rfl) (by rw [again]; exact same) fresh ?_
      rw [getStamp, again, ← same]
      rw [← same] at recurs
      exact recurs.again repeats last past
    | deleted dead other =>
      rw [marks_quiet other, List.append_nil]
      exact .gone (gone_of_deleted h.named live hqueue dead) recurs

theorem step_stage {t v : Timed ι} {l : Label ι} (h : t.Punctual) (hstep : t.step l = some v) {own : Nat}
    {when_ : Timestamp} {interval : ι} {events : List (Recurrence.Event Timestamp)}
    (hstage : t.Stage own when_ interval events) : v.Stage own when_ interval (events ++ story own (t.marks l)) := by
  cases l with
  | op l => exact op_stage h hstep hstage
  | lateRead =>
    obtain ⟨todo, -, rfl⟩ := lateRead_inv hstep
    rw [show story own (t.marks .lateRead) = [] from rfl, List.append_nil]
    cases hstage with
    | waiting a live number same before due => exact .waiting a live number same before due
    | spent a live number same spent recurs f last past => exact .spent a live number same spent recurs f last past
    | gone gone recurs => exact .gone gone recurs
  | tick clock =>
    obtain ⟨hle, rfl⟩ := Machine.guard_some.mp hstep
    rw [show story own (t.marks (.tick clock)) = [] from rfl, List.append_nil]
    cases hstage with
    | waiting a live number same before due => exact .waiting a live number same before due
    | spent a live number same spent recurs f last past =>
      exact .spent a live number same spent recurs f last (past.trans (Int.ofNat_le.mpr hle))
    | gone gone recurs => exact .gone gone recurs

/-! ## Runs -/

/-- What has been seen so far, and how far each timer has come. -/
structure History (os : List (Mark ι)) (t : Timed ι) : Prop where
  punctual : t.Punctual
  unborn : ∀ own, t.queue.sequeue < own → story own os = []
  stages : ∀ own when_ interval, .created own when_ interval ∈ os → t.Stage own when_ interval (story own os)

theorem init_history (mem : Addr → Timer ι) (clock : Nat) : History [] (init mem clock) where
  punctual := init_punctual mem clock
  unborn := fun _ _ => rfl
  stages := fun _ _ _ h => by cases h

theorem marks_unborn {t : Timed ι} {l : Label ι} (h : t.Punctual) {own : Nat} (hown : t.queue.sequeue < own) :
    story own (t.marks l) = [] := by
  cases l with
  | op l =>
    refine marks_quiet fun hmarked => ?_
    obtain ⟨a, ha, rfl⟩ := marked_live h.owned hmarked
    have hbound := h.named.bound a ha
    omega
  | lateRead => rfl
  | tick clock => rfl

theorem step_history {os : List (Mark ι)} {t v : Timed ι} {l : Label ι} (h : History os t)
    (hstep : t.step l = some v) : History (os ++ t.marks l) v := by
  have hseq : t.queue.sequeue ≤ v.queue.sequeue := by
    cases l with
    | op l => exact (step_live (op_inv hstep).2.1).1
    | lateRead =>
      obtain ⟨todo, -, rfl⟩ := lateRead_inv hstep
      exact Nat.le_refl _
    | tick clock =>
      obtain ⟨-, rfl⟩ := Machine.guard_some.mp hstep
      exact Nat.le_refl _
  refine ⟨step_punctual h.punctual hstep, fun own hown => ?_, fun own when_ interval hcreated => ?_⟩
  · rw [story_append, h.unborn own (by omega), marks_unborn h.punctual (by omega), List.append_nil]
  · rw [story_append]
    rcases List.mem_append.mp hcreated with hold | hnew
    · exact step_stage h.punctual hstep (h.stages own when_ interval hold)
    · obtain ⟨hown, hstage⟩ := created_stage h.punctual hstep hnew
      rw [h.unborn own (by omega), marks_unborn h.punctual (by omega), List.append_nil]
      exact hstage

/-- In every run, the callback of a timer is not invoked before the time the timer was added for. Between two
invocations there is one `restart`, and the later of them is not before the stamp that `nowAfter` gave it there. A
timer that does not repeat fires at most once, and one whose restarts wait for `period` does not get ahead of it. -/
theorem fires_on_schedule (mem : Addr → Timer ι) (clock : Nat) (labels : List (Label ι)) (t : Timed ι)
    (hrun : Machine.run step (init mem clock) labels = some t) (own : Nat) (when_ : Timestamp) (interval : ι)
    (hcreated : .created own when_ interval ∈ Machine.outputs step marks (init mem clock) labels) :
    let events := story own (Machine.outputs step marks (init mem clock) labels)
    Recurs when_ interval events ∧
    (Seconds.positive interval = false → (Recurrence.times events).length ≤ 1) ∧
    ∀ period, (∀ c, c + period ≤ Seconds.nowAfter c interval) →
      ∀ (k : Nat) (f : Timestamp), (Recurrence.times events)[k]? = some f → when_ + k * period ≤ f := by
  intro events
  have h : History ([] ++ Machine.outputs step marks (init mem clock) labels) t :=
    Machine.run_outputs (fun _ _ _ _ h hstep => step_history h hstep) (init_history mem clock) hrun
  rw [List.nil_append] at h
  have hrecurs := (h.stages own when_ interval hcreated).recurs
  refine ⟨hrecurs, fun hno => hrecurs.length_le_one (by simp [hno]), fun period hperiod k f hf => ?_⟩
  have hnth : when_ + k • period ≤ f := hrecurs.nth_ge hperiod hf
  rwa [Int.nsmul_eq_mul] at hnth

/-- A repeating timer fires, is restarted a second later, and fires late. -/
def fireTwice : List (Label Nat) :=
  [.op (.addTimer 16 5000000 2 7), .tick 5000100, .op (.handleRead 5000100), .op .timeout, .op .reset, .tick 6000000,
    .op (.resetOne 6000000), .op (.rearm 6000000), .tick 9000000, .op (.handleRead 9000000), .op .timeout]

theorem fires_on_schedule_twice : ∃ os, os = Machine.outputs step marks (init (fun _ => ⟨0, 0, 0⟩) 7) fireTwice ∧
    story 1 os = [.happened 5000100, .renewed 6000000, .happened 9000000] ∧ Recurs 5000000 2 (story 1 os) ∧
    (5000000 : Timestamp) + (1 : Nat) * 2000000 ≤ 9000000 := by
  have hrun : Machine.run step (init (fun _ => ⟨0, 0, 0⟩) 7) fireTwice = some _ := rfl
  have h := fires_on_schedule _ 7 fireTwice _ hrun 1 5000000 2 (by exact List.mem_cons_self)
  have hstory : story 1 (Machine.outputs step marks (init (fun _ => ⟨0, 0, 0⟩) 7) fireTwice) =
      [.happened 5000100, .renewed 6000000, .happened 9000000] := rfl
  refine ⟨_, rfl, hstory, h.1, ?_⟩
  exact h.2.2 2000000 (fun c => by simp [Seconds.nowAfter, kMicroSecondsPerSecond]) 1 9000000 (by rw [hstory]; rfl)

end Timed

end Muduo.TimerQueue
