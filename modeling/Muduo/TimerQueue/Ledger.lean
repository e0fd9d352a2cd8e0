import Muduo.TimerQueue.Cancel

/-! # What becomes of each timer

Each `Timer` that was created is held in one place or has been deleted once, and `_pTimers` holds each of
its timers under the stamp that the timer has.
-/

namespace Muduo.TimerQueue

variable {ι : Type*}

/-- The timers that a step deletes. -/
def deletes [Seconds ι] (q : TimerQueue ι) : Label ι → List Addr
  | .cancelTimer i => if ⟨q.getStamp i.id.timer, i.id.timer⟩ ∈ q.pTimers then [i.id.timer] else []
  | .callFunctor _ =>
    match q.tempRuns with
    | .cancelInLoop i :: _ => if ⟨q.getStamp i.id.timer, i.id.timer⟩ ∈ q.pTimers then [i.id.timer] else []
    | _ => []
  | .resetOne _ =>
    match q.phase with
    | .resetting (e :: _) => if (q.mem e.second).isRepeat then [] else [e.second]
    | _ => []
  | _ => []

/-- The entries that a step inserts into `_pTimers`. -/
def inserts [Seconds ι] (q : TimerQueue ι) : Label ι → List Entry
  | .addTimer timer when_ _ _ => [⟨when_, timer⟩]
  | .callFunctor _ =>
    match q.tempRuns with
    | .addTimerInLoop timer :: _ => [⟨q.getStamp timer, timer⟩]
    | _ => []
  | .resetOne now =>
    match q.phase with
    | .resetting (e :: _) =>
      if (q.mem e.second).isRepeat then [⟨((q.mem e.second).restart now).stamp, e.second⟩] else []
    | _ => []
  | _ => []

/-- The timers in each place: calls of `addTimer`, queued functors, `_pTimers` and the expired batch. -/
def held (q : TimerQueue ι) : List Addr :=
  q.adding.filterMap Adding.owns ++ q.tempRuns.filterMap Queued.adds ++ q.pendingFunctors.filterMap Queued.adds ++
    q.pTimers.toList.map Entry.second ++ q.phase.batch.map Entry.second

/-- The sequence numbers of the timers that a run deletes, in order. -/
def deleted [Seconds ι] (q : TimerQueue ι) (labels : List (Label ι)) : List Nat :=
  Machine.outputs step (fun t l => (t.deletes l).map t.getsequence) q labels

/-! ## Places -/

theorem count_held (q : TimerQueue ι) (a : Addr) :
    q.held.count a = q.inTimers a + q.inBatch a + q.inFunctors a + q.inCalls a := by
  simp only [held, List.count_append, inTimers, inBatch, inFunctors, inCalls]
  omega

theorem Owned.held_nodup {q : TimerQueue ι} (h : q.Owned) : q.held.Nodup := by
  refine List.nodup_iff_count_le_one.mpr fun a => ?_
  rw [count_held, h.once]
  exact Bool.toNat_le _

theorem Owned.mem_held {q : TimerQueue ι} (h : q.Owned) {a : Addr} : a ∈ q.held ↔ q.live a = true := by
  rw [← List.count_pos_iff, count_held, h.once]
  cases q.live a <;> simp

/-! ## One step -/

/-- A step deletes these timers, which are alive, and keeps the others. What it creates is alive. -/
structure Accounts (q u : TimerQueue ι) (ended : List Addr) : Prop where
  nodup : ended.Nodup
  gone : ∀ a ∈ ended, q.live a = true ∧ u.live a = false
  kept : ∀ a, a ∉ ended → q.live a = true → u.live a = true ∧ u.getsequence a = q.getsequence a
  made : ∀ n, q.sequeue < n → n ≤ u.sequeue → ∃ a, u.live a = true ∧ u.getsequence a = n

theorem Accounts.mem_iff {q u : TimerQueue ι} {ended : List Addr} (h : Accounts q u ended) {a : Addr} :
    a ∈ ended ↔ q.live a = true ∧ u.live a = false := by
  refine ⟨h.gone a, fun ⟨hlive, hdead⟩ => ?_⟩
  by_contra hkept
  rw [(h.kept a hkept hlive).1] at hdead
  cases hdead

theorem accounts_none {q u : TimerQueue ι} (hseq : u.sequeue = q.sequeue)
    (h : ∀ a, q.live a = true → u.live a = true ∧ u.getsequence a = q.getsequence a) : Accounts q u [] where
  nodup := List.nodup_nil
  gone := fun _ ha => absurd ha List.not_mem_nil
  kept := fun a _ => h a
  made := fun n hlt hle => by omega

theorem newTimer_accounts {q : TimerQueue ι} {timer : Addr} (hfree : q.Free timer) (when_ : Timestamp) (interval : ι) :
    Accounts q (q.newTimer timer when_ interval) [] where
  nodup := List.nodup_nil
  gone := fun _ ha => absurd ha List.not_mem_nil
  kept := by
    intro a _ hlive
    have hne : a ≠ timer := by
      rintro rfl
      rw [hfree.1] at hlive
      cases hlive
    simp only [newTimer, getsequence, Function.update_of_ne hne]
    exact ⟨hlive, trivial⟩
  made := by
    intro n hlt hle
    simp only [newTimer] at hle
    refine ⟨timer, Function.update_self _ _ _, ?_⟩
    simp only [newTimer, getsequence, Function.update_self]
    omega

theorem cancelInLoop_accounts {q : TimerQueue ι} (h : ∀ e ∈ q.pTimers, q.live e.second = true) (id : TimerId) :
    Accounts q (q.cancelInLoop id) (if ⟨q.getStamp id.timer, id.timer⟩ ∈ q.pTimers then [id.timer] else []) := by
  rcases q.cancelInLoop_eq id with ⟨hmem, heq⟩ | ⟨hno, heq⟩
  · rw [if_pos hmem, heq]
    refine ⟨List.nodup_singleton _, fun a ha => ?_, fun a ha hlive => ?_,
      fun n hlt hle => absurd hle (Nat.not_le_of_lt hlt)⟩
    · rw [List.mem_singleton] at ha
      subst ha
      exact ⟨h _ hmem, Function.update_self _ _ _⟩
    · rw [List.mem_singleton] at ha
      exact ⟨(Function.update_of_ne ha _ _).trans hlive, rfl⟩
  · rw [if_neg hno, heq]
    exact accounts_none rfl fun _ hlive => ⟨hlive, rfl⟩

theorem resetOne_accounts [Seconds ι] {q : TimerQueue ι} {e : Entry} (hlive : q.live e.second = true)
    (now : Timestamp) :
    Accounts q (q.resetOne e now) (if (q.mem e.second).isRepeat then [] else [e.second]) := by
  unfold resetOne
  split
  · refine accounts_none rfl fun a ha => ⟨ha, ?_⟩
    by_cases hae : a = e.second
    · simp [insert, getsequence, hae, Timer.restart]
    · simp [insert, getsequence, Function.update_of_ne hae]
  · refine ⟨List.nodup_singleton _, fun a ha => ?_, fun a ha halive => ?_,
      fun n hlt hle => absurd hle (Nat.not_le_of_lt hlt)⟩
    · rw [List.mem_singleton] at ha
      subst ha
      exact ⟨hlive, Function.update_self _ _ _⟩
    · rw [List.mem_singleton] at ha
      exact ⟨(Function.update_of_ne ha _ _).trans halive, rfl⟩

theorem step_accounts [Seconds ι] {q u : TimerQueue ι} {l : Label ι} (h : q.Owned) (hstep : step q l = some u) :
    Accounts q u (q.deletes l) := by
  cases l with
  | scribble timer t =>
    obtain ⟨hdead, rfl⟩ := Machine.guard_some.mp hstep
    refine accounts_none rfl fun a hlive => ⟨hlive, ?_⟩
    have hne : a ≠ timer := by
      rintro rfl
      rw [hdead] at hlive
      cases hlive
    simp [getsequence, Function.update_of_ne hne]
  | addTimer timer when_ interval now =>
    obtain ⟨⟨-, hfree⟩, rfl⟩ := Machine.guard_some.mp hstep
    obtain ⟨alarm, halarm⟩ := q.addTimer_eq timer when_ interval now
    rw [halarm]
    have hnew := newTimer_accounts hfree when_ interval
    exact ⟨hnew.nodup, hnew.gone, hnew.kept, hnew.made⟩
  | newTimer timer when_ interval =>
    obtain ⟨hfree, rfl⟩ := Machine.guard_some.mp hstep
    have hnew := newTimer_accounts hfree when_ interval
    exact ⟨hnew.nodup, hnew.gone, hnew.kept, hnew.made⟩
  | cancelTimer i =>
    obtain ⟨-, rfl⟩ := Machine.guard_some.mp hstep
    exact cancelInLoop_accounts (fun _ => h.live_of_mem) i.id
  | handOver | getsequence | queueCancel | handleRead | swap | endBatch =>
    obtain ⟨-, rfl⟩ := Machine.guard_some.mp hstep
    exact accounts_none rfl fun _ hlive => ⟨hlive, rfl⟩
  | timeout =>
    obtain ⟨ran, e, todo, -, rfl⟩ := timeout_inv hstep
    exact accounts_none rfl fun _ hlive => ⟨hlive, rfl⟩
  | reset =>
    obtain ⟨ran, -, rfl⟩ := reset_inv hstep
    exact accounts_none rfl fun _ hlive => ⟨hlive, rfl⟩
  | resetOne now =>
    obtain ⟨e, todo, hphase, rfl⟩ := resetOne_inv hstep
    have hone := resetOne_accounts (h.live_of_batch (e := e) (by simp [hphase, Phase.batch])) now
    simp only [deletes, hphase]
    exact ⟨hone.nodup, hone.gone, hone.kept, hone.made⟩
  | rearm now =>
    obtain ⟨-, rfl⟩ := Machine.guard_some.mp hstep
    obtain ⟨alarm, halarm⟩ := q.rearm_eq now
    rw [halarm]
    exact accounts_none rfl fun _ hlive => ⟨hlive, rfl⟩
  | callFunctor now =>
    obtain ⟨f, rest, hphase, hruns, rfl⟩ := callFunctor_inv hstep
    simp only [deletes, hruns]
    cases f with
    | addTimerInLoop timer =>
      obtain ⟨alarm, halarm⟩ := addTimerInLoop_eq { q with tempRuns := rest } timer now
      rw [callFunctor, halarm]
      exact accounts_none rfl fun _ hlive => ⟨hlive, rfl⟩
    | cancelInLoop i =>
      have hcancel := cancelInLoop_accounts (q := { q with tempRuns := rest }) (fun _ => h.live_of_mem) i.id
      exact ⟨hcancel.nodup, hcancel.gone, hcancel.kept, hcancel.made⟩

theorem step_inserts [Seconds ι] {q u : TimerQueue ι} {l : Label ι} (h : q.Owned) (hstep : step q l = some u)
    {e : Entry} (he : e ∈ q.inserts l) : e ∉ q.pTimers ∧ u.pTimers = q.pTimers.insert e := by
  have hnot : ∀ t a, q.inTimers a = 0 → (⟨t, a⟩ : Entry) ∉ q.pTimers := fun t a hzero hmem =>
    absurd (inTimers_pos.mpr ⟨t, hmem⟩) (by omega)
  cases l with
  | addTimer timer when_ interval now =>
    obtain ⟨⟨-, hfree⟩, rfl⟩ := Machine.guard_some.mp hstep
    obtain ⟨alarm, halarm⟩ := q.addTimer_eq timer when_ interval now
    rw [inserts, List.mem_singleton] at he
    subst he
    exact ⟨hnot when_ timer (h.dead hfree.1).1, by rw [halarm]⟩
  | callFunctor now =>
    obtain ⟨f, rest, -, hruns, rfl⟩ := callFunctor_inv hstep
    simp only [inserts, hruns] at he
    cases f with
    | addTimerInLoop timer =>
      rw [List.mem_singleton] at he
      subst he
      obtain ⟨alarm, halarm⟩ := addTimerInLoop_eq { q with tempRuns := rest } timer now
      have honce := h.once timer
      have hle := Bool.toNat_le (q.live timer)
      simp only [inFunctors, hruns, List.filterMap_cons, Queued.adds, List.count_cons_self] at honce
      refine ⟨hnot _ timer (by omega), ?_⟩
      rw [callFunctor, halarm]
      rfl
    | cancelInLoop i => cases he
  | resetOne now =>
    obtain ⟨d, todo, hphase, rfl⟩ := resetOne_inv hstep
    simp only [inserts, hphase] at he
    split at he
    · rename_i hrepeat
      rw [List.mem_singleton] at he
      subst he
      have honce := h.once d.second
      have hle := Bool.toNat_le (q.live d.second)
      simp only [inBatch, hphase, Phase.batch, List.map_cons, List.count_cons_self] at honce
      refine ⟨hnot _ d.second (by omega), ?_⟩
      simp [resetOne, hrepeat, insert, getStamp]
    · cases he
  | _ => cases he

/-! ## Runs -/

/-- The deleted timers were created, are gone, and are all that are gone. -/
structure Ledger (ds : List Nat) (q : TimerQueue ι) : Prop where
  owned : q.Owned
  named : q.Named
  nodup : ds.Nodup
  gone : ∀ n ∈ ds, q.Gone n
  created : ∀ n ∈ ds, 1 ≤ n
  numbered : ∀ a, q.live a = true → 1 ≤ q.getsequence a
  all : ∀ n, 1 ≤ n → n ≤ q.sequeue → n ∈ ds ∨ ∃ a, q.live a = true ∧ q.getsequence a = n

theorem init_ledger (mem : Addr → Timer ι) : Ledger [] (init mem) where
  owned := init_owned mem
  named := init_named mem
  nodup := List.nodup_nil
  gone := fun _ hn => absurd hn List.not_mem_nil
  created := fun _ hn => absurd hn List.not_mem_nil
  numbered := fun a ha => by cases ha
  all := fun n hpos hle => by simp only [init] at hle; omega

theorem step_ledger [Seconds ι] {q u : TimerQueue ι} {l : Label ι} {ds : List Nat} (h : Ledger ds q)
    (hstep : step q l = some u) : Ledger (ds ++ (q.deletes l).map q.getsequence) u := by
  have haccounts := step_accounts h.owned hstep
  obtain ⟨hseq, hlive⟩ := step_live hstep
  refine ⟨step_owned h.owned hstep, step_named h.named hstep, ?_, fun n hn => ?_, fun n hn => ?_, fun a ha => ?_,
    fun n hpos hle => ?_⟩
  · rw [List.nodup_append]
    refine ⟨h.nodup, haccounts.nodup.map_on ?_, ?_⟩
    · intro a ha b hb hab
      exact h.named.distinct a b (haccounts.gone a ha).1 (haccounts.gone b hb).1 hab
    · rintro n hn m hm rfl
      obtain ⟨a, ha, hseqa⟩ := List.mem_map.mp hm
      exact (h.gone n hn).2 a (haccounts.gone a ha).1 hseqa
  · rcases List.mem_append.mp hn with hn | hn
    · exact (h.gone n hn).step hstep
    · obtain ⟨a, ha, rfl⟩ := List.mem_map.mp hn
      obtain ⟨halive, hdead⟩ := haccounts.gone a ha
      have hbound := h.named.bound a halive
      refine ⟨by omega, fun b hb hsame => ?_⟩
      rcases hlive b hb with ⟨hold, hkept⟩ | ⟨hnew, -, -⟩
      · have hba := h.named.distinct b a hold halive (hkept ▸ hsame)
        rw [hba, hdead] at hb
        cases hb
      · omega
  · rcases List.mem_append.mp hn with hn | hn
    · exact h.created n hn
    · obtain ⟨a, ha, rfl⟩ := List.mem_map.mp hn
      exact h.numbered a (haccounts.gone a ha).1
  · rcases hlive a ha with ⟨hold, hkept⟩ | ⟨hnew, -, -⟩
    · rw [hkept]
      exact h.numbered a hold
    · omega
  · by_cases hold : n ≤ q.sequeue
    · rcases h.all n hpos hold with hn | ⟨a, ha, rfl⟩
      · exact Or.inl (List.mem_append_left _ hn)
      · by_cases hgone : a ∈ q.deletes l
        · exact Or.inl (List.mem_append_right _ (List.mem_map_of_mem hgone))
        · exact Or.inr ⟨a, haccounts.kept a hgone ha⟩
    · exact Or.inr (haccounts.made n (by omega) hle)

/-- The timers that are held and those that were deleted are all that were created, each of them once. -/
theorem Ledger.perm {q : TimerQueue ι} {ds : List Nat} (h : Ledger ds q) :
    (q.held.map q.getsequence ++ ds).Perm (List.range' 1 q.sequeue) := by
  have hheld : ∀ {a}, a ∈ q.held → q.live a = true := fun ha => h.owned.mem_held.mp ha
  have hnodup : (q.held.map q.getsequence ++ ds).Nodup := by
    rw [List.nodup_append]
    refine ⟨h.owned.held_nodup.map_on ?_, h.nodup, ?_⟩
    · intro a ha b hb hab
      exact h.named.distinct a b (hheld ha) (hheld hb) hab
    · rintro n hn m hm rfl
      obtain ⟨a, ha, hseq⟩ := List.mem_map.mp hn
      exact (h.gone n hm).2 a (hheld ha) hseq
  rw [List.perm_ext_iff_of_nodup hnodup (List.nodup_range' 1)]
  intro n
  rw [List.mem_append, List.mem_map, List.mem_range'_1]
  constructor
  · rintro (⟨a, ha, rfl⟩ | hn)
    · have hbound := h.named.bound a (hheld ha)
      have hpos := h.numbered a (hheld ha)
      omega
    · have hbound := (h.gone n hn).1
      have hpos := h.created n hn
      omega
  · rintro ⟨hpos, hlt⟩
    rcases h.all n hpos (by omega) with hn | ⟨a, ha, hseq⟩
    · exact Or.inr hn
    · exact Or.inl ⟨a, h.owned.mem_held.mpr ha, hseq⟩

/-- In every run: `_pTimers` holds each timer once, under the stamp that the timer has, an insertion finds no equal
entry, a timer is in a place exactly while it is alive, a step deletes exactly the timers whose life it ends, every
timer that was created is in one place or was deleted once, and a cancel of a pending timer removes its entry. -/
theorem timers_accounted [Seconds ι] (mem : Addr → Timer ι) (labels : List (Label ι)) (q : TimerQueue ι)
    (hrun : Machine.run step (init mem) labels = some q) :
    (∀ e ∈ q.pTimers, e.first = q.getStamp e.second) ∧ (q.pTimers.toList.map Entry.second).Nodup ∧
    (∀ l u, step q l = some u → ∀ e ∈ q.inserts l, e ∉ q.pTimers ∧ u.pTimers = q.pTimers.insert e) ∧
    (∀ a, a ∈ q.held ↔ q.live a = true) ∧
    (∀ l u, step q l = some u → ∀ a, a ∈ q.deletes l ↔ q.live a = true ∧ u.live a = false) ∧
    (q.held.map q.getsequence ++ (init mem).deleted labels).Perm (List.range' 1 q.sequeue) ∧
    (∀ id : TimerId, ∀ e ∈ q.pTimers, e.second = id.timer →
      (q.cancelInLoop id).pTimers = q.pTimers.erase e ∧ (q.cancelInLoop id).live e.second = false) := by
  have hledger : Ledger ([] ++ (init mem).deleted labels) q :=
    Machine.run_outputs (R := Ledger) (fun _ _ _ _ h hstep => step_ledger h hstep) (init_ledger mem) hrun
  have howned := hledger.owned
  refine ⟨fun e he => (howned.stamps e he).symm, ?_, fun l u hstep e he => step_inserts howned hstep he,
    fun a => howned.mem_held, fun l u hstep a => (step_accounts howned hstep).mem_iff, hledger.perm,
    fun id e he hid => ?_⟩
  · refine List.nodup_iff_count_le_one.mpr fun a => ?_
    have honce := howned.once a
    have hle := Bool.toNat_le (q.live a)
    rw [inTimers] at honce
    omega
  · obtain rfl : e = ⟨q.getStamp id.timer, id.timer⟩ := (entry_eq howned.stamps he).mpr hid
    rw [cancelInLoop, if_pos he]
    exact ⟨rfl, Function.update_self _ _ _⟩

/-- A one-shot timer and a repeating one fire. -/
def fireBoth : List (Label Nat) :=
  [.addTimer 16 5 0 0, .addTimer 32 5 2 0, .handleRead 6, .timeout, .timeout, .reset, .resetOne 6, .resetOne 6,
    .rearm 6]

theorem timers_accounted_fireBoth : ∃ q, Machine.run step (init fun _ => ⟨0, 0, 0⟩) fireBoth = some q ∧
    q.held = [32] ∧ ([2] ++ (init fun _ => (⟨0, 0, 0⟩ : Timer Nat)).deleted fireBoth).Perm [1, 2] := by
  have hrun : Machine.run step (init fun _ => ⟨0, 0, 0⟩) fireBoth = some _ := rfl
  exact ⟨_, hrun, by decide, (timers_accounted _ fireBoth _ hrun).2.2.2.2.2.1⟩

end Muduo.TimerQueue
