import Muduo.TimerQueue.Alarm
import Muduo.TimerQueue.Ledger

/-! # One tick

From `handleRead` to the end of its `reset`. The callbacks in between add and cancel timers, in the set
from which the batch was cut and into which `reset` puts part of it back.
-/

namespace Muduo.TimerQueue

variable {ι : Type*}

/-- The timers in `_pTimers`, in its order: stamps and sequence numbers. -/
def pending (q : TimerQueue ι) : List (Timestamp × Nat) :=
  q.pTimers.toList.map fun e => (e.first, q.getsequence e.second)

def due (q : TimerQueue ι) (now : Timestamp) : List Entry := q.pTimers.toList.filter (·.first ≤ now)

/-! ## What happens in a tick -/

inductive Event where
  | invoked (own : Nat)
  | added (p : Timestamp × Nat)
  /-- `cancelInLoop` found this timer at the id's address. -/
  | removed (i : Issued) (p : Timestamp × Nat)
  /-- In this timer's own turn of `reset`, where the clock read `clock`. -/
  | restarted (clock : Timestamp) (p : Timestamp × Nat)
  deriving DecidableEq, Repr

def Event.invokes : Event → Option Nat
  | .invoked own => some own
  | _ => none

def Event.adds : Event → Option (Timestamp × Nat)
  | .added p => some p
  | _ => none

def Event.removes : Event → Option (Timestamp × Nat)
  | .removed _ p => some p
  | _ => none

def Event.restarts : Event → Option (Timestamp × Nat)
  | .restarted _ p => some p
  | _ => none

def invoked (os : List Event) : List Nat := os.filterMap Event.invokes

def added (os : List Event) : List (Timestamp × Nat) := os.filterMap Event.adds

def removed (os : List Event) : List (Timestamp × Nat) := os.filterMap Event.removes

def restarted (os : List Event) : List (Timestamp × Nat) := os.filterMap Event.restarts

@[simp]
theorem invoked_append (os es : List Event) : invoked (os ++ es) = invoked os ++ invoked es := List.filterMap_append

@[simp]
theorem added_append (os es : List Event) : added (os ++ es) = added os ++ added es := List.filterMap_append

@[simp]
theorem removed_append (os es : List Event) : removed (os ++ es) = removed os ++ removed es := List.filterMap_append

@[simp]
theorem restarted_append (os es : List Event) : restarted (os ++ es) = restarted os ++ restarted es :=
  List.filterMap_append

def happens [Seconds ι] (q : TimerQueue ι) : Label ι → List Event
  | .timeout => q.callback.toList.map Event.invoked
  | .addTimer _ when_ _ _ => [.added (when_, q.sequeue + 1)]
  | .cancelTimer i =>
    if ⟨q.getStamp i.id.timer, i.id.timer⟩ ∈ q.pTimers then
      [.removed i (q.getStamp i.id.timer, q.getsequence i.id.timer)]
    else []
  | .resetOne now =>
    match q.phase with
    | .resetting (e :: _) =>
      if (q.mem e.second).isRepeat then
        [.restarted now (((q.mem e.second).restart now).stamp, q.getsequence e.second)]
      else []
    | _ => []
  | _ => []

def events [Seconds ι] (q : TimerQueue ι) (labels : List (Label ι)) : List Event :=
  Machine.outputs step happens q labels

/-! ## The batch -/

/-- With no timer at `UINTPTR_MAX`, the sentry cuts behind the last stamp that is not past `now`. -/
theorem lt_sentry {e : Entry} (he : e.second < UINTPTR_MAX) (now : Timestamp) : e < sentry now ↔ e.first ≤ now := by
  change toLex (e.first, e.second) < toLex (now, UINTPTR_MAX) ↔ _
  rw [Prod.Lex.toLex_lt_toLex, le_iff_lt_or_eq]
  constructor
  · rintro (hlt | ⟨heq, -⟩)
    · exact Or.inl hlt
    · exact Or.inr heq
  · rintro (hlt | heq)
    · exact Or.inl hlt
    · exact Or.inr ⟨heq, he⟩

theorem below_due {q : TimerQueue ι} (hspace : ∀ e ∈ q.pTimers, e.second < UINTPTR_MAX) (now : Timestamp) :
    q.pTimers.below (sentry now) = q.due now := by
  rw [OrderedSet.below_eq_filter, due]
  refine List.filter_congr fun e he => ?_
  rw [decide_eq_decide]
  exact lt_sentry (hspace e he) now

theorem due_sorted (q : TimerQueue ι) (now : Timestamp) : (q.due now).Pairwise fun a b => a.first ≤ b.first := by
  refine (q.pTimers.sorted.imp fun hlt => ?_).sublist List.filter_sublist
  rcases Prod.Lex.toLex_lt_toLex.mp hlt with h | ⟨h, -⟩
  · exact le_of_lt h
  · exact le_of_eq h

theorem entry_of_number {q : TimerQueue ι} (howned : q.Owned) (hnamed : q.Named) {d e : Entry} (hd : d ∈ q.pTimers)
    (he : e ∈ q.pTimers) (h : q.getsequence d.second = q.getsequence e.second) : d = e := by
  have hsecond : d.second = e.second :=
    hnamed.distinct _ _ (howned.live_of_mem hd) (howned.live_of_mem he) h
  have hfirst : d.first = e.first := by rw [← howned.stamps d hd, ← howned.stamps e he, hsecond]
  cases d
  cases e
  simp only at hsecond hfirst
  rw [hsecond, hfirst]

theorem numbers_nodup {q : TimerQueue ι} (howned : q.Owned) (hnamed : q.Named) :
    (q.pTimers.toList.map fun e => q.getsequence e.second).Nodup :=
  q.pTimers.nodup.map_on fun _ hd _ he h => entry_of_number howned hnamed hd he h

variable [Seconds ι]

/-- How far the tick that began in `q` has come. Until `reset`, `handleRead` holds the whole batch, and `reset` has
passed over `done` of it. -/
def Place (q : TimerQueue ι) (now : Timestamp) (os : List Event) (s : TimerQueue ι) : Prop :=
  (∃ ran todo, s.phase = .firing ran todo ∧ ran ++ todo = q.pTimers.below (sentry now) ∧
    invoked os = ran.map (fun e => q.getsequence e.second) ∧ restarted os = []) ∨
  (∃ done todo, s.phase = .resetting todo ∧ done ++ todo = q.pTimers.below (sentry now) ∧
    invoked os = (done ++ todo).map (fun e => q.getsequence e.second) ∧
    (∀ p ∈ restarted os, ∃ e ∈ done, (q.mem e.second).isRepeat = true ∧ p.2 = q.getsequence e.second) ∧
    (∀ e ∈ done, (q.mem e.second).isRepeat = true → ∃ clock,
      .restarted clock (Seconds.nowAfter clock (q.mem e.second).interval, q.getsequence e.second) ∈ os))

/-- The state of a tick. What was pending behind the batch is still there, with what was added and restarted and
without what was removed. -/
structure Ticking (q : TimerQueue ι) (now : Timestamp) (os : List Event) (s : TimerQueue ι) : Prop where
  owned : s.Owned
  named : s.Named
  later : q.sequeue ≤ s.sequeue
  place : q.Place now os s
  kept : ∀ e ∈ s.phase.batch, s.mem e.second = q.mem e.second
  ledger : (s.pending ++ removed os).Perm
    ((q.pTimers.eraseBelow (sentry now)).toList.map (fun e => (e.first, q.getsequence e.second)) ++ added os ++
      restarted os)
  fresh : ∀ p ∈ added os, q.sequeue < p.2
  spared : ∀ p ∈ removed os, ∀ e ∈ q.pTimers.below (sentry now), p.2 ≠ q.getsequence e.second

/-! ## Steps of a tick -/

omit [Seconds ι] in
theorem pending_congr {s u : TimerQueue ι} (htimers : u.pTimers = s.pTimers)
    (hseq : ∀ e ∈ s.pTimers, u.getsequence e.second = s.getsequence e.second) : u.pending = s.pending := by
  rw [pending, pending, htimers]
  exact List.map_congr_left fun e he => by rw [hseq e he]

omit [Seconds ι] in
theorem pending_insert {s u : TimerQueue ι} {e : Entry} (hnew : e ∉ s.pTimers)
    (htimers : u.pTimers = s.pTimers.insert e)
    (hseq : ∀ d ∈ s.pTimers, u.getsequence d.second = s.getsequence d.second) :
    u.pending.Perm ((e.first, u.getsequence e.second) :: s.pending) := by
  rw [pending, htimers]
  refine ((OrderedSet.perm_insert hnew).map _).trans ?_
  rw [List.map_cons, pending, List.map_congr_left fun d hd => by rw [hseq d hd]]

omit [Seconds ι] in
theorem pending_erase {s u : TimerQueue ι} {e : Entry} (he : e ∈ s.pTimers) (htimers : u.pTimers = s.pTimers.erase e)
    (hmem : u.mem = s.mem) : s.pending.Perm ((e.first, s.getsequence e.second) :: u.pending) := by
  rw [pending, pending, htimers]
  refine ((OrderedSet.perm_erase he).map _).trans ?_
  rw [List.map_cons]
  simp only [getsequence, hmem]
  exact List.Perm.refl _

theorem Ticking.quiet {q s u : TimerQueue ι} {now : Timestamp} {os : List Event} {l : Label ι}
    (h : Ticking q now os s) (hstep : step s l = some u) (htimers : u.pTimers = s.pTimers) (hphase : u.phase = s.phase)
    (hmem : ∀ a, s.live a = true → u.mem a = s.mem a) : Ticking q now os u := by
  have hpending : u.pending = s.pending :=
    pending_congr htimers fun e he => by rw [getsequence, hmem _ (h.owned.live_of_mem he), getsequence]
  refine ⟨step_owned h.owned hstep, step_named h.named hstep, h.later.trans (step_live hstep).1, ?_, ?_, ?_, h.fresh,
    h.spared⟩
  · unfold Place
    rw [hphase]
    exact h.place
  · rw [hphase]
    intro e he
    rw [hmem _ (h.owned.live_of_batch he), h.kept e he]
  · rw [hpending]
    exact h.ledger

theorem Ticking.place_append {q s u : TimerQueue ι} {now : Timestamp} {os es : List Event} (h : Ticking q now os s)
    (hphase : u.phase = s.phase) (hinvoked : invoked es = []) (hrestarted : restarted es = []) :
    q.Place now (os ++ es) u := by
  unfold Place
  rw [invoked_append, restarted_append, hinvoked, hrestarted, List.append_nil, List.append_nil, hphase]
  refine h.place.imp_right ?_
  rintro ⟨done, todo, hresetting, hbatch, hall, hnumbers, hdone⟩
  refine ⟨done, todo, hresetting, hbatch, hall, hnumbers, fun e he hrepeat => ?_⟩
  obtain ⟨clock, hclock⟩ := hdone e he hrepeat
  exact ⟨clock, List.mem_append_left _ hclock⟩

theorem Ticking.ledger_append {q s u : TimerQueue ι} {now : Timestamp} {os es : List Event} (h : Ticking q now os s)
    (hpending : (u.pending ++ removed es).Perm (s.pending ++ added es ++ restarted es)) :
    (u.pending ++ removed (os ++ es)).Perm
      ((q.pTimers.eraseBelow (sentry now)).toList.map (fun e => (e.first, q.getsequence e.second)) ++
        added (os ++ es) ++ restarted (os ++ es)) := by
  have hledger := h.ledger
  rw [List.perm_iff_count] at hledger hpending ⊢
  intro p
  have hp := hledger p
  have hq := hpending p
  simp only [added_append, removed_append, restarted_append, List.count_append] at hp hq ⊢
  omega

theorem Ticking.append {q s u : TimerQueue ι} {now : Timestamp} {os es : List Event} (h : Ticking q now os s)
    (howned : u.Owned) (hnamed : u.Named) (hlater : s.sequeue ≤ u.sequeue)
    (hplace : q.Place now (os ++ es) u)
    (hkept : ∀ e ∈ u.phase.batch, u.mem e.second = q.mem e.second)
    (hpending : (u.pending ++ removed es).Perm (s.pending ++ added es ++ restarted es))
    (hfresh : ∀ p ∈ added es, q.sequeue < p.2)
    (hspared : ∀ p ∈ removed es, ∀ e ∈ q.pTimers.below (sentry now), p.2 ≠ q.getsequence e.second) :
    Ticking q now (os ++ es) u := by
  refine ⟨howned, hnamed, h.later.trans hlater, hplace, hkept, h.ledger_append hpending, fun p hp => ?_, fun p hp => ?_⟩
  · rw [added_append, List.mem_append] at hp
    exact hp.elim (h.fresh p) (hfresh p)
  · rw [removed_append, List.mem_append] at hp
    exact hp.elim (h.spared p) (hspared p)

theorem addTimer_ticking {q s : TimerQueue ι} {now : Timestamp} {os : List Event} (h : Ticking q now os s)
    {timer : Addr} {when_ : Timestamp} {interval : ι} {clock : Timestamp} {u : TimerQueue ι}
    (hstep : step s (.addTimer timer when_ interval clock) = some u) :
    Ticking q now (os ++ s.happens (.addTimer timer when_ interval clock)) u := by
  have howned := step_owned h.owned hstep
  have hnamed := step_named h.named hstep
  have hlater := (step_live hstep).1
  obtain ⟨⟨-, hfree⟩, hu⟩ := Machine.guard_some.mp hstep
  obtain ⟨alarm, halarm⟩ := s.addTimer_eq timer when_ interval clock
  rw [halarm] at hu
  have hphase : u.phase = s.phase := by rw [← hu]; rfl
  have hne : ∀ a, s.live a = true → a ≠ timer := by
    rintro a ha rfl
    rw [hfree.1] at ha
    cases ha
  have hmem : ∀ a, s.live a = true → u.mem a = s.mem a := by
    intro a ha
    rw [← hu]
    exact Function.update_of_ne (hne a ha) _ _
  have hpending : u.pending.Perm ((when_, s.sequeue + 1) :: s.pending) := by
    have hnew : (⟨when_, timer⟩ : Entry) ∉ s.pTimers := fun he => hne timer (h.owned.live_of_mem he) rfl
    have hnumber : u.getsequence timer = s.sequeue + 1 := by
      rw [← hu]
      simp [getsequence, newTimer]
    rw [← hnumber]
    exact pending_insert hnew (by rw [← hu]) fun d hd => by
      rw [getsequence, hmem _ (h.owned.live_of_mem hd), getsequence]
  refine h.append howned hnamed hlater (h.place_append hphase rfl rfl) (fun e he => ?_) ?_ (fun p hp => ?_)
    fun p hp => absurd hp List.not_mem_nil
  · rw [hphase] at he
    rw [hmem _ (h.owned.live_of_batch he), h.kept e he]
  · change (u.pending ++ []).Perm (s.pending ++ [(when_, s.sequeue + 1)] ++ [])
    rw [List.append_nil, List.append_nil]
    exact hpending.trans (List.perm_append_singleton _ _).symm
  · rw [List.mem_singleton.mp hp]
    exact Nat.lt_succ_of_le h.later

/-- In a callback the batch is whole, and none of its timers is in `_pTimers`. -/
theorem Ticking.apart {q s : TimerQueue ι} {now : Timestamp} {os : List Event} (h : Ticking q now os s)
    (huser : s.InUserCode) {a : Addr} (ha : 0 < s.inTimers a) {e : Entry} (he : e ∈ q.pTimers.below (sentry now)) :
    s.getsequence a ≠ q.getsequence e.second := by
  have hlive : s.live a = true := by
    obtain ⟨t, ht⟩ := inTimers_pos.mp ha
    exact h.owned.live_of_mem ht
  rcases h.place with ⟨ran, todo, hfiring, hbatch, -⟩ | ⟨done, todo, hresetting, -⟩
  · have heb : e ∈ s.phase.batch := by
      rw [hfiring, Phase.batch, hbatch]
      exact he
    have hkept : s.getsequence e.second = q.getsequence e.second := by
      rw [getsequence, h.kept e heb, getsequence]
    rw [← hkept]
    intro hsame
    have hid : a = e.second := h.named.distinct _ _ hlive (h.owned.live_of_batch heb) hsame
    have honce := h.owned.once a
    have hin : 0 < s.inBatch a := List.count_pos_iff.mpr (hid ▸ List.mem_map_of_mem heb)
    have hle := Bool.toNat_le (s.live a)
    omega
  · exact absurd hresetting (huser.2 todo)

theorem cancelTimer_ticking {q s : TimerQueue ι} {now : Timestamp} {os : List Event} (h : Ticking q now os s)
    {i : Issued} {u : TimerQueue ι} (hstep : step s (.cancelTimer i) = some u) :
    Ticking q now (os ++ s.happens (.cancelTimer i)) u := by
  have howned := step_owned h.owned hstep
  have hnamed := step_named h.named hstep
  have hlater := (step_live hstep).1
  obtain ⟨⟨huser, -⟩, hu⟩ := Machine.guard_some.mp hstep
  obtain ⟨-, -, -, -, hphase, hmem⟩ := s.cancelInLoop_ids i.id
  rw [hu] at hphase hmem
  rcases s.cancelInLoop_eq i.id with ⟨hfound, heq⟩ | ⟨hno, heq⟩
  · rw [hu] at heq
    have hpending := pending_erase hfound (by rw [heq]) hmem
    rw [happens, if_pos hfound]
    refine h.append howned hnamed hlater (h.place_append hphase rfl rfl) ?_ ?_ (fun p hp => absurd hp List.not_mem_nil)
      fun p hp e he => ?_
    · rw [hphase, hmem]
      exact h.kept
    · change (u.pending ++ [_]).Perm (s.pending ++ [] ++ [])
      rw [List.append_nil, List.append_nil]
      exact (List.perm_append_singleton _ _).trans hpending.symm
    · rw [List.mem_singleton.mp hp]
      exact h.apart huser (inTimers_pos.mpr ⟨_, hfound⟩) he
  · rw [hu] at heq
    rw [happens, if_neg hno, List.append_nil, heq]
    exact h

theorem timeout_ticking {q s : TimerQueue ι} {now : Timestamp} {os : List Event} (h : Ticking q now os s)
    {u : TimerQueue ι} (hstep : step s .timeout = some u) : Ticking q now (os ++ s.happens .timeout) u := by
  have howned := step_owned h.owned hstep
  have hnamed := step_named h.named hstep
  obtain ⟨ran, e, todo, hphase, rfl⟩ := timeout_inv hstep
  have hhappens : s.happens .timeout = [.invoked (s.getsequence e.second)] := by
    simp [happens, callback, hphase]
  have hkept : s.getsequence e.second = q.getsequence e.second := by
    rw [getsequence, h.kept e (by simp [hphase, Phase.batch]), getsequence]
  rw [hhappens, hkept]
  refine h.append howned hnamed (Nat.le_refl _) (Or.inl ?_) (fun d hd => h.kept d ?_) ?_
    (fun p hp => absurd hp List.not_mem_nil) fun p hp => absurd hp List.not_mem_nil
  · rcases h.place with ⟨ran', todo', hfiring, hbatch, hran, hnone⟩ | ⟨done, todo', hresetting, -⟩
    · rw [hphase, Phase.firing.injEq] at hfiring
      obtain ⟨rfl, rfl⟩ := hfiring
      refine ⟨ran ++ [e], todo, rfl, by simpa using hbatch, ?_, ?_⟩
      · rw [invoked_append, hran, List.map_append]
        rfl
      · rw [restarted_append, hnone]
        rfl
    · rw [hphase] at hresetting
      cases hresetting
  · simpa [hphase, Phase.batch] using hd
  · change (s.pending ++ []).Perm (s.pending ++ [] ++ [])
    rw [List.append_nil, List.append_nil]

theorem reset_ticking {q s : TimerQueue ι} {now : Timestamp} {os : List Event} (h : Ticking q now os s)
    {u : TimerQueue ι} (hstep : step s .reset = some u) : Ticking q now os u := by
  have howned := step_owned h.owned hstep
  have hnamed := step_named h.named hstep
  obtain ⟨ran, hphase, rfl⟩ := reset_inv hstep
  refine ⟨howned, hnamed, h.later, Or.inr ?_, ?_, h.ledger, h.fresh, h.spared⟩
  · rcases h.place with ⟨ran', todo, hfiring, hbatch, hran, hnone⟩ | ⟨done, todo, hresetting, -⟩
    · rw [hphase, Phase.firing.injEq] at hfiring
      obtain ⟨rfl, rfl⟩ := hfiring
      rw [List.append_nil] at hbatch
      refine ⟨[], ran, rfl, hbatch, hran, ?_, fun e he => absurd he List.not_mem_nil⟩
      intro p hp
      rw [hnone] at hp
      cases hp
    · rw [hphase] at hresetting
      cases hresetting
  · intro d hd
    refine h.kept d ?_
    simpa [hphase, Phase.batch] using hd

omit [Seconds ι] in
theorem head_alone {s : TimerQueue ι} (h : s.Owned) {e : Entry} {todo : List Entry}
    (hphase : s.phase = .resetting (e :: todo)) :
    (∀ d ∈ s.pTimers, d.second ≠ e.second) ∧ ∀ d ∈ todo, d.second ≠ e.second := by
  have heb : e ∈ s.phase.batch := by simp [hphase, Phase.batch]
  have honly := h.once e.second
  rw [h.live_of_batch heb, Bool.toNat_true] at honly
  simp only [inBatch, hphase, Phase.batch, List.map_cons, List.count_cons_self] at honly
  constructor
  · intro d hd heq
    have hpos : 0 < s.inTimers e.second := inTimers_pos.mpr ⟨d.first, heq ▸ hd⟩
    omega
  · intro d hd heq
    have hpos : 0 < (todo.map Entry.second).count e.second := List.count_pos_iff.mpr (heq ▸ List.mem_map_of_mem hd)
    omega

theorem Ticking.pass {q s u : TimerQueue ι} {now : Timestamp} {os es : List Event} (h : Ticking q now os s) {e : Entry}
    {todo : List Entry} (hphase : s.phase = .resetting (e :: todo)) (hpassed : u.phase = .resetting todo)
    (hinvoked : invoked es = [])
    (hnumbers : ∀ p ∈ restarted es, (q.mem e.second).isRepeat = true ∧ p.2 = q.getsequence e.second)
    (hrestarts : (q.mem e.second).isRepeat = true → ∃ clock,
      .restarted clock (Seconds.nowAfter clock (q.mem e.second).interval, q.getsequence e.second) ∈ es) :
    q.Place now (os ++ es) u := by
  rcases h.place with ⟨ran, todo', hfiring, -⟩ | ⟨done, todo', hresetting, hbatch, hall, hold, hdone⟩
  · rw [hphase] at hfiring
    cases hfiring
  · rw [hphase, Phase.resetting.injEq] at hresetting
    subst hresetting
    refine Or.inr ⟨done ++ [e], todo, hpassed, by simpa using hbatch, ?_, fun p hp => ?_, fun d hd hrepeat => ?_⟩
    · rw [invoked_append, hinvoked, List.append_nil, hall]
      simp
    · rw [restarted_append, List.mem_append] at hp
      rcases hp with hp | hp
      · obtain ⟨d, hd, hrest⟩ := hold p hp
        exact ⟨d, List.mem_append_left _ hd, hrest⟩
      · exact ⟨e, by simp, hnumbers p hp⟩
    · rcases List.mem_append.mp hd with hd | hd
      · obtain ⟨clock, hclock⟩ := hdone d hd hrepeat
        exact ⟨clock, List.mem_append_left _ hclock⟩
      · rw [List.mem_singleton] at hd
        subst hd
        obtain ⟨clock, hclock⟩ := hrestarts hrepeat
        exact ⟨clock, List.mem_append_right _ hclock⟩

theorem resetOne_ticking {q s : TimerQueue ι} {now : Timestamp} {os : List Event} (h : Ticking q now os s)
    {clock : Timestamp} {u : TimerQueue ι} (hstep : step s (.resetOne clock) = some u) :
    Ticking q now (os ++ s.happens (.resetOne clock)) u := by
  have howned := step_owned h.owned hstep
  have hnamed := step_named h.named hstep
  have hlater := (step_live hstep).1
  obtain ⟨e, todo, hphase, hu⟩ := resetOne_inv hstep
  have hkept : s.mem e.second = q.mem e.second := h.kept e (by simp [hphase, Phase.batch])
  obtain ⟨hothers, hrest⟩ := head_alone h.owned hphase
  have hbatch : ∀ d ∈ todo, s.mem d.second = q.mem d.second := fun d hd => h.kept d (by simp [hphase, Phase.batch, hd])
  cases hrepeat : (q.mem e.second).isRepeat with
  | true =>
    have hreset : u = { s with
        mem := Function.update s.mem e.second ((q.mem e.second).restart clock)
        pTimers := s.pTimers.insert ⟨Seconds.nowAfter clock (q.mem e.second).interval, e.second⟩
        phase := .resetting todo } := by
      rw [hu]
      simp [resetOne, hkept, hrepeat, insert, getStamp, Timer.restart]
    have hhappens : s.happens (.resetOne clock) =
        [.restarted clock (Seconds.nowAfter clock (q.mem e.second).interval, q.getsequence e.second)] := by
      simp [happens, hphase, hkept, hrepeat, getsequence, Timer.restart]
    have hpending : u.pending.Perm
        ((Seconds.nowAfter clock (q.mem e.second).interval, q.getsequence e.second) :: s.pending) := by
      have hnumber : u.getsequence e.second = q.getsequence e.second := by
        rw [hreset]
        simp [getsequence, Timer.restart]
      rw [← hnumber]
      refine pending_insert (e := ⟨Seconds.nowAfter clock (q.mem e.second).interval, e.second⟩)
        (fun he => hothers _ he rfl) (by rw [hreset]) fun d hd => ?_
      rw [hreset]
      simp [getsequence, Function.update_of_ne (hothers d hd)]
    rw [hhappens]
    have hplace := h.pass hphase (show u.phase = .resetting todo by rw [hreset]) rfl
      (fun p hp => by rw [List.mem_singleton.mp hp]; exact ⟨hrepeat, rfl⟩) fun _ => ⟨clock, List.mem_singleton_self _⟩
    refine h.append howned hnamed hlater hplace (fun d hd => ?_) ?_
      (fun p hp => absurd hp List.not_mem_nil) fun p hp => absurd hp List.not_mem_nil
    · rw [hreset] at hd ⊢
      simp only [Function.update_of_ne (hrest d hd), hbatch d hd]
    · change (u.pending ++ []).Perm (s.pending ++ [] ++ [_])
      rw [List.append_nil, List.append_nil]
      exact hpending.trans (List.perm_append_singleton _ _).symm
  | false =>
    have hreset : u = { s with live := Function.update s.live e.second false, phase := .resetting todo } := by
      rw [hu]
      simp [resetOne, hkept, hrepeat, deleteTimer]
    have hhappens : s.happens (.resetOne clock) = [] := by
      simp [happens, hphase, hkept, hrepeat]
    have hpending : u.pending = s.pending := by
      rw [hreset]
      rfl
    rw [hhappens]
    have hplace := h.pass hphase (show u.phase = .resetting todo by rw [hreset]) (show invoked [] = [] from rfl)
      (fun p hp => absurd hp List.not_mem_nil) fun hyes => by rw [hrepeat] at hyes; cases hyes
    refine h.append howned hnamed hlater hplace (fun d hd => ?_) ?_
      (fun p hp => absurd hp List.not_mem_nil) fun p hp => absurd hp List.not_mem_nil
    · rw [hreset] at hd ⊢
      exact hbatch d hd
    · simp [hpending, added, removed, restarted]

theorem step_ticking {q s u : TimerQueue ι} {now : Timestamp} {os : List Event} {l : Label ι} (h : Ticking q now os s)
    (hl : ∀ later, l ≠ .rearm later) (hstep : step s l = some u) : Ticking q now (os ++ s.happens l) u := by
  have hbusy : s.phase ≠ .handlers ∧ s.phase ≠ .draining := by
    rcases h.place with ⟨ran, todo, hphase, -⟩ | ⟨done, todo, hphase, -⟩ <;> simp [hphase]
  cases l with
  | scribble timer t =>
    obtain ⟨hdead, hu⟩ := Machine.guard_some.mp hstep
    change Ticking q now (os ++ []) u
    rw [List.append_nil]
    refine h.quiet hstep (by rw [← hu]) (by rw [← hu]) fun a ha => ?_
    have hne : a ≠ timer := by
      rintro rfl
      rw [hdead] at ha
      cases ha
    rw [← hu]
    exact Function.update_of_ne hne _ _
  | newTimer timer when_ interval =>
    obtain ⟨hfree, hu⟩ := Machine.guard_some.mp hstep
    change Ticking q now (os ++ []) u
    rw [List.append_nil]
    refine h.quiet hstep (by rw [← hu]; rfl) (by rw [← hu]; rfl) fun a ha => ?_
    have hne : a ≠ timer := by
      rintro rfl
      rw [hfree.1] at ha
      cases ha
    rw [← hu]
    exact Function.update_of_ne hne _ _
  | handOver | getsequence | queueCancel =>
    obtain ⟨-, hu⟩ := Machine.guard_some.mp hstep
    change Ticking q now (os ++ []) u
    rw [List.append_nil]
    exact h.quiet hstep (by rw [← hu]) (by rw [← hu]) fun a _ => by rw [← hu]
  | addTimer timer when_ interval clock => exact addTimer_ticking h hstep
  | cancelTimer i => exact cancelTimer_ticking h hstep
  | timeout => exact timeout_ticking h hstep
  | reset =>
    change Ticking q now (os ++ []) u
    rw [List.append_nil]
    exact reset_ticking h hstep
  | resetOne clock => exact resetOne_ticking h hstep
  | rearm later => exact absurd rfl (hl later)
  | handleRead | swap =>
    obtain ⟨hphase, -⟩ := Machine.guard_some.mp hstep
    exact absurd hphase hbusy.1
  | callFunctor clock =>
    obtain ⟨f, rest, hphase, -⟩ := callFunctor_inv hstep
    exact absurd hphase hbusy.2
  | endBatch =>
    obtain ⟨⟨hphase, -⟩, -⟩ := Machine.guard_some.mp hstep
    exact absurd hphase hbusy.2

/-! ## Runs -/

/-- Until the next `rearm`. -/
def InTick (_ : TimerQueue ι) (l : Label ι) : Prop := ∀ later, l ≠ .rearm later

theorem handleRead_ticking {q : TimerQueue ι} (howned : q.Owned) (hnamed : q.Named) {now : Timestamp} {s : TimerQueue ι}
    (hstep : step q (.handleRead now) = some s) : Ticking q now [] s := by
  have howned' := step_owned howned hstep
  have hnamed' := step_named hnamed hstep
  obtain ⟨-, rfl⟩ := Machine.guard_some.mp hstep
  refine ⟨howned', hnamed', Nat.le_refl _, Or.inl ⟨[], _, rfl, rfl, rfl, rfl⟩, fun _ _ => rfl, ?_, ?_, ?_⟩
  · rw [show added [] = [] from rfl, show removed [] = [] from rfl, show restarted [] = [] from rfl, List.append_nil,
      List.append_nil, List.append_nil]
    exact List.Perm.refl _
  · rintro p ⟨⟩
  · rintro p ⟨⟩

theorem run_ticking {q s : TimerQueue ι} {now : Timestamp} {mid : List (Label ι)} (howned : q.Owned) (hnamed : q.Named)
    (hmid : ∀ later, .rearm later ∉ mid) (hrun : Machine.run step q (.handleRead now :: mid) = some s) :
    Ticking q now (q.events (.handleRead now :: mid)) s := by
  obtain ⟨t, ht, hrest⟩ := Machine.run_cons_some.mp hrun
  rw [events, Machine.outputs_cons ht]
  refine Machine.run_outputs_of_meets (C := InTick) (fun _ _ _ _ h hl hstep => step_ticking h hl hstep)
    (handleRead_ticking howned hnamed ht) ?_ hrest
  rintro pre l r hpre - later rfl
  exact hmid later (hpre.subset (by simp))

theorem happens_inv {q : TimerQueue ι} {l : Label ι} {o : Event} (ho : o ∈ q.happens l) :
    (∃ n, o = .invoked n) ∨ (∃ p, o = .added p) ∨
    (∃ i, l = .cancelTimer i ∧ ⟨q.getStamp i.id.timer, i.id.timer⟩ ∈ q.pTimers ∧
      o = .removed i (q.getStamp i.id.timer, q.getsequence i.id.timer)) ∨
    (∃ clock p, l = .resetOne clock ∧ o = .restarted clock p) := by
  cases l with
  | timeout =>
    obtain ⟨n, -, rfl⟩ := List.mem_map.mp ho
    exact Or.inl ⟨n, rfl⟩
  | addTimer timer when_ interval clock =>
    rw [happens, List.mem_singleton] at ho
    exact Or.inr (Or.inl ⟨_, ho⟩)
  | cancelTimer i =>
    rw [happens] at ho
    split at ho
    · rename_i hfound
      exact Or.inr (Or.inr (Or.inl ⟨i, rfl, hfound, List.mem_singleton.mp ho⟩))
    · cases ho
  | resetOne clock =>
    simp only [happens] at ho
    split at ho
    · split at ho
      · exact Or.inr (Or.inr (Or.inr ⟨clock, _, rfl, List.mem_singleton.mp ho⟩))
      · cases ho
    · cases ho
  | _ => cases ho

theorem removed_named {q : TimerQueue ι} {labels : List (Label ι)} (hmeets : Machine.Meets step Unshared q labels)
    {p : Timestamp × Nat} (hp : p ∈ removed (q.events labels)) : ∃ i, .cancelTimer i ∈ labels ∧ i.own = p.2 := by
  obtain ⟨o, ho, hop⟩ := List.mem_filterMap.mp hp
  obtain ⟨pre, l, t, hpre, hrun, hout⟩ := Machine.mem_outputs ho
  rcases happens_inv hout with ⟨n, rfl⟩ | ⟨r, rfl⟩ | ⟨i, rfl, hfound, rfl⟩ | ⟨clock, r, -, rfl⟩
  · cases hop
  · cases hop
  · rw [Event.removes, Option.some.injEq] at hop
    rw [← hop]
    exact ⟨i, hpre.subset (by simp), (hmeets pre _ t hpre hrun i rfl _ hfound rfl).symm⟩
  · cases hop

theorem restarted_clock {q : TimerQueue ι} {labels : List (Label ι)} {clock : Timestamp} {p : Timestamp × Nat}
    (hp : .restarted clock p ∈ q.events labels) : .resetOne clock ∈ labels := by
  obtain ⟨pre, l, t, hpre, -, hout⟩ := Machine.mem_outputs hp
  rcases happens_inv hout with ⟨n, hn⟩ | ⟨r, hr⟩ | ⟨i, -, -, hi⟩ | ⟨later, r, rfl, hr⟩
  · cases hn
  · cases hr
  · cases hi
  · cases hr
    exact hpre.subset (by simp)

/-! ## The end of a tick -/

theorem Ticking.finished {q s : TimerQueue ι} {now : Timestamp} {os : List Event} (h : Ticking q now os s)
    (hphase : s.phase = .resetting []) :
    invoked os = (q.pTimers.below (sentry now)).map (fun e => q.getsequence e.second) ∧
    (∀ p ∈ restarted os, ∃ e ∈ q.pTimers.below (sentry now),
      (q.mem e.second).isRepeat = true ∧ p.2 = q.getsequence e.second) ∧
    (∀ e ∈ q.pTimers.below (sentry now), (q.mem e.second).isRepeat = true → ∃ clock,
      .restarted clock (Seconds.nowAfter clock (q.mem e.second).interval, q.getsequence e.second) ∈ os) := by
  rcases h.place with ⟨ran, todo, hfiring, -⟩ | ⟨done, todo, hresetting, hbatch, hrest⟩
  · rw [hphase] at hfiring
    cases hfiring
  · rw [hphase, Phase.resetting.injEq] at hresetting
    subst hresetting
    rw [List.append_nil] at hbatch hrest
    rw [← hbatch]
    exact hrest

theorem Ticking.stays {q s : TimerQueue ι} {now : Timestamp} {os : List Event} (h : Ticking q now os s)
    {p : Timestamp × Nat} (hp : p ∈ (q.pTimers.eraseBelow (sentry now)).toList.map
      (fun e => (e.first, q.getsequence e.second)) ∨ p ∈ added os) (hno : p ∉ removed os) : p ∈ s.pending := by
  have hin : p ∈ s.pending ++ removed os := h.ledger.mem_iff.mpr (List.mem_append_left _ (List.mem_append.mpr hp))
  exact (List.mem_append.mp hin).resolve_right hno

theorem Ticking.back {q s : TimerQueue ι} {now : Timestamp} {os : List Event} (h : Ticking q now os s) {e : Entry}
    (he : e ∈ q.pTimers.below (sentry now)) {t : Timestamp} (hp : (t, q.getsequence e.second) ∈ restarted os) :
    (t, q.getsequence e.second) ∈ s.pending := by
  have hin := h.ledger.mem_iff.mpr (List.mem_append_right _ hp)
  exact (List.mem_append.mp hin).resolve_right fun hgone => h.spared _ hgone e he rfl

theorem Ticking.ended {q s : TimerQueue ι} {now : Timestamp} {os : List Event} (h : Ticking q now os s)
    (howned : q.Owned) (hnamed : q.Named) {e : Entry} (he : e ∈ q.pTimers.below (sentry now))
    (honce : (q.mem e.second).isRepeat = false)
    (hnumbers : ∀ p ∈ restarted os, ∃ e ∈ q.pTimers.below (sentry now),
      (q.mem e.second).isRepeat = true ∧ p.2 = q.getsequence e.second) (t : Timestamp) :
    (t, q.getsequence e.second) ∉ s.pending := by
  have hmem : ∀ d ∈ q.pTimers.below (sentry now), d ∈ q.pTimers := fun d hd =>
    (List.takeWhile_sublist _).subset hd
  intro ht
  rcases List.mem_append.mp (h.ledger.mem_iff.mp (List.mem_append_left _ ht)) with hin | hin
  · rcases List.mem_append.mp hin with hin | hin
    · obtain ⟨d, hd, heq⟩ := List.mem_map.mp hin
      obtain ⟨hdmem, hle⟩ := OrderedSet.mem_eraseBelow hd
      rw [Prod.mk.injEq] at heq
      have hde := entry_of_number howned hnamed hdmem (hmem e he) heq.2
      subst hde
      rw [OrderedSet.below_eq_filter] at he
      exact absurd (by simpa using (List.mem_filter.mp he).2) (not_lt.mpr hle)
    · have hle := hnamed.bound _ (howned.live_of_mem (hmem e he))
      have hlt := h.fresh _ hin
      simp only at hlt
      omega
  · obtain ⟨d, hd, hrepeat, heq⟩ := hnumbers _ hin
    have hde := entry_of_number howned hnamed (hmem e he) (hmem d hd) heq
    subst hde
    rw [honce] at hrepeat
    cases hrepeat

/-- A tick invokes the callbacks of the timers that are due, each once and in the order of the stamps, and no other.
What a callback adds waits for a later tick. Behind it no one-shot timer of the batch is pending, every repeating
timer of the batch is, under its new stamp, and so is every other timer that no callback cancelled, under its old
one. -/
theorem one_tick (mem : Addr → Timer ι) (before mid : List (Label ι)) (now later : Timestamp) (q u : TimerQueue ι)
    (hq : Machine.run step (init mem) before = some q)
    (htick : Machine.run step q (.handleRead now :: mid ++ [.rearm later]) = some u) (hmid : ∀ t, .rearm t ∉ mid)
    (hcancels : Machine.Meets step Unshared q (.handleRead now :: mid)) :
    let os := q.events (.handleRead now :: mid)
    invoked os = (q.due now).map (fun e => q.getsequence e.second) ∧ (invoked os).Nodup ∧
    (q.due now).Pairwise (fun a b => a.first ≤ b.first) ∧
    (∀ p ∈ added os, p.2 ∉ invoked os ∧ ((∀ i, .cancelTimer i ∈ mid → i.own ≠ p.2) → p ∈ u.pending)) ∧
    (∀ e ∈ q.due now, (q.mem e.second).isRepeat = false → ∀ t, (t, q.getsequence e.second) ∉ u.pending) ∧
    (∀ e ∈ q.due now, (q.mem e.second).isRepeat = true → ∃ clock, .resetOne clock ∈ mid ∧
      .restarted clock (Seconds.nowAfter clock (q.mem e.second).interval, q.getsequence e.second) ∈ os ∧
      (Seconds.nowAfter clock (q.mem e.second).interval, q.getsequence e.second) ∈ u.pending) ∧
    (∀ e ∈ q.pTimers, now < e.first → (∀ i, .cancelTimer i ∈ mid → i.own ≠ q.getsequence e.second) →
      (e.first, q.getsequence e.second) ∈ u.pending) ∧
    (u.pending.map Prod.snd).Nodup := by
  intro os
  have howned : q.Owned := Machine.run_invariant (fun _ _ _ h hstep => step_owned h hstep) (init_owned mem) hq
  have hnamed : q.Named := Machine.run_invariant (fun _ _ _ h hstep => step_named h hstep) (init_named mem) hq
  have hspace : ∀ e ∈ q.pTimers, e.second < UINTPTR_MAX := fun e he =>
    Machine.run_invariant (I := fun q : TimerQueue ι => ∀ a, q.live a = true → a < UINTPTR_MAX)
      (fun _ _ _ h hstep => step_space h hstep) (fun a ha => by cases ha) hq e.second (howned.live_of_mem he)
  obtain ⟨s, hs, hrearm⟩ := Machine.run_append_some.mp htick
  have h := run_ticking howned hnamed hmid hs
  obtain ⟨v, hv, hend⟩ := Machine.run_cons_some.mp hrearm
  rw [Machine.run_nil, Option.some.injEq] at hend
  subst hend
  obtain ⟨hphase, hu⟩ := Machine.guard_some.mp hv
  have hpending : v.pending = s.pending := by
    obtain ⟨alarm, halarm⟩ := s.rearm_eq later
    rw [← hu, halarm]
    rfl
  obtain ⟨hinvoked, hnumbers, hdone⟩ := h.finished hphase
  have hno : ∀ p : Timestamp × Nat, (∀ i, .cancelTimer i ∈ mid → i.own ≠ p.2) → p ∉ removed os := by
    intro p hcancel hgone
    obtain ⟨i, hi, hown⟩ := removed_named hcancels hgone
    exact hcancel i ((List.mem_cons.mp hi).resolve_left (by simp)) hown
  rw [below_due hspace] at hinvoked
  rw [hpending]
  refine ⟨hinvoked, ?_, due_sorted q now, fun p hp => ⟨?_, fun hcancel => h.stays (Or.inr hp) (hno p hcancel)⟩,
    fun e he honce t => ?_, fun e he hrepeat => ?_, fun e he hlt hcancel => h.stays (Or.inl ?_) (hno _ hcancel), ?_⟩
  · rw [hinvoked]
    exact (numbers_nodup howned hnamed).sublist (List.filter_sublist.map _)
  · rw [hinvoked]
    intro hin
    obtain ⟨e, he, heq⟩ := List.mem_map.mp hin
    have hle := hnamed.bound _ (howned.live_of_mem (List.mem_filter.mp he).1)
    have hlt := h.fresh p hp
    omega
  · exact h.ended howned hnamed (by rw [below_due hspace]; exact he) honce hnumbers t
  · rw [← below_due hspace] at he
    obtain ⟨clock, hclock⟩ := hdone e he hrepeat
    exact ⟨clock, (List.mem_cons.mp (restarted_clock hclock)).resolve_left (by simp), hclock,
      h.back he (List.mem_filterMap.mpr ⟨_, hclock, rfl⟩)⟩
  · refine List.mem_map.mpr ⟨e, ?_, rfl⟩
    have hsplit : e ∈ q.pTimers.below (sentry now) ++ (q.pTimers.eraseBelow (sentry now)).toList := by
      rw [OrderedSet.below_append]
      exact he
    refine (List.mem_append.mp hsplit).resolve_left fun hbelow => ?_
    rw [below_due hspace] at hbelow
    exact absurd (by simpa using (List.mem_filter.mp hbelow).2) (not_le.mpr hlt)
  · rw [pending, List.map_map]
    exact numbers_nodup h.owned h.named

/-- A one-shot timer, a repeating one with the same stamp, and one that is not due. -/
def threeTimers : List (Label Nat) := [.addTimer 16 5 0 0, .addTimer 32 5 2 0, .addTimer 48 9 0 0]

/-- The first callback adds a timer in the past, and the second cancels the one that is not due. -/
def addAndCancel : List (Label Nat) :=
  [.timeout, .addTimer 64 1 0 6, .timeout, .cancelTimer ⟨⟨48, 3⟩, 3⟩, .reset, .resetOne 7, .resetOne 7]

theorem one_tick_addAndCancel :
    ∃ q u, Machine.run step (init fun _ => ⟨0, 0, 0⟩) threeTimers = some q ∧
      Machine.run step q (.handleRead 5 :: addAndCancel ++ [.rearm 8]) = some u ∧
      invoked (q.events (.handleRead 5 :: addAndCancel)) = [1, 2] ∧ u.pending = [(1, 4), (2000007, 2)] ∧
      (u.pending.map Prod.snd).Nodup := by
  refine ⟨_, _, rfl, rfl, ?_⟩
  have htick := one_tick (fun _ => ⟨0, 0, 0⟩) threeTimers addAndCancel 5 8 _ _ rfl rfl (by simp [addAndCancel]) ?_
  · exact ⟨htick.1, by decide, htick.2.2.2.2.2.2.2⟩
  · iterate 4 refine (Machine.meets_cons rfl).mpr ⟨by rintro i ⟨⟩, ?_⟩
    refine (Machine.meets_cons rfl).mpr ⟨?_, ?_⟩
    · rintro i ⟨⟩
      decide
    · iterate 3 refine (Machine.meets_cons rfl).mpr ⟨by rintro i ⟨⟩, ?_⟩
      exact Machine.meets_nil _

end Muduo.TimerQueue
