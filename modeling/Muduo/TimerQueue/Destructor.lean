import Muduo.TimerQueue.Ledger

/-! # The end of a queue

The destructor deletes what is in `_pTimers`. A timer that stands elsewhere is deleted by nothing any more.
-/

namespace Muduo.TimerQueue

variable {ι : Type*}

/-- `~TimerQueue`: the channel is removed, the descriptor closed, and the loop runs over `_pTimers`. -/
def destroy (q : TimerQueue ι) : TimerQueue ι :=
  q.pTimers.toList.foldl (fun q timer => q.deleteTimer timer.second) { q with timerfd := none }

/-- The timers that are in no entry of `_pTimers`: calls of `addTimer`, queued functors, the expired batch. -/
def elsewhere (q : TimerQueue ι) : List Addr :=
  q.adding.filterMap Adding.owns ++ q.tempRuns.filterMap Queued.adds ++ q.pendingFunctors.filterMap Queued.adds ++
    q.phase.batch.map Entry.second

/-! ## The loop -/

theorem foldl_deleteTimer (timers : List Entry) (q : TimerQueue ι) (a : Addr) :
    (timers.foldl (fun q timer => q.deleteTimer timer.second) q).live a = true ↔
      q.live a = true ∧ a ∉ timers.map Entry.second := by
  induction timers generalizing q with
  | nil => simp
  | cons e timers ih =>
    rw [List.foldl_cons, ih, List.map_cons, List.mem_cons, not_or, ← and_assoc]
    refine and_congr_left fun _ => ?_
    by_cases hae : a = e.second
    · simp [deleteTimer, hae]
    · simp [deleteTimer, hae]

theorem destroy_live (q : TimerQueue ι) (a : Addr) :
    q.destroy.live a = true ↔ q.live a = true ∧ a ∉ q.pTimers.toList.map Entry.second :=
  foldl_deleteTimer q.pTimers.toList { q with timerfd := none } a

theorem held_perm (q : TimerQueue ι) : q.held.Perm (q.pTimers.toList.map Entry.second ++ q.elsewhere) := by
  rw [List.perm_iff_count]
  intro a
  simp only [held, elsewhere, List.count_append]
  omega

theorem Owned.destroy_live_iff {q : TimerQueue ι} (h : q.Owned) (a : Addr) :
    q.destroy.live a = true ↔ a ∈ q.elsewhere := by
  have hnodup : (q.pTimers.toList.map Entry.second ++ q.elsewhere).Nodup := q.held_perm.nodup_iff.mp h.held_nodup
  have hdisjoint := (List.nodup_append.mp hnodup).2.2
  rw [destroy_live, ← h.mem_held, q.held_perm.mem_iff, List.mem_append]
  constructor
  · rintro ⟨hin | helse, hout⟩
    · exact absurd hin hout
    · exact helse
  · intro helse
    exact ⟨Or.inr helse, fun hin => hdisjoint a hin a helse rfl⟩

/-! ## Runs -/

/-- In whatever state a run leaves the queue, the destructor deletes live timers, each of them once. The timers that
live on are the ones that stand elsewhere, and with the deleted ones they are all that were ever created. With no
call of `addTimer` and no functor left and outside `handleRead` none lives on. -/
theorem destroy_accounts [Seconds ι] (mem : Addr → Timer ι) (labels : List (Label ι)) (q : TimerQueue ι)
    (hrun : Machine.run step (init mem) labels = some q) :
    let freed := q.pTimers.toList.map Entry.second
    freed.Nodup ∧ (∀ a ∈ freed, q.live a = true) ∧ (∀ a, q.destroy.live a = true ↔ a ∈ q.elsewhere) ∧
    ((init mem).deleted labels ++ freed.map q.getsequence ++ q.elsewhere.map q.getsequence).Perm
      (List.range' 1 q.sequeue) ∧
    (q.adding = [] → q.tempRuns = [] → q.pendingFunctors = [] → q.phase = .handlers →
      ((init mem).deleted labels ++ freed.map q.getsequence).Perm (List.range' 1 q.sequeue)) := by
  intro freed
  have hledger : Ledger ([] ++ (init mem).deleted labels) q :=
    Machine.run_outputs (R := Ledger) (fun _ _ _ _ h hstep => step_ledger h hstep) (init_ledger mem) hrun
  have howned := hledger.owned
  have hnodup : (freed ++ q.elsewhere).Nodup := q.held_perm.nodup_iff.mp howned.held_nodup
  have hall : ((init mem).deleted labels ++ freed.map q.getsequence ++ q.elsewhere.map q.getsequence).Perm
      (List.range' 1 q.sequeue) := by
    rw [List.append_assoc, ← List.map_append]
    refine List.perm_append_comm.trans (List.Perm.trans ?_ hledger.perm)
    exact (q.held_perm.map q.getsequence).symm.append_right _
  refine ⟨(List.nodup_append.mp hnodup).1, fun a ha => ?_, howned.destroy_live_iff, hall, ?_⟩
  · obtain ⟨e, he, rfl⟩ := List.mem_map.mp ha
    exact howned.live_of_mem he
  · intro hadding hruns hpending hphase
    have hnone : q.elsewhere = [] := by simp [elsewhere, hadding, hruns, hpending, hphase, Phase.batch]
    rwa [hnone, List.map_nil, List.append_nil] at hall

/-- Another thread has handed over its timer, and the queue is destroyed before the functor is called. -/
def handedOver : List (Label Nat) :=
  [.addTimer 16 5 0 0, .addTimer 32 5 2 0, .newTimer 48 9 0, .handOver ⟨48, 3, false⟩, .cancelTimer ⟨⟨16, 1⟩, 1⟩]

theorem destroy_accounts_handedOver : ∃ q, Machine.run step (init fun _ => ⟨0, 0, 0⟩) handedOver = some q ∧
    (∀ a, q.destroy.live a = true ↔ a ∈ [48]) ∧ ([1] ++ [2] ++ [3]).Perm (List.range' 1 3) := by
  have hrun : Machine.run step (init fun _ => ⟨0, 0, 0⟩) handedOver = some _ := rfl
  have h := destroy_accounts _ handedOver _ hrun
  exact ⟨_, hrun, h.2.2.1, h.2.2.2.1⟩

end Muduo.TimerQueue
