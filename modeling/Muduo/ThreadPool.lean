import Mathlib.Algebra.Order.BigOperators.Group.Finset
import Mathlib.Data.List.ReduceOption
import Mathlib.Logic.Function.Basic
import Muduo.BlockingQueue
import Muduo.Potential

/-! # `ThreadPool`

`include/ThreadPool.h` over `BlockingQueue`: the tasks that are added, and the workers in `runInThread`. An empty
`std::function` is `none`.
-/

namespace Muduo

structure ThreadPool (τ φ : Type*) where
  /-- `_tasks` -/
  tasks : BlockingQueue τ (Option φ)
  /-- The size of `_threads`. -/
  threads : Nat
  /-- The threads in `runInThread`. -/
  workers : Finset τ
  /-- The task that a worker is in. -/
  running : τ → Option φ
  /-- What `addTask` called itself, or tried to. -/
  inlined : List (Option φ)
  /-- The calls of workers, in the order in which their tasks were taken. -/
  begun : List (τ × φ)
  finished : List (τ × φ)

namespace ThreadPool

variable {τ φ : Type*}

def init : ThreadPool τ φ :=
  { tasks := .init
    threads := 0
    workers := ∅
    running := fun _ => none
    inlined := []
    begun := []
    finished := [] }

inductive Label (τ φ : Type*) where
  /-- One turn of the loop in `start`. `created` is whether `pthread_create` made a thread. -/
  | start (t : τ) (created : Bool)
  /-- Any thread, a worker in a task too. `notify` wakes these workers. -/
  | addTask (cb : Option φ) (woken : Finset τ)
  | take (t : τ)
  /-- A spurious wakeup. -/
  | wake (t : τ)
  | resume (t : τ)
  /-- The task of a worker returns. -/
  | finish (t : τ)

/-! ## Member functions -/

variable [DecidableEq τ]

def start (s : ThreadPool τ φ) (t : τ) (created : Bool) : ThreadPool τ φ :=
  { s with threads := s.threads + 1, workers := if created then insert t s.workers else s.workers }

/-- Without threads the caller runs the task, and an empty one throws. -/
def addTask (s : ThreadPool τ φ) (cb : Option φ) (woken : Finset τ) : Option (ThreadPool τ φ) :=
  if s.threads = 0 then some { s with inlined := s.inlined ++ [cb] }
  else (s.tasks.step (.put cb woken)).map fun tasks => { s with tasks }

/-- What a worker that tests the queue now gets from `take`. -/
def taken (s : ThreadPool τ φ) : Option φ := s.tasks.queue.head?.join

/-- `runInThread` behind a test in `take`: `if (cb) cb()`, or asleep. -/
def runInThread (s : ThreadPool τ φ) (t : τ) (tasks : BlockingQueue τ (Option φ)) : ThreadPool τ φ :=
  match s.taken with
  | some f => { s with tasks, running := Function.update s.running t (some f), begun := s.begun ++ [(t, f)] }
  | none => { s with tasks }

def finish (s : ThreadPool τ φ) (t : τ) (f : φ) : ThreadPool τ φ :=
  { s with running := Function.update s.running t none, finished := s.finished ++ [(t, f)] }

/-! ## Steps -/

def step (s : ThreadPool τ φ) : Label τ φ → Option (ThreadPool τ φ)
  | .start t created => if t ∉ s.workers then some (s.start t created) else none
  | .addTask cb woken => s.addTask cb woken
  | .take t =>
    if t ∈ s.workers ∧ (s.running t).isNone then (s.tasks.step (.take t)).map (s.runInThread t) else none
  | .wake t => (s.tasks.step (.wake t)).map fun tasks => { s with tasks }
  | .resume t => (s.tasks.step (.resume t)).map (s.runInThread t)
  | .finish t => (s.running t).map (s.finish t)

/-- The tasks in the order in which `addTask` ran them or put them into the queue. -/
def submitted (labels : List (Label τ φ)) : List (Option φ) :=
  labels.filterMap fun
    | .addTask cb _ => some cb
    | _ => none

/-- The tasks that a worker was in. -/
def tasksOf (t : τ) (calls : List (τ × φ)) : List φ := (calls.filter fun c => c.1 = t).map Prod.snd

/-! ## The invariant -/

/-- A worker is asleep, on its way back into the mutex, in a task or about to call `take`, and it finishes what it
began before it takes the next. -/
structure Sound (s : ThreadPool τ φ) : Prop where
  served : s.tasks.Served
  apart : Disjoint s.tasks.waiting s.tasks.spurious
  inTake : ∀ t, s.tasks.InTake t → t ∈ s.workers ∧ s.running t = none
  employed : ∀ t, s.running t ≠ none → t ∈ s.workers
  counted : s.workers.card ≤ s.threads
  unused : s.threads = 0 → s.tasks.taken = [] ∧ s.tasks.queue = []
  hired : ∀ c ∈ s.begun, c.1 ∈ s.workers
  begun : s.begun.map Prod.snd = s.tasks.taken.reduceOption
  each : ∀ t, tasksOf t s.begun = tasksOf t s.finished ++ (s.running t).toList

theorem init_sound : (init : ThreadPool τ φ).Sound where
  served := BlockingQueue.init_served
  apart := Finset.disjoint_empty_left _
  inTake := by simp [init, BlockingQueue.init, BlockingQueue.InTake]
  employed := fun t hrunning => absurd rfl hrunning
  counted := le_refl _
  unused := fun _ => ⟨rfl, rfl⟩
  hired := fun c hc => absurd hc List.not_mem_nil
  begun := rfl
  each := fun t => rfl

@[simp]
theorem tasksOf_append (t : τ) (calls later : List (τ × φ)) :
    tasksOf t (calls ++ later) = tasksOf t calls ++ tasksOf t later := by
  simp [tasksOf]

@[simp]
theorem tasksOf_singleton (t u : τ) (f : φ) : tasksOf t [(u, f)] = if u = t then [f] else [] := by
  by_cases h : u = t <;> simp [tasksOf, h]

/-! ## One turn of `runInThread` -/

/-- The queue when worker `t` tests it, back in the mutex. -/
def awake (s : ThreadPool τ φ) (t : τ) : BlockingQueue τ (Option φ) :=
  { s.tasks with signalled := s.tasks.signalled.erase t, spurious := s.tasks.spurious.erase t }

theorem turn_inv {s u : ThreadPool τ φ} (h : s.Sound) {t : τ} {l : Label τ φ} (hl : l = .take t ∨ l = .resume t)
    (hstep : step s l = some u) :
    t ∈ s.workers ∧ s.running t = none ∧ t ∉ s.tasks.waiting ∧ u = s.runInThread t ((s.awake t).test t) := by
  rcases hl with rfl | rfl
  · simp only [step, BlockingQueue.step, Option.isNone_iff_eq_none] at hstep
    split at hstep
    · rename_i hfree
      simp only [Option.map_eq_some_iff, Machine.guard_some] at hstep
      obtain ⟨tasks, ⟨hout, rfl⟩, rfl⟩ := hstep
      simp only [BlockingQueue.InTake, not_or] at hout
      refine ⟨hfree.1, hfree.2, hout.1, ?_⟩
      rw [awake, Finset.erase_eq_of_notMem hout.2.1, Finset.erase_eq_of_notMem hout.2.2]
    · cases hstep
  · simp only [step, BlockingQueue.step, Option.map_eq_some_iff, Machine.guard_some] at hstep
    obtain ⟨tasks, ⟨hawake, rfl⟩, rfl⟩ := hstep
    obtain ⟨hworker, hidle⟩ := h.inTake t (Or.inr hawake)
    refine ⟨hworker, hidle, fun hwaits => ?_, rfl⟩
    rcases hawake with hawake | hawake
    · exact Finset.disjoint_left.mp h.served.apart hwaits hawake
    · exact Finset.disjoint_left.mp h.apart hwaits hawake

theorem runInThread_cases (s : ThreadPool τ φ) (t : τ) :
    (s.tasks.queue = [] ∧ s.runInThread t ((s.awake t).test t) = { s with tasks := (s.awake t).wait t }) ∨
    (∃ rest, s.tasks.queue = none :: rest ∧ s.runInThread t ((s.awake t).test t) =
      { s with tasks := { s.awake t with queue := rest, taken := s.tasks.taken ++ [none] } }) ∨
    (∃ f rest, s.tasks.queue = some f :: rest ∧ s.runInThread t ((s.awake t).test t) =
      { s with
        tasks := { s.awake t with queue := rest, taken := s.tasks.taken ++ [some f] }
        running := Function.update s.running t (some f)
        begun := s.begun ++ [(t, f)] }) := by
  cases hqueue : s.tasks.queue with
  | nil => simp [runInThread, taken, BlockingQueue.test, awake, hqueue]
  | cons cb rest =>
    cases cb <;> simp [runInThread, taken, BlockingQueue.test, BlockingQueue.popFront, awake, hqueue]

@[simp]
theorem runInThread_tasks (s : ThreadPool τ φ) (t : τ) (tasks : BlockingQueue τ (Option φ)) :
    (s.runInThread t tasks).tasks = tasks := by
  unfold runInThread
  split <;> rfl

theorem turn_sound {s u : ThreadPool τ φ} (h : s.Sound) {t : τ} {l : Label τ φ} (hl : l = .take t ∨ l = .resume t)
    (hstep : step s l = some u) : u.Sound := by
  obtain ⟨hworker, hidle, hawake, rfl⟩ := turn_inv h hl hstep
  have hserved : (s.runInThread t ((s.awake t).test t)).tasks.Served := by
    rw [runInThread_tasks]
    refine BlockingQueue.test_served (Finset.notMem_erase t _) h.served.popped
      (h.served.apart.mono_right (Finset.erase_subset t _)) fun hwaits => ?_
    have hlen := h.served.served hwaits
    have hcard : s.tasks.signalled.card - 1 ≤ (s.tasks.signalled.erase t).card := Finset.pred_card_le_card_erase
    simp only [awake]
    omega
  have hsub : ∀ v, (s.awake t).InTake v → s.tasks.InTake v := by
    simp only [awake, BlockingQueue.InTake, Finset.mem_erase]
    tauto
  have hout : ¬ (s.awake t).InTake t := by simp [awake, BlockingQueue.InTake, hawake]
  have hapart : Disjoint s.tasks.waiting (s.tasks.spurious.erase t) := h.apart.mono_right (Finset.erase_subset t _)
  have hthreads : s.threads ≠ 0 := by
    have hpos := Finset.card_pos.mpr ⟨t, hworker⟩
    have hcounted := h.counted
    omega
  have hunused : ∀ {p : Prop}, s.threads = 0 → p := fun hnone => absurd hnone hthreads
  rcases runInThread_cases s t with ⟨hqueue, hturn⟩ | ⟨rest, hqueue, hturn⟩ | ⟨f, rest, hqueue, hturn⟩
  all_goals rw [hturn] at hserved ⊢
  · refine ⟨hserved, ?_, fun v hv => ?_, h.employed, h.counted, hunused, h.hired, h.begun, h.each⟩
    · simpa [BlockingQueue.wait, awake] using hapart
    · simp only [BlockingQueue.wait, BlockingQueue.InTake, Finset.mem_insert] at hv
      by_cases hvt : v = t
      · subst hvt
        exact ⟨hworker, hidle⟩
      · exact h.inTake v (hsub v (by simpa [BlockingQueue.InTake, hvt] using hv))
  · refine ⟨hserved, hapart, fun v hv => h.inTake v (hsub v hv), h.employed, h.counted, hunused, h.hired, ?_, h.each⟩
    simp [h.begun, List.reduceOption_append]
  · refine ⟨hserved, hapart, fun v hv => ?_, fun v hv => ?_, h.counted, hunused, fun c hc => ?_, ?_, fun v => ?_⟩
    · have hvt : v ≠ t := fun hvt => hout (hvt ▸ hv)
      simp only [Function.update_of_ne hvt]
      exact h.inTake v (hsub v hv)
    · by_cases hvt : v = t
      · exact hvt ▸ hworker
      · simp only [ne_eq, Function.update_of_ne hvt] at hv
        exact h.employed v hv
    · rcases List.mem_append.mp hc with hc | hc
      · exact h.hired c hc
      · rw [List.mem_singleton.mp hc]
        exact hworker
    · simp [h.begun, List.reduceOption_append]
    · have heach := h.each v
      by_cases hvt : t = v
      · subst hvt
        rw [hidle] at heach
        simp [heach]
      · simp [heach, hvt, Function.update_of_ne (Ne.symm hvt)]

/-! ## Steps -/

theorem addTask_inv {s u : ThreadPool τ φ} {cb : Option φ} {woken : Finset τ} (hstep : s.addTask cb woken = some u) :
    (s.threads = 0 ∧ u = { s with inlined := s.inlined ++ [cb] }) ∨
    (s.threads ≠ 0 ∧ s.tasks.MayWake woken ∧ u = { s with tasks := s.tasks.put cb woken }) := by
  unfold addTask at hstep
  split at hstep
  · exact Or.inl ⟨by assumption, (Option.some.inj hstep).symm⟩
  · simp only [BlockingQueue.step, Option.map_eq_some_iff, Machine.guard_some] at hstep
    obtain ⟨tasks, ⟨hwoken, rfl⟩, rfl⟩ := hstep
    exact Or.inr ⟨by assumption, hwoken, rfl⟩

theorem wake_inv {s u : ThreadPool τ φ} {t : τ} (hstep : step s (.wake t) = some u) :
    t ∈ s.tasks.waiting ∧ s.tasks.step (.wake t) = some u.tasks ∧
      u = { s with tasks := { s.tasks with
        waiting := s.tasks.waiting.erase t, spurious := insert t s.tasks.spurious } } := by
  simp only [step, BlockingQueue.step, Option.map_eq_some_iff, Machine.guard_some] at hstep ⊢
  obtain ⟨tasks, ⟨hwaits, rfl⟩, rfl⟩ := hstep
  exact ⟨hwaits, ⟨hwaits, rfl⟩, rfl⟩

theorem finish_inv {s u : ThreadPool τ φ} {t : τ} (hstep : step s (.finish t) = some u) :
    ∃ f, s.running t = some f ∧ u = s.finish t f := by
  simp only [step, Option.map_eq_some_iff] at hstep
  obtain ⟨f, hrunning, rfl⟩ := hstep
  exact ⟨f, hrunning, rfl⟩

theorem step_workers {s u : ThreadPool τ φ} {l : Label τ φ} (hstep : step s l = some u) : s.workers ⊆ u.workers := by
  have hturn : ∀ t tasks, (s.runInThread t tasks).workers = s.workers := by
    intro t tasks
    unfold runInThread
    split <;> rfl
  cases l with
  | start t created =>
    obtain ⟨-, rfl⟩ := Machine.guard_some.mp hstep
    unfold start
    dsimp only
    split
    · exact Finset.subset_insert t s.workers
    · exact Finset.Subset.refl _
  | addTask cb woken =>
    rcases addTask_inv hstep with ⟨-, rfl⟩ | ⟨-, -, rfl⟩ <;> exact Finset.Subset.refl _
  | take t =>
    obtain ⟨-, hmap⟩ := Option.ite_none_right_eq_some.mp hstep
    obtain ⟨tasks, -, rfl⟩ := Option.map_eq_some_iff.mp hmap
    rw [hturn]
  | wake t =>
    obtain ⟨-, -, rfl⟩ := wake_inv hstep
    exact Finset.Subset.refl _
  | resume t =>
    obtain ⟨tasks, -, rfl⟩ := Option.map_eq_some_iff.mp hstep
    rw [hturn]
  | finish t =>
    obtain ⟨f, -, rfl⟩ := finish_inv hstep
    exact Finset.Subset.refl _

theorem step_running {s u : ThreadPool τ φ} {l : Label τ φ} (h : s.Sound) (hl : ∀ t, l ≠ .finish t)
    (hstep : step s l = some u) {t : τ} (ht : s.running t ≠ none) : u.running t = s.running t := by
  have hturn : ∀ v, l = .take v ∨ l = .resume v → u.running t = s.running t := by
    intro v hv
    obtain ⟨-, hidle, -, rfl⟩ := turn_inv h hv hstep
    have htv : t ≠ v := fun htv => ht (htv ▸ hidle)
    unfold runInThread
    split
    · exact Function.update_of_ne htv _ _
    · rfl
  cases l with
  | start v created =>
    obtain ⟨-, rfl⟩ := Machine.guard_some.mp hstep
    rfl
  | addTask cb woken =>
    rcases addTask_inv hstep with ⟨-, rfl⟩ | ⟨-, -, rfl⟩ <;> rfl
  | take v => exact hturn v (Or.inl rfl)
  | wake v =>
    obtain ⟨-, -, rfl⟩ := wake_inv hstep
    rfl
  | resume v => exact hturn v (Or.inr rfl)
  | finish v => exact absurd rfl (hl v)

theorem step_sound {s u : ThreadPool τ φ} {l : Label τ φ} (h : s.Sound) (hstep : step s l = some u) : u.Sound := by
  cases l with
  | start t created =>
    have hsub := step_workers hstep
    obtain ⟨-, rfl⟩ := Machine.guard_some.mp hstep
    refine { h with
      inTake := fun v hv => ⟨hsub (h.inTake v hv).1, (h.inTake v hv).2⟩
      employed := fun v hv => hsub (h.employed v hv)
      hired := fun c hc => hsub (h.hired c hc)
      counted := ?_
      unused := fun hnone => absurd hnone (by simp [start]) }
    have hcounted := h.counted
    have hcard := Finset.card_insert_le t s.workers
    unfold start
    dsimp only
    split <;> omega
  | addTask cb woken =>
    rcases addTask_inv hstep with ⟨-, rfl⟩ | ⟨hthreads, hwoken, rfl⟩
    · exact { h with }
    · have hwaits := hwoken.1
      refine { h with
        served := BlockingQueue.put_served h.served cb hwoken
        apart := h.apart.mono_left Finset.sdiff_subset
        inTake := fun v hv => h.inTake v ?_
        unused := fun hnone => absurd hnone hthreads }
      simp only [BlockingQueue.put, BlockingQueue.notify, BlockingQueue.InTake, Finset.mem_sdiff,
        Finset.mem_union] at hv ⊢
      rcases hv with hv | (hv | hv) | hv
      · exact Or.inl hv.1
      · exact Or.inr (Or.inl hv)
      · exact Or.inl (hwaits hv)
      · exact Or.inr (Or.inr hv)
  | take t => exact turn_sound h (Or.inl rfl) hstep
  | wake t =>
    obtain ⟨hwaits, htasks, hu⟩ := wake_inv hstep
    have hserved := BlockingQueue.step_served h.served htasks
    rw [hu] at hserved ⊢
    refine { h with served := hserved, apart := ?_, inTake := fun v hv => h.inTake v ?_ }
    · simpa using h.apart.mono_left (Finset.erase_subset t _)
    · simp only [BlockingQueue.InTake, Finset.mem_erase, Finset.mem_insert] at hv ⊢
      rcases hv with hv | hv | rfl | hv
      · exact Or.inl hv.2
      · exact Or.inr (Or.inl hv)
      · exact Or.inl hwaits
      · exact Or.inr (Or.inr hv)
  | resume t => exact turn_sound h (Or.inr rfl) hstep
  | finish t =>
    obtain ⟨f, hrunning, rfl⟩ := finish_inv hstep
    refine { h with inTake := fun v hv => ⟨(h.inTake v hv).1, ?_⟩, employed := fun v hv => h.employed v ?_, each := ?_ }
    · by_cases hvt : v = t
      · simp [finish, hvt]
      · simp [finish, Function.update_of_ne hvt, (h.inTake v hv).2]
    · intro hnone
      by_cases hvt : v = t
      · simp [finish, hvt] at hv
      · simp [finish, Function.update_of_ne hvt, hnone] at hv
    · intro v
      have heach := h.each v
      by_cases hvt : t = v
      · subst hvt
        simp [finish, heach, hrunning]
      · simp [finish, heach, hvt, Function.update_of_ne (Ne.symm hvt)]

theorem run_sound {s u : ThreadPool τ φ} {labels : List (Label τ φ)} (h : s.Sound)
    (hrun : Machine.run step s labels = some u) : u.Sound :=
  Machine.run_invariant (fun _ _ _ h hstep => step_sound h hstep) h hrun

/-! ## Order -/

/-- The tasks that were submitted: called by `addTask`, taken by workers and still queued. -/
theorem step_order {s u : ThreadPool τ φ} {l : Label τ φ} (h : s.Sound) (hstep : step s l = some u) :
    u.inlined ++ u.tasks.taken ++ u.tasks.queue = s.inlined ++ s.tasks.taken ++ s.tasks.queue ++ submitted [l] := by
  have hturn : ∀ t, l = .take t ∨ l = .resume t →
      u.inlined ++ u.tasks.taken ++ u.tasks.queue = s.inlined ++ s.tasks.taken ++ s.tasks.queue := by
    intro t hl
    obtain ⟨-, -, -, rfl⟩ := turn_inv h hl hstep
    rcases runInThread_cases s t with ⟨hqueue, hturn⟩ | ⟨rest, hqueue, hturn⟩ | ⟨f, rest, hqueue, hturn⟩
    all_goals
      rw [hturn]
      simp [hqueue, awake, BlockingQueue.wait]
  cases l with
  | start t created =>
    obtain ⟨-, rfl⟩ := Machine.guard_some.mp hstep
    simp [start, submitted]
  | addTask cb woken =>
    rcases addTask_inv hstep with ⟨hnone, rfl⟩ | ⟨-, -, rfl⟩
    · obtain ⟨htaken, hqueue⟩ := h.unused hnone
      simp [htaken, hqueue, submitted]
    · simp [BlockingQueue.put, BlockingQueue.notify, submitted]
  | take t => simpa [submitted] using hturn t (Or.inl rfl)
  | wake t =>
    obtain ⟨-, -, rfl⟩ := wake_inv hstep
    simp [submitted]
  | resume t => simpa [submitted] using hturn t (Or.inr rfl)
  | finish t =>
    obtain ⟨f, -, rfl⟩ := finish_inv hstep
    simp [finish, submitted]

theorem run_order {s u : ThreadPool τ φ} {labels : List (Label τ φ)} (h : s.Sound)
    (hrun : Machine.run step s labels = some u) :
    u.inlined ++ u.tasks.taken ++ u.tasks.queue =
      s.inlined ++ s.tasks.taken ++ s.tasks.queue ++ submitted labels := by
  induction labels generalizing s with
  | nil =>
    rw [Machine.run_nil, Option.some.injEq] at hrun
    simp [hrun, submitted]
  | cons l labels ih =>
    obtain ⟨t, hstep, hrest⟩ := Machine.run_cons_some.mp hrun
    have hsplit : submitted (l :: labels) = submitted [l] ++ submitted labels := by
      rw [submitted, ← List.singleton_append, List.filterMap_append]
      rfl
    rw [ih (step_sound h hstep) hrest, step_order h hstep, hsplit, List.append_assoc _ (submitted [l])]

theorem tasksOf_eq {t : τ} {calls : List (τ × φ)} (h : ∀ c ∈ calls, c.1 = t) :
    tasksOf t calls = calls.map Prod.snd := by
  rw [tasksOf, List.filter_eq_self.mpr]
  simpa using h

theorem Sound.finished_hired {s : ThreadPool τ φ} (h : s.Sound) {c : τ × φ} (hc : c ∈ s.finished) :
    c.1 ∈ s.workers := by
  have hmem : c.2 ∈ tasksOf c.1 s.begun := by
    rw [h.each]
    refine List.mem_append_left _ ?_
    simp only [tasksOf, List.mem_map, List.mem_filter, decide_eq_true_eq]
    exact ⟨c, ⟨hc, rfl⟩, rfl⟩
  simp only [tasksOf, List.mem_map, List.mem_filter, decide_eq_true_eq] at hmem
  obtain ⟨d, ⟨hd, hdc⟩, -⟩ := hmem
  exact hdc ▸ h.hired d hd

/-- Every task that is added is called by `addTask`, or taken once, in the order of the calls. A task that is taken and
not empty is called by one worker, and each worker finishes one before it takes the next. A single worker finishes all
of them in order. -/
theorem tasks_once_in_order (labels : List (Label τ φ)) (s : ThreadPool τ φ)
    (hrun : Machine.run step init labels = some s) :
    s.inlined ++ s.tasks.taken ++ s.tasks.queue = submitted labels ∧
    s.begun.map Prod.snd = s.tasks.taken.reduceOption ∧
    (∀ t, tasksOf t s.begun = tasksOf t s.finished ++ (s.running t).toList) ∧
    (∀ t, s.workers ⊆ {t} → s.finished.map Prod.snd ++ (s.running t).toList = s.tasks.taken.reduceOption) := by
  have h : s.Sound := run_sound init_sound hrun
  refine ⟨run_order init_sound hrun, h.begun, h.each, fun t hone => ?_⟩
  have hbegun : tasksOf t s.begun = s.begun.map Prod.snd :=
    tasksOf_eq fun c hc => Finset.mem_singleton.mp (hone (h.hired c hc))
  have hfinished : tasksOf t s.finished = s.finished.map Prod.snd :=
    tasksOf_eq fun c hc => Finset.mem_singleton.mp (hone (h.finished_hired hc))
  rw [← hfinished, ← h.each, hbegun, h.begun]

/-- The second worker takes the task that the first was woken for, and the first skips an empty one. -/
def overtaking : List (Label Nat Nat) :=
  [.addTask (some 6) ∅, .start 1 true, .start 2 true, .take 1, .addTask (some 7) {1}, .take 2, .addTask none ∅,
    .addTask (some 8) ∅, .resume 1, .take 1, .finish 1]

theorem tasks_once_in_order_overtaking : ∃ s, Machine.run step init overtaking = some s ∧
    s.finished = [(1, 8)] ∧ s.running 2 = some 7 ∧
    s.inlined ++ s.tasks.taken ++ s.tasks.queue = [some 6, some 7, none, some 8] := by
  have hrun : Machine.run step init overtaking = some _ := rfl
  exact ⟨_, hrun, rfl, rfl, (tasks_once_in_order overtaking _ hrun).1⟩

/-! ## Coming to rest -/

/-- A worker goes on by itself: it calls `take`, comes back from it or comes back from a task. -/
def Label.Works : Label τ φ → Prop
  | .take _ | .resume _ | .finish _ => True
  | _ => False

/-- The steps that a worker can still make before the next task. -/
def weight (s : ThreadPool τ φ) (t : τ) : Nat :=
  if (s.running t).isSome then 2 else if t ∈ s.tasks.waiting then 0 else 1

def work (s : ThreadPool τ φ) : Nat := 2 * s.tasks.queue.length + ∑ t ∈ s.workers, s.weight t

/-- How much work a step brings. -/
def Label.brings : Label τ φ → Nat
  | .start _ created => if created then 1 else 0
  | .addTask _ woken => 2 + woken.card
  | .wake _ => 1
  | _ => 0

/-- How much work a step takes away at least. -/
def Label.does : Label τ φ → Nat
  | .take _ | .resume _ | .finish _ => 1
  | _ => 0

theorem weight_congr {s u : ThreadPool τ φ} {t : τ} (hrunning : u.running t = s.running t)
    (hwaits : t ∈ u.tasks.waiting ↔ t ∈ s.tasks.waiting) : u.weight t = s.weight t := by
  simp only [weight, hrunning, hwaits]

theorem weight_idle {s : ThreadPool τ φ} {t : τ} (hidle : s.running t = none) :
    s.weight t = if t ∈ s.tasks.waiting then 0 else 1 := by
  simp [weight, hidle]

theorem weight_busy {s : ThreadPool τ φ} {t : τ} {f : φ} (hrunning : s.running t = some f) : s.weight t = 2 := by
  simp [weight, hrunning]

theorem sum_weight {s u : ThreadPool τ φ} {t : τ} (ht : t ∈ s.workers) (hworkers : u.workers = s.workers)
    (hsame : ∀ v, v ≠ t → u.weight v = s.weight v) :
    ∑ v ∈ u.workers, u.weight v + s.weight t = ∑ v ∈ s.workers, s.weight v + u.weight t := by
  rw [hworkers]
  exact Machine.sum_changed ht hsame

theorem turn_pays {s u : ThreadPool τ φ} (h : s.Sound) {t : τ} {l : Label τ φ} (hl : l = .take t ∨ l = .resume t)
    (hstep : step s l = some u) : 1 + u.work ≤ s.work := by
  obtain ⟨hworker, hidle, hawake, hu⟩ := turn_inv h hl hstep
  have hweight : s.weight t = 1 := by rw [weight_idle hidle, if_neg hawake]
  have hworkers : u.workers = s.workers := by
    rw [hu, runInThread]
    split <;> rfl
  rcases runInThread_cases s t with ⟨hqueue, hturn⟩ | ⟨rest, hqueue, hturn⟩ | ⟨f, rest, hqueue, hturn⟩
  all_goals rw [hturn] at hu
  · have hsum := sum_weight hworker hworkers fun v hv => by
      refine weight_congr (by rw [hu]) ?_
      simp [hu, BlockingQueue.wait, awake, hv]
    have hzero : u.weight t = 0 := by
      rw [weight_idle (by rw [hu, hidle]), if_pos]
      simp [hu, BlockingQueue.wait]
    have hnone : u.tasks.queue = [] := by rw [hu, BlockingQueue.wait, awake, hqueue]
    simp only [work, hnone, hqueue]
    omega
  · have hsum := sum_weight hworker hworkers fun v _ => weight_congr (s := s) (u := u) (by rw [hu]) (by rw [hu, awake])
    have hsame : u.weight t = s.weight t := weight_congr (by rw [hu]) (by rw [hu, awake])
    have hrest : u.tasks.queue = rest := by rw [hu]
    simp only [work, hrest, hqueue, List.length_cons]
    omega
  · have hsum := sum_weight hworker hworkers fun v hv =>
      weight_congr (by simp [hu, hv]) (by rw [hu, awake])
    have htwo : u.weight t = 2 := weight_busy (f := f) (by simp [hu])
    have hrest : u.tasks.queue = rest := by rw [hu]
    simp only [work, hrest, hqueue, List.length_cons]
    omega

theorem step_pays {s u : ThreadPool τ φ} {l : Label τ φ} (h : s.Sound) (hstep : step s l = some u) :
    l.does + u.work ≤ s.work + l.brings := by
  cases l with
  | start t created =>
    obtain ⟨ht, rfl⟩ := Machine.guard_some.mp hstep
    cases created with
    | false => simp [start, work, Label.does, Label.brings, weight]
    | true =>
      have hidle : s.running t = none := by
        by_contra hrunning
        exact ht (h.employed t hrunning)
      have hweight := weight_idle hidle
      have hsame : ∀ v, (s.start t true).weight v = s.weight v := fun v => rfl
      simp only [start, work, Label.does, Label.brings, if_true, Finset.sum_insert ht] at hsame ⊢
      simp only [hsame]
      split at hweight <;> omega
  | addTask cb woken =>
    rcases addTask_inv hstep with ⟨-, rfl⟩ | ⟨-, hwoken, rfl⟩
    · simp only [Label.does, Label.brings, work, weight]
      omega
    · have hone : ∀ v, weight { s with tasks := s.tasks.put cb woken } v ≤
          s.weight v + if v ∈ woken then 1 else 0 := by
        intro v
        simp only [weight, BlockingQueue.put, BlockingQueue.notify, Finset.mem_sdiff]
        by_cases hrunning : (s.running v).isSome <;> by_cases hwaits : v ∈ s.tasks.waiting <;>
          by_cases hv : v ∈ woken <;> simp [hrunning, hwaits, hv]
      have hcard : ∑ v ∈ s.workers, (if v ∈ woken then 1 else 0) ≤ woken.card := by
        rw [← Finset.sum_filter, ← Finset.card_eq_sum_ones]
        exact Finset.card_le_card fun v hv => (Finset.mem_filter.mp hv).2
      have hsum := Finset.sum_le_sum fun v (_ : v ∈ s.workers) => hone v
      rw [Finset.sum_add_distrib] at hsum
      simp only [work, Label.does, Label.brings]
      simp only [BlockingQueue.put, BlockingQueue.notify, List.length_append, List.length_singleton] at hsum ⊢
      omega
  | take t => exact turn_pays h (Or.inl rfl) hstep
  | wake t =>
    obtain ⟨hwaits, -, hu⟩ := wake_inv hstep
    obtain ⟨hworker, hidle⟩ := h.inTake t (Or.inl hwaits)
    have hsum := sum_weight (u := u) hworker (by rw [hu]) fun v hv => weight_congr (by rw [hu]) (by simp [hu, hv])
    have hzero : s.weight t = 0 := by rw [weight_idle hidle, if_pos hwaits]
    have hone : u.weight t = 1 := by
      rw [weight_idle (by rw [hu, hidle]), if_neg]
      simp [hu]
    have hqueue : u.tasks.queue = s.tasks.queue := by rw [hu]
    simp only [work, Label.does, Label.brings, hqueue]
    omega
  | resume t => exact turn_pays h (Or.inr rfl) hstep
  | finish t =>
    obtain ⟨f, hrunning, rfl⟩ := finish_inv hstep
    have hworker := h.employed t (by simp [hrunning])
    have hsum := sum_weight (u := s.finish t f) hworker rfl fun v hv =>
      weight_congr (by simp [finish, hv]) Iff.rfl
    have htwo := weight_busy hrunning
    have hone := weight_idle (s := s.finish t f) (t := t) (by simp [finish])
    have hqueue : (s.finish t f).tasks.queue = s.tasks.queue := rfl
    simp only [work, Label.does, Label.brings, hqueue]
    split at hone <;> omega

theorem work_lower {s u : ThreadPool τ φ} {l : Label τ φ} (h : s.Sound) (hl : l.Works) (hstep : step s l = some u) :
    u.work < s.work := by
  have hpays := step_pays h hstep
  cases l with
  | take | resume | finish =>
    simp only [Label.does, Label.brings] at hpays
    omega
  | start | addTask | wake => exact hl.elim

omit [DecidableEq τ] in
theorem submitted_of_works {labels : List (Label τ φ)} (h : ∀ l ∈ labels, l.Works) : submitted labels = [] := by
  rw [submitted, List.filterMap_eq_nil_iff]
  intro l hl
  cases l with
  | addTask => exact (h _ hl).elim
  | _ => rfl

theorem asleep_of_rest {s : ThreadPool τ φ} (h : s.Sound) (hworkers : s.workers.Nonempty)
    (hrest : Machine.AtRest step Label.Works s) : s.tasks.queue = [] ∧ ∀ t, s.running t = none := by
  have hidle : ∀ t, s.running t = none := by
    intro t
    have hfinish := hrest (.finish t) trivial
    simpa [step] using hfinish
  have hawake : ∀ t, t ∉ s.tasks.signalled ∧ t ∉ s.tasks.spurious := by
    intro t
    have hresume := hrest (.resume t) trivial
    simpa [step, BlockingQueue.step] using hresume
  have hasleep : ∀ t ∈ s.workers, t ∈ s.tasks.waiting := by
    intro t ht
    have htake := hrest (.take t) trivial
    simp only [step, BlockingQueue.step, ht, hidle t, Option.isNone_none, and_self, if_true, Option.map_eq_none_iff,
      ite_eq_right_iff, reduceCtorEq, imp_false, not_not] at htake
    rcases htake with hwaits | hsignalled | hspurious
    · exact hwaits
    · exact absurd hsignalled (hawake t).1
    · exact absurd hspurious (hawake t).2
  obtain ⟨t, ht⟩ := hworkers
  have hlen := h.served.served ⟨t, hasleep t ht⟩
  rw [Finset.eq_empty_of_forall_notMem fun v => (hawake v).1, Finset.card_empty] at hlen
  exact ⟨List.eq_nil_of_length_eq_zero (by omega), hidle⟩

theorem perm_of_tasksOf {calls later : List (τ × φ)} (h : ∀ t, tasksOf t calls = tasksOf t later) :
    calls.Perm later := by
  classical
  have hcount : ∀ t f (cs : List (τ × φ)), cs.count (t, f) = (tasksOf t cs).count f := by
    intro t f cs
    induction cs with
    | nil => rfl
    | cons c cs ih =>
      obtain ⟨u, g⟩ := c
      rw [← List.singleton_append, tasksOf_append, List.count_append, List.count_append, ih, tasksOf_singleton]
      by_cases hu : u = t <;> simp [List.count_cons, hu]
  rw [List.perm_iff_count]
  rintro ⟨t, f⟩
  rw [hcount, hcount, h]

/-- The workers never make more steps than the tasks, the wakeups and the threads account for. Left alone they come to
rest, after no more steps than there is work, and then every task has been called and every call has returned. -/
theorem drains (labels : List (Label τ φ)) (s : ThreadPool τ φ) (hrun : Machine.run step init labels = some s)
    (hworkers : s.workers.Nonempty) :
    Machine.total Label.does labels + s.work ≤ Machine.total Label.brings labels ∧
    (∃ ls u, (∀ l ∈ ls, l.Works) ∧ Machine.run step s ls = some u ∧ Machine.AtRest step Label.Works u) ∧
    ∀ ls u, (∀ l ∈ ls, l.Works) → Machine.run step s ls = some u → ls.length ≤ s.work ∧
      (Machine.AtRest step Label.Works u → u.inlined ++ u.tasks.taken = submitted labels ∧
        (u.finished.map Prod.snd).Perm u.tasks.taken.reduceOption) := by
  have h : s.Sound := run_sound init_sound hrun
  have keep : ∀ (t : ThreadPool τ φ) l u, t.Sound → step t l = some u → u.Sound :=
    fun _ _ _ h hstep => step_sound h hstep
  have lower : ∀ (t : ThreadPool τ φ) l u, t.Sound → l.Works → step t l = some u → u.work < t.work :=
    fun _ _ _ h hl hstep => work_lower h hl hstep
  refine ⟨?_, Machine.exists_rest keep lower h, fun ls u hls hrest => ⟨?_, fun hu => ?_⟩⟩
  · have hzero : (init : ThreadPool τ φ).work = 0 := rfl
    have hpays : Machine.total Label.does labels + s.work ≤
        (init : ThreadPool τ φ).work + Machine.total Label.brings labels :=
      Machine.run_potential keep (fun _ _ _ h hstep => step_pays h hstep) init_sound hrun
    omega
  · have hlen := Machine.length_le_potential keep lower h hls hrest
    omega
  · have hsound : u.Sound := run_sound h hrest
    have hsub : s.workers ⊆ u.workers :=
      Machine.run_invariant (I := fun t => s.workers ⊆ t.workers)
        (fun _ _ _ hsub hstep => hsub.trans (step_workers hstep)) (Finset.Subset.refl _) hrest
    obtain ⟨hqueue, hidle⟩ := asleep_of_rest hsound (hworkers.mono hsub) hu
    have hbefore := run_order init_sound hrun
    have hafter := run_order h hrest
    rw [hbefore, submitted_of_works hls, hqueue, List.append_nil] at hafter
    have hperm : u.begun.Perm u.finished := perm_of_tasksOf fun t => by
      rw [hsound.each, hidle, Option.toList_none, List.append_nil]
    refine ⟨by simpa [init, BlockingQueue.init] using hafter, ?_⟩
    rw [← hsound.begun]
    exact (hperm.map Prod.snd).symm

theorem drains_overtaking : ∃ s, Machine.run step init overtaking = some s ∧ s.work = 3 ∧
    ∀ ls u, (∀ l ∈ ls, l.Works) → Machine.run step s ls = some u → ls.length ≤ s.work := by
  have hrun : Machine.run step init overtaking = some _ := rfl
  refine ⟨_, hrun, rfl, fun ls u hls hrest => ?_⟩
  exact ((drains overtaking _ hrun ⟨1, by decide⟩).2.2 ls u hls hrest).1

end ThreadPool

end Muduo
