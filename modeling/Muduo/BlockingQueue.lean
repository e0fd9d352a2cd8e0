import Mathlib.Data.Finset.Card
import Muduo.Machine

/-! # `BlockingQueue`

`include/BlockingQueue.h` over `include/Condition.h`. What a thread does between taking the mutex and
giving it up, in `wait` or at the end, is one step.
-/

namespace Muduo

/-- A queue of `α` whose consumers are threads of `τ`. -/
structure BlockingQueue (τ α : Type*) where
  queue : List α
  /-- The consumers asleep in `_cond.wait()`. -/
  waiting : Finset τ
  /-- Signalled, and not back in the mutex yet. -/
  signalled : Finset τ
  /-- Awake without a signal, and not back in the mutex yet. -/
  spurious : Finset τ
  /-- What `take` popped, in order. -/
  taken : List α
  /-- `pop_front` was called on an empty deque. -/
  underflow : Bool

namespace BlockingQueue

variable {τ α : Type*} [DecidableEq τ]

inductive Label (τ α : Type*) where
  /-- `notify` wakes these consumers. -/
  | put (one : α) (woken : Finset τ)
  | take (t : τ)
  /-- A spurious wakeup. -/
  | wake (t : τ)
  /-- A consumer that is awake takes the mutex again. -/
  | resume (t : τ)

def init : BlockingQueue τ α :=
  { queue := [], waiting := ∅, signalled := ∅, spurious := ∅, taken := [], underflow := false }

/-! ## Member functions -/

/-- `pthread_cond_signal` wakes at least one consumer that waits, if there is one. -/
def MayWake (s : BlockingQueue τ α) (woken : Finset τ) : Prop :=
  woken ⊆ s.waiting ∧ (s.waiting.Nonempty → woken.Nonempty)

def notify (s : BlockingQueue τ α) (woken : Finset τ) : BlockingQueue τ α :=
  { s with waiting := s.waiting \ woken, signalled := s.signalled ∪ woken }

def put (s : BlockingQueue τ α) (one : α) (woken : Finset τ) : BlockingQueue τ α :=
  notify { s with queue := s.queue ++ [one] } woken

def wait (s : BlockingQueue τ α) (t : τ) : BlockingQueue τ α := { s with waiting := insert t s.waiting }

def popFront (s : BlockingQueue τ α) : BlockingQueue τ α :=
  match s.queue with
  | [] => { s with underflow := true }
  | front :: rest => { s with queue := rest, taken := s.taken ++ [front] }

/-- `take` from a test of its loop on: up to the next test, or to its end. -/
def test (s : BlockingQueue τ α) (t : τ) : BlockingQueue τ α :=
  if s.queue.isEmpty then s.wait t else s.popFront

/-! ## Steps -/

/-- The thread is in `take`. -/
def InTake (s : BlockingQueue τ α) (t : τ) : Prop := t ∈ s.waiting ∨ t ∈ s.signalled ∨ t ∈ s.spurious

instance (s : BlockingQueue τ α) (woken : Finset τ) : Decidable (s.MayWake woken) :=
  inferInstanceAs (Decidable (woken ⊆ s.waiting ∧ (s.waiting.Nonempty → woken.Nonempty)))

instance (s : BlockingQueue τ α) (t : τ) : Decidable (s.InTake t) :=
  inferInstanceAs (Decidable (t ∈ s.waiting ∨ t ∈ s.signalled ∨ t ∈ s.spurious))

def step (s : BlockingQueue τ α) : Label τ α → Option (BlockingQueue τ α)
  | .put one woken => if s.MayWake woken then some (s.put one woken) else none
  | .take t => if ¬ s.InTake t then some (s.test t) else none
  | .wake t =>
    if t ∈ s.waiting then some { s with waiting := s.waiting.erase t, spurious := insert t s.spurious } else none
  | .resume t =>
    if t ∈ s.signalled ∨ t ∈ s.spurious then
      some (test { s with signalled := s.signalled.erase t, spurious := s.spurious.erase t } t)
    else none

/-- The elements put, in the order in which the puts took the mutex. -/
def elements (labels : List (Label τ α)) : List α :=
  labels.filterMap fun
    | .put one _ => some one
    | _ => none

/-! ## The invariant -/

/-- While a consumer waits, each element in the queue has a consumer that was signalled for it. -/
structure Served (s : BlockingQueue τ α) : Prop where
  served : s.waiting.Nonempty → s.queue.length ≤ s.signalled.card
  apart : Disjoint s.waiting s.signalled
  popped : s.underflow = false

omit [DecidableEq τ] in
theorem init_served : (init : BlockingQueue τ α).Served where
  served := fun h => absurd h Finset.not_nonempty_empty
  apart := Finset.disjoint_empty_left _
  popped := rfl

theorem put_served {s : BlockingQueue τ α} (h : s.Served) (one : α) {woken : Finset τ} (hwoken : s.MayWake woken) :
    (s.put one woken).Served := by
  obtain ⟨hsub, hone⟩ := hwoken
  have hapart : Disjoint s.signalled woken := (h.apart.mono_left hsub).symm
  refine ⟨fun hleft => ?_, ?_, h.popped⟩
  · -- Somebody still waits, so somebody waited before, and the signal woke another one.
    have hwaited : s.waiting.Nonempty := hleft.mono Finset.sdiff_subset
    have hserved := h.served hwaited
    have hpos := Finset.card_pos.mpr (hone hwaited)
    have hcard : (s.signalled ∪ woken).card = s.signalled.card + woken.card := Finset.card_union_of_disjoint hapart
    simp only [put, notify, List.length_append, List.length_singleton, hcard]
    omega
  · simp only [put, notify]
    rw [Finset.disjoint_union_right]
    exact ⟨h.apart.mono_left Finset.sdiff_subset, Finset.sdiff_disjoint⟩

theorem test_served {s : BlockingQueue τ α} {t : τ} (hout : t ∉ s.signalled) (hpopped : s.underflow = false)
    (hapart : Disjoint s.waiting s.signalled)
    (hserved : s.waiting.Nonempty → s.queue.length ≤ s.signalled.card + 1) : (s.test t).Served := by
  unfold test
  cases hqueue : s.queue with
  | nil =>
    refine ⟨fun _ => ?_, Finset.disjoint_insert_left.mpr ⟨hout, hapart⟩, hpopped⟩
    simp [wait, hqueue]
  | cons front rest =>
    simp only [List.isEmpty_cons, Bool.false_eq_true, if_false, popFront, hqueue]
    refine ⟨fun hwaits => ?_, hapart, hpopped⟩
    have hlen := hserved hwaits
    rw [hqueue, List.length_cons] at hlen
    exact Nat.le_of_succ_le_succ hlen

theorem step_served {s u : BlockingQueue τ α} {l : Label τ α} (h : s.Served) (hstep : step s l = some u) :
    u.Served := by
  cases l with
  | put one woken =>
    obtain ⟨hwoken, rfl⟩ := Machine.guard_some.mp hstep
    exact put_served h one hwoken
  | take t =>
    obtain ⟨hout, rfl⟩ := Machine.guard_some.mp hstep
    refine test_served (fun ht => hout (Or.inr (Or.inl ht))) h.popped h.apart fun hwaits => ?_
    exact Nat.le_succ_of_le (h.served hwaits)
  | wake t =>
    obtain ⟨-, rfl⟩ := Machine.guard_some.mp hstep
    have hsub := Finset.erase_subset t s.waiting
    exact ⟨fun hwaits => h.served (hwaits.mono hsub), h.apart.mono_left hsub, h.popped⟩
  | resume t =>
    obtain ⟨-, rfl⟩ := Machine.guard_some.mp hstep
    refine test_served (Finset.notMem_erase t s.signalled) h.popped
      (h.apart.mono_right (Finset.erase_subset t s.signalled)) fun hwaits => ?_
    have hserved := h.served hwaits
    have hcard : s.signalled.card - 1 ≤ (s.signalled.erase t).card := Finset.pred_card_le_card_erase
    simp only
    omega

/-! ## Order -/

theorem test_order (s : BlockingQueue τ α) (t : τ) :
    (s.test t).taken ++ (s.test t).queue = s.taken ++ s.queue := by
  unfold test
  cases hqueue : s.queue with
  | nil => simp [wait, hqueue]
  | cons front rest => simp [popFront, hqueue]

theorem step_order {s u : BlockingQueue τ α} {l : Label τ α} (hstep : step s l = some u) :
    u.taken ++ u.queue = s.taken ++ s.queue ++ elements [l] := by
  cases l with
  | put one woken =>
    obtain ⟨-, rfl⟩ := Machine.guard_some.mp hstep
    exact (List.append_assoc _ _ _).symm
  | take t =>
    obtain ⟨-, rfl⟩ := Machine.guard_some.mp hstep
    rw [test_order]
    exact (List.append_nil _).symm
  | wake t =>
    obtain ⟨-, rfl⟩ := Machine.guard_some.mp hstep
    exact (List.append_nil _).symm
  | resume t =>
    obtain ⟨-, rfl⟩ := Machine.guard_some.mp hstep
    rw [test_order]
    exact (List.append_nil _).symm

theorem run_order {s u : BlockingQueue τ α} {labels : List (Label τ α)} (hrun : Machine.run step s labels = some u) :
    u.taken ++ u.queue = s.taken ++ s.queue ++ elements labels := by
  induction labels generalizing s with
  | nil =>
    rw [Machine.run_nil, Option.some.injEq] at hrun
    subst hrun
    exact (List.append_nil _).symm
  | cons l labels ih =>
    obtain ⟨t, hstep, hrest⟩ := Machine.run_cons_some.mp hrun
    have hsplit : elements (l :: labels) = elements [l] ++ elements labels := by
      rw [elements, ← List.singleton_append, List.filterMap_append]
      rfl
    rw [ih hrest, step_order hstep, hsplit, List.append_assoc, List.append_assoc]

/-- First in, first out, and each element once. No consumer pops an empty queue, and while one waits
each element that is left has a consumer on its way. -/
theorem taken_in_order (labels : List (Label τ α)) (s : BlockingQueue τ α)
    (hrun : Machine.run step init labels = some s) :
    s.taken ++ s.queue = elements labels ∧ s.underflow = false ∧
    (s.waiting.Nonempty → s.queue.length ≤ s.signalled.card) ∧
    (s.queue ≠ [] → s.waiting.Nonempty → s.signalled.Nonempty) := by
  have hserved : s.Served := Machine.run_invariant (fun _ _ _ h hstep => step_served h hstep) init_served hrun
  refine ⟨run_order hrun, hserved.popped, hserved.served, fun hqueue hwaits => ?_⟩
  have hpos := List.length_pos_iff.mpr hqueue
  exact Finset.card_pos.mp (hpos.trans_le (hserved.served hwaits))

/-- A third consumer takes the element before the signalled one is back in the mutex. -/
def overtaken : List (Label Nat Nat) := [.take 1, .take 3, .put 7 {1}, .take 2, .resume 1, .put 8 {1}]

theorem taken_in_order_overtaken : ∃ s, Machine.run step init overtaken = some s ∧ s.taken = [7] ∧ s.queue = [8] ∧
    s.queue.length ≤ s.signalled.card := by
  have hrun : Machine.run step init overtaken = some _ := rfl
  exact ⟨_, hrun, rfl, rfl, (taken_in_order overtaken _ hrun).2.2.1 ⟨3, by decide⟩⟩

end BlockingQueue

end Muduo
