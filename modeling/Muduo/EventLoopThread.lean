import Mathlib.Data.Fintype.Basic
import Muduo.EventLoop.Code

/-! # `EventLoopThread`

`src/EventLoopThread.cc`: the thread that owns the object, the IO thread whose stack holds the `EventLoop`, and the
threads that call `quit` on it. The loop on the stack is the `EventLoop` of the other modules, without functors.
-/

namespace Muduo

namespace EventLoopThread

/-- The value of an `EventLoop*` that is not null. -/
abbrev Addr := Nat

/-- The thread that owns the object, the IO thread, and all others. -/
inductive Thread (τ : Type*) where
  | owner
  | io
  | other (t : τ)
  deriving DecidableEq, Repr

/-- Where the owner is. -/
inductive OwnerPc where
  | constructed
  /-- In `startLoop`, about to take `_mutex`. -/
  | locking
  /-- About to test `_loop == NULL`. -/
  | testing
  /-- In `_cond.wait()`. -/
  | waiting
  /-- Woken in `_cond.wait()`, about to take `_mutex` again. -/
  | relocking
  /-- Behind the locked section. -/
  | returning
  | returned
  /-- In `_loop->quit()` of the destructor. -/
  | quitting
  | joining
  | gone
  deriving DecidableEq, Repr

/-- Where the IO thread is in `threadFunc`. -/
inductive IoPc where
  | notStarted
  | started
  /-- `EventLoop loop;` is done. -/
  | built
  | locked
  | published
  | notified
  /-- About to call `loop.loop()`. -/
  | unlocked
  | looping
  /-- `loop` is destroyed. -/
  | ended
  deriving DecidableEq, Repr

end EventLoopThread

open EventLoopThread in
structure EventLoopThread (τ : Type*) where
  /-- `_loop` -/
  loop : Option Addr
  /-- Whether `_mutex` is taken. -/
  mutex : Bool
  owner : OwnerPc
  io : IoPc
  /-- Where `EventLoop loop` lies. -/
  addr : Addr
  object : EventLoop (Thread τ) Empty
  /-- What `startLoop` returned. -/
  returned : Option (Option Addr)
  /-- The calls of `quit` with a step ahead, each with the pointer that it goes through. -/
  quits : Thread τ → Option (Option Addr)

namespace EventLoopThread

variable {τ : Type*}

/-- The constructor. -/
def init : EventLoopThread τ :=
  { loop := none
    mutex := false
    owner := .constructed
    io := .notStarted
    addr := 0
    object := .init .io
    returned := none
    quits := fun _ => none }

inductive Label (τ : Type*) where
  /-- `_thread.start()`, which may fail. -/
  | start (ok : Bool)
  | lock
  | test
  | spuriousWakeup
  | startLoopReturns
  | construct (addr : Addr)
  | ioLock
  | publish
  | notify
  | ioUnlock
  | enterLoop
  /-- A step of the IO thread in `loop()`, or of a call of `quit`. -/
  | object (l : EventLoop.Label (Thread τ) Empty)
  | threadFuncReturns
  /-- A thread calls `quit` through the pointer that `startLoop` returned. -/
  | quit (t : Thread τ)
  /-- `~EventLoopThread` calls `quit` through `_loop`. -/
  | destructor
  | join
  | joined

/-- The `EventLoop` on the stack exists. -/
def Alive (s : EventLoopThread τ) : Prop := s.io ≠ .notStarted ∧ s.io ≠ .started ∧ s.io ≠ .ended

instance (s : EventLoopThread τ) : Decidable s.Alive :=
  inferInstanceAs (Decidable (s.io ≠ .notStarted ∧ s.io ≠ .started ∧ s.io ≠ .ended))

section

variable [DecidableEq τ]

def setQuit (s : EventLoopThread τ) (t : Thread τ) (p : Option (Option Addr)) : EventLoopThread τ :=
  { s with quits := Function.update s.quits t p }

/-- A thread that is in no call of `quit` may call it, the owner until the destructor runs, the IO thread from a
handler. -/
def MayQuit (s : EventLoopThread τ) (t : Thread τ) : Prop :=
  s.quits t = none ∧ (t = .owner → s.owner = .returned) ∧
    (t = .io → s.io = .looping ∧ (s.object.pc = .handling false ∨ s.object.pc = .handling true))

instance (s : EventLoopThread τ) (t : Thread τ) : Decidable (s.MayQuit t) :=
  inferInstanceAs (Decidable (s.quits t = none ∧ (t = .owner → s.owner = .returned) ∧
    (t = .io → s.io = .looping ∧ (s.object.pc = .handling false ∨ s.object.pc = .handling true))))

/-- A step of `quit` through a pointer to anything but the living loop has no defined result. -/
def quitStep (s : EventLoopThread τ) (t : Thread τ) (l : EventLoop.Label (Thread τ) Empty) :
    Option (EventLoopThread τ) :=
  if s.quits t = some (some s.addr) ∧ s.Alive then
    (s.object.step l).map fun object =>
      if object.calls t = .idle then setQuit { s with object } t none else { s with object }
  else none

def loopStep (s : EventLoopThread τ) (l : EventLoop.Label (Thread τ) Empty) : Option (EventLoopThread τ) :=
  if s.io = .looping ∧ s.quits .io = none then (s.object.step l).map fun object => { s with object } else none

def step (s : EventLoopThread τ) : Label τ → Option (EventLoopThread τ)
  | .start ok =>
    if s.owner = .constructed ∧ s.io = .notStarted then
      some { s with owner := .locking, io := if ok then .started else .notStarted }
    else none
  | .lock =>
    if (s.owner = .locking ∨ s.owner = .relocking) ∧ s.mutex = false then
      some { s with owner := .testing, mutex := true }
    else none
  | .test =>
    if s.owner = .testing then
      some { s with owner := if s.loop = none then .waiting else .returning, mutex := false }
    else none
  | .spuriousWakeup => if s.owner = .waiting then some { s with owner := .relocking } else none
  | .startLoopReturns =>
    if s.owner = .returning then some { s with owner := .returned, returned := some s.loop } else none
  | .construct addr =>
    if s.io = .started then some { s with io := .built, addr, object := .init .io } else none
  | .ioLock => if s.io = .built ∧ s.mutex = false then some { s with io := .locked, mutex := true } else none
  | .publish => if s.io = .locked then some { s with io := .published, loop := some s.addr } else none
  | .notify =>
    if s.io = .published then
      some { s with io := .notified, owner := if s.owner = .waiting then .relocking else s.owner }
    else none
  | .ioUnlock => if s.io = .notified then some { s with io := .unlocked, mutex := false } else none
  | .enterLoop =>
    if s.io = .unlocked then (s.object.step .loop).map fun object => { s with object, io := .looping } else none
  | .object (.quit t) => s.quitStep t (.quit t)
  | .object (.quitTest t) => s.quitStep t (.quitTest t)
  | .object (.wakeup t) => s.quitStep t (.wakeup t)
  | .object (.loop) => none
  | .object l => s.loopStep l
  | .threadFuncReturns =>
    if s.io = .looping ∧ s.quits .io = none ∧ s.object.At .outside then some { s with io := .ended } else none
  | .quit t => if s.MayQuit t then s.returned.map fun p => s.setQuit t (some p) else none
  | .destructor =>
    if (s.owner = .constructed ∨ s.owner = .returned) ∧ s.quits .owner = none then
      some (setQuit { s with owner := .quitting } .owner (some s.loop))
    else none
  | .join => if s.owner = .quitting ∧ s.quits .owner = none then some { s with owner := .joining } else none
  | .joined => if s.owner = .joining ∧ s.io = .ended then some { s with owner := .gone } else none

end

/-! ## What is claimed of a run -/

/-- Every call of `quit` with a step ahead goes through a pointer to the loop, which is alive. -/
def Sound (s : EventLoopThread τ) : Prop := ∀ t p, s.quits t = some p → p = some s.addr ∧ s.Alive

/-- The destructor runs when the loop is published, `quit` is called before `threadFunc` has returned, and
`threadFunc` does not return while a call of `quit` is under way. -/
def Orderly (s : EventLoopThread τ) : Label τ → Prop
  | .destructor => s.loop ≠ none ∧ s.io ≠ .ended
  | .quit _ => s.io ≠ .ended
  | .threadFuncReturns => ∀ t, s.quits t = none
  | _ => True

instance [Fintype τ] (s : EventLoopThread τ) : (l : Label τ) → Decidable (s.Orderly l)
  | .destructor => inferInstanceAs (Decidable (s.loop ≠ none ∧ s.io ≠ .ended))
  | .quit _ => inferInstanceAs (Decidable (s.io ≠ .ended))
  | .threadFuncReturns =>
    decidable_of_iff (s.quits .owner = none ∧ s.quits .io = none ∧ ∀ t, s.quits (.other t) = none)
      ⟨fun ⟨howner, hio, hother⟩ t => match t with
        | .owner => howner
        | .io => hio
        | .other t => hother t, fun h => ⟨h .owner, h .io, fun t => h (.other t)⟩⟩
  | .start _ | .lock | .test | .spuriousWakeup | .startLoopReturns | .construct _ | .ioLock | .publish | .notify
  | .ioUnlock | .enterLoop | .object _ | .join | .joined => inferInstanceAs (Decidable True)

/-- The invariant of the hand-over of `_loop`. -/
structure HandOver (s : EventLoopThread τ) : Prop where
  mutex : s.mutex = true ↔ s.owner = .testing ∨ s.io = .locked ∨ s.io = .published ∨ s.io = .notified
  alone : s.owner = .testing → s.io ≠ .locked ∧ s.io ≠ .published ∧ s.io ≠ .notified
  unpublished : s.loop = none ↔ s.io = .notStarted ∨ s.io = .started ∨ s.io = .built ∨ s.io = .locked
  points : ∀ a, s.loop = some a → a = s.addr
  waiting : s.owner = .waiting → s.loop = none ∨ s.io = .published
  returning : s.owner = .returning → s.loop ≠ none
  returned : ∀ p, s.returned = some p → p = s.loop ∧ s.loop ≠ none

theorem init_handOver : (init : EventLoopThread τ).HandOver := by
  constructor <;> simp [init]

/-! ## Steps -/

variable [DecidableEq τ]

theorem object_inv {s u : EventLoopThread τ} {l : EventLoop.Label (Thread τ) Empty}
    (hstep : step s (.object l) = some u) :
    ∃ object quits, u = { s with object, quits } ∧ ∀ t p, quits t = some p → s.quits t = some p := by
  have hquit : ∀ t l, s.quitStep t l = some u →
      ∃ object quits, u = { s with object, quits } ∧ ∀ t p, quits t = some p → s.quits t = some p := by
    intro t l h
    unfold quitStep at h
    split at h
    · obtain ⟨object, -, rfl⟩ := Option.map_eq_some_iff.mp h
      split
      · refine ⟨object, Function.update s.quits t none, rfl, fun r p hp => ?_⟩
        by_cases hr : r = t
        · rw [hr, Function.update_self] at hp
          cases hp
        · rwa [Function.update_of_ne hr] at hp
      · exact ⟨object, s.quits, rfl, fun _ _ hp => hp⟩
    · cases h
  have hloop : ∀ l, s.loopStep l = some u →
      ∃ object quits, u = { s with object, quits } ∧ ∀ t p, quits t = some p → s.quits t = some p := by
    intro l h
    unfold loopStep at h
    split at h
    · obtain ⟨object, -, rfl⟩ := Option.map_eq_some_iff.mp h
      exact ⟨object, s.quits, rfl, fun _ _ hp => hp⟩
    · cases h
  cases l with
  | quit t => exact hquit t _ hstep
  | quitTest t => exact hquit t _ hstep
  | wakeup t => exact hquit t _ hstep
  | loop => cases hstep
  | _ => exact hloop _ hstep

theorem step_handOver {s u : EventLoopThread τ} {l : Label τ} (h : s.HandOver) (hstep : step s l = some u) :
    u.HandOver := by
  obtain ⟨hmutex, halone, hunpublished, hpoints, hwaiting, hreturning, hreturned⟩ := h
  cases l with
  | object l =>
    obtain ⟨object, quits, rfl, -⟩ := object_inv hstep
    exact ⟨hmutex, halone, hunpublished, hpoints, hwaiting, hreturning, hreturned⟩
  | start ok =>
    obtain ⟨⟨howner, hio⟩, rfl⟩ := Machine.guard_some.mp hstep
    constructor <;> grind
  | quit t =>
    simp only [step] at hstep
    split at hstep
    · obtain ⟨p, -, rfl⟩ := Option.map_eq_some_iff.mp hstep
      exact ⟨hmutex, halone, hunpublished, hpoints, hwaiting, hreturning, hreturned⟩
    · cases hstep
  | enterLoop =>
    simp only [step] at hstep
    split at hstep
    · rename_i hio
      obtain ⟨object, -, rfl⟩ := Option.map_eq_some_iff.mp hstep
      constructor <;> grind
    · cases hstep
  | test =>
    obtain ⟨howner, rfl⟩ := Machine.guard_some.mp hstep
    constructor <;> grind
  | notify =>
    obtain ⟨hio, rfl⟩ := Machine.guard_some.mp hstep
    constructor <;> grind
  | destructor =>
    obtain ⟨hguard, rfl⟩ := Machine.guard_some.mp hstep
    constructor <;> simp only [setQuit] <;> grind
  | _ =>
    obtain ⟨hguard, rfl⟩ := Machine.guard_some.mp hstep
    constructor <;> grind

/-! ## Calls of `quit` -/

omit [DecidableEq τ] in
theorem Sound.keep {s u : EventLoopThread τ} (h : s.Sound) (hquits : ∀ t p, u.quits t = some p → s.quits t = some p)
    (haddr : u.addr = s.addr) (halive : s.Alive → u.Alive) : u.Sound := by
  intro t p hp
  obtain ⟨hpoints, hlive⟩ := h t p (hquits t p hp)
  exact ⟨haddr ▸ hpoints, halive hlive⟩

theorem sound_setQuit {s : EventLoopThread τ} (h : s.Sound) (t : Thread τ) (p : Option Addr) :
    (s.setQuit t (some p)).Sound ↔ p = some s.addr ∧ s.Alive := by
  constructor
  · intro hsound
    exact hsound t p (Function.update_self t _ _)
  · rintro ⟨hp, halive⟩ r q hq
    change Function.update s.quits t (some p) r = some q at hq
    by_cases hr : r = t
    · rw [hr, Function.update_self, Option.some.injEq] at hq
      exact ⟨hq ▸ hp, halive⟩
    · rw [Function.update_of_ne hr] at hq
      exact h r q hq

omit [DecidableEq τ] in
/-- Behind its publication the loop is alive until `threadFunc` returns. -/
theorem HandOver.alive_iff {s : EventLoopThread τ} (h : s.HandOver) (hloop : s.loop ≠ none) :
    s.Alive ↔ s.io ≠ .ended := by
  have hio := mt h.unpublished.mpr hloop
  constructor
  · exact fun halive => halive.2.2
  · exact fun hended => ⟨fun hno => hio (Or.inl hno), fun hno => hio (Or.inr (Or.inl hno)), hended⟩

omit [DecidableEq τ] in
theorem Sound.idle {s : EventLoopThread τ} (h : s.Sound) (hdead : ¬ s.Alive) (t : Thread τ) : s.quits t = none := by
  cases hquits : s.quits t with
  | none => rfl
  | some p => exact absurd (h t p hquits).2 hdead

theorem step_sound {s u : EventLoopThread τ} {l : Label τ} (hover : s.HandOver) (h : s.Sound)
    (hstep : step s l = some u) : u.Sound ↔ s.Orderly l := by
  cases l with
  | object l =>
    obtain ⟨object, quits, rfl, hquits⟩ := object_inv hstep
    exact ⟨fun _ => trivial, fun _ => h.keep hquits rfl id⟩
  | construct addr =>
    obtain ⟨hio, rfl⟩ := Machine.guard_some.mp hstep
    refine ⟨fun _ => trivial, fun _ t p hp => ?_⟩
    have hidle := h.idle (fun halive => halive.2.1 hio) t
    rw [show s.quits t = some p from hp] at hidle
    cases hidle
  | threadFuncReturns =>
    obtain ⟨-, rfl⟩ := Machine.guard_some.mp hstep
    constructor
    · exact fun hsound t => hsound.idle (fun halive => halive.2.2 rfl) t
    · intro hnone t p hp
      have hidle : s.quits t = none := hnone t
      rw [show s.quits t = some p from hp] at hidle
      cases hidle
  | quit t =>
    simp only [step] at hstep
    split at hstep
    · obtain ⟨p, hp, rfl⟩ := Option.map_eq_some_iff.mp hstep
      obtain ⟨hloop, hpublished⟩ := hover.returned p hp
      rw [sound_setQuit h, hover.alive_iff hpublished]
      obtain ⟨a, ha⟩ := Option.ne_none_iff_exists'.mp hpublished
      exact ⟨fun hsound => hsound.2, fun hended => ⟨by rw [hloop, ha, hover.points a ha], hended⟩⟩
    · cases hstep
  | destructor =>
    obtain ⟨-, rfl⟩ := Machine.guard_some.mp hstep
    rw [sound_setQuit (s := { s with owner := .quitting }) h]
    constructor
    · rintro ⟨hp, halive⟩
      have hpublished : s.loop ≠ none := by
        intro hnone
        rw [hnone] at hp
        cases hp
      exact ⟨hpublished, halive.2.2⟩
    · rintro ⟨hpublished, hended⟩
      obtain ⟨a, ha⟩ := Option.ne_none_iff_exists'.mp hpublished
      exact ⟨by rw [ha, hover.points a ha], (hover.alive_iff hpublished).mpr hended⟩
  | enterLoop =>
    simp only [step] at hstep
    split at hstep
    · obtain ⟨object, -, rfl⟩ := Option.map_eq_some_iff.mp hstep
      exact ⟨fun _ => trivial, fun _ => h.keep (fun _ _ hp => hp) rfl fun _ => by simp [Alive]⟩
    · cases hstep
  | start ok =>
    obtain ⟨⟨-, hio⟩, rfl⟩ := Machine.guard_some.mp hstep
    exact ⟨fun _ => trivial, fun _ => h.keep (fun _ _ hp => hp) rfl fun halive => absurd hio halive.1⟩
  | ioLock | publish | notify | ioUnlock =>
    obtain ⟨-, rfl⟩ := Machine.guard_some.mp hstep
    exact ⟨fun _ => trivial, fun _ => h.keep (fun _ _ hp => hp) rfl fun _ => by simp [Alive]⟩
  | lock | test | spuriousWakeup | startLoopReturns | join | joined =>
    obtain ⟨-, rfl⟩ := Machine.guard_some.mp hstep
    exact ⟨fun _ => trivial, fun _ => h.keep (fun _ _ hp => hp) rfl id⟩

/-! ## `startLoop` -/

/-- The owner is in `startLoop`. -/
def InStartLoop (s : EventLoopThread τ) : Prop :=
  s.owner = .locking ∨ s.owner = .testing ∨ s.owner = .waiting ∨ s.owner = .relocking ∨ s.owner = .returning

/-- The steps that end `startLoop` and the locked section of `threadFunc`. -/
def Label.Finishes : Label τ → Prop
  | .notify | .ioUnlock | .lock | .test | .startLoopReturns => True
  | _ => False

/-- How many of them are left. -/
def left (s : EventLoopThread τ) : Nat :=
  (match s.owner with
    | .waiting => 4
    | .locking | .relocking => 3
    | .testing => 2
    | .returning => 1
    | _ => 0) +
  match s.io with
    | .published => 2
    | .notified => 1
    | _ => 0

theorem startLoop_step {s : EventLoopThread τ} (h : s.HandOver) (hloop : s.loop ≠ none) (hin : s.InStartLoop) :
    ∃ l u, l.Finishes ∧ step s l = some u ∧ u.loop = s.loop ∧ (u.InStartLoop ∨ u.owner = .returned) ∧
      u.left < s.left := by
  have hpublic := mt h.unpublished.mpr hloop
  -- who holds `_mutex` gives it back
  have hlock : s.owner = .locking ∨ s.owner = .relocking → ∃ l u, l.Finishes ∧ step s l = some u ∧
      u.loop = s.loop ∧ (u.InStartLoop ∨ u.owner = .returned) ∧ u.left < s.left := by
    intro howner
    cases hmutex : s.mutex with
    | false =>
      refine ⟨.lock, _, trivial, if_pos ⟨howner, hmutex⟩, rfl, Or.inl (Or.inr (Or.inl rfl)), ?_⟩
      rcases howner with howner | howner <;> simp [left, howner]
    | true =>
      rcases h.mutex.mp hmutex with htesting | hlocked | hio | hio
      · simp [htesting] at howner
      · exact absurd (Or.inr (Or.inr (Or.inr hlocked))) hpublic
      · have hnot : s.owner ≠ .waiting := by
          intro hno
          simp [hno] at howner
        refine ⟨.notify, _, trivial, if_pos hio, rfl, Or.inl ?_, ?_⟩
        · simpa [InStartLoop, hnot] using hin
        · simp [left, hio, hnot]
      · refine ⟨.ioUnlock, _, trivial, if_pos hio, rfl, Or.inl hin, ?_⟩
        simp [left, hio]
  rcases hin with howner | howner | howner | howner | howner
  · exact hlock (Or.inl howner)
  · refine ⟨.test, _, trivial, if_pos howner, rfl, Or.inl ?_, ?_⟩
    · simp [InStartLoop, hloop]
    · simp [left, howner, hloop]
  · have hio : s.io = .published := (h.waiting howner).resolve_left hloop
    refine ⟨.notify, _, trivial, if_pos hio, rfl, Or.inl ?_, ?_⟩
    · simp [InStartLoop, howner]
    · simp [left, howner, hio]
  · exact hlock (Or.inr howner)
  · refine ⟨.startLoopReturns, _, trivial, if_pos howner, rfl, Or.inr rfl, ?_⟩
    simp [left, howner]

/-- Once `_loop` is published, nothing but these steps is needed for `startLoop` to return. -/
theorem startLoop_returns {s : EventLoopThread τ} (h : s.HandOver) (hloop : s.loop ≠ none) (hin : s.InStartLoop) :
    ∃ ls u, (∀ l ∈ ls, l.Finishes) ∧ Machine.run step s ls = some u ∧ u.owner = .returned := by
  induction hn : s.left using Nat.strong_induction_on generalizing s with
  | _ n ih =>
    obtain ⟨l, t, hl, hstep, hsame, hin | hreturned, hless⟩ := startLoop_step h hloop hin
    · obtain ⟨ls, u, hls, hrun, hend⟩ := ih t.left (hn ▸ hless) (step_handOver h hstep) (hsame ▸ hloop) hin rfl
      exact ⟨l :: ls, u, List.forall_mem_cons.mpr ⟨hl, hls⟩, Machine.run_cons_some.mpr ⟨t, hstep, hrun⟩, hend⟩
    · exact ⟨[l], t, by simpa using hl, Machine.run_cons_some.mpr ⟨t, hstep, rfl⟩, hreturned⟩

/-- What `startLoop` promises: it returns the loop that the IO thread has built, and once that is published the owner
waits at most for `_cond.notify()`. -/
structure HandsOver (s : EventLoopThread τ) : Prop where
  built : ∀ p, s.returned = some p → p = some s.addr ∧ s.io ≠ .notStarted ∧ s.io ≠ .started
  wakes : s.loop ≠ none → s.owner = .waiting → s.io = .published
  returns : s.loop ≠ none → s.InStartLoop →
    ∃ ls u, (∀ l ∈ ls, l.Finishes) ∧ Machine.run step s ls = some u ∧ u.owner = .returned

theorem HandOver.handsOver {s : EventLoopThread τ} (h : s.HandOver) : s.HandsOver where
  built := fun p hp => by
    obtain ⟨hloop, hpublished⟩ := h.returned p hp
    obtain ⟨a, ha⟩ := Option.ne_none_iff_exists'.mp hpublished
    have hio := mt h.unpublished.mpr hpublished
    exact ⟨by rw [hloop, ha, h.points a ha], fun hno => hio (Or.inl hno), fun hno => hio (Or.inr (Or.inl hno))⟩
  wakes := fun hloop howner => (h.waiting howner).resolve_left hloop
  returns := startLoop_returns h

/-! ## Runs -/

omit [DecidableEq τ] in
theorem init_sound : (init : EventLoopThread τ).Sound := fun _ _ hp => nomatch hp

/-- `startLoop` keeps its promise on every run, and no call of `quit` is left with a pointer that is null or dangling
exactly on the orderly ones. -/
theorem startLoop_quit (ls : List (Label τ)) (s : EventLoopThread τ) (hrun : Machine.run step init ls = some s) :
    Machine.Always step (fun t => t.HandsOver ∧ t.Sound) init ls ↔ Machine.Meets step Orderly init ls := by
  refine Machine.always_iff_meets (I := HandOver) (fun _ _ _ hI _ _ hstep => step_handOver hI hstep)
    (fun t l u hI hP hstep => ?_) init_handOver ⟨init_handOver.handsOver, init_sound⟩ hrun
  rw [← step_sound hI hP.2 hstep, and_iff_right (step_handOver hI hstep).handsOver]

/-- From `startLoop` to its return, with the IO thread behind it in front of `loop()`. -/
def toReturn : List (Label Unit) :=
  [.start true, .lock, .test, .spuriousWakeup, .construct 4, .lock, .test, .ioLock, .publish, .notify, .ioUnlock,
    .lock, .test, .startLoopReturns]

/-- A call of `quit` by another thread than the loop's. -/
def quitSteps (t : Thread Unit) : List (Label Unit) := [.object (.quit t), .object (.quitTest t), .object (.wakeup t)]

/-- The loop wakes up and ends. -/
def loopEnds : List (Label Unit) :=
  [.object (.poll true), .object .handleRead, .object .doPendingFunctors, .object .swap, .object .endBatch,
    .object .testQuit, .threadFuncReturns]

/-- The owner starts the loop and destroys the object while the loop is polling. -/
def polled : List (Label Unit) :=
  toReturn ++ [.enterLoop, .object .testQuit, .destructor] ++ quitSteps .owner ++ [.join] ++ loopEnds ++ [.joined]

theorem startLoop_quit_polled : Machine.Always step (fun t => t.HandsOver ∧ t.Sound) init polled :=
  (startLoop_quit polled _ rfl).mpr (by decide)

/-- The loop is quit before the destructor, as in `EventLoopThreadTest.cc`; the object is destroyed before the IO
thread is in `loop()`, or without `startLoop`. -/
theorem quit_dangles :
    let P : EventLoopThread Unit → Prop := fun t => t.HandsOver ∧ t.Sound
    ¬ Machine.Always step P init (toReturn ++ [.enterLoop, .object .testQuit, .quit .owner] ++ quitSteps .owner ++
        loopEnds ++ [.destructor]) ∧
      ¬ Machine.Always step P init (toReturn ++ [.destructor, .object (.quit .owner), .enterLoop, .object .testQuit,
        .threadFuncReturns]) ∧
      ¬ Machine.Always step P init [.destructor] := by
  intro P
  have htest : ∀ u, P u → decide (u.quits .owner ≠ none ∧ ¬ u.Alive) = false := by
    rintro u ⟨-, hsound⟩
    refine decide_eq_false fun ⟨hcall, hdead⟩ => hcall (hsound.idle hdead .owner)
  refine ⟨?_, ?_, ?_⟩ <;> exact Machine.not_always _ htest (by decide)

end EventLoopThread

end Muduo
