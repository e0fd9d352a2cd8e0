import Muduo.Machine
import Muduo.OrderedSet
import Mathlib.Data.Prod.Lex
import Mathlib.Logic.Function.Basic

/-! # `TimerQueue`

`include/Timer.h` and `src/TimerQueue.cc` with the memory that the timers live in and the timer
functors in the loop's queue. A `double` is left to a parameter, and sequence numbers do not wrap.
-/

namespace Muduo

/-- Microseconds since the epoch. -/
abbrev Timestamp := Int

/-- The value of a `Timer*`. -/
abbrev Addr := Nat

def UINTPTR_MAX : Addr := 0xffffffffffffffff

def kMicroSecondsPerSecond : Int := 1000000

/-- What the timers do with an interval of type `double`. -/
class Seconds (ι : Type*) where
  /-- `interval > 0.0` -/
  positive : ι → Bool
  /-- `Timestamp::nowAfter(interval)`, when the clock reads `now`. -/
  nowAfter : Timestamp → ι → Timestamp

/-- Intervals of whole seconds. -/
instance : Seconds Nat where
  positive interval := 0 < interval
  nowAfter now interval := now + kMicroSecondsPerSecond * interval

/-- The callback is known by its timer's sequence number. -/
structure Timer (ι : Type*) where
  stamp : Timestamp
  interval : ι
  sequence : Nat

def Timer.isRepeat {ι : Type*} [Seconds ι] (t : Timer ι) : Bool := Seconds.positive t.interval

def Timer.restart {ι : Type*} [Seconds ι] (t : Timer ι) (now : Timestamp) : Timer ι :=
  { t with stamp := Seconds.nowAfter now t.interval }

structure TimerId where
  timer : Addr
  sequence : Nat
  deriving DecidableEq, Repr

/-- `std::pair<Timestamp, Timer*>` -/
structure Entry where
  first : Timestamp
  second : Addr
  deriving DecidableEq, Repr

instance : LinearOrder Entry :=
  LinearOrder.lift' (fun e => toLex (e.first, e.second)) fun a b h => by
    cases a
    cases b
    simpa using h

structure Timespec where
  tv_sec : Int
  tv_nsec : Int
  deriving DecidableEq, Repr

/-- `now` is what `Timestamp::now()` returns. -/
def howMuchTimeFromNow (when_ now : Timestamp) : Timespec :=
  let microseconds := if when_ - now < 100 then 100 else when_ - now
  ⟨microseconds / kMicroSecondsPerSecond, microseconds % kMicroSecondsPerSecond * 1000⟩

/-- The value that `timerfd_settime` was given, and when. -/
structure Alarm where
  setAt : Timestamp
  value : Timespec
  deriving DecidableEq, Repr

def Alarm.expires (alarm : Alarm) : Timestamp :=
  alarm.setAt + alarm.value.tv_sec * kMicroSecondsPerSecond + alarm.value.tv_nsec / 1000

namespace TimerQueue

/-- An id that `addTimer` returned. `own` is the sequence number of the timer it created. -/
structure Issued where
  id : TimerId
  own : Nat
  deriving DecidableEq, Repr

/-- A call of `addTimer` in a thread that is not the loop's. -/
structure Adding where
  timer : Addr
  own : Nat
  /-- `runInLoop` has returned. -/
  handed : Bool
  deriving DecidableEq, Repr

inductive Queued where
  | addTimerInLoop (timer : Addr)
  | cancelInLoop (i : Issued)
  deriving DecidableEq, Repr

/-- What the loop's thread is in. -/
inductive Phase where
  /-- The handlers of other channels, or no handler. -/
  | handlers
  /-- The loop over `expired` in `handleRead`: the callbacks of `ran` have been invoked. -/
  | firing (ran todo : List Entry)
  | resetting (todo : List Entry)
  /-- `doPendingFunctors` -/
  | draining
  deriving DecidableEq, Repr

/-- The expired entries that `handleRead` still holds. -/
def Phase.batch : Phase → List Entry
  | .firing ran todo => ran ++ todo
  | .resetting todo => todo
  | _ => []

end TimerQueue

open TimerQueue in
structure TimerQueue (ι : Type*) where
  /-- What a read through a pointer yields, whether the object is alive or not. -/
  mem : Addr → Timer ι
  live : Addr → Bool
  sequeue : Nat
  pTimers : OrderedSet Entry
  timerfd : Option Alarm
  phase : Phase
  tempRuns : List Queued
  pendingFunctors : List Queued
  adding : List Adding
  issued : List Issued

namespace TimerQueue

variable {ι : Type*}

/-- Before the first call, with memory that holds anything. -/
def init (mem : Addr → Timer ι) : TimerQueue ι :=
  { mem
    live := fun _ => false
    sequeue := 0
    pTimers := .empty
    timerfd := none
    phase := .handlers
    tempRuns := []
    pendingFunctors := []
    adding := []
    issued := [] }

/-! ## Memory -/

def getStamp (q : TimerQueue ι) (timer : Addr) : Timestamp := (q.mem timer).stamp

def getsequence (q : TimerQueue ι) (timer : Addr) : Nat := (q.mem timer).sequence

/-- `new Timer(cb, when, interval)`, at an address that the allocator chose. -/
def newTimer (q : TimerQueue ι) (timer : Addr) (when_ : Timestamp) (interval : ι) : TimerQueue ι :=
  { q with
    mem := Function.update q.mem timer ⟨when_, interval, q.sequeue + 1⟩
    live := Function.update q.live timer true
    sequeue := q.sequeue + 1 }

def deleteTimer (q : TimerQueue ι) (timer : Addr) : TimerQueue ι :=
  { q with live := Function.update q.live timer false }

/-! ## Member functions -/

/-- One `now` for `howMuchTimeFromNow`, which reads the clock, and for the moment of `timerfd_settime` behind it. -/
def resetTimerfd (q : TimerQueue ι) (stamp now : Timestamp) : TimerQueue ι :=
  { q with timerfd := some ⟨now, howMuchTimeFromNow stamp now⟩ }

/-- A read of a timerfd that has not expired fails and changes nothing. -/
def readTimerfd (q : TimerQueue ι) (now : Timestamp) : TimerQueue ι :=
  { q with timerfd := q.timerfd.filter fun alarm => now < alarm.expires }

/-- Whether `timer` became the earliest, and the queue with it. -/
def insert (q : TimerQueue ι) (timer : Addr) : TimerQueue ι × Bool :=
  let when_ := q.getStamp timer
  let earliestChanged :=
    match q.pTimers.first with
    | none => true
    | some e => when_ < e.first
  ({ q with pTimers := q.pTimers.insert ⟨when_, timer⟩ }, earliestChanged)

def addTimerInLoop (q : TimerQueue ι) (timer : Addr) (now : Timestamp) : TimerQueue ι :=
  let (q, earliestChanged) := q.insert timer
  if earliestChanged then q.resetTimerfd (q.getStamp timer) now else q

/-- `it->second` is read after `erase(it)`, and is still the erased entry's. -/
def cancelInLoop (q : TimerQueue ι) (id : TimerId) : TimerQueue ι :=
  let timer : Entry := ⟨q.getStamp id.timer, id.timer⟩
  if timer ∈ q.pTimers then { q with pTimers := q.pTimers.erase timer }.deleteTimer timer.second else q

def sentry (now : Timestamp) : Entry := ⟨now, UINTPTR_MAX⟩

def getExpired (q : TimerQueue ι) (now : Timestamp) : TimerQueue ι × List Entry :=
  ({ q with pTimers := q.pTimers.eraseBelow (sentry now) }, q.pTimers.below (sentry now))

/-- `handleRead` up to its loop. -/
def handleRead (q : TimerQueue ι) (now : Timestamp) : TimerQueue ι :=
  let (q, expired) := (q.readTimerfd now).getExpired now
  { q with phase := .firing [] expired }

/-- One turn of the loop in `reset`. `now` is what the clock reads in `restart`. -/
def resetOne [Seconds ι] (q : TimerQueue ι) (e : Entry) (now : Timestamp) : TimerQueue ι :=
  if (q.mem e.second).isRepeat then
    (insert { q with mem := Function.update q.mem e.second ((q.mem e.second).restart now) } e.second).1
  else q.deleteTimer e.second

/-- `reset` behind its loop. -/
def rearm (q : TimerQueue ι) (now : Timestamp) : TimerQueue ι :=
  let nextExpire :=
    match q.pTimers.first with
    | none => 0
    | some e => q.getStamp e.second
  if 0 < nextExpire then q.resetTimerfd nextExpire now else q

/-- `addTimer` in the loop's thread, where `runInLoop` calls `addTimerInLoop` at once. -/
def addTimer (q : TimerQueue ι) (timer : Addr) (when_ : Timestamp) (interval : ι) (now : Timestamp) :
    TimerQueue ι :=
  let q := (q.newTimer timer when_ interval).addTimerInLoop timer now
  { q with issued := ⟨⟨timer, q.getsequence timer⟩, q.sequeue⟩ :: q.issued }

def callFunctor (q : TimerQueue ι) (now : Timestamp) : Queued → TimerQueue ι
  | .addTimerInLoop timer => q.addTimerInLoop timer now
  | .cancelInLoop i => q.cancelInLoop i.id

/-! ## Steps -/

inductive Label (ι : Type*) where
  /-- Memory that no `Timer` occupies changes. -/
  | scribble (timer : Addr) (t : Timer ι)
  | addTimer (timer : Addr) (when_ : Timestamp) (interval : ι) (now : Timestamp)
  | cancelTimer (i : Issued)
  /-- `addTimer` in another thread: `new`, then `runInLoop`, then `getsequence`. -/
  | newTimer (timer : Addr) (when_ : Timestamp) (interval : ι)
  | handOver (c : Adding)
  | getsequence (c : Adding)
  /-- `cancelTimer` in another thread. -/
  | queueCancel (i : Issued)
  | handleRead (now : Timestamp)
  | timeout
  | reset
  | resetOne (now : Timestamp)
  | rearm (now : Timestamp)
  | swap
  | callFunctor (now : Timestamp)
  | endBatch

/-- The loop's thread can be in code of the user. -/
def InUserCode (q : TimerQueue ι) : Prop := (∀ todo, q.phase ≠ .firing [] todo) ∧ ∀ todo, q.phase ≠ .resetting todo

/-- A place where the allocator can put a `Timer`. -/
def Free (q : TimerQueue ι) (timer : Addr) : Prop := q.live timer = false ∧ timer < UINTPTR_MAX

instance (q : TimerQueue ι) : Decidable q.InUserCode :=
  match h : q.phase with
  | .handlers | .draining | .firing (_ :: _) _ => .isTrue (by simp [InUserCode, h])
  | .firing [] _ | .resetting _ => .isFalse (by simp [InUserCode, h])

instance (q : TimerQueue ι) (timer : Addr) : Decidable (q.Free timer) :=
  inferInstanceAs (Decidable (q.live timer = false ∧ timer < UINTPTR_MAX))

def step [Seconds ι] (q : TimerQueue ι) : Label ι → Option (TimerQueue ι)
  | .scribble timer t =>
    if q.live timer = false then some { q with mem := Function.update q.mem timer t } else none
  | .addTimer timer when_ interval now =>
    if q.InUserCode ∧ q.Free timer then some (q.addTimer timer when_ interval now) else none
  | .cancelTimer i => if q.InUserCode ∧ i ∈ q.issued then some (q.cancelInLoop i.id) else none
  | .newTimer timer when_ interval =>
    if q.Free timer then
      some { q.newTimer timer when_ interval with adding := ⟨timer, q.sequeue + 1, false⟩ :: q.adding }
    else none
  | .handOver c =>
    if c ∈ q.adding ∧ c.handed = false then
      some { q with
        pendingFunctors := q.pendingFunctors ++ [.addTimerInLoop c.timer]
        adding := { c with handed := true } :: q.adding.erase c }
    else none
  | .getsequence c =>
    if c ∈ q.adding ∧ c.handed = true then
      some { q with
        adding := q.adding.erase c
        issued := ⟨⟨c.timer, q.getsequence c.timer⟩, c.own⟩ :: q.issued }
    else none
  | .queueCancel i =>
    if i ∈ q.issued then some { q with pendingFunctors := q.pendingFunctors ++ [.cancelInLoop i] } else none
  | .handleRead now => if q.phase = .handlers then some (q.handleRead now) else none
  | .timeout =>
    match q.phase with
    | .firing ran (e :: todo) => some { q with phase := .firing (ran ++ [e]) todo }
    | _ => none
  | .reset =>
    match q.phase with
    | .firing ran [] => some { q with phase := .resetting ran }
    | _ => none
  | .resetOne now =>
    match q.phase with
    | .resetting (e :: todo) => some { q.resetOne e now with phase := .resetting todo }
    | _ => none
  | .rearm now => if q.phase = .resetting [] then some { q.rearm now with phase := .handlers } else none
  | .swap =>
    if q.phase = .handlers then
      some { q with tempRuns := q.pendingFunctors, pendingFunctors := [], phase := .draining }
    else none
  | .callFunctor now =>
    match q.phase, q.tempRuns with
    | .draining, f :: rest => some (callFunctor { q with tempRuns := rest } now f)
    | _, _ => none
  | .endBatch => if q.phase = .draining ∧ q.tempRuns = [] then some { q with phase := .handlers } else none

/-- The sequence number of the timer whose callback a `timeout` step invokes. -/
def callback (q : TimerQueue ι) : Option Nat :=
  match q.phase with
  | .firing _ (e :: _) => some (q.getsequence e.second)
  | _ => none

/-- The id for which a step executes `cancelInLoop`. -/
def cancels (q : TimerQueue ι) : Label ι → Option Issued
  | .cancelTimer i => some i
  | .callFunctor _ =>
    match q.tempRuns with
    | .cancelInLoop i :: _ => some i
    | _ => none
  | _ => none

end TimerQueue

end Muduo
