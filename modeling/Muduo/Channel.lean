import Mathlib.Data.BitVec
import Mathlib.Logic.Function.Basic

/-! # `Channel` and `Epoll`

`include/Channel.h`, `src/Channel.cc` and the part of `src/Epoll.cc` that registers a channel.
-/

namespace Muduo

/-- A set of epoll events, an `int` in the source. -/
abbrev Events := BitVec 32

def EPOLLIN : Events := 0x001
def EPOLLOUT : Events := 0x004
def EPOLLHUP : Events := 0x010

/-- `kNew`, `kAdded` and `kDeleted` of `Common.h`. -/
inductive Index where
  | kNew | kAdded | kDeleted
  deriving DecidableEq, Repr

/-- The operations of `epoll_ctl`. -/
inductive CtlOp where
  | add | mod | del
  deriving DecidableEq, Repr

structure Channel where
  sockfd : Int
  events : Events
  revents : Events
  index : Index
  /-- `_pCallback` is set. -/
  callback : Bool
  deriving DecidableEq, Repr

/-- A call of `epoll_ctl`. -/
structure Ctl where
  op : CtlOp
  fd : Int
  events : Events
  deriving DecidableEq, Repr

namespace Channel

def init (sockfd : Int) : Channel :=
  { sockfd, events := 0, revents := 0, index := .kNew, callback := false }

def setCallback (ch : Channel) : Channel := { ch with callback := true }

def setRevents (ch : Channel) (revents : Events) : Channel := { ch with revents }

def setIndex (ch : Channel) (index : Index) : Channel := { ch with index }

/-- `Channel::update` calls `Epoll::update` of its loop. -/
def update (ch : Channel) : Channel × Ctl :=
  match ch.index with
  | .kNew => (ch.setIndex .kAdded, ⟨.add, ch.sockfd, ch.events⟩)
  | .kAdded => (ch, ⟨.mod, ch.sockfd, ch.events⟩)
  | .kDeleted => (ch, ⟨.del, ch.sockfd, ch.events⟩)

def enableReading (ch : Channel) : Channel × Ctl := update { ch with events := ch.events ||| EPOLLIN }

def enableWriting (ch : Channel) : Channel × Ctl := update { ch with events := ch.events ||| EPOLLOUT }

def disableWriting (ch : Channel) : Channel × Ctl := update { ch with events := ch.events &&& ~~~EPOLLOUT }

def disableAll (ch : Channel) : Channel × Ctl := update { ch with events := 0 }

def isWriting (ch : Channel) : Bool := ch.events &&& EPOLLOUT != 0

end Channel

/-- The interest list of an epoll descriptor: for each registered descriptor the channel that
`data.ptr` points to, and the events. -/
abbrev Interest (κ : Type*) := Int → Option (κ × Events)

/-- What `epoll_ctl` does: `add` needs an open descriptor that is absent, `mod` and `del` one that is
present, and a failed call changes nothing. -/
def epollCtl {κ : Type*} (ch : κ) (ctl : Ctl) (interest : Interest κ) : Interest κ :=
  match ctl.op, interest ctl.fd with
  | .add, none => if 0 ≤ ctl.fd then Function.update interest ctl.fd (some (ch, ctl.events)) else interest
  | .mod, some _ => Function.update interest ctl.fd (some (ch, ctl.events))
  | .del, some _ => Function.update interest ctl.fd none
  | _, _ => interest

theorem epollCtl_some {κ : Type*} {ch : κ} {ctl : Ctl} {interest : Interest κ} {fd : Int} {x : κ × Events}
    (h : epollCtl ch ctl interest fd = some x) :
    interest fd = some x ∨
      fd = ctl.fd ∧ x.1 = ch ∧ ctl.op ≠ .del ∧ ((interest fd).isSome = true ∨ 0 ≤ fd) := by
  by_cases hd : fd = ctl.fd
  · subst hd
    unfold epollCtl at h
    cases hop : ctl.op <;> cases hin : interest ctl.fd <;> simp only [hop, hin] at h
    · split at h
      · rename_i hfd
        rw [Function.update_self, Option.some.injEq] at h
        exact Or.inr ⟨rfl, h ▸ rfl, by simp, Or.inr hfd⟩
      · simp [hin] at h
    · exact Or.inl (hin ▸ h)
    · simp at h
    · rw [Function.update_self, Option.some.injEq] at h
      exact Or.inr ⟨rfl, h ▸ rfl, by simp, Or.inl (by simp)⟩
    · simp at h
    · simp at h
  · refine Or.inl ?_
    rw [← h]
    unfold epollCtl
    cases ctl.op <;> cases interest ctl.fd <;> simp only [Function.update_of_ne hd]
    split
    · rw [Function.update_of_ne hd]
    · rfl

theorem epollCtl_other {κ : Type*} {ch : κ} {ctl : Ctl} {interest : Interest κ} {fd : Int} {x : κ × Events}
    (h : epollCtl ch ctl interest fd = some x) (hne : x.1 ≠ ch) : interest fd = some x :=
  (epollCtl_some h).resolve_right fun hnew => hne hnew.2.1

theorem epollCtl_del {κ : Type*} (ch : κ) (fd : Int) (events : Events) (interest : Interest κ) (fd' : Int) :
    epollCtl ch ⟨.del, fd, events⟩ interest fd' = if fd' = fd then none else interest fd' := by
  unfold epollCtl
  cases h : interest fd with
  | none =>
    simp only
    split
    · rename_i heq
      rw [heq, h]
    · rfl
  | some x =>
    simp only
    split
    · rename_i heq
      rw [heq, Function.update_self]
    · rename_i hne
      rw [Function.update_of_ne hne]

/-- An update finds its own entry, or none. Then the entry is the channel's own, or it is gone. -/
theorem epollCtl_update {κ : Type*} {a : κ} {ch : Channel} {interest : Interest κ}
    (hnew : ch.index = .kNew → interest ch.sockfd = none ∧ 0 ≤ ch.sockfd)
    (hadded : ch.index = .kAdded → ∃ x, interest ch.sockfd = some x) :
    epollCtl a ch.update.2 interest =
      Function.update interest ch.sockfd (if ch.index = .kDeleted then none else some (a, ch.events)) := by
  cases hindex : ch.index with
  | kNew =>
    obtain ⟨hnone, hfd⟩ := hnew hindex
    simp [Channel.update, hindex, epollCtl, hnone, hfd]
  | kAdded =>
    obtain ⟨x, hx⟩ := hadded hindex
    simp [Channel.update, hindex, epollCtl, hx]
  | kDeleted =>
    funext fd
    simp only [Channel.update, hindex, epollCtl_del, if_pos, Function.update_apply]

namespace Channel

theorem update_fst (ch : Channel) :
    ch.update.1 = { ch with index := if ch.index = .kNew then .kAdded else ch.index } := by
  obtain ⟨sockfd, events, revents, index, callback⟩ := ch
  cases index <;> rfl

theorem update_deleted (ch : Channel) : ch.update.1.index = .kDeleted ↔ ch.index = .kDeleted := by
  unfold update
  split <;> simp [setIndex, *]

theorem update_sockfd (ch : Channel) : ch.update.1.sockfd = ch.sockfd := by
  unfold update
  split <;> rfl

theorem update_ctl (ch : Channel) :
    ch.update.2.fd = ch.sockfd ∧ (ch.index = .kDeleted → ch.update.2.op = .del) := by
  unfold update
  split <;> simp [*]

end Channel

end Muduo
