import Mathlib.Algebra.Order.Monoid.Defs
import Mathlib.Data.List.Chain

/-! # What recurs

A thing that is due first at `first`. When it has happened at `f` it may be renewed, at a time `c` behind `f`, and is
then due again at `next c`, if it repeats at all.
-/

namespace Recurrence

variable {T : Type*} [LinearOrder T] {next : T → T} {repeats : Prop} {first : T}

inductive Event (T : Type*) where
  | happened (f : T)
  | renewed (c : T)

/-- When the thing happened. -/
def Event.time : Event T → Option T
  | .happened f => some f
  | .renewed _ => none

def times (events : List (Event T)) : List T := events.filterMap Event.time

/-- What may come behind an event. -/
def Follows (next : T → T) (repeats : Prop) : Event T → Event T → Prop
  | .happened f, .renewed c => repeats ∧ f ≤ c
  | .renewed c, .happened f => next c ≤ f
  | _, _ => False

/-- What has been seen of the thing, in order. -/
structure Recurs (next : T → T) (repeats : Prop) (first : T) (events : List (Event T)) : Prop where
  start : ∀ e ∈ events.head?, ∃ f, e = .happened f ∧ first ≤ f
  follows : events.IsChain (Follows next repeats)

/-- These events have been seen, and the thing is due at `due`. -/
structure Due (next : T → T) (repeats : Prop) (first : T) (events : List (Event T)) (due : T) : Prop where
  recurs : Recurs next repeats first events
  start : events = [] → first ≤ due
  renewed : ∀ e ∈ events.getLast?, ∃ c, e = .renewed c ∧ next c ≤ due

theorem due_first : Due next repeats first [] first where
  recurs := ⟨by simp, List.isChain_nil⟩
  start := fun _ => le_refl first
  renewed := by simp

theorem Due.happens {events : List (Event T)} {due f : T} (h : Due next repeats first events due) (hle : due ≤ f) :
    Recurs next repeats first (events ++ [.happened f]) := by
  constructor
  · cases events with
    | nil =>
      intro e he
      obtain rfl : Event.happened f = e := by simpa using he
      exact ⟨f, rfl, (h.start rfl).trans hle⟩
    | cons d events => exact h.recurs.start
  · refine List.isChain_append.mpr ⟨h.recurs.follows, List.isChain_singleton _, fun d hd e he => ?_⟩
    obtain rfl : Event.happened f = e := by simpa using he
    obtain ⟨c, rfl, hnext⟩ := h.renewed d hd
    exact hnext.trans hle

theorem Recurs.again {events : List (Event T)} {f c : T} (h : Recurs next repeats first events) (hrepeats : repeats)
    (hlast : events.getLast? = some (.happened f)) (hle : f ≤ c) :
    Due next repeats first (events ++ [.renewed c]) (next c) where
  recurs := by
    constructor
    · cases events with
      | nil => cases hlast
      | cons d events => exact h.start
    · refine List.isChain_append.mpr ⟨h.follows, List.isChain_singleton _, fun d hd e he => ?_⟩
      obtain rfl : Event.renewed c = e := by simpa using he
      obtain rfl : Event.happened f = d := Option.some.inj (hlast.symm.trans hd)
      exact ⟨hrepeats, hle⟩
  start := fun hnil => by simp at hnil
  renewed := fun e he => ⟨c, by simpa using he.symm, le_refl _⟩

theorem Recurs.split {events : List (Event T)} (h : Recurs next repeats first events) :
    events = [] ∨ ∃ f, first ≤ f ∧ (events = [.happened f] ∨ ∃ c rest, events = .happened f :: .renewed c :: rest ∧
      repeats ∧ f ≤ c ∧ Recurs next repeats (next c) rest) := by
  match events with
  | [] => exact Or.inl rfl
  | [e] =>
    obtain ⟨f, rfl, hle⟩ := h.start e rfl
    exact Or.inr ⟨f, hle, Or.inl rfl⟩
  | d :: e :: rest =>
    obtain ⟨f, rfl, hle⟩ := h.start d rfl
    obtain ⟨hfollows, hrest⟩ := List.isChain_cons_cons.mp h.follows
    cases e with
    | happened g => exact hfollows.elim
    | renewed c =>
      refine Or.inr ⟨f, hle, Or.inr ⟨c, rest, rfl, hfollows.1, hfollows.2, ?_, hrest.tail⟩⟩
      intro e he
      cases rest with
      | nil => cases he
      | cons g rest =>
        obtain rfl : g = e := by simpa using he
        have hnext := (List.isChain_cons_cons.mp hrest).1
        cases g with
        | happened g => exact ⟨g, rfl, hnext⟩
        | renewed c => exact hnext.elim

theorem Recurs.length_le_one {events : List (Event T)} (h : Recurs next repeats first events) (hno : ¬ repeats) :
    (times events).length ≤ 1 := by
  obtain rfl | ⟨f, -, rfl | ⟨c, rest, rfl, hrepeats, -⟩⟩ := h.split
  · exact Nat.zero_le 1
  · exact Nat.le_refl 1
  · exact absurd hrepeats hno

/-- What waits for a period each time does not get ahead of it. -/
theorem Recurs.nth_ge {T : Type*} [AddCommMonoid T] [LinearOrder T] [IsOrderedAddMonoid T] {next : T → T}
    {repeats : Prop} {first period : T} {events : List (Event T)} (h : Recurs next repeats first events)
    (hperiod : ∀ c, c + period ≤ next c) {k : Nat} {f : T} (hf : (times events)[k]? = some f) :
    first + k • period ≤ f := by
  induction k generalizing first events with
  | zero =>
    obtain rfl | ⟨g, hle, rfl | ⟨c, rest, rfl, -⟩⟩ := h.split
    · cases hf
    all_goals
      obtain rfl : g = f := Option.some.inj hf
      rwa [zero_nsmul, add_zero]
  | succ k ih =>
    obtain rfl | ⟨g, hle, rfl | ⟨c, rest, rfl, -, hc, hrest⟩⟩ := h.split
    · cases hf
    · cases hf
    · calc first + (k + 1) • period = first + period + k • period := by rw [succ_nsmul', add_assoc]
        _ ≤ next c + k • period := add_le_add_left ((add_le_add_left (hle.trans hc) period).trans (hperiod c)) _
        _ ≤ f := ih hrest hf

end Recurrence
