import Mathlib.Algebra.Order.Group.Multiset
import Mathlib.Tactic.Abel
import Muduo.Simulation

/-! # Services

A party that is asked for things and gives each of them once, in any order.
-/

namespace Machine

structure Service (ω : Type*) where
  asked : List ω
  given : List ω
  pending : Multiset ω

namespace Service

variable {ω : Type*}

inductive Label (ω : Type*) where
  | ask (o : ω)
  | give (o : ω)

def init : Service ω := { asked := [], given := [], pending := 0 }

variable [DecidableEq ω]

def step (s : Service ω) : Label ω → Option (Service ω)
  | .ask o => some { s with asked := s.asked ++ [o], pending := o ::ₘ s.pending }
  | .give o => if o ∈ s.pending then some { s with given := s.given ++ [o], pending := s.pending.erase o } else none

/-- What was asked for has been given or is pending, each as often as it was asked for. -/
def Accounts (s : Service ω) : Prop := (s.asked : Multiset ω) = s.given + s.pending

theorem step_accounts {s u : Service ω} {l : Label ω} (h : s.Accounts) (hstep : step s l = some u) : u.Accounts := by
  unfold Accounts at h ⊢
  cases l with
  | ask o =>
    simp only [step, Option.some.injEq] at hstep
    subst hstep
    simp only [← Multiset.coe_add, h, Multiset.coe_singleton, ← Multiset.singleton_add]
    abel
  | give o =>
    obtain ⟨ho, rfl⟩ := guard_some.mp hstep
    simp only [← Multiset.coe_add, h, Multiset.coe_singleton, add_assoc, Multiset.singleton_add, Multiset.cons_erase ho]

theorem reaches_accounts {s : Service ω} (h : Reaches step (fun _ _ => True) init s) : s.Accounts :=
  h.invariant (fun _ _ _ h _ hstep => step_accounts h hstep) rfl

end Service

end Machine
