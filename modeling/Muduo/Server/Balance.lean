import Mathlib.Data.Int.CardIntervalMod
import Muduo.Server.Steps

/-! # How a server distributes its connections

`getNextLoop` goes round the loops of the pool. The loop of a connection depends on how many came before it, and no
loop gets two connections more than another.
-/

namespace Muduo.Server

/-- The loop that the `c`-th connection gets from a pool of `n` threads. -/
def turn (n : Nat) (c : ConnId) : Nat := if n = 0 then 0 else c % n + 1

/-- How many connections loop `L` has been given. -/
def load (s : Server) (L : Nat) : Nat := (List.range s.size).countP fun c => (s.conn c).loop = L

/-- The pool of `n` threads goes round. -/
structure Round (s : Server) (n : Nat) : Prop where
  pool : s.n = n
  next : s.next = s.size % n ∨ n = 0
  loop : ∀ c, c < s.size → (s.conn c).loop = turn n c

theorem init_round (n : Nat) (user : Bool) (listenfd : Int) (address : ConnId → TcpConnection.Addr) :
    (init n user listenfd address).Round n where
  pool := rfl
  next := Or.inl (Nat.zero_mod n).symm
  loop := fun _ hc => absurd hc (Nat.not_lt_zero _)

section

variable {s u : Server} {n : Nat} {l : Label}

theorem getNextLoop_round (hs : s.Round n) : s.getNextLoop.2 = turn n s.size ∧
    (s.getNextLoop.1.next = (s.size + 1) % n ∨ n = 0) := by
  unfold getNextLoop turn
  rw [hs.pool]
  by_cases hn : n = 0
  · rw [if_pos hn, if_pos hn]
    exact ⟨rfl, Or.inr hn⟩
  · have hnext := hs.next.resolve_right hn
    have hlt : s.size % n < n := Nat.mod_lt _ (Nat.pos_of_ne_zero hn)
    rw [if_neg hn, if_neg hn, hnext]
    refine ⟨rfl, Or.inl ?_⟩
    rw [← Nat.mod_add_mod]
    by_cases hlast : s.size % n + 1 = n
    · rw [hlast, if_pos le_rfl, Nat.mod_self]
    · have hbefore : s.size % n + 1 < n := lt_of_le_of_ne hlt hlast
      rw [if_neg (not_le.mpr hbefore), Nat.mod_eq_of_lt hbefore]

theorem step_round (hs : s.Round n) (h : step s l = some u) : u.Round n := by
  by_cases hl : ∃ fd, l = .accept fd
  · obtain ⟨fd, rfl⟩ := hl
    obtain ⟨rest, -, -, -, rfl⟩ := accept_inv h
    have htake : (s.takeActive 0 rest).Round n := ⟨hs.pool, hs.next, hs.loop⟩
    obtain ⟨hloop, hnext⟩ := getNextLoop_round htake
    refine ⟨by rw [accept_n, htake.pool], ?_, fun c hc => ?_⟩
    · rw [accept_next, accept_size]
      exact hnext
    · rw [accept_size] at hc
      by_cases hnew : c = (s.takeActive 0 rest).size
      · rw [hnew, accept_new]
        exact hloop
      · rw [accept_old _ fd hnew]
        exact htake.loop c (lt_of_le_of_ne (Nat.le_of_lt_succ hc) hnew)
  · have hfixed := step_fixed h fun fd hfd => hl ⟨fd, hfd⟩
    refine ⟨hfixed.n.trans hs.pool, ?_, fun c hc => ?_⟩
    · rw [hfixed.next, hfixed.size]
      exact hs.next
    · rw [hfixed.loop]
      exact hs.loop c (hfixed.size ▸ hc)

theorem run_round {user : Bool} {listenfd : Int} {address : ConnId → TcpConnection.Addr} {labels : List Label}
    (hrun : Machine.run step (init n user listenfd address) labels = some s) : s.Round n :=
  Machine.run_invariant (fun _ _ _ => step_round) (init_round n user listenfd address) hrun

end

/-- In every run the connections go to the loops in turn, and stay there. A loop of the pool has been given as many
as any other, or one more. -/
theorem connections_balanced (n : Nat) (user : Bool) (listenfd : Int) (address : ConnId → TcpConnection.Addr)
    (labels : List Label) (s : Server)
    (hrun : Machine.run step (init n user listenfd address) labels = some s) :
    (∀ c, c < s.size → (s.conn c).loop = turn n c) ∧
      ∀ L, L < n → s.load (L + 1) = s.size / n + if L < s.size % n then 1 else 0 := by
  have hround := run_round hrun
  refine ⟨hround.loop, fun L hL => ?_⟩
  have hn : n ≠ 0 := Nat.ne_of_gt (Nat.zero_lt_of_lt hL)
  have hturn : ∀ c ∈ List.range s.size, (decide ((s.conn c).loop = L + 1) = true ↔ decide (c ≡ L [MOD n]) = true) := by
    intro c hc
    rw [hround.loop c (List.mem_range.mp hc), turn, if_neg hn, decide_eq_true_eq, decide_eq_true_eq, Nat.ModEq,
      Nat.mod_eq_of_lt hL, Nat.succ_inj]
  calc s.load (L + 1) = s.size.count (· ≡ L [MOD n]) := List.countP_congr hturn
    _ = s.size / n + if L % n < s.size % n then 1 else 0 := Nat.count_modEq_card s.size (Nat.zero_lt_of_lt hL) L
    _ = s.size / n + if L < s.size % n then 1 else 0 := by rw [Nat.mod_eq_of_lt hL]

theorem connections_balanced_one : ∃ s, Machine.run step (init 2 true 3 id) (accepting 5) = some s ∧ s.size = 1 ∧
    s.load 1 = 1 ∧ s.load 2 = 0 := by
  have hone : (Machine.run step (init 2 true 3 id) (accepting 5)).map (·.size) = some 1 := by decide +kernel
  obtain ⟨s, hrun, hsize⟩ := Option.map_eq_some_iff.mp hone
  have hload := (connections_balanced 2 true 3 id _ s hrun).2
  rw [hsize] at hload
  exact ⟨s, hrun, hsize, hload 0 (by decide), hload 1 (by decide)⟩

end Muduo.Server
