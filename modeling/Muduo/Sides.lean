import Muduo.Client.Closed
import Muduo.Client.Descriptors
import Muduo.Server.Closed
import Muduo.Server.Descriptors
import Muduo.Server.Dispatch

/-! # Both sides of a connection

What `TcpServer` and `TcpClient` have in common: which thread works on a connection, what closing one ends, and who
owns a descriptor.
-/

namespace Muduo

/-! ## Threads -/

/-- A message is queued for connection 0, which the peer closes and the user drops. Connection 1 of loop 2 is made at
its address, and the thread of loop 1 calls the functor. -/
def Server.droppedEarly : List Server.Label :=
  Server.accepting 5 ++ [.poll 1 [], .swap 1, .runFunctor 1 .error, .act 1 (.keep 0), .return_ 1 .error, .endBatch 1,
    .foreign (.send 0 [1] .error), .poll 1 [(.conn 0, EPOLLHUP)], .handle 1 (.error 11) .error, .return_ 1 .error,
    .foreign (.drop 0), .swap 0, .endBatch 0] ++ Server.accepting 6 ++ [.swap 1]

/-- Another thread sends on a connection that the peer has closed and the user keeps. -/
def Server.sendLate : List Server.Label :=
  [.foreign (.send 0 [1] .error), .swap 0, .runFunctor 0 (.ok 0), .endBatch 0, .poll 0 []]

/-- The peer closes the connection, and the user keeps it. -/
def Client.closeKept : List Client.Label :=
  Client.connecting 5 ++ [.act (.keep 0), .return_ .error, .swap, .runFunctor .error (-1) EBADF, .endBatch,
    .poll [(.conn 0, EPOLLHUP)], .handle (.ok []) .error none]

/-- User code sends in `onClose`, and then another thread does. -/
def Client.sendLate : List Client.Label :=
  [.act (.send 0 [1] .error), .return_ .error, .foreign (.send 0 [2] .error), .swap, .runFunctor (.ok 0) (-1) EBADF,
    .endBatch, .poll []]

/-- The channel of the kept connection is made at the address of the channel of the first attempt. -/
def Client.channelReused : Client.Heap where
  channel
    | .attempt 0 | .conn _ => 0
    | .attempt _ => 1
  conn := id

/-- User code connects twice and keeps the connection that the second attempt makes. The peer closes it, and in the
same batch the first attempt is reported, whose entry is still in epoll. -/
def Client.closesKept : List Client.Label :=
  [.act (.connect 5 EINPROGRESS), .act (.connect 6 EINPROGRESS), .loop, .poll [(.attempt 1, EPOLLOUT)],
    .handle (.ok []) .error (some 0), .act (.keep 0), .return_ .error, .swap, .runFunctor .error (-1) EBADF, .endBatch,
    .poll [(.conn 0, EPOLLHUP), (.attempt 0, EPOLLOUT ||| EPOLLHUP)], .handle (.ok []) .error none]

/-- No descriptor is lost where no connection closes and no connect attempt leaves one behind. -/
theorem descriptors_conserved (n : Nat) (user : Bool) (listenfd : Int) (address : ConnId → TcpConnection.Addr)
    (heap : Client.Heap) :
    (∀ (labels : List Server.Label) (s : Server),
      Machine.Meets Server.step Server.NothingCloses (Server.init n user listenfd address) labels →
      Machine.run Server.step (Server.init n user listenfd address) labels = some s →
      s.DescriptorsOwned ((Server.init n user listenfd address).completed labels)) ∧
    ∀ (labels : List Client.Label) (s : Client),
      Machine.Meets Client.step Client.Conserves (Client.init user heap) labels →
      Machine.run Client.step (Client.init user heap) labels = some s →
      s.DescriptorsOwned ((Client.init user heap).completed labels) :=
  ⟨fun _ _ hopen hrun => Server.run_descriptorsOwned hopen hrun,
    fun _ _ hconserves hrun => Client.run_descriptorsOwned hconserves hrun⟩

theorem descriptors_conserved_established :
    (∃ s, Machine.run Server.step (Server.init 1 true 3 id) Server.readOnIoThread = some s ∧
      s.DescriptorsOwned ((Server.init 1 true 3 id).completed Server.readOnIoThread)) ∧
    ∃ s, Machine.run Client.step (Client.init true .distinct) (Client.connecting 5) = some s ∧
      s.DescriptorsOwned ((Client.init true .distinct).completed (Client.connecting 5)) := by
  have hserver : (Machine.run Server.step (Server.init 1 true 3 id) Server.readOnIoThread).isSome = true := by
    decide +kernel
  have hclient : (Machine.run Client.step (Client.init true .distinct) (Client.connecting 5)).isSome = true := by
    decide +kernel
  obtain ⟨s, hs⟩ := Option.isSome_iff_exists.mp hserver
  obtain ⟨t, ht⟩ := Option.isSome_iff_exists.mp hclient
  exact ⟨⟨s, hs, (descriptors_conserved 1 true 3 id .distinct).1 _ s (by decide +kernel) hs⟩,
    ⟨t, ht, (descriptors_conserved 1 true 3 id .distinct).2 _ t (by decide +kernel) ht⟩⟩

/-- The peer refuses, and `connect` leaves the descriptor to a retry that never comes. -/
def Client.connectRefused : List Client.Label := [.act (.connect 5 ECONNREFUSED)]

/-- A connection that the peer closed, and a connect attempt that it refused. -/
theorem descriptors_leak :
    (∃ s, Machine.run Server.step (Server.init 0 true 3 id) Server.hangUp = some s ∧
      ¬ s.DescriptorsOwned ((Server.init 0 true 3 id).completed Server.hangUp)) ∧
    ∃ s, Machine.run Client.step (Client.init true .distinct) Client.connectRefused = some s ∧
      ¬ s.DescriptorsOwned ((Client.init true .distinct).completed Client.connectRefused) := by
  constructor
  · have hsome : ((Machine.run Server.step (Server.init 0 true 3 id) Server.hangUp).map fun s =>
        decide (.accepted 5 0 ∈ s.trace)) = some true := by decide +kernel
    obtain ⟨s, hrun, hs⟩ := Option.map_eq_some_iff.mp hsome
    refine ⟨s, hrun, fun howned => ?_⟩
    have hdone : 0 ∈ (Server.init 0 true 3 id).completed Server.hangUp := by decide +kernel
    exact (howned 5 0 (of_decide_eq_true hs) (by decide)).2.2 hdone
  · have hsome : ((Machine.run Client.step (Client.init true .distinct) Client.connectRefused).map fun s =>
        decide (.socket 0 5 ∈ s.trace ∧ s.slot = none ∧ s.size = 0 ∧ s.trace.count (.close 0 5) = 0)) =
        some true := by decide +kernel
    obtain ⟨s, hrun, hs⟩ := Option.map_eq_some_iff.mp hsome
    obtain ⟨hsocket, hslot, hsize, hcount⟩ := of_decide_eq_true hs
    refine ⟨s, hrun, fun howned => ?_⟩
    rcases howned 0 5 hsocket (by decide) with ⟨sockfd, index, hprogress, -⟩ | ⟨c, hc, -⟩ | hclosed
    · rw [hslot] at hprogress
      cases hprogress
    · omega
    · omega

end Muduo
