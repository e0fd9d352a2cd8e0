import Muduo.Poller.Code

/-! # Epoll mirrors the channels

An entry is found by its descriptor and a channel by its address, and `Connector::handleWrite` puts two channels on
one descriptor. What keeps them apart is that the first one has been handed over when the second one is made.
-/

namespace Muduo

/-- An index moves from `kNew` to `kAdded` to `kDeleted`. -/
def Index.Onward (i j : Index) : Prop := i = j ∨ (i = .kNew ∧ j = .kAdded) ∨ (i = .kAdded ∧ j = .kDeleted)

namespace Poller

variable {κ : Type*}

/-- A channel with index `kAdded` has the entry of its descriptor, with its events, and no other channel has. -/
structure Mirrors (s : Poller κ) : Prop where
  added : ∀ a o, s.channels.lookup a = some o → o.ch.index = .kAdded →
    s.interest o.ch.sockfd = some (a, o.ch.events)
  others : ∀ a o, s.channels.lookup a = some o → o.ch.index ≠ .kAdded → ∀ e, s.interest o.ch.sockfd ≠ some (a, e)

/-- Through which channel a step calls `epoll_ctl`. -/
def through (s : Poller κ) : Label κ → Option Addr
  | .enable a | .enableWriting a | .disableWriting a | .handleClose a | .endTimers a => some a
  | .handleWrite => s.handsOver.map fun h => h.2.1
  | .construct _ _ _ | .connect _ _ _ _ | .resetChannel _ | .poll _ | .handleEvent | .newConnection _ | .destroy _
  | .close _ => none

/-- Every channel's index moves on, and the entry of a channel stays as it is unless it is updated itself. -/
structure Keeps (through : Option Addr) (s u : Poller κ) : Prop where
  index : ∀ a o p, s.channels.lookup a = some o → u.channels.lookup a = some p → o.ch.index.Onward p.ch.index
  entry : ∀ a o p e, s.channels.lookup a = some o → u.channels.lookup a = some p → through ≠ some a →
    s.interest o.ch.sockfd = some (a, e) → u.interest o.ch.sockfd = some (a, e)

/-- When a `Connector` hands over, the descriptor of its channel and `_sockFd` have no other channel, and `_sockFd`, if
it is not the channel's descriptor, has no entry. -/
def Orderly [DecidableEq κ] (s : Poller κ) : Label κ → Prop
  | .handleWrite => ∀ h ∈ s.handsOver,
    (∀ e ∈ s.channels.entries, e.1 ≠ h.2.1 → e.2.ch.sockfd ≠ h.2.2.ch.sockfd ∧ e.2.ch.sockfd ≠ s.sockFd h.1) ∧
      (s.sockFd h.1 ≠ h.2.2.ch.sockfd → s.interest (s.sockFd h.1) = none)
  | _ => True

instance [DecidableEq κ] (s : Poller κ) : (l : Label κ) → Decidable (s.Orderly l)
  | .handleWrite => inferInstanceAs (Decidable (∀ h ∈ s.handsOver,
    (∀ e ∈ s.channels.entries, e.1 ≠ h.2.1 → e.2.ch.sockfd ≠ h.2.2.ch.sockfd ∧ e.2.ch.sockfd ≠ s.sockFd h.1) ∧
      (s.sockFd h.1 ≠ h.2.2.ch.sockfd → s.interest (s.sockFd h.1) = none)))
  | .construct _ _ _ | .enable _ | .connect _ _ _ _ | .resetChannel _ | .poll _ | .handleEvent | .newConnection _
  | .enableWriting _ | .disableWriting _ | .handleClose _ | .endTimers _ | .destroy _ | .close _ => .isTrue trivial

/-! ## The invariant -/

/-- The channel of a `Connector`, which has been handed over. -/
def Object.HandedOver (o : Object κ) : Prop := o.owner.isConnector = true ∧ o.ch.index = .kDeleted

structure Consistent (s : Poller κ) : Prop where
  added : ∀ a o, s.channels.lookup a = some o → o.ch.index = .kAdded →
    s.interest o.ch.sockfd = some (a, o.ch.events)
  others : ∀ a o, s.channels.lookup a = some o → o.ch.index ≠ .kAdded → ∀ e, s.interest o.ch.sockfd ≠ some (a, e)
  new : ∀ a o, s.channels.lookup a = some o → o.ch.index = .kNew → s.interest o.ch.sockfd = none
  opened : ∀ a o, s.channels.lookup a = some o → s.isOpen o.ch.sockfd = true
  valid : ∀ fd, s.isOpen fd = true → 0 ≤ fd
  closed : ∀ fd, s.isOpen fd = false → s.interest fd = none
  /-- Two channels on one descriptor: one is handed over, and the other is a connection's. -/
  shared : ∀ a b o p, a ≠ b → s.channels.lookup a = some o → s.channels.lookup b = some p →
    o.ch.sockfd = p.ch.sockfd → o.HandedOver ∧ p.owner = .connection ∨ p.HandedOver ∧ o.owner = .connection
  sockChan : ∀ k a, s.pSockChan k = some a → ∃ o, s.channels.lookup a = some o ∧ o.owner = .connector k
  connecting : ∀ a o, s.channels.lookup a = some o → o.owner.isConnector = true → o.ch.index = .kNew →
    s.pc = .constructed a
  handing : ∀ fd, s.pc = .newConnection fd → s.isOpen fd = true ∧ s.interest fd = none ∧
    ∀ a o, s.channels.lookup a = some o → o.ch.sockfd = fd → o.HandedOver

theorem init_consistent : (init : Poller κ).Consistent where
  added := fun _ _ h => nomatch h
  others := fun _ _ h => nomatch h
  new := fun _ _ h => nomatch h
  opened := fun _ _ h => nomatch h
  valid := fun _ h => nomatch h
  closed := fun _ _ => rfl
  shared := fun _ _ _ _ _ h => nomatch h
  sockChan := fun _ _ h => nomatch h
  connecting := fun _ _ h => nomatch h
  handing := fun _ h => nomatch h

/-! ## Lookups -/

theorem lookup_insert_some {m : AList fun _ : Addr => Object κ} {a b : Addr} {o p : Object κ}
    (h : (m.insert a o).lookup b = some p) : (b = a ∧ p = o) ∨ (b ≠ a ∧ m.lookup b = some p) := by
  by_cases hb : b = a
  · subst hb
    rw [AList.lookup_insert, Option.some.injEq] at h
    exact Or.inl ⟨rfl, h.symm⟩
  · rw [AList.lookup_insert_ne hb] at h
    exact Or.inr ⟨hb, h⟩

theorem lookup_erase_some {m : AList fun _ : Addr => Object κ} {a b : Addr} {p : Object κ}
    (h : (m.erase a).lookup b = some p) : b ≠ a ∧ m.lookup b = some p := by
  by_cases hb : b = a
  · subst hb
    rw [AList.lookup_erase] at h
    cases h
  · rw [AList.lookup_erase_ne hb] at h
    exact ⟨hb, h⟩

theorem not_mem_of_lookup {m : AList fun _ : Addr => Object κ} {a b : Addr} {p : Object κ} (ha : m.lookup a = none)
    (hb : m.lookup b = some p) : b ≠ a := by
  rintro rfl
  rw [ha] at hb
  cases hb

namespace Consistent

variable {s : Poller κ}

theorem mirrors (h : s.Consistent) : s.Mirrors := ⟨h.added, h.others⟩

theorem settled (h : s.Consistent) (hpc : ∀ a, s.pc ≠ .constructed a) {a : Addr} {o : Object κ}
    (ho : s.channels.lookup a = some o) (hconnector : o.owner.isConnector = true) : o.ch.index ≠ .kNew :=
  fun hnew => hpc a (h.connecting a o ho hconnector hnew)

theorem setPc (h : s.Consistent) (pc : Pc) (hpc : ∀ fd, pc ≠ .newConnection fd)
    (hsettled : ∀ a o, s.channels.lookup a = some o → o.owner.isConnector = true → o.ch.index ≠ .kNew) :
    { s with pc }.Consistent :=
  { h with
    connecting := fun a o ho hconnector hnew => absurd hnew (hsettled a o ho hconnector)
    handing := fun fd hfd => absurd hfd (hpc fd) }

theorem setActive (h : s.Consistent) (active : List Addr) : { s with active }.Consistent := { h with }

theorem openFd (h : s.Consistent) {fd : Int} (hfd : 0 ≤ fd) :
    { s with isOpen := Function.update s.isOpen fd true }.Consistent := by
  have hopen : ∀ fd', s.isOpen fd' = true → Function.update s.isOpen fd true fd' = true := by
    intro fd' hfd'
    by_cases heq : fd' = fd
    · rw [heq, Function.update_self]
    · rwa [Function.update_of_ne heq]
  refine { h with
    opened := fun a o ho => hopen _ (h.opened a o ho)
    valid := fun fd' hfd' => ?_
    closed := fun fd' hfd' => ?_
    handing := fun fd' hpc => ?_ }
  · by_cases heq : fd' = fd
    · exact heq ▸ hfd
    · dsimp only at hfd'
      rw [Function.update_of_ne heq] at hfd'
      exact h.valid fd' hfd'
  · have hclosed : s.isOpen fd' = false := by
      by_contra hno
      dsimp only at hfd'
      rw [hopen fd' (by simpa using hno)] at hfd'
      cases hfd'
    exact h.closed fd' hclosed
  · obtain ⟨hopened, hrest⟩ := h.handing fd' hpc
    exact ⟨hopen fd' hopened, hrest⟩

theorem newChannel (h : s.Consistent) (owner : Owner κ) {a : Addr} {fd : Int} (ha : s.channels.lookup a = none)
    (hopen : s.isOpen fd = true) (hentry : s.interest fd = none)
    (halone : ∀ b p, s.channels.lookup b = some p → p.ch.sockfd = fd → p.HandedOver ∧ owner = .connection)
    (howner : owner.isConnector = true → s.pc = .constructed a) (hpc : s.pc ≠ .newConnection fd) :
    (s.newChannel owner a fd).Consistent := by
  refine ⟨fun b p hp hadded => ?_, fun b p hp hnot e he => ?_, fun b p hp hnew => ?_, fun b p hp => ?_, h.valid,
    h.closed, fun b c p q hne hp hq hfd => ?_, fun k b hb => ?_, fun b p hp hconnector hnew => ?_, fun fd' hfd' => ?_⟩
  · rcases lookup_insert_some hp with ⟨rfl, rfl⟩ | ⟨-, hp⟩
    · cases hadded
    · exact h.added b p hp hadded
  · rcases lookup_insert_some hp with ⟨rfl, rfl⟩ | ⟨-, hp⟩
    · rw [show (s.newChannel owner b fd).interest = s.interest from rfl, show (Channel.init fd).sockfd = fd from rfl,
        hentry] at he
      cases he
    · exact h.others b p hp hnot e he
  · rcases lookup_insert_some hp with ⟨rfl, rfl⟩ | ⟨-, hp⟩
    · exact hentry
    · exact h.new b p hp hnew
  · rcases lookup_insert_some hp with ⟨rfl, rfl⟩ | ⟨-, hp⟩
    · exact hopen
    · exact h.opened b p hp
  · rcases lookup_insert_some hp with ⟨rfl, rfl⟩ | ⟨-, hb⟩
    · rcases lookup_insert_some hq with ⟨rfl, -⟩ | ⟨-, hc⟩
      · exact absurd rfl hne
      · exact Or.inr (halone c q hc hfd.symm)
    · rcases lookup_insert_some hq with ⟨rfl, rfl⟩ | ⟨-, hc⟩
      · exact Or.inl (halone b p hb hfd)
      · exact h.shared b c p q hne hb hc hfd
  · obtain ⟨p, hp, hk⟩ := h.sockChan k b hb
    exact ⟨p, (AList.lookup_insert_ne (not_mem_of_lookup ha hp)).trans hp, hk⟩
  · rcases lookup_insert_some hp with ⟨rfl, rfl⟩ | ⟨-, hp⟩
    · exact howner hconnector
    · exact h.connecting b p hp hconnector hnew
  · obtain ⟨hopen', hentry', hhanded⟩ := h.handing fd' hfd'
    refine ⟨hopen', hentry', fun b p hp hfd => ?_⟩
    rcases lookup_insert_some hp with ⟨rfl, rfl⟩ | ⟨-, hp⟩
    · exact absurd (hfd' ▸ hfd ▸ rfl) hpc
    · exact hhanded b p hp hfd

theorem owned (h : s.Consistent) {k : κ} {a : Addr} {o : Object κ} (hk : s.pSockChan k = some a)
    (ho : s.channels.lookup a = some o) : o.owner = .connector k := by
  obtain ⟨p, hp, howner⟩ := h.sockChan k a hk
  rw [ho, Option.some.injEq] at hp
  exact hp ▸ howner

theorem erase (h : s.Consistent) {a : Addr} (ha : ∀ k, s.pSockChan k ≠ some a) :
    { s with channels := s.channels.erase a }.Consistent where
  added := fun b p hp => h.added b p (lookup_erase_some hp).2
  others := fun b p hp => h.others b p (lookup_erase_some hp).2
  new := fun b p hp => h.new b p (lookup_erase_some hp).2
  opened := fun b p hp => h.opened b p (lookup_erase_some hp).2
  valid := h.valid
  closed := h.closed
  shared := fun b c p q hne hp hq => h.shared b c p q hne (lookup_erase_some hp).2 (lookup_erase_some hq).2
  sockChan := fun k b hb => by
    obtain ⟨p, hp, howner⟩ := h.sockChan k b hb
    refine ⟨p, (AList.lookup_erase_ne ?_).trans hp, howner⟩
    rintro rfl
    exact ha k hb
  connecting := fun b p hp => h.connecting b p (lookup_erase_some hp).2
  handing := fun fd hfd => by
    obtain ⟨hopen, hentry, hhanded⟩ := h.handing fd hfd
    exact ⟨hopen, hentry, fun b p hp => hhanded b p (lookup_erase_some hp).2⟩

theorem setPSockChan [DecidableEq κ] (h : s.Consistent) (k : κ) (p : Option Addr)
    (hp : ∀ a, p = some a → ∃ o, s.channels.lookup a = some o ∧ o.owner = .connector k) :
    { s with pSockChan := Function.update s.pSockChan k p }.Consistent := by
  refine { h with sockChan := fun j a ha => ?_ }
  dsimp only at ha
  by_cases hj : j = k
  · subst hj
    rw [Function.update_self] at ha
    exact hp a ha
  · rw [Function.update_of_ne hj] at ha
    exact h.sockChan j a ha

theorem reset [DecidableEq κ] (h : s.Consistent) (k : κ) (p : Option Addr)
    (hp : ∀ a, p = some a → s.pSockChan k ≠ some a ∧ ∃ o, s.channels.lookup a = some o ∧ o.owner = .connector k) :
    (s.reset k p).Consistent := by
  have hset := h.setPSockChan k p fun a ha => (hp a ha).2
  unfold Poller.reset
  split
  · rename_i a ha
    refine hset.erase fun j hj => ?_
    dsimp only at hj
    by_cases hjk : j = k
    · subst hjk
      rw [Function.update_self] at hj
      exact (hp a hj).1 ha
    · rw [Function.update_of_ne hjk] at hj
      obtain ⟨o, ho, howner⟩ := h.sockChan j a hj
      rw [h.owned ha ho, Owner.connector.injEq] at howner
      exact hjk howner.symm
  · exact hset

theorem closeFd (h : s.Consistent) {fd : Int} (hunused : ∀ a o, s.channels.lookup a = some o → o.ch.sockfd ≠ fd)
    (hpc : s.pc ≠ .newConnection fd) : (s.closeFd fd).Consistent := by
  have hinterest : ∀ fd', fd' ≠ fd → (s.closeFd fd).interest fd' = s.interest fd' :=
    fun fd' hfd => Function.update_of_ne hfd _ _
  have hopen : ∀ fd', fd' ≠ fd → (s.closeFd fd).isOpen fd' = s.isOpen fd' :=
    fun fd' hfd => Function.update_of_ne hfd _ _
  refine { h with
    added := fun a o ho hadded => ?_
    others := fun a o ho hnot => ?_
    new := fun a o ho hnew => ?_
    opened := fun a o ho => ?_
    valid := fun fd' hfd' => ?_
    closed := fun fd' hfd' => ?_
    handing := fun fd' hfd' => ?_ }
  · rw [hinterest _ (hunused a o ho)]
    exact h.added a o ho hadded
  · rw [hinterest _ (hunused a o ho)]
    exact h.others a o ho hnot
  · rw [hinterest _ (hunused a o ho)]
    exact h.new a o ho hnew
  · rw [hopen _ (hunused a o ho)]
    exact h.opened a o ho
  · by_cases heq : fd' = fd
    · rw [heq, show (s.closeFd fd).isOpen fd = false from Function.update_self fd _ _] at hfd'
      cases hfd'
    · rw [hopen fd' heq] at hfd'
      exact h.valid fd' hfd'
  · by_cases heq : fd' = fd
    · rw [heq]
      exact Function.update_self fd _ _
    · rw [hinterest fd' heq]
      exact h.closed fd' (hopen fd' heq ▸ hfd')
  · have hne : fd' ≠ fd := by
      rintro rfl
      exact hpc hfd'
    rw [hopen fd' hne, hinterest fd' hne]
    exact h.handing fd' hfd'

/-- A channel changes, and with it at most the entry of its descriptor. The other channels on the descriptor see no
change, or have been handed over and get no entry. -/
theorem change (h : s.Consistent) {a : Addr} {o : Object κ} (ho : s.channels.lookup a = some o) {ch : Channel}
    {interest : Interest Addr} (hsockfd : ch.sockfd = o.ch.sockfd)
    (hdeleted : o.ch.index = .kDeleted → ch.index = .kDeleted)
    (hoff : ∀ fd, fd ≠ o.ch.sockfd → interest fd = s.interest fd)
    (hadded : ch.index = .kAdded → interest o.ch.sockfd = some (a, ch.events))
    (hothers : ch.index ≠ .kAdded → ∀ e, interest o.ch.sockfd ≠ some (a, e))
    (hnew : ch.index = .kNew → o.ch.index = .kNew ∧ interest o.ch.sockfd = none)
    (hrest : ∀ b p, b ≠ a → s.channels.lookup b = some p → p.ch.sockfd = o.ch.sockfd →
      interest o.ch.sockfd = s.interest o.ch.sockfd ∨ (p.HandedOver ∧ ∀ e, interest o.ch.sockfd ≠ some (b, e)))
    (hpc : s.pc = .newConnection o.ch.sockfd → interest o.ch.sockfd = none) :
    { s with channels := s.channels.insert a { o with ch }, interest }.Consistent := by
  have hhanded : o.HandedOver → Object.HandedOver { o with ch } := fun hover => ⟨hover.1, hdeleted hover.2⟩
  have hopened := h.opened a o ho
  -- What another channel finds under its descriptor.
  have hother : ∀ b p, b ≠ a → s.channels.lookup b = some p → interest p.ch.sockfd = s.interest p.ch.sockfd ∨
      (p.HandedOver ∧ ∀ e, interest p.ch.sockfd ≠ some (b, e)) := by
    intro b p hb hp
    by_cases hfd : p.ch.sockfd = o.ch.sockfd
    · rw [hfd]
      exact hrest b p hb hp hfd
    · exact Or.inl (hoff _ hfd)
  refine ⟨fun b p hp hindex => ?_, fun b p hp hindex => ?_, fun b p hp hindex => ?_, fun b p hp => ?_, h.valid,
    fun fd hclosed => ?_, fun b c p q hne hp hq hfd => ?_, fun k b hb => ?_, fun b p hp hconnector hindex => ?_,
    fun fd hfd => ?_⟩
  · rcases lookup_insert_some hp with ⟨rfl, rfl⟩ | ⟨hb, hp⟩
    · exact (congrArg interest hsockfd).trans (hadded hindex)
    · rcases hother b p hb hp with hsame | ⟨hover, -⟩
      · exact hsame.trans (h.added b p hp hindex)
      · rw [hover.2] at hindex
        cases hindex
  · rcases lookup_insert_some hp with ⟨rfl, rfl⟩ | ⟨hb, hp⟩
    · intro e he
      exact hothers hindex e ((congrArg interest hsockfd).symm.trans he)
    · rcases hother b p hb hp with hsame | ⟨-, hnone⟩
      · intro e he
        exact h.others b p hp hindex e (hsame.symm.trans he)
      · exact hnone
  · rcases lookup_insert_some hp with ⟨rfl, rfl⟩ | ⟨hb, hp⟩
    · exact (congrArg interest hsockfd).trans (hnew hindex).2
    · rcases hother b p hb hp with hsame | ⟨hover, -⟩
      · exact hsame.trans (h.new b p hp hindex)
      · rw [hover.2] at hindex
        cases hindex
  · rcases lookup_insert_some hp with ⟨rfl, rfl⟩ | ⟨-, hp⟩
    · exact (congrArg s.isOpen hsockfd).trans hopened
    · exact h.opened b p hp
  · have hne : fd ≠ o.ch.sockfd := by
      rintro rfl
      rw [show s.isOpen o.ch.sockfd = false from hclosed] at hopened
      cases hopened
    exact (hoff fd hne).trans (h.closed fd hclosed)
  · rcases lookup_insert_some hp with ⟨rfl, rfl⟩ | ⟨-, hb⟩
    · rcases lookup_insert_some hq with ⟨rfl, -⟩ | ⟨-, hc⟩
      · exact absurd rfl hne
      · exact (h.shared b c o q hne ho hc (hsockfd.symm.trans hfd)).imp (fun hover => ⟨hhanded hover.1, hover.2⟩) id
    · rcases lookup_insert_some hq with ⟨rfl, rfl⟩ | ⟨-, hc⟩
      · exact (h.shared b c p o hne hb ho (hfd.trans hsockfd)).imp id fun hover => ⟨hhanded hover.1, hover.2⟩
      · exact h.shared b c p q hne hb hc hfd
  · obtain ⟨p, hp, howner⟩ := h.sockChan k b hb
    by_cases hba : b = a
    · subst hba
      exact ⟨{ o with ch }, AList.lookup_insert _, (h.owned hb ho : o.owner = .connector k)⟩
    · exact ⟨p, (AList.lookup_insert_ne hba).trans hp, howner⟩
  · rcases lookup_insert_some hp with ⟨rfl, rfl⟩ | ⟨-, hp⟩
    · exact h.connecting b o ho hconnector (hnew hindex).1
    · exact h.connecting b p hp hconnector hindex
  · obtain ⟨hopen, hentry, hall⟩ := h.handing fd hfd
    refine ⟨hopen, ?_, fun b p hp hpfd => ?_⟩
    · by_cases heq : fd = o.ch.sockfd
      · rw [heq]
        exact hpc (heq ▸ hfd)
      · exact (hoff fd heq).trans hentry
    · rcases lookup_insert_some hp with ⟨rfl, rfl⟩ | ⟨-, hp⟩
      · exact hhanded (hall b o ho (hsockfd.symm.trans hpfd))
      · exact hall b p hp hpfd

theorem setRevents (h : s.Consistent) {a : Addr} {o : Object κ} (ho : s.channels.lookup a = some o) (events : Events) :
    { s with channels := s.channels.insert a { o with ch := o.ch.setRevents events } }.Consistent :=
  h.change ho rfl id (fun _ _ => rfl) (h.added a o ho) (h.others a o ho) (fun hnew => ⟨hnew, h.new a o ho hnew⟩)
    (fun _ _ _ _ _ => Or.inl rfl) (fun hpc => (h.handing _ hpc).2.1)

theorem interest_update (h : s.Consistent) {a : Addr} {o : Object κ} (ho : s.channels.lookup a = some o) {ch : Channel}
    (hsockfd : ch.sockfd = o.ch.sockfd) (hindex : ch.index = o.ch.index ∨ ch.index = .kDeleted) :
    epollCtl a ch.update.2 s.interest =
      Function.update s.interest o.ch.sockfd (if ch.index = .kDeleted then none else some (a, ch.events)) := by
  rw [← hsockfd]
  refine epollCtl_update (fun hnew => ?_) fun hadded => ?_
  · have hold : o.ch.index = .kNew := by
      rcases hindex with hsame | hdeleted
      · exact hsame ▸ hnew
      · rw [hnew] at hdeleted
        cases hdeleted
    rw [hsockfd]
    exact ⟨h.new a o ho hold, h.valid _ (h.opened a o ho)⟩
  · have hold : o.ch.index = .kAdded := by
      rcases hindex with hsame | hdeleted
      · exact hsame ▸ hadded
      · rw [hadded] at hdeleted
        cases hdeleted
    rw [hsockfd]
    exact ⟨_, h.added a o ho hold⟩

theorem called (h : s.Consistent) {a : Addr} {o : Object κ} (ho : s.channels.lookup a = some o) {ch : Channel}
    (hsockfd : ch.sockfd = o.ch.sockfd) (hindex : ch.index = o.ch.index ∨ ch.index = .kDeleted)
    (halone : ∀ b p, b ≠ a → s.channels.lookup b = some p → p.ch.sockfd = o.ch.sockfd → p.HandedOver)
    (hpc : s.pc ≠ .newConnection o.ch.sockfd) : (s.called a o ch.update).Consistent := by
  unfold Poller.called
  rw [h.interest_update ho hsockfd hindex, ch.update_fst]
  refine h.change ho hsockfd (fun hdeleted => ?_) (fun fd hfd => Function.update_of_ne hfd _ _) (fun hadded => ?_)
    (fun hnot e he => ?_) (fun hnew => ?_) (fun b p hb hp hfd => Or.inr ⟨halone b p hb hp hfd, fun e he => ?_⟩)
    fun hno => absurd hno hpc
  · rcases hindex with hsame | hch
    · simp [hsame, hdeleted]
    · simp [hch]
  · have hnot : ch.index ≠ .kDeleted := by
      intro hch
      simp [hch] at hadded
    rw [Function.update_self, if_neg hnot]
  · cases hch : ch.index with
    | kNew | kAdded => simp [hch] at hnot
    | kDeleted => simp [hch] at he
  · cases hch : ch.index <;> simp [hch] at hnew
  · rw [Function.update_self] at he
    split at he
    · cases he
    · rw [Option.some.injEq, Prod.mk.injEq] at he
      exact hb he.1.symm

theorem alone (h : s.Consistent) {a : Addr} {o : Object κ} (ho : s.channels.lookup a = some o) (hnot : ¬ o.HandedOver)
    {b : Addr} {p : Object κ} (hb : b ≠ a) (hp : s.channels.lookup b = some p) (hfd : p.ch.sockfd = o.ch.sockfd) :
    p.HandedOver := by
  rcases h.shared a b o p hb.symm ho hp hfd.symm with ⟨hover, -⟩ | ⟨hover, -⟩
  · exact absurd hover hnot
  · exact hover

theorem apart (h : s.Consistent) {a : Addr} {o : Object κ} (ho : s.channels.lookup a = some o) (hnot : ¬ o.HandedOver) :
    s.pc ≠ .newConnection o.ch.sockfd := by
  intro hpc
  obtain ⟨-, -, hall⟩ := h.handing _ hpc
  exact hnot (hall a o ho rfl)

theorem timerfd (h : s.Consistent) {a : Addr} {o : Object κ} (ho : s.channels.lookup a = some o)
    (howner : o.owner = .timerQueue) {b : Addr} {p : Object κ} (hb : b ≠ a) (hp : s.channels.lookup b = some p) :
    p.ch.sockfd ≠ o.ch.sockfd := by
  intro hfd
  rcases h.shared b a p o hb hp ho hfd with ⟨-, hother⟩ | ⟨hover, -⟩
  · rw [howner] at hother
    cases hother
  · rw [Object.HandedOver, howner] at hover
    cases hover.1

end Consistent

/-! ## Steps -/

/-- What a step finds that goes through the channel at `a`, and which channel it updates. -/
structure Through (s : Poller κ) (a : Addr) (o : Object κ) (ch : Channel) : Prop where
  object : s.channels.lookup a = some o
  sockfd : ch.sockfd = o.ch.sockfd
  index : ch.index = o.ch.index ∨ ch.index = .kDeleted ∧ o.ch.index ≠ .kNew
  alone : ∀ b p, b ≠ a → s.channels.lookup b = some p → p.ch.sockfd = o.ch.sockfd → p.HandedOver
  pc : s.pc ≠ .newConnection o.ch.sockfd

theorem Through.consistent {s : Poller κ} {a : Addr} {o : Object κ} {ch : Channel} (k : s.Through a o ch)
    (h : s.Consistent) : (s.called a o ch.update).Consistent :=
  h.called k.object k.sockfd (k.index.imp id And.left) k.alone k.pc

theorem Consistent.through {s : Poller κ} (h : s.Consistent) {a : Addr} {o : Object κ}
    (ho : s.channels.lookup a = some o) (hnot : ¬ o.HandedOver) {ch : Channel} (hsockfd : ch.sockfd = o.ch.sockfd)
    (hindex : ch.index = o.ch.index ∨ ch.index = .kDeleted ∧ o.ch.index ≠ .kNew) : s.Through a o ch :=
  ⟨ho, hsockfd, hindex, fun _ _ hb hp hfd => h.alone ho hnot hb hp hfd, h.apart ho hnot⟩

section

variable [DecidableEq κ]

theorem call_through {s u : Poller κ} (h : s.Consistent) {owner : Owner κ} {a : Addr} {reaches : Channel → Bool}
    {f : Channel → Channel × Ctl} (hcall : s.call owner a reaches f = some u) (howner : owner.isConnector = false)
    (hf : ∀ ch, ∃ ch' : Channel, f ch = ch'.update ∧ ch'.sockfd = ch.sockfd ∧
      (ch'.index = ch.index ∨ ch'.index = .kDeleted)) :
    ∃ o ch, s.Through a o ch ∧ o.owner.isConnector = false ∧ u = s.called a o ch.update := by
  unfold call at hcall
  split at hcall
  · rename_i o ho
    obtain ⟨⟨-, heq, hindex, -⟩, rfl⟩ := Machine.guard_some.mp hcall
    obtain ⟨ch, hch, hsockfd, hmoves⟩ := hf o.ch
    rw [← heq] at howner
    have hnot : ¬ o.HandedOver := by
      rintro ⟨hconnector, -⟩
      rw [howner] at hconnector
      cases hconnector
    exact ⟨o, ch, h.through ho hnot hsockfd (hmoves.imp id fun hdeleted => ⟨hdeleted, hindex⟩), howner, by rw [hch]⟩
  · cases hcall

theorem operation_through {s u : Poller κ} (h : s.Consistent) {a : Addr} {l : Label κ}
    (hl : l ∈ [.enableWriting a, .disableWriting a, .handleClose a, .endTimers a]) (hstep : step s l = some u) :
    ∃ o ch, s.Through a o ch ∧ o.owner.isConnector = false ∧ u = s.called a o ch.update := by
  have hdisable : ∀ ch : Channel, ∃ ch' : Channel, disableChannel ch = ch'.update ∧ ch'.sockfd = ch.sockfd ∧
      (ch'.index = ch.index ∨ ch'.index = .kDeleted) :=
    fun ch => ⟨{ ch with index := .kDeleted, events := 0 }, rfl, rfl, Or.inr rfl⟩
  simp only [List.mem_cons, List.not_mem_nil, or_false] at hl
  rcases hl with rfl | rfl | rfl | rfl <;> simp only [step] at hstep
  · exact call_through h hstep rfl fun ch => ⟨_, rfl, rfl, Or.inl rfl⟩
  · exact call_through h hstep rfl fun ch => ⟨_, rfl, rfl, Or.inl rfl⟩
  · exact call_through h hstep rfl hdisable
  · exact call_through h hstep rfl hdisable

omit [DecidableEq κ] in
theorem handsOver_inv {s : Poller κ} {k : κ} {a : Addr} {o : Object κ} (h : s.handsOver = some (k, a, o)) :
    s.pSockChan k = some a ∧ s.channels.lookup a = some o ∧ ∃ b ch, s.active.head? = some b ∧
      s.channels.lookup b = some ⟨.connector k, ch⟩ ∧ ch.revents &&& EPOLLOUT ≠ 0 := by
  unfold handsOver at h
  split at h
  · rename_i j ch hhead
    obtain ⟨b, hb, hlookup⟩ := Option.bind_eq_some_iff.mp hhead
    split at h
    · cases h
    · rename_i hready
      obtain ⟨c, hc, hmap⟩ := Option.bind_eq_some_iff.mp h
      obtain ⟨p, hp, heq⟩ := Option.map_eq_some_iff.mp hmap
      cases heq
      exact ⟨hc, hp, b, ch, hb, hlookup, hready⟩
  · cases h

omit [DecidableEq κ] in
theorem Object.enable_eq (o : Object κ) :
    ∃ ch : Channel, o.enable = ch.update ∧ ch.sockfd = o.ch.sockfd ∧ ch.index = o.ch.index := by
  unfold Object.enable
  split <;> exact ⟨_, rfl, rfl, rfl⟩

theorem enable_through {s u : Poller κ} {a : Addr} (h : s.Consistent) (hstep : step s (.enable a) = some u) :
    ∃ o ch, s.Through a o ch ∧ ¬ o.HandedOver ∧ ch.index = o.ch.index ∧
      u = { s.called a o ch.update with pc := if s.pc = .constructed a then .idle else s.pc } := by
  simp only [step] at hstep
  split at hstep
  · rename_i o ho
    obtain ⟨hmay, rfl⟩ := Machine.guard_some.mp hstep
    have hnot : ¬ o.HandedOver := by
      rintro ⟨hconnector, hdeleted⟩
      rcases hmay with hnew | howner
      · rw [hdeleted] at hnew
        cases hnew
      · rw [howner] at hconnector
        cases hconnector
    obtain ⟨ch, hch, hsockfd, hindex⟩ := o.enable_eq
    exact ⟨o, ch, h.through ho hnot hsockfd (Or.inl hindex), hnot, hindex, by rw [hch]; rfl⟩
  · cases hstep

theorem handleWrite_through {s u : Poller κ} (h : s.Consistent) (hl : s.Orderly .handleWrite)
    (hstep : step s .handleWrite = some u) :
    ∃ k a o ch, s.handsOver = some (k, a, o) ∧ s.Through a o ch ∧ ch.index = .kDeleted ∧ s.pc = .idle ∧
      o.owner = .connector k ∧ s.isOpen (s.sockFd k) = true ∧
      (∀ b p, b ≠ a → s.channels.lookup b = some p → p.ch.sockfd ≠ s.sockFd k) ∧
      (s.sockFd k ≠ o.ch.sockfd → s.interest (s.sockFd k) = none) ∧
      u = { s.called a o ch.update with active := s.active.tail, pc := .newConnection (s.sockFd k) } := by
  simp only [step] at hstep
  split at hstep
  · rename_i k a o hover
    obtain ⟨⟨hpc, hopen⟩, rfl⟩ := Machine.guard_some.mp hstep
    obtain ⟨hslot, ho, -⟩ := handsOver_inv hover
    obtain ⟨halone, hfree⟩ := hl (k, a, o) hover
    have howner := h.owned hslot ho
    have hother : ∀ b p, b ≠ a → s.channels.lookup b = some p →
        p.ch.sockfd ≠ o.ch.sockfd ∧ p.ch.sockfd ≠ s.sockFd k :=
      fun b p hb hp => halone ⟨b, p⟩ (AList.mem_lookup_iff.mp hp) hb
    have hadded : o.ch.index ≠ .kNew := h.settled (by simp [hpc]) ho (by rw [howner]; rfl)
    exact ⟨k, a, o, { o.ch with index := .kDeleted, events := 0 }, hover,
      ⟨ho, rfl, Or.inr ⟨rfl, hadded⟩, fun b p hb hp hfd => absurd hfd (hother b p hb hp).1, by simp [hpc]⟩,
      rfl, hpc, howner, hopen, fun b p hb hp => (hother b p hb hp).2, hfree, rfl⟩
  · cases hstep

/-- A step that calls `epoll_ctl` updates one channel, and no other changes. -/
theorem step_through {s u : Poller κ} {l : Label κ} {a : Addr} (h : s.Consistent) (hl : s.Orderly l)
    (ha : s.through l = some a) (hstep : step s l = some u) :
    ∃ o ch active pc, s.Through a o ch ∧ u = { s.called a o ch.update with active, pc } := by
  cases l with
  | enable b =>
    cases ha
    obtain ⟨o, ch, hthrough, -, -, rfl⟩ := enable_through h hstep
    exact ⟨o, ch, _, _, hthrough, rfl⟩
  | enableWriting b | disableWriting b | handleClose b | endTimers b =>
    cases ha
    obtain ⟨o, ch, hthrough, -, rfl⟩ := operation_through (a := a) h (by simp) hstep
    exact ⟨o, ch, _, _, hthrough, rfl⟩
  | handleWrite =>
    obtain ⟨k, b, o, ch, hover, hthrough, -, -, -, -, -, -, rfl⟩ := handleWrite_through h hl hstep
    rw [through, hover, Option.map_some, Option.some.injEq] at ha
    subst ha
    exact ⟨o, ch, _, _, hthrough, rfl⟩
  | construct _ _ _ | connect _ _ _ _ | resetChannel _ | poll _ | handleEvent | newConnection _ | destroy _ | close _ =>
    cases ha

omit [DecidableEq κ] in
theorem Consistent.setAllRevents {s u : Poller κ} {ready : List Ready} (h : s.Consistent)
    (hset : s.setRevents ready = some u) : u.Consistent := by
  induction ready generalizing s with
  | nil => exact Option.some.inj hset ▸ h
  | cons r ready ih =>
    unfold Poller.setRevents at hset
    split at hset
    · rename_i o ho
      exact ih (h.setRevents ho r.events) hset
    · cases hset

omit [DecidableEq κ] in
theorem Consistent.unused {s : Poller κ} (h : s.Consistent) {fd : Int} (hclosed : s.isOpen fd = false) {a : Addr}
    {o : Object κ} (ho : s.channels.lookup a = some o) : o.ch.sockfd ≠ fd := by
  rintro rfl
  rw [h.opened a o ho] at hclosed
  cases hclosed

theorem Consistent.connect {s : Poller κ} (h : s.Consistent) {k : κ} {a : Addr} {fd : Int} (savedErrno : Int)
    (hpc : s.pc = .idle) (ha : s.channels.lookup a = none) (hfresh : s.Fresh fd) :
    (s.connect k a fd savedErrno).Consistent := by
  obtain ⟨hvalid, hclosed⟩ := hfresh
  have hsocket :
      { s with isOpen := Function.update s.isOpen fd true, sockFd := Function.update s.sockFd k fd }.Consistent :=
    { h.openFd hvalid with }
  unfold Poller.connect
  split
  · have hset := hsocket.setPc (.constructed a) (by simp) fun _ _ => hsocket.settled (by simp [hpc])
    have hnew := hset.newChannel (.connector k) ha (Function.update_self fd _ _) (h.closed fd hclosed)
      (fun b p hp hfd => absurd hfd (h.unused hclosed hp)) (fun _ => rfl) (by simp)
    refine hnew.reset k (some a) fun b hb => ?_
    cases hb
    refine ⟨fun hk => ?_, ⟨_, .init fd⟩, AList.lookup_insert _, rfl⟩
    obtain ⟨o, ho, -⟩ := h.sockChan k a hk
    rw [ha] at ho
    cases ho
  · exact hsocket
  · exact hsocket.closeFd (fun _ _ => h.unused hclosed) (by simp [hpc])

theorem Consistent.enable {s u : Poller κ} (h : s.Consistent) {a : Addr} (hstep : step s (.enable a) = some u) :
    u.Consistent := by
  obtain ⟨o, ch, hthrough, -, -, rfl⟩ := enable_through h hstep
  have hcalled := hthrough.consistent h
  split
  · rename_i hpc
    refine hcalled.setPc .idle (by simp) fun b p hp hconnector hnew => ?_
    -- The only channel that was new is enabled.
    have hb := hcalled.connecting b p hp hconnector hnew
    rw [show (s.called a o ch.update).pc = s.pc from rfl, hpc, Pc.constructed.injEq] at hb
    subst hb
    rw [show (s.called a o ch.update).channels.lookup a = some { o with ch := ch.update.1 } from
      AList.lookup_insert _, Option.some.injEq] at hp
    subst hp
    rw [ch.update_fst] at hnew
    cases hindex : ch.index <;> simp [hindex] at hnew
  · exact hcalled

theorem Consistent.handleWrite {s u : Poller κ} (h : s.Consistent) (hl : s.Orderly .handleWrite)
    (hstep : step s .handleWrite = some u) : u.Consistent := by
  obtain ⟨k, a, o, ch, -, hthrough, hdeleted, hpc, howner, hopen, halone, hfree, rfl⟩ :=
    handleWrite_through h hl hstep
  have hcalled := hthrough.consistent h
  refine { hcalled with connecting := fun b p hp hconnector hnew => ?_, handing := fun fd hfd => ?_ }
  · exact absurd hnew (hcalled.settled (by simp [Poller.called, hpc]) hp hconnector)
  · cases hfd
    refine ⟨hopen, ?_, fun b p hp hfd => ?_⟩
    · have hinterest : (s.called a o ch.update).interest = Function.update s.interest o.ch.sockfd none := by
        rw [show (s.called a o ch.update).interest = epollCtl a ch.update.2 s.interest from rfl,
          h.interest_update hthrough.object hthrough.sockfd (Or.inr hdeleted), if_pos hdeleted]
      rw [hinterest]
      by_cases hsame : s.sockFd k = o.ch.sockfd
      · rw [hsame, Function.update_self]
      · rw [Function.update_of_ne hsame]
        exact hfree hsame
    · rcases lookup_insert_some hp with ⟨-, rfl⟩ | ⟨hb, hp⟩
      · refine ⟨by rw [howner]; rfl, ?_⟩
        rw [ch.update_fst]
        simp [hdeleted]
      · exact absurd hfd (halone b p hb hp)

theorem step_consistent {s u : Poller κ} {l : Label κ} (h : s.Consistent) (hl : s.Orderly l)
    (hstep : step s l = some u) : u.Consistent := by
  cases l with
  | construct owner a fd =>
    obtain ⟨⟨howner, ha, hvalid, hclosed⟩, rfl⟩ := Machine.guard_some.mp hstep
    refine (h.openFd hvalid).newChannel owner ha (Function.update_self fd _ _) (h.closed fd hclosed)
      (fun b p hp hfd => absurd hfd (h.unused hclosed hp)) (fun hconnector => ?_) fun hpc => ?_
    · rw [howner] at hconnector
      cases hconnector
    · obtain ⟨hopen, -⟩ := h.handing fd hpc
      rw [hclosed] at hopen
      cases hopen
  | enable a => exact h.enable hstep
  | connect k a fd savedErrno =>
    obtain ⟨⟨hpc, ha, hfresh⟩, rfl⟩ := Machine.guard_some.mp hstep
    exact h.connect savedErrno hpc ha hfresh
  | resetChannel k =>
    obtain ⟨-, rfl⟩ := Machine.guard_some.mp hstep
    exact h.reset k none (by simp)
  | poll ready =>
    simp only [step] at hstep
    split at hstep
    · exact (h.setActive _).setAllRevents hstep
    · cases hstep
  | handleEvent =>
    obtain ⟨-, rfl⟩ := Machine.guard_some.mp hstep
    exact h.setActive _
  | handleWrite => exact h.handleWrite hl hstep
  | newConnection a =>
    simp only [step] at hstep
    split at hstep
    · rename_i sockfd hpc
      obtain ⟨ha, rfl⟩ := Machine.guard_some.mp hstep
      obtain ⟨hopen, hentry, hall⟩ := h.handing sockfd hpc
      exact (h.setPc (.constructed a) (by simp) fun _ _ => h.settled (by simp [hpc])).newChannel .connection
        ha hopen hentry (fun b p hp hfd => ⟨hall b p hp hfd, rfl⟩) (by simp [Owner.isConnector]) (by simp)
    · cases hstep
  | enableWriting a | disableWriting a | handleClose a | endTimers a =>
    obtain ⟨o, ch, hthrough, -, rfl⟩ := operation_through (a := a) h (by simp) hstep
    exact hthrough.consistent h
  | destroy a =>
    simp only [step] at hstep
    split at hstep
    · rename_i o ho
      obtain ⟨hgo, rfl⟩ := Machine.guard_some.mp hstep
      have herase : { s with channels := s.channels.erase a }.Consistent := by
        refine h.erase fun k hk => ?_
        rw [Object.MayGo, h.owned hk ho] at hgo
        exact hgo
      split
      · rename_i howner
        refine herase.closeFd (fun b p hp => ?_) (h.apart ho fun hover => ?_)
        · obtain ⟨hb, hp⟩ := lookup_erase_some hp
          exact h.timerfd ho howner hb hp
        · rw [Object.HandedOver, howner] at hover
          cases hover.1
      · exact herase
    · cases hstep
  | close fd =>
    obtain ⟨⟨-, hunused, hpc⟩, rfl⟩ := Machine.guard_some.mp hstep
    refine h.closeFd (fun b p hp => ?_) hpc
    exact hunused ⟨b, p⟩ (AList.mem_lookup_iff.mp hp)

/-! ## What a step keeps -/

omit [DecidableEq κ] in
theorem Through.keeps {s : Poller κ} {a : Addr} {o : Object κ} {ch : Channel} (k : s.Through a o ch)
    (h : s.Consistent) : Keeps (some a) s (s.called a o ch.update) where
  index := fun b q p hq hp => by
    rcases lookup_insert_some hp with ⟨rfl, rfl⟩ | ⟨-, hp⟩
    · rw [k.object, Option.some.injEq] at hq
      subst hq
      rw [ch.update_fst]
      rcases k.index with hsame | ⟨hdeleted, hold⟩
      · cases hindex : o.ch.index <;> simp [Index.Onward, hsame, hindex]
      · cases hindex : o.ch.index <;> simp_all [Index.Onward]
    · rw [hq, Option.some.injEq] at hp
      exact hp ▸ Or.inl rfl
  entry := fun b q p e hq _ hb he => by
    rw [show (s.called a o ch.update).interest = epollCtl a ch.update.2 s.interest from rfl,
      h.interest_update k.object k.sockfd (k.index.imp id And.left)]
    have hne : q.ch.sockfd ≠ o.ch.sockfd := by
      intro hfd
      obtain ⟨-, hdeleted⟩ := k.alone b q (fun hab => hb (hab ▸ rfl)) hq hfd
      exact h.others b q hq (by simp [hdeleted]) e he
    rw [Function.update_of_ne hne]
    exact he

omit [DecidableEq κ] in
theorem Keeps.same {a : Option Addr} {s u : Poller κ} (hsame : ∀ b o p, s.channels.lookup b = some o →
    u.channels.lookup b = some p → p.ch.index = o.ch.index ∧ u.interest o.ch.sockfd = s.interest o.ch.sockfd) :
    Keeps a s u where
  index := fun b o p ho hp => Or.inl (hsame b o p ho hp).1.symm
  entry := fun b o p _ ho hp _ he => (hsame b o p ho hp).2.trans he

omit [DecidableEq κ] in
theorem newChannel_lookup {s : Poller κ} {owner : Owner κ} {a b : Addr} {fd : Int} {o p : Object κ}
    (ha : s.channels.lookup a = none) (ho : s.channels.lookup b = some o)
    (hp : (s.newChannel owner a fd).channels.lookup b = some p) : p = o := by
  rcases lookup_insert_some hp with ⟨rfl, -⟩ | ⟨-, hp⟩
  · rw [ha] at ho
    cases ho
  · rw [ho, Option.some.injEq] at hp
    exact hp.symm

theorem reset_lookup {s : Poller κ} {k : κ} {q : Option Addr} {a : Addr} {o : Object κ}
    (h : (s.reset k q).channels.lookup a = some o) : s.channels.lookup a = some o := by
  unfold reset at h
  cases hk : s.pSockChan k with
  | none => simpa [hk] using h
  | some b =>
    simp only [hk] at h
    exact (lookup_erase_some h).2

omit [DecidableEq κ] in
theorem setRevents_lookup {s u : Poller κ} {ready : List Ready} (h : s.setRevents ready = some u) :
    u.interest = s.interest ∧ ∀ a o p, s.channels.lookup a = some o → u.channels.lookup a = some p →
      p.ch.index = o.ch.index := by
  induction ready generalizing s with
  | nil =>
    cases h
    refine ⟨rfl, fun a o p ho hp => ?_⟩
    rw [ho, Option.some.injEq] at hp
    rw [hp]
  | cons r ready ih =>
    unfold setRevents at h
    split at h
    · rename_i q hq
      obtain ⟨hinterest, hindex⟩ := ih h
      refine ⟨hinterest, fun a o p ho hp => ?_⟩
      by_cases ha : a = r.ptr
      · subst ha
        rw [hq, Option.some.injEq] at ho
        subst ho
        have hset := hindex r.ptr { q with ch := q.ch.setRevents r.events } p (AList.lookup_insert _) hp
        exact hset
      · exact hindex a o p ((AList.lookup_insert_ne ha).trans ho) hp
    · cases h

theorem connect_keeps {s : Poller κ} (h : s.Consistent) {k : κ} {a : Addr} {fd : Int} (savedErrno : Int)
    (ha : s.channels.lookup a = none) (hfresh : s.Fresh fd) : Keeps none s (s.connect k a fd savedErrno) := by
  refine .same fun b o p ho hp => ?_
  unfold connect at hp ⊢
  split at hp
  · have hmade := reset_lookup (q := some a) hp
    obtain rfl := newChannel_lookup ha ho hmade
    exact ⟨rfl, rfl⟩
  · cases ho.symm.trans hp
    exact ⟨rfl, rfl⟩
  · cases ho.symm.trans hp
    exact ⟨rfl, Function.update_of_ne (h.unused hfresh.2 ho) _ _⟩

theorem step_keeps {s u : Poller κ} {l : Label κ} (h : s.Consistent) (hl : s.Orderly l)
    (hstep : step s l = some u) : Keeps (s.through l) s u := by
  cases hthrough : s.through l with
  | some a =>
    obtain ⟨o, ch, active, pc, k, rfl⟩ := step_through h hl hthrough hstep
    exact ⟨(k.keeps h).index, (k.keeps h).entry⟩
  | none =>
    cases l with
    | construct owner a fd =>
      obtain ⟨⟨-, ha, -⟩, rfl⟩ := Machine.guard_some.mp hstep
      exact .same fun b o p ho hp => ⟨newChannel_lookup ha ho hp ▸ rfl, rfl⟩
    | connect k a fd savedErrno =>
      obtain ⟨⟨-, ha, hfresh⟩, rfl⟩ := Machine.guard_some.mp hstep
      exact connect_keeps h savedErrno ha hfresh
    | resetChannel k =>
      obtain ⟨-, rfl⟩ := Machine.guard_some.mp hstep
      refine .same fun b o p ho hp => ?_
      cases ho.symm.trans (reset_lookup hp)
      exact ⟨rfl, rfl⟩
    | poll ready =>
      simp only [step] at hstep
      split at hstep
      · obtain ⟨hinterest, hindex⟩ := setRevents_lookup hstep
        exact .same fun b o p ho hp => ⟨hindex b o p ho hp, congrFun hinterest _⟩
      · cases hstep
    | handleEvent =>
      obtain ⟨-, rfl⟩ := Machine.guard_some.mp hstep
      refine .same fun b o p ho hp => ?_
      cases ho.symm.trans hp
      exact ⟨rfl, rfl⟩
    | handleWrite =>
      obtain ⟨k, a, o, ch, hover, -⟩ := handleWrite_through h hl hstep
      rw [through, hover] at hthrough
      cases hthrough
    | newConnection a =>
      simp only [step] at hstep
      split at hstep
      · obtain ⟨ha, rfl⟩ := Machine.guard_some.mp hstep
        exact .same fun b o p ho hp => ⟨newChannel_lookup ha ho hp ▸ rfl, rfl⟩
      · cases hstep
    | destroy a =>
      simp only [step] at hstep
      split at hstep
      · rename_i q hq
        obtain ⟨-, rfl⟩ := Machine.guard_some.mp hstep
        split
        · rename_i howner
          refine .same fun b o p ho hp => ?_
          obtain ⟨hb, hp⟩ := lookup_erase_some hp
          cases ho.symm.trans hp
          exact ⟨rfl, Function.update_of_ne (h.timerfd hq howner hb ho) _ _⟩
        · refine .same fun b o p ho hp => ?_
          obtain ⟨-, hp⟩ := lookup_erase_some hp
          cases ho.symm.trans hp
          exact ⟨rfl, rfl⟩
      · cases hstep
    | close fd =>
      obtain ⟨⟨-, hunused, -⟩, rfl⟩ := Machine.guard_some.mp hstep
      refine .same fun b o p ho hp => ?_
      cases ho.symm.trans hp
      exact ⟨rfl, Function.update_of_ne (hunused ⟨b, o⟩ (AList.mem_lookup_iff.mp ho)) _ _⟩
    | enable _ | enableWriting _ | disableWriting _ | handleClose _ | endTimers _ => cases hthrough

/-! ## Runs -/

/-- In every run in which each hand-over finds its descriptors free of other channels, epoll mirrors the channels in
every state, the indices move on, and no step touches the entry of another channel than the one it updates. -/
theorem epoll_mirrors (ls : List (Label κ)) (horderly : Machine.Meets step Orderly init ls) :
    Machine.Always step Mirrors init ls ∧
      Machine.Meets step (fun s l => ∀ u, step s l = some u → Keeps (s.through l) s u) init ls :=
  ⟨Machine.always_of_meets (I := Consistent) (fun _ _ _ h hl hstep => step_consistent h hl hstep) (fun _ h => h.mirrors)
      init_consistent horderly,
    Machine.meets_of_meets (I := Consistent) (fun _ _ _ h hl hstep => step_consistent h hl hstep)
      (fun _ _ h hl _ hstep => step_keeps h hl hstep) init_consistent horderly⟩

end

/-- The loop's own two channels, an acceptor with a connection, and a `Connector` that hands its descriptor over. -/
def everyOwner : List (Label Bool) :=
  [.construct .timerQueue 1 4, .enable 1, .construct .eventLoop 2 5, .enable 2, .construct .acceptor 3 6, .enable 3,
    .connect true 10 7 Client.EINPROGRESS, .enable 10, .poll [⟨6, 3, EPOLLIN⟩, ⟨7, 10, EPOLLOUT⟩], .handleEvent,
    .construct .connection 4 8, .enable 4, .handleWrite, .newConnection 11, .enable 11, .resetChannel true,
    .enableWriting 11, .disableWriting 11, .handleClose 11, .handleClose 4, .enableWriting 4, .destroy 11, .close 7,
    .endTimers 1, .destroy 1]

theorem epoll_mirrors_everyOwner : Machine.Always step Mirrors init everyOwner ∧
    Machine.Meets step (fun s l => ∀ u, step s l = some u → Keeps (s.through l) s u) init everyOwner :=
  epoll_mirrors everyOwner (by decide)

/-- A second attempt fails and closes its descriptor while the first one is under way, another client is given the
descriptor, and the first attempt is handed over. -/
def staleSockFd : List (Label Bool) :=
  [.connect false 1 5 Client.EINPROGRESS, .enable 1, .connect false 2 6 113, .connect true 2 6 Client.EINPROGRESS,
    .enable 2, .poll [⟨5, 1, EPOLLOUT⟩], .handleWrite, .newConnection 3, .enable 3]

/-- An attempt is stopped, and the next one's channel is at the address that epoll still has. -/
def handedOverTwice : List (Label Bool) :=
  [.connect false 1 5 Client.EINPROGRESS, .enable 1, .resetChannel false, .connect false 1 6 Client.EINPROGRESS,
    .enable 1, .poll [⟨5, 1, EPOLLOUT⟩, ⟨6, 1, EPOLLOUT⟩], .handleWrite, .newConnection 2, .enable 2, .handleWrite]

/-- The new connection's entry is another client's, and the entry of the first connection is taken out by the second
hand-over. -/
theorem entry_lost :
    (∃ u, Machine.run step init staleSockFd = some u ∧
      (u.channels.lookup 3).map (fun o => (o.ch.sockfd, o.ch.index)) = some (6, .kAdded) ∧
      u.interest 6 = some (2, EPOLLOUT)) ∧
    (∃ u, Machine.run step init handedOverTwice = some u ∧
      (u.channels.lookup 2).map (fun o => (o.ch.sockfd, o.ch.index)) = some (6, .kAdded) ∧ u.interest 6 = none) ∧
    ¬ Machine.Always step Mirrors init staleSockFd ∧ ¬ Machine.Always step Mirrors init handedOverTwice := by
  have htest : ∀ u : Poller Bool, u.Mirrors → decide (∃ e ∈ u.channels.entries, e.2.ch.index = .kAdded ∧
      u.interest e.2.ch.sockfd ≠ some (e.1, e.2.ch.events)) = false := by
    intro u hmirrors
    refine decide_eq_false ?_
    rintro ⟨e, he, hindex, hentry⟩
    exact hentry (hmirrors.added e.1 e.2 (AList.mem_lookup_iff.mpr he) hindex)
  refine ⟨⟨_, rfl, by decide, by decide⟩, ⟨_, rfl, by decide, by decide⟩, ?_, ?_⟩ <;>
    exact Machine.not_always _ htest (by decide)

end Poller

end Muduo
