import Muduo.Client.Connector

/-! # The addresses of a client's channels and connections

The allocator gives out no address that is in use, so a pointer leads to one channel or one connection at most.
-/

namespace Muduo.Client

/-! ## Nothing comes back to life -/

structure Lived (s u : Client) : Prop where
  heap : u.heap = s.heap
  size : s.size ≤ u.size
  alive : ∀ c < s.size, u.alive c = true → s.alive c = true

namespace Lived

variable {s t u : Client}

theorem refl (s : Client) : Lived s s := ⟨rfl, le_rfl, fun _ _ h => h⟩

theorem trans (h : Lived s t) (k : Lived t u) : Lived s u where
  heap := k.heap.trans h.heap
  size := h.size.trans k.size
  alive := fun c hc hu => h.alive c hc (k.alive c (lt_of_lt_of_le hc h.size) hu)

theorem of_owners (hheap : u.heap = s.heap) (hsize : u.size = s.size) (howners : ∀ c, u.owners c = s.owners c) :
    Lived s u := by
  refine ⟨hheap, hsize.ge, fun c _ hu => ?_⟩
  rwa [Client.alive, howners] at hu

theorem quiet (h : Quiet s u) : Lived s u := .of_owners (congrArg Client.heap h.same :) h.size h.owners

/-- A callback is for a connection that is alive. -/
theorem callBack {c : ConnId} (halive : s.alive c = true) (rest : Rest) (cb : Callback) :
    Lived s ((s.setFrame (.user c rest)).observe (.callback c cb)) := by
  refine ⟨rfl, le_rfl, fun d _ hd => ?_⟩
  rcases alive_iff.mp hd with hd | hd | ⟨rest', hd⟩
  · exact alive_iff.mpr (Or.inl hd)
  · exact alive_iff.mpr (Or.inr (Or.inl hd))
  · cases hd
    exact halive

theorem handleClose {c : ConnId} (halive : s.alive c = true) : Lived s (s.handleClose c) := by
  rw [handleClose_eq]
  refine ⟨rfl, le_rfl, fun d _ hd => ?_⟩
  by_cases h : d = c
  · exact h ▸ halive
  · rcases alive_iff.mp hd with hd | hd | ⟨rest, hd⟩
    · exact alive_iff.mpr (Or.inl hd)
    · simp only [Function.update_of_ne h] at hd
      exact alive_iff.mpr (Or.inr (Or.inl hd))
    · cases hd
      exact absurd rfl h

theorem setHeld {c : ConnId} (halive : s.alive c = true) (held : Nat) :
    Lived s (s.setConn c { s.conn c with held }) := by
  refine ⟨rfl, le_rfl, fun d _ hd => ?_⟩
  by_cases h : d = c
  · exact h ▸ halive
  · have hheld : ((s.setConn c { s.conn c with held }).conn d).held = (s.conn d).held := by simp [setConn, h]
    rw [alive_iff, hheld] at hd
    exact alive_iff.mpr hd

theorem connection {connection : Option ConnId} (halive : ∀ c, connection = some c → s.alive c = true) :
    Lived s { s with connection } := by
  refine ⟨rfl, le_rfl, fun d _ hd => ?_⟩
  rcases alive_iff.mp hd with hd | hd
  · exact halive d hd
  · exact alive_iff.mpr (Or.inr hd)

theorem newConnection (sockfd : Int) : Lived s (s.newConnection sockfd) := by
  rw [newConnection_eq]
  refine ⟨rfl, Nat.le_succ _, fun d hd hu => ?_⟩
  have hne : d ≠ s.size := Nat.ne_of_lt hd
  rcases alive_iff.mp hu with hu | hu | ⟨rest, hu⟩
  · dsimp only at hu
    split at hu
    · exact alive_iff.mpr (Or.inl hu)
    · exact absurd (Option.some.inj hu).symm hne
  · simp only [Function.update_of_ne hne] at hu
    exact alive_iff.mpr (Or.inr (Or.inl hu))
  · dsimp only at hu
    split at hu
    · cases hu
      exact absurd rfl hne
    · cases hu

theorem part {o : Client} {l : Label} (h : Part o l s u) : Lived s u := by
  cases h with
  | quiet h => exact .quiet h
  | apart h => exact .of_owners h.heap h.size h.owners
  | poll =>
    have hset := s.setRevents_quiet ‹_›
    refine (quiet hset).trans (.of_owners rfl rfl fun c => ?_)
    rw [owners, owners, hset.frame]
    rfl
  | idle =>
    refine ⟨rfl, le_rfl, fun c _ hc => ?_⟩
    rcases alive_iff.mp hc with hc | hc | ⟨rest, hc⟩
    · exact alive_iff.mpr (Or.inl hc)
    · exact alive_iff.mpr (Or.inr (Or.inl hc))
    · cases hc
  | onMessage halive => exact .callBack halive _ _
  | onWriteComplate halive => exact .callBack halive _ _
  | handleClose halive => exact .handleClose halive
  | setHeld halive => exact .setHeld halive _
  | connection halive => exact .connection halive
  | newConnection => exact .newConnection _

end Lived

theorem step_lived {s u : Client} {l : Label} (hs : s.Placed) (h : step s l = some u) : Lived s u :=
  parts_rel Lived.refl Lived.trans Lived.part (step_parts hs h)

/-! ## What is made -/

/-- The attempt whose channel the `Connector` has. -/
theorem exists_attempt {s : Client} {a : Attempt} : s.Exists (.attempt a) ↔ s.slot.map Prod.fst = some a := by
  rw [slot, Option.map_map]
  rfl

theorem exists_mem {s : Client} (hs : s.Placed) {ch : Source} (h : s.Exists ch) : ch ∈ s.channels := by
  rw [channels, List.mem_append]
  cases ch with
  | attempt a =>
    obtain ⟨p, hp, ha⟩ := Option.map_eq_some_iff.mp h
    exact Or.inl (by simp [hp, ha])
  | conn c =>
    refine Or.inr (List.mem_map_of_mem (List.mem_filter.mpr ⟨List.mem_range.mpr (hs.known h), h⟩))

theorem Free.channel {s : Client} (hs : s.Placed) {src ch : Source} (hfree : s.Free src) (hch : s.Exists ch) :
    s.heap.channel ch ≠ s.heap.channel src := by
  cases src with
  | attempt a => exact hfree ch (exists_mem hs hch)
  | conn c => exact hfree.1 ch (exists_mem hs hch)

theorem Free.conn {s : Client} (hs : s.Placed) {c d : ConnId} (hfree : s.Free (.conn c)) (hd : s.alive d = true) :
    s.heap.conn d ≠ s.heap.conn c :=
  hfree.2 d (List.mem_filter.mpr ⟨List.mem_range.mpr (hs.known hd), hd⟩)

theorem Possible.free {s : Client} {fd savedErrno : Int} (h : s.Possible fd savedErrno)
    (hconnecting : outcome savedErrno = .connecting) : s.Free (.attempt s.attempts) := by
  rcases h with ⟨-, rfl⟩ | ⟨-, -, -, hfree⟩
  · cases hconnecting
  · exact hfree hconnecting

theorem handleWrite_slots {t : Client} {a : Attempt} {ch : Channel} (hchan : t.pSockChan = some (a, ch))
    (optval : Int) : (t.handleWrite a ch (some optval)).slot.map Prod.fst = t.slot.map Prod.fst := by
  rw [handleWrite_eq, slot, slot, hchan]
  split
  · rw [newConnection_eq]
    rfl
  · rfl

/-- A step makes one channel at most, and at a free address. -/
theorem step_made {s u : Client} {l : Label} (hs : s.Placed) (h : step s l = some u) :
    ∃ made, ∀ src, u.Exists src → s.Exists src ∨ src = made ∧ s.Free made := by
  have hlived := step_lived hs h
  have hknown : ∀ {c}, u.alive c = true → c < u.size := (step_placed hs h).known
  have hconn : u.size = s.size → ∀ c, u.Exists (.conn c) → s.Exists (.conn c) :=
    fun hsize c hc => hlived.alive c (hsize ▸ hknown hc) hc
  have hold : (∀ a, u.Exists (.attempt a) → s.Exists (.attempt a)) → u.size = s.size →
      ∃ made, ∀ src, u.Exists src → s.Exists src ∨ src = made ∧ s.Free made := by
    refine fun hattempt hsize => ⟨.conn 0, fun src hsrc => Or.inl ?_⟩
    cases src with
    | attempt a => exact hattempt a hsrc
    | conn c => exact hconn hsize c hsrc
  have hslot : ∀ {t : Client}, t.slot = s.slot → ∀ a, t.Exists (.attempt a) → s.Exists (.attempt a) :=
    fun ht a ha => exists_attempt.mpr (ht ▸ exists_attempt.mp ha)
  cases step_turn hs h with
  | aside hl haside =>
    refine hold (hslot haside.slot) (parts_rel (R := fun t v => v.size = t.size) (fun _ => rfl)
      (fun h k => k.trans h) (part_size hl) (step_parts hs h))
  | @connect t fd savedErrno hconnects haside hapart hpossible =>
    have hsize : (t.connect fd savedErrno).size = s.size := (connect_apart t fd savedErrno).size.trans hapart.size
    rcases t.connect_slot fd savedErrno with ⟨hconnecting, hnew, -⟩ | ⟨-, hsame, -⟩
    · refine ⟨.attempt s.attempts, fun src hsrc => ?_⟩
      cases src with
      | attempt a =>
        rw [exists_attempt, hnew, haside.attempts, Option.map_some, Option.some.injEq] at hsrc
        exact Or.inr ⟨congrArg Source.attempt hsrc.symm, hpossible.free hconnecting⟩
      | conn c => exact Or.inl (hconn hsize c hsrc)
    · exact hold (hslot (hsame.trans haside.slot)) hsize
  | stop => exact hold (fun a ha => ha) rfl
  | @resetChannel t stopped of hresets haside hapart =>
    refine hold (fun a ha => ?_) ((t.resetChannel_apart of).size.trans hapart.size)
    cases ha
  | @handleWrite t a ch optval hsucceeds haside hapart hcallback hopen hchan hfree =>
    have hattempt : ∀ b, (t.handleWrite a ch (some optval)).Exists (.attempt b) → s.Exists (.attempt b) := by
      intro b hb
      rw [exists_attempt, handleWrite_slots hchan, haside.slot] at hb
      exact exists_attempt.mpr hb
    have hsize := t.handleWrite_size a ch optval
    rw [hapart.size] at hsize
    by_cases hset : t.callback = true
    · rw [if_pos hset] at hsize
      refine ⟨.conn s.size, fun src hsrc => ?_⟩
      cases src with
      | attempt b => exact Or.inl (hattempt b hsrc)
      | conn c =>
        by_cases hlt : c < s.size
        · exact Or.inl (hlived.alive c hlt hsrc)
        · have hc : c < s.size + 1 := hsize ▸ hknown hsrc
          obtain rfl : c = s.size := le_antisymm (Nat.le_of_lt_succ hc) (not_lt.mp hlt)
          exact Or.inr ⟨rfl, hfree (hcallback ▸ hset)⟩
    · exact hold hattempt (hsize.trans (if_neg hset))

/-! ## One thing at an address -/

/-- No two channels are at one address, and no two connections. -/
structure Distinct (s : Client) : Prop where
  channels : ∀ a b, s.Exists a → s.Exists b → s.heap.channel a = s.heap.channel b → a = b
  conns : ∀ c d, s.alive c = true → s.alive d = true → s.heap.conn c = s.heap.conn d → c = d

theorem init_distinct (user : Bool) (heap : Heap) : (init user heap).Distinct := by
  have hnone : ∀ c, (init user heap).alive c = true → False := fun c hc =>
    absurd ((init_placed user heap).known hc) (Nat.not_lt_zero c)
  refine ⟨fun a _ ha => ?_, fun c _ hc => absurd hc (by simpa using hnone c)⟩
  cases a with
  | attempt a => cases ha
  | conn c => exact (hnone c ha).elim

theorem step_distinct {s u : Client} {l : Label} (hs : s.Placed) (hdistinct : s.Distinct) (h : step s l = some u) :
    u.Distinct := by
  obtain ⟨made, hmade⟩ := step_made hs h
  have hheap := (step_lived hs h).heap
  constructor
  · intro a b ha hb heq
    rw [hheap] at heq
    rcases hmade a ha with ha | ⟨rfl, hfree⟩ <;> rcases hmade b hb with hb | ⟨rfl, hfree'⟩
    · exact hdistinct.channels a b ha hb heq
    · exact absurd heq (hfree'.channel hs ha)
    · exact absurd heq.symm (hfree.channel hs hb)
    · rfl
  · intro c d hc hd heq
    rw [hheap] at heq
    rcases hmade (.conn c) hc with hc | ⟨rfl, hfree⟩ <;> rcases hmade (.conn d) hd with hd | ⟨hmade', hfree'⟩
    · exact hdistinct.conns c d hc hd heq
    · subst hmade'
      exact absurd heq (hfree'.conn hs hc)
    · exact absurd heq.symm (hfree.conn hs hd)
    · exact (Source.conn.inj hmade').symm

theorem run_distinct {user : Bool} {heap : Heap} {labels : List Label} {s : Client}
    (hrun : Machine.run step (init user heap) labels = some s) : s.Placed ∧ s.Distinct :=
  Machine.run_invariant (I := fun s => s.Placed ∧ s.Distinct)
    (fun _ _ _ hs h => ⟨step_placed hs.1 h, step_distinct hs.1 hs.2 h⟩)
    ⟨init_placed user heap, init_distinct user heap⟩ hrun

/-- In every run `data.ptr` of an entry points to the one channel that is at its address, if there is one. -/
theorem run_dataPtr {user : Bool} {heap : Heap} {labels : List Label} {s : Client}
    (hrun : Machine.run step (init user heap) labels = some s) (src ch : Source) :
    s.dataPtr src = some ch ↔ s.Exists ch ∧ s.heap.channel ch = s.heap.channel src := by
  obtain ⟨hs, hdistinct⟩ := run_distinct hrun
  refine find_at_address (f := s.heap.channel) (P := s.Exists) (fun x hx => exists_mem hs hx)
    (fun x hx => ?_) hdistinct.channels ch
  rw [beq_iff_eq, and_iff_right (mem_channels hx)]

/-- And a plain `this` points to the one connection that lives at its address. -/
theorem run_pointee {user : Bool} {heap : Heap} {labels : List Label} {s : Client}
    (hrun : Machine.run step (init user heap) labels = some s) (c d : ConnId) :
    s.pointee c = some d ↔ s.alive d = true ∧ s.heap.conn d = s.heap.conn c := by
  obtain ⟨hs, hdistinct⟩ := run_distinct hrun
  exact find_at_address (f := s.heap.conn) (P := fun d => s.alive d = true)
    (fun e he => List.mem_range.mpr (hs.known he)) (fun e _ => by simp) hdistinct.conns d

end Muduo.Client
