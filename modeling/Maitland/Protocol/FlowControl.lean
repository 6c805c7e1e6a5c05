import Maitland.Protocol.Requests

/-!
# Flow control of the request path

Neither hook looks at the ring before it pushes.  Nothing is lost as long as the
unanswered requests fit the ring; the first push beyond that replaces the oldest
request the monitor has not read.
-/

namespace Maitland

/-- The unanswered requests fit the ring and each of them is still in its slot. -/
structure NothingLost (z : Ring.Size) (s : RequestState) : Prop where
  fits : s.pushed.length - s.log.length ≤ z.entries
  taken : s.log.map Exchange.req = s.pushed.take s.log.length
  intact : ∀ k req, s.log.length ≤ k → s.pushed[k]? = some req →
    s.front.sring.get z (BitVec.ofNat 32 k) = req

/-- A step of the monitor: a registration or a part of a run of its handler. -/
def RequestAct.Monitors : RequestAct → Prop
  | .hook _ => False
  | _ => True

/-- A run of the handler ends with everything read that was pushed before it began. -/
def LeaveHasRead (s : RequestState) (a : RequestAct) (t : RequestState) : Prop :=
  match a with
  | .leave => ∀ i, s.irq = some i → i.published ≤ t.log.length
  | _ => True

variable {z : Ring.Size} {s t : RequestState}

theorem RequestState.Queued.nothingLost (h : s.Queued z) : NothingLost z s where
  fits := by
    have := h.queue.room
    omega
  taken := h.queue.taken
  intact := h.corresponds.intact

theorem RequestState.Queued.leaveHasRead (h : s.Queued z) {a : RequestAct}
    (ht : requestStep z s a = some t) : LeaveHasRead s a t := by
  cases a with
  | leave =>
    obtain ⟨b, i, hb, hi, hl, rfl⟩ := requestStep_leave ht
    rintro j hj
    rw [hi] at hj
    cases hj
    exact ((h.loopEnds_iff hb hi).mp hl).ge
  | _ => trivial

/-- The rounds still to come of a run that is under way are all enabled. -/
theorem RequestState.Queued.rounds (n : ℕ) (h : s.Queued z) {b : Ring.Back} {i : IrqLocals}
    (hb : s.bring = some b) (hi : s.irq = some i) (hn : i.published = s.log.length + n) :
    ∃ t, Lts.run (requestStep z) s
        (List.replicate n (.iterate DomList.init 0) ++ [.leave]) = some t ∧
      t.Queued z ∧ t.pushed = s.pushed ∧ t.bring ≠ none ∧ t.irq = none ∧
      t.log.length = i.published := by
  induction n generalizing s b i with
  | zero =>
    have hl : LoopEnds z b i := (h.loopEnds_iff hb hi).mpr hn.symm
    have ht : requestStep z s .leave = some { s with irq := none } := by
      simp [requestStep, hb, hi, hl]
    refine ⟨_, by simp [Lts.run_cons, ht], h.leave ht, rfl, by simp [hb], rfl, ?_⟩
    exact hn.symm
  | succ n ih =>
    have hl : ¬LoopEnds z b i := fun hl => by
      have := (h.loopEnds_iff hb hi).mp hl
      omega
    obtain ⟨u, hu⟩ : ∃ u, requestStep z s (.iterate DomList.init 0) = some u := by
      simp [requestStep, hb, hi, hl]
    have hq := h.iterate hu
    obtain ⟨b', i', hb', hi', _, rfl⟩ := requestStep_iterate hu
    rw [hb] at hb'
    rw [hi] at hi'
    cases hb'
    cases hi'
    obtain ⟨t, hr, hqt, hp, hbt, hit, hlen⟩ := ih hq rfl rfl
      (by simp only [irqIterate, frame, List.length_append, List.length_singleton]; omega)
    refine ⟨t, ?_, hqt, hp, hbt, hit, hlen⟩
    rw [List.replicate_succ, List.cons_append, Lts.run_cons, hu]
    exact hr

/-- With no run under way, one complete run of the handler reads everything. -/
theorem RequestState.Queued.handlerRun (h : s.Queued z) (hb : s.bring ≠ none)
    (hi : s.irq = none) :
    ∃ bs t, (∀ a ∈ bs, RequestAct.Monitors a) ∧ Lts.run (requestStep z) s bs = some t ∧
      t.pushed = s.pushed ∧ t.log.map Exchange.req = s.pushed := by
  obtain ⟨b, hb⟩ := Option.ne_none_iff_exists'.mp hb
  obtain ⟨u, hu⟩ : ∃ u, requestStep z s (.enter default) = some u := by
    simp [requestStep, hb, hi]
  have hq := h.enter hu
  obtain ⟨b', _, _, rfl⟩ := requestStep_enter hu
  obtain ⟨n, hn⟩ := Nat.exists_eq_add_of_le h.queue.le
  obtain ⟨t, hr, hqt, hp, _, _, hlen⟩ := hq.rounds n hb rfl hn
  refine ⟨.enter default :: (List.replicate n (.iterate DomList.init 0) ++ [.leave]), t, ?_, ?_,
    hp, ?_⟩
  · intro a ha
    simp only [List.mem_cons, List.mem_append, List.mem_replicate, List.not_mem_nil,
      or_false] at ha
    rcases ha with rfl | ⟨_, rfl⟩ | rfl <;> trivial
  · rw [Lts.run_cons, hu]
    exact hr
  · rw [hqt.queue.taken, hlen, hp]
    exact List.take_length

/-- From every such state the monitor alone can read all that was pushed, with the
contents the hooks wrote. -/
theorem RequestState.Queued.drain (h : s.Queued z) :
    ∃ bs t, (∀ a ∈ bs, RequestAct.Monitors a) ∧ Lts.run (requestStep z) s bs = some t ∧
      t.pushed = s.pushed ∧ t.log.map Exchange.req = s.pushed := by
  cases hb : s.bring with
  | none =>
    obtain ⟨u, hu⟩ : ∃ u, requestStep z s .register = some u := by simp [requestStep, hb]
    have hq := h.register hu
    obtain ⟨_, rfl⟩ := requestStep_register hu
    obtain ⟨bs, t, hm, hr, hp, hl⟩ := hq.handlerRun (by simp) (h.unregistered hb).2
    refine ⟨.register :: bs, t, ?_, ?_, hp, hl⟩
    · intro a ha
      rcases List.mem_cons.mp ha with rfl | ha
      · trivial
      · exact hm a ha
    · rw [Lts.run_cons, hu]
      exact hr
  | some b =>
    cases hi : s.irq with
    | none => exact h.handlerRun (by simp [hb]) hi
    | some i =>
      -- the run under way is finished first
      obtain ⟨n, hn⟩ := Nat.exists_eq_add_of_le (h.irq i hi).2.2.1
      obtain ⟨u, hr, hq, hp, hb', hi', _⟩ := h.rounds n hb hi hn
      obtain ⟨bs, t, hm, hrt, hpt, hl⟩ := hq.handlerRun hb' hi'
      refine ⟨List.replicate n (.iterate DomList.init 0) ++ [.leave] ++ bs, t, ?_, ?_,
        hpt.trans hp, hl.trans hp⟩
      · intro a ha
        simp only [List.mem_append, List.mem_replicate, List.mem_cons, List.not_mem_nil,
          or_false] at ha
        rcases ha with (⟨_, rfl⟩ | rfl) | ha
        · trivial
        · trivial
        · exact hm a ha
      · rw [Lts.run_append, hr]
        exact hrt

/-- A push onto a full ring takes the slot of the oldest request not yet read. -/
theorem RequestState.Queued.overrun (h : s.Queued z)
    (hfull : s.pushed.length = s.log.length + z.entries) {k : Hook} {req : Message}
    (ht : requestStep z s (.hook k) = some t) (hreq : t.pushed = s.pushed ++ [req]) :
    t.front.sring.get z (BitVec.ofNat 32 s.log.length) = req := by
  simp only [requestStep, Option.some.injEq] at ht
  subst ht
  rcases k.call_cases z s.front with hc | ⟨fill, hc⟩
  · simp [hc] at hreq
  · obtain ⟨req', hp⟩ := FrontEnd.push_at h.queue.reqProdPvt fill
    rw [hc, hp] at hreq ⊢
    have hr : req' = req := by simpa using hreq
    rw [Ring.Shared.get, Ring.slot_ofNat, hfull, Nat.add_mod_right]
    simpa using hr

/-- Pushes before the registration, between two runs of the handler and inside
one: as long as each leaves at most `RING_SIZE` requests unanswered, every request
is kept until the monitor reads it, every run of the handler reads all that was
pushed before it, and the monitor can always read the rest.  The hooks do nothing
to stay within that: a push onto a full ring replaces the oldest unread request. -/
theorem requests_survive_while_they_fit (z : Ring.Size) (domid : BitVec 16) (ring : ℕ → Message)
    (as : List RequestAct)
    (hfit : Lts.Along (requestStep z) (PushFits z) (requestStart domid ring) as) :
    Lts.Along (requestStep z) (fun s a t => LeaveHasRead s a t) (requestStart domid ring) as ∧
    ∀ s, Lts.run (requestStep z) (requestStart domid ring) as = some s →
      NothingLost z s ∧
      (∃ bs t, (∀ a ∈ bs, RequestAct.Monitors a) ∧ Lts.run (requestStep z) s bs = some t ∧
        t.pushed = s.pushed ∧ t.log.map Exchange.req = s.pushed) ∧
      (s.pushed.length = s.log.length + z.entries → ∀ k t req,
        requestStep z s (.hook k) = some t → t.pushed = s.pushed ++ [req] →
        t.front.sring.get z (BitVec.ofNat 32 s.log.length) = req) := by
  constructor
  · exact Lts.Along.of_invariant (fun s a t h ht hc => ⟨h.leaveHasRead ht, h.step ht hc⟩)
      (RequestState.Queued.start (z := z) domid ring) hfit
  · intro s hr
    have h := requests_queued hfit hr
    exact ⟨h.nothingLost, h.drain, fun hfull k t req ht hreq => h.overrun hfull ht hreq⟩

theorem requests_survive_while_they_fit_oneFault :
    Lts.Along (requestStep ringSize) (PushFits ringSize) (requestStart 1 default) oneFault ∧
    ∃ s, Lts.run (requestStep ringSize) (requestStart 1 default) oneFault = some s ∧
      s.log.length = 1 ∧ NothingLost ringSize s := by
  have hfits : Lts.Along (requestStep ringSize) (PushFits ringSize) (requestStart 1 default)
    oneFault := by decide
  obtain ⟨s, hrun, hlog⟩ := run_oneFault
  exact ⟨hfits, s, hrun, hlog,
    ((requests_survive_while_they_fit ringSize 1 default oneFault hfits).2 s hrun).1⟩

/-- Instruction-fetch faults of process 7 at the first `n` pages. -/
def faults (n : ℕ) : List RequestAct :=
  (List.range n).map fun k => .hook (.doPageFault 7 (BitVec.ofNat 64 (4096 * k)) 0x14)

/-- Thirty-three faults before the monitor registers leave thirty-three requests
for thirty-two slots, and the monitor then reads the last one first. -/
theorem hooks_overrun_the_ring :
    (¬∀ s, Lts.run (requestStep ringSize) (requestStart 1 default) (faults 33) = some s →
      NothingLost ringSize s) ∧
    ¬∀ s, Lts.run (requestStep ringSize) (requestStart 1 default)
        (faults 33 ++ [.register, .enter default, .iterate DomList.init 0]) = some s →
      s.log.map Exchange.req = s.pushed.take s.log.length := by
  constructor
  · intro h
    have hc : (Lts.run (requestStep ringSize) (requestStart 1 default) (faults 33)).map
        (fun s => s.pushed.length - s.log.length) = some 33 := by decide +kernel
    obtain ⟨s, hs, hn⟩ := Option.map_eq_some_iff.mp hc
    have := (h s hs).fits
    rw [hn] at this
    exact absurd this (by decide)
  · intro h
    have hc : (Lts.run (requestStep ringSize) (requestStart 1 default)
        (faults 33 ++ [.register, .enter default, .iterate DomList.init 0])).map
        (fun s => decide (s.log.map Exchange.req = s.pushed.take s.log.length)) = some false := by
      decide +kernel
    obtain ⟨s, hs, hn⟩ := Option.map_eq_some_iff.mp hc
    exact (of_decide_eq_false hn) (h s hs)

end Maitland
