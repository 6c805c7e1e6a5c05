import Mathlib.Data.Set.Insert
import Maitland.Protocol.RunLength

/-!
# What the responses carry

Both senders copy a whole `response_t` to the guest's page from a local that is
never initialised.  A batch is a ring page and the private indices the handler
finds; the contents of the local are `garbage`.
-/

namespace Maitland

/-- On the given batches the response is a function of the request it answers, for
the table and the flag the handler reads. -/
def ResponsesOfRequests (z : Ring.Size) (l : DomList) (reportInProgress : BitVec 32)
    (batches : Set (Ring.Shared Message × Ring.Back)) : Prop :=
  ∃ answer : Message → Message, ∀ b ∈ batches, ∀ garbage,
    ∀ e ∈ (monitorIrqHandle z l reportInProgress b.1 b.2 garbage).log, e.resp = answer e.req

/-- In the given states the verdict's response is a function of its arguments. -/
def VerdictsOfArguments (z : Ring.Size) (states : Set MonitorState) : Prop :=
  ∃ answer : BitVec 32 → BitVec 32 → Message, ∀ st ∈ states, ∀ op pid garbage st',
    monitorOpProcess z st op pid garbage = some st' →
      ∃ v, st'.sent = st.sent ++ [v] ∧ v.resp = answer op pid

/-- The two agree in the fields that no branch of the switch assigns. -/
structure Message.AgreeUnassigned (m m' : Message) : Prop where
  pfnGref : m.pfnGref = m'.pfnGref
  pfn : m.pfn = m'.pfn
  report : m.report = m'.report
  faultAddr : m.faultAddr = m'.faultAddr

theorem Message.AgreeUnassigned.trans {m m' m'' : Message} (h : m.AgreeUnassigned m')
    (h' : m'.AgreeUnassigned m'') : m.AgreeUnassigned m'' :=
  ⟨h.pfnGref.trans h'.pfnGref, h.pfn.trans h'.pfn, h.report.trans h'.report,
    h.faultAddr.trans h'.faultAddr⟩

theorem monitorAnswer_agreeUnassigned (l : DomList) (rip : BitVec 32) (req resp : Message) :
    (monitorAnswer l rip req resp).AgreeUnassigned resp := by
  unfold monitorAnswer
  dsimp only
  split_ifs <;> exact ⟨rfl, rfl, rfl, rfl⟩

variable {z : Ring.Size} {l : DomList} {rip : BitVec 32}

/-- Through all rounds of a run the local keeps those fields, and every response
shows them to the guest. -/
theorem irqLoop_agreeUnassigned (n : ℕ) {f : IrqFrame} {garbage : Message}
    (hf : f.resp.AgreeUnassigned garbage)
    (hlog : ∀ e ∈ f.log, e.resp.AgreeUnassigned garbage) :
    ∀ e ∈ (irqLoop z l rip n f).log, e.resp.AgreeUnassigned garbage := by
  induction n generalizing f with
  | zero => exact hlog
  | succ n ih =>
    rw [irqLoop]
    split
    · exact hlog
    · split
      · exact hlog
      · have hresp := (monitorAnswer_agreeUnassigned l rip (f.sring.get z f.rc) f.resp).trans hf
        refine ih hresp ?_
        intro e he
        rcases List.mem_append.mp he with he | he
        · exact hlog e he
        · rw [List.mem_singleton.mp he]
          exact hresp

theorem monitorIrqHandle_agreeUnassigned (sring : Ring.Shared Message) (bring : Ring.Back)
    (garbage : Message) :
    ∀ e ∈ (monitorIrqHandle z l rip sring bring garbage).log, e.resp.AgreeUnassigned garbage :=
  irqLoop_agreeUnassigned _ ⟨rfl, rfl, rfl, rfl⟩ (fun _ he => nomatch he)

theorem irqLoop_log_subset (n : ℕ) (f : IrqFrame) :
    ∀ e ∈ f.log, e ∈ (irqLoop z l rip n f).log := by
  induction n generalizing f with
  | zero => exact fun e he => he
  | succ n ih =>
    intro e he
    rw [irqLoop]
    split
    · exact he
    · split
      · exact he
      · exact ih _ e (List.mem_append_left _ he)

/-- The first request of a batch does not depend on the local. -/
theorem monitorIrqHandle_first {sring : Ring.Shared Message} {bring : Ring.Back}
    (hne : bring.reqCons ≠ sring.reqProd)
    (hf : ¬Ring.RequestConsOverflow z bring bring.reqCons) (garbage : Message) :
    ∃ e ∈ (monitorIrqHandle z l rip sring bring garbage).log,
      e.req = sring.get z bring.reqCons := by
  obtain ⟨n, hn⟩ : ∃ n, (sring.reqProd - bring.reqCons).toNat = n + 1 :=
    Nat.exists_eq_succ_of_ne_zero fun h => hne (by bv_omega)
  refine ⟨⟨sring.get z bring.reqCons, Ring.slot z bring.rspProdPvt,
    monitorAnswer l rip (sring.get z bring.reqCons) garbage⟩, ?_, rfl⟩
  have hlog : (monitorIrqHandle z l rip sring bring garbage) =
      irqLoop z l rip (n + 1) (irqEnter sring bring garbage) := congrArg (irqLoop z l rip · _) hn
  have hne : (irqEnter sring bring garbage).rc ≠ (irqEnter sring bring garbage).rp := hne
  have hf : ¬Ring.RequestConsOverflow z (irqEnter sring bring garbage).bring
      (irqEnter sring bring garbage).rc := hf
  rw [hlog, irqLoop, if_neg hne, if_neg hf]
  exact irqLoop_log_subset n _ _ (List.mem_singleton.mpr rfl)

theorem monitorIrqHandle_log_eq_nil {sring : Ring.Shared Message} {bring : Ring.Back}
    (h : bring.reqCons = sring.reqProd ∨ Ring.RequestConsOverflow z bring bring.reqCons)
    (garbage : Message) : (monitorIrqHandle z l rip sring bring garbage).log = [] := by
  rw [← List.length_eq_zero_iff, monitorIrqHandle_log_length, monitorIrqReads_length]
  split
  · rfl
  · next hf =>
    rw [h.resolve_right hf, BitVec.sub_self]
    rfl

theorem responsesOfRequests_iff (batches : Set (Ring.Shared Message × Ring.Back)) :
    ResponsesOfRequests z l rip batches ↔ ∀ b ∈ batches,
      b.2.reqCons = b.1.reqProd ∨ Ring.RequestConsOverflow z b.2 b.2.reqCons := by
  constructor
  · rintro ⟨answer, h⟩ b hb
    by_contra hnot
    obtain ⟨hne, hf⟩ := not_or.mp hnot
    -- Any two contents of the local come back with the first request's answer.
    have hpfn : ∀ garbage : Message, garbage.pfn = (answer (b.1.get z b.2.reqCons)).pfn := by
      intro garbage
      obtain ⟨e, he, hreq⟩ := @monitorIrqHandle_first z l rip b.1 b.2 hne hf garbage
      rw [← hreq, ← h b hb garbage e he]
      exact (monitorIrqHandle_agreeUnassigned b.1 b.2 garbage e he).pfn.symm
    have h0 := hpfn { (default : Message) with pfn := 0 }
    have h1 := hpfn { (default : Message) with pfn := 1 }
    exact absurd (h0.trans h1.symm) (by decide)
  · intro h
    refine ⟨id, fun b hb garbage e he => ?_⟩
    rw [monitorIrqHandle_log_eq_nil (h b hb)] at he
    cases he

theorem verdictsOfArguments_iff (states : Set MonitorState) :
    VerdictsOfArguments z states ↔ ∀ st ∈ states, st.verdictRing = none := by
  constructor
  · rintro ⟨answer, h⟩ st hst
    by_contra hring
    have hpfn : ∀ garbage : Message, garbage.pfn = (answer 0 0).pfn := by
      intro garbage
      obtain ⟨st', hop⟩ := @monitorOpProcess_of_verdictRing z st hring 0 0 garbage
      obtain ⟨v, hv, hresp⟩ := (monitorOpProcess_verdictRing hop).2
      obtain ⟨w, hw, hanswer⟩ := h st hst 0 0 garbage st' hop
      have hvw : v = w := List.singleton_inj.mp (List.append_cancel_left (hv.symm.trans hw))
      rw [← hanswer, ← hvw, hresp]
    have h0 := hpfn { (default : Message) with pfn := 0 }
    have h1 := hpfn { (default : Message) with pfn := 1 }
    exact absurd (h0.trans h1.symm) (by decide)
  · intro h
    refine ⟨fun _ _ => default, fun st hst op pid garbage st' hop => ?_⟩
    exact absurd (h st hst) (monitorOpProcess_verdictRing hop).1

/-- Of a set of batches the responses are functions of their requests only when no
batch of the set is answered at all, and of a set of states the verdicts are
functions of their arguments only when none of them can send one. -/
theorem responses_reveal_only_requests_iff (z : Ring.Size) (l : DomList) (rip : BitVec 32)
    (batches : Set (Ring.Shared Message × Ring.Back)) (states : Set MonitorState) :
    (ResponsesOfRequests z l rip batches ↔ ∀ b ∈ batches,
        b.2.reqCons = b.1.reqProd ∨ Ring.RequestConsOverflow z b.2 b.2.reqCons) ∧
      (VerdictsOfArguments z states ↔ ∀ st ∈ states, st.verdictRing = none) :=
  ⟨responsesOfRequests_iff batches, verdictsOfArguments_iff states⟩

/-- The requests of a batch with the responses they get when the local holds `resp`
before the first of them. -/
def carried (l : DomList) (reportInProgress : BitVec 32) :
    Message → List Message → List (Message × Message)
  | _, [] => []
  | resp, req :: reqs =>
    let resp := monitorAnswer l reportInProgress req resp
    (req, resp) :: carried l reportInProgress resp reqs

/-- On an orderly ring the local goes through the requests in their order. -/
theorem irqLoop_carried (l : DomList) (rip : BitVec 32) (n : ℕ) {f : IrqFrame} {c : ℕ}
    {q : List Message} (h : f.At z c (c + n) q) :
    (irqLoop z l rip n f).log.map (fun e => (e.req, e.resp)) =
      f.log.map (fun e => (e.req, e.resp)) ++ carried l rip f.resp (q.take n) := by
  induction n generalizing f c q with
  | zero => simp [irqLoop, carried]
  | succ n ih =>
    have hne : f.rc ≠ f.rp := fun he => by
      have := h.rc_eq_rp_iff.mp he
      omega
    rw [irqLoop, if_neg hne, if_neg h.not_overflow]
    obtain _ | ⟨x, xs⟩ := q
    · have := h.published
      simp only [List.length_nil] at this
      omega
    obtain ⟨hat, hl⟩ := h.iterate l rip (by omega)
    rw [show c + (n + 1) = c + 1 + n by omega] at hat
    have hresp : (irqIterate z l rip f).resp = monitorAnswer l rip x f.resp := by
      have hlast := congrArg (fun log => (log.map Exchange.resp).getLast?) hl
      simpa [irqIterate] using hlast
    rw [ih hat, hl, hresp]
    simp [carried]

theorem monitorIrqHandle_carried {sring : Ring.Shared Message} {c : ℕ} {q : List Message}
    (hprod : sring.reqProd = BitVec.ofNat 32 (c + q.length)) (hroom : q.length ≤ z.entries)
    (hholds : Ring.Holds z sring.ring c q) (l : DomList) (rip : BitVec 32) (garbage : Message) :
    (monitorIrqHandle z l rip sring ⟨BitVec.ofNat 32 c, BitVec.ofNat 32 c⟩ garbage).log.map
      (fun e => (e.req, e.resp)) = carried l rip garbage q := by
  obtain ⟨hat, hloop⟩ := irqEnter_at hprod hroom hholds l rip garbage
  have hrun := irqLoop_carried l rip q.length hat
  rw [List.take_length] at hrun
  rw [hloop, hrun]
  rfl

/-- Process 7 of domain 1 is watched. -/
def sevenWatched : DomList :=
  Function.update DomList.init 1 (some (Function.update Row.zero 7 1))

/-- The update of a page table entry by the watched process. -/
def updateBySeven : Message :=
  { (default : Message) with operation := Op.mmuupdate, processId := 7, domid := 1, mmuPtr := 4096 }

/-- A request that is always answered with `MONITOR_RING_NONOP`. -/
def idleRequest : Message := { (default : Message) with operation := Op.report }

/-- Two published requests, the second of them idle. -/
def pageOfTwo (first : Message) : Ring.Shared Message :=
  { Ring.sharedRingInit (fun i => if i = 0 then first else idleRequest) with reqProd := 2 }

theorem pageOfTwo_log (first garbage : Message) :
    (monitorIrqHandle ringSize l rip (pageOfTwo first) Ring.backRingInit garbage).log.map
        (fun e => (e.req, e.resp)) =
      [(first, monitorAnswer l rip first garbage),
        (idleRequest, { monitorAnswer l rip first garbage with operation := Op.nonop })] := by
  have hholds : Ring.Holds ringSize (pageOfTwo first).ring 0 [first, idleRequest] := by
    intro k v hk
    rcases k with _ | _ | k
    · exact Option.some.inj hk
    · exact Option.some.inj hk
    · cases hk
  have hidle (resp : Message) :
      monitorAnswer l rip idleRequest resp = { resp with operation := Op.nonop } := by
    simp [monitorAnswer, idleRequest]
  rw [← hidle]
  have hroom : [first, idleRequest].length ≤ ringSize.entries := Nat.le_of_ble_eq_true rfl
  exact monitorIrqHandle_carried rfl hroom hholds l rip garbage

/-- The same idle request in two batches: the answer names the process of the
request before it, and it carries what the local held.  So does a verdict. -/
theorem responses_leak :
    ¬ResponsesOfRequests ringSize sevenWatched 0 {(pageOfTwo idleRequest, Ring.backRingInit)} ∧
      (∃ e ∈ (monitorIrqHandle ringSize sevenWatched 0 (pageOfTwo updateBySeven)
          Ring.backRingInit default).log,
        ∃ e' ∈ (monitorIrqHandle ringSize sevenWatched 0 (pageOfTwo idleRequest)
          Ring.backRingInit default).log,
        e.req = e'.req ∧ e.resp.processId = 7 ∧ e'.resp.processId = 0) ∧
      ¬VerdictsOfArguments ringSize
        {(monitorInit fun _ => pageOfTwo idleRequest).registered ⟨1, 5, 3⟩ 9} := by
  refine ⟨?_, ?_, ?_⟩
  · rw [responsesOfRequests_iff]
    intro h
    exact absurd (h _ (Set.mem_singleton _)) (by decide)
  · have helig : Eligible sevenWatched updateBySeven :=
      ⟨by decide, Function.update Row.zero 7 1, Function.update_self _ _ _, by decide, by decide⟩
    have hlog := @pageOfTwo_log sevenWatched 0 updateBySeven default
    have hlog' := @pageOfTwo_log sevenWatched 0 idleRequest default
    rw [monitorAnswer_nx rfl helig] at hlog
    obtain ⟨e, he, heq⟩ := List.mem_map.mp
      (hlog ▸ List.mem_cons_of_mem _ (List.mem_singleton.mpr rfl))
    obtain ⟨e', he', heq'⟩ := List.mem_map.mp
      (hlog' ▸ List.mem_cons_of_mem _ (List.mem_singleton.mpr rfl))
    obtain ⟨hreq, hresp⟩ := Prod.mk.inj heq
    obtain ⟨hreq', hresp'⟩ := Prod.mk.inj heq'
    exact ⟨e, he, e', he', hreq.trans hreq'.symm, by rw [hresp]; rfl, by rw [hresp']; decide⟩
  · rw [verdictsOfArguments_iff]
    intro h
    exact absurd (h _ (Set.mem_singleton _)) (by decide)

end Maitland
