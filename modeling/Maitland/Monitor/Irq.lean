import Maitland.Library.Ring
import Maitland.Message
import Maitland.Monitor.Table

/-!
# The monitor's interrupt handler

`monitor_irq_handle` for one registered domain: the ring page it shares with the
guest, the domain's private back ring and the locals of the run.
-/

namespace Maitland

/-- What one round of the request loop did: the copy of the request it took, the
slot it answered in and the response it wrote there. -/
structure Exchange where
  req : Message
  slot : ℕ
  resp : Message
  deriving DecidableEq

structure IrqFrame where
  sring : Ring.Shared Message
  bring : Ring.Back
  rc : Ring.Idx
  rp : Ring.Idx
  /-- The local `resp`: never initialised, and kept from one round to the next. -/
  resp : Message
  /-- The rounds of this run, in order. -/
  log : List Exchange

/-- The guard `req.domid>0 && req.domid < MONITOR_MAX_VMS`. -/
def DomidInRange (domid : BitVec 32) : Prop := 0 < domid.toInt ∧ domid.toInt < monitorMaxVms

instance (domid : BitVec 32) : Decidable (DomidInRange domid) :=
  inferInstanceAs (Decidable (_ ∧ _))

/-- The switch over `req.operation`, from the assignment of `MONITOR_RING_NONOP`
before it: what it leaves in the local `resp`. -/
def monitorAnswer (l : DomList) (reportInProgress : BitVec 32) (req resp : Message) : Message :=
  let resp := { resp with operation := Op.nonop }
  if req.operation = Op.report then
    { resp with operation := Op.nonop }
  else if req.operation = Op.mmuupdate then
    if DomidInRange req.domid then
      if 0 < monitorCheckMmuupdate l req.mmuPtr req.mmuVal req.domid req.processId then
        { resp with
          processId := req.processId
          domid := req.domid
          mmuPtr := req.mmuPtr
          mmuVal := req.mmuVal
          operation := Op.nx }
      else resp
    else resp
  else if req.operation = Op.nxviolation then
    if DomidInRange req.domid then
      if reportInProgress = 0 ∧
          0 < monitorCheckPageFault l req.domid req.processId req.faultAddr then
        { resp with
          processId := req.processId
          domid := req.domid
          operation := Op.report }
      else { resp with operation := Op.nonop }
    else resp
  else { resp with operation := Op.nonop }

section Handler

variable (z : Ring.Size) (l : DomList) (reportInProgress : BitVec 32)

/-- `rc` and `rp` are read once, before the loop. -/
def irqEnter (sring : Ring.Shared Message) (bring : Ring.Back) (resp : Message) : IrqFrame :=
  ⟨sring, bring, bring.reqCons, sring.reqProd, resp, []⟩

/-- One round of the request loop, after the overflow test. -/
def irqIterate (f : IrqFrame) : IrqFrame :=
  let req := f.sring.get z f.rc
  let rc := f.rc + 1
  let bring := { f.bring with reqCons := rc }
  let resp := monitorAnswer l reportInProgress req f.resp
  let sring := f.sring.put z bring.rspProdPvt resp
  let exchange : Exchange := ⟨req, Ring.slot z bring.rspProdPvt, resp⟩
  let bring := { bring with rspProdPvt := bring.rspProdPvt + 1 }
  { sring := Ring.pushResponses sring bring
    bring := bring
    rc := rc
    rp := f.rp
    resp := resp
    log := f.log ++ [exchange] }

/-- `while(rc!=rp)` with its overflow break.  Each round moves `rc` one on, so
`rp - rc` rounds are all there can be. -/
def irqLoop : ℕ → IrqFrame → IrqFrame
  | 0, f => f
  | n + 1, f =>
    if f.rc = f.rp then f
    else if Ring.RequestConsOverflow z f.bring f.rc then f
    else irqLoop n (irqIterate z l reportInProgress f)

def monitorIrqHandle (sring : Ring.Shared Message) (bring : Ring.Back) (resp : Message) :
    IrqFrame :=
  let f := irqEnter sring bring resp
  irqLoop z l reportInProgress (f.rp - f.rc).toNat f

end Handler

-- ════════════════════════════════════════════════════════════════════════
-- The answer to one request
-- ════════════════════════════════════════════════════════════════════════

/-- The request names a watched process of a registered domain in range. -/
def Eligible (l : DomList) (req : Message) : Prop :=
  DomidInRange req.domid ∧ Watched l req.domid.toNat req.processId.toNat

theorem monitorAnswer_nx {l : DomList} {rip : BitVec 32} {req resp : Message}
    (ho : req.operation = Op.mmuupdate) (he : Eligible l req) :
    monitorAnswer l rip req resp = { resp with
      processId := req.processId
      domid := req.domid
      mmuPtr := req.mmuPtr
      mmuVal := req.mmuVal
      operation := Op.nx } := by
  have hc := (monitorCheckMmuupdate_pos_iff l req.mmuPtr req.mmuVal _ _).mpr he.2
  have hr : Op.mmuupdate ≠ Op.report := by decide
  simp only [monitorAnswer, ho, hr, if_false, if_true, if_pos he.1, if_pos hc]

theorem monitorAnswer_report {l : DomList} {req resp : Message}
    (ho : req.operation = Op.nxviolation) (he : Eligible l req) :
    monitorAnswer l 0 req resp = { resp with
      processId := req.processId
      domid := req.domid
      operation := Op.report } := by
  have hc := (monitorCheckPageFault_pos_iff l _ _ req.faultAddr).mpr he.2
  have hr : Op.nxviolation ≠ Op.report := by decide
  have hm : Op.nxviolation ≠ Op.mmuupdate := by decide
  simp only [monitorAnswer, ho, hr, hm, if_false, if_true, if_pos he.1, hc, and_self]

/-- Every other request is answered with `MONITOR_RING_NONOP`. -/
theorem monitorAnswer_nonop {l : DomList} {req : Message} (rip : BitVec 32) (resp : Message)
    (h : ¬((req.operation = Op.mmuupdate ∨ req.operation = Op.nxviolation) ∧ Eligible l req)) :
    (monitorAnswer l rip req resp).operation = Op.nonop := by
  by_cases hr : req.operation = Op.report
  · simp only [monitorAnswer, if_pos hr]
  by_cases hm : req.operation = Op.mmuupdate
  · simp only [monitorAnswer, if_neg hr, if_pos hm]
    split
    · next hd =>
      rw [if_neg]
      intro hc
      exact h ⟨.inl hm, hd, (monitorCheckMmuupdate_pos_iff l _ _ _ _).mp hc⟩
    · rfl
  by_cases hn : req.operation = Op.nxviolation
  · simp only [monitorAnswer, if_neg hr, if_neg hm, if_pos hn]
    split
    · next hd =>
      rw [if_neg]
      rintro ⟨_, hc⟩
      exact h ⟨.inr hn, hd, (monitorCheckPageFault_pos_iff l _ _ _).mp hc⟩
    · rfl
  · simp only [monitorAnswer, if_neg hr, if_neg hm, if_neg hn]

/-- The answer reads no row but that of the domain the request names. -/
theorem monitorAnswer_congr {l l' : DomList} (rip : BitVec 32) {req : Message} (resp : Message)
    (h : l req.domid.toNat = l' req.domid.toNat) :
    monitorAnswer l rip req resp = monitorAnswer l' rip req resp := by
  have hc : monitorCheck l req.domid req.processId = monitorCheck l' req.domid req.processId := by
    rw [monitorCheck, monitorCheck, h]
  have hm : monitorCheckMmuupdate l req.mmuPtr req.mmuVal req.domid req.processId =
      monitorCheckMmuupdate l' req.mmuPtr req.mmuVal req.domid req.processId := hc
  have hp : monitorCheckPageFault l req.domid req.processId req.faultAddr =
      monitorCheckPageFault l' req.domid req.processId req.faultAddr := hc
  unfold monitorAnswer
  rw [hm, hp]

/-- The answer to a request of another kind reads no row at all. -/
theorem monitorAnswer_other {l l' : DomList} (rip : BitVec 32) {req : Message} (resp : Message)
    (hm : req.operation ≠ Op.mmuupdate) (hn : req.operation ≠ Op.nxviolation) :
    monitorAnswer l rip req resp = monitorAnswer l' rip req resp := by
  simp only [monitorAnswer, if_neg hm, if_neg hn]

theorem monitorAnswer_operation (l : DomList) (rip : BitVec 32) (req resp : Message) :
    (monitorAnswer l rip req resp).operation = Op.nonop ∨
      (monitorAnswer l rip req resp).operation = Op.nx ∨
      (monitorAnswer l rip req resp).operation = Op.report := by
  unfold monitorAnswer
  dsimp only
  split_ifs <;> simp

-- ════════════════════════════════════════════════════════════════════════
-- Runs that ask nothing about a domain
-- ════════════════════════════════════════════════════════════════════════

/-- As a request the message would not make the monitor look at the row of `e`. -/
def Message.AsksNothingOf (e : ℕ) (m : Message) : Prop :=
  m.operation = Op.mmuupdate ∨ m.operation = Op.nxviolation → m.domid.toNat ≠ e

theorem asksNothingOf_answer (e : ℕ) (l : DomList) (rip : BitVec 32) (req resp : Message) :
    (monitorAnswer l rip req resp).AsksNothingOf e := by
  rintro (h | h) <;>
    rcases monitorAnswer_operation l rip req resp with ho | ho | ho <;> rw [h] at ho <;> cases ho

theorem monitorAnswer_asksNothingOf {e : ℕ} {l l' : DomList} (h : ∀ f, f ≠ e → l f = l' f)
    (rip : BitVec 32) {req : Message} (hreq : req.AsksNothingOf e) (resp : Message) :
    monitorAnswer l rip req resp = monitorAnswer l' rip req resp := by
  by_cases hop : req.operation = Op.mmuupdate ∨ req.operation = Op.nxviolation
  · exact monitorAnswer_congr rip resp (h _ (hreq hop))
  · exact monitorAnswer_other rip resp (fun hm => hop (.inl hm)) (fun hn => hop (.inr hn))

theorem irqIterate_asksNothingOf (z : Ring.Size) {e : ℕ} {l l' : DomList}
    (h : ∀ f, f ≠ e → l f = l' f) (rip : BitVec 32) {f : IrqFrame}
    (hf : ∀ i, (f.sring.ring i).AsksNothingOf e) :
    irqIterate z l rip f = irqIterate z l' rip f ∧
      ∀ i, ((irqIterate z l rip f).sring.ring i).AsksNothingOf e := by
  constructor
  · have hreq : (f.sring.get z f.rc).AsksNothingOf e := hf _
    simp only [irqIterate, monitorAnswer_asksNothingOf h rip hreq]
  · intro i
    simp only [irqIterate, Ring.pushResponses, Ring.Shared.put]
    by_cases hi : i = Ring.slot z f.bring.rspProdPvt
    · rw [hi, Function.update_self]
      exact asksNothingOf_answer e l rip _ _
    · rw [Function.update_of_ne hi]
      exact hf i

/-- A run of the handler on a ring that asks nothing about a domain does the same for
every row of that domain, and leaves such a ring. -/
theorem irqLoop_asksNothingOf (z : Ring.Size) {e : ℕ} {l l' : DomList}
    (h : ∀ f, f ≠ e → l f = l' f) (rip : BitVec 32) (n : ℕ) {f : IrqFrame}
    (hf : ∀ i, (f.sring.ring i).AsksNothingOf e) :
    irqLoop z l rip n f = irqLoop z l' rip n f ∧
      ∀ i, ((irqLoop z l rip n f).sring.ring i).AsksNothingOf e := by
  induction n generalizing f with
  | zero => exact ⟨rfl, hf⟩
  | succ n ih =>
    obtain ⟨heq, hg⟩ := irqIterate_asksNothingOf z h rip hf
    rw [irqLoop, irqLoop]
    split
    · exact ⟨rfl, hf⟩
    · split
      · exact ⟨rfl, hf⟩
      · rw [← heq]
        exact ih hg

-- ════════════════════════════════════════════════════════════════════════
-- Runs that start with both private indices at one counter
-- ════════════════════════════════════════════════════════════════════════

variable {z : Ring.Size} {l : DomList} {rip : BitVec 32}

@[simp] theorem irqIterate_reqProd (f : IrqFrame) :
    (irqIterate z l rip f).sring.reqProd = f.sring.reqProd := rfl

theorem irqLoop_reqProd (n : ℕ) (f : IrqFrame) :
    (irqLoop z l rip n f).sring.reqProd = f.sring.reqProd := by
  induction n generalizing f with
  | zero => rfl
  | succ n ih =>
    rw [irqLoop]
    split
    · rfl
    · split
      · rfl
      · rw [ih, irqIterate_reqProd]

/-- Every round of the loop answers the request it took. -/
theorem irqLoop_answers (n : ℕ) (f : IrqFrame) :
    ∀ e ∈ (irqLoop z l rip n f).log,
      e ∈ f.log ∨ ∃ resp, e.resp = monitorAnswer l rip e.req resp := by
  induction n generalizing f with
  | zero => exact fun e he => .inl he
  | succ n ih =>
    intro e he
    rw [irqLoop] at he
    split at he
    · exact .inl he
    · split at he
      · exact .inl he
      · rcases ih _ e he with hmem | hans
        · simp only [irqIterate, List.mem_append, List.mem_singleton] at hmem
          rcases hmem with hmem | rfl
          · exact .inl hmem
          · exact .inr ⟨f.resp, rfl⟩
        · exact .inr hans

theorem monitorIrqHandle_answers (sring : Ring.Shared Message) (bring : Ring.Back)
    (resp : Message) {e : Exchange} (he : e ∈ (monitorIrqHandle z l rip sring bring resp).log) :
    ∃ resp, e.resp = monitorAnswer l rip e.req resp := by
  rcases irqLoop_answers _ _ e he with hmem | hans
  · cases hmem
  · exact hans

/-- Between two rounds: both private indices and `rc` stand at the counter `c`,
`rp` at the counter `m`, and from `c` on the slots hold the unread requests `q`. -/
structure IrqFrame.At (z : Ring.Size) (f : IrqFrame) (c m : ℕ) (q : List Message) : Prop where
  rspProdPvt : f.bring.rspProdPvt = BitVec.ofNat 32 c
  reqCons : f.bring.reqCons = BitVec.ofNat 32 c
  rc : f.rc = BitVec.ofNat 32 c
  rp : f.rp = BitVec.ofNat 32 m
  le : c ≤ m
  published : m ≤ c + q.length
  room : q.length ≤ z.entries
  holds : Ring.Holds z f.sring.ring c q

theorem IrqFrame.At.rc_eq_rp_iff {f : IrqFrame} {c m : ℕ} {q : List Message}
    (h : f.At z c m q) : f.rc = f.rp ↔ c = m := by
  rw [h.rc, h.rp]
  constructor
  · refine Ring.ofNat_inj_of_near h.le ?_
    have := z.entries_lt
    have := h.published
    have := h.room
    omega
  · rintro rfl
    rfl

/-- While the two private indices agree the overflow break is not taken. -/
theorem IrqFrame.At.not_overflow {f : IrqFrame} {c m : ℕ} {q : List Message}
    (h : f.At z c m q) : ¬Ring.RequestConsOverflow z f.bring f.rc := by
  rw [Ring.RequestConsOverflow, h.rc, h.rspProdPvt, BitVec.sub_self]
  have := z.entries_pos
  simp only [BitVec.toNat_ofNat, Nat.zero_mod]
  omega

/-- One round takes the oldest unread request and answers in its slot. -/
theorem IrqFrame.At.iterate (l : DomList) (rip : BitVec 32) {f : IrqFrame} {c m : ℕ}
    {x : Message} {xs : List Message} (h : f.At z c m (x :: xs)) (hlt : c < m) :
    (irqIterate z l rip f).At z (c + 1) m xs ∧
      (irqIterate z l rip f).log =
        f.log ++ [⟨x, c % z.entries, monitorAnswer l rip x f.resp⟩] := by
  have hget : f.sring.get z f.rc = x := by
    rw [Ring.Shared.get, h.rc, Ring.slot_ofNat]
    exact h.holds.head
  have hroom := h.room
  have hpub := h.published
  rw [List.length_cons] at hroom hpub
  constructor
  · refine ⟨?_, ?_, ?_, h.rp, hlt, by omega, by omega, ?_⟩
    · simp only [irqIterate, h.rspProdPvt, Ring.ofNat_succ]
    · simp only [irqIterate, h.rc, Ring.ofNat_succ]
    · simp only [irqIterate, h.rc, Ring.ofNat_succ]
    · simp only [irqIterate, Ring.pushResponses, Ring.Shared.put, h.rspProdPvt, Ring.slot_ofNat]
      exact h.holds.tail.answer (by omega) _
  · simp only [irqIterate, hget, h.rspProdPvt, Ring.slot_ofNat]

/-- Every exchange of a log that starts at counter `base` was answered in the
slot of its own counter. -/
def AnsweredInPlace (z : Ring.Size) (base : ℕ) (log : List Exchange) : Prop :=
  log.map Exchange.slot = (List.range log.length).map fun k => (base + k) % z.entries

theorem AnsweredInPlace.snoc {base : ℕ} {log : List Exchange} (h : AnsweredInPlace z base log)
    {e : Exchange} (he : e.slot = (base + log.length) % z.entries) :
    AnsweredInPlace z base (log ++ [e]) := by
  unfold AnsweredInPlace at h ⊢
  simp [List.range_succ, h, he]

/-- The loop run to its end: every published request is taken, in order, and
answered in its own slot. -/
theorem irqLoop_at (l : DomList) (rip : BitVec 32) (n : ℕ) {f : IrqFrame} {base c : ℕ}
    {q : List Message}
    (h : f.At z c (c + n) q) (hlen : base + f.log.length = c)
    (hlog : AnsweredInPlace z base f.log) :
    (irqLoop z l rip n f).At z (c + n) (c + n) (q.drop n) ∧
      (irqLoop z l rip n f).log.map Exchange.req = f.log.map Exchange.req ++ q.take n ∧
      AnsweredInPlace z base (irqLoop z l rip n f).log := by
  induction n generalizing f c q with
  | zero => exact ⟨h, by simp [irqLoop], hlog⟩
  | succ n ih =>
    have hne : f.rc ≠ f.rp := fun he => by
      have := h.rc_eq_rp_iff.mp he
      omega
    rw [irqLoop, if_neg hne, if_neg h.not_overflow]
    obtain _ | ⟨x, xs⟩ := q
    · have := h.published
      simp only [List.length_nil] at this
      omega
    obtain ⟨hat, hl⟩ := h.iterate l rip (by omega)
    rw [show c + (n + 1) = c + 1 + n by omega] at hat ⊢
    obtain ⟨hat', hreq, hslots⟩ := ih (f := irqIterate z l rip f) hat
      (by rw [hl, List.length_append]; simp only [List.length_singleton]; omega)
      (by rw [hl]; exact hlog.snoc (by rw [hlen]))
    refine ⟨by simpa using hat', ?_, hslots⟩
    rw [hreq, hl]
    simp

/-- The handler enters its loop with as many rounds to go as there are unread requests. -/
theorem irqEnter_at {sring : Ring.Shared Message} {c : ℕ} {q : List Message}
    (hprod : sring.reqProd = BitVec.ofNat 32 (c + q.length)) (hroom : q.length ≤ z.entries)
    (hholds : Ring.Holds z sring.ring c q) (l : DomList) (rip : BitVec 32) (resp : Message) :
    let f := irqEnter sring ⟨BitVec.ofNat 32 c, BitVec.ofNat 32 c⟩ resp
    f.At z c (c + q.length) q ∧
      monitorIrqHandle z l rip sring ⟨BitVec.ofNat 32 c, BitVec.ofNat 32 c⟩ resp =
        irqLoop z l rip q.length f := by
  have hlt := z.entries_lt
  have hfuel : (BitVec.ofNat 32 (c + q.length) - BitVec.ofNat 32 c).toNat = q.length := by
    rw [Ring.toNat_sub_ofNat (by omega) (by omega)]
    omega
  refine ⟨⟨rfl, rfl, rfl, hprod, by omega, Nat.le_refl _, hroom, hholds⟩, ?_⟩
  simp only [monitorIrqHandle, irqEnter, hprod, hfuel]

/-- A whole run of the handler on a ring whose private indices agree. -/
theorem monitorIrqHandle_at {sring : Ring.Shared Message} {c : ℕ} {q : List Message}
    (hprod : sring.reqProd = BitVec.ofNat 32 (c + q.length)) (hroom : q.length ≤ z.entries)
    (hholds : Ring.Holds z sring.ring c q) (l : DomList) (rip : BitVec 32) (resp : Message) :
    let f := monitorIrqHandle z l rip sring ⟨BitVec.ofNat 32 c, BitVec.ofNat 32 c⟩ resp
    f.bring = ⟨BitVec.ofNat 32 (c + q.length), BitVec.ofNat 32 (c + q.length)⟩ ∧
      f.sring.reqProd = sring.reqProd ∧ f.log.map Exchange.req = q ∧
      AnsweredInPlace z c f.log := by
  intro f
  obtain ⟨hat, hf⟩ := irqEnter_at hprod hroom hholds l rip resp
  obtain ⟨hend, hreq, hslots⟩ := irqLoop_at l rip q.length hat rfl rfl
  rw [show f = _ from hf]
  refine ⟨Ring.Back.ext hend.rspProdPvt hend.reqCons, irqLoop_reqProd _ _, ?_, hslots⟩
  simpa [irqEnter] using hreq

end Maitland
