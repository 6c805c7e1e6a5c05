import Maitland.Malpage.Hooks
import Maitland.Monitor.Irq

/-!
# The queue behind the request ring

While the unanswered requests fit the ring, the ring is a bounded queue from the
guest's hooks to the monitor's request loop.
-/

namespace Maitland

/-- The monitor has taken the first `log.length` of the requests `pushed`, in
order, and the slots from there on hold the rest. -/
structure RingQueue (z : Ring.Size) (sring : Ring.Shared Message) (fring : Ring.Front)
    (pushed : List Message) (log : List Exchange) : Prop where
  reqProdPvt : fring.reqProdPvt = BitVec.ofNat 32 pushed.length
  reqProd : sring.reqProd = BitVec.ofNat 32 pushed.length
  le : log.length ≤ pushed.length
  room : pushed.length ≤ log.length + z.entries
  taken : log.map Exchange.req = pushed.take log.length
  holds : Ring.Holds z sring.ring log.length (pushed.drop log.length)

namespace RingQueue

variable {z : Ring.Size} {sring : Ring.Shared Message} {fring : Ring.Front}
  {pushed : List Message} {log : List Exchange}

theorem init (z : Ring.Size) (ring : ℕ → Message) :
    RingQueue z (Ring.sharedRingInit ring) Ring.frontRingInit [] [] where
  reqProdPvt := rfl
  reqProd := rfl
  le := Nat.le_refl _
  room := Nat.zero_le _
  taken := rfl
  holds := Ring.Holds.nil _ _

theorem length_drop (h : RingQueue z sring fring pushed log) :
    log.length + (pushed.drop log.length).length = pushed.length := by
  have := h.le
  rw [List.length_drop]
  omega

theorem drop_le (h : RingQueue z sring fring pushed log) :
    (pushed.drop log.length).length ≤ z.entries := by
  have := h.room
  have := h.length_drop
  omega

/-- A call of a hook that leaves the unanswered requests within the ring. -/
theorem hook {fe : FrontEnd} (h : RingQueue z fe.sring fe.fring pushed log) (k : Hook)
    (hfit : (pushed ++ (k.call z fe).2.toList).length - log.length ≤ z.entries) :
    RingQueue z (k.call z fe).1.sring (k.call z fe).1.fring
      (pushed ++ (k.call z fe).2.toList) log := by
  rcases k.call_cases z fe with hc | ⟨fill, hc⟩
  · simpa [hc] using h
  · obtain ⟨req, hp⟩ := FrontEnd.push_at h.reqProdPvt fill
    rw [hc, hp] at hfit ⊢
    simp only [Option.toList_some, List.length_append, List.length_singleton] at hfit ⊢
    have hle := h.le
    have hlen := h.length_drop
    refine ⟨by simp, by simp, ?_, ?_, ?_, ?_⟩
    · simp only [List.length_append]
      omega
    · simp only [List.length_append, List.length_singleton]
      omega
    · rw [h.taken, List.take_append_of_le_length hle]
    · have hh := h.holds.push (by omega) req
      rwa [hlen, ← List.drop_append_of_le_length hle] at hh

/-- A run of the request loop between two rounds sees the queue in its frame. -/
theorem frame_at {f : IrqFrame} (h : RingQueue z f.sring fring pushed f.log) {m : ℕ}
    (hback : f.bring = ⟨BitVec.ofNat 32 f.log.length, BitVec.ofNat 32 f.log.length⟩)
    (hrc : f.rc = BitVec.ofNat 32 f.log.length) (hrp : f.rp = BitVec.ofNat 32 m)
    (hle : f.log.length ≤ m) (hm : m ≤ pushed.length) :
    f.At z f.log.length m (pushed.drop f.log.length) where
  rspProdPvt := by rw [hback]
  reqCons := by rw [hback]
  rc := hrc
  rp := hrp
  le := hle
  published := by rw [h.length_drop]; exact hm
  room := h.drop_le
  holds := h.holds

/-- One round takes the head of the queue and answers in its slot. -/
theorem iterate {f : IrqFrame} (h : RingQueue z f.sring fring pushed f.log) {m : ℕ}
    (hat : f.At z f.log.length m (pushed.drop f.log.length)) (hlt : f.log.length < m)
    (hm : m ≤ pushed.length) (l : DomList) (rip : BitVec 32) :
    let g := irqIterate z l rip f
    RingQueue z g.sring fring pushed g.log ∧ g.log.length = f.log.length + 1 ∧
      g.At z g.log.length m (pushed.drop g.log.length) := by
  intro g
  have hcons : pushed.drop f.log.length =
      pushed[f.log.length] :: pushed.drop (f.log.length + 1) :=
    List.drop_eq_getElem_cons (by omega)
  rw [hcons] at hat
  obtain ⟨hat', hlog⟩ := hat.iterate l rip hlt
  have hlen : g.log.length = f.log.length + 1 := by
    rw [hlog, List.length_append]
    rfl
  have hroom := h.room
  refine ⟨⟨h.reqProdPvt, h.reqProd, by omega, by omega, ?_, ?_⟩, hlen, ?_⟩
  · rw [hlen, hlog, List.take_add_one, List.map_append, ← h.taken]
    simp [List.getElem?_eq_getElem (show f.log.length < pushed.length by omega)]
  · rw [hlen]
    exact hat'.holds
  · rw [hlen]
    exact hat'

/-- A whole run of the handler empties the queue. -/
theorem handle (h : RingQueue z sring fring pushed log) (l : DomList) (rip : BitVec 32)
    (resp : Message) :
    let f := monitorIrqHandle z l rip sring
      ⟨BitVec.ofNat 32 log.length, BitVec.ofNat 32 log.length⟩ resp
    RingQueue z f.sring fring pushed (log ++ f.log) ∧
      (log ++ f.log).length = pushed.length ∧
      f.bring = ⟨BitVec.ofNat 32 pushed.length, BitVec.ofNat 32 pushed.length⟩ ∧
      (log ++ f.log).map Exchange.req = pushed := by
  intro f
  obtain ⟨hbring, hprod, hreq, _⟩ := monitorIrqHandle_at
    (by rw [h.length_drop]; exact h.reqProd) h.drop_le h.holds l rip resp
  have htaken : (log ++ f.log).map Exchange.req = pushed := by
    rw [List.map_append, h.taken, hreq, List.take_append_drop]
  have hlen : (log ++ f.log).length = pushed.length := by
    rw [← htaken, List.length_map]
  refine ⟨⟨h.reqProdPvt, hprod.trans h.reqProd, hlen.le, by omega, ?_, ?_⟩, hlen, ?_, htaken⟩
  · rw [hlen, htaken, List.take_length]
  · rw [hlen, List.drop_length]
    exact Ring.Holds.nil _ _
  · rw [hbring, h.length_drop]

end RingQueue

end Maitland
