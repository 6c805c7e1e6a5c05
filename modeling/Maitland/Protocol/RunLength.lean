import Mathlib.Data.List.Nodup
import Maitland.Monitor.Driver

/-!
# How long one run of the monitor's handler can be

`req_prod` lies in the page the guest writes.  The test of
`RING_REQUEST_CONS_OVERFLOW` compares the consumer with the response producer, and
a round moves both one on, so the test has the same value before every round.
-/

namespace Maitland

section Reads

variable (z : Ring.Size) (l : DomList) (reportInProgress : BitVec 32)

/-- The slots the rounds of `irqLoop` take their requests from. -/
def irqReads : ℕ → IrqFrame → List ℕ
  | 0, _ => []
  | n + 1, f =>
    if f.rc = f.rp then []
    else if Ring.RequestConsOverflow z f.bring f.rc then []
    else Ring.slot z f.rc :: irqReads n (irqIterate z l reportInProgress f)

def monitorIrqReads (sring : Ring.Shared Message) (bring : Ring.Back) (resp : Message) : List ℕ :=
  let f := irqEnter sring bring resp
  irqReads z l reportInProgress (f.rp - f.rc).toNat f

/-- One run reads and answers at most one ring full of requests, and reads no slot
twice. -/
structure RunBounded (sring : Ring.Shared Message) (bring : Ring.Back) (resp : Message) :
    Prop where
  reads : (monitorIrqReads z l reportInProgress sring bring resp).length ≤ z.entries
  writes : (monitorIrqHandle z l reportInProgress sring bring resp).log.length ≤ z.entries
  once : (monitorIrqReads z l reportInProgress sring bring resp).Nodup

end Reads

variable {z : Ring.Size} {l : DomList} {rip : BitVec 32}

theorem irqIterate_overflow_iff (f : IrqFrame) :
    Ring.RequestConsOverflow z (irqIterate z l rip f).bring (irqIterate z l rip f).rc ↔
      Ring.RequestConsOverflow z f.bring f.rc := by
  have h : f.rc + 1 - (f.bring.rspProdPvt + 1) = f.rc - f.bring.rspProdPvt := by bv_omega
  simp only [Ring.RequestConsOverflow, irqIterate, h]

theorem irqIterate_left {n : ℕ} {f : IrqFrame} (h : (f.rp - f.rc).toNat = n + 1) :
    ((irqIterate z l rip f).rp - (irqIterate z l rip f).rc).toNat = n := by
  simp only [irqIterate]
  bv_omega

theorem rc_ne_rp_of_left {n : ℕ} {f : IrqFrame} (h : (f.rp - f.rc).toNat = n + 1) :
    f.rc ≠ f.rp := by
  intro he
  rw [he, BitVec.sub_self] at h
  simp at h

/-- A run that passes the overflow test once passes it to the end. -/
theorem irqReads_eq {n : ℕ} {f : IrqFrame} (hn : (f.rp - f.rc).toNat = n)
    (hf : ¬Ring.RequestConsOverflow z f.bring f.rc) :
    irqReads z l rip n f = (List.range n).map fun k => (f.rc.toNat + k) % z.entries := by
  induction n generalizing f with
  | zero => rfl
  | succ n ih =>
    have hnext := ih (f := irqIterate z l rip f) (irqIterate_left hn)
      (mt (irqIterate_overflow_iff f).mp hf)
    rw [irqReads, if_neg (rc_ne_rp_of_left hn), if_neg hf, hnext, List.range_succ_eq_map,
      List.map_cons, List.map_map, Ring.slot_eq, Nat.add_zero]
    refine congrArg _ (List.map_congr_left fun k _ => ?_)
    -- The next `rc` is one more modulo `2 ^ 32`, which the slots do not see.
    have hrc : (irqIterate z l rip f).rc.toNat = (f.rc.toNat + 1) % 2 ^ 32 := by
      simp [irqIterate, BitVec.toNat_add]
    rw [hrc, Function.comp_apply, Nat.add_mod, Nat.mod_mod_of_dvd _ z.entries_dvd, ← Nat.add_mod]
    congr 1
    omega

theorem irqReads_of_overflow {f : IrqFrame} (hf : Ring.RequestConsOverflow z f.bring f.rc)
    (n : ℕ) : irqReads z l rip n f = [] := by
  cases n with
  | zero => rfl
  | succ n => rw [irqReads, if_pos hf, ite_self]

theorem monitorIrqReads_eq {sring : Ring.Shared Message} {bring : Ring.Back}
    (h : ¬Ring.RequestConsOverflow z bring bring.reqCons) (resp : Message) :
    monitorIrqReads z l rip sring bring resp =
      (List.range (sring.reqProd - bring.reqCons).toNat).map
        fun k => (bring.reqCons.toNat + k) % z.entries :=
  @irqReads_eq z l rip _ (irqEnter sring bring resp) rfl h

theorem monitorIrqReads_of_overflow {sring : Ring.Shared Message} {bring : Ring.Back}
    (h : Ring.RequestConsOverflow z bring bring.reqCons) (resp : Message) :
    monitorIrqReads z l rip sring bring resp = [] :=
  @irqReads_of_overflow z l rip (irqEnter sring bring resp) h _

/-- Every request read is answered, whatever was in the slot. -/
theorem irqLoop_log_length (n : ℕ) (f : IrqFrame) :
    (irqLoop z l rip n f).log.length = f.log.length + (irqReads z l rip n f).length := by
  induction n generalizing f with
  | zero => rfl
  | succ n ih =>
    rw [irqLoop, irqReads]
    split
    · rfl
    · split
      · rfl
      · rw [ih, List.length_cons]
        simp only [irqIterate, List.length_append, List.length_singleton]
        omega

/-- The run leaves the loop by its condition or by the break, never for want of rounds. -/
theorem irqLoop_stops {n : ℕ} {f : IrqFrame} (hn : (f.rp - f.rc).toNat = n) :
    (irqLoop z l rip n f).rc = (irqLoop z l rip n f).rp ∨
      Ring.RequestConsOverflow z (irqLoop z l rip n f).bring (irqLoop z l rip n f).rc := by
  induction n generalizing f with
  | zero =>
    refine .inl ?_
    rw [irqLoop]
    bv_omega
  | succ n ih =>
    rw [irqLoop]
    split
    · next he => exact .inl he
    · split
      · next hf => exact .inr hf
      · exact ih (irqIterate_left hn)

theorem monitorIrqHandle_log_length (sring : Ring.Shared Message) (bring : Ring.Back)
    (resp : Message) : (monitorIrqHandle z l rip sring bring resp).log.length =
      (monitorIrqReads z l rip sring bring resp).length := by
  rw [monitorIrqHandle, irqLoop_log_length]
  simp [irqEnter, monitorIrqReads]

/-- The number of rounds of one run is the guest's to choose. -/
theorem monitorIrqReads_length (sring : Ring.Shared Message) (bring : Ring.Back)
    (resp : Message) : (monitorIrqReads z l rip sring bring resp).length =
      if Ring.RequestConsOverflow z bring bring.reqCons then 0
      else (sring.reqProd - bring.reqCons).toNat := by
  split
  · next h => rw [monitorIrqReads_of_overflow h, List.length_nil]
  · next h => rw [monitorIrqReads_eq h, List.length_map, List.length_range]

theorem monitorIrqReads_nodup {sring : Ring.Shared Message} {bring : Ring.Back}
    (h : (sring.reqProd - bring.reqCons).toNat ≤ z.entries) (resp : Message) :
    (monitorIrqReads z l rip sring bring resp).Nodup := by
  by_cases hf : Ring.RequestConsOverflow z bring bring.reqCons
  · rw [monitorIrqReads_of_overflow hf]
    exact List.nodup_nil
  · rw [monitorIrqReads_eq hf]
    refine List.Nodup.map_on ?_ List.nodup_range
    intro a ha b hb hab
    rw [List.mem_range] at ha hb
    rcases Nat.lt_trichotomy a b with hlt | he | hlt
    · exact absurd hab (Ring.mod_entries_ne z (by omega) (by omega))
    · exact he
    · exact absurd hab.symm (Ring.mod_entries_ne z (by omega) (by omega))

/-- Whatever the ring, the table and the private indices, a run is bounded exactly
when it breaks off before its first round or the guest published no more than one
ring full. -/
theorem run_bounded_iff (z : Ring.Size) (l : DomList) (rip : BitVec 32)
    (sring : Ring.Shared Message) (bring : Ring.Back) (resp : Message) :
    RunBounded z l rip sring bring resp ↔
      Ring.RequestConsOverflow z bring bring.reqCons ∨
        (sring.reqProd - bring.reqCons).toNat ≤ z.entries := by
  have hlen := @monitorIrqReads_length z l rip sring bring resp
  constructor
  · intro h
    by_cases hf : Ring.RequestConsOverflow z bring bring.reqCons
    · exact .inl hf
    · rw [if_neg hf] at hlen
      exact .inr (hlen ▸ h.reads)
  · intro h
    have hreads : (monitorIrqReads z l rip sring bring resp).length ≤ z.entries := by
      rcases h with hf | hle
      · rw [hlen, if_pos hf]
        exact Nat.zero_le _
      · rw [hlen]
        split
        · exact Nat.zero_le _
        · exact hle
    refine ⟨hreads, by rwa [monitorIrqHandle_log_length], ?_⟩
    rcases h with hf | hle
    · rw [monitorIrqReads_of_overflow hf]
      exact List.nodup_nil
    · exact monitorIrqReads_nodup hle resp

/-- A guest's ring page with no request in it but the producer at 33. -/
def overstatedPage : Ring.Shared Message :=
  { Ring.sharedRingInit (fun _ => default) with reqProd := 33 }

/-- Domain 1 has just registered, and its page claims 33 requests: the interrupt
takes them all, the first slot twice. -/
theorem overstated_producer_runs_on :
    let st := (monitorInit fun _ => overstatedPage).registered ⟨1, 5, 3⟩ 9
    ¬RunBounded ringSize st.domList st.reportInProgress overstatedPage Ring.backRingInit default ∧
      (monitorIrqReads ringSize st.domList st.reportInProgress overstatedPage Ring.backRingInit
        default).count 0 = 2 ∧
      (monitorIrq ringSize st 0 default).map (fun r => r.2.length) = some 33 := by
  intro st
  have hf : ¬Ring.RequestConsOverflow ringSize Ring.backRingInit Ring.backRingInit.reqCons := by
    decide
  have hreads : monitorIrqReads ringSize st.domList st.reportInProgress overstatedPage
      Ring.backRingInit default = (List.range 33).map fun k => (0 + k) % 32 :=
    monitorIrqReads_eq hf default
  refine ⟨fun h => ?_, ?_, ?_⟩
  · have := h.reads
    rw [hreads, List.length_map, List.length_range] at this
    exact absurd this (by decide)
  · rw [hreads]
    decide
  · have hi : st.infos[0]? = some { monitorPopulateInfo ⟨1, 5, 3⟩ with
        evtchn := BitVec.ofInt 32 9
        bring := Ring.backRingInit
        sring := some 0 } := rfl
    rw [monitorIrq_eq hi rfl, Option.map_some]
    have hlen := congrArg List.length hreads
    rw [List.length_map, List.length_range] at hlen
    exact congrArg some ((monitorIrqHandle_log_length _ _ _).trans hlen)

end Maitland
