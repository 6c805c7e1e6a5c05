import Maitland.Protocol.ReportReading

/-!
# A report from the guest's page list to the monitor's mappings

One report with no other in flight: the pages are granted, written to Xenstore,
read and packed by the server, copied by the driver and mapped by it.
-/

namespace Maitland

open Decimal

/-- A report and the grants behind it. -/
structure GrantedReport where
  processId : BitVec 32
  domid : BitVec 16
  pfnList : List (BitVec 64)
  pfnListLength : BitVec 32
  /-- What `gnttab_grant_foreign_access` returned for each page. -/
  rets : List (BitVec 32)
  /-- The frame behind every reference that is granted when the monitor maps. -/
  table : Ref → Option (BitVec 64)
  length_pfnList : pfnList.length = pfnListLength.toNat
  length_rets : rets.length = pfnListLength.toNat
  nodup : pfnList.Nodup
  /-- A positive return value is a reference to that page. -/
  granted : ∀ p ∈ pfnList.zip rets, 0 < p.2.toInt → table ⟨domid, p.2⟩ = some p.1
  /-- References are positive, so an errno is none. -/
  positive : ∀ gref, table ⟨domid, gref⟩ ≠ none → 0 < gref.toInt

namespace GrantedReport

variable (g : GrantedReport)

/-- The frames with what their grant returned. -/
def pairs : List (BitVec 64 × BitVec 32) := g.pfnList.zip g.rets

/-- The pairs whose grant succeeded. -/
def succeeded : List (BitVec 64 × BitVec 32) := g.pairs.filter fun p => 0 < p.2.toInt

def guestReport : GuestReport :=
  malpageReport g.processId g.domid g.pfnList g.pfnListLength g.rets

/-- The guest's node once the report is written. -/
def node : ReportNode := (malpageXsReport g.guestReport).foldl ReportTxn.apply .empty

/-- Xen maps the references that are granted. -/
def maps (ref : Ref) : Bool := (g.table ref).isSome

theorem length_pairs : g.pairs.length = g.pfnListLength.toNat := by
  rw [pairs, List.length_zip, g.length_pfnList, g.length_rets, Nat.min_self]

theorem node_eq : g.node = ⟨some ['1'], some (print g.domid.toNat),
    some (print g.processId.toNat), some (writeGrefs ∅ g.pairs)⟩ := by
  have hrets : (g.rets.take g.pfnListLength.toNat).map malpageGrantMfn = g.rets := by
    rw [← g.length_rets, List.take_length]
    exact (List.map_congr_left fun ret _ => malpageGrantMfn_eq ret).trans (List.map_id g.rets)
  rw [node, malpageXsReport_apply]
  simp only [guestReport, malpageReport, GuestReport.pairs, hrets]
  have htake : (g.pfnList.zip g.rets).take g.pfnListLength.toNat = g.pairs := by
    rw [← g.length_pairs]
    exact List.take_length
  rw [htake]

theorem pairs_nodup : g.pairs.Nodup := by
  refine List.Nodup.of_map Prod.fst ?_
  rw [pairs, List.map_fst_zip (by rw [g.length_pfnList, g.length_rets])]
  exact g.nodup

/-- A granted reference is under its own frame only. -/
theorem eq_of_gref_eq {p q : BitVec 64 × BitVec 32} (hp : p ∈ g.pairs) (hq : q ∈ g.pairs)
    (hpos : 0 < p.2.toInt) (h : q.2 = p.2) : q = p := by
  have hpt := g.granted p hp hpos
  have hqt := g.granted q hq (by rwa [h])
  rw [h, hpt, Option.some.injEq] at hqt
  exact Prod.ext hqt.symm h

theorem table_eq_none {p : BitVec 64 × BitVec 32} (hneg : ¬0 < p.2.toInt) :
    g.table ⟨g.domid, p.2⟩ = none :=
  not_not.mp fun h => hneg (g.positive p.2 h)

variable {g}

theorem length_listed_lt {dirs : List Text} {ps : List (BitVec 64 × BitVec 32)}
    (h : Listed g.pairs dirs ps) : ps.length < 2 ^ 32 := by
  calc ps.length ≤ g.pairs.length := h.length_le
    _ = g.pfnListLength.toNat := g.length_pairs
    _ < 2 ^ 32 := g.pfnListLength.isLt

theorem toNat_length_listed {dirs : List Text} {ps : List (BitVec 64 × BitVec 32)}
    (h : Listed g.pairs dirs ps) : (BitVec.ofNat 32 ps.length).toNat = ps.length := by
  rw [BitVec.toNat_ofNat, Nat.mod_eq_of_lt (length_listed_lt h)]

/-- The report the server sends. -/
def sentReport (g : GrantedReport) (ps : List (BitVec 64 × BitVec 32)) : ProcessReport :=
  ⟨g.processId, g.domid.setWidth 32, 0, ps.map Prod.fst, ps.map Prod.snd,
    BitVec.ofNat 32 ps.length⟩

theorem watchDomainReport_eq {dirs : List Text} {ps : List (BitVec 64 × BitVec 32)}
    (h : Listed g.pairs dirs ps) : watchDomainReport g.node dirs = some (g.sentReport ps) := by
  have hready : IsReady (some ['1']) := by decide
  rw [watchDomainReport, node_eq, if_pos hready, h.readReport_eq, Option.bind_some,
    packReport_pairs (length_listed_lt h), sentReport]

theorem populate_sentReport {dirs : List Text} {ps : List (BitVec 64 × BitVec 32)}
    (h : Listed g.pairs dirs ps) : monitorPopulateReport (g.sentReport ps) = g.sentReport ps := by
  simp only [monitorPopulateReport, sentReport, toNat_length_listed h]
  rw [List.take_of_length_le (by simp), List.take_of_length_le (by simp)]

/-- The listed references that map are those of the succeeded grants. -/
theorem succeeded_perm {dirs : List Text} {ps : List (BitVec 64 × BitVec 32)}
    (h : Listed g.pairs dirs ps) : (ps.filter fun p => 0 < p.2.toInt).Perm g.succeeded := by
  have hps : (ps.filter fun p => 0 < p.2.toInt).Nodup :=
    (List.Nodup.of_map Prod.snd h.nodup).filter _
  refine (List.perm_ext_iff_of_nodup hps (g.pairs_nodup.filter _)).mpr fun p => ?_
  simp only [List.mem_filter, decide_eq_true_eq]
  constructor
  · rintro ⟨hp, hpos⟩
    exact ⟨h.mem p hp, hpos⟩
  · rintro ⟨hp, hpos⟩
    obtain ⟨q, hq, he⟩ := h.all p hp
    obtain rfl := g.eq_of_gref_eq hp (h.mem q hq) hpos he
    exact ⟨hq, hpos⟩

theorem mappable_iff {p : BitVec 64 × BitVec 32} (hp : p ∈ g.pairs) :
    Mappable g.maps (g.domid.setWidth 32) p.2 = decide (0 < p.2.toInt) := by
  rw [Mappable, maps, setWidth_domid]
  by_cases hpos : 0 < p.2.toInt
  · have hne : p.2.toNat ≠ 0 := by
      intro h0
      rw [BitVec.eq_of_toNat_eq (y := 0#32) h0] at hpos
      exact absurd hpos (by decide)
    simp [g.granted p hp hpos, hpos, Nat.pos_of_ne_zero hne]
  · simp [g.table_eq_none hpos, hpos]

/-- The mapping loop on the listed references: one area for each succeeded grant. -/
theorem maps_succeeded {dirs : List Text} {ps : List (BitVec 64 × BitVec 32)}
    (h : Listed g.pairs dirs ps) (st : MonitorState) :
    let st' := monitorReport g.maps st (g.sentReport ps)
    st'.vmStructList.Nodup ∧
      (st'.vmStructList.map st'.mapped).Perm
        (g.succeeded.map fun p => some ⟨g.domid, p.2⟩) := by
  intro st'
  have hst : st' = { monitorMapList g.maps (g.domid.setWidth 32) { st with vmStructList := [] }
      (ps.map Prod.snd) with currProc := g.processId } := by
    simp only [st', monitorReport, sentReport, toNat_length_listed h]
    rw [List.take_of_length_le (by simp)]
  obtain ⟨new, hlist, hmap, hnodup, _⟩ := monitorMapList_keeps g.maps (g.domid.setWidth 32)
    { st with vmStructList := [] } (ps.map Prod.snd)
  rw [List.nil_append] at hlist
  rw [hst]
  simp only [hlist]
  refine ⟨hnodup, ?_⟩
  rw [hmap, List.filter_map, List.map_map, setWidth_domid]
  have hfilter : ps.filter (Mappable g.maps (g.domid.setWidth 32) ∘ Prod.snd) =
      ps.filter fun p => 0 < p.2.toInt :=
    List.filter_congr fun p hp => mappable_iff (h.mem p hp)
  rw [hfilter]
  exact (succeeded_perm h).map _

end GrantedReport

/-- A report processed alone: whatever grants succeed and however Xenstore lists the
references, the server sends the guest's report, and the driver maps exactly the
pages whose grant succeeded, each once and under the reference it was granted by. -/
theorem report_maps_granted_pages (z : Ring.Size) (g : GrantedReport) (st : MonitorState)
    (dirs : List Text) (hls : ∃ dir, g.node.grefs = some dir ∧ dirs.Perm dir.keys) :
    ∃ rep st', watchDomainReport g.node dirs = some rep ∧
      monitorIoctl z st (.report rep g.maps) = some (st', 0) ∧
      (monitorPopulateReport rep).processId = g.processId ∧
      (monitorPopulateReport rep).domid = g.domid.setWidth 32 ∧
      st'.vmStructList.Nodup ∧
      (st'.vmStructList.map fun a => (st'.mapped a).bind g.table).Perm
        (g.succeeded.map fun p => some p.1) ∧
      ∀ p ∈ g.succeeded,
        p ∈ (monitorPopulateReport rep).pfnList.zip (monitorPopulateReport rep).grefList ∧
        ∃ a ∈ st'.vmStructList, st'.mapped a = some ⟨g.domid, p.2⟩ := by
  obtain ⟨dir, hdir, hls⟩ := hls
  rw [g.node_eq, Option.some.injEq] at hdir
  subst hdir
  obtain ⟨ps, h⟩ := exists_listed_of_perm hls
  obtain ⟨hnodup, hperm⟩ := GrantedReport.maps_succeeded h st
  have hpop := GrantedReport.populate_sentReport h
  refine ⟨g.sentReport ps, monitorReport g.maps st (g.sentReport ps),
    GrantedReport.watchDomainReport_eq h, ?_, ?_, ?_, hnodup, ?_, ?_⟩
  · rw [monitorIoctl, hpop]
  · rw [hpop, GrantedReport.sentReport]
  · rw [hpop, GrantedReport.sentReport]
  · have hframes := hperm.map (Option.bind · g.table)
    rw [List.map_map, List.map_map] at hframes
    refine hframes.trans (List.Perm.of_eq (List.map_congr_left fun p hp => ?_))
    obtain ⟨hp, hpos⟩ := List.mem_filter.mp hp
    exact g.granted p hp (of_decide_eq_true hpos)
  · intro p hp
    constructor
    · have hmem := (List.mem_filter.mp ((GrantedReport.succeeded_perm h).mem_iff.mpr hp)).1
      rw [hpop, GrantedReport.sentReport, List.zip_map', List.map_congr_left fun p _ => rfl,
        List.map_id']
      exact hmem
    · exact List.mem_map.mp (hperm.mem_iff.mpr (List.mem_map_of_mem hp))

/-- Process 7 of domain 1 with the frames 100, 200 and 300, of which the first is
granted by reference 9 and the others fail with `-ENOSPC`. -/
def oneGrant : GrantedReport where
  processId := 7
  domid := 1
  pfnList := [100, 200, 300]
  pfnListLength := 3
  rets := [9, -28, -28]
  table := fun ref => if ref = ⟨1, 9⟩ then some 100 else none
  length_pfnList := rfl
  length_rets := rfl
  nodup := by decide
  granted := by
    intro p hp hpos
    have hcases : p = (100, 9) ∨ p = (200, -28) ∨ p = (300, -28) := by simpa using hp
    rcases hcases with rfl | rfl | rfl
    · rfl
    · exact absurd hpos (by decide)
    · exact absurd hpos (by decide)
  positive := by
    intro gref h
    obtain rfl : gref = 9 := by simpa using h
    decide

theorem report_maps_granted_pages_oneGrant :
    ∃ rep st', watchDomainReport oneGrant.node [print 9, print 4294967268] = some rep ∧
      monitorIoctl ringSize (monitorInit fun _ => Ring.sharedRingInit default)
        (.report rep oneGrant.maps) = some (st', 0) ∧
      (st'.vmStructList.map fun a => (st'.mapped a).bind oneGrant.table).Perm [some 100] := by
  obtain ⟨rep, st', hrep, hioctl, _, _, _, hperm, _⟩ := report_maps_granted_pages ringSize oneGrant
    (monitorInit fun _ => Ring.sharedRingInit default) [print 9, print 4294967268]
    ⟨_, rfl, by decide⟩
  exact ⟨rep, st', hrep, hioctl, hperm⟩

end Maitland
