import Maitland.Library.Run
import Maitland.Protocol.ReportReading

/-!
# Handing reports over through Xenstore

The guest's reporter and the server's `watch_domain_report` work on one node, a
transaction at a time and in any order.  Nothing tells the guest that a report
has been taken.
-/

namespace Maitland

open Decimal

/-- Where the callback stands. -/
inductive ReportPc where
  | idle
  /-- `ready` was there; the references are listed next. -/
  | list
  | read (dirs : List Text)
  | nuke (r : Reading)
  | send (r : Reading)
  /-- An exception went by while `global_sem` was held, and the next acquire blocks. -/
  | dead
  deriving DecidableEq

structure HandoverState where
  /-- The calls of `malpage_xs_report` so far. -/
  calls : List GuestReport
  /-- The transactions the current call has still to make. -/
  queue : List ReportTxn
  node : ReportNode
  /-- Events of the watch on `ready` that the server has not looked at. -/
  pending : ℕ
  pc : ReportPc
  /-- The `MONITOR_REPORT`s so far. -/
  sent : List ProcessReport

inductive HandoverAct where
  | call (rep : GuestReport)
  /-- The guest's next transaction, which commits or ends with `EAGAIN`. -/
  | txn (commit : Bool)
  | event
  | list (dirs : List Text)
  | read
  | nuke (commit : Bool)
  | send

def handoverStep (s : HandoverState) : HandoverAct → Option HandoverState
  | .call rep =>
    if s.queue = [] then
      some { s with calls := s.calls ++ [rep], queue := malpageXsReport rep }
    else none
  | .txn commit =>
    match s.queue with
    | [] => none
    | t :: queue =>
      if commit then
        some { s with
          queue := queue
          node := t.apply s.node
          pending := match t with
            | .announce _ _ => s.pending + 1
            | _ => s.pending }
      else some { s with queue := queue }
  | .event =>
    if s.pc = .idle ∧ 0 < s.pending then
      some { s with
        pending := s.pending - 1
        pc := if IsReady s.node.ready then .list else .idle }
    else none
  | .list dirs =>
    if s.pc = .list then
      match s.node.grefs with
      | some grefs => if dirs.Perm grefs.keys then some { s with pc := .read dirs } else none
      -- `ls` gives None, and the loop over it raises.
      | none => some { s with pc := .dead }
    else none
  | .read =>
    match s.pc with
    | .read dirs =>
      match readReport s.node dirs with
      | some r => some { s with pc := .nuke r }
      | none => some { s with pc := .dead }
    | _ => none
  | .nuke commit =>
    match s.pc with
    | .nuke r =>
      -- The removal of `ready` is a change of it, too.
      if commit then some { s with node := .empty, pending := s.pending + 1, pc := .send r }
      else some { s with pc := .send r }
    | _ => none
  | .send =>
    match s.pc with
    | .send r => some { s with sent := s.sent ++ (packReport r).toList, pc := .idle }
    | _ => none

/-- A registered guest: the node is new, and a new watch fires once by itself. -/
def handoverStart : HandoverState := ⟨[], [], .empty, 1, .idle, []⟩

/-- The `MONITOR_REPORT` carries the call: its pid and its pairs, each reference once. -/
structure Carries (rep : GuestReport) (m : ProcessReport) : Prop where
  processId : m.processId = rep.processId
  domid : m.domid = rep.domid.setWidth 32
  length : m.pfnList.length = m.pfnListLength.toNat ∧ m.grefList.length = m.pfnListLength.toNat
  mem : ∀ p ∈ m.pfnList.zip m.grefList, p ∈ rep.pairs
  nodup : m.grefList.Nodup
  all : ∀ p ∈ rep.pairs, p.2 ∈ m.grefList
  /-- So for distinct references these are exactly the pairs of the call. -/
  exact : (rep.pairs.map Prod.snd).Nodup → (m.pfnList.zip m.grefList).Perm rep.pairs

/-- The guest is done and the server has looked at every event. -/
def HandoverState.Quiescent (s : HandoverState) : Prop :=
  s.queue = [] ∧ s.pending = 0 ∧ s.pc = .idle

/-- A call begins when no report is announced, and nothing the guest writes or the
server removes is lost to `EAGAIN`. -/
def OneAtATime (s : HandoverState) (a : HandoverAct) (_ : HandoverState) : Prop :=
  match a with
  | .call _ => s.node.ready = none
  | .txn commit | .nuke commit => commit = true
  | _ => True

instance (s : HandoverState) (a : HandoverAct) (t : HandoverState) :
    Decidable (OneAtATime s a t) :=
  match a with
  | .call _ => inferInstanceAs (Decidable (_ = _))
  | .txn _ | .nuke _ => inferInstanceAs (Decidable (_ = _))
  | .event | .list _ | .read | .send => isTrue trivial

/-- The node when the whole report is written. -/
def GuestReport.node (rep : GuestReport) : ReportNode :=
  ⟨some ['1'], some (print rep.domid.toNat), some (print rep.processId.toNat),
    some (writeGrefs ∅ rep.pairs)⟩

/-- What the server can have read of the report. -/
def ReadingOf (rep : GuestReport) (r : Reading) : Prop :=
  ∃ dirs, dirs.Perm (writeGrefs ∅ rep.pairs).keys ∧ readReport rep.node dirs = some r

theorem exists_readingOf {rep : GuestReport} {dirs : List Text}
    (h : dirs.Perm (writeGrefs ∅ rep.pairs).keys) :
    ∃ r, readReport rep.node dirs = some r ∧ ReadingOf rep r := by
  obtain ⟨ps, hps⟩ := exists_listed_of_perm h
  have hr := hps.readReport_eq rep.domid rep.processId
  exact ⟨_, hr, dirs, h, hr⟩

theorem Listed.perm_of_nodup {pairs ps : List (BitVec 64 × BitVec 32)} {dirs : List Text}
    (h : Listed pairs dirs ps) (hnodup : (pairs.map Prod.snd).Nodup) : ps.Perm pairs := by
  refine (List.perm_ext_iff_of_nodup (List.Nodup.of_map Prod.snd h.nodup)
    (List.Nodup.of_map Prod.snd hnodup)).mpr fun p => ⟨h.mem p, fun hp => ?_⟩
  obtain ⟨q, hq, he⟩ := h.all p hp
  rwa [← List.inj_on_of_nodup_map hnodup (h.mem q hq) hp he]

/-- Whatever was read of the report packs into a `MONITOR_REPORT` that carries it. -/
theorem ReadingOf.carries {rep : GuestReport} {r : Reading} (h : ReadingOf rep r) :
    ∃ m, packReport r = some m ∧ Carries rep m := by
  obtain ⟨dirs, hperm, hr⟩ := h
  obtain ⟨ps, hps⟩ := exists_listed_of_perm hperm
  rw [GuestReport.node, hps.readReport_eq, Option.some.injEq] at hr
  subst hr
  have hlt : ps.length < 2 ^ 32 := by
    calc ps.length ≤ rep.pairs.length := hps.length_le
      _ ≤ rep.pfnListLength.toNat := List.length_take_le _ _
      _ < 2 ^ 32 := rep.pfnListLength.isLt
  have hlen : (BitVec.ofNat 32 ps.length).toNat = ps.length := by
    rw [BitVec.toNat_ofNat, Nat.mod_eq_of_lt hlt]
  have hzip : (ps.map Prod.fst).zip (ps.map Prod.snd) = ps := by
    rw [List.zip_map']
    exact List.map_id ps
  refine ⟨_, packReport_pairs hlt rep.domid rep.processId, rfl, rfl, ?_, ?_, hps.nodup, ?_, ?_⟩
  · rw [hlen, List.length_map, List.length_map]
    exact ⟨rfl, rfl⟩
  · rw [hzip]
    exact hps.mem
  · intro p hp
    obtain ⟨q, hq, he⟩ := hps.all p hp
    exact he ▸ List.mem_map_of_mem hq
  · intro hnodup
    rw [hzip]
    exact hps.perm_of_nodup hnodup

-- ════════════════════════════════════════════════════════════════════════
-- The phases of a report
-- ════════════════════════════════════════════════════════════════════════

/-- The server holds no part of a node: the calls `front` have been sent, or all but
the last, which is about to be. -/
inductive ServerQuiet : List GuestReport → ReportPc → List ProcessReport → Prop where
  | idle {front sent} : List.Forall₂ Carries front sent → ServerQuiet front .idle sent
  | send {front rep r sent} : List.Forall₂ Carries front sent → ReadingOf rep r →
      ServerQuiet (front ++ [rep]) (.send r) sent

/-- The server has seen the announcement and not yet removed the report. -/
inductive ServerTakes (rep : GuestReport) : ReportPc → Prop where
  | list : ServerTakes rep .list
  | read {dirs} : dirs.Perm (writeGrefs ∅ rep.pairs).keys → ServerTakes rep (.read dirs)
  | nuke {r} : ReadingOf rep r → ServerTakes rep (.nuke r)

inductive HandoverState.Sound (s : HandoverState) : Prop where
  | quiet : s.queue = [] → s.node = .empty → ServerQuiet s.calls s.pc s.sent → Sound s
  | writing {front rep done} : s.calls = front ++ [rep] →
      malpageXsReport rep = done ++ s.queue → s.queue ≠ [] →
      s.node = done.foldl ReportTxn.apply .empty → ServerQuiet front s.pc s.sent → Sound s
  | announced {front rep} : s.calls = front ++ [rep] → s.queue = [] → s.node = rep.node →
      0 < s.pending → ServerQuiet front s.pc s.sent → Sound s
  | taken {front rep} : s.calls = front ++ [rep] → s.queue = [] → s.node = rep.node →
      List.Forall₂ Carries front s.sent → ServerTakes rep s.pc → Sound s

theorem ServerQuiet.pc_cases {front : List GuestReport} {pc : ReportPc}
    {sent : List ProcessReport} (h : ServerQuiet front pc sent) :
    pc = .idle ∨ ∃ r, pc = .send r := by
  cases h with
  | idle => exact .inl rfl
  | send => exact .inr ⟨_, rfl⟩

theorem ServerQuiet.sent_idle {front : List GuestReport} {sent : List ProcessReport}
    (h : ServerQuiet front .idle sent) : List.Forall₂ Carries front sent := by
  cases h with
  | idle h => exact h

theorem ServerQuiet.sent_send {front : List GuestReport} {r : Reading}
    {sent : List ProcessReport} (h : ServerQuiet front (.send r) sent) :
    List.Forall₂ Carries front (sent ++ (packReport r).toList) := by
  cases h with
  | send hsent hr =>
    obtain ⟨m, hm, hc⟩ := hr.carries
    rw [hm, Option.toList_some]
    exact List.rel_append hsent (.cons hc .nil)

namespace HandoverState.Sound

variable {s t : HandoverState}

theorem start : handoverStart.Sound := .quiet rfl rfl (.idle .nil)

theorem call (h : s.Sound) {rep : GuestReport} (ht : handoverStep s (.call rep) = some t)
    (hready : s.node.ready = none) : t.Sound := by
  simp only [handoverStep] at ht
  split at ht
  · next hq =>
    rw [Option.some.injEq] at ht
    subst ht
    cases h with
    | quiet _ hnode hs =>
      exact .writing rfl (List.nil_append _).symm (by simp [malpageXsReport]) hnode hs
    | writing _ _ hne => exact absurd hq hne
    | announced _ _ hnode => simp [hnode, GuestReport.node] at hready
    | taken _ _ hnode => simp [hnode, GuestReport.node] at hready
  · cases ht

theorem txn (h : s.Sound) (ht : handoverStep s (.txn true) = some t) : t.Sound := by
  simp only [handoverStep] at ht
  split at ht
  · cases ht
  · next tx queue hq =>
    rw [if_pos trivial, Option.some.injEq] at ht
    subst ht
    cases h with
    | quiet he => simp [he] at hq
    | announced _ he => simp [he] at hq
    | taken _ he => simp [he] at hq
    | @writing front rep done hcalls hrep _ hnode hs =>
      rw [hq, ← List.singleton_append, ← List.append_assoc] at hrep
      have hnode' : tx.apply s.node = (done ++ [tx]).foldl ReportTxn.apply .empty := by
        rw [List.foldl_append, ← hnode]
        rfl
      by_cases hlast : queue = []
      · -- The last transaction is the announcement.
        subst hlast
        rw [List.append_nil] at hrep
        obtain ⟨_, htx⟩ := List.append_inj' hrep rfl
        obtain rfl := List.singleton_inj.mp htx
        refine .announced hcalls rfl ?_ (Nat.succ_pos _) hs
        rw [hnode', ← hrep, malpageXsReport_apply]
        rfl
      · exact .writing hcalls hrep hlast hnode' hs

theorem event (h : s.Sound) (ht : handoverStep s .event = some t) : t.Sound := by
  simp only [handoverStep] at ht
  split at ht
  · next hc =>
    obtain ⟨hpc, hpos⟩ := hc
    rw [Option.some.injEq] at ht
    subst ht
    have unready (hr : s.node.ready = none) : ¬IsReady s.node.ready := by
      rw [hr]
      decide
    cases h with
    | quiet hq hnode hs =>
      have hr : ¬IsReady s.node.ready := unready (by rw [hnode]; rfl)
      exact .quiet hq hnode (by rw [if_neg hr, ← hpc]; exact hs)
    | writing hcalls hrep hne hnode hs =>
      have hr : ¬IsReady s.node.ready :=
        unready (by rw [hnode]; exact malpageXsReport_not_ready hrep hne)
      exact .writing hcalls hrep hne hnode (by rw [if_neg hr, ← hpc]; exact hs)
    | announced hcalls hq hnode _ hs =>
      have hr : IsReady s.node.ready := by
        rw [hnode]
        exact (by decide : IsReady (some ['1']))
      rw [hpc] at hs
      exact .taken hcalls hq hnode hs.sent_idle (by rw [if_pos hr]; exact .list)
    | taken _ _ _ _ hs =>
      rw [hpc] at hs
      cases hs
  · cases ht

theorem list (h : s.Sound) {dirs : List Text} (ht : handoverStep s (.list dirs) = some t) :
    t.Sound := by
  simp only [handoverStep] at ht
  split at ht
  · next hpc =>
    cases h with
    | quiet _ _ hs | writing _ _ _ _ hs | announced _ _ _ _ hs =>
      simpa [hpc] using hs.pc_cases
    | taken hcalls hq hnode hsent _ =>
      simp only [hnode, GuestReport.node] at ht
      split at ht
      · next hperm =>
        rw [Option.some.injEq] at ht
        subst ht
        exact .taken hcalls hq rfl hsent (.read hperm)
      · cases ht
  · cases ht

theorem read (h : s.Sound) (ht : handoverStep s .read = some t) : t.Sound := by
  simp only [handoverStep] at ht
  split at ht
  · next dirs hpc =>
    cases h with
    | quiet _ _ hs | writing _ _ _ _ hs | announced _ _ _ _ hs =>
      simpa [hpc] using hs.pc_cases
    | taken hcalls hq hnode hsent hs =>
      rw [hpc] at hs
      cases hs with
      | read hperm =>
        obtain ⟨r, hr, hof⟩ := exists_readingOf hperm
        rw [hnode, hr, Option.some.injEq] at ht
        subst ht
        exact .taken hcalls hq rfl hsent (.nuke hof)
  · cases ht

theorem nuke (h : s.Sound) (ht : handoverStep s (.nuke true) = some t) : t.Sound := by
  simp only [handoverStep] at ht
  split at ht
  · next r hpc =>
    rw [if_pos trivial, Option.some.injEq] at ht
    subst ht
    cases h with
    | quiet _ _ hs | writing _ _ _ _ hs | announced _ _ _ _ hs =>
      simpa [hpc] using hs.pc_cases
    | taken hcalls hq _ hsent hs =>
      rw [hpc] at hs
      cases hs with
      | nuke hof =>
        refine .quiet hq rfl ?_
        rw [hcalls]
        exact .send hsent hof
  · cases ht

theorem send (h : s.Sound) (ht : handoverStep s .send = some t) : t.Sound := by
  simp only [handoverStep] at ht
  split at ht
  · next r hpc =>
    rw [Option.some.injEq] at ht
    subst ht
    cases h with
    | quiet hq hnode hs =>
      rw [hpc] at hs
      exact .quiet hq hnode (.idle hs.sent_send)
    | writing hcalls hrep hne hnode hs =>
      rw [hpc] at hs
      exact .writing hcalls hrep hne hnode (.idle hs.sent_send)
    | announced hcalls hq hnode hpos hs =>
      rw [hpc] at hs
      exact .announced hcalls hq hnode hpos (.idle hs.sent_send)
    | taken _ _ _ _ hs =>
      rw [hpc] at hs
      cases hs
  · cases ht

theorem step (h : s.Sound) {a : HandoverAct} (ht : handoverStep s a = some t)
    (hc : OneAtATime s a t) : t.Sound := by
  cases a with
  | call rep => exact h.call ht hc
  | txn commit =>
    obtain rfl : commit = true := hc
    exact h.txn ht
  | event => exact h.event ht
  | list dirs => exact h.list ht
  | read => exact h.read ht
  | nuke commit =>
    obtain rfl : commit = true := hc
    exact h.nuke ht
  | send => exact h.send ht

/-- The first calls have been sent, in order and once each. -/
theorem sent_prefix (h : s.Sound) :
    ∃ front, front <+: s.calls ∧ List.Forall₂ Carries front s.sent := by
  have quiet {front : List GuestReport} (hs : ServerQuiet front s.pc s.sent) :
      ∃ front', front' <+: front ∧ List.Forall₂ Carries front' s.sent := by
    generalize s.pc = pc at hs
    cases hs with
    | idle hsent => exact ⟨front, List.prefix_rfl, hsent⟩
    | send hsent _ => exact ⟨_, List.prefix_append _ _, hsent⟩
  cases h with
  | quiet _ _ hs => exact quiet hs
  | writing hcalls _ _ _ hs =>
    obtain ⟨front', hpre, hsent⟩ := quiet hs
    exact ⟨front', hcalls ▸ hpre.trans (List.prefix_append _ _), hsent⟩
  | announced hcalls _ _ _ hs =>
    obtain ⟨front', hpre, hsent⟩ := quiet hs
    exact ⟨front', hcalls ▸ hpre.trans (List.prefix_append _ _), hsent⟩
  | taken hcalls _ _ hsent _ => exact ⟨_, hcalls ▸ List.prefix_append _ _, hsent⟩

/-- With nothing left to do, all of them have. -/
theorem sent_all (h : s.Sound) (hquiet : s.Quiescent) : List.Forall₂ Carries s.calls s.sent := by
  obtain ⟨hqueue, hpending, hpc⟩ := hquiet
  cases h with
  | quiet _ _ hs =>
    rw [hpc] at hs
    exact hs.sent_idle
  | writing _ _ hne => exact absurd hqueue hne
  | announced _ _ _ hpos => exact absurd hpending (Nat.ne_of_gt hpos)
  | taken _ _ _ _ hs =>
    rw [hpc] at hs
    cases hs

end HandoverState.Sound

/-- As long as a call begins only when no report is announced and no transaction is
lost to `EAGAIN`, the `MONITOR_REPORT`s carry the first calls, in order and one each,
and all of them once the guest is done and every event was looked at. -/
theorem reports_handed_over (as : List HandoverAct)
    (hc : Lts.Along handoverStep OneAtATime handoverStart as) (s : HandoverState)
    (hr : Lts.run handoverStep handoverStart as = some s) :
    (∃ front, front <+: s.calls ∧ List.Forall₂ Carries front s.sent) ∧
      (s.Quiescent → List.Forall₂ Carries s.calls s.sent) := by
  have h : s.Sound := Lts.Along.invariant (fun _ _ _ h ht hc => h.step ht hc) hc hr .start
  exact ⟨h.sent_prefix, h.sent_all⟩

/-- A report of domain 1 with one page. -/
def onePage (processId : BitVec 32) (pfn : BitVec 64) (gref : BitVec 32) : GuestReport :=
  ⟨processId, 1, [pfn], [gref], 1⟩

/-- One report of process 7, and the two events left over. -/
def oneReport : List HandoverAct :=
  [.call (onePage 7 100 9), .txn true, .txn true, .txn true, .event, .list [print 9], .read,
    .nuke true, .send, .event, .event]

theorem reports_handed_over_oneReport :
    Lts.Along handoverStep OneAtATime handoverStart oneReport ∧
      ∃ s, Lts.run handoverStep handoverStart oneReport = some s ∧ s.Quiescent ∧
        s.sent.length = 1 ∧ List.Forall₂ Carries s.calls s.sent :=
  ⟨by decide, _, rfl, ⟨rfl, rfl, rfl⟩, rfl,
    (reports_handed_over oneReport (by decide) _ rfl).2 ⟨rfl, rfl, rfl⟩⟩

/-- The page of a second report is written before the server lists the first. -/
def mixedReports : List HandoverAct :=
  [.call (onePage 7 100 9), .txn true, .txn true, .txn true, .call (onePage 8 200 10), .txn true,
    .txn true, .event, .list [print 9, print 10], .read, .nuke true, .send]

/-- A second report is written between the reading and the clean-up of the first. -/
def wipedReport : List HandoverAct :=
  [.call (onePage 7 100 9), .txn true, .txn true, .txn true, .event, .list [print 9], .read,
    .call (onePage 8 200 10), .txn true, .txn true, .txn true, .nuke true, .send, .event, .event,
    .event]

/-- Without `EAGAIN` anywhere, a `MONITOR_REPORT` that carries no call, and a call that
is never sent. -/
theorem reports_mixed_and_wiped :
    (∃ s, Lts.run handoverStep handoverStart mixedReports = some s ∧
      ∃ m ∈ s.sent, ∀ rep ∈ s.calls, ¬Carries rep m) ∧
    ∃ s, Lts.run handoverStep handoverStart wipedReport = some s ∧ s.Quiescent ∧
      ¬List.Forall₂ Carries s.calls s.sent := by
  constructor
  · refine ⟨_, rfl, ⟨7, 1, 0, [100, 200], [9, 10], 2⟩, by decide, ?_⟩
    intro rep hrep hc
    have hcalls : rep = onePage 7 100 9 ∨ rep = onePage 8 200 10 := by
      simpa [handoverStart] using hrep
    rcases hcalls with rfl | rfl
    · exact absurd (hc.mem (200, 10) (by decide)) (by decide)
    · exact absurd hc.processId (by decide)
  · refine ⟨_, rfl, ⟨rfl, rfl, rfl⟩, fun h => ?_⟩
    exact absurd h.length_eq (by decide)

end Maitland
