import Maitland.Malpage.Report
import Maitland.Server.Report

/-!
# Reading a written report

What the server gets back from a node that holds the whole of one report.
-/

namespace Maitland

open Decimal

/-- Each listed reference with the frame that is read for it. -/
theorem exists_listed {pairs : List (BitVec 64 × BitVec 32)} {dirs : List Text}
    (h : ∀ key ∈ dirs, key ∈ writeGrefs ∅ pairs) :
    ∃ ps : List (BitVec 64 × BitVec 32),
      dirs = ps.map (fun p => print p.2.toNat) ∧ ∀ p ∈ ps, p ∈ pairs ∧
      (writeGrefs ∅ pairs).lookup (print p.2.toNat) = some (print p.1.toNat) := by
  induction dirs with
  | nil => exact ⟨[], rfl, by simp⟩
  | cons key dirs ih =>
    obtain ⟨ps, rfl, hps⟩ := ih fun k hk => h k (List.mem_cons_of_mem _ hk)
    obtain ⟨value, hvalue⟩ := Option.isSome_iff_exists.mp
      (AList.lookup_isSome.mpr (h key List.mem_cons_self))
    obtain ⟨p, hp, rfl, rfl⟩ := lookup_writeGrefs (AList.notMem_empty key) hvalue
    exact ⟨p :: ps, rfl, List.forall_mem_cons.mpr ⟨⟨hp, hvalue⟩, hps⟩⟩

theorem mapM_readGref {dir : Directory} {ps : List (BitVec 64 × BitVec 32)}
    (h : ∀ p ∈ ps, dir.lookup (print p.2.toNat) = some (print p.1.toNat)) :
    (ps.map fun p => print p.2.toNat).mapM (readGref (some dir)) =
      some (ps.map fun p => ((p.2.toNat : ℤ), (p.1.toNat : ℤ))) := by
  induction ps with
  | nil => rfl
  | cons p ps ih =>
    obtain ⟨hp, hps⟩ := List.forall_mem_cons.mp h
    simp [readGref, hp, ih hps]

theorem mapM_pack {α β : Type*} {w : ℕ} (g : α → β) (h : β → ℤ) (f : α → BitVec w)
    (ps : List α) (hf : ∀ p, h (g p) = ((f p).toNat : ℤ)) :
    (ps.map g).mapM (fun q => pack w (h q)) = some (ps.map f) := by
  induction ps with
  | nil => rfl
  | cons p ps ih => simp [hf, ih]

/-- What comes out of the packing of references and frames that fit. -/
theorem packReport_pairs {ps : List (BitVec 64 × BitVec 32)} (hlen : ps.length < 2 ^ 32)
    (domid : BitVec 16) (processId : BitVec 32) :
    packReport ⟨ps.map fun p => ((p.2.toNat : ℤ), (p.1.toNat : ℤ)), domid.toNat,
        processId.toNat⟩ =
      some ⟨processId, domid.setWidth 32, 0, ps.map Prod.fst, ps.map Prod.snd,
        BitVec.ofNat 32 ps.length⟩ := by
  have hgref : (ps.map fun p => ((p.2.toNat : ℤ), (p.1.toNat : ℤ))).mapM
      (fun p => pack 32 p.1) = some (ps.map Prod.snd) :=
    mapM_pack _ Prod.fst Prod.snd ps fun _ => rfl
  have hpfn : (ps.map fun p => ((p.2.toNat : ℤ), (p.1.toNat : ℤ))).mapM
      (fun p => pack 64 p.2) = some (ps.map Prod.fst) :=
    mapM_pack _ Prod.snd Prod.fst ps fun _ => rfl
  have hcount : pack 32 (ps.length : ℤ) = some (BitVec.ofNat 32 ps.length) := by
    rw [pack, if_pos ⟨Int.natCast_nonneg _, by exact_mod_cast hlen⟩, BitVec.ofInt_natCast]
  simp [packReport, hgref, hpfn, hcount, pack_domid]

/-- What a listing of a written report gives back: pairs of the report, each reference
once and every reference that occurs. -/
structure Listed (pairs : List (BitVec 64 × BitVec 32)) (dirs : List Text)
    (ps : List (BitVec 64 × BitVec 32)) : Prop where
  dirs : dirs = ps.map fun p => print p.2.toNat
  mem : ∀ p ∈ ps, p ∈ pairs
  lookup : ∀ p ∈ ps, (writeGrefs ∅ pairs).lookup (print p.2.toNat) = some (print p.1.toNat)
  nodup : (ps.map Prod.snd).Nodup
  all : ∀ p ∈ pairs, ∃ q ∈ ps, q.2 = p.2

theorem exists_listed_of_perm {pairs : List (BitVec 64 × BitVec 32)} {dirs : List Text}
    (h : dirs.Perm (writeGrefs ∅ pairs).keys) : ∃ ps, Listed pairs dirs ps := by
  obtain ⟨ps, hdirs, hps⟩ := exists_listed fun key hk => AList.mem_keys.mpr (h.mem_iff.mp hk)
  refine ⟨ps, hdirs, fun p hp => (hps p hp).1, fun p hp => (hps p hp).2, ?_, ?_⟩
  · have hn : dirs.Nodup := h.nodup_iff.mpr (AList.keys_nodup _)
    rw [hdirs] at hn
    refine List.Nodup.of_map (fun gref : BitVec 32 => print gref.toNat) ?_
    rwa [List.map_map]
  · intro p hp
    have hmem : print p.2.toNat ∈ dirs :=
      h.mem_iff.mpr (AList.mem_keys.mp (mem_writeGrefs.mpr (.inr ⟨p, hp, rfl⟩)))
    rw [hdirs] at hmem
    obtain ⟨q, hq, he⟩ := List.mem_map.mp hmem
    exact ⟨q, hq, print_toNat_inj.mp he⟩

namespace Listed

variable {pairs ps : List (BitVec 64 × BitVec 32)} {dirs : List Text}

theorem length_le (h : Listed pairs dirs ps) : ps.length ≤ pairs.length :=
  (List.subperm_of_subset (List.Nodup.of_map Prod.snd h.nodup) h.mem).length_le

theorem readReport_eq (h : Listed pairs dirs ps) (domid : BitVec 16) (processId : BitVec 32) :
    readReport ⟨some ['1'], some (print domid.toNat), some (print processId.toNat),
        some (writeGrefs ∅ pairs)⟩ dirs =
      some ⟨ps.map fun p => ((p.2.toNat : ℤ), (p.1.toNat : ℤ)), domid.toNat, processId.toNat⟩ := by
  rw [readReport, h.dirs, mapM_readGref h.lookup]
  simp

end Listed

end Maitland
