import Mathlib.Data.List.Nodup
import Maitland.Library.Run

/-!
# First-in first-out tables

Entries come in at the back, each unless its key is there already, and go out at
the front.  The log of what came and went says which entries are there.
-/

namespace Fifo

variable {ε κ : Type*} (key : ε → κ)

/-- No two entries have the same key. -/
def Unique (t : List ε) : Prop := (t.map key).Nodup

inductive Event (ε : Type*) where
  | inserted (e : ε)
  | evicted (e : ε)

def insertions : List (Event ε) → List ε :=
  List.filterMap fun
    | .inserted e => some e
    | .evicted _ => none

def evictions : List (Event ε) → List ε :=
  List.filterMap fun
    | .inserted _ => none
    | .evicted e => some e

/-- The entry was inserted and its key has not been evicted since. -/
def Present (log : List (Event ε)) (e : ε) : Prop :=
  ∃ before after, log = before ++ .inserted e :: after ∧
    ∀ f, .evicted f ∈ after → key f ≠ key e

/-- The table a log leaves. -/
structure Logged (log : List (Event ε)) (t : List ε) : Prop where
  unique : Unique key t
  /-- What came in is what went out, in the same order, and then the table. -/
  order : insertions log = evictions log ++ t
  mem : ∀ e, e ∈ t ↔ Present key log e

variable {key}

theorem Unique.eq_of_key {t : List ε} (h : Unique key t) {e f : ε} (he : e ∈ t) (hf : f ∈ t)
    (hk : key e = key f) : e = f :=
  List.inj_on_of_nodup_map h he hf hk

theorem present_inserted {log : List (Event ε)} {e f : ε} :
    Present key (log ++ [.inserted f]) e ↔ Present key log e ∨ e = f := by
  constructor
  · rintro ⟨before, after, hlog, hout⟩
    rcases Lts.snoc_eq_split_iff.mp hlog with ⟨hlast, _, _⟩ | ⟨after, rfl, rfl⟩
    · cases hlast
      exact .inr rfl
    · exact .inl ⟨before, after, rfl, fun g hg => hout g (by simp [hg])⟩
  · rintro (⟨before, after, rfl, hout⟩ | rfl)
    · refine ⟨before, after ++ [.inserted f], by simp, fun g hg => hout g ?_⟩
      simpa using hg
    · exact ⟨log, [], rfl, fun g hg => by cases hg⟩

theorem present_evicted {log : List (Event ε)} {e f : ε} :
    Present key (log ++ [.evicted f]) e ↔ Present key log e ∧ key f ≠ key e := by
  constructor
  · rintro ⟨before, after, hlog, hout⟩
    rcases Lts.snoc_eq_split_iff.mp hlog with ⟨hlast, _, _⟩ | ⟨after, rfl, rfl⟩
    · cases hlast
    · exact ⟨⟨before, after, rfl, fun g hg => hout g (by simp [hg])⟩, hout f (by simp)⟩
  · rintro ⟨⟨before, after, rfl, hout⟩, hf⟩
    refine ⟨before, after ++ [.evicted f], by simp, fun g hg => ?_⟩
    rcases List.mem_append.mp hg with hg | hg
    · exact hout g hg
    · cases List.mem_singleton.mp hg
      exact hf

namespace Logged

variable {log : List (Event ε)} {t : List ε}

theorem nil : Logged key [] [] where
  unique := List.nodup_nil
  order := rfl
  mem e := by simp [Present]

/-- A new key comes in at the back. -/
theorem insert (h : Logged key log t) {e : ε} (hnew : ∀ f ∈ t, key f ≠ key e) :
    Logged key (log ++ [.inserted e]) (t ++ [e]) where
  unique := by
    rw [Unique, List.map_append, List.map_singleton]
    refine h.unique.append (List.nodup_singleton _) ?_
    intro k hk he
    obtain ⟨f, hf, rfl⟩ := List.mem_map.mp hk
    exact hnew f hf (List.mem_singleton.mp he)
  order := by
    have := h.order
    simp_all [insertions, evictions]
  mem f := by
    rw [present_inserted, List.mem_append, List.mem_singleton, h.mem]

/-- The oldest entry goes out at the front. -/
theorem evict {e : ε} (h : Logged key log (e :: t)) : Logged key (log ++ [.evicted e]) t where
  unique := (List.nodup_cons.mp h.unique).2
  order := by
    have := h.order
    simp_all [insertions, evictions]
  mem f := by
    have hout : key e ∉ t.map key := (List.nodup_cons.mp h.unique).1
    rw [present_evicted, ← h.mem, List.mem_cons]
    constructor
    · intro hf
      exact ⟨.inr hf, fun hk => hout (hk ▸ List.mem_map_of_mem hf)⟩
    · rintro ⟨rfl | hf, hk⟩
      · exact absurd rfl hk
      · exact hf

end Logged

end Fifo
