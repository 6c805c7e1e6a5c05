import Maitland.Library.Run

/-!
# Two runs that differ in some labels only

`own` marks the labels of one party.  When its labels never change what an
observer sees, and the others change it the same way wherever it is the same, two
runs with the same other labels look the same in the end.
-/

namespace Lts

variable {σ α β : Type*} {step : σ → α → Option σ} {C : σ → α → σ → Prop}

theorem Along.append_right {s t : σ} {as bs : List α} (h : Along step C s (as ++ bs))
    (hr : run step s as = some t) : Along step C t bs := by
  induction as generalizing s with
  | nil =>
    cases hr
    exact h
  | cons a as ih =>
    obtain ⟨u, hu, hr⟩ := (run_cons_eq_some step).mp hr
    exact ih (h u hu).2 hr

theorem Along.append_left {s : σ} {as bs : List α} (h : Along step C s (as ++ bs)) :
    Along step C s as := by
  induction as generalizing s with
  | nil => trivial
  | cons a as ih => exact fun t ht => ⟨(h t ht).1, ih (h t ht).2⟩

/-- The labels of the party alone leave the view as it is. -/
theorem view_of_own {v : σ → β} {own : α → Prop}
    (quiet : ∀ s a t, own a → step s a = some t → C s a t → v t = v s)
    {s t : σ} {as : List α} (hown : ∀ a ∈ as, own a) (hc : Along step C s as)
    (hr : run step s as = some t) : v t = v s := by
  induction as generalizing s with
  | nil =>
    cases hr
    rfl
  | cons a as ih =>
    obtain ⟨u, hu, hr⟩ := (run_cons_eq_some step).mp hr
    obtain ⟨ha, hc⟩ := hc u hu
    rw [ih (fun b hb => hown b (List.mem_cons_of_mem _ hb)) hc hr]
    exact quiet s a u (hown a List.mem_cons_self) hu ha

theorem same_view (v : σ → β) (own : α → Prop) [DecidablePred own]
    (quiet : ∀ s a t, own a → step s a = some t → C s a t → v t = v s)
    (same : ∀ s t a s' t', ¬own a → v s = v t → step s a = some s' → step t a = some t' →
      v s' = v t')
    {s t s' t' : σ} {as bs : List α} (has : Along step C s as) (hbs : Along step C t bs)
    (hs : run step s as = some s') (ht : run step t bs = some t')
    (hab : as.filter (fun a => ¬own a) = bs.filter fun a => ¬own a) (h : v s = v t) :
    v s' = v t' := by
  induction as generalizing s t bs with
  | nil =>
    cases hs
    have hown : ∀ b ∈ bs, own b := by
      simpa using (List.filter_eq_nil_iff.mp hab.symm)
    rw [view_of_own quiet hown hbs ht, h]
  | cons a as ih =>
    obtain ⟨u, hu, hs⟩ := (run_cons_eq_some step).mp hs
    obtain ⟨hca, has⟩ := has u hu
    by_cases ha : own a
    · rw [List.filter_cons_of_neg (by simpa using ha)] at hab
      exact ih has hbs hs ht hab ((quiet s a u ha hu hca).trans h)
    · -- The other run gets to the same label after some of the party's own.
      rw [List.filter_cons_of_pos (by simpa using ha)] at hab
      obtain ⟨pre, post, rfl, hpre, _, hpost⟩ := List.filter_eq_cons_iff.mp hab.symm
      obtain ⟨w, hw, ht⟩ := (run_append_eq_some step).mp ht
      obtain ⟨x, hx, ht⟩ := (run_cons_eq_some step).mp ht
      have hvw : v w = v t :=
        view_of_own quiet (fun b hb => by simpa using hpre b hb) hbs.append_left hw
      have hpost' := ((hbs.append_right hw) x hx).2
      exact ih has hpost' hs ht hpost.symm (same s w a u x ha (h.trans hvw.symm) hu hx)

end Lts
