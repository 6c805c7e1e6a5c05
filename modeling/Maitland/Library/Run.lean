import Mathlib.Data.List.Basic

/-!
# Runs of machines with refusing steps

`run step s as` takes the labels `as` one after the other from `s` and is `none`
as soon as one of them is refused.  `Along` states a property of every step that
a label sequence really takes.
-/

namespace Lts

variable {σ α : Type*} (step : σ → α → Option σ)

def run (s : σ) : List α → Option σ
  | [] => some s
  | a :: as => (step s a).bind fun t => run t as

@[simp] theorem run_nil (s : σ) : run step s [] = some s := rfl

theorem run_cons (s : σ) (a : α) (as : List α) :
    run step s (a :: as) = (step s a).bind fun t => run step t as := rfl

theorem run_cons_eq_some {s t : σ} {a : α} {as : List α} :
    run step s (a :: as) = some t ↔ ∃ u, step s a = some u ∧ run step u as = some t := by
  simp only [run_cons, Option.bind_eq_some_iff]

theorem run_append (s : σ) (as bs : List α) :
    run step s (as ++ bs) = (run step s as).bind fun t => run step t bs := by
  induction as generalizing s with
  | nil => rfl
  | cons a as ih =>
    simp only [List.cons_append, run_cons]
    cases step s a with
    | none => rfl
    | some u => exact ih u

theorem run_append_eq_some {s t : σ} {as bs : List α} :
    run step s (as ++ bs) = some t ↔ ∃ u, run step s as = some u ∧ run step u bs = some t := by
  simp only [run_append, Option.bind_eq_some_iff]

/-- Every step taken by the labels satisfies `P` of the state before it, the
label and the state after it. -/
def Along (P : σ → α → σ → Prop) : σ → List α → Prop
  | _, [] => True
  | s, a :: as => ∀ t, step s a = some t → P s a t ∧ Along P t as

instance Along.decidable (P : σ → α → σ → Prop) [∀ s a t, Decidable (P s a t)] :
    ∀ (s : σ) (as : List α), Decidable (Along step P s as)
  | _, [] => isTrue trivial
  | s, a :: as =>
    match h : step s a with
    | none => isTrue fun t ht => by rw [h] at ht; cases ht
    | some u =>
      have := Along.decidable P u as
      if hu : P s a u ∧ Along step P u as then
        isTrue fun t ht => by rw [h] at ht; cases ht; exact hu
      else isFalse fun hall => hu (hall u h)

variable {step}

theorem Along.of_forall {P : σ → α → σ → Prop} (h : ∀ s a t, step s a = some t → P s a t)
    (s : σ) (as : List α) : Along step P s as := by
  induction as generalizing s with
  | nil => trivial
  | cons a as ih => exact fun t ht => ⟨h s a t ht, ih t⟩

theorem Along.of_mem {P : σ → α → σ → Prop} {as : List α} (h : ∀ a ∈ as, ∀ s t, P s a t) (s : σ) :
    Along step P s as := by
  induction as generalizing s with
  | nil => trivial
  | cons a as ih =>
    exact fun t _ => ⟨h a (by simp) s t, ih (fun b hb => h b (List.mem_cons_of_mem _ hb)) t⟩

/-- What every step that meets `C` preserves holds wherever a run of such steps ends. -/
theorem Along.invariant {C : σ → α → σ → Prop} {Inv : σ → Prop}
    (preserved : ∀ s a t, Inv s → step s a = some t → C s a t → Inv t)
    {s t : σ} {as : List α} (hc : Along step C s as) (hr : run step s as = some t)
    (h : Inv s) : Inv t := by
  induction as generalizing s with
  | nil =>
    cases hr
    exact h
  | cons a as ih =>
    obtain ⟨u, hu, hr⟩ := (run_cons_eq_some step).mp hr
    obtain ⟨ha, hc⟩ := hc u hu
    exact ih hc hr (preserved s a u h hu ha)

/-- A step that meets `C` where the invariant holds is as `P` says, and keeps the
invariant: then so is every step of a run of such steps. -/
theorem Along.of_invariant {C P : σ → α → σ → Prop} {Inv : σ → Prop}
    (steps : ∀ s a t, Inv s → step s a = some t → C s a t → P s a t ∧ Inv t)
    {s : σ} {as : List α} (h : Inv s) (hc : Along step C s as) : Along step P s as := by
  induction as generalizing s with
  | nil => trivial
  | cons a as ih =>
    intro t ht
    obtain ⟨ha, hc⟩ := hc t ht
    obtain ⟨hp, hi⟩ := steps s a t h ht ha
    exact ⟨hp, ih hi hc⟩

theorem Along.imp {C P : σ → α → σ → Prop}
    (himp : ∀ s a t, step s a = some t → C s a t → P s a t)
    {s : σ} {as : List α} (hc : Along step C s as) : Along step P s as := by
  induction as generalizing s with
  | nil => trivial
  | cons a as ih => exact fun t ht => ⟨himp s a t ht (hc t ht).1, ih (hc t ht).2⟩

/-- The unconditional rule: a property of the start that every step preserves. -/
theorem invariant {Inv : σ → Prop}
    (preserved : ∀ s a t, Inv s → step s a = some t → Inv t)
    {s t : σ} {as : List α} (hr : run step s as = some t) (h : Inv s) : Inv t :=
  Along.invariant (C := fun _ _ _ => True) (fun s a t hs ht _ => preserved s a t hs ht)
    (Along.of_forall (fun _ _ _ _ => trivial) s as) hr h

/-- A relation between the labels taken so far and the state, which every step extends. -/
theorem run_history (Inv : List α → σ → Prop)
    (preserved : ∀ as s a t, Inv as s → step s a = some t → Inv (as ++ [a]) t)
    {s t : σ} {as : List α} (hr : run step s as = some t) (h : Inv [] s) : Inv as t := by
  suffices hgen : ∀ (pre : List α) (s : σ), Inv pre s → run step s as = some t →
      Inv (pre ++ as) t from hgen [] s h hr
  clear hr h s
  induction as with
  | nil =>
    rintro pre s h ⟨⟩
    rwa [List.append_nil]
  | cons a as ih =>
    intro pre s h hr
    obtain ⟨u, hu, hr⟩ := (run_cons_eq_some step).mp hr
    simpa using ih (pre ++ [a]) u (preserved pre s a u h hu) hr

/-- Splitting a history with one more label at a label. -/
theorem snoc_eq_split_iff {h before after : List α} {e x : α} :
    h ++ [e] = before ++ x :: after ↔
      (e = x ∧ before = h ∧ after = []) ∨
        ∃ after', after = after' ++ [e] ∧ h = before ++ x :: after' := by
  constructor
  · intro he
    rcases List.eq_nil_or_concat after with rfl | ⟨after', e', rfl⟩
    · obtain ⟨rfl, hs⟩ := List.append_inj' he rfl
      exact .inl ⟨List.singleton_inj.mp hs, rfl, rfl⟩
    · rw [List.concat_eq_append] at he ⊢
      rw [← List.cons_append, ← List.append_assoc] at he
      obtain ⟨rfl, hs⟩ := List.append_inj' he rfl
      obtain rfl := List.singleton_inj.mp hs
      exact .inr ⟨after', rfl, rfl⟩
  · rintro (⟨rfl, rfl, rfl⟩ | ⟨after', rfl, rfl⟩)
    · rfl
    · simp

/-- As long as the invariant holds a step is as it should be exactly when it
meets `C`, and then it keeps the invariant.  So a run is as it should be at every
step exactly when every step meets `C`. -/
theorem along_iff {P C : σ → α → σ → Prop} {Inv : σ → Prop}
    (exact : ∀ s a t, Inv s → step s a = some t → (P s a t ↔ C s a t))
    (preserved : ∀ s a t, Inv s → step s a = some t → C s a t → Inv t)
    {s : σ} (h : Inv s) (as : List α) : Along step P s as ↔ Along step C s as := by
  induction as generalizing s with
  | nil => exact Iff.rfl
  | cons a as ih =>
    refine forall_congr' fun t => forall_congr' fun ht => ?_
    constructor
    · rintro ⟨hp, hrest⟩
      have hc := (exact s a t h ht).mp hp
      exact ⟨hc, (ih (preserved s a t h ht hc)).mp hrest⟩
    · rintro ⟨hc, hrest⟩
      exact ⟨(exact s a t h ht).mpr hc, (ih (preserved s a t h ht hc)).mpr hrest⟩

theorem forall_mem_set {l : List α} {Q : α → Prop} (h : ∀ x ∈ l, Q x) {y : α} (hy : Q y) (i : ℕ) :
    ∀ x ∈ l.set i y, Q x := by
  intro x hx
  rcases List.mem_or_eq_of_mem_set hx with hx | rfl
  · exact h x hx
  · exact hy

/-- The number of processes at the places `p` when one of them moves. -/
theorem countP_move {l : List α} {i : ℕ} {x : α} (h : l[i]? = some x) (p : α → Bool) (y : α) :
    (l.set i y).countP p + (p x).toNat = l.countP p + (p y).toNat := by
  obtain ⟨hlt, rfl⟩ := List.getElem?_eq_some_iff.mp h
  have hpos : p l[i] = true → 0 < l.countP p := fun hp =>
    List.countP_pos_iff.mpr ⟨l[i], List.getElem_mem hlt, hp⟩
  have hite : ∀ b : Bool, (if b = true then 1 else 0) = b.toNat := by decide
  rw [List.countP_set hlt, hite, hite]
  cases hp : p l[i] with
  | false => simp
  | true =>
    have := hpos hp
    rw [Bool.toNat_true]
    omega

end Lts
