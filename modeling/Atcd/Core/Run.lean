import Mathlib
/-!
# Runs of a labelled step function

A component is a state, labels for its operations and a partial step function:
`none` when the operation is not possible in the state. A run is a list of
labels. An invariant that the start satisfies and every step keeps holds at the
end of every run (`run_inv`); the form with a step condition (`run_inv_of`) is
for components that keep their invariant only as long as the condition is met.
-/
namespace Atcd.Core

variable {S L : Type*} (step : S → L → Option S)

/-- The state after the operations, if all of them are possible. -/
def run : S → List L → Option S
  | s, [] => some s
  | s, l :: ls => (step s l).bind fun s => run s ls

@[simp] theorem run_nil (s : S) : run step s [] = some s := rfl

theorem run_cons (s : S) (l : L) (ls : List L) :
    run step s (l :: ls) = (step s l).bind fun s => run step s ls := rfl

variable {step}

variable {ls ms : List L} {Inv : S → Prop} {P Q : S → L → Prop}

theorem run_cons_some {s s' : S} {l : L} (h : run step s (l :: ls) = some s') :
    ∃ t, step s l = some t ∧ run step t ls = some s' := by
  exact Option.bind_eq_some_iff.mp h

theorem run_append {s t u : S} (h : run step s ls = some t)
    (g : run step t ms = some u) : run step s (ls ++ ms) = some u := by
  induction ls generalizing s with
  | nil => cases h; exact g
  | cons l ls ih =>
    obtain ⟨r, hr, hrun⟩ := run_cons_some h
    rw [List.cons_append, run_cons, hr]
    exact ih hrun

/-- **Run rule.** -/
theorem run_inv (hstep : ∀ s l s', Inv s → step s l = some s' → Inv s') {s s' : S}
    {ls : List L} (hs : Inv s) (h : run step s ls = some s') : Inv s' := by
  induction ls generalizing s with
  | nil => cases h; exact hs
  | cons l ls ih =>
    obtain ⟨t, ht, hrun⟩ := run_cons_some h
    exact ih (hstep s l t hs ht) hrun

/-- Every step of the run is taken in a state that meets the condition. -/
def AllSteps (step : S → L → Option S) (P : S → L → Prop) : S → List L → Prop
  | _, [] => True
  | s, l :: ls => P s l ∧ ∀ t, step s l = some t → AllSteps step P t ls

instance decidableAllSteps {P : S → L → Prop} [∀ s l, Decidable (P s l)] :
    ∀ s ls, Decidable (AllSteps step P s ls)
  | _, [] => .isTrue trivial
  | s, l :: ls =>
    have : ∀ t, Decidable (AllSteps step P t ls) := fun t => decidableAllSteps t ls
    inferInstanceAs (Decidable (P s l ∧ ∀ t ∈ step s l, AllSteps step P t ls))

theorem allSteps_of_forall {P : L → Prop} {s : S} (h : ∀ l ∈ ls, P l) :
    AllSteps step (fun _ l => P l) s ls := by
  induction ls generalizing s with
  | nil => trivial
  | cons l ls ih =>
    refine ⟨h l List.mem_cons_self, fun t _ => ?_⟩
    exact ih fun m hm => h m (List.mem_cons_of_mem _ hm)

theorem AllSteps.mono {s : S} (h : AllSteps step P s ls)
    (hPQ : ∀ s l, P s l → Q s l) : AllSteps step Q s ls := by
  induction ls generalizing s with
  | nil => trivial
  | cons l ls ih => exact ⟨hPQ s l h.1, fun t ht => ih (h.2 t ht)⟩

theorem AllSteps.and {s : S} (hP : AllSteps step P s ls)
    (hQ : AllSteps step Q s ls) : AllSteps step (fun s l => P s l ∧ Q s l) s ls := by
  induction ls generalizing s with
  | nil => trivial
  | cons l ls ih => exact ⟨⟨hP.1, hQ.1⟩, fun t ht => ih (hP.2 t ht) (hQ.2 t ht)⟩

theorem AllSteps.at {s t : S} {l : L}
    (h : AllSteps step P s (ls ++ l :: ms)) (hrun : run step s ls = some t) : P t l := by
  induction ls generalizing s with
  | nil =>
    cases hrun
    exact h.1
  | cons k ls ih =>
    obtain ⟨u, hu, hrun⟩ := run_cons_some hrun
    exact ih (h.2 u hu) hrun

/-- **Run rule** for runs whose steps meet a condition. -/
theorem run_inv_of
    (hstep : ∀ s l s', Inv s → P s l → step s l = some s' → Inv s') {s s' : S} {ls : List L}
    (hs : Inv s) (hP : AllSteps step P s ls) (h : run step s ls = some s') : Inv s' := by
  induction ls generalizing s with
  | nil => cases h; exact hs
  | cons l ls ih =>
    obtain ⟨t, ht, hrun⟩ := run_cons_some h
    exact ih (hstep s l t hs hP.1 ht) (hP.2 t ht) hrun

/-- What holds of every state that a run reaches, as a condition on its steps. -/
theorem reached_iff {P : S → Prop} {s : S} :
    (∀ pre t, pre <+: ls → run step s pre = some t → P t) ↔
      P s ∧ AllSteps step (fun s l => ∀ t, step s l = some t → P t) s ls := by
  induction ls generalizing s with
  | nil =>
    constructor
    · intro h
      exact ⟨h [] s (List.prefix_refl []) rfl, trivial⟩
    · rintro ⟨hs, -⟩ pre t hpre hrun
      rw [List.prefix_nil.mp hpre] at hrun
      cases hrun
      exact hs
  | cons l ls ih =>
    constructor
    · intro h
      refine ⟨h [] s (List.nil_prefix) rfl, ?_, ?_⟩
      · intro t ht
        refine h [l] t ⟨ls, rfl⟩ ?_
        rw [run_cons, ht]
        rfl
      · intro t ht
        refine (ih.mp fun pre u hpre hrun => ?_).2
        refine h (l :: pre) u (List.cons_prefix_cons.mpr ⟨rfl, hpre⟩) ?_
        rw [run_cons, ht]
        exact hrun
    · rintro ⟨hs, hl, hrest⟩ pre t hpre hrun
      cases pre with
      | nil =>
        cases hrun
        exact hs
      | cons m pre =>
        obtain ⟨rfl, hrestpre⟩ := List.cons_prefix_cons.mp hpre
        obtain ⟨u, hu, hrun⟩ := run_cons_some hrun
        exact ih.mpr ⟨hl u hu, hrest u hu⟩ pre t hrestpre hrun

/-- Two conditions that agree on the states of the invariant are met by the same
runs. -/
theorem allSteps_congr (hPQ : ∀ s l, Inv s → (P s l ↔ Q s l))
    (hstep : ∀ s l s', Inv s → Q s l → step s l = some s' → Inv s') {s : S} {ls : List L}
    (hs : Inv s) : AllSteps step P s ls ↔ AllSteps step Q s ls := by
  induction ls generalizing s with
  | nil => exact Iff.rfl
  | cons l ls ih =>
    constructor
    · rintro ⟨hP, hrest⟩
      have hQ := (hPQ s l hs).mp hP
      exact ⟨hQ, fun t ht => (ih (hstep s l t hs hQ ht)).mp (hrest t ht)⟩
    · rintro ⟨hQ, hrest⟩
      exact ⟨(hPQ s l hs).mpr hQ, fun t ht => (ih (hstep s l t hs hQ ht)).mpr (hrest t ht)⟩

/-- **Run rule** for components that can take every step that meets the condition. -/
theorem run_total_of
    (hstep : ∀ s l, Inv s → P s l → ∃ t, step s l = some t ∧ Inv t) {s : S} {ls : List L}
    (hs : Inv s) (hP : AllSteps step P s ls) : ∃ s', run step s ls = some s' ∧ Inv s' := by
  induction ls generalizing s with
  | nil => exact ⟨s, rfl, hs⟩
  | cons l ls ih =>
    obtain ⟨t, ht, hinv⟩ := hstep s l hs hP.1
    obtain ⟨s', hrun, hs'⟩ := ih hinv (hP.2 t ht)
    refine ⟨s', ?_, hs'⟩
    rw [run_cons, ht]
    exact hrun

end Atcd.Core
