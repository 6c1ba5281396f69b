import Mathlib.Data.List.Basic

/-! Runs of a deterministic system given by its inputs. -/
namespace Kryos.Trace

variable {σ α : Type*} (step : σ → α → σ)

/-- `property` holds of the state before each input and that input. -/
def EachStep (property : σ → α → Prop) : σ → List α → Prop
  | _, [] => True
  | s, a :: rest => property s a ∧ EachStep property (step s a) rest

instance EachStep.decidable (property : σ → α → Prop) [∀ s a, Decidable (property s a)] :
    ∀ s inputs, Decidable (EachStep step property s inputs)
  | _, [] => isTrue trivial
  | s, a :: rest =>
    have := EachStep.decidable property (step s a) rest
    inferInstanceAs (Decidable (property s a ∧ EachStep step property (step s a) rest))

variable {step}

theorem eachStep_of_all {property : σ → α → Prop} (h : ∀ s a, property s a)
    (s : σ) (inputs : List α) : EachStep step property s inputs := by
  induction inputs generalizing s with
  | nil => exact trivial
  | cons a rest ih => exact ⟨h s a, ih _⟩

theorem eachStep_and {property property' : σ → α → Prop} {s : σ} {inputs : List α}
    (h : EachStep step property s inputs) (h' : EachStep step property' s inputs) :
    EachStep step (fun s a => property s a ∧ property' s a) s inputs := by
  induction inputs generalizing s with
  | nil => exact trivial
  | cons a rest ih => exact ⟨⟨h.1, h'.1⟩, ih h.2 h'.2⟩

/-- What every admitted step keeps holds at the end of a run. -/
theorem foldl_invariant {invariant : σ → Prop} {admitted : σ → α → Prop}
    (hStep : ∀ s a, invariant s → admitted s a → invariant (step s a)) {s : σ} (hInit : invariant s)
    {inputs : List α} (hAdmitted : EachStep step admitted s inputs) :
    invariant (inputs.foldl step s) := by
  induction inputs generalizing s with
  | nil => exact hInit
  | cons a rest ih => exact ih (hStep s a hInit hAdmitted.1) hAdmitted.2

/-- Two properties of steps agree along a run if they agree from every state of an
invariant that the steps with either property keep. -/
theorem eachStep_iff {invariant : σ → Prop} {admitted property property' : σ → α → Prop}
    (hIff : ∀ s a, invariant s → admitted s a → (property s a ↔ property' s a))
    (hStep : ∀ s a, invariant s → admitted s a → property' s a → invariant (step s a))
    {s : σ} (hInit : invariant s) {inputs : List α} (hAdmitted : EachStep step admitted s inputs) :
    EachStep step property s inputs ↔ EachStep step property' s inputs := by
  induction inputs generalizing s with
  | nil => exact Iff.rfl
  | cons a rest ih =>
    obtain ⟨hFirst, hRest⟩ := hAdmitted
    constructor
    · rintro ⟨hHere, hThere⟩
      have hHere' := (hIff s a hInit hFirst).mp hHere
      exact ⟨hHere', (ih (hStep s a hInit hFirst hHere') hRest).mp hThere⟩
    · rintro ⟨hHere, hThere⟩
      exact ⟨(hIff s a hInit hFirst).mpr hHere,
        (ih (hStep s a hInit hFirst hHere) hRest).mpr hThere⟩

/-- A run whose steps can fail, replayed with another step function. It ends as before
exactly if it meets no input at which that function fails. -/
theorem foldlM_replay_iff {ε : Type*} {step step' : σ → α → Except ε σ} {fails : σ → α → Prop}
    {inputs : List α}
    (hSame : ∀ a ∈ inputs, ∀ s t, step s a = .ok t → ¬fails s a → step' s a = .ok t)
    (hFails : ∀ a ∈ inputs, ∀ s, fails s a → ∃ err, step' s a = .error err)
    {s t : σ} (hRun : inputs.foldlM step s = .ok t) :
    inputs.foldlM step' s = .ok t ↔
      ∀ before a after u, inputs = before ++ a :: after →
        before.foldlM step s = .ok u → ¬fails u a := by
  induction inputs generalizing s with
  | nil => simpa using hRun
  | cons a rest ih =>
    rw [List.foldlM_cons] at hRun ⊢
    cases hFirst : step s a with
    | error err =>
      rw [hFirst] at hRun
      cases hRun
    | ok u =>
      rw [hFirst] at hRun
      by_cases hBad : fails s a
      · obtain ⟨err, hErr⟩ := hFails a List.mem_cons_self s hBad
        rw [hErr]
        constructor
        · intro hOk
          cases hOk
        · intro hNone
          exact absurd hBad (hNone [] a rest s rfl rfl)
      · rw [hSame a List.mem_cons_self s u hFirst hBad]
        change rest.foldlM step' u = _ ↔ _
        rw [ih (fun b hb => hSame b (List.mem_cons_of_mem a hb))
          (fun b hb => hFails b (List.mem_cons_of_mem a hb)) hRun]
        constructor
        · intro hRest before b after w hSplit hBefore
          cases before with
          | nil =>
            cases hSplit
            cases hBefore
            exact hBad
          | cons c before =>
            cases hSplit
            rw [List.foldlM_cons, hFirst] at hBefore
            exact hRest before b after w rfl hBefore
        · intro hAll before b after w hSplit hBefore
          refine hAll (a :: before) b after w (by rw [hSplit, List.cons_append]) ?_
          rw [List.foldlM_cons, hFirst]
          exact hBefore

end Kryos.Trace
