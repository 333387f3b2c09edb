import Mutty.Lib.Checked

/-!
# Loops with an iteration budget

A loop body sends a state to the next state or to the value the loop leaves with. `run` executes
at most the given number of iterations, and `Ends` says that some budget is enough. A measure that
falls in every iteration bounds the budget, and a set of states that the body never leaves has no
ending run.
-/

namespace Mutty.Lib.Loop

variable {σ ρ : Type} {body : σ → Checked (σ ⊕ ρ)}

def run (body : σ → Checked (σ ⊕ ρ)) : ℕ → σ → Checked ρ
  | 0, _ => .error .budget
  | n + 1, s =>
    match body s with
    | .error e => .error e
    | .ok (.inl s') => run body n s'
    | .ok (.inr r) => .ok r

theorem run_next {s s' : σ} (h : body s = .ok (.inl s')) (n : ℕ) :
    run body (n + 1) s = run body n s' := by
  simp [run, h]

theorem run_done {s : σ} {r : ρ} (h : body s = .ok (.inr r)) (n : ℕ) :
    run body (n + 1) s = .ok r := by
  simp [run, h]

theorem run_fault {s : σ} {e : Fault} (h : body s = .error e) (n : ℕ) :
    run body (n + 1) s = .error e := by
  simp [run, h]

/-- Total correctness: inside `I` the body either goes on, with a smaller measure, or leaves with a
value that has `Q`, and the budget exceeds the measure. -/
theorem run_ok (body : σ → Checked (σ ⊕ ρ)) {I : σ → Prop} {Q : ρ → Prop} {μ : σ → ℕ}
    (hbody : ∀ s, I s → (∃ s', body s = .ok (.inl s') ∧ I s' ∧ μ s' < μ s) ∨
      (∃ r, body s = .ok (.inr r) ∧ Q r))
    (n : ℕ) (s : σ) (hs : I s) (hn : μ s < n) : ∃ r, run body n s = .ok r ∧ Q r := by
  induction n generalizing s with
  | zero => omega
  | succ n ih =>
    rcases hbody s hs with ⟨s', hb, hs', hlt⟩ | ⟨r, hb, hr⟩
    · rw [run_next hb]
      exact ih s' hs' (by omega)
    · exact ⟨r, run_done hb n, hr⟩

/-- The loop ends from `s`, with value or fault `x`. -/
def Ends (body : σ → Checked (σ ⊕ ρ)) (s : σ) (x : Checked ρ) : Prop :=
  ∃ n, run body n s = x ∧ x ≠ .error .budget

theorem ends_next {s s' : σ} {x : Checked ρ} (h : body s = .ok (.inl s')) :
    Ends body s x ↔ Ends body s' x := by
  constructor
  · rintro ⟨n, hr, hx⟩
    cases n with
    | zero => exact absurd hr.symm hx
    | succ n => exact ⟨n, by rw [← hr, run_next h], hx⟩
  · rintro ⟨n, hr, hx⟩
    exact ⟨n + 1, by rw [run_next h, hr], hx⟩

theorem ends_done {s : σ} {r : ρ} (h : body s = .ok (.inr r)) : Ends body s (.ok r) :=
  ⟨1, run_done h 0, by simp⟩

theorem run_invariant {I : σ → Prop} {Q : ρ → Prop} (hI : ∀ s s', I s → body s = .ok (.inl s') → I s')
    (hQ : ∀ s r, I s → body s = .ok (.inr r) → Q r) {n : ℕ} {s : σ} {r : ρ} (hs : I s)
    (h : run body n s = .ok r) : Q r := by
  induction n generalizing s with
  | zero => cases h
  | succ n ih =>
    cases hb : body s with
    | error e =>
      rw [run_fault hb] at h
      cases h
    | ok y =>
      cases y with
      | inl s' =>
        rw [run_next hb] at h
        exact ih (hI s s' hs hb) h
      | inr r' =>
        rw [run_done hb] at h
        obtain rfl := Except.ok.inj h
        exact hQ s r' hs hb

/-- Budgets above a measure that falls in every iteration inside `P` all give one result. -/
theorem run_measure {P : σ → Prop} {μ : σ → ℕ}
    (hdec : ∀ s s', P s → body s = .ok (.inl s') → P s' ∧ μ s' < μ s)
    (n m : ℕ) (s : σ) (hs : P s) (hn : μ s < n) (hm : μ s < m) :
    run body n s = run body m s := by
  induction n generalizing m s with
  | zero => omega
  | succ n ih =>
    obtain ⟨m, rfl⟩ : ∃ k, m = k + 1 := ⟨m - 1, by omega⟩
    cases hb : body s with
    | error e => rw [run_fault hb, run_fault hb]
    | ok x =>
      cases x with
      | inl s' =>
        obtain ⟨hs', hlt⟩ := hdec s s' hs hb
        rw [run_next hb, run_next hb]
        exact ih m s' hs' (by omega) (by omega)
      | inr r => rw [run_done hb, run_done hb]

/-- With a falling measure the loop ends within any budget above it, with a value or a fault. -/
theorem ends_run {P : σ → Prop} {μ : σ → ℕ} (hfault : ∀ s, P s → body s ≠ .error .budget)
    (hdec : ∀ s s', P s → body s = .ok (.inl s') → P s' ∧ μ s' < μ s) (n : ℕ) {s : σ} (hs : P s)
    (hn : μ s < n) : Ends body s (run body n s) := by
  induction n generalizing s with
  | zero => omega
  | succ n ih =>
    cases hb : body s with
    | error e =>
      refine ⟨n + 1, rfl, ?_⟩
      rw [run_fault hb]
      intro he
      exact hfault s hs (by rw [hb, Except.error.inj he])
    | ok y =>
      cases y with
      | inl s' =>
        obtain ⟨hs', hlt⟩ := hdec s s' hs hb
        rw [run_next hb, ends_next hb]
        exact ih hs' (by omega)
      | inr r =>
        rw [run_done hb]
        exact ends_done hb

/-- `t` is a state at the head of some iteration of the loop entered in `s`. -/
inductive Visits (body : σ → Checked (σ ⊕ ρ)) : σ → σ → Prop
  | here {s : σ} : Visits body s s
  | next {s s' t : σ} : body s = .ok (.inl s') → Visits body s' t → Visits body s t

theorem visits_next {s s' t : σ} (h : body s = .ok (.inl s')) :
    Visits body s t ↔ t = s ∨ Visits body s' t := by
  constructor
  · intro hv
    cases hv with
    | here => exact Or.inl rfl
    | next hb hv =>
      rw [h] at hb
      obtain rfl := Sum.inl.inj (Except.ok.inj hb)
      exact Or.inr hv
  · rintro (rfl | hv)
    · exact .here
    · exact .next h hv

theorem visits_last {s t : σ} (h : ∀ s', body s ≠ .ok (.inl s')) : Visits body s t ↔ t = s := by
  constructor
  · intro hv
    cases hv with
    | here => rfl
    | next hb _ => exact absurd hb (h _)
  · rintro rfl
    exact .here

/-- A loop never ends inside a set of states that its body maps into itself. -/
theorem not_ends_of_closed {P : σ → Prop}
    (hP : ∀ s, P s → ∃ s', body s = .ok (.inl s') ∧ P s') {s : σ} (hs : P s)
    {x : Checked ρ} : ¬ Ends body s x := by
  rintro ⟨n, hr, hx⟩
  induction n generalizing s with
  | zero => exact hx hr.symm
  | succ n ih =>
    obtain ⟨s', hb, hs'⟩ := hP s hs
    exact ih hs' (by rw [← hr, run_next hb])

end Mutty.Lib.Loop
