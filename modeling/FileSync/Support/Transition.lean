import Mathlib.Data.List.Induction
import Mathlib.Logic.Basic

/-!
# Support — Transition

Systems that move by events: `step s e` is the state after the event `e`, if `e` can happen in `s`.

* `exec` runs a list of events, and `exec_history` is the rule for what holds of the events so far
  and the state they led to; `trace` is what can be observed of them.
* `Run G s es s'` says that the events `es` lead from `s` to `s'` and each of them satisfies `G` in
  the state in which it happens; `Run.invariant` is the rule for what such a run preserves.
* `Run.iff_of_exact` is the rule for a condition on the steps that is sufficient and necessary for
  an invariant to hold throughout.
-/

namespace Transition

variable {σ ε : Type} (step : σ → ε → Option σ)

/-- The state after the events. -/
def exec : σ → List ε → Option σ
  | s, [] => some s
  | s, e :: es => (step s e).bind (exec · es)

variable {step} in
/-- What every step preserves, the events preserve. -/
theorem exec_invariant {I : σ → Prop} {s s' : σ} {es : List ε} (h : exec step s es = some s')
    (hstep : ∀ s e s', I s → step s e = some s' → I s') (hs : I s) : I s' := by
  induction es generalizing s with
  | nil =>
    obtain rfl := Option.some.inj h
    exact hs
  | cons e es ih =>
    obtain ⟨s₁, hs₁, hrest⟩ := Option.bind_eq_some_iff.1 h
    exact ih hrest (hstep s e s₁ hs hs₁)

theorem exec_append (s : σ) (es es' : List ε) :
    exec step s (es ++ es') = (exec step s es).bind (exec step · es') := by
  induction es generalizing s with
  | nil => rfl
  | cons e es ih =>
    rw [List.cons_append, exec, exec, Option.bind_assoc]
    congr 1
    funext s₁
    exact ih s₁

variable {step} in
/-- The events up to the last one, and the last one. -/
theorem exec_concat {s s' : σ} {es : List ε} {e : ε} :
    exec step s (es ++ [e]) = some s' ↔ ∃ s₁, exec step s es = some s₁ ∧ step s₁ e = some s' := by
  rw [exec_append, Option.bind_eq_some_iff]
  refine exists_congr fun s₁ => and_congr_right fun _ => ?_
  rw [exec, Option.bind_eq_some_iff]
  exact ⟨fun ⟨s₂, hs₂, h⟩ => Option.some.inj h ▸ hs₂, fun h => ⟨s', h, rfl⟩⟩

variable {step} in
/-- What every step preserves of the state and the events that led to it, holds after every
events. -/
theorem exec_history {Q : List ε → σ → Prop} {s : σ} (hs : Q [] s)
    (hstep : ∀ es s₁ e s₂, exec step s es = some s₁ → Q es s₁ → step s₁ e = some s₂ →
      Q (es ++ [e]) s₂)
    {es : List ε} {s' : σ} (h : exec step s es = some s') : Q es s' := by
  induction es using List.reverseRecOn generalizing s' with
  | nil =>
    obtain rfl := Option.some.inj h
    exact hs
  | append_singleton es e ih =>
    obtain ⟨s₁, hs₁, he⟩ := exec_concat.1 h
    exact hstep es s₁ e s' hs₁ (ih hs₁) he

/-- What is observed of the events in the states in which they happen, in order. -/
def trace {α : Type} (observe : σ → ε → List α) : σ → List ε → List α
  | _, [] => []
  | s, e :: es => observe s e ++ ((step s e).elim [] fun s' => trace observe s' es)

section Trace

variable {step} {α : Type} {observe : σ → ε → List α} {s s₁ : σ} {es : List ε}

theorem trace_append (h : exec step s es = some s₁) (es' : List ε) :
    trace step observe s (es ++ es') = trace step observe s es ++ trace step observe s₁ es' := by
  induction es generalizing s with
  | nil =>
    obtain rfl := Option.some.inj h
    rfl
  | cons e es ih =>
    obtain ⟨s₂, hs₂, hrest⟩ := Option.bind_eq_some_iff.1 h
    rw [List.cons_append, trace, trace, hs₂, Option.elim_some, Option.elim_some, ih hrest,
      List.append_assoc]

theorem trace_concat (h : exec step s es = some s₁) (e : ε) :
    trace step observe s (es ++ [e]) = trace step observe s es ++ observe s₁ e := by
  rw [trace_append h, trace]
  cases step s₁ e <;> simp [trace]

end Trace

/-- A run in which every event satisfies `G` when it happens. -/
inductive Run (G : σ → ε → Prop) : σ → List ε → σ → Prop
  | nil (s : σ) : Run G s [] s
  | cons {s s₁ s₂ : σ} {e : ε} {es : List ε} (hG : G s e) (hstep : step s e = some s₁)
      (hrest : Run G s₁ es s₂) : Run G s (e :: es) s₂

variable {step} {G : σ → ε → Prop} {s s' : σ} {es : List ε}

/-- What every step that satisfies `G` preserves, a run preserves. -/
theorem Run.invariant {I : σ → Prop} (h : Run step G s es s')
    (hstep : ∀ s e s', I s → G s e → step s e = some s' → I s') (hs : I s) : I s' := by
  induction h with
  | nil s => exact hs
  | cons hG hs₁ _ ih => exact ih (hstep _ _ _ hs hG hs₁)

theorem Run.exec_eq (h : Run step G s es s') : exec step s es = some s' := by
  induction h with
  | nil s => rfl
  | cons _ hs₁ _ ih => rw [exec, hs₁, Option.bind_some, ih]

/-- A run of events that are always allowed. -/
theorem Run.of_exec (h : exec step s es = some s') (hG : ∀ s, ∀ e ∈ es, G s e) :
    Run step G s es s' := by
  induction es generalizing s with
  | nil =>
    cases h
    exact .nil _
  | cons e es ih =>
    obtain ⟨s₁, hs₁, hrest⟩ := Option.bind_eq_some_iff.1 h
    exact .cons (hG s e List.mem_cons_self) hs₁
      (ih hrest fun s e he => hG s e (List.mem_cons_of_mem _ he))

theorem Run.append {es' : List ε} {s₁ : σ} (h : Run step G s es s₁) (h' : Run step G s₁ es' s') :
    Run step G s (es ++ es') s' := by
  induction h with
  | nil => exact h'
  | cons hG hs₁ _ ih => exact .cons hG hs₁ (ih h')

theorem Run.cons_iff {s₁ : σ} {e : ε} (hs : step s e = some s₁) :
    Run step G s (e :: es) s' ↔ G s e ∧ Run step G s₁ es s' := by
  constructor
  · intro h
    cases h with
    | cons hG hs' hrest =>
      obtain rfl := Option.some.inj (hs.symm.trans hs')
      exact ⟨hG, hrest⟩
  · rintro ⟨hG, hrest⟩
    exact .cons hG hs hrest

/-- The rule for a condition that is exact: where `P` holds, a step has the property `K` and keeps
`P` if and only if it satisfies `G`.  Then `P` holds throughout a run, and all its steps have `K`,
if and only if all its steps satisfy `G`.  The rule may use what other arguments show of every run
(`J`), and may be restricted to some events (`E`). -/
theorem Run.iff_of_exact {J P : σ → Prop} {K : σ → ε → Prop} {E : ε → Prop}
    (hJ : ∀ s e s', J s → E e → step s e = some s' → J s')
    (hexact : ∀ s e s', J s → P s → E e → step s e = some s' → (K s e ∧ P s' ↔ G s e))
    (h : exec step s es = some s') (hE : ∀ e ∈ es, E e) (hJs : J s) (hP : P s) :
    Run step (fun s e => P s ∧ K s e) s es s' ∧ P s' ↔ Run step G s es s' := by
  induction es generalizing s with
  | nil =>
    obtain rfl := Option.some.inj h
    exact ⟨fun _ => .nil s, fun _ => ⟨.nil s, hP⟩⟩
  | cons e es ih =>
    obtain ⟨s₁, hs₁, hrest⟩ := Option.bind_eq_some_iff.1 h
    rw [List.forall_mem_cons] at hE
    have hstep := hexact s e s₁ hJs hP hE.1 hs₁
    have hJ₁ := hJ s e s₁ hJs hE.1 hs₁
    constructor
    · rintro ⟨hrun, hP'⟩
      cases hrun with
      | cons hG hs₂ hrun =>
        obtain rfl := Option.some.inj (hs₁.symm.trans hs₂)
        have hP₁ : P s₁ := by
          cases hrun with
          | nil => exact hP'
          | cons hG' _ _ => exact hG'.1
        exact .cons (hstep.1 ⟨hG.2, hP₁⟩) hs₁ ((ih hrest hE.2 hJ₁ hP₁).1 ⟨hrun, hP'⟩)
    · intro hrun
      cases hrun with
      | cons hG hs₂ hrun =>
        obtain rfl := Option.some.inj (hs₁.symm.trans hs₂)
        obtain ⟨hK, hP₁⟩ := hstep.2 hG
        obtain ⟨hrun', hP'⟩ := (ih hrest hE.2 hJ₁ hP₁).2 hrun
        exact ⟨.cons ⟨hP, hK⟩ hs₁ hrun', hP'⟩

/-- The rule without a property of the steps. -/
theorem Run.iff_of_exact_state {J P : σ → Prop}
    (hJ : ∀ s e s', J s → step s e = some s' → J s')
    (hexact : ∀ s e s', J s → P s → step s e = some s' → (P s' ↔ G s e))
    (h : exec step s es = some s') (hJs : J s) (hP : P s) :
    Run step (fun s _ => P s) s es s' ∧ P s' ↔ Run step G s es s' := by
  have hrule := Run.iff_of_exact (G := G) (K := fun _ _ => True) (E := fun _ => True)
    (fun s e s' hJs _ => hJ s e s' hJs)
    (fun s e s' hJs hP _ hs => (iff_of_eq (true_and _)).trans (hexact s e s' hJs hP hs)) h
    (fun _ _ => trivial) hJs hP
  simpa only [and_true] using hrule

end Transition
