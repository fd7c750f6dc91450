import FileSync.Support.Program

/-!
# Support — Outcomes

Runs of a program whose calls have more than one outcome: what a call answers and does is chosen
from a relation, and the run may stop after any call.

* `Ends R p s a s'`: a run of `p` from `s` returns `a` and ends in `s'`.
* `Passes R p s s'`: a run of `p` from `s` comes through `s'`; it may be cut there.
* `wpAll R I p Q s`: whatever the outcomes, the state satisfies `I` after every call and `Q` at the
  end; `wpAll_passes` is what it says of the states a run comes through.
* `passes_stopped`: a run against a handler that is cut after some calls is one of the runs.
-/

namespace Prog

variable {Op : Type} {Resp : Op → Type} {α β σ : Type}

/-- What a call may answer, and the state it may leave. -/
abbrev Outcomes (Op : Type) (Resp : Op → Type) (σ : Type) := (o : Op) → σ → Resp o → σ → Prop

/-- A run of the program returns `a` and ends in `s'`. -/
inductive Ends (R : Outcomes Op Resp σ) : Prog Op Resp α → σ → α → σ → Prop
  | ret {a : α} {s : σ} : Ends R (.ret a) s a s
  | call {o : Op} {k : Resp o → Prog Op Resp α} {r : Resp o} {s s₁ s' : σ} {a : α}
      (hcall : R o s r s₁) (hrest : Ends R (k r) s₁ a s') : Ends R (.call o k) s a s'

/-- The states a run comes through, its first and its last among them. -/
inductive Passes (R : Outcomes Op Resp σ) : Prog Op Resp α → σ → σ → Prop
  | here {p : Prog Op Resp α} {s : σ} : Passes R p s s
  | next {o : Op} {k : Resp o → Prog Op Resp α} {r : Resp o} {s s₁ s' : σ} (hcall : R o s r s₁)
      (hrest : Passes R (k r) s₁ s') : Passes R (call o k) s s'

/-- After every call the state satisfies `I`, and at the end `Q` holds, whatever the outcomes. -/
def wpAll (R : Outcomes Op Resp σ) (I : σ → Prop) :
    Prog Op Resp α → (α → σ → Prop) → σ → Prop
  | ret a, Q, s => Q a s
  | call o k, Q, s => ∀ r s', R o s r s' → I s' ∧ wpAll R I (k r) Q s'

variable {R : Outcomes Op Resp σ} {I : σ → Prop} {s s' : σ}

theorem ends_ret {a b : α} : Ends R (ret a) s b s' ↔ b = a ∧ s' = s := by
  constructor
  · rintro ⟨⟩
    exact ⟨rfl, rfl⟩
  · rintro ⟨rfl, rfl⟩
    exact .ret

theorem ends_call {o : Op} {k : Resp o → Prog Op Resp α} {a : α} :
    Ends R (call o k) s a s' ↔ ∃ r s₁, R o s r s₁ ∧ Ends R (k r) s₁ a s' := by
  constructor
  · rintro ⟨⟩
    exact ⟨_, _, ‹_›, ‹_›⟩
  · rintro ⟨r, s₁, hcall, hrest⟩
    exact .call hcall hrest

theorem ends_bind {p : Prog Op Resp α} {f : α → Prog Op Resp β} {b : β} :
    Ends R (p >>= f) s b s' ↔ ∃ a s₁, Ends R p s a s₁ ∧ Ends R (f a) s₁ b s' := by
  induction p generalizing s with
  | ret a =>
    constructor
    · exact fun h => ⟨a, s, .ret, h⟩
    · rintro ⟨a', s₁, hp, hf⟩
      obtain ⟨rfl, rfl⟩ := ends_ret.1 hp
      exact hf
  | call o k ih =>
    constructor
    · intro h
      obtain ⟨r, s₁, hcall, hrest⟩ := ends_call.1 h
      obtain ⟨a, s₂, hp, hf⟩ := (ih r).1 hrest
      exact ⟨a, s₂, .call hcall hp, hf⟩
    · rintro ⟨a, s₂, hp, hf⟩
      obtain ⟨r, s₁, hcall, hrest⟩ := ends_call.1 hp
      exact .call hcall ((ih r).2 ⟨a, s₂, hrest, hf⟩)

/-- What holds whatever the outcomes holds at the end of a run. -/
theorem wpAll_ends {p : Prog Op Resp α} {Q : α → σ → Prop} (hp : wpAll R I p Q s) {a : α}
    (h : Ends R p s a s') : Q a s' := by
  induction h with
  | ret => exact hp
  | call hcall _ ih => exact ih (hp _ _ hcall).2

/-- A single call and what follows it. -/
theorem wpAll_call_bind {o : Op} {f : Resp o → Prog Op Resp α} {Q : α → σ → Prop} :
    wpAll R I (call o ret >>= f) Q s ↔ ∀ r s', R o s r s' → I s' ∧ wpAll R I (f r) Q s' := Iff.rfl

theorem wpAll_bind {p : Prog Op Resp α} {f : α → Prog Op Resp β} {Q : β → σ → Prop} :
    wpAll R I (p >>= f) Q s ↔ wpAll R I p (fun a s => wpAll R I (f a) Q s) s := by
  induction p generalizing s with
  | ret a => rfl
  | call o k ih =>
    exact forall_congr' fun r => forall_congr' fun s' => imp_congr_right fun _ =>
      and_congr_right fun _ => ih r

theorem wpAll_mono {J : σ → Prop} {p : Prog Op Resp α} {Q Q' : α → σ → Prop}
    (hp : wpAll R I p Q s) (hI : ∀ s, I s → J s) (hQ : ∀ a s, Q a s → Q' a s) :
    wpAll R J p Q' s := by
  induction p generalizing s with
  | ret a => exact hQ a s hp
  | call o k ih => exact fun r s' h => ⟨hI s' (hp r s' h).1, ih r (hp r s' h).2⟩

theorem wpAll_and {J : σ → Prop} {p : Prog Op Resp α} {Q Q' : α → σ → Prop}
    (hp : wpAll R I p Q s) (hp' : wpAll R J p Q' s) :
    wpAll R (fun s => I s ∧ J s) p (fun a s => Q a s ∧ Q' a s) s := by
  induction p generalizing s with
  | ret a => exact ⟨hp, hp'⟩
  | call o k ih =>
    exact fun r s' h => ⟨⟨(hp r s' h).1, (hp' r s' h).1⟩, ih r (hp r s' h).2 (hp' r s' h).2⟩

/-- The outcomes of the calls that a handler answers. -/
def answers (h : Handler Op Resp σ) : Outcomes Op Resp σ := fun o s r s' => h o s = (r, s')

theorem ends_answers (h : Handler Op Resp σ) (p : Prog Op Resp α) (s : σ) :
    Ends (answers h) p s (run h p s).1 (run h p s).2 := by
  induction p generalizing s with
  | ret a => exact .ret
  | call o k ih => exact .call rfl (ih _ _)

/-- What every call keeps, whatever comes of it, the runs keep. -/
theorem wpAll_within {P : Op → Prop} {p : Prog Op Resp α} (hp : Within P p)
    (hI : ∀ o s r s', P o → R o s r s' → I s → I s') (hs : I s) :
    wpAll R I p (fun _ => I) s := by
  induction p generalizing s with
  | ret a => exact hs
  | call o k ih =>
    obtain ⟨ho, hk⟩ := within_call.1 hp
    exact fun r s' h => ⟨hI o s r s' ho h hs, ih r (hk r) (hI o s r s' ho h hs)⟩

theorem passes_call {o : Op} {k : Resp o → Prog Op Resp α} :
    Passes R (call o k) s s' ↔ s' = s ∨ ∃ r s₁, R o s r s₁ ∧ Passes R (k r) s₁ s' := by
  constructor
  · rintro (_ | ⟨hcall, hrest⟩)
    · exact Or.inl rfl
    · exact Or.inr ⟨_, _, hcall, hrest⟩
  · rintro (rfl | ⟨r, s₁, hcall, hrest⟩)
    · exact .here
    · exact .next hcall hrest

/-- What holds in all states that a program comes through. -/
theorem wpAll_of_passes {p : Prog Op Resp α} (h : ∀ s', Passes R p s s' → I s') :
    wpAll R I p (fun _ => I) s := by
  induction p generalizing s with
  | ret a => exact h s .here
  | call o k ih =>
    exact fun r s₁ hcall => ⟨h s₁ (.next hcall .here), ih r fun s' hs' => h s' (.next hcall hs')⟩

theorem wpAll_passes {p : Prog Op Resp α} {Q : α → σ → Prop} (hp : wpAll R I p Q s) (hs : I s)
    (h : Passes R p s s') : I s' := by
  induction h with
  | here => exact hs
  | next hcall _ ih => exact ih (hp _ _ hcall).2 (hp _ _ hcall).1

/-- The first program need not be finished. -/
theorem Passes.bind_left {p : Prog Op Resp α} (h : Passes R p s s') (f : α → Prog Op Resp β) :
    Passes R (p >>= f) s s' := by
  induction h with
  | here => exact .here
  | next hcall _ ih => exact .next hcall ih

/-- The first program is finished. -/
theorem Ends.passes_bind {p : Prog Op Resp α} {a : α} {s₁ : σ} (h : Ends R p s a s₁)
    {f : α → Prog Op Resp β} (hf : Passes R (f a) s₁ s') : Passes R (p >>= f) s s' := by
  induction h with
  | ret => exact hf
  | call hcall _ ih => exact .next hcall (ih hf)

/-- Where a run against a handler is after `n` calls. -/
def stopped (h : Handler Op Resp σ) : Nat → Prog Op Resp α → σ → σ
  | n + 1, call o k, s => stopped h n (k (h o s).1) (h o s).2
  | _, _, s => s

/-- The run against a handler is one of the runs, if its answers are among the outcomes. -/
theorem passes_stopped {h : Handler Op Resp σ} (hR : ∀ o s, R o s (h o s).1 (h o s).2) (n : Nat)
    (p : Prog Op Resp α) (s : σ) : Passes R p s (stopped h n p s) := by
  induction n generalizing p s with
  | zero => cases p <;> exact .here
  | succ n ih =>
    cases p with
    | ret a => exact .here
    | call o k => exact .next (hR o s) (ih _ _)

/-- What no call changes is as it was. -/
theorem stopped_eq {h : Handler Op Resp σ} {τ : Type} {f : σ → τ} (hf : ∀ o s, f (h o s).2 = f s)
    (n : Nat) (p : Prog Op Resp α) (s : σ) : f (stopped h n p s) = f s := by
  induction n generalizing p s with
  | zero => cases p <;> rfl
  | succ n ih =>
    cases p with
    | ret a => rfl
    | call o k => exact (ih _ _).trans (hf o s)

end Prog
