import Mathlib.Logic.Basic

/-!
# Support — Program

Programs that act on their surroundings through calls, and what can be said of their runs.

A `Prog` returns, or makes a call and goes on with the answer.  What answers the calls is not part
of the program:

* a `Handler` answers each call from a state and changes it; `run` is the run against a handler, and
  `wp I p Q` says that the state satisfies `I` after every call of the run and `Q` at its end;
* nothing is assumed about the answers: `Issues p o` says that some answers bring `p` to the call
  `o`, `Returns p a` that some answers bring it to return `a`, and `Within P p` that whatever the
  answers, all its calls are in `P`;
* only some answers are admitted: `Ensures A p Q` says that whatever the answers in `A`, what `p`
  returns satisfies `Q`.
-/

/-- A program over the calls `Op`, which are answered in `Resp`. -/
inductive Prog (Op : Type) (Resp : Op → Type) (α : Type) : Type
  | ret (a : α)
  | call (o : Op) (k : Resp o → Prog Op Resp α)

namespace Prog

variable {Op : Type} {Resp : Op → Type} {α β σ : Type}

/-- Run `p`, then `f` on what it returned. -/
def bind : Prog Op Resp α → (α → Prog Op Resp β) → Prog Op Resp β
  | ret a, f => f a
  | call o k, f => call o fun r => bind (k r) f

instance : Monad (Prog Op Resp) where
  pure := ret
  bind := bind

@[simp] theorem pure_eq (a : α) : (pure a : Prog Op Resp α) = ret a := rfl

@[simp] theorem ret_bind (a : α) (f : α → Prog Op Resp β) : ret a >>= f = f a := rfl

@[simp] theorem call_bind (o : Op) (k : Resp o → Prog Op Resp α) (f : α → Prog Op Resp β) :
    call o k >>= f = call o fun r => k r >>= f := rfl

theorem bind_assoc {γ : Type} (p : Prog Op Resp α) (f : α → Prog Op Resp β)
    (g : β → Prog Op Resp γ) : p >>= f >>= g = p >>= fun a => f a >>= g := by
  induction p with
  | ret a => rfl
  | call o k ih => exact congrArg (call o) (funext ih)

instance : LawfulMonad (Prog Op Resp) :=
  LawfulMonad.mk' _ (fun p => by induction p with
    | ret a => rfl
    | call o k ih => exact congrArg (call o) (funext ih)) (fun _ _ => rfl) bind_assoc

/-! ### Runs -/

/-- What answers the calls: a state, which a call may read and change. -/
abbrev Handler (Op : Type) (Resp : Op → Type) (σ : Type) := (o : Op) → σ → Resp o × σ

variable (h : Handler Op Resp σ)

/-- What the program returns, and the state it leaves. -/
def run : Prog Op Resp α → σ → α × σ
  | ret a, s => (a, s)
  | call o k, s => run (k (h o s).1) (h o s).2

/-- After every call the state satisfies `I`, and at the end `Q` holds. -/
def wp (I : σ → Prop) : Prog Op Resp α → (α → σ → Prop) → σ → Prop
  | ret a, Q, s => Q a s
  | call o k, Q, s => I (h o s).2 ∧ wp I (k (h o s).1) Q (h o s).2

variable {h} {I : σ → Prop} {s : σ}

@[simp] theorem run_ret (a : α) : run h (ret a : Prog Op Resp α) s = (a, s) := rfl

@[simp] theorem run_call (o : Op) (k : Resp o → Prog Op Resp α) :
    run h (call o k) s = run h (k (h o s).1) (h o s).2 := rfl

theorem run_bind (p : Prog Op Resp α) (f : α → Prog Op Resp β) (s : σ) :
    run h (p >>= f) s = run h (f (run h p s).1) (run h p s).2 := by
  induction p generalizing s with
  | ret a => rfl
  | call o k ih => exact ih _ _

@[simp] theorem wp_ret (a : α) (Q : α → σ → Prop) :
    wp h I (ret a : Prog Op Resp α) Q s ↔ Q a s := Iff.rfl

@[simp] theorem wp_call (o : Op) (k : Resp o → Prog Op Resp α) (Q : α → σ → Prop) :
    wp h I (call o k) Q s ↔ I (h o s).2 ∧ wp h I (k (h o s).1) Q (h o s).2 := Iff.rfl

theorem wp_bind {p : Prog Op Resp α} {f : α → Prog Op Resp β} {Q : β → σ → Prop} :
    wp h I (p >>= f) Q s ↔ wp h I p (fun a => wp h I (f a) Q) s := by
  induction p generalizing s with
  | ret a => rfl
  | call o k ih => exact and_congr_right fun _ => ih _

/-- The consequence rule. -/
theorem wp_mono {p : Prog Op Resp α} {Q R : α → σ → Prop} (hp : wp h I p Q s)
    (hQR : ∀ a s, Q a s → R a s) : wp h I p R s := by
  induction p generalizing s with
  | ret a => exact hQR a s hp
  | call o k ih => exact ⟨hp.1, ih _ hp.2⟩

theorem wp_and {J : σ → Prop} {p : Prog Op Resp α} {Q R : α → σ → Prop} (hp : wp h I p Q s)
    (hp' : wp h J p R s) : wp h I p (fun a s => Q a s ∧ R a s) s := by
  induction p generalizing s with
  | ret a => exact ⟨hp, hp'⟩
  | call o k ih => exact ⟨hp.1, ih _ hp.2 hp'.2⟩

theorem wp_weaken {J : σ → Prop} {p : Prog Op Resp α} {Q : α → σ → Prop} (hp : wp h I p Q s)
    (hIJ : ∀ s, I s → J s) : wp h J p Q s := by
  induction p generalizing s with
  | ret a => exact hp
  | call o k ih => exact ⟨hIJ _ hp.1, ih _ hp.2⟩

/-- What every answer keeps, a run keeps. -/
theorem wp_invariant {p : Prog Op Resp α} (hI : ∀ o s, I s → I (h o s).2) (hs : I s) :
    wp h I p (fun _ => I) s := by
  induction p generalizing s with
  | ret a => exact hs
  | call o k ih => exact ⟨hI o s hs, ih _ (hI o s hs)⟩

/-- Of any run. -/
theorem wp_true {p : Prog Op Resp α} : wp h (fun _ => True) p (fun _ _ => True) s :=
  wp_invariant (fun _ _ _ => trivial) trivial

/-- What holds at the end holds of the run. -/
theorem wp_run {p : Prog Op Resp α} {Q : α → σ → Prop} (hp : wp h I p Q s) :
    Q (run h p s).1 (run h p s).2 := by
  induction p generalizing s with
  | ret a => exact hp
  | call o k ih => exact ih _ hp.2

/-- The end of a run, recorded. -/
theorem wp_record {p : Prog Op Resp α} {Q : α → σ → Prop} (hp : wp h I p Q s) :
    wp h I p (fun a s' => Q a s' ∧ run h p s = (a, s')) s := by
  induction p generalizing s with
  | ret a => exact ⟨hp, rfl⟩
  | call o k ih => exact ⟨hp.1, ih _ hp.2⟩

/-- The rule for a loop over a list: `J` holds of what was done, and each pass keeps it. -/
theorem wp_foldlM {act : β → α → Prog Op Resp β} {J : List α → β → σ → Prop} {xs : List α}
    (hact : ∀ done x b s, x ∈ xs → J done b s → wp h I (act b x) (J (done ++ [x])) s) {b : β}
    (hJ : J [] b s) : wp h I (xs.foldlM act b) (J xs) s := by
  suffices hfrom : ∀ ys done b s, (∀ y ∈ ys, y ∈ xs) → J done b s →
      wp h I (ys.foldlM act b) (J (done ++ ys)) s from hfrom xs [] b s (fun _ hy => hy) hJ
  intro ys
  induction ys with
  | nil =>
    intro done b s _ hJ
    simpa using hJ
  | cons y ys ih =>
    intro done b s hys hJ
    rw [List.forall_mem_cons] at hys
    rw [List.foldlM_cons, wp_bind]
    refine wp_mono (hact done y b s hys.1 hJ) fun b s hJ => ?_
    have hrest := ih _ b s hys.2 hJ
    rwa [List.append_assoc, List.singleton_append] at hrest

/-! ### Programs over some of the calls -/

section Embed
variable {Op' : Type} {Resp' : Op' → Type} {σ' : Type}

/-- A program as one over a larger set of calls. -/
def embed (f : Op → Op') (g : ∀ o, Resp' (f o) → Resp o) : Prog Op Resp α → Prog Op' Resp' α
  | ret a => ret a
  | call o k => call (f o) fun r => embed f g (k (g o r))

variable {f : Op → Op'} {g : ∀ o, Resp' (f o) → Resp o} {h' : Handler Op' Resp' σ'}
  {view : σ' → σ}

/-- If the larger handler answers from a part of its state as the smaller one does, so do their
runs. -/
theorem run_embed (hans : ∀ o s, g o (h' (f o) s).1 = (h o (view s)).1)
    (hview : ∀ o s, view (h' (f o) s).2 = (h o (view s)).2) (p : Prog Op Resp α) (s : σ') :
    (run h' (embed f g p) s).1 = (run h p (view s)).1 ∧
      view (run h' (embed f g p) s).2 = (run h p (view s)).2 := by
  induction p generalizing s with
  | ret a => exact ⟨rfl, rfl⟩
  | call o k ih =>
    rw [embed, run_call, run_call, hans, ← hview]
    exact ih _ _

/-- What the calls of the smaller set keep, its programs keep. -/
theorem run_embed_invariant {J : σ' → Prop} (hJ : ∀ o s, J s → J (h' (f o) s).2)
    (p : Prog Op Resp α) {s : σ'} (hs : J s) : J (run h' (embed f g p) s).2 := by
  induction p generalizing s with
  | ret a => exact hs
  | call o k ih => exact ih _ (hJ o s hs)

end Embed

/-! ### Calls under any answers -/

/-- Some answers bring the program to return `a`. -/
inductive Returns : Prog Op Resp α → α → Prop
  | ret (a : α) : Returns (ret a) a
  | call {o : Op} {k : Resp o → Prog Op Resp α} {a : α} (r : Resp o) (h : Returns (k r) a) :
      Returns (call o k) a

/-- Some answers bring the program to the call `o`. -/
inductive Issues : Prog Op Resp α → Op → Prop
  | now {o : Op} {k : Resp o → Prog Op Resp α} : Issues (call o k) o
  | later {o o' : Op} {k : Resp o → Prog Op Resp α} (r : Resp o) (h : Issues (k r) o') :
      Issues (call o k) o'

theorem returns_ret {a b : α} : Returns (ret a : Prog Op Resp α) b ↔ a = b := by
  constructor
  · rintro ⟨⟩
    rfl
  · rintro rfl
    exact .ret a

theorem not_issues_ret {a : α} {o : Op} : ¬ Issues (ret a : Prog Op Resp α) o := by
  rintro ⟨⟩

theorem issues_call {o o' : Op} {k : Resp o → Prog Op Resp α} :
    Issues (call o k) o' ↔ o = o' ∨ ∃ r, Issues (k r) o' := by
  constructor
  · rintro (_ | ⟨r, h⟩)
    · exact Or.inl rfl
    · exact Or.inr ⟨r, h⟩
  · rintro (rfl | ⟨r, h⟩)
    · exact .now
    · exact .later r h

theorem issues_bind {p : Prog Op Resp α} {f : α → Prog Op Resp β} {o : Op} :
    Issues (p >>= f) o ↔ Issues p o ∨ ∃ a, Returns p a ∧ Issues (f a) o := by
  induction p with
  | ret a => simp [returns_ret, not_issues_ret]
  | call o' k ih =>
    rw [call_bind, issues_call, issues_call, or_assoc]
    refine or_congr_right ⟨?_, ?_⟩
    · rintro ⟨r, hr⟩
      rcases (ih r).1 hr with hk | ⟨a, ha, hf⟩
      · exact Or.inl ⟨r, hk⟩
      · exact Or.inr ⟨a, .call r ha, hf⟩
    · rintro (⟨r, hk⟩ | ⟨a, ha, hf⟩)
      · exact ⟨r, (ih r).2 (Or.inl hk)⟩
      · cases ha with
        | call r ha => exact ⟨r, (ih r).2 (Or.inr ⟨a, ha, hf⟩)⟩

/-- Whatever the answers, the calls are in `P`. -/
def Within (P : Op → Prop) (p : Prog Op Resp α) : Prop := ∀ o, Issues p o → P o

variable {P : Op → Prop}

theorem within_ret (a : α) : Within P (ret a : Prog Op Resp α) :=
  fun _ h => (not_issues_ret h).elim

theorem within_call {o : Op} {k : Resp o → Prog Op Resp α} :
    Within P (call o k) ↔ P o ∧ ∀ r, Within P (k r) := by
  constructor
  · exact fun h => ⟨h o .now, fun r o' ho' => h o' (.later r ho')⟩
  · rintro ⟨ho, hk⟩ o' (_ | ⟨r, h⟩)
    · exact ho
    · exact hk r o' h

/-- A single call and what follows it. -/
theorem within_call_bind {o : Op} {f : Resp o → Prog Op Resp α} :
    Within P (call o ret >>= f) ↔ P o ∧ ∀ r, Within P (f r) := within_call

theorem within_bind {p : Prog Op Resp α} {f : α → Prog Op Resp β} :
    Within P (p >>= f) ↔ Within P p ∧ ∀ a, Returns p a → Within P (f a) := by
  constructor
  · exact fun h => ⟨fun o ho => h o (issues_bind.2 (Or.inl ho)),
      fun a ha o ho => h o (issues_bind.2 (Or.inr ⟨a, ha, ho⟩))⟩
  · rintro ⟨hp, hf⟩ o ho
    rcases issues_bind.1 ho with ho | ⟨a, ha, ho⟩
    · exact hp o ho
    · exact hf a ha o ho

theorem within_foldlM {act : β → α → Prog Op Resp β} (hact : ∀ b a, Within P (act b a))
    (xs : List α) (b : β) : Within P (xs.foldlM act b) := by
  induction xs generalizing b with
  | nil => exact within_ret b
  | cons x xs ih => exact within_bind.2 ⟨hact b x, fun b' _ => ih b'⟩

/-- What the answers to calls in `P` keep, a program of such calls keeps. -/
theorem run_within {I : σ → Prop} {h : Handler Op Resp σ} {p : Prog Op Resp α}
    (hp : Within P p) (hI : ∀ o s, P o → I s → I (h o s).2) {s : σ} (hs : I s) :
    I (run h p s).2 := by
  induction p generalizing s with
  | ret a => exact hs
  | call o k ih =>
    obtain ⟨ho, hk⟩ := within_call.1 hp
    exact ih _ (hk _) (hI o s ho hs)

/-- If two handlers answer the calls alike and keep their states related, the runs of a program of
such calls return the same and end in related states. -/
theorem run_simulates {σ' : Type} {R : σ → σ' → Prop} {h : Handler Op Resp σ}
    {h' : Handler Op Resp σ'} {p : Prog Op Resp α} (hp : Within P p)
    (hstep : ∀ o s s', P o → R s s' → (h o s).1 = (h' o s').1 ∧ R (h o s).2 (h' o s').2) {s : σ}
    {s' : σ'} (hR : R s s') :
    (run h p s).1 = (run h' p s').1 ∧ R (run h p s).2 (run h' p s').2 := by
  induction p generalizing s s' with
  | ret a => exact ⟨rfl, hR⟩
  | call o k ih =>
    obtain ⟨ho, hk⟩ := within_call.1 hp
    obtain ⟨hans, hR'⟩ := hstep o s s' ho hR
    rw [run_call, run_call, ← hans]
    exact ih _ (hk _) hR'

/-- What each of the calls keeps holds in all states of a run. -/
theorem wp_within {I : σ → Prop} {h : Handler Op Resp σ} {p : Prog Op Resp α}
    (hp : Within P p) (hI : ∀ o s, P o → I s → I (h o s).2) {s : σ} (hs : I s) :
    wp h I p (fun _ => I) s := by
  induction p generalizing s with
  | ret a => exact hs
  | call o k ih =>
    obtain ⟨ho, hk⟩ := within_call.1 hp
    exact ⟨hI o s ho hs, ih _ (hk _) (hI o s ho hs)⟩

theorem returns_bind {p : Prog Op Resp α} {f : α → Prog Op Resp β} {a : α} {b : β}
    (hp : Returns p a) (hf : Returns (f a) b) : Returns (p >>= f) b := by
  induction hp with
  | ret a => exact hf
  | call r _ ih => exact .call r (ih hf)

theorem returns_call_bind {o : Op} {f : Resp o → Prog Op Resp α} {a : α} (r : Resp o)
    (h : Returns (f r) a) : Returns (call o ret >>= f) a := .call r h

/-! ### Results under some answers -/

/-- Whatever the answers in `A`, what is returned satisfies `Q`. -/
def Ensures (A : (o : Op) → Resp o → Prop) : Prog Op Resp α → (α → Prop) → Prop
  | ret a, Q => Q a
  | call o k, Q => ∀ r, A o r → Ensures A (k r) Q

section Ensures

variable {A : (o : Op) → Resp o → Prop} {Q : α → Prop}

theorem ensures_bind {p : Prog Op Resp α} {f : α → Prog Op Resp β} {R : β → Prop} :
    Ensures A (p >>= f) R ↔ Ensures A p fun a => Ensures A (f a) R := by
  induction p with
  | ret a => rfl
  | call o k ih => exact forall_congr' fun r => imp_congr_right fun _ => ih r

theorem ensures_congr {p : Prog Op Resp α} {R : α → Prop} (h : ∀ a, Q a ↔ R a) :
    Ensures A p Q ↔ Ensures A p R := by
  rw [funext fun a => propext (h a)]

theorem ensures_of_forall {p : Prog Op Resp α} (hQ : ∀ a, Q a) : Ensures A p Q := by
  induction p with
  | ret a => exact hQ a
  | call o k ih => exact fun r _ => ih r

/-- Where every call has an answer, a program returns. -/
theorem ensures_const {P : Prop} (hA : ∀ o, ∃ r, A o r) {p : Prog Op Resp α} :
    Ensures A p (fun _ => P) ↔ P := by
  refine ⟨fun hp => ?_, fun h => ensures_of_forall fun _ => h⟩
  induction p with
  | ret a => exact hp
  | call o k ih =>
    obtain ⟨r, hr⟩ := hA o
    exact ih r (hp r hr)

/-- A run whose answers are admitted. -/
theorem run_ensures {h : Handler Op Resp σ} {p : Prog Op Resp α} (hp : Ensures A p Q)
    (hA : ∀ o s, A o (h o s).1) (s : σ) : Q (run h p s).1 := by
  induction p generalizing s with
  | ret a => exact hp
  | call o k ih => exact ih _ (hp _ (hA o s)) _

end Ensures

theorem issues_map {p : Prog Op Resp α} {f : α → β} {o : Op} :
    Issues (p >>= fun a => ret (f a)) o ↔ Issues p o := by
  rw [issues_bind]
  exact or_iff_left fun ⟨_, _, h⟩ => not_issues_ret h

end Prog
