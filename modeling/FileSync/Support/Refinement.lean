import FileSync.Support.Program

/-!
# Support — Refinement

An interface whose calls are programs, and an abstract machine that answers the same calls from a
state of its own.

* `Refines h ops spec P R`: for the calls in `P`, from states that `R` relates, the program gives
  the answer of the machine and leaves related states.
* `Refines.run_sequence`: then the answers to any sequence of calls are those of the machine.
* `run_sequence_history`: what each call keeps, of the state and the calls so far, a sequence keeps.
-/

namespace Prog

variable {Op : Type} {Resp : Op → Type} {σ C A M : Type}

/-- The calls in turn, with all their answers. -/
def sequence (ops : C → Prog Op Resp A) : List C → Prog Op Resp (List A)
  | [] => ret []
  | c :: cs => do
      let a ← ops c
      let rest ← sequence ops cs
      return a :: rest

theorem sequence_map {D : Type} (ops : C → Prog Op Resp A) (f : D → C) (ds : List D) :
    sequence ops (ds.map f) = sequence (fun d => ops (f d)) ds := by
  induction ds with
  | nil => rfl
  | cons d ds ih => rw [List.map_cons, sequence, sequence, ih]

/-- One call more. -/
theorem run_sequence_concat (h : Handler Op Resp σ) (ops : C → Prog Op Resp A) (cs : List C) (c : C)
    (s : σ) :
    run h (sequence ops (cs ++ [c])) s =
      ((run h (sequence ops cs) s).1 ++ [(run h (ops c) (run h (sequence ops cs) s).2).1],
        (run h (ops c) (run h (sequence ops cs) s).2).2) := by
  induction cs generalizing s with
  | nil => exact run_bind (ops c) _ s
  | cons c' cs ih =>
    rw [List.cons_append, sequence, run_bind, run_bind, ih, sequence, run_bind, run_bind]
    rfl

theorem length_run_sequence (h : Handler Op Resp σ) (ops : C → Prog Op Resp A) (cs : List C)
    (s : σ) : (run h (sequence ops cs) s).1.length = cs.length := by
  induction cs generalizing s with
  | nil => rfl
  | cons c cs ih =>
    rw [sequence, run_bind, run_bind, List.length_cons, ← ih (run h (ops c) s).2]
    rfl

/-- The answers of the machine. -/
def replies (spec : C → M → A × M) : List C → M → List A
  | [], _ => []
  | c :: cs, m => (spec c m).1 :: replies spec cs (spec c m).2

/-- The state of the machine after the calls. -/
def settle (spec : C → M → A × M) : List C → M → M
  | [], m => m
  | c :: cs, m => settle spec cs (spec c m).2

/-- The programs refine the machine along `R`. -/
def Refines (h : Handler Op Resp σ) (ops : C → Prog Op Resp A) (spec : C → M → A × M)
    (P : C → Prop) (R : M → σ → Prop) : Prop :=
  ∀ c m s, P c → R m s →
    wp h (fun _ => True) (ops c) (fun a s' => a = (spec c m).1 ∧ R (spec c m).2 s') s

/-- The answers to a sequence of calls are those of the machine, and the states stay related. -/
theorem Refines.sequence {h : Handler Op Resp σ} {ops : C → Prog Op Resp A}
    {spec : C → M → A × M} {P : C → Prop} {R : M → σ → Prop} (href : Refines h ops spec P R)
    {cs : List C} (hcs : ∀ c ∈ cs, P c) {m : M} {s : σ} (hR : R m s) :
    (run h (Prog.sequence ops cs) s).1 = replies spec cs m ∧
      R (settle spec cs m) (run h (Prog.sequence ops cs) s).2 := by
  induction cs generalizing m s with
  | nil => exact ⟨rfl, hR⟩
  | cons c cs ih =>
    rw [List.forall_mem_cons] at hcs
    obtain ⟨ha, hR'⟩ := wp_run (href c m s hcs.1 hR)
    obtain ⟨hrest, hend⟩ := ih hcs.2 hR'
    rw [Prog.sequence, run_bind, run_bind, replies, ha, ← hrest]
    exact ⟨rfl, hend⟩

theorem Refines.run_sequence {h : Handler Op Resp σ} {ops : C → Prog Op Resp A}
    {spec : C → M → A × M} {P : C → Prop} {R : M → σ → Prop} (href : Refines h ops spec P R)
    {cs : List C} (hcs : ∀ c ∈ cs, P c) {m : M} {s : σ} (hR : R m s) :
    (run h (Prog.sequence ops cs) s).1 = replies spec cs m := (href.sequence hcs hR).1

/-- What holds of the calls that were made and the state they left. -/
theorem run_sequence_history {h : Handler Op Resp σ} {ops : C → Prog Op Resp A} {P : C → Prop}
    {J : List C → σ → Prop}
    (hstep : ∀ done c s, P c → J done s → J (done ++ [c]) (run h (ops c) s).2) {cs : List C}
    (hcs : ∀ c ∈ cs, P c) {s : σ} (hJ : J [] s) : J cs (run h (sequence ops cs) s).2 := by
  suffices hfrom : ∀ done s, J done s → J (done ++ cs) (run h (sequence ops cs) s).2 from
    hfrom [] s hJ
  clear hJ s
  induction cs with
  | nil => simp [sequence]
  | cons c cs ih =>
    intro done s hJ
    rw [List.forall_mem_cons] at hcs
    have hrest := ih hcs.2 _ _ (hstep done c s hcs.1 hJ)
    rw [List.append_assoc, List.singleton_append] at hrest
    rw [sequence, run_bind, run_bind]
    exact hrest

end Prog
