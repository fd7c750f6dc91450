import FileSync.Support.Refinement
import FileSync.Support.Transition

/-!
# Support — Locked

Operations that are programs, run at the same time under one reader-writer lock.  Each operation is
called once, waits for the lock, makes the calls of its program one at a time, and gives the lock
back when it returns; between two calls of one operation the others may go on as the lock allows.

* `State.step` is one such move, of any operation.
* `Explains es returned reply order` says that `order` accounts for what has been returned: the
  answers are those the operations get one after the other in this order, and an operation that
  returned before another was called comes before it.
* `explains_acquired`: the order in which the operations took the lock accounts for every run, if
  those that share the lock do not change the state.
* `progress`: as long as an operation has been called and has not returned, some operation can move.
-/

namespace Locked

open Prog Transition

variable {Op : Type} {Resp : Op → Type} {σ A ι : Type}

/-- How an operation takes the lock. -/
inductive Mode
  | shared
  | exclusive
deriving DecidableEq, Repr

/-- Where an operation is. -/
inductive Place (Op : Type) (Resp : Op → Type) (A : Type)
  | idle
  | waiting
  | inside (rest : Prog Op Resp A)
  | done (a : A)

structure State (Op : Type) (Resp : Op → Type) (σ A ι : Type) where
  mem : σ
  place : ι → Place Op Resp A
  holders : List ι

/-- The moves of an operation. -/
inductive Event (ι : Type)
  | invoke (i : ι)
  | acquire (i : ι)
  | move (i : ι)
  | respond (i : ι)
deriving DecidableEq, Repr

/-- The lock is free for an operation: of those that hold it and the one that takes it either all
share it or there is one. -/
def Free (mode : ι → Mode) (i : ι) (holders : List ι) : Prop :=
  match mode i with
  | .exclusive => holders = []
  | .shared => ∀ j ∈ holders, mode j = .shared

instance [DecidableEq ι] (mode : ι → Mode) (i : ι) (holders : List ι) :
    Decidable (Free mode i holders) :=
  match hm : mode i with
  | .exclusive => decidable_of_iff (holders = []) (by rw [Free, hm])
  | .shared => decidable_of_iff (∀ j ∈ holders, mode j = .shared) (by rw [Free, hm])

section Step

variable [DecidableEq ι] (h : Handler Op Resp σ) (ops : ι → Prog Op Resp A) (mode : ι → Mode)

def State.step (s : State Op Resp σ A ι) : Event ι → Option (State Op Resp σ A ι)
  | .invoke i =>
    match s.place i with
    | .idle => some { s with place := Function.update s.place i .waiting }
    | _ => none
  | .acquire i =>
    match s.place i with
    | .waiting =>
      if Free mode i s.holders then
        some { s with place := Function.update s.place i (.inside (ops i)),
                      holders := i :: s.holders }
      else none
    | _ => none
  | .move i =>
    match s.place i with
    | .inside (.call o k) =>
      some { s with mem := (h o s.mem).2,
                    place := Function.update s.place i (.inside (k (h o s.mem).1)) }
    | _ => none
  | .respond i =>
    match s.place i with
    | .inside (.ret a) =>
      some { s with place := Function.update s.place i (.done a),
                    holders := s.holders.erase i }
    | _ => none

end Step

/-- Nothing has been called. -/
def State.start (s₀ : σ) : State Op Resp σ A ι where
  mem := s₀
  place := fun _ => .idle
  holders := []

/-- What a move does. -/
inductive Happens [DecidableEq ι] (h : Handler Op Resp σ) (ops : ι → Prog Op Resp A)
    (mode : ι → Mode) : State Op Resp σ A ι → Event ι → State Op Resp σ A ι → Prop
  | invoke {s : State Op Resp σ A ι} {i : ι} (hi : s.place i = .idle) :
      Happens h ops mode s (.invoke i) { s with place := Function.update s.place i .waiting }
  | acquire {s : State Op Resp σ A ι} {i : ι} (hi : s.place i = .waiting)
      (hfree : Free mode i s.holders) :
      Happens h ops mode s (.acquire i)
        { s with place := Function.update s.place i (.inside (ops i)), holders := i :: s.holders }
  | move {s : State Op Resp σ A ι} {i : ι} {o : Op} {k : Resp o → Prog Op Resp A}
      (hi : s.place i = .inside (.call o k)) :
      Happens h ops mode s (.move i)
        { s with mem := (h o s.mem).2,
                 place := Function.update s.place i (.inside (k (h o s.mem).1)) }
  | respond {s : State Op Resp σ A ι} {i : ι} {a : A} (hi : s.place i = .inside (.ret a)) :
      Happens h ops mode s (.respond i)
        { s with place := Function.update s.place i (.done a), holders := s.holders.erase i }

section Runs

variable [DecidableEq ι] {h : Handler Op Resp σ} {ops : ι → Prog Op Resp A} {mode : ι → Mode}
  {s s' : State Op Resp σ A ι}

theorem happens_of_step {e : Event ι} (hs : s.step h ops mode e = some s') :
    Happens h ops mode s e s' := by
  cases e with
  | invoke i =>
    simp only [State.step] at hs
    split at hs
    · next hi =>
        cases hs
        exact .invoke hi
    · cases hs
  | acquire i =>
    simp only [State.step] at hs
    split at hs
    · next hi =>
        split at hs
        · next hfree =>
            cases hs
            exact .acquire hi hfree
        · cases hs
    · cases hs
  | move i =>
    simp only [State.step] at hs
    split at hs
    · next hi =>
        cases hs
        exact .move hi
    · cases hs
  | respond i =>
    simp only [State.step] at hs
    split at hs
    · next hi =>
        cases hs
        exact .respond hi
    · cases hs

end Runs

/-! ### The order of the operations -/

section Order

/-- The operations that took the lock, in turn. -/
def acquired (es : List (Event ι)) : List ι :=
  es.filterMap fun
    | .acquire i => some i
    | _ => none

@[simp] theorem acquired_append (es es' : List (Event ι)) :
    acquired (es ++ es') = acquired es ++ acquired es' := List.filterMap_append

@[simp] theorem acquired_invoke (i : ι) : acquired [.invoke i] = [] := rfl

@[simp] theorem acquired_acquire (i : ι) : acquired [.acquire i] = [i] := rfl

@[simp] theorem acquired_move (i : ι) : acquired [.move i] = [] := rfl

@[simp] theorem acquired_respond (i : ι) : acquired [.respond i] = [] := rfl

/-- `x` comes before `y`. -/
def Before {α : Type} (xs : List α) (x y : α) : Prop :=
  ∃ before after, xs = before ++ after ∧ x ∈ before ∧ y ∈ after

/-- The order accounts for what has been returned: the operations get these answers one after the
other, and one that returned before another was called comes before it. -/
structure Explains (es : List (Event ι)) (returned : ι → A → Prop) (reply : List ι → List A)
    (order : List ι) : Prop where
  nodup : order.Nodup
  called : ∀ i ∈ order, .invoke i ∈ es
  answers : ∀ i a, returned i a → (i, a) ∈ order.zip (reply order)
  realTime : ∀ i j, Before es (.respond i) (.invoke j) → j ∈ order → Before order i j

/-- The operation has returned `a`. -/
def State.Returned (s : State Op Resp σ A ι) (i : ι) (a : A) : Prop := s.place i = .done a

/-- The call leaves the state alone. -/
def ReadOnly (h : Handler Op Resp σ) (o : Op) : Prop := ∀ s, (h o s).2 = s

theorem run_readOnly {h : Handler Op Resp σ} {p : Prog Op Resp A} (hp : Within (ReadOnly h) p)
    (s : σ) : (run h p s).2 = s :=
  run_within (I := (· = s)) hp (fun _ s' ho hs => (ho s').trans hs) rfl

end Order

/-! ### What every run keeps -/

section Invariant

variable (h : Handler Op Resp σ) (ops : ι → Prog Op Resp A) (mode : ι → Mode) (s₀ : σ)

/-- The operations in turn: the answers and the state at the end. -/
abbrev serial (order : List ι) : List A × σ := run h (sequence ops order) s₀

/-- What holds of one operation, after the events `es`, with `mem` as the state and `holders` as
those that have the lock.  One that has the lock is ahead of its place in the order: with the calls
that it has not made yet it gets the answer it gets there. -/
def Fits (es : List (Event ι)) (mem : σ) (holders : List ι) (i : ι) : Place Op Resp A → Prop
  | .idle => .invoke i ∉ es ∧ i ∉ acquired es ∧ .respond i ∉ es ∧ i ∉ holders
  | .waiting => .invoke i ∈ es ∧ i ∉ acquired es ∧ .respond i ∉ es ∧ i ∉ holders
  | .inside p => .invoke i ∈ es ∧ .respond i ∉ es ∧ i ∈ holders ∧
      (i, (run h p mem).1) ∈ (acquired es).zip (serial h ops s₀ (acquired es)).1 ∧
      (mode i = .shared → Within (ReadOnly h) p) ∧
      (mode i = .exclusive → (run h p mem).2 = (serial h ops s₀ (acquired es)).2)
  | .done a => .invoke i ∈ es ∧ i ∉ holders ∧
      (i, a) ∈ (acquired es).zip (serial h ops s₀ (acquired es)).1

/-- If all that have the lock share it, the state is the one that the operations leave in the order
in which they took it. -/
structure Inv (es : List (Event ι)) (s : State Op Resp σ A ι) : Prop where
  fits : ∀ i, Fits h ops mode s₀ es s.mem s.holders i (s.place i)
  nodup : (acquired es).Nodup
  once : s.holders.Nodup
  alone : ∀ i ∈ s.holders, mode i = .exclusive → s.holders = [i]
  settled : (∀ i ∈ s.holders, mode i = .shared) → s.mem = (serial h ops s₀ (acquired es)).2

variable {h ops mode s₀} {es : List (Event ι)} {s : State Op Resp σ A ι}

theorem inv_start : Inv h ops mode s₀ [] (State.start s₀) where
  fits := fun i => by simp [State.start, Fits, acquired]
  nodup := by simp [acquired]
  once := by simp [State.start]
  alone := by simp [State.start]
  settled := fun _ => rfl

/-- What a move of another operation must leave. -/
theorem Fits.congr {es' : List (Event ι)} {mem mem' : σ} {holders holders' : List ι} {i : ι}
    {x : Place Op Resp A} (hx : Fits h ops mode s₀ es mem holders i x)
    (hinv : .invoke i ∈ es' ↔ .invoke i ∈ es) (hres : .respond i ∈ es' ↔ .respond i ∈ es)
    (hacq : i ∈ acquired es' ↔ i ∈ acquired es) (hhold : i ∈ holders' ↔ i ∈ holders)
    (hzip : ∀ a, (i, a) ∈ (acquired es).zip (serial h ops s₀ (acquired es)).1 →
      (i, a) ∈ (acquired es').zip (serial h ops s₀ (acquired es')).1)
    (hmem : i ∈ holders → mem' = mem ∧ (mode i = .exclusive →
      (serial h ops s₀ (acquired es')).2 = (serial h ops s₀ (acquired es)).2)) :
    Fits h ops mode s₀ es' mem' holders' i x := by
  cases x with
  | idle => simpa only [Fits, hinv, hres, hacq, hhold] using hx
  | waiting => simpa only [Fits, hinv, hres, hacq, hhold] using hx
  | inside p =>
    obtain ⟨hi, hr, hh, hz, hread, hfinal⟩ := hx
    obtain ⟨rfl, hlast⟩ := hmem hh
    exact ⟨hinv.2 hi, fun hr' => hr (hres.1 hr'), hhold.2 hh, hzip _ hz, hread,
      fun he => (hfinal he).trans (hlast he).symm⟩
  | done a =>
    obtain ⟨hi, hh, hz⟩ := hx
    exact ⟨hinv.2 hi, fun hh' => hh (hhold.1 hh'), hzip a hz⟩

theorem Inv.mem_acquired (hinv : Inv h ops mode s₀ es s) {i : ι} (hi : .respond i ∈ es) :
    i ∈ acquired es := by
  have hfits := hinv.fits i
  cases hp : s.place i with
  | idle | waiting =>
    rw [hp] at hfits
    exact (hfits.2.2.1 hi).elim
  | inside p =>
    rw [hp] at hfits
    exact (hfits.2.1 hi).elim
  | done a =>
    rw [hp] at hfits
    exact (List.of_mem_zip hfits.2.2).1

theorem Inv.not_idle (hinv : Inv h ops mode s₀ es s) {i : ι} (hi : i ∈ acquired es) :
    s.place i ≠ .idle := by
  intro hp
  have hfits := hinv.fits i
  rw [hp] at hfits
  exact hfits.2.1 hi

theorem Inv.invoke_mem (hinv : Inv h ops mode s₀ es s) {i : ι} (hi : s.place i ≠ .idle) :
    .invoke i ∈ es := by
  have hfits := hinv.fits i
  cases hp : s.place i with
  | idle => exact (hi hp).elim
  | waiting | inside _ | done _ =>
    rw [hp] at hfits
    exact hfits.1

variable [DecidableEq ι]

/-- A move of one operation, if it leaves the others. -/
theorem Inv.update (hinv : Inv h ops mode s₀ es s) {i : ι} {x : Place Op Resp A} {e : Event ι}
    {mem : σ} {holders : List ι}
    (hi : Fits h ops mode s₀ (es ++ [e]) mem holders i x)
    (hothers : ∀ j, j ≠ i → Fits h ops mode s₀ es s.mem s.holders j (s.place j) →
      Fits h ops mode s₀ (es ++ [e]) mem holders j (s.place j))
    (hnodup : (acquired (es ++ [e])).Nodup) (honce : holders.Nodup)
    (halone : ∀ j ∈ holders, mode j = .exclusive → holders = [j])
    (hsettled : (∀ j ∈ holders, mode j = .shared) →
      mem = (serial h ops s₀ (acquired (es ++ [e]))).2) :
    Inv h ops mode s₀ (es ++ [e]) ⟨mem, Function.update s.place i x, holders⟩ := by
  refine ⟨fun j => ?_, hnodup, honce, halone, hsettled⟩
  rcases eq_or_ne j i with rfl | hne
  · simpa only [Function.update_self] using hi
  · simpa only [Function.update_of_ne hne] using hothers j hne (hinv.fits j)

theorem Inv.invoke (hinv : Inv h ops mode s₀ es s) {i : ι} (hi : s.place i = .idle) :
    Inv h ops mode s₀ (es ++ [.invoke i])
      { s with place := Function.update s.place i .waiting } := by
  have hfits := hinv.fits i
  rw [hi] at hfits
  obtain ⟨-, hacq, hres, hhold⟩ := hfits
  refine hinv.update ⟨by simp, by simpa using hacq, by simpa using hres, hhold⟩
    (fun j hj hfit => ?_) (by simpa using hinv.nodup) hinv.once hinv.alone
    (by simpa using hinv.settled)
  exact hfit.congr (by simp [hj]) (by simp) (by simp) Iff.rfl (by simp) (by simp)

theorem Inv.acquire (hread : ∀ i, mode i = .shared → Within (ReadOnly h) (ops i))
    (hinv : Inv h ops mode s₀ es s) {i : ι} (hi : s.place i = .waiting)
    (hfree : Free mode i s.holders) :
    Inv h ops mode s₀ (es ++ [.acquire i])
      { s with place := Function.update s.place i (.inside (ops i)),
               holders := i :: s.holders } := by
  have hfits := hinv.fits i
  rw [hi] at hfits
  obtain ⟨hcalled, hacq, hres, hhold⟩ := hfits
  -- Whoever takes the lock finds the state that the operations before it leave.
  have hshared : ∀ j ∈ s.holders, mode j = .shared := by
    cases hm : mode i with
    | exclusive =>
      rw [Free, hm] at hfree
      simp [hfree]
    | shared => simpa [Free, hm] using hfree
  have hmem := hinv.settled hshared
  have hserial := run_sequence_concat h ops (acquired es) i s₀
  have hlen := length_run_sequence h ops (acquired es) s₀
  have hzip : (acquired (es ++ [.acquire i])).zip
      (serial h ops s₀ (acquired (es ++ [.acquire i]))).1 =
        (acquired es).zip (serial h ops s₀ (acquired es)).1 ++ [(i, (run h (ops i) s.mem).1)] := by
    rw [acquired_append, acquired_acquire, serial, hserial, hmem]
    exact List.zip_append hlen.symm
  have hfinal : (serial h ops s₀ (acquired (es ++ [.acquire i]))).2 = (run h (ops i) s.mem).2 := by
    rw [acquired_append, acquired_acquire, serial, hserial, hmem]
  refine hinv.update ?_ (fun j hj hfit => ?_) ?_ (List.nodup_cons.2 ⟨hhold, hinv.once⟩)
    (fun j hj he => ?_) fun hall => ?_
  · refine ⟨by simpa using hcalled, by simpa using hres, by simp, ?_, hread i, fun _ => hfinal.symm⟩
    rw [hzip]
    simp
  · refine hfit.congr (by simp) (by simp) (by simp [hj]) (by simp [hj]) (fun a ha => ?_)
      fun hh => ⟨rfl, fun he => ?_⟩
    · rw [hzip]
      exact List.mem_append_left _ ha
    · rw [hshared j hh] at he
      cases he
  · rw [acquired_append]
    refine List.nodup_append.2 ⟨hinv.nodup, by simp, fun j hj k hk => ?_⟩
    rintro rfl
    exact hacq (List.mem_singleton.1 hk ▸ hj)
  · rcases List.mem_cons.1 hj with rfl | hj
    · rw [Free, he] at hfree
      rw [hfree]
    · rw [hshared j hj] at he
      cases he
  · rw [hfinal, run_readOnly (hread i (hall i (by simp)))]

theorem Inv.move (hinv : Inv h ops mode s₀ es s) {i : ι} {o : Op} {k : Resp o → Prog Op Resp A}
    (hi : s.place i = .inside (.call o k)) :
    Inv h ops mode s₀ (es ++ [.move i])
      { s with mem := (h o s.mem).2,
               place := Function.update s.place i (.inside (k (h o s.mem).1)) } := by
  have hfits := hinv.fits i
  rw [hi] at hfits
  obtain ⟨hcalled, hres, hhold, hz, hread, hfinal⟩ := hfits
  have hacq : acquired (es ++ [.move i]) = acquired es := by simp
  -- A call of an operation that shares the lock changes nothing; one that does not is alone.
  have hmem : mode i = .shared → (h o s.mem).2 = s.mem := fun hm => (within_call.1 (hread hm)).1 _
  refine hinv.update ?_ (fun j hj hfit => ?_) (by simpa using hinv.nodup) hinv.once hinv.alone
    fun hall => ?_
  · refine ⟨by simpa using hcalled, by simpa using hres, hhold, ?_, fun hm => ?_, fun hm => ?_⟩
    · rw [hacq]
      exact hz
    · exact (within_call.1 (hread hm)).2 _
    · rw [hacq]
      exact hfinal hm
  · refine hfit.congr (by simp) (by simp) (by simp) Iff.rfl (by simp) fun hh => ⟨?_, by simp⟩
    cases hm : mode i with
    | shared => exact hmem hm
    | exclusive =>
      rw [hinv.alone i hhold hm] at hh
      exact (hj (List.mem_singleton.1 hh)).elim
  · rw [hacq, ← hinv.settled hall]
    exact hmem (hall i hhold)

theorem Inv.respond (hinv : Inv h ops mode s₀ es s) {i : ι} {a : A}
    (hi : s.place i = .inside (.ret a)) :
    Inv h ops mode s₀ (es ++ [.respond i])
      { s with place := Function.update s.place i (.done a), holders := s.holders.erase i } := by
  have hfits := hinv.fits i
  rw [hi] at hfits
  obtain ⟨hcalled, -, hhold, hz, -, hfinal⟩ := hfits
  have hacq : acquired (es ++ [.respond i]) = acquired es := by simp
  refine hinv.update ⟨by simpa using hcalled, ?_, by rw [hacq]; exact hz⟩ (fun j hj hfit => ?_)
    (by simpa using hinv.nodup) (hinv.once.erase i) (fun j hj he => ?_) fun hall => ?_
  · exact hinv.once.not_mem_erase
  · exact hfit.congr (by simp) (by simp [hj]) (by simp) (List.mem_erase_of_ne hj) (by simp)
      fun _ => ⟨rfl, by simp⟩
  · have halone := hinv.alone j (List.mem_of_mem_erase hj) he
    rw [halone] at hhold hj ⊢
    rw [List.mem_singleton.1 hhold] at hj
    simp at hj
  · rw [hacq]
    cases hm : mode i with
    | exclusive => exact hfinal hm
    | shared =>
      refine hinv.settled fun j hj => ?_
      rcases eq_or_ne j i with rfl | hne
      · exact hm
      · exact hall j ((List.mem_erase_of_ne hne).2 hj)

theorem inv_step (hread : ∀ i, mode i = .shared → Within (ReadOnly h) (ops i))
    (hinv : Inv h ops mode s₀ es s) {e : Event ι} {s' : State Op Resp σ A ι}
    (hs : s.step h ops mode e = some s') : Inv h ops mode s₀ (es ++ [e]) s' := by
  cases happens_of_step hs with
  | invoke hi => exact hinv.invoke hi
  | acquire hi hfree => exact hinv.acquire hread hi hfree
  | move hi => exact hinv.move hi
  | respond hi => exact hinv.respond hi

theorem inv_of_exec (hread : ∀ i, mode i = .shared → Within (ReadOnly h) (ops i))
    (hrun : exec (State.step h ops mode) (State.start s₀) es = some s) :
    Inv h ops mode s₀ es s :=
  exec_history inv_start (fun _ _ _ _ _ hinv hs => inv_step hread hinv hs) hrun

/-- An operation is called once. -/
theorem not_mem_invoke {s' : State Op Resp σ A ι}
    (hrun : exec (State.step h ops mode) s es = some s') {i : ι} (hi : s.place i ≠ .idle) :
    .invoke i ∉ es := by
  induction es generalizing s with
  | nil => simp
  | cons e es ih =>
    obtain ⟨s₁, hs₁, hrest⟩ := Option.bind_eq_some_iff.1 hrun
    have hupdate {j : ι} {x : Place Op Resp A} (hx : x ≠ .idle) :
        Function.update s.place j x i ≠ .idle := by
      rcases eq_or_ne i j with rfl | hne
      · rwa [Function.update_self]
      · rwa [Function.update_of_ne hne]
    rw [List.mem_cons, not_or]
    cases happens_of_step hs₁ with
    | @invoke j hj =>
      refine ⟨fun heq => hi ?_, ih hrest (hupdate (by simp))⟩
      rwa [(Event.invoke.inj heq)]
    | acquire _ _ => exact ⟨by simp, ih hrest (hupdate (by simp))⟩
    | move _ => exact ⟨by simp, ih hrest (hupdate (by simp))⟩
    | respond _ => exact ⟨by simp, ih hrest (hupdate (by simp))⟩

/-- **The order in which the lock was taken accounts for every run.** -/
theorem explains_acquired (hread : ∀ i, mode i = .shared → Within (ReadOnly h) (ops i))
    (hrun : exec (State.step h ops mode) (State.start s₀) es = some s) :
    Explains es s.Returned (fun order => (serial h ops s₀ order).1) (acquired es) := by
  have hinv := inv_of_exec hread hrun
  refine ⟨hinv.nodup, fun i hi => hinv.invoke_mem (hinv.not_idle hi), fun i a hi => ?_, ?_⟩
  · have hfits := hinv.fits i
    rw [hi] at hfits
    exact hfits.2.2
  · rintro i j ⟨es₁, es₂, rfl, hi, hj⟩ hmem
    rw [exec_append] at hrun
    obtain ⟨s₁, hs₁, hs₂⟩ := Option.bind_eq_some_iff.1 hrun
    have hinv₁ := inv_of_exec hread hs₁
    refine ⟨acquired es₁, acquired es₂, acquired_append es₁ es₂, hinv₁.mem_acquired hi, ?_⟩
    rw [acquired_append] at hmem
    refine (List.mem_append.1 hmem).resolve_left fun hj₁ => ?_
    exact not_mem_invoke hs₂ (hinv₁.not_idle hj₁) hj

/-- The state, when no operation has the lock. -/
theorem mem_eq_serial (hread : ∀ i, mode i = .shared → Within (ReadOnly h) (ops i))
    (hrun : exec (State.step h ops mode) (State.start s₀) es = some s) (hfree : s.holders = []) :
    s.mem = (serial h ops s₀ (acquired es)).2 :=
  (inv_of_exec hread hrun).settled (by simp [hfree])

/-- **No operation waits for ever on one that cannot go on.** -/
theorem progress (hread : ∀ i, mode i = .shared → Within (ReadOnly h) (ops i))
    (hrun : exec (State.step h ops mode) (State.start s₀) es = some s) {i : ι}
    (hcalled : .invoke i ∈ es) (hnot : ∀ a, ¬ s.Returned i a) :
    ∃ j, ∃ e ∈ [Event.acquire j, .move j, .respond j], (s.step h ops mode e).isSome := by
  have hinv := inv_of_exec hread hrun
  by_cases hne : s.holders = []
  · refine ⟨i, .acquire i, by simp, ?_⟩
    have hfits := hinv.fits i
    cases hp : s.place i with
    | idle =>
      rw [hp] at hfits
      exact (hfits.1 hcalled).elim
    | waiting => cases hm : mode i <;> simp [State.step, hp, Free, hm, hne]
    | inside p =>
      rw [hp, hne] at hfits
      simp [Fits] at hfits
    | done a => exact (hnot a hp).elim
  · obtain ⟨j, hj⟩ := List.exists_mem_of_ne_nil _ hne
    have hfits := hinv.fits j
    cases hp : s.place j with
    | idle | waiting =>
      rw [hp] at hfits
      exact (hfits.2.2.2 hj).elim
    | done a =>
      rw [hp] at hfits
      exact (hfits.2.1 hj).elim
    | inside p =>
      cases p with
      | ret a => exact ⟨j, .respond j, by simp, by simp [State.step, hp]⟩
      | call o k => exact ⟨j, .move j, by simp, by simp [State.step, hp]⟩

end Invariant

end Locked
