import FileSync.Cas.WriteOnce
import FileSync.Support.Locked

/-!
# Cas — the store under concurrent calls

A `BlobStore` is used by many goroutines at once: `Put` and `Delete` hold `s.mu` for writing, `Get`,
`Has` and `Verify` for reading, each from before its first call to the file system until it returns
(`internal/cas/store.go`).  The calls to the file system of operations that run at the same time are
interleaved as the lock allows.

* `readOnly_perform`: the operations that hold the lock for reading change nothing.
* `store_linearizable`: whatever the schedule, every answer is the one that a write-once map gives
  at some moment between the call of the operation and its return.
* `store_progress`: an operation that has been called does not wait on one that cannot go on.
-/

open Sha256 Filepath

namespace FileSync.Cas

open Locked (Mode Event State Explains)
open Proto (Request Exchange)

/-- How an operation takes `s.mu`: with `Lock` or with `RLock`. -/
def Call.mode : Call → Mode
  | .put _ | .delete _ => .exclusive
  | .get _ | .has _ | .verify _ => .shared

section Concurrent

variable {ν ι : Type} {peer : Request → ν → Exchange × ν} {s : BlobStore}

/-- An operation that shares the lock does not change the file system. -/
theorem readOnly_perform {c : Call} (hc : c.mode = .shared) :
    Prog.Within (Locked.ReadOnly (handle peer)) (s.perform c) := by
  cases c with
  | put _ | delete _ => cases hc
  | has hash =>
    refine Prog.within_call_bind.2 ⟨fun _ => rfl, fun r => ?_⟩
    cases r <;> exact Prog.within_ret _
  | get hash =>
    refine Prog.within_bind.2 ⟨?_, fun _ _ => Prog.within_ret _⟩
    exact BlobStore.within_get (fun _ => rfl) fun _ => rfl
  | verify hash =>
    refine Prog.within_bind.2 ⟨?_, fun _ _ => Prog.within_ret _⟩
    exact BlobStore.within_verify (fun _ => rfl) fun _ => rfl

variable [DecidableEq ι]

/-- **The store is a write-once map to all who use it at once.**  Whatever operations are called and
however their calls to the file system are interleaved, there is an order of the operations, with
those that returned before others were called in front of them, in which the map gives the answers
that were returned; and with no operation going on, the files are those of the map. -/
theorem store_linearizable (hs : isAbs s.baseDir) {w : World ν} {m : Spec.Blobs}
    (hm : s.Holding m w.fs) (call : ι → Call) (hlen : ∀ i, (call i).hash.length = 32)
    {es : List (Event ι)} {st : State Op Op.Resp (World ν) Answer ι}
    (hrun : Transition.exec (State.step (handle peer) (fun i => s.perform (call i))
      fun i => (call i).mode) (State.start w) es = some st) :
    ∃ order,
      Explains es st.Returned (fun order => Prog.replies Spec.answer (order.map call) m) order ∧
      (st.holders = [] → s.Holding (Prog.settle Spec.answer (order.map call) m) st.mem.fs) := by
  have hread (i : ι) (hi : (call i).mode = .shared) :
      Prog.Within (Locked.ReadOnly (handle peer)) (s.perform (call i)) := readOnly_perform hi
  have hserial (order : List ι) :
      (Locked.serial (handle peer) (fun i => s.perform (call i)) w order).1 =
          Prog.replies Spec.answer (order.map call) m ∧
        s.Holding (Prog.settle Spec.answer (order.map call) m)
          (Locked.serial (handle peer) (fun i => s.perform (call i)) w order).2.fs := by
    rw [Locked.serial, ← Prog.sequence_map]
    exact (BlobStore.refines_spec hs).sequence (by simp [hlen]) hm
  refine ⟨Locked.acquired es, ?_, fun hfree => ?_⟩
  · simpa only [(hserial _).1] using Locked.explains_acquired hread hrun
  · rw [Locked.mem_eq_serial hread hrun hfree]
    exact (hserial _).2

/-- One operation puts a chunk that the other reads. -/
def putAndGet (putting : Bool) : Call :=
  if putting then .put ⟨List.replicate 32 0, 1, [7]⟩ else .get (List.replicate 32 0)

/-- The reader is called first and has to wait for the writer. -/
def putBeforeGet : List (Event Bool) :=
  [.invoke false, .invoke true, .acquire true, .move true, .move true, .move true, .move true,
    .move true, .respond true, .acquire false, .move false, .move false, .respond false]

/-- The waiting `Get` finds the chunk. -/
theorem store_linearizable_put_get :
    ∃ st, Transition.exec (State.step (handle scripted)
        (fun i => (BlobStore.mk [47, 115]).perform (putAndGet i)) fun i => (putAndGet i).mode)
        (State.start emptyStore) putBeforeGet = some st ∧
      ∃ order, Explains putBeforeGet st.Returned
          (fun order => Prog.replies Spec.answer (order.map putAndGet) ∅) order ∧
        (st.holders = [] → (BlobStore.mk [47, 115]).Holding
          (Prog.settle Spec.answer (order.map putAndGet) ∅) st.mem.fs) := by
  obtain ⟨hready, hsound⟩ :=
    BlobStore.ready_and_sound_of_empty (s := ⟨[47, 115]⟩) (by decide) reach_emptyStore
  have hm : (BlobStore.mk [47, 115]).Holding ∅ emptyStore.fs :=
    ⟨hready, hsound.clear, fun hash hlen => by
      rw [Finmap.lookup_empty]
      exact not_not.1 (BlobStore.not_holds_of_empty reach_emptyStore
        (BlobStore.ne_nil_of_length hlen))⟩
  have hrun := Option.isSome_iff_exists.1 (show (Transition.exec (State.step (handle scripted)
    (fun i => (BlobStore.mk [47, 115]).perform (putAndGet i)) fun i => (putAndGet i).mode)
    (State.start emptyStore) putBeforeGet).isSome = true by decide +kernel)
  obtain ⟨st, hst⟩ := hrun
  exact ⟨st, hst, store_linearizable (by decide) hm putAndGet (by decide) hst⟩

/-- **The lock never blocks all who use the store.** -/
theorem store_progress {w : World ν} (call : ι → Call)
    {es : List (Event ι)} {st : State Op Op.Resp (World ν) Answer ι}
    (hrun : Transition.exec (State.step (handle peer) (fun i => s.perform (call i))
      fun i => (call i).mode) (State.start w) es = some st)
    {i : ι} (hcalled : .invoke i ∈ es) (hnot : ∀ a, ¬ st.Returned i a) :
    ∃ j, ∃ e ∈ [Event.acquire j, .move j, .respond j],
      (st.step (handle peer) (fun i => s.perform (call i)) (fun i => (call i).mode) e).isSome :=
  Locked.progress (fun _ hi => readOnly_perform hi) hrun hcalled hnot

end Concurrent

end FileSync.Cas
