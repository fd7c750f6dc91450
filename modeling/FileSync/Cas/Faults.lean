import FileSync.Cas.Layout
import FileSync.Support.Outcomes

/-!
# Cas — a `Put` that is interrupted

`Put` of `internal/cas/store.go` on a disk that fails, in a process that may stop.  Any call that
changes the file system may fail, having done nothing, a part of its work or all of it, and the
process may stop after any call: of the directories to be made the first few may be there, and of
the data a first part may be written.  To rename a file is done or not.

`putSteps` is `Put` with the calls of its buffered writer and the closing of its file; without
faults it is `put` (`run_putSteps`).

* `putEffect_passes`: whatever the faults and wherever it is cut, a `Put` has only done what
  `PutEffect` allows.
* `put_atomic`: so nothing that is stored changes, the place of the chunk has all of its data or is
  vacant as before, and a `Put` that is then not interrupted stores the chunk.
-/

open Sha256 Filepath

namespace FileSync.Cas

/-- The calls of `Put`. -/
inductive Step
  | stat (path : Bytes)
  | change (c : Change)
  | close (path : Bytes)

def Step.Resp : Step → Type
  | .stat _ => Except Errno Os.Entry
  | .change _ => Except Errno Unit
  | .close _ => Except Errno Unit

namespace Step

def stats (path : Bytes) : Prog Step Step.Resp (Except Errno Os.Entry) := .call (.stat path) .ret

def changes (c : Change) : Prog Step Step.Resp (Except Errno Unit) := .call (.change c) .ret

def closes (path : Bytes) : Prog Step Step.Resp (Except Errno Unit) := .call (.close path) .ret

/-- `bufio.Writer.Write`: more than the buffer holds is written at once. -/
def bufWrite (path data : Bytes) : Prog Step Step.Resp (Except Errno Unit) :=
  if bufferSize < data.length then changes (.write path data) else return .ok ()

/-- `bufio.Writer.Flush`: what is in the buffer, unless a write has failed. -/
def bufFlush (path data : Bytes) (writeErr : Except Errno Unit) :
    Prog Step Step.Resp (Except Errno Unit) :=
  match writeErr with
  | .error e => return .error e
  | .ok () =>
    if bufferSize < data.length ∨ data = [] then return .ok ()
    else changes (.write path data)

end Step

open Step

namespace BlobStore

/-- The temporary file is removed, and `Put` fails. -/
def abandon (tmpPath : Bytes) (context : String) (e : Errno) :
    Prog Step Step.Resp (Except Err Bool) := do
  let _ ← changes (.remove tmpPath)
  return .error (.wrap context (.errno e))

/-- From the open temporary file on: all three calls of the writer are made, and the first error
counts. -/
def writeSteps (path tmpPath data : Bytes) : Prog Step Step.Resp (Except Err Bool) := do
  let writeErr ← bufWrite tmpPath data
  let flushErr ← bufFlush tmpPath data writeErr
  let closeErr ← closes tmpPath
  match writeErr, flushErr, closeErr with
  | .error e, _, _ => abandon tmpPath "writing chunk data" e
  | .ok (), .error e, _ => abandon tmpPath "flushing chunk data" e
  | .ok (), .ok (), .error e => abandon tmpPath "closing chunk file" e
  | .ok (), .ok (), .ok () =>
  match ← changes (.rename tmpPath path) with
  | .error e => abandon tmpPath "renaming chunk file" e
  | .ok () => return .ok true

/-- `Put`, call by call. -/
def putSteps (s : BlobStore) (chunk : Chunk) : Prog Step Step.Resp (Except Err Bool) := do
  let path := s.chunkPath chunk.hashHex
  match ← stats path with
  | .ok _ => return .ok false
  | .error _ =>
  match ← changes (.mkdirAll (dir path) dirPermissions) with
  | .error e => return .error (.wrapOf "creating chunk directory" (dir path) (.errno e))
  | .ok () =>
  let tmpPath := path ++ tmpSuffix
  match ← changes (.openTrunc tmpPath filePermissions) with
  | .error e => return .error (.wrap "creating temp file" (.errno e))
  | .ok () =>
  writeSteps path tmpPath chunk.data

/-! ### Without faults -/

/-- The answers of a disk that does not fail. -/
def steady (umask : UInt32) : Prog.Handler Step Step.Resp Os.Fs
  | .stat path, fs => (Os.stat fs (resolve path), fs)
  | .change c, fs =>
    match c.apply fs umask with
    | .ok fs' => (.ok (), fs')
    | .error e => (.error e, fs)
  | .close _, fs => (.ok (), fs)

section Steady
variable {ν α : Type} {peer : Proto.Request → ν → Proto.Exchange × ν}

/-- The result and the file system that it leaves. -/
def result (out : α × World ν) : α × Os.Fs := (out.1, out.2.fs)

/-- A change, and what follows it, in both models. -/
theorem run_changes_bind {c : Change} {k : Except Errno Unit → Prog Step Step.Resp α}
    {k' : Except Errno Unit → Cmd α} {w : World ν}
    (h : ∀ r w', w'.umask = w.umask →
      Prog.run (steady w.umask) (k r) w'.fs = result (Prog.run (handle peer) (k' r) w')) :
    Prog.run (steady w.umask) (changes c >>= k) w.fs =
      result (Prog.run (handle peer) (Sys.change c >>= k') w) := by
  have hsteps : Prog.run (steady w.umask) (changes c >>= k) w.fs =
      Prog.run (steady w.umask) (k (steady w.umask (.change c) w.fs).1)
        (steady w.umask (.change c) w.fs).2 := rfl
  have hcmd : Prog.run (handle peer) (Sys.change c >>= k') w =
      Prog.run (handle peer) (k' (w.after (c.apply w.fs w.umask)).1)
        (w.after (c.apply w.fs w.umask)).2 := rfl
  rw [hsteps, hcmd, steady]
  cases c.apply w.fs w.umask with
  | error e => exact h (.error e) w rfl
  | ok fs' => exact h (.ok ()) { w with fs := fs' } rfl

theorem run_abandon {tmpPath : Bytes} {context : String} {e : Errno} (w : World ν) :
    Prog.run (steady w.umask) (abandon tmpPath context e) w.fs =
      result (Prog.run (handle peer) (do
        let _ ← Sys.remove tmpPath
        return (.error (.wrap context (.errno e)) : Except Err Bool)) w) :=
  run_changes_bind fun _ _ _ => rfl

/-- The renaming, in both models. -/
theorem run_rename {path tmpPath : Bytes} (w : World ν) :
    Prog.run (steady w.umask) (do
        match ← changes (.rename tmpPath path) with
        | .error e => abandon tmpPath "renaming chunk file" e
        | .ok () => return .ok true) w.fs =
      result (Prog.run (handle peer) (do
        match ← Sys.rename tmpPath path with
        | .error e =>
          let _ ← Sys.remove tmpPath
          return .error (.wrap "renaming chunk file" (.errno e))
        | .ok () => return .ok true) w) := by
  refine run_changes_bind fun r w₁ hu => ?_
  rw [← hu]
  cases r with
  | error e => exact run_abandon w₁
  | ok _ => rfl

/-- The temporary file is closed after its one write, or after none. -/
theorem run_writeSteps {path tmpPath data : Bytes} (w : World ν) :
    Prog.run (steady w.umask) (writeSteps path tmpPath data) w.fs =
      result (Prog.run (handle peer) (do
        match ← writeData tmpPath data with
        | .error e =>
          let _ ← Sys.remove tmpPath
          return .error e
        | .ok () =>
        match ← Sys.rename tmpPath path with
        | .error e =>
          let _ ← Sys.remove tmpPath
          return .error (.wrap "renaming chunk file" (.errno e))
        | .ok () => return .ok true) w) := by
  by_cases hnil : data = []
  · subst hnil
    exact run_rename w
  by_cases hbig : bufferSize < data.length
  · rw [writeSteps, bufWrite, if_pos hbig, writeData, if_neg hnil, Prog.bind_assoc]
    refine run_changes_bind fun r w₁ hu => ?_
    rw [← hu]
    cases r with
    | error e =>
      rw [if_pos hbig]
      exact run_abandon w₁
    | ok _ =>
      rw [bufFlush, if_pos (.inl hbig)]
      exact run_rename w₁
  · rw [writeSteps, bufWrite, if_neg hbig, writeData, if_neg hnil, Prog.bind_assoc, pure_bind,
      bufFlush, if_neg (not_or.2 ⟨hbig, hnil⟩)]
    refine run_changes_bind fun r w₁ hu => ?_
    rw [← hu]
    cases r with
    | error e =>
      rw [if_neg hbig]
      exact run_abandon w₁
    | ok _ => exact run_rename w₁

/-- Without faults, `putSteps` is `put`. -/
theorem run_putSteps (s : BlobStore) (chunk : Chunk) (w : World ν) :
    Prog.run (steady w.umask) (s.putSteps chunk) w.fs =
      result (Prog.run (handle peer) (s.put chunk) w) := by
  have hstat : ∀ (k : Except Errno Os.Entry → Prog Step Step.Resp (Except Err Bool)) path,
      Prog.run (steady w.umask) (stats path >>= k) w.fs =
        Prog.run (steady w.umask) (k (Os.stat w.fs (resolve path))) w.fs := fun _ _ => rfl
  have hstat' : ∀ (k : Except Errno Os.Entry → Cmd (Except Err Bool)) path,
      Prog.run (handle peer) (Sys.stat path >>= k) w =
        Prog.run (handle peer) (k (Os.stat w.fs (resolve path))) w := fun _ _ => rfl
  rw [putSteps, put, hstat, hstat']
  cases Os.stat w.fs (resolve (s.chunkPath chunk.hashHex)) with
  | ok e => rfl
  | error e =>
    refine run_changes_bind fun r w₁ hu₁ => ?_
    rw [← hu₁]
    cases r with
    | error e => rfl
    | ok _ =>
      refine run_changes_bind fun r w₂ hu₂ => ?_
      rw [← hu₂]
      cases r with
      | error e => rfl
      | ok _ => exact run_writeSteps w₂

end Steady

/-! ### With faults -/

/-- A part of the work of a change. -/
inductive Part : Change → Change → Prop
  | all (c : Change) : Part c c
  | dirs {path path' : Bytes} {mode : UInt32} (h : resolve path' <+: resolve path) :
      Part (.mkdirAll path mode) (.mkdirAll path' mode)
  | bytes {path data data' : Bytes} (h : data' <+: data) :
      Part (.write path data) (.write path data')

/-- What a change that fails may have done. -/
def Torn (umask : UInt32) (c : Change) (fs fs' : Os.Fs) : Prop :=
  fs' = fs ∨ ∃ c', Part c c' ∧ c'.apply fs umask = .ok fs'

/-- The outcomes of a call on a disk that may fail. -/
def Faulty (umask : UInt32) : Prog.Outcomes Step Step.Resp Os.Fs
  | .stat path, fs, r, fs' => r = Os.stat fs (resolve path) ∧ fs' = fs
  | .change c, fs, r, fs' =>
    (r = .ok () ∧ c.apply fs umask = .ok fs') ∨ ((∃ e, r = .error e) ∧ Torn umask c fs fs')
  | .close _, fs, _, fs' => fs' = fs

section Faults
variable {umask : UInt32} {α : Type} {I : Os.Fs → Prop} {Q : α → Os.Fs → Prop}

theorem wpAll_changes {c : Change} {k : Except Errno Unit → Prog Step Step.Resp α} {fs : Os.Fs}
    (hok : ∀ fs', c.apply fs umask = .ok fs' →
      I fs' ∧ Prog.wpAll (Faulty umask) I (k (.ok ())) Q fs')
    (herr : ∀ e fs', Torn umask c fs fs' →
      I fs' ∧ Prog.wpAll (Faulty umask) I (k (.error e)) Q fs') :
    Prog.wpAll (Faulty umask) I (changes c >>= k) Q fs := by
  rintro r fs' (⟨rfl, happ⟩ | ⟨⟨e, rfl⟩, htorn⟩)
  · exact hok fs' happ
  · exact herr e fs' htorn

variable {s : BlobStore} {chunk : Chunk} {fs fs₁ fs₂ : Os.Fs}

section Passes
variable (hs : isAbs s.baseDir) (hhash : chunk.hash ≠ [])
  (hvac : Os.view fs (s.place chunk.hash) = none)
  {tmpPath : Bytes} (htmp : resolve tmpPath = s.temp chunk.hash)

include hs hhash htmp

theorem wpAll_abandon (h : PutEffect s chunk fs fs₁) (context : String) (e : Errno) :
    Prog.wpAll (Faulty umask) (PutEffect s chunk fs) (abandon tmpPath context e)
      (fun _ _ => True) fs₁ := by
  have hremoved : ∀ fs₂, Change.apply fs₁ umask (.remove tmpPath) = .ok fs₂ →
      PutEffect s chunk fs fs₂ := by
    intro fs₂ happ
    rw [Change.apply, htmp] at happ
    exact h.temp hhash (temp_ne_place hs hhash _) (by simp) (Os.remove_ok happ)
  refine wpAll_changes (fun fs₂ happ => ⟨hremoved fs₂ happ, trivial⟩) ?_
  rintro e' fs₂ (rfl | ⟨_, ⟨⟩, happ⟩)
  · exact ⟨h, trivial⟩
  · exact ⟨hremoved fs₂ happ, trivial⟩

/-- The write of the data, whole or in part, and then what `k` does. -/
theorem wpAll_write (h : PutEffect s chunk fs fs₁) {m : UInt32}
    (hempty : Os.view fs₁ (s.temp chunk.hash) = some (.file m []))
    {k : Except Errno Unit → Prog Step Step.Resp (Except Err Bool)}
    (hok : ∀ fs₂, PutEffect s chunk fs fs₂ →
      Os.view fs₂ (s.temp chunk.hash) = some (.file m chunk.data) →
      Prog.wpAll (Faulty umask) (PutEffect s chunk fs) (k (.ok ())) (fun _ _ => True) fs₂)
    (herr : ∀ e fs₂, PutEffect s chunk fs fs₂ →
      Prog.wpAll (Faulty umask) (PutEffect s chunk fs) (k (.error e)) (fun _ _ => True) fs₂) :
    Prog.wpAll (Faulty umask) (PutEffect s chunk fs) (changes (.write tmpPath chunk.data) >>= k)
      (fun _ _ => True) fs₁ := by
  have hwritten : ∀ data fs₂, Change.apply fs₁ umask (.write tmpPath data) = .ok fs₂ →
      Os.view fs₂ = Function.update (Os.view fs₁) (s.temp chunk.hash) (some (.file m data)) := by
    intro data fs₂ happ
    rw [Change.apply, htmp] at happ
    obtain ⟨m', c, hold, hview⟩ := Os.append_ok happ
    rw [hempty] at hold
    cases hold
    exact hview
  refine wpAll_changes (fun fs₂ happ => ?_) ?_
  · have hview := hwritten _ fs₂ happ
    have heff := h.temp hhash (temp_ne_place hs hhash _) (by simp) hview
    exact ⟨heff, hok fs₂ heff (by rw [hview, Function.update_self])⟩
  · have htorn : ∀ data fs₂, Change.apply fs₁ umask (.write tmpPath data) = .ok fs₂ →
        PutEffect s chunk fs fs₂ := fun data fs₂ happ =>
      h.temp hhash (temp_ne_place hs hhash _) (by simp) (hwritten data fs₂ happ)
    rintro e fs₂ (rfl | ⟨_, ⟨⟩ | ⟨_⟩ | ⟨_⟩, happ⟩)
    · exact ⟨h, herr e fs₂ h⟩
    · exact ⟨htorn _ fs₂ happ, herr e fs₂ (htorn _ fs₂ happ)⟩
    · exact ⟨htorn _ fs₂ happ, herr e fs₂ (htorn _ fs₂ happ)⟩

/-- The file is closed in any case; after an error it is abandoned. -/
theorem wpAll_close_abandon (h : PutEffect s chunk fs fs₁) {context : String} {e : Errno}
    {k : Except Errno Unit → Prog Step Step.Resp (Except Err Bool)}
    (hk : ∀ r, k r = abandon tmpPath context e) :
    Prog.wpAll (Faulty umask) (PutEffect s chunk fs) (closes tmpPath >>= k) (fun _ _ => True)
      fs₁ := by
  refine Prog.wpAll_call_bind.2 ?_
  rintro r fs₂ rfl
  rw [hk r]
  exact ⟨h, wpAll_abandon hs hhash htmp h context e⟩

include hvac

theorem wpAll_rename (h : PutEffect s chunk fs fs₁) {m : UInt32}
    (hdata : Os.view fs₁ (s.temp chunk.hash) = some (.file m chunk.data)) :
    Prog.wpAll (Faulty umask) (PutEffect s chunk fs) (do
        match ← changes (.rename tmpPath (s.chunkPath chunk.hashHex)) with
        | .error e => abandon tmpPath "renaming chunk file" e
        | .ok () => return .ok true)
      (fun _ _ => True) fs₁ := by
  have hplaced : ∀ fs₂, Change.apply fs₁ umask
      (.rename tmpPath (s.chunkPath chunk.hashHex)) = .ok fs₂ → PutEffect s chunk fs fs₂ := by
    intro fs₂ happ
    rw [Change.apply, htmp, Chunk.hashHex, resolve_chunkPath hs] at happ
    obtain ⟨m', c, hsrc, hview⟩ := Os.rename_ok happ
    rw [hdata] at hsrc
    cases hsrc
    exact (h.placed hhash (temp_ne_place hs hhash _) hvac hview).1
  refine wpAll_changes (fun fs₂ happ => ⟨hplaced fs₂ happ, trivial⟩) ?_
  rintro e' fs₂ (rfl | ⟨_, ⟨⟩, happ⟩)
  · exact ⟨h, wpAll_abandon hs hhash htmp h _ _⟩
  · exact ⟨hplaced fs₂ happ, wpAll_abandon hs hhash htmp (hplaced fs₂ happ) _ _⟩

/-- The file is closed, and renamed if this does not fail either. -/
theorem wpAll_close_rename (h : PutEffect s chunk fs fs₁) {m : UInt32}
    (hdata : Os.view fs₁ (s.temp chunk.hash) = some (.file m chunk.data))
    {k : Except Errno Unit → Prog Step Step.Resp (Except Err Bool)}
    (herr : ∀ e, k (.error e) = abandon tmpPath "closing chunk file" e)
    (hok : k (.ok ()) = do
      match ← changes (.rename tmpPath (s.chunkPath chunk.hashHex)) with
      | .error e => abandon tmpPath "renaming chunk file" e
      | .ok () => return .ok true) :
    Prog.wpAll (Faulty umask) (PutEffect s chunk fs) (closes tmpPath >>= k) (fun _ _ => True)
      fs₁ := by
  refine Prog.wpAll_call_bind.2 ?_
  rintro (e | _) fs₂ rfl
  · rw [herr e]
    exact ⟨h, wpAll_abandon hs hhash htmp h _ e⟩
  · rw [hok]
    exact ⟨h, wpAll_rename hs hhash hvac htmp h hdata⟩

theorem wpAll_writeSteps (h : PutEffect s chunk fs fs₁) {m : UInt32}
    (hempty : Os.view fs₁ (s.temp chunk.hash) = some (.file m [])) :
    Prog.wpAll (Faulty umask) (PutEffect s chunk fs)
      (writeSteps (s.chunkPath chunk.hashHex) tmpPath chunk.data) (fun _ _ => True) fs₁ := by
  rw [writeSteps]
  by_cases hbig : bufferSize < chunk.data.length
  · rw [bufWrite, if_pos hbig]
    refine wpAll_write hs hhash htmp h hempty (fun fs₂ h₂ hdata => ?_) fun e fs₂ h₂ => ?_
    · rw [bufFlush, if_pos (.inl hbig)]
      exact wpAll_close_rename hs hhash hvac htmp h₂ hdata (fun _ => rfl) rfl
    · exact wpAll_close_abandon hs hhash htmp h₂ fun _ => rfl
  · rw [bufWrite, if_neg hbig, pure_bind, bufFlush]
    by_cases hnil : chunk.data = []
    · rw [if_pos (.inr hnil)]
      exact wpAll_close_rename hs hhash hvac htmp h (hnil.symm ▸ hempty) (fun _ => rfl) rfl
    · rw [if_neg (not_or.2 ⟨hbig, hnil⟩)]
      refine wpAll_write hs hhash htmp h hempty (fun fs₂ h₂ hdata => ?_) fun e fs₂ h₂ => ?_
      · exact wpAll_close_rename hs hhash hvac htmp h₂ hdata (fun _ => rfl) rfl
      · exact wpAll_close_abandon hs hhash htmp h₂ fun _ => rfl

/-- From the opening of the temporary file on. -/
theorem wpAll_openTrunc (h : PutEffect s chunk fs fs₁) :
    Prog.wpAll (Faulty umask) (PutEffect s chunk fs) (do
        match ← changes (.openTrunc tmpPath filePermissions) with
        | .error e => return .error (.wrap "creating temp file" (.errno e))
        | .ok () => writeSteps (s.chunkPath chunk.hashHex) tmpPath chunk.data)
      (fun _ _ => True) fs₁ := by
  have hopened : ∀ fs₂, Change.apply fs₁ umask (.openTrunc tmpPath filePermissions) = .ok fs₂ →
      PutEffect s chunk fs fs₂ ∧ ∃ m, Os.view fs₂ (s.temp chunk.hash) = some (.file m []) := by
    intro fs₂ happ
    rw [Change.apply, htmp] at happ
    obtain ⟨m, hview, -⟩ := Os.createTrunc_ok happ
    exact ⟨h.temp hhash (temp_ne_place hs hhash _) (by simp) hview, m,
      by rw [hview, Function.update_self]⟩
  refine wpAll_changes (fun fs₂ happ => ?_) ?_
  · obtain ⟨heff, m, hempty⟩ := hopened fs₂ happ
    exact ⟨heff, wpAll_writeSteps hs hhash hvac htmp heff hempty⟩
  · rintro e fs₂ (rfl | ⟨_, ⟨⟩, happ⟩)
    · exact ⟨h, trivial⟩
    · exact ⟨(hopened fs₂ happ).1, trivial⟩

end Passes

/-- **Whatever the faults, and wherever it is cut**, a `Put` has done no more than it may. -/
theorem putEffect_passes (hs : isAbs s.baseDir) (hhash : chunk.hash ≠ []) {fs' : Os.Fs}
    (h : Prog.Passes (Faulty umask) (s.putSteps chunk) fs fs') : PutEffect s chunk fs fs' := by
  refine Prog.wpAll_passes (Q := fun _ _ => True) ?_ .refl h
  rw [putSteps]
  refine Prog.wpAll_call_bind.2 ?_
  rintro r fs₁ ⟨rfl, rfl⟩
  refine ⟨.refl, ?_⟩
  have hres : resolve (s.chunkPath chunk.hashHex) = s.place chunk.hash :=
    resolve_chunkPath hs chunk.hash
  rw [hres]
  cases hst : Os.stat fs₁ (s.place chunk.hash) with
  | ok e => trivial
  | error e =>
    have hvac : Os.view fs₁ (s.place chunk.hash) = none := by
      simp [Os.view, Os.reach_of_stat_error hst]
    obtain ⟨d, c, hplace, htemp, hdir⟩ := place_eq_concat hs hhash
    have hmade : ∀ path fs₂, resolve path <+: resolve (dir (s.chunkPath chunk.hashHex)) →
        Change.apply fs₁ umask (.mkdirAll path dirPermissions) = .ok fs₂ →
        PutEffect s chunk fs₁ fs₂ := by
      intro path fs₂ hpre happ
      refine PutEffect.made hs hhash ?_ happ
      rw [hplace, List.dropLast_concat, ← hdir]
      exact hpre
    refine wpAll_changes (fun fs₂ happ => ?_) ?_
    · have h₂ := hmade _ fs₂ (List.prefix_refl _) happ
      exact ⟨h₂, wpAll_openTrunc hs hhash hvac rfl h₂⟩
    · rintro e fs₂ (rfl | ⟨_, ⟨⟩ | ⟨hpre⟩ | ⟨_⟩, happ⟩)
      · exact ⟨.refl, trivial⟩
      · exact ⟨hmade _ fs₂ (List.prefix_refl _) happ, trivial⟩
      · exact ⟨hmade _ fs₂ hpre happ, trivial⟩

end Faults

/-! ### Interrupted puts and retries -/

section Atomic
variable {ν : Type} {peer : Proto.Request → ν → Proto.Exchange × ν} {s : BlobStore}

/-- The chunk that a call puts. -/
def puts : Call → List Chunk
  | .put chunk => [chunk]
  | .get _ | .has _ | .delete _ | .verify _ => []

/-- The stores that come about by calls with hashes of 32 bytes and by `Put`s that were interrupted,
with the chunks that were put. -/
inductive Used (peer : Proto.Request → ν → Proto.Exchange × ν) (s : BlobStore) :
    List Chunk → World ν → Prop
  | created {w : World ν} {mode : UInt32}
      (hempty : Os.reach w.fs (resolve s.baseDir) = some (.dir mode [])) : Used peer s [] w
  | call {chunks : List Chunk} {w : World ν} (h : Used peer s chunks w) (c : Call)
      (hlen : c.hash.length = 32) :
      Used peer s (puts c ++ chunks) (Prog.run (handle peer) (s.perform c) w).2
  | cut {chunks : List Chunk} {w : World ν} (h : Used peer s chunks w) {chunk : Chunk}
      (hlen : chunk.hash.length = 32) {fs' : Os.Fs}
      (hpass : Prog.Passes (Faulty w.umask) (s.putSteps chunk) w.fs fs') :
      Used peer s (chunk :: chunks) { w with fs := fs' }

/-- What is stored was put. -/
def From (s : BlobStore) (chunks : List Chunk) (fs : Os.Fs) : Prop :=
  ∀ hash data, s.blob fs hash = some data → ∃ c ∈ chunks, c.hash = hash ∧ c.data = data

theorem PutEffect.from {fs fs' : Os.Fs} {chunk : Chunk} {chunks : List Chunk}
    (hs : isAbs s.baseDir) (h : PutEffect s chunk fs fs') (hfrom : s.From chunks fs) :
    s.From (chunk :: chunks) fs' := by
  intro hash data hblob
  rcases h.blob_new hs hblob with hold | ⟨rfl, rfl⟩
  · obtain ⟨c, hc, hhash, hdata⟩ := hfrom hash data hold
    exact ⟨c, List.mem_cons_of_mem _ hc, hhash, hdata⟩
  · exact ⟨chunk, List.mem_cons_self, rfl, rfl⟩

theorem Used.tidy_and_from (hs : isAbs s.baseDir) {chunks : List Chunk} {w : World ν}
    (h : Used peer s chunks w) : s.Tidy w.fs ∧ s.From chunks w.fs := by
  induction h with
  | created hempty =>
    refine ⟨tidy_of_empty hs hempty, fun hash data hblob => ?_⟩
    rw [blob_of_empty hempty] at hblob
    cases hblob
  | @call chunks w _ c hlen ih =>
    have heff : s.Effect w.fs (Prog.run (handle peer) (s.perform c) w).2.fs c :=
      effect_perform hs ih.1 hlen
    refine ⟨heff.tidy hs hlen ih.1, ?_⟩
    cases c with
    | put chunk => exact heff.1.from hs ih.2
    | delete hash =>
      intro hash' data hblob
      obtain ⟨m, hview⟩ := Os.content_eq_some.1 hblob
      rw [show Os.view _ = Function.update _ _ _ from heff, Function.update_apply] at hview
      split at hview
      · cases hview
      · exact ih.2 hash' data (blob_of_view hview)
    | get | has | verify =>
      rw [show (Prog.run _ _ w).2.fs = w.fs from heff]
      exact ih.2
  | cut _ hlen hpass ih =>
    have heff := putEffect_passes hs (ne_nil_of_length hlen) hpass
    exact ⟨heff.tidy hs (by omega) ih.1, heff.from hs ih.2⟩

/-- A `Put` that is not interrupted stores the chunk, unless another is in its place. -/
theorem get_after_put (hs : isAbs s.baseDir) {w : World ν} (ht : s.Tidy w.fs) {chunk : Chunk}
    (hlen : chunk.hash.length = 32)
    (hthere : ∀ data, s.blob w.fs chunk.hash = some data → data = chunk.data) :
    (Prog.run (handle peer) (s.get chunk.hash) (Prog.run (handle peer) (s.put chunk) w).2).1 =
      .ok ⟨chunk.hash, UInt32.ofNat chunk.data.length, chunk.data⟩ := by
  have heff : s.Effect w.fs (Prog.run (handle peer) (s.perform (.put chunk)) w).2.fs (.put chunk) :=
    effect_perform hs ht hlen
  rw [perform, Prog.run_bind] at heff
  change s.Effect w.fs (Prog.run (handle peer) (s.put chunk) w).2.fs (.put chunk) at heff
  generalize (Prog.run (handle peer) (s.put chunk) w).2 = w' at heff ⊢
  obtain ⟨-, new, hres⟩ := heff
  have hblob : s.blob w'.fs chunk.hash = some chunk.data := by
    cases new with
    | true =>
      obtain ⟨-, m, hview⟩ := hres
      exact blob_of_view hview
    | false =>
      obtain ⟨hsame, hheld⟩ := hres
      rcases ht.stat hlen with ⟨hvac, -⟩ | ⟨data, m, hview, -⟩
      · exact (hheld hvac).elim
      · rw [hsame, ← hthere data (blob_of_view hview)]
        exact blob_of_view hview
  refine Prog.wp_run (wp_get (I := fun _ => True) (Q := fun r _ => r = _) hs trivial ?_ ?_)
  · intro data hdata
    rw [Option.some.inj (hdata.symm.trans hblob)]
  · intro hnone
    rw [hblob] at hnone
    cases hnone

/-- **`Put` is atomic under faults.**  Wherever a `Put` into a store in use is cut, and whatever
failed before, what was stored is unchanged, the place of the chunk is vacant as before or has all
of the chunk's data, and if the chunk is then put without faults, `Get` returns it.  Chunks of one
hash are taken to have the same data. -/
theorem put_atomic (hs : isAbs s.baseDir) {chunks : List Chunk} {w : World ν}
    (h : Used peer s chunks w) {chunk : Chunk} (hlen : chunk.hash.length = 32)
    (hsame : ∀ c ∈ chunks, c.hash = chunk.hash → c.data = chunk.data) {fs' : Os.Fs}
    (hpass : Prog.Passes (Faulty w.umask) (s.putSteps chunk) w.fs fs') :
    (∀ hash data, s.blob w.fs hash = some data → s.blob fs' hash = some data) ∧
      (Os.view w.fs (s.place chunk.hash) = none ∧ Os.view fs' (s.place chunk.hash) = none ∨
        s.blob fs' chunk.hash = some chunk.data) ∧
      (Prog.run (handle peer) (s.get chunk.hash)
          (Prog.run (handle peer) (s.put chunk) { w with fs := fs' }).2).1 =
        .ok ⟨chunk.hash, UInt32.ofNat chunk.data.length, chunk.data⟩ := by
  have heff := putEffect_passes hs (ne_nil_of_length hlen) hpass
  obtain ⟨htidy, hfrom⟩ := (h.cut hlen hpass).tidy_and_from hs
  have hdata : ∀ data, s.blob fs' chunk.hash = some data → data = chunk.data := by
    intro data hblob
    obtain ⟨c, hc, hhash, rfl⟩ := hfrom _ data hblob
    rcases List.mem_cons.1 hc with rfl | hc
    · rfl
    · exact hsame c hc hhash
  refine ⟨fun hash data hblob => heff.blob_mono hs hblob, ?_, get_after_put hs htidy hlen hdata⟩
  rcases htidy.stat hlen with ⟨hvac, -⟩ | ⟨data, m, hview, -⟩
  · refine .inl ⟨?_, hvac⟩
    rcases heff.there with heq | ⟨hnone, -⟩
    · exact heq.symm.trans hvac
    · exact hnone
  · rw [← hdata data (blob_of_view hview)]
    exact .inr (blob_of_view hview)

end Atomic

/-- A chunk of two bytes for the empty store. -/
def twoBytes : Chunk := ⟨List.replicate 32 7, 2, [8, 9]⟩

/-- The disk fails after one byte, and the process stops. -/
theorem put_atomic_torn :
    ∃ fs', Prog.Passes (Faulty emptyStore.umask) (putSteps ⟨[47, 115]⟩ twoBytes) emptyStore.fs fs' ∧
      (Prog.run (handle scripted) (get ⟨[47, 115]⟩ twoBytes.hash)
        (Prog.run (handle scripted) (put ⟨[47, 115]⟩ twoBytes)
          { emptyStore with fs := fs' }).2).1 = .ok twoBytes := by
  obtain ⟨fs', hpass⟩ : ∃ fs', Prog.Passes (Faulty emptyStore.umask)
      (putSteps ⟨[47, 115]⟩ twoBytes) emptyStore.fs fs' :=
    ⟨_, .next ⟨rfl, rfl⟩ (.next (.inl ⟨rfl, rfl⟩) (.next (.inl ⟨rfl, rfl⟩) (.next
      (.inr ⟨⟨.notExist, rfl⟩, .inr ⟨.write _ [8], .bytes ⟨[9], rfl⟩, rfl⟩⟩) .here)))⟩
  exact ⟨fs', hpass, (put_atomic (by decide) (.created reach_emptyStore) rfl nofun hpass).2.2⟩

end BlobStore

end FileSync.Cas
