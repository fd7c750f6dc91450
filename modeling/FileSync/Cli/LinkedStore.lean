import FileSync.Cas.VerifyAll
import FileSync.Cli.Links
import FileSync.Os.Shadow

/-!
# Cli — a store behind links

The path of a store's directory may lead along links; below the directory the store itself makes
files and directories only.  Then its operations go as on a file system without links that has the
same there (`Likewise`).  `VerifyAll` does not: `filepath.Walk` takes the directory's path for a
file if its last name is a link (`internal/cas/store.go`).

* `Likewise.perform`: an operation returns the same in both, and leaves them alike.
-/

open Sha256 Filepath

namespace FileSync.Cli

open Proto (Request Exchange)
open Cas (BlobStore Chunk Call)
open Os.Linked (Fs Shadow Frame)

/-- A new entry gets no other bits than those that `chmod` sets. -/
theorem perm_and_modeBits (umask mode : UInt32) :
    perm umask mode &&& Os.modeBits = perm umask mode := by
  have hor (a b c : UInt32) : (a ||| b) &&& c = a &&& c ||| b &&& c := by
    refine UInt32.eq_of_toBitVec_eq (BitVec.eq_of_getLsbD_eq fun i _ => ?_)
    simp [Bool.and_or_distrib_right]
  have hsticky : modeSticky &&& Os.modeBits = modeSticky := by decide
  have hperm : (0o777 : UInt32) &&& Os.modeBits = 0o777 := by decide
  rw [perm, hor, UInt32.and_assoc, hsticky, UInt32.and_assoc, UInt32.and_comm (~~~umask),
    ← UInt32.and_assoc, UInt32.and_assoc mode, hperm]

/-- The calls of a store's operations, below its directory. -/
def Inside (b : List Bytes) : Op → Prop
  | .openRead path => ∃ q, resolve path = b ++ q
  | .readAll path => ∃ q, resolve path = b ++ q
  | .change (.mkdirAll path _) => ∃ c, resolve path = b ++ [c]
  | .change (.openTrunc path _) => ∃ q c, resolve path = b ++ (q ++ [c])
  | .change (.write path _) => ∃ q c, resolve path = b ++ (q ++ [c])
  | .change (.remove path) => ∃ q c, resolve path = b ++ (q ++ [c])
  | .change (.rename src dst) => ∃ q c c', c ≠ c' ∧ resolve src = b ++ (q ++ [c]) ∧
      resolve dst = b ++ (q ++ [c'])
  | _ => False

section Likewise

variable {ν : Type}

/-- The store's directory is at `d`, and `t` has below its path what is there. -/
structure Likewise (s : BlobStore) (d : List Bytes) (w : LinkedWorld ν) (t : World ν) : Prop where
  shadow : Shadow (resolve s.baseDir) d w.fs t.fs
  umask : t.umask = w.umask
  net : t.net = w.net

/-- What an operation leaves of the world: the store's directory aside, what was there. -/
structure LinkedWorld.Keeps (d : List Bytes) (w w' : LinkedWorld ν) : Prop where
  frame : Frame d w.fs w'.fs
  umask : w'.umask = w.umask
  net : w'.net = w.net

theorem LinkedWorld.Keeps.refl (d : List Bytes) (w : LinkedWorld ν) : w.Keeps d w :=
  ⟨.refl d w.fs, rfl, rfl⟩

theorem LinkedWorld.Keeps.trans {d : List Bytes} {w w' w'' : LinkedWorld ν} (h : w.Keeps d w')
    (h' : w'.Keeps d w'') : w.Keeps d w'' :=
  ⟨h.frame.trans h'.frame, h'.umask.trans h.umask, h'.net.trans h.net⟩

variable {peer : Request → ν → Exchange × ν} {s : BlobStore} {d : List Bytes} {w : LinkedWorld ν}
  {t : World ν}

theorem Likewise.change (h : Likewise s d w t) {c : Change}
    (halike : Shadow.Alike (resolve s.baseDir) d w.fs (applyLinked w.fs w.umask c)
      (c.apply t.fs w.umask)) :
    (handleLinked peer (.change c) w).1 = (handle peer (.change c) t).1 ∧
      Likewise s d (handleLinked peer (.change c) w).2 (handle peer (.change c) t).2 ∧
      w.Keeps d (handleLinked peer (.change c) w).2 := by
  rw [handle, h.umask]
  simp only [handleLinked]
  cases hw : applyLinked w.fs w.umask c with
  | error e =>
    cases ht : c.apply t.fs w.umask with
    | error e' =>
      rw [hw, ht] at halike
      obtain rfl : e = e' := halike
      exact ⟨rfl, h, .refl d w⟩
    | ok t' =>
      rw [hw, ht] at halike
      exact halike.elim
  | ok fs' =>
    cases ht : c.apply t.fs w.umask with
    | error e' =>
      rw [hw, ht] at halike
      exact halike.elim
    | ok t' =>
      rw [hw, ht] at halike
      exact ⟨rfl, ⟨halike.1, h.umask, h.net⟩, halike.2, rfl, rfl⟩

/-- **A call below the directory** is answered alike. -/
theorem Likewise.step (h : Likewise s d w t) {o : Op} (ho : Inside (resolve s.baseDir) o) :
    (handleLinked peer o w).1 = (handle peer o t).1 ∧
      Likewise s d (handleLinked peer o w).2 (handle peer o t).2 ∧
      w.Keeps d (handleLinked peer o w).2 := by
  have hplain {path : Bytes} {q : List Bytes} (hq : resolve path = resolve s.baseDir ++ q) :
      ∀ c ∈ q, Plain c := by
    intro c hc
    refine plain_of_mem_resolve (s := path) ?_
    rw [hq]
    exact List.mem_append_right _ hc
  have hsplit {path : Bytes} {q : List Bytes} {c : Bytes}
      (hq : resolve path = resolve s.baseDir ++ (q ++ [c])) : (∀ c ∈ q, Plain c) ∧ Plain c := by
    have := hplain hq
    rw [List.forall_mem_append, List.forall_mem_singleton] at this
    exact this
  cases o with
  | openRead path =>
    obtain ⟨q, hq⟩ := ho
    refine ⟨?_, h, .refl d w⟩
    simp only [handleLinked, handle, hq]
    exact h.shadow.stat (hplain hq)
  | readAll path =>
    obtain ⟨q, hq⟩ := ho
    refine ⟨?_, h, .refl d w⟩
    simp only [handleLinked, handle, hq]
    exact h.shadow.read (hplain hq)
  | change c =>
    refine h.change ?_
    cases c with
    | mkdirAll path mode =>
      obtain ⟨c, hc⟩ := ho
      rw [applyLinked, Change.apply, hc]
      exact h.shadow.mkdirAll (hplain hc c (by simp)) _
    | openTrunc path mode =>
      obtain ⟨q, c, hq⟩ := ho
      obtain ⟨hq', hc⟩ := hsplit hq
      rw [applyLinked, Change.apply, hq]
      exact h.shadow.createTrunc hq' hc (perm_and_modeBits _ _)
    | write path data =>
      obtain ⟨q, c, hq⟩ := ho
      obtain ⟨hq', hc⟩ := hsplit hq
      rw [applyLinked, Change.apply, hq]
      exact h.shadow.append hq' hc data
    | remove path =>
      obtain ⟨q, c, hq⟩ := ho
      obtain ⟨hq', hc⟩ := hsplit hq
      rw [applyLinked, Change.apply, hq]
      exact h.shadow.remove hq' hc
    | rename src dst =>
      obtain ⟨q, c, c', hne, hsrc, hdst⟩ := ho
      obtain ⟨hq', hc⟩ := hsplit hsrc
      rw [applyLinked, Change.apply, hsrc, hdst]
      exact h.shadow.rename hq' hc (hsplit hdst).2 hne
    | chmod path mode => exact ho.elim
  | stat | readTree | walkTree | exchange => exact ho.elim

variable (peer s d w t) in
/-- The command returns the same in both, and leaves them alike. -/
def RunsAlike {α : Type} (p : Cmd α) : Prop :=
  (p.run (handleLinked peer) w).1 = (p.run (handle peer) t).1 ∧
    Likewise s d (p.run (handleLinked peer) w).2 (p.run (handle peer) t).2 ∧
    w.Keeps d (p.run (handleLinked peer) w).2

theorem RunsAlike.map {α β : Type} {p : Cmd α} (h : RunsAlike peer s d w t p) (f : α → β) :
    RunsAlike peer s d w t (do return f (← p)) := by
  refine ⟨?_, ?_, ?_⟩
  · rw [Prog.run_bind, Prog.run_bind, h.1]
    rfl
  · rw [Prog.run_bind, Prog.run_bind]
    exact h.2.1
  · rw [Prog.run_bind]
    exact h.2.2

/-- So do commands with such calls only. -/
theorem Likewise.run {α : Type} (h : Likewise s d w t) {p : Cmd α}
    (hp : Prog.Within (Inside (resolve s.baseDir)) p) : RunsAlike peer s d w t p := by
  refine Prog.run_simulates (R := fun w' t' => Likewise s d w' t' ∧ w.Keeps d w') hp ?_
    ⟨h, .refl d w⟩
  rintro o w' t' ho ⟨hlike, hkeeps⟩
  obtain ⟨hans, hlike', hkeeps'⟩ := hlike.step ho
  exact ⟨hans, hlike', hkeeps.trans hkeeps'⟩

/-! ### The operations -/

/-- The names of a hash's place and of its temporary file. -/
theorem paths_of_hash (hs : isAbs s.baseDir) {hash : Bytes} (hlen : 2 ≤ hash.length) :
    ∃ x c, resolve (s.chunkPath (Hex.encode hash)) = resolve s.baseDir ++ ([x] ++ [c]) ∧
      resolve (s.chunkPath (Hex.encode hash) ++ Cas.tmpSuffix) =
        resolve s.baseDir ++ ([x] ++ [c ++ Cas.tmpSuffix]) ∧
      resolve (dir (s.chunkPath (Hex.encode hash))) = resolve s.baseDir ++ [x] := by
  have hne : hash ≠ [] := List.ne_nil_of_length_pos (by omega)
  obtain ⟨e, c, hplace, htemp, hdir⟩ := BlobStore.place_eq_concat hs hne
  obtain ⟨a, r, -, -, hloc⟩ := BlobStore.loc_of_length hlen
  rw [BlobStore.place, hloc, List.append_assoc, List.append_cancel_left_eq] at hplace
  have hsplit : [Hex.encode [a]] ++ [Hex.encode r] = e ++ [Hex.encode c] := hplace
  obtain ⟨rfl, hc⟩ := List.append_inj' hsplit rfl
  refine ⟨Hex.encode [a], Hex.encode c, ?_, ?_, hdir⟩
  · rw [BlobStore.resolve_chunkPath hs, BlobStore.place, hloc, ← hc]
    rfl
  · rw [← List.append_assoc]
    exact htemp

theorem inside_writeNew (hs : isAbs s.baseDir) {hash data : Bytes} (hlen : 2 ≤ hash.length) :
    Prog.Within (Inside (resolve s.baseDir))
      (BlobStore.writeNew (s.chunkPath (Hex.encode hash)) data) := by
  obtain ⟨x, c, hpath, htemp, hdir⟩ := paths_of_hash hs hlen
  have hremove {α : Type} (r : α) : Prog.Within (Inside (resolve s.baseDir))
      (Sys.remove (s.chunkPath (Hex.encode hash) ++ Cas.tmpSuffix) >>= fun _ => Prog.ret r) :=
    Prog.within_call_bind.2 ⟨⟨[x], _, htemp⟩, fun _ => Prog.within_ret r⟩
  refine Prog.within_call_bind.2 ⟨⟨x, hdir⟩, fun r => ?_⟩
  cases r with
  | error e => exact Prog.within_ret _
  | ok _ =>
    refine Prog.within_call_bind.2 ⟨⟨[x], _, htemp⟩, fun r => ?_⟩
    cases r with
    | error e => exact Prog.within_ret _
    | ok _ =>
      refine Prog.within_bind.2 ⟨?_, fun r _ => ?_⟩
      · rw [BlobStore.writeData]
        split
        · exact Prog.within_ret _
        · refine Prog.within_call_bind.2 ⟨⟨[x], _, htemp⟩, fun r => ?_⟩
          cases r <;> exact Prog.within_ret _
      · cases r with
        | error e => exact hremove _
        | ok _ =>
          refine Prog.within_call_bind.2 ⟨⟨[x], _, _, ?_, htemp, hpath⟩, fun r => ?_⟩
          · simp [Cas.tmpSuffix]
          · cases r with
            | error e => exact hremove _
            | ok _ => exact Prog.within_ret _

/-- A command that only asks whether something is there. -/
theorem Likewise.stat (h : Likewise s d w t) {path : Bytes} {q : List Bytes}
    (hpath : resolve path = resolve s.baseDir ++ q) {α : Type} {yes : Cmd α}
    {no : Errno → Cmd α} (hyes : RunsAlike peer s d w t yes)
    (hno : ∀ e, RunsAlike peer s d w t (no e)) :
    RunsAlike peer s d w t (do
      match ← Sys.stat path with
      | .ok _ => yes
      | .error e => no e) := by
  have hplain : ∀ c ∈ q, Plain c := fun c hc =>
    plain_of_mem_resolve (s := path) (by rw [hpath]; exact List.mem_append_right _ hc)
  have hstat := h.shadow.stat hplain
  have hrun {k : Except Errno Os.Entry → Cmd α} : (Sys.stat path >>= k).run (handle peer) t =
      (k (Os.stat t.fs (resolve path))).run (handle peer) t := rfl
  rw [RunsAlike, run_stat, hrun, hpath]
  cases hw : w.fs.stat (resolve s.baseDir ++ q) with
  | error e =>
    cases ht : Os.stat t.fs (resolve s.baseDir ++ q) with
    | error e' =>
      rw [hw, ht] at hstat
      cases hstat
      exact hno e
    | ok x =>
      rw [hw, ht] at hstat
      cases hstat
  | ok x =>
    cases ht : Os.stat t.fs (resolve s.baseDir ++ q) with
    | error e =>
      rw [hw, ht] at hstat
      cases hstat
    | ok x' => exact hyes

theorem Likewise.put (h : Likewise s d w t) (hs : isAbs s.baseDir) {k : Chunk}
    (hlen : 2 ≤ k.hash.length) : RunsAlike peer s d w t (s.put k) := by
  obtain ⟨x, c, hpath, -⟩ := paths_of_hash hs hlen
  exact h.stat hpath (h.run (Prog.within_ret _)) fun _ => h.run (inside_writeNew hs hlen)

/-- **The operations of a store** go alike, with hashes of two bytes or more. -/
theorem Likewise.perform (h : Likewise s d w t) (hs : isAbs s.baseDir) {c : Call}
    (hlen : 2 ≤ c.hash.length) : RunsAlike peer s d w t (s.perform c) := by
  obtain ⟨x, y, hpath, -⟩ := paths_of_hash hs hlen
  cases c with
  | put k => exact (h.put hs hlen).map _
  | get hash => exact (h.run (BlobStore.within_get ⟨_, hpath⟩ ⟨_, hpath⟩)).map _
  | has hash =>
    refine (h.stat hpath (h.run (Prog.within_ret _)) fun _ => h.run (Prog.within_ret _)).map _
  | delete hash =>
    have hdelete : Prog.Within (Inside (resolve s.baseDir)) (s.delete hash) := by
      refine Prog.within_call_bind.2 ⟨⟨[x], y, hpath⟩, fun r => ?_⟩
      rcases r with e | _
      · cases e <;> exact Prog.within_ret _
      · exact Prog.within_ret _
    exact (h.run hdelete).map _
  | verify hash => exact (h.run (BlobStore.within_verify ⟨_, hpath⟩ ⟨_, hpath⟩)).map _

/-! ### What may happen to a store -/

/-- A `Put` that is stopped before the temporary file is renamed, with some of the data written. -/
def stoppedPut (s : BlobStore) (hash data : Bytes) : Cmd Unit := do
  let path := s.chunkPath (Hex.encode hash)
  match ← Sys.mkdirAll (dir path) Cas.dirPermissions with
  | .error _ => return ()
  | .ok () =>
  match ← Sys.openTrunc (path ++ Cas.tmpSuffix) Cas.filePermissions with
  | .error _ => return ()
  | .ok () =>
    let _ ← Sys.write (path ++ Cas.tmpSuffix) data
    return ()

/-- The stores that come about by calls with hashes of 32 bytes, beside what a `Put` that was
stopped may leave and what may happen to a chunk on the disk.  The path of the directory may lead
along links. -/
inductive Reached (peer : Request → ν → Exchange × ν) (s : BlobStore) : LinkedWorld ν → Prop
  | created {w : LinkedWorld ν} {mode : UInt32} (hwf : w.fs.WF) (hnum : w.fs.Numbered)
      (hempty : w.fs.lookup (resolve s.baseDir) = .ok (.dir mode [])) : Reached peer s w
  | call {w : LinkedWorld ν} (h : Reached peer s w) (c : Call) (hlen : c.hash.length = 32) :
      Reached peer s ((s.perform c).run (handleLinked peer) w).2
  | leftover {w : LinkedWorld ν} (h : Reached peer s w) {hash : Bytes} (hlen : hash.length = 32)
      (data : Bytes) : Reached peer s ((stoppedPut s hash data).run (handleLinked peer) w).2
  | overwritten {w : LinkedWorld ν} (h : Reached peer s w) {hash : Bytes} (hlen : hash.length = 32)
      {ino : ℕ} (hfile : w.fs.lookup (s.place hash) = .ok (.file ino)) (f : Os.Linked.Inode) :
      Reached peer s { w with fs := w.fs.withInode ino f }

/-- What a `Put` that is stopped makes of a store without links. -/
theorem putEffect_stoppedPut (hs : isAbs s.baseDir) {hash : Bytes} (hne : hash ≠ [])
    (data : Bytes) :
    BlobStore.PutEffect s ⟨hash, 0, data⟩ t.fs
      ((stoppedPut s hash data).run (handle peer) t).2.fs := by
  obtain ⟨e, c, hplace, htemp, hdir⟩ := BlobStore.place_eq_concat hs hne
  have htp : s.temp hash ≠ s.place hash := BlobStore.temp_ne_place hs hne _
  suffices hwp : Prog.wp (handle peer) (fun _ => True) (stoppedPut s hash data)
      (fun _ t' => BlobStore.PutEffect s ⟨hash, 0, data⟩ t.fs t'.fs) t from Prog.wp_run hwp
  refine wp_change (fun _ _ => ⟨trivial, .refl⟩) fun fs₁ h₁ => ⟨trivial, ?_⟩
  rw [Change.apply, hdir] at h₁
  have heff₁ : BlobStore.PutEffect s ⟨hash, 0, data⟩ t.fs fs₁ :=
    .made hs hne (by rw [hplace, List.dropLast_concat]) h₁
  refine wp_change (fun _ _ => ⟨trivial, heff₁⟩) fun fs₂ h₂ => ⟨trivial, ?_⟩
  obtain ⟨m, hview₂, -⟩ := Os.createTrunc_ok h₂
  have heff₂ := heff₁.temp hne htp (by simp) hview₂
  refine wp_change (fun _ _ => ⟨trivial, heff₂⟩) fun fs₃ h₃ => ⟨trivial, ?_⟩
  obtain ⟨m', c, -, hview₃⟩ := Os.append_ok h₃
  exact heff₂.temp hne htp (by simp) hview₃

theorem inside_stoppedPut (hs : isAbs s.baseDir) {hash : Bytes} (hlen : 2 ≤ hash.length)
    (data : Bytes) : Prog.Within (Inside (resolve s.baseDir)) (stoppedPut s hash data) := by
  obtain ⟨x, c, -, htemp, hdir⟩ := paths_of_hash hs hlen
  refine Prog.within_call_bind.2 ⟨⟨x, hdir⟩, fun r => ?_⟩
  cases r with
  | error e => exact Prog.within_ret _
  | ok _ =>
    refine Prog.within_call_bind.2 ⟨⟨[x], _, htemp⟩, fun r => ?_⟩
    cases r with
    | error e => exact Prog.within_ret _
    | ok _ => exact Prog.within_call_bind.2 ⟨⟨[x], _, htemp⟩, fun _ => Prog.within_ret _⟩

/-- **What is always the case**: the store goes as one without links that is in order. -/
theorem Reached.likewise (hs : isAbs s.baseDir) (h : Reached peer s w) :
    ∃ d t, Likewise s d w t ∧ s.Tidy t.fs ∧ s.Named t.fs := by
  induction h with
  | @created w mode hwf hnum hempty =>
    obtain ⟨d, hsealed, hdir⟩ := Os.Linked.sealed_of_empty hwf hnum hempty
    refine ⟨d, ⟨_, w.umask, w.net⟩, ⟨hsealed.shadow hdir, rfl, rfl⟩,
      BlobStore.tidy_and_named_of_empty hs (m := mode) ?_⟩
    rw [Os.Linked.reach_under, Os.Linked.listed, Os.Linked.listedEntries]
  | @call w h c hlen ih =>
    obtain ⟨d, t, hlike, htidy, hnamed⟩ := ih
    have hrun : RunsAlike peer s d w t (s.perform c) := hlike.perform hs (by omega)
    have heff : s.Effect t.fs ((s.perform c).run (handle peer) t).2.fs c :=
      BlobStore.effect_perform hs htidy hlen
    exact ⟨d, _, hrun.2.1, heff.tidy hs hlen htidy, heff.named hlen hnamed⟩
  | @leftover w h hash hlen data ih =>
    obtain ⟨d, t, hlike, htidy, hnamed⟩ := ih
    have hrun : RunsAlike peer s d w t (stoppedPut s hash data) :=
      hlike.run (inside_stoppedPut hs (by omega) data)
    have heff : BlobStore.PutEffect s ⟨hash, 0, data⟩ t.fs
        ((stoppedPut s hash data).run (handle peer) t).2.fs :=
      putEffect_stoppedPut hs (BlobStore.ne_nil_of_length hlen) data
    exact ⟨d, _, hrun.2.1, heff.tidy hs (by simp [hlen]) htidy, heff.named hlen hnamed⟩
  | @overwritten w h hash hlen ino hfile f ih =>
    obtain ⟨d, t, hlike, htidy, hnamed⟩ := ih
    obtain ⟨x, r, -, -, hloc⟩ := BlobStore.loc_of_length (by omega : 2 ≤ hash.length)
    have hplain : ∀ c ∈ BlobStore.loc hash, Plain c := fun _ => BlobStore.plain_of_mem_loc
    rcases hlike.shadow.found hplain with ⟨e, hlookup, -⟩ | ⟨i, hplace, hlookup, hstat⟩ |
      ⟨m, es, es', -, hlookup, -⟩
    · cases hlookup.symm.trans hfile
    · cases hlookup.symm.trans hfile
      obtain ⟨d', hd', hreach⟩ := Fs.lookup_eq_ok.1 hlookup
      rw [hplace] at hd'
      cases hd'
      have htree : Os.reach t.fs (s.place hash) = _ := Os.stat_ok.1 hstat
      have hview : Os.view (Os.modify (fun _ => some (.file f.mode f.content)) t.fs
          (s.place hash)) = Function.update (Os.view t.fs) (s.place hash)
            (some (.file f.mode f.content)) :=
        Os.view_modify_leaf (Os.inDir_of_reach htree) (by rw [htree]; trivial) trivial
      obtain ⟨hshadow, -⟩ := hlike.shadow.withInode (by simp [hloc]) hreach f hview
      exact ⟨d, ⟨_, t.umask, t.net⟩, ⟨hshadow, hlike.umask, hlike.net⟩,
        BlobStore.tidy_and_named_overwrite htidy hnamed hlen hview⟩
    · cases hlookup.symm.trans hfile

/-! ### The check of the whole store -/

/-- The blob under a hash. -/
def linkedBlob (s : BlobStore) (fs : Fs) (hash : Bytes) : Option Bytes := fs.content (s.place hash)

/-- The path of the store's directory is not itself a link. -/
def Unlinked (fs : Fs) (dir : Bytes) : Prop :=
  ∀ text, fs.lookupName (resolve dir) ≠ .ok (.link text)

/-- The blob under a hash does not have it. -/
def Flawed (s : BlobStore) (fs : Fs) (hash : Bytes) : Prop :=
  ∃ c, linkedBlob s fs hash = some c ∧ (sum256 c).bytes ≠ hash

theorem Likewise.blob (h : Likewise s d w t) (hash : Bytes) :
    linkedBlob s w.fs hash = s.blob t.fs hash := by
  have hplain : ∀ c ∈ BlobStore.loc hash, Plain c := fun _ => BlobStore.plain_of_mem_loc
  refine Option.ext fun c => ?_
  rw [linkedBlob, Fs.content_eq_some, BlobStore.place, h.shadow.read hplain, Os.read_ok,
    BlobStore.blob, Os.content_eq_some]
  rfl

/-- A walk that begins at a link finds one file, whose path below the directory is not a hash. -/
theorem run_verifyAll_link {text : Bytes}
    (h : w.fs.lookupName (resolve s.baseDir) = .ok (.link text)) :
    s.verifyAll.run (handleLinked peer) w = ((∅, none), w) := by
  have hlstat : w.fs.lstat (resolve s.baseDir) = .ok (.file Os.Linked.linkMode text) := by
    rw [Fs.lstat, h]
    rfl
  have hrel : rel s.baseDir s.baseDir = some dot := by
    have hsame := stripCommon_append (elements s.baseDir) []
    rw [List.append_nil] at hsame
    simp [rel, hsame]
  have hcheck : s.checkFile ∅ ⟨s.baseDir, base s.baseDir, .file Os.Linked.linkMode text⟩ =
      .ret ∅ := by
    rw [BlobStore.checkFile, if_neg (by simp [Os.Entry.isDir]), hrel]
    split
    · rfl
    · rfl
  rw [BlobStore.verifyAll, run_walkTree, hlstat]
  dsimp only
  rw [Os.walk, hcheck]
  rfl

/-- Such calls that only read. -/
def Reading (b : List Bytes) : Op → Prop
  | .openRead path => ∃ q, resolve path = b ++ q
  | .readAll path => ∃ q, resolve path = b ++ q
  | _ => False

theorem Reading.inside {b : List Bytes} {o : Op} (h : Reading b o) : Inside b o := by
  cases o with
  | openRead | readAll => exact h
  | stat | readTree | walkTree | change | exchange => exact h.elim

theorem Reading.same {b : List Bytes} {o : Op} (h : Reading b o) :
    (handleLinked peer o w).2 = w := by
  cases o with
  | openRead | readAll => rfl
  | stat | readTree | walkTree | change | exchange => exact h.elim

/-- A walk that begins at the directory reads the chunks below it. -/
theorem reading_walk (hs : isAbs s.baseDir) (root : Os.Entry) :
    Prog.Within (Reading (resolve s.baseDir)) (Os.walk (fun v corrupted => do
      return (.go, ← s.checkFile corrupted v)) s.baseDir (base s.baseDir) root ∅) := by
  have hcheck (corrupted : BlobStore.Corrupted) (v : Os.Visit) :
      Prog.Within (Reading (resolve s.baseDir)) (s.checkFile corrupted v) := by
    have hplace (hash : Bytes) : ∃ q, resolve (s.chunkPath (Hex.encode hash)) =
        resolve s.baseDir ++ q := ⟨_, BlobStore.resolve_chunkPath hs hash⟩
    rw [BlobStore.checkFile]
    split
    · exact Prog.within_ret _
    split
    · exact Prog.within_ret _
    split
    · exact Prog.within_ret _
    dsimp only
    split
    · exact Prog.within_ret _
    · refine Prog.within_bind.2 ⟨BlobStore.within_verify (hplace _) (hplace _), fun r _ => ?_⟩
      cases r <;> exact Prog.within_ret _
  have hacts : Os.Acts (fun v corrupted => do return (.go, ← s.checkFile corrupted v)) s.checkFile
      (fun _ => false) (Os.visits (fun _ => false) s.baseDir (base s.baseDir) root) := by
    intro v _ corrupted
    simp
  rw [Os.walk_eq_foldlM _ _ _ _ hacts]
  exact Prog.within_bind.2 ⟨Prog.within_foldlM hcheck _ _, fun _ _ => Prog.within_ret _⟩

/-- A command that only reads returns the same in both, and leaves the world as it is. -/
theorem Likewise.run_reading {α : Type} (h : Likewise s d w t) {p : Cmd α}
    (hp : Prog.Within (Reading (resolve s.baseDir)) p) :
    p.run (handleLinked peer) w = ((p.run (handle peer) t).1, w) := by
  have halike : RunsAlike peer s d w t p := h.run fun o ho => (hp o ho).inside
  have hsame : (p.run (handleLinked peer) w).2 = w := by
    refine Prog.run_within (I := (· = w)) hp ?_ rfl
    rintro o w' ho rfl
    exact ho.same
  exact Prod.ext halike.1 hsame

/-- **What `VerifyAll` finds** if the directory's path is not itself a link. -/
theorem run_verifyAll (hs : isAbs s.baseDir) (h : Reached peer s w)
    (hlink : Unlinked w.fs s.baseDir) :
    ∃ corrupted, s.verifyAll.run (handleLinked peer) w = ((corrupted, none), w) ∧
      BlobStore.Marks corrupted (Flawed s w.fs) := by
  obtain ⟨d, t, hlike, htidy, hnamed⟩ := h.likewise hs
  have hplain : ∀ c ∈ resolve s.baseDir, Plain c := fun _ => plain_of_mem_resolve
  obtain ⟨m, hm⟩ := hlike.shadow.base
  obtain ⟨es, hdir⟩ := Os.Linked.view_eq_dir.1 hm
  have hlookup : w.fs.lookup (resolve s.baseDir) = .ok (.dir m es) :=
    Fs.lookup_eq_ok.2 ⟨d, hlike.shadow.place, hdir⟩
  have hlstat : w.fs.lstat (resolve s.baseDir) =
      .ok (Os.Linked.listed w.fs.inodes (.dir m es)) := by
    obtain ⟨x, hx, rfl | ⟨text, rfl⟩⟩ := Fs.lookupName_of_lookup hplain hlookup
    · rw [Fs.lstat, hx]
      rfl
    · exact (hlink text hx).elim
  -- The directory as the walk finds it, in a file system with nothing else.
  let u : World ν := ⟨some (Os.Linked.under (resolve s.baseDir)
    (Os.Linked.listed w.fs.inodes (.dir m es))), w.umask, w.net⟩
  have hu : Likewise s d w u := ⟨hlike.shadow.toSealed.shadow hdir, rfl, rfl⟩
  have hstat : Os.stat u.fs (resolve s.baseDir) =
      .ok (Os.Linked.listed w.fs.inodes (.dir m es)) :=
    Os.stat_ok.2 (Os.Linked.reach_under _ _)
  have hord : s.InOrder u.fs := by
    obtain ⟨htidy', hnamed'⟩ := BlobStore.tidy_and_named_congr hs
      (fun q => (hu.shadow.same q).trans (hlike.shadow.same q).symm) htidy hnamed
    refine ⟨htidy', hnamed', Os.wf_some.2 (Os.Linked.wf_under hplain (Os.Linked.wf_listed ?_))⟩
    exact Fs.wf_lookup hlike.shadow.wf hlookup
  obtain ⟨corrupted, hrun, hmarks⟩ := @BlobStore.verifyAll_spec _ _ peer _ hs hord
  refine ⟨corrupted, ?_, hmarks.congr fun hash => by rw [Flawed, hu.blob]⟩
  rw [BlobStore.verifyAll, Sys.run_walkTree, handle, hstat] at hrun
  rw [BlobStore.verifyAll, run_walkTree, hlstat]
  dsimp only at hrun ⊢
  rw [hu.run_reading, hrun]
  refine Prog.within_bind.2 ⟨reading_walk hs _, fun r _ => ?_⟩
  rcases r with ⟨_ | _ | e, corrupted⟩ <;> exact Prog.within_ret _

/-- **`VerifyAll` is exact** just when the directory's path is not itself a link, or there is
nothing to name. -/
theorem verifyAll_exact_iff (hs : IsClean s.baseDir) (h : Reached peer s w) :
    (∃ corrupted, s.verifyAll.run (handleLinked peer) w = ((corrupted, none), w) ∧
      BlobStore.Marks corrupted (Flawed s w.fs)) ↔
      Unlinked w.fs s.baseDir ∨ ∀ hash, ¬ Flawed s w.fs hash := by
  constructor
  · rintro ⟨corrupted, hrun, hmarks⟩
    refine or_iff_not_imp_left.2 fun hlink hash hflawed => ?_
    obtain ⟨text, htext⟩ : ∃ text, w.fs.lookupName (resolve s.baseDir) = .ok (.link text) := by
      simpa [Unlinked] using hlink
    rw [run_verifyAll_link htext] at hrun
    cases hrun
    exact (hmarks _).2 ⟨hash, hflawed, rfl⟩ (AList.lookup_empty _)
  · intro hcond
    by_cases hlink : Unlinked w.fs s.baseDir
    · exact run_verifyAll hs.abs h hlink
    · obtain ⟨text, htext⟩ : ∃ text, w.fs.lookupName (resolve s.baseDir) = .ok (.link text) := by
        simpa [Unlinked] using hlink
      refine ⟨∅, run_verifyAll_link htext, fun key => ?_⟩
      refine iff_of_false (fun hne => hne (AList.lookup_empty _)) ?_
      rintro ⟨hash, hflawed, -⟩
      exact hcond.resolve_left hlink hash hflawed

end Likewise

/-- An empty directory `/d` and a link `/s` to it. -/
def linkedDir : LinkedWorld (List Exchange) where
  fs := {
    root := some (.dir 0o755 [([100], .dir 0o700 []), ([115], .link [100])])
    inodes := fun _ => .ofMode 0o600 []
    next := 0 }
  umask := 0o022
  net := []

/-- A chunk is put under another hash. -/
def wrongPut (s : BlobStore) : LinkedWorld (List Exchange) :=
  ((s.perform (.put ⟨List.replicate 32 7, 1, [9]⟩)).run (handleLinked scripted) linkedDir).2

theorem reached_wrongPut {s : BlobStore}
    (h : linkedDir.fs.lookup (resolve s.baseDir) = .ok (.dir 0o700 [])) :
    Reached scripted s (wrongPut s) :=
  (Reached.created (by decide) (Fs.numbered_of_numbers (by decide)) h).call _ rfl

/-- It is named if the store is at `/d`. -/
theorem verifyAll_exact_iff_one_put :
    ∃ corrupted, (BlobStore.verifyAll ⟨[47, 100]⟩).run (handleLinked scripted)
        (wrongPut ⟨[47, 100]⟩) = ((corrupted, none), wrongPut ⟨[47, 100]⟩) ∧
      corrupted.lookup (Hex.encode (List.replicate 32 7)) ≠ none := by
  have hreached := reached_wrongPut (s := ⟨[47, 100]⟩) rfl
  have hlink : Unlinked (wrongPut ⟨[47, 100]⟩).fs [47, 100] := by
    intro text h
    cases h
  obtain ⟨corrupted, hrun, hmarks⟩ :=
    (verifyAll_exact_iff ⟨by decide, by decide⟩ hreached).2 (.inl hlink)
  refine ⟨corrupted, hrun, (hmarks _).2 ⟨_, ⟨[9], ?_, ?_⟩, rfl⟩⟩
  · decide +kernel
  · decide +kernel

/-- With the store at `/s` it is not. -/
theorem linked_store_not_checked :
    Reached scripted ⟨[47, 115]⟩ (wrongPut ⟨[47, 115]⟩) ∧
      Flawed ⟨[47, 115]⟩ (wrongPut ⟨[47, 115]⟩).fs (List.replicate 32 7) ∧
      (BlobStore.verifyAll ⟨[47, 115]⟩).run (handleLinked scripted) (wrongPut ⟨[47, 115]⟩) =
        ((∅, none), wrongPut ⟨[47, 115]⟩) := by
  have hlink : (wrongPut ⟨[47, 115]⟩).fs.lookupName (resolve [47, 115]) = .ok (.link [100]) := rfl
  refine ⟨reached_wrongPut rfl, ⟨[9], ?_, ?_⟩, run_verifyAll_link hlink⟩
  · decide +kernel
  · decide +kernel

end FileSync.Cli
