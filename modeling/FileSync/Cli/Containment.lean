import FileSync.Cli.Reconstruct

/-!
# Cli — where a reconstruction writes

The names of a manifest come from a peer, and `reconstructFiles` joins them to the directory it was
given.  `filepath.Join` cleans the result, so an element `..` cancels a name of the directory.

`Contained` says of a change of the file system that it is inside a directory; a `MkdirAll` of a
directory that leads to it creates nothing, once it exists.

* `confined_iff_stays`: whatever the file system and the store answer, every change is inside the
  directory just when, for each node that is visited, the clean relative path goes up no level, or
  comes back through the names it went up.
-/

open Filepath

namespace FileSync.Cli

open Proto (ManifestNode Request Exchange)
open Cas (BlobStore)

/-- The change is at or below `base`. -/
def Contained (base : List Bytes) : Change → Prop
  | .mkdirAll path _ => base <+: resolve path ∨ resolve path <+: base
  | .openTrunc path _ => base <+: resolve path
  | .write path _ => base <+: resolve path
  | .rename src dst => base <+: resolve src ∧ base <+: resolve dst
  | .remove path => base <+: resolve path
  | .chmod path _ => base <+: resolve path

namespace Visit

/-- What the node does stays inside `base`: a file's path comes back through the names it goes up,
and so does a directory's, or it ends on the way. -/
def StaysIn (base : List Bytes) (v : Visit) : Prop :=
  if v.node.isDir then
    base.rtake (goesUp v.rel) <+: goesDown v.rel ∨ goesDown v.rel <+: base.rtake (goesUp v.rel)
  else v.node.chunks ≠ [] → base.rtake (goesUp v.rel) <+: goesDown v.rel

variable {baseDir : Bytes}

theorem inside_iff (hb : isAbs baseDir) (v : Visit) :
    resolve baseDir <+: v.target baseDir ↔
      (resolve baseDir).rtake (goesUp v.rel) <+: goesDown v.rel := by
  rw [target_eq hb]
  nth_rewrite 1 [← List.take_append_drop ((resolve baseDir).length - goesUp v.rel)
    (resolve baseDir)]
  exact List.prefix_append_right_inj _

theorem above_iff (hb : isAbs baseDir) (v : Visit) :
    v.target baseDir <+: resolve baseDir ↔
      goesDown v.rel <+: (resolve baseDir).rtake (goesUp v.rel) := by
  rw [target_eq hb]
  nth_rewrite 2 [← List.take_append_drop ((resolve baseDir).length - goesUp v.rel)
    (resolve baseDir)]
  exact List.prefix_append_right_inj _

/-- The directory of a file that is inside is inside, or leads to the directory. -/
theorem dir_inside (hb : isAbs baseDir) {v : Visit}
    (h : resolve baseDir <+: v.target baseDir) :
    resolve baseDir <+: resolve (dir (v.path baseDir)) ∨
      resolve (dir (v.path baseDir)) <+: resolve baseDir := by
  rw [resolve_dir_path hb]
  exact List.prefix_or_prefix_of_prefix h (List.dropLast_prefix _)

end Visit

/-! ### The calls of a visit -/

section Calls

variable {baseDir : Bytes} {store : BlobStore}

/-- A change is in `P`. -/
def Changes (P : Change → Prop) : Op → Prop
  | .change c => P c
  | _ => True

variable {P : Change → Prop}

/-- What the changes in `P` keep, a run of such changes keeps. -/
theorem run_within_changes {ν α : Type} {answer : Request → ν → Exchange × ν} {p : Cmd α}
    (hp : Prog.Within (Changes P) p) {I : Os.Fs → Prop}
    (hI : ∀ c fs fs' umask, P c → c.apply fs umask = .ok fs' → I fs → I fs') {w : World ν}
    (hw : I w.fs) : I (Prog.run (handle answer) p w).2.fs := by
  refine Prog.run_within (I := fun w : World ν => I w.fs) hp (fun o w ho hw => ?_) hw
  cases o with
  | change c =>
    change I (w.after (c.apply w.fs w.umask)).2.fs
    cases hr : c.apply w.fs w.umask with
    | error e => exact hw
    | ok fs => exact hI c _ fs _ ho hr hw
  | _ => exact hw

theorem within_change {α : Type} {c : Change} {f : Except Errno Unit → Cmd α} (hc : P c)
    (herr : ∀ e, Prog.Within (Changes P) (f (.error e)))
    (hok : Prog.Within (Changes P) (f (.ok ()))) :
    Prog.Within (Changes P) (Sys.change c >>= f) := by
  refine Prog.within_call_bind.2 ⟨hc, fun r => ?_⟩
  rcases r with e | _
  · exact herr e
  · exact hok

theorem within_get (hash : Bytes) : Prog.Within (Changes P) (store.get hash) := by
  refine Prog.within_call_bind.2 ⟨trivial, fun r => ?_⟩
  rcases r with e | _
  · cases e <;> exact Prog.within_ret _
  · refine Prog.within_call_bind.2 ⟨trivial, fun r => ?_⟩
    cases r <;> exact Prog.within_ret _

theorem within_writeChunks {path : Bytes} (h : ∀ data, P (.write path data))
    (hashes : List Bytes) : Prog.Within (Changes P) (writeChunks store path hashes) := by
  induction hashes with
  | nil => exact Prog.within_ret _
  | cons hash hashes ih =>
    refine Prog.within_bind.2 ⟨within_get hash, fun r _ => ?_⟩
    rcases r with e | chunk
    · exact Prog.within_ret _
    · exact within_change (h _) (fun _ => Prog.within_ret _) ih

theorem within_reconstructFile {path : Bytes} {node : ManifestNode}
    (hdir : P (.mkdirAll (dir path) 0o755)) (hopen : P (.openTrunc path 0o666))
    (hwrite : ∀ data, P (.write path data)) (hmode : P (.chmod path node.mode)) :
    Prog.Within (Changes P) (reconstructFile store path node) := by
  unfold reconstructFile
  split
  · exact Prog.within_ret _
  · refine within_change hdir (fun _ => Prog.within_ret _) ?_
    refine within_change hopen (fun _ => Prog.within_ret _) ?_
    refine Prog.within_bind.2 ⟨within_writeChunks hwrite _, fun r _ => ?_⟩
    rcases r with _ | fault
    · dsimp only
      split
      · exact Prog.within_call_bind.2 ⟨hmode, fun r => Prog.within_ret _⟩
      · exact Prog.within_ret _
    · exact Prog.within_ret _

theorem returns_writeChunks (path : Bytes) (hashes : List Bytes) :
    Prog.Returns (writeChunks store path hashes) none := by
  induction hashes with
  | nil => exact .ret none
  | cons hash hashes ih =>
    have hget : Prog.Returns (store.get hash) (.ok ⟨hash, 0, []⟩) :=
      .call (.ok ()) (.call (.ok []) (.ret _))
    exact Prog.returns_bind hget (.call (.ok ()) ih)

variable (store) in
theorem returns_reconstructFile (path : Bytes) (node : ManifestNode) :
    ∃ n, Prog.Returns (reconstructFile store path node) (n, none) := by
  unfold reconstructFile
  split
  · exact ⟨0, .ret _⟩
  · refine ⟨1, Prog.returns_call_bind (.ok ()) (Prog.returns_call_bind (.ok ())
      (Prog.returns_bind (returns_writeChunks path _) ?_))⟩
    dsimp only
    split
    · exact .call (.ok ()) (.ret _)
    · exact .ret _

/-- Some answers let a visit succeed. -/
theorem returns_visit (v : Visit) : Prog.Returns (visit baseDir store v) none := by
  unfold visit
  split
  · exact .call (.ok ()) (.ret _)
  · obtain ⟨n, hn⟩ := returns_reconstructFile store (v.path baseDir) v.node
    exact Prog.returns_bind hn (.ret _)

theorem within_visitAll (vs : List Visit) :
    Prog.Within (Changes P) (visitAll baseDir store vs) ↔
      ∀ v ∈ vs, Prog.Within (Changes P) (visit baseDir store v) := by
  induction vs with
  | nil => exact iff_of_true (Prog.within_ret _) (by simp)
  | cons v vs ih =>
    rw [visitAll, Prog.within_bind, List.forall_mem_cons, ← ih]
    refine and_congr_right fun _ => ⟨fun h => h none (returns_visit v), fun h r _ => ?_⟩
    cases r with
    | none => exact h
    | some fault => exact Prog.within_ret _

/-- A visit stays inside just when its node does. -/
theorem within_visit (hb : isAbs baseDir) (v : Visit) :
    Prog.Within (Changes (Contained (resolve baseDir))) (visit baseDir store v) ↔
      v.StaysIn (resolve baseDir) := by
  unfold visit Visit.StaysIn
  split
  · rw [← Visit.inside_iff hb, ← Visit.above_iff hb]
    refine Prog.within_call_bind.trans (and_iff_left fun r => ?_)
    cases r <;> exact Prog.within_ret _
  · rw [← Visit.inside_iff hb]
    constructor
    · intro h hne
      -- The file is created once its directory is there.
      refine h (.change (.openTrunc (v.path baseDir) 0o666)) (Prog.issues_map.2 ?_)
      rw [reconstructFile, if_neg hne]
      exact .later (.ok ()) .now
    · intro h
      refine Prog.within_bind.2 ⟨?_, fun r _ => Prog.within_ret _⟩
      by_cases hne : v.node.chunks = []
      · rw [reconstructFile, if_pos hne]
        exact Prog.within_ret _
      · have hin := h hne
        exact within_reconstructFile (Visit.dir_inside hb hin) hin (fun _ => hin) hin

end Calls

/-- Whatever the file system and the store answer, each change of a reconstruction is inside the
directory. -/
def Confined (baseDir : Bytes) (node : Option ManifestNode) (store : BlobStore) : Prop :=
  ∀ c, Prog.Issues (reconstructFiles baseDir node store) (.change c) →
    Contained (resolve baseDir) c

/-- **Containment of a reconstruction.**  For every manifest, every directory and every store: each
change is inside the directory just when no node's path goes up out of it without coming back. -/
theorem confined_iff_stays {baseDir : Bytes} (hb : isAbs baseDir) (node : Option ManifestNode)
    (store : BlobStore) :
    Confined baseDir node store ↔ ∀ v ∈ visits node, v.StaysIn (resolve baseDir) := by
  have hvisits : Prog.Within (Changes (Contained (resolve baseDir)))
      (visitAll baseDir store (visits node)) ↔ ∀ v ∈ visits node, v.StaysIn (resolve baseDir) := by
    rw [within_visitAll]
    exact forall₂_congr fun v _ => within_visit hb v
  rw [← hvisits, ← reconstructFiles_eq]
  constructor
  · intro h o ho
    cases o with
    | change c => exact h c (Prog.issues_map.1 ho)
    | stat | openRead | readAll | readTree | walkTree | exchange => trivial
  · exact fun h c hc => h _ (Prog.issues_map.2 hc)

/-- The file `a/../b` is confined to `/d`. -/
theorem confined_file_inside :
    Confined [47, 100] (some (oneFile [97, 47, 46, 46, 47, 98])) ⟨[47, 115]⟩ := by
  refine (confined_iff_stays (by decide) _ _).2 fun v hv => ?_
  obtain rfl : v = ⟨[], _⟩ := List.mem_singleton.1 hv
  intro _
  decide

/-- The file `../x` is not confined to `/d`: it is created at `/x`. -/
theorem not_confined_file_above :
    ¬ Confined [47, 100] (some (oneFile [46, 46, 47, 120])) ⟨[47, 115]⟩ := by
  intro h
  have hopen : resolve [47, 100] <+: resolve [47, 120] :=
    h (.openTrunc [47, 120] 0o666) (.later (.ok ()) .now)
  exact absurd hopen (by decide)

end FileSync.Cli
