import FileSync.Cli.Containment
import FileSync.Cli.Manifest

/-!
# Cli — what a reconstruction makes of a directory without links

A reconstruction that returns no error has created every directory of the manifest and written every
file with chunks (`cmd/p2p-file-sync/main.go`).  A file without chunks it skips.  For directories in
which there are links see `Cli.Realised`.

* `isDir_of_visit`, `isDir_visitAll`: the directories that are visited are there at the end.
* `content_visitAll`: where a file has no chunks, what was there before stays.
-/

open Filepath

namespace FileSync.Cli

open Proto (ManifestNode Request Exchange)
open Cas (BlobStore)
open Os (IsDir)

/-- No file is written at the place of a hash. -/
def Apart (baseDir : Bytes) (store : BlobStore) (vs : List Visit) : Prop :=
  ∀ v ∈ vs, v.Writes → ∀ hash, store.place hash ≠ v.target baseDir

section Runs

variable {ν : Type} {answer : Request → ν → Exchange × ν} {w : World ν} {baseDir : Bytes}
  {store : BlobStore}

theorem run_visitAll_cons (v : Visit) (vs : List Visit) :
    (visitAll baseDir store (v :: vs)).run (handle answer) w =
      match (visit baseDir store v).run (handle answer) w with
      | (some fault, w') => (some fault, w')
      | (none, w') => (visitAll baseDir store vs).run (handle answer) w' := by
  rw [visitAll, Prog.run_bind]
  rcases (visit baseDir store v).run (handle answer) w with ⟨_ | fault, w'⟩ <;> rfl

variable (answer baseDir store) in
theorem run_reconstructFiles (node : Option ManifestNode) (w : World ν) :
    (visitAll baseDir store (visits node)).run (handle answer) w =
      (((reconstructFiles baseDir node store).run (handle answer) w).1.2,
        ((reconstructFiles baseDir node store).run (handle answer) w).2) := by
  rw [← reconstructFiles_eq, Prog.run_bind]
  rfl

end Runs

/-! ### Directories -/

section Directories

variable {ν : Type} {answer : Request → ν → Exchange × ν} {w w' : World ν} {baseDir : Bytes}
  {store : BlobStore}

theorem builds_visit (v : Visit) : Prog.Within (Changes Change.Builds) (visit baseDir store v) := by
  unfold visit
  split
  · exact within_change trivial (fun _ => Prog.within_ret _) (Prog.within_ret _)
  · exact Prog.within_bind.2 ⟨within_reconstructFile trivial trivial (fun _ => trivial) trivial,
      fun r _ => Prog.within_ret _⟩

/-- Directories stay. -/
theorem isDir_of_visitAll {vs : List Visit} {r : Option Fault}
    (h : (visitAll baseDir store vs).run (handle answer) w = (r, w')) {q : List Bytes}
    (hq : IsDir w.fs q) : IsDir w'.fs q := by
  have hbuilds : Prog.Within (Changes Change.Builds) (visitAll baseDir store vs) :=
    (within_visitAll vs).2 fun v _ => builds_visit v
  have hstay : IsDir ((visitAll baseDir store vs).run (handle answer) w).2.fs q :=
    run_within_changes hbuilds (fun _ _ _ _ hc hok hq => isDir_apply hc hok hq) hq
  rwa [h] at hstay

/-- A directory that is visited is there. -/
theorem isDir_of_visit {v : Visit} (hdir : v.node.isDir = true)
    (h : (visit baseDir store v).run (handle answer) w = (none, w')) :
    IsDir w'.fs (v.target baseDir) := by
  have hwp : Prog.wp (handle answer) (fun _ => True) (visit baseDir store v)
      (fun r w' => r = none → IsDir w'.fs (v.target baseDir)) w := by
    rw [visit, if_pos hdir]
    exact wp_change (fun e he => ⟨trivial, fun hr => nomatch hr⟩)
      fun fs hok => ⟨trivial, fun _ => Os.isDir_mkdirAll hok⟩
  have hend := Prog.wp_run hwp
  rw [h] at hend
  exact hend rfl

/-- **The directories that are visited are there at the end.** -/
theorem isDir_visitAll {vs : List Visit}
    (h : (visitAll baseDir store vs).run (handle answer) w = (none, w')) {v : Visit} (hv : v ∈ vs)
    (hdir : v.node.isDir = true) : IsDir w'.fs (v.target baseDir) := by
  induction vs generalizing w with
  | nil => exact nomatch hv
  | cons u vs ih =>
    rw [run_visitAll_cons] at h
    rcases hu : (visit baseDir store u).run (handle answer) w with ⟨_ | fault, w₁⟩
    · rw [hu] at h
      rcases List.mem_cons.1 hv with rfl | hv
      · exact isDir_of_visitAll h (isDir_of_visit hdir hu)
      · exact ih h hv
    · rw [hu] at h
      cases h

end Directories

/-! ### Files -/

section Files

variable {ν : Type} {answer : Request → ν → Exchange × ν} {w w' : World ν} {baseDir : Bytes}
  {store : BlobStore} {root : ManifestNode}

/-- What a reconstruction without an error has made of the files. -/
theorem content_visitAll (hb : isAbs baseDir) (hs : isAbs store.baseDir) (hroot : root.Orderly)
    (hsep : Apart baseDir store (visits (some root)))
    (h : (visitAll baseDir store (visits (some root))).run (handle answer) w = (none, w'))
    {q : List Bytes} {n : ManifestNode} (hq : q ≠ []) (hn : root.At q n) (hfile : n.isDir = false) :
    Os.content w'.fs (resolve baseDir ++ q) =
      if n.chunks = [] then Os.content w.fs (resolve baseDir ++ q)
      else some (contents (store.blob w.fs) n.chunks) := by
  have hspec := Prog.wp_run (h := handle answer)
    (visitAll_spec (I := fun _ => True) (w := w) hb hs hsep fun _ _ => trivial)
  rw [h] at hspec
  obtain ⟨fs', rfl, helse, hlast⟩ := hspec
  -- Only a visit of the node itself writes there.
  have hself {u : Visit} (hu : u ∈ visits (some root))
      (htarget : u.target baseDir = resolve baseDir ++ q) : u.node = n := by
    obtain ⟨s, -, hs', hus⟩ := at_of_mem_visits hb hroot hu
    obtain rfl : s = q := List.append_cancel_left (hus.symm.trans htarget)
    exact hroot.at_unique hs' hn
  split
  · next hempty =>
      refine helse _ fun u hu huw htarget => huw.2 ?_
      rw [hself hu htarget.symm, hempty]
  · next hne =>
      obtain ⟨v, hv, rfl, htarget⟩ := exists_visit hb hroot hq hn
      obtain ⟨u, hu, huw, hut, hdone, hcont⟩ := hlast rfl v hv ⟨hfile, hne⟩
      rw [hself hu (hut.trans htarget)] at hdone hcont
      rw [← htarget, hcont, (assembled_complete hdone).1]

/-- What it has made of the directories below the root. -/
theorem isDir_of_at (hb : isAbs baseDir) (hroot : root.Orderly)
    (h : (visitAll baseDir store (visits (some root))).run (handle answer) w = (none, w'))
    {q : List Bytes} {n : ManifestNode} (hq : q ≠ []) (hn : root.At q n) (hdir : n.isDir = true) :
    IsDir w'.fs (resolve baseDir ++ q) := by
  obtain ⟨v, hv, rfl, htarget⟩ := exists_visit hb hroot hq hn
  rw [← htarget]
  exact isDir_visitAll h hv hdir

end Files

end FileSync.Cli
