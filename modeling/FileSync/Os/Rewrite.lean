import FileSync.Os.Links

/-!
# Os — files written again

A file is emptied, the contents of other files are appended to it, and its mode is set.  This is
done to files in turn, each at one of its names, and each was made of those other files before.

* `content_applyAll_iff`: the contents are kept just when no file is among its own sources, if a
  file that is a source has only itself as a source.
* `mode_applyAll_iff`: the modes are kept just when no file is left with the mode of a link.
-/

namespace Os.Linked

/-- A file that is written again from others, at one of its names. -/
structure Rewrite where
  path : List Bytes
  ino : ℕ
  sources : List ℕ
  mode : UInt32

namespace Rewrite

/-- The content of a source at the end of the file. -/
def copy (ino : ℕ) (files : Files) (source : ℕ) : Files :=
  Function.update files ino
    { files ino with content := (files ino).content ++ (files source).content }

/-- The files after one of them was emptied and written; a mode of zero is not set. -/
def write (r : Rewrite) (files : Files) : Files :=
  r.sources.foldl (copy r.ino) (Function.update files r.ino { files r.ino with content := [] })

def apply (files : Files) (r : Rewrite) : Files :=
  if r.mode ≠ 0 then
    Function.update (r.write files) r.ino
      ⟨r.mode &&& modeBits, (r.write files r.ino).content, regular_and r.mode⟩
  else r.write files

/-- The files after several rewrites. -/
def applyAll (rs : List Rewrite) (files : Files) : Files := rs.foldl apply files

/-! ### One rewrite -/

variable {r : Rewrite} {files : Files}

theorem foldl_copy (ino : ℕ) (sources : List ℕ) (files : Files) :
    (∀ j ≠ ino, sources.foldl (copy ino) files j = files j) ∧
      (sources.foldl (copy ino) files ino).mode = (files ino).mode ∧
      (ino ∉ sources → (sources.foldl (copy ino) files ino).content =
        (files ino).content ++ (sources.map fun j => (files j).content).flatten) := by
  induction sources generalizing files with
  | nil => simp
  | cons source sources ih =>
    obtain ⟨helse, hmode, hcontent⟩ := ih (copy ino files source)
    have hcopy : ∀ j ≠ ino, copy ino files source j = files j :=
      fun j hj => Function.update_of_ne hj _ _
    have hself : copy ino files source ino =
        { files ino with content := (files ino).content ++ (files source).content } :=
      Function.update_self ..
    refine ⟨fun j hj => (helse j hj).trans (hcopy j hj), ?_, fun hno => ?_⟩
    · rw [List.foldl_cons, hmode, hself]
    · rw [List.mem_cons, not_or] at hno
      have hsame : (sources.map fun j => (copy ino files source j).content) =
          sources.map fun j => (files j).content :=
        List.map_congr_left fun j hj => by rw [hcopy j (ne_of_mem_of_not_mem hj hno.2)]
      rw [List.foldl_cons, hcontent hno.2, hsame, hself, List.map_cons, List.flatten_cons,
        List.append_assoc]

theorem write_of_ne {j : ℕ} (hj : j ≠ r.ino) : r.write files j = files j := by
  rw [write, (foldl_copy _ _ _).1 j hj, Function.update_of_ne hj]

theorem mode_write : (r.write files r.ino).mode = (files r.ino).mode := by
  rw [write, (foldl_copy _ _ _).2.1, Function.update_self]

theorem apply_of_ne {j : ℕ} (hj : j ≠ r.ino) : apply files r j = files j := by
  rw [apply]
  split
  · rw [Function.update_of_ne hj, write_of_ne hj]
  · exact write_of_ne hj

theorem content_apply : (apply files r r.ino).content = (r.write files r.ino).content := by
  rw [apply]
  split
  · rw [Function.update_self]
  · rfl

theorem mode_apply : (apply files r r.ino).mode =
    if r.mode ≠ 0 then r.mode &&& modeBits else (files r.ino).mode := by
  rw [apply]
  split
  · rw [Function.update_self]
  · exact mode_write

/-- From other files the file gets their contents. -/
theorem content_apply_of_notMem (h : r.ino ∉ r.sources) :
    (apply files r r.ino).content = (r.sources.map fun j => (files j).content).flatten := by
  have hsame : (r.sources.map fun j => (Function.update files r.ino
      { files r.ino with content := [] } j).content) = r.sources.map fun j => (files j).content :=
    List.map_congr_left fun j hj => by rw [Function.update_of_ne (ne_of_mem_of_not_mem hj h)]
  rw [content_apply, write, (foldl_copy _ _ _).2.2 h, hsame, Function.update_self, List.nil_append]

/-- A file that is its own source is left empty. -/
theorem content_apply_self (h : r.sources = [r.ino]) : (apply files r r.ino).content = [] := by
  rw [content_apply, write, h, List.foldl_cons, List.foldl_nil, copy, Function.update_self,
    Function.update_self]
  rfl

/-! ### Contents -/

section Contents

variable {rs : List Rewrite} {files₀ : Files}

/-- The file was made of its sources. -/
def Made (files : Files) (r : Rewrite) : Prop :=
  (files r.ino).content = (r.sources.map fun j => (files j).content).flatten

theorem content_applyAll (hmade : ∀ r ∈ rs, r.Made files₀) (hno : ∀ r ∈ rs, r.ino ∉ r.sources)
    (h : ∀ j, (files j).content = (files₀ j).content) (j : ℕ) :
    (applyAll rs files j).content = (files₀ j).content := by
  induction rs generalizing files with
  | nil => exact h j
  | cons r rs ih =>
    rw [List.forall_mem_cons] at hmade hno
    refine ih hmade.2 hno.2 fun i => ?_
    by_cases hi : i = r.ino
    · subst hi
      rw [content_apply_of_notMem hno.1, hmade.1]
      simp only [h]
    · rw [apply_of_ne hi, h]

/-- What is empty stays so, if its rewrites have no source but the file itself. -/
theorem content_applyAll_empty {i : ℕ} (hself : ∀ r ∈ rs, r.ino = i → r.sources = [r.ino])
    (h : (files i).content = []) : (applyAll rs files i).content = [] := by
  induction rs generalizing files with
  | nil => exact h
  | cons r rs ih =>
    rw [List.forall_mem_cons] at hself
    refine ih hself.2 ?_
    by_cases hi : i = r.ino
    · subst hi
      exact content_apply_self (hself.1 rfl)
    · rw [apply_of_ne hi, h]

theorem content_applyAll_self (hself : ∀ r' ∈ rs, r'.ino = r.ino → r'.sources = [r'.ino])
    (hr : r ∈ rs) : (applyAll rs files r.ino).content = [] := by
  obtain ⟨before, after, rfl⟩ := List.append_of_mem hr
  rw [List.forall_mem_append, List.forall_mem_cons] at hself
  rw [applyAll, List.foldl_append, List.foldl_cons]
  exact content_applyAll_empty hself.2.2 (content_apply_self (hself.2.1 rfl))

/-- **The contents are kept** just when no file is among its own sources. -/
theorem content_applyAll_iff (hmade : ∀ r ∈ rs, r.Made files₀)
    (hne : ∀ r ∈ rs, (files₀ r.ino).content ≠ [])
    (hself : ∀ r ∈ rs, ∀ r' ∈ rs, r.ino ∈ r'.sources → r.sources = [r.ino]) :
    (∀ j, (applyAll rs files₀ j).content = (files₀ j).content) ↔
      ∀ r ∈ rs, r.ino ∉ r.sources := by
  constructor
  · intro h r hr hmem
    refine hne r hr ((h r.ino).symm.trans (content_applyAll_self (fun r' hr' heq => ?_) hr))
    exact hself r' hr' r hr (heq ▸ hmem)
  · exact fun h => content_applyAll hmade h fun _ => rfl

end Contents

/-! ### Modes -/

section Modes

variable {rs : List Rewrite} {l : UInt32}

theorem applyAll_concat (rs : List Rewrite) (r : Rewrite) (files : Files) :
    applyAll (rs ++ [r]) files = apply (applyAll rs files) r := by
  rw [applyAll, List.foldl_append]
  rfl

/-- The mode of a file comes to be kept: the mode `l` that a name of it had is its own, or another
name of it comes later. -/
def Restored (rs : List Rewrite) (l : UInt32) (files : Files) (r : Rewrite) : Prop :=
  (files r.ino).mode = l &&& modeBits ∨
    (files r.ino).mode ≠ 0 ∧
      ∃ r' ∈ rs, r'.ino = r.ino ∧ r'.mode = (files r.ino).mode ∧ r.path < r'.path

theorem restored_concat {a : Rewrite} (h : r.path < a.path) :
    Restored (rs ++ [a]) l files r ↔ Restored rs l files r ∨
      (files r.ino).mode ≠ 0 ∧ a.ino = r.ino ∧ a.mode = (files r.ino).mode := by
  constructor
  · rintro (hmode | ⟨hne, r', hr', hino, hmode, hlt⟩)
    · exact .inl (.inl hmode)
    · rcases List.mem_append.1 hr' with hr' | hr'
      · exact .inl (.inr ⟨hne, r', hr', hino, hmode, hlt⟩)
      · obtain rfl := List.mem_singleton.1 hr'
        exact .inr ⟨hne, hino, hmode⟩
  · rintro ((hmode | ⟨hne, r', hr', hrest⟩) | ⟨hne, hino, hmode⟩)
    · exact .inl hmode
    · exact .inr ⟨hne, r', List.mem_append_left _ hr', hrest⟩
    · exact .inr ⟨hne, a, by simp, hino, hmode, h⟩

/-- At the last name nothing comes later. -/
theorem restored_last {a : Rewrite} (h : ∀ r ∈ rs, r.path < a.path) :
    Restored (rs ++ [a]) l files a ↔ (files a.ino).mode = l &&& modeBits := by
  refine or_iff_left ?_
  rintro ⟨-, r', hr', -, -, hlt⟩
  rcases List.mem_append.1 hr' with hr' | hr'
  · exact List.lt_asymm hlt (h r' hr')
  · obtain rfl := List.mem_singleton.1 hr'
    exact List.lt_irrefl _ hlt

/-- **The mode of a file is kept** just when every name of it that has the mode `l` is made up for.
The induction is from the end, where the last rewrite of the file decides. -/
theorem mode_applyAll_iff (hl : l ≠ 0) (hlbits : l &&& modeBits ≠ l)
    (hmode : ∀ r ∈ rs, r.mode = l ∨ r.mode = (files r.ino).mode)
    (hsorted : rs.Pairwise fun r r' => r.path < r'.path) (i : ℕ) :
    (applyAll rs files i).mode = (files i).mode ↔
      ∀ r ∈ rs, r.ino = i → r.mode = l → Restored rs l files r := by
  induction rs using List.reverseRecOn with
  | nil => simp [applyAll]
  | append_singleton rs a ih =>
    rw [List.forall_mem_append, List.forall_mem_singleton] at hmode
    obtain ⟨hsorted, -, hlast⟩ := List.pairwise_append.1 hsorted
    replace hlast : ∀ r ∈ rs, r.path < a.path := fun r hr => hlast r hr a (by simp)
    replace ih := ih hmode.1 hsorted
    rw [applyAll_concat, List.forall_mem_append, List.forall_mem_singleton]
    by_cases hi : a.ino = i
    · subst hi
      rw [mode_apply]
      rcases hmode.2 with ha | ha
      · -- The name is a link: the file has the mode of a link now.
        rw [if_pos (ha ▸ hl), ha, restored_last hlast]
        exact ⟨fun h => ⟨fun r _ hr _ => .inl (hr ▸ h.symm), fun _ _ => h.symm⟩,
          fun h => (h.2 rfl rfl).symm⟩
      · have hnot : a.mode ≠ l := fun h =>
          hlbits (by rw [← h, ha, (files a.ino).regular])
        by_cases hzero : a.mode = 0
        · -- No mode is set, and none was to be restored.
          rw [if_neg (not_not.2 hzero), ih]
          refine ⟨fun h => ⟨fun r hr hino hrl => ?_, fun _ hal => (hnot hal).elim⟩,
            fun h r hr hino hrl => ?_⟩
          · exact (restored_concat (hlast r hr)).2 (.inl (h r hr hino hrl))
          · refine ((restored_concat (hlast r hr)).1 (h.1 r hr hino hrl)).resolve_right ?_
            rintro ⟨hne, -⟩
            rw [hino, ← ha, hzero] at hne
            exact hne rfl
        · have hset : a.mode &&& modeBits = (files a.ino).mode := by
            rw [ha, (files a.ino).regular]
          rw [if_pos hzero]
          refine ⟨fun _ => ⟨fun r hr hino _ => ?_, fun _ hal => (hnot hal).elim⟩, fun _ => hset⟩
          refine (restored_concat (hlast r hr)).2 (.inr ?_)
          rw [hino]
          exact ⟨ha ▸ hzero, rfl, ha⟩
    · rw [apply_of_ne (Ne.symm hi), ih]
      refine ⟨fun h => ⟨fun r hr hino hrl => ?_, fun hino => (hi hino).elim⟩,
        fun h r hr hino hrl => ?_⟩
      · exact (restored_concat (hlast r hr)).2 (.inl (h r hr hino hrl))
      · refine ((restored_concat (hlast r hr)).1 (h.1 r hr hino hrl)).resolve_right ?_
        exact fun hlater => hi (hlater.2.1.trans hino)

/-- **All is as before** just when no file is among its own sources and every mode is restored. -/
theorem applyAll_eq_iff (hl : l ≠ 0) (hlbits : l &&& modeBits ≠ l)
    (hmade : ∀ r ∈ rs, r.Made files) (hne : ∀ r ∈ rs, (files r.ino).content ≠ [])
    (hself : ∀ r ∈ rs, ∀ r' ∈ rs, r.ino ∈ r'.sources → r.sources = [r.ino])
    (hmode : ∀ r ∈ rs, r.mode = l ∨ r.mode = (files r.ino).mode)
    (hsorted : rs.Pairwise fun r r' => r.path < r'.path) :
    applyAll rs files = files ↔
      (∀ r ∈ rs, r.ino ∉ r.sources) ∧ ∀ r ∈ rs, r.mode = l → Restored rs l files r := by
  rw [← content_applyAll_iff hmade hne hself]
  have hmodes : (∀ j, (applyAll rs files j).mode = (files j).mode) ↔
      ∀ r ∈ rs, r.mode = l → Restored rs l files r := by
    simp only [mode_applyAll_iff hl hlbits hmode hsorted]
    exact ⟨fun h r hr hrl => h r.ino r hr rfl hrl, fun h j r hr _ hrl => h r hr hrl⟩
  rw [← hmodes]
  constructor
  · intro h
    rw [h]
    exact ⟨fun _ => rfl, fun _ => rfl⟩
  · rintro ⟨hcontent, hmode⟩
    funext j
    exact Inode.ext (hmode j) (hcontent j)

end Modes

end Rewrite

end Os.Linked
