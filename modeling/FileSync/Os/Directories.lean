import FileSync.Os.Tree

/-!
# Os — directories

Which calls keep a directory, and what `os.Remove` takes away.

* `IsDir`: a directory stands at a path; the calls that create and write keep it.
* `view_foldl_tryRemove`: removals of places none of which lies below another, with errors passed
  over, take away those that have nothing below them.
-/

namespace Os

/-- A directory stands at a path. -/
def IsDir (fs : Fs) (p : List Bytes) : Prop := ∃ m, view fs p = some (.dir m)

theorem isDir_mkdirAll {fs fs' : Fs} {p : List Bytes} {mode : UInt32}
    (h : mkdirAll fs p mode = .ok fs') : IsDir fs' p := by
  obtain ⟨hfree, hview⟩ := mkdirAll_ok h
  cases hp : view fs p with
  | none => exact ⟨mode, by rw [hview, if_pos ⟨List.prefix_rfl, hp⟩]⟩
  | some k =>
    cases k with
    | file m c => exact (hfree p List.prefix_rfl m c hp).elim
    | dir m => exact ⟨m, by rw [hview, if_neg (by simp [hp]), hp]⟩

/-- Nothing below the directory changes. -/
theorem view_mkdirAll_below {fs fs' : Fs} {p q : List Bytes} {mode : UInt32}
    (h : mkdirAll fs p mode = .ok fs') (hq : p.length < q.length) : view fs' q = view fs q := by
  rw [(mkdirAll_ok h).2, if_neg]
  rintro ⟨hpre, -⟩
  exact Nat.not_le.2 hq hpre.length_le

namespace IsDir

variable {fs fs' : Fs} {p q : List Bytes} {mode : UInt32}

/-- Only what changes at the path matters. -/
theorem update (h : IsDir fs q) {k : Option Kind} (hview : view fs' = Function.update (view fs) p k)
    (hp : IsDir fs p → ∃ m, k = some (.dir m)) : IsDir fs' q := by
  by_cases hq : q = p
  · subst hq
    obtain ⟨m, rfl⟩ := hp h
    exact ⟨m, by rw [hview, Function.update_self]⟩
  · obtain ⟨m, hm⟩ := h
    exact ⟨m, by rw [hview, Function.update_of_ne hq, hm]⟩

theorem mkdirAll (h : IsDir fs q) (hok : Os.mkdirAll fs p mode = .ok fs') : IsDir fs' q := by
  obtain ⟨m, hm⟩ := h
  exact ⟨m, by rw [(mkdirAll_ok hok).2, if_neg (by simp [hm]), hm]⟩

theorem createTrunc (h : IsDir fs q) (hok : Os.createTrunc fs p mode = .ok fs') : IsDir fs' q := by
  obtain ⟨m, hview, hp⟩ := createTrunc_ok hok
  refine h.update hview fun ⟨m', hm'⟩ => ?_
  rcases hp with hp | ⟨c, hp⟩ <;> simp [hp] at hm'

theorem append {data : Bytes} (h : IsDir fs q) (hok : Os.append fs p data = .ok fs') :
    IsDir fs' q := by
  obtain ⟨m, c, hfile, hview⟩ := append_ok hok
  exact h.update hview fun ⟨m', hm'⟩ => by simp [hfile] at hm'

theorem chmod (h : IsDir fs q) (hok : Os.chmod fs p mode = .ok fs') : IsDir fs' q := by
  obtain ⟨k, hk, hview⟩ := chmod_ok hok
  refine h.update hview fun ⟨m, hm⟩ => ⟨mode, ?_⟩
  obtain rfl := Option.some.inj (hk.symm.trans hm)
  rfl

end IsDir

/-! ### Removing -/

/-- Nothing stands below a path, as below a file or in an empty directory. -/
def Childless (fs : Fs) (p : List Bytes) : Prop := ∀ c, view fs (p ++ [c]) = none

/-- `remove` takes a file or an empty directory away. -/
theorem remove_succeeds {fs : Fs} {p : List Bytes} (hp : view fs p ≠ none)
    (h : Childless fs p) : ∃ fs', remove fs p = .ok fs' := by
  obtain ⟨k, hk⟩ := Option.ne_none_iff_exists'.1 hp
  cases k with
  | file m c => exact ⟨_, by rw [remove, stat_of_view_file hk]⟩
  | dir m =>
    obtain ⟨es, hs⟩ := stat_of_view_dir hk
    cases es with
    | nil => exact ⟨_, by rw [remove, hs]⟩
    | cons x es =>
      have hx := h x.1
      rw [view, reach_append, stat_ok.1 hs] at hx
      simp [reach] at hx

theorem remove_fails {fs : Fs} {p : List Bytes} (h : ¬ Childless fs p) :
    ∃ e, remove fs p = .error e := by
  obtain ⟨c, hc⟩ := not_forall.1 h
  obtain ⟨m, hm⟩ := view_dir_above (List.prefix_append p [c]) (by simp) hc
  obtain ⟨es, hs⟩ := stat_of_view_dir hm
  cases es with
  | nil =>
    rw [view, reach_append, stat_ok.1 hs] at hc
    simp [reach] at hc
  | cons x es => exact ⟨.notEmpty, by rw [remove, hs]⟩

/-- `os.Remove` whose error is passed over. -/
def tryRemove (fs : Fs) (p : List Bytes) : Fs :=
  match remove fs p with
  | .ok fs' => fs'
  | .error _ => fs

theorem view_tryRemove_of_childless {fs : Fs} {p : List Bytes} (h : Childless fs p) :
    view (tryRemove fs p) = Function.update (view fs) p none := by
  rw [tryRemove]
  by_cases hp : view fs p = none
  · cases hr : remove fs p with
    | ok fs' => exact remove_ok hr
    | error e => rw [Function.update_eq_self_iff.2 hp.symm]
  · obtain ⟨fs', hr⟩ := remove_succeeds hp h
    rw [hr]
    exact remove_ok hr

theorem tryRemove_of_not_childless {fs : Fs} {p : List Bytes} (h : ¬ Childless fs p) :
    tryRemove fs p = fs := by
  obtain ⟨e, he⟩ := remove_fails h
  rw [tryRemove, he]

theorem view_tryRemove_of_ne {fs : Fs} {p q : List Bytes} (h : q ≠ p) :
    view (tryRemove fs p) q = view fs q := by
  by_cases hp : Childless fs p
  · rw [view_tryRemove_of_childless hp, Function.update_of_ne h]
  · rw [tryRemove_of_not_childless hp]

theorem childless_tryRemove {fs : Fs} {p q : List Bytes} (h : ∀ c, q ++ [c] ≠ p) :
    Childless (tryRemove fs p) q ↔ Childless fs q :=
  forall_congr' fun c => by rw [view_tryRemove_of_ne (h c)]

/-- **What is left after removals**, of places none of which lies below another: everything but the
places with nothing below them. -/
theorem view_foldl_tryRemove {fs : Fs} {ps : List (List Bytes)}
    (h : ∀ p ∈ ps, ∀ q ∈ ps, p <+: q → p = q) (q : List Bytes) :
    view (ps.foldl tryRemove fs) q = none ↔ view fs q = none ∨ q ∈ ps ∧ Childless fs q := by
  induction ps generalizing fs with
  | nil => simp
  | cons p ps ih =>
    have hrest : ∀ p ∈ ps, ∀ q ∈ ps, p <+: q → p = q := fun a ha b hb =>
      h a (List.mem_cons_of_mem p ha) b (List.mem_cons_of_mem p hb)
    rw [List.foldl_cons, ih hrest, List.mem_cons]
    by_cases hq : q = p
    · subst hq
      rw [childless_tryRemove (by simp)]
      by_cases hbare : Childless fs q
      · rw [view_tryRemove_of_childless hbare, Function.update_self]
        simp [hbare]
      · rw [tryRemove_of_not_childless hbare]
        simp [hbare]
    · rw [view_tryRemove_of_ne hq]
      refine or_congr_right ?_
      simp only [hq, false_or]
      refine and_congr_right fun hmem => childless_tryRemove fun c hc => hq ?_
      exact h q (List.mem_cons_of_mem p hmem) p List.mem_cons_self ⟨[c], hc⟩

end Os
