import FileSync.Os.Tree
import FileSync.Os.Path

/-!
# Os — directories

In a directory each name stands once, and is a name: not empty, not `.` or `..`, and without a
separator.  Every call keeps this (`wf_modify`, `wf_mkdirs`), so that in a tree that a system has
built what `readdir` lists is what can be reached (`WF.lookup`).
-/

namespace Os

open Filepath (Plain)

/-- Distinct plain names in every directory. -/
inductive Entry.WF : Entry → Prop
  | file (m : UInt32) (c : Bytes) : WF (.file m c)
  | dir (m : UInt32) {es : List (Bytes × Entry)} (hnames : (es.map Prod.fst).Nodup)
      (hplain : ∀ x ∈ es, Plain x.1) (hbelow : ∀ x ∈ es, WF x.2) : WF (.dir m es)

/-- The same of a place that may be vacant. -/
def Fs.WF (fs : Fs) : Prop := ∀ e, fs = some e → e.WF

theorem wf_none : Fs.WF none := fun _ h => nomatch h

theorem wf_some {e : Entry} : Fs.WF (some e) ↔ e.WF :=
  ⟨fun h => h e rfl, fun h _ he => Option.some.inj he ▸ h⟩

/-- What is listed is what can be reached. -/
theorem lookup_eq_some {es : List (Bytes × Entry)} (h : (es.map Prod.fst).Nodup) {c : Bytes}
    {e : Entry} : es.lookup c = some e ↔ (c, e) ∈ es := by
  induction es with
  | nil => simp
  | cons x es ih =>
    obtain ⟨n, e'⟩ := x
    rw [List.map_cons, List.nodup_cons] at h
    rw [List.lookup_cons, List.mem_cons]
    by_cases hc : c = n
    · subst hc
      have hnot : (c, e) ∉ es := fun hm => h.1 (List.mem_map.2 ⟨_, hm, rfl⟩)
      simp [hnot, eq_comm]
    · rw [beq_eq_false_iff_ne.2 hc]
      simpa [hc] using ih h.2

theorem Entry.WF.lookup {m : UInt32} {es : List (Bytes × Entry)} (h : (Entry.dir m es).WF)
    (c : Bytes) : Fs.WF (es.lookup c) := by
  cases h with
  | dir _ hnames _ hbelow => exact fun e he => hbelow _ ((lookup_eq_some hnames).1 he)

theorem wf_reach {fs : Fs} (h : fs.WF) (p : List Bytes) : (reach fs p).WF := by
  induction p generalizing fs with
  | nil => simpa using h
  | cons c p ih =>
    rcases fs with _ | ⟨_, _⟩ | ⟨m, es⟩
    · exact wf_none
    · exact wf_none
    · exact ih ((wf_some.1 h).lookup c)

theorem plain_of_reach {e x : Entry} (h : e.WF) {names : List Bytes}
    (hx : reach (some e) names = some x) : ∀ n ∈ names, Plain n := by
  induction names generalizing e with
  | nil => simp
  | cons c names ih =>
    cases h with
    | file m content => cases hx
    | dir m hnames hplain hbelow =>
      rw [reach] at hx
      cases he : List.lookup c _ with
      | none => rw [he, reach_none] at hx; cases hx
      | some e =>
        rw [he] at hx
        have hmem := (lookup_eq_some hnames).1 he
        exact List.forall_mem_cons.2 ⟨hplain _ hmem, ih (hbelow _ hmem) hx⟩

/-- A directory with one place of it changed. -/
theorem wf_put {m : UInt32} {es : List (Bytes × Entry)} (h : (Entry.dir m es).WF) {c : Bytes}
    (hc : Plain c) {o : Fs} (ho : o.WF) : (Entry.dir m (put es c o)).WF := by
  cases h with
  | dir _ hnames hplain hbelow =>
    have hsub : List.Sublist (es.filter (·.1 ≠ c)) es := List.filter_sublist
    have hnd : ((es.filter (·.1 ≠ c)).map Prod.fst).Nodup := hnames.sublist (hsub.map _)
    cases o with
    | none =>
      exact .dir m hnd (fun x hx => hplain x (hsub.subset hx))
        fun x hx => hbelow x (hsub.subset hx)
    | some e =>
      refine .dir m ?_ (fun x hx => ?_) fun x hx => ?_
      · rw [put, List.map_append, List.nodup_append]
        refine ⟨hnd, by simp, ?_⟩
        rintro a ha b hb rfl
        obtain ⟨x, hx, rfl⟩ := List.mem_map.1 ha
        obtain rfl : x.1 = c := by simpa using hb
        simp at hx
      · rcases List.mem_append.1 hx with hx | hx
        · exact hplain x (hsub.subset hx)
        · rw [List.mem_singleton.1 hx]
          exact hc
      · rcases List.mem_append.1 hx with hx | hx
        · exact hbelow x (hsub.subset hx)
        · rw [List.mem_singleton.1 hx]
          exact wf_some.1 ho

theorem wf_modify {f : Fs → Fs} (hf : ∀ o : Fs, o.WF → (f o).WF) {fs : Fs} (h : fs.WF)
    {p : List Bytes} (hp : ∀ c ∈ p, Plain c) : (modify f fs p).WF := by
  induction p generalizing fs with
  | nil =>
    rcases fs with _ | ⟨_, _⟩ | ⟨_, _⟩ <;> exact hf _ h
  | cons c p ih =>
    rcases fs with _ | ⟨m, k⟩ | ⟨m, es⟩
    · exact wf_none
    · exact h
    · exact wf_some.2 (wf_put (wf_some.1 h) (hp c List.mem_cons_self)
        (ih ((wf_some.1 h).lookup c) fun d hd => hp d (List.mem_cons_of_mem c hd)))

theorem wf_mkdirs (mode : UInt32) {fs : Fs} (h : fs.WF) {p : List Bytes}
    (hp : ∀ c ∈ p, Plain c) : (mkdirs mode fs p).WF := by
  have hempty : (Entry.dir mode []).WF := .dir mode (by simp) (by simp) (by simp)
  induction p generalizing fs with
  | nil =>
    rcases fs with _ | ⟨_, _⟩ | ⟨_, _⟩
    · exact wf_some.2 hempty
    · exact h
    · exact h
  | cons c p ih =>
    have hc := hp c List.mem_cons_self
    have hp' : ∀ d ∈ p, Plain d := fun d hd => hp d (List.mem_cons_of_mem c hd)
    rcases fs with _ | ⟨m, k⟩ | ⟨m, es⟩
    · exact wf_some.2 (wf_put hempty hc (ih wf_none hp'))
    · exact h
    · exact wf_some.2 (wf_put (wf_some.1 h) hc (ih ((wf_some.1 h).lookup c) hp'))

/-! ### Calls -/

section Calls

variable {fs fs' : Fs} {p : List Bytes} {mode : UInt32}

theorem wf_mkdirAll (hp : ∀ c ∈ p, Plain c) (h : fs.WF) (hok : mkdirAll fs p mode = .ok fs') :
    fs'.WF := by
  unfold mkdirAll at hok
  split at hok
  · exact Except.ok.inj hok ▸ h
  · cases hok
  · exact Except.ok.inj hok ▸ wf_mkdirs mode h hp
  · cases hok

theorem wf_modify_file (hp : ∀ c ∈ p, Plain c) (h : fs.WF) (m : UInt32) (c : Bytes) :
    (modify (fun _ => some (.file m c)) fs p).WF :=
  wf_modify (fun _ _ => wf_some.2 (.file m c)) h hp

theorem wf_createTrunc (hp : ∀ c ∈ p, Plain c) (h : fs.WF)
    (hok : createTrunc fs p mode = .ok fs') : fs'.WF := by
  unfold createTrunc at hok
  split at hok
  · cases hok
  · exact Except.ok.inj hok ▸ wf_modify_file hp h _ _
  · split at hok
    · exact Except.ok.inj hok ▸ wf_modify_file hp h _ _
    · cases hok
    · cases hok
  · cases hok

theorem wf_append {data : Bytes} (hp : ∀ c ∈ p, Plain c) (h : fs.WF)
    (hok : append fs p data = .ok fs') : fs'.WF := by
  unfold append at hok
  split at hok
  · exact Except.ok.inj hok ▸ wf_modify_file hp h _ _
  · cases hok
  · cases hok

theorem wf_modify_none (hp : ∀ c ∈ p, Plain c) (h : fs.WF) : (modify (fun _ => none) fs p).WF :=
  wf_modify (fun _ _ => wf_none) h hp

theorem wf_remove (hp : ∀ c ∈ p, Plain c) (h : fs.WF) (hok : remove fs p = .ok fs') : fs'.WF := by
  unfold remove at hok
  split at hok
  · exact Except.ok.inj hok ▸ wf_modify_none hp h
  · exact Except.ok.inj hok ▸ wf_modify_none hp h
  · cases hok
  · cases hok

theorem wf_rename {src dst : List Bytes} (hsrc : ∀ c ∈ src, Plain c) (hdst : ∀ c ∈ dst, Plain c)
    (h : fs.WF) (hok : rename fs src dst = .ok fs') : fs'.WF := by
  have hmoved (m : UInt32) (c : Bytes) :
      (modify (fun _ => some (.file m c)) (modify (fun _ => none) fs src) dst).WF :=
    wf_modify_file hdst (wf_modify_none hsrc h) m c
  unfold rename at hok
  split at hok
  · split at hok
    · cases hok
    · exact Except.ok.inj hok ▸ hmoved _ _
    · split at hok
      · exact Except.ok.inj hok ▸ hmoved _ _
      · cases hok
      · cases hok
    · cases hok
  · cases hok
  · cases hok

theorem wf_chmod (hp : ∀ c ∈ p, Plain c) (h : fs.WF) (hok : chmod fs p mode = .ok fs') :
    fs'.WF := by
  unfold chmod at hok
  split at hok
  · exact Except.ok.inj hok ▸ wf_modify_file hp h _ _
  · next m es hs =>
      have hdir : (Entry.dir mode es).WF := by
        cases wf_reach h p _ (stat_ok.1 hs) with
        | dir _ hnames hplain hbelow => exact .dir mode hnames hplain hbelow
      exact Except.ok.inj hok ▸ wf_modify (fun _ _ => wf_some.2 hdir) h hp
  · cases hok

end Calls

end Os
