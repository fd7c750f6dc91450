import FileSync.Os.Names

/-!
# Os — a directory behind links

A path leads to a directory, along links or not; below that directory there are no links, and no
file there has a second name.  The calls on what is below go as they do in a file system without
links that has the same there, its shadow.

* `Outside`: where a path leads does not depend on what is below a directory.
* `Shadow b d fs t`: the path `b` leads to the directory `d`, and `t` has below `b` what `fs` has
  below `d`.
* `Shadow.stat`, `Shadow.read`: what is below is found in the shadow as well.
* `Shadow.createTrunc`, `Shadow.append`, `Shadow.mkdirAll`, `Shadow.remove`, `Shadow.rename`: a call
  fails with the same error in both, or it leaves a shadow and what is elsewhere as it was.
-/

namespace Os

/-- The last step to a place. -/
theorem stat_concat (t : Fs) (p : List Bytes) (c : Bytes) :
    stat t (p ++ [c]) = (match stat t p with
      | .ok (.dir _ es) => stat (es.lookup c) []
      | .ok (.file ..) => .error .notDir
      | .error e => .error e) := by
  induction p generalizing t with
  | nil => rcases t with _ | ⟨m, c⟩ | ⟨m, es⟩ <;> simp [stat]
  | cons a p ih =>
    rcases t with _ | ⟨m, c⟩ | ⟨m, es⟩
    · rfl
    · rfl
    · exact ih _

theorem stat_append {t : Fs} {b : List Bytes} {e : Entry} (h : reach t b = some e)
    (q : List Bytes) : stat t (b ++ q) = stat (some e) q := by
  induction b generalizing t with
  | nil =>
    rw [reach_nil] at h
    rw [h, List.nil_append]
  | cons c b ih =>
    rcases t with _ | ⟨m, x⟩ | ⟨m, es⟩
    · cases h
    · cases h
    · exact ih h

/-- One more directory. -/
theorem view_mkdirs_concat {t : Fs} {b : List Bytes} {c : Bytes} {m : UInt32}
    {es : List (Bytes × Entry)} (hdir : stat t b = .ok (.dir m es))
    (hvac : reach t (b ++ [c]) = none) (mode : UInt32) :
    view (mkdirs mode t (b ++ [c])) = Function.update (view t) (b ++ [c]) (some (.dir mode)) := by
  have hb : view t b = some (.dir m) := by
    rw [view, stat_ok.1 hdir]
    rfl
  have hnone : view t (b ++ [c]) = none := by
    rw [view, hvac]
    rfl
  funext q
  rw [view_mkdirs (noFile_of_dir (by rwa [List.dropLast_concat]) (by simp [hnone])),
    Function.update_apply]
  by_cases hq : q = b ++ [c]
  · rw [if_pos hq, if_pos (by simp [hq, hnone])]
  · rw [if_neg hq, if_neg]
    rintro ⟨hpre, hqv⟩
    rcases List.prefix_concat_iff.1 hpre with rfl | hpre
    · exact hq rfl
    · rcases eq_or_ne q b with rfl | hqb
      · cases hb.symm.trans hqv
      · have hthere : view t b ≠ none := by simp [hb]
        obtain ⟨m', hm'⟩ := view_dir_above hpre hqb hthere
        cases hm'.symm.trans hqv

end Os

namespace Os.Linked

open Filepath

/-- The place is below another. -/
def Below (d e : List Bytes) : Prop := ∃ q, q ≠ [] ∧ e = d ++ q

/-- The same stands at all places that are not below `d`. -/
def Agree (d : List Bytes) (root root' : Option Entry) : Prop :=
  ∀ e, ¬ Below d e → view root' e = view root e

theorem Agree.trans {d : List Bytes} {root root' root'' : Option Entry} (h : Agree d root root')
    (h' : Agree d root' root'') : Agree d root root'' :=
  fun e he => (h' e he).trans (h e he)

/-- Where there is nothing below `d`, a path that leads to something does not pass there. -/
theorem Leads.agree {d : List Bytes} {root root' : Option Entry} (hag : Agree d root root')
    (hvac : ∀ e, Below d e → view root e = none) {n : ℕ} {here p r : List Bytes}
    (h : Leads root n here p r) (hr : view root r ≠ none) : Leads root' n here p r := by
  have hnot {e : List Bytes} {k : Kind} (he : view root e = some k) : ¬ Below d e := by
    intro hb
    cases (hvac e hb).symm.trans he
  induction h with
  | done => exact .done
  | @step n here p _ c m hdir hno hrest ih =>
    refine .step ((hag _ (hnot hdir)).trans hdir) (fun text hlink => ?_) (ih hr)
    by_cases hb : Below d (descend here c)
    · cases hrest with
      | done => exact hr (hvac _ hb)
      | step hdir' | jump hdir' => exact hnot hdir' hb
    · exact hno text ((hag _ hb).symm.trans hlink)
  | jump hdir hlink _ ih =>
    exact .jump ((hag _ (hnot hdir)).trans hdir) ((hag _ (hnot hlink)).trans hlink) (ih hr)

/-- What a step finds at a place: `res` is what comes of it at a directory. -/
def walkFrom {α : Type} : Option Kind → Except Errno α → Except Errno α
  | none, _ => .error .notExist
  | some (.dir _), res => res
  | some _, _ => .error .notDir

namespace Fs

/-- Where the path leads does not depend on what is below `d`, and it does not lead there. -/
structure Outside (fs : Fs) (d p : List Bytes) : Prop where
  same : ∀ root', Agree d fs.root root' → follow root' maxLinks [] p = fs.place p
  away : ∀ e, fs.place p = .ok e → ¬ Below d e

section Outside

variable {fs fs' : Fs} {d p : List Bytes}

theorem Outside.place (h : fs.Outside d p) (hag : Agree d fs.root fs'.root) :
    fs'.place p = fs.place p := h.same fs'.root hag

theorem Outside.agree (h : fs.Outside d p) (hag : Agree d fs.root fs'.root) :
    fs'.Outside d p := by
  have hplace := h.place hag
  refine ⟨fun root' hag' => ?_, fun e he => h.away e (hplace ▸ he)⟩
  rw [hplace]
  exact h.same root' (hag.trans hag')

theorem outside_of_vacant (hvac : ∀ e, Below d e → view fs.root e = none) {r : List Bytes}
    (hp : fs.place p = .ok r) (hr : view fs.root r ≠ none) : fs.Outside d p := by
  refine ⟨fun root' hag => ?_, fun e he hb => ?_⟩
  · rw [hp, follow_eq_ok]
    exact (place_eq_ok.1 hp).agree hag hvac hr
  · rw [hp] at he
    cases he
    exact hr (hvac r hb)

/-- Where there are no links, names below a place lead to places below it. -/
theorem walk_below {root : Option Entry} {r : List Bytes}
    (hlink : ∀ x text, view root (r ++ x) ≠ some (.link text)) {q : List Bytes}
    (hq : ∀ c ∈ q, c ≠ dotdot) (x : List Bytes) :
    ∃ res, (∀ jump root', (∀ y, view root' (r ++ y) = view root (r ++ y)) →
        walk jump root' (r ++ x) q = res) ∧ ∀ e, res = .ok e → ∃ y, e = r ++ y := by
  induction q generalizing x with
  | nil => exact ⟨.ok (r ++ x), fun _ _ _ => rfl, fun e he => ⟨x, (Except.ok.inj he).symm⟩⟩
  | cons c q ih =>
    rw [List.forall_mem_cons] at hq
    have hdown : ∃ x', descend (r ++ x) c = r ++ x' := by
      by_cases hc : c = [] ∨ c = dot
      · exact ⟨x, by rw [descend, if_pos hc]⟩
      · exact ⟨x ++ [c], by rw [descend, if_neg hc, if_neg hq.1, List.append_assoc]⟩
    obtain ⟨x', hx'⟩ := hdown
    obtain ⟨res, hres, hbelow⟩ := ih hq.2 x'
    have hstep (jump : List Bytes → List Bytes → Except Errno (List Bytes))
        (root' : Option Entry) (hroot : ∀ y, view root' (r ++ y) = view root (r ++ y)) :
        walk jump root' (r ++ x) (c :: q) = walkFrom (view root (r ++ x)) res := by
      have hnext : ∀ text, reach root' (r ++ x') ≠ some (.link text) := fun text h =>
        hlink x' text ((hroot x').symm.trans (view_eq_link.2 h))
      rw [← hroot x, walk, hx', ← hres jump root' hroot, view]
      rcases reach root' (r ++ x) with _ | ⟨i⟩ | ⟨t⟩ | ⟨m, es⟩
      · rfl
      · rfl
      · rfl
      · rcases hr : reach root' (r ++ x') with _ | ⟨i⟩ | ⟨t⟩ | ⟨m, es⟩
        · rfl
        · rfl
        · exact (hnext t hr).elim
        · rfl
    refine ⟨_, hstep, fun e he => hbelow e ?_⟩
    generalize view root (r ++ x) = o at he
    rcases o with _ | ⟨i⟩ | ⟨t⟩ | ⟨m⟩
    · cases he
    · cases he
    · cases he
    · exact he

/-- A path that leads outside, and goes on where there are no links. -/
theorem Outside.append (h : fs.Outside d p) {r : List Bytes} (hp : fs.place p = .ok r)
    (hlink : ∀ x text, view fs.root (r ++ x) ≠ some (.link text))
    (haway : ∀ x, ¬ Below d (r ++ x)) {q : List Bytes} (hq : ∀ c ∈ q, c ≠ dotdot) :
    fs.Outside d (p ++ q) := by
  obtain ⟨res, hres, hbelow⟩ := walk_below hlink hq []
  rw [List.append_nil] at hres
  have hplace {root' : Option Entry} (hag : Agree d fs.root root') :
      follow root' maxLinks [] (p ++ q) = res :=
    follow_append (fun jump => hres jump root' fun y => hag _ (haway y)) maxLinks
      ((h.same root' hag).trans hp)
  have hself : fs.place (p ++ q) = res := hplace fun _ _ => rfl
  refine ⟨fun root' hag => (hplace hag).trans hself.symm, fun e he => ?_⟩
  obtain ⟨y, rfl⟩ := hbelow e (hself.symm.trans he)
  exact haway y

end Outside

end Fs

/-! ### Shadows -/

/-- What is not below `d` stays. -/
structure Frame (d : List Bytes) (fs fs' : Fs) : Prop where
  agree : Agree d fs.root fs'.root
  files : ∀ e ino, ¬ Below d e → view fs.root e = some (.file ino) →
    fs'.inodes ino = fs.inodes ino

theorem Frame.refl (d : List Bytes) (fs : Fs) : Frame d fs fs :=
  ⟨fun _ _ => rfl, fun _ _ _ _ => rfl⟩

theorem Frame.trans {d : List Bytes} {fs fs' fs'' : Fs} (h : Frame d fs fs')
    (h' : Frame d fs' fs'') : Frame d fs fs'' where
  agree := h.agree.trans h'.agree
  files e ino he hf :=
    (h'.files e ino he ((h.agree e he).trans hf)).trans (h.files e ino he hf)

/-- What a path outside leads to stays. -/
theorem Frame.content {d : List Bytes} {fs fs' : Fs} (h : Frame d fs fs') {p : List Bytes}
    (hp : fs.Outside d p) : fs'.content p = fs.content p := by
  refine Option.ext fun c => ?_
  rw [Fs.content_eq_some_iff, Fs.content_eq_some_iff, hp.place h.agree]
  refine exists_congr fun e => and_congr_right fun he => exists_congr fun ino => ?_
  rw [h.agree e (hp.away e he)]
  refine and_congr_right fun hf => ?_
  rw [h.files e ino (hp.away e he) hf]

/-- The path `b` leads to the directory `d`, below which there are no links and no file has another
name. -/
structure Sealed (b d : List Bytes) (fs : Fs) : Prop where
  wf : fs.WF
  numbered : fs.Numbered
  place : fs.place b = .ok d
  outside : fs.Outside d b
  base : ∃ m, view fs.root d = some (.dir m)
  noLink : ∀ q text, view fs.root (d ++ q) ≠ some (.link text)
  alone : ∀ q e ino, view fs.root (d ++ q) = some (.file ino) →
    view fs.root e = some (.file ino) → e = d ++ q

/-- An empty directory is such. -/
theorem sealed_of_empty {b : List Bytes} {fs : Fs} {m : UInt32} (hwf : fs.WF)
    (hnum : fs.Numbered) (h : fs.lookup b = .ok (.dir m [])) :
    ∃ d, Sealed b d fs ∧ reach fs.root d = some (.dir m []) := by
  obtain ⟨d, hplace, hdir⟩ := Fs.lookup_eq_ok.1 h
  have hbelow (q : List Bytes) (hq : q ≠ []) : view fs.root (d ++ q) = none := by
    rw [view_eq_none, reach_append, hdir]
    cases q with
    | nil => exact (hq rfl).elim
    | cons c q => cases q <;> rfl
  have hbase : view fs.root d = some (.dir m) := view_eq_dir.2 ⟨[], hdir⟩
  have hview {q : List Bytes} {k : Kind} (hk : view fs.root (d ++ q) = some k) : k = .dir m := by
    by_cases hq : q = []
    · rw [hq, List.append_nil, hbase] at hk
      exact (Option.some.inj hk).symm
    · rw [hbelow q hq] at hk
      cases hk
  refine ⟨d, ⟨hwf, hnum, hplace, Fs.outside_of_vacant ?_ hplace (by simp [hbase]), ⟨m, hbase⟩,
    fun q text hq => ?_, fun q e ino hq => ?_⟩, hdir⟩
  · rintro _ ⟨q, hq, rfl⟩
    exact hbelow q hq
  · cases hview hq
  · cases hview hq

/-- `t` has below `b` what `fs` has below `d`. -/
structure Shadow (b d : List Bytes) (fs : Fs) (t : Os.Fs) : Prop extends Sealed b d fs where
  same : ∀ q, Os.view t (b ++ q) = (view fs.root (d ++ q)).map (Kind.shown fs.inodes)

/-- A tree with nothing but an entry at the end of names. -/
def under : List Bytes → Os.Entry → Os.Entry
  | [], e => e
  | c :: b, e => .dir 0 [(c, under b e)]

theorem reach_under (b : List Bytes) (e : Os.Entry) : Os.reach (some (under b e)) b = some e := by
  induction b with
  | nil => rfl
  | cons c b ih => simpa [under, Os.reach] using ih

theorem wf_under {b : List Bytes} (hb : ∀ c ∈ b, Plain c) {e : Os.Entry} (he : e.WF) :
    (under b e).WF := by
  induction b with
  | nil => exact he
  | cons c b ih =>
    rw [List.forall_mem_cons] at hb
    exact .dir 0 (by simp) (List.forall_mem_singleton.2 hb.1)
      (List.forall_mem_singleton.2 (ih hb.2))

/-- What is below, listed, is a shadow. -/
theorem Sealed.shadow {b d : List Bytes} {fs : Fs} (h : Sealed b d fs) {x : Entry}
    (hx : reach fs.root d = some x) : Shadow b d fs (some (under b (listed fs.inodes x))) where
  toSealed := h
  same q := by
    rw [Os.view, Os.reach_append, reach_under, view, reach_append, hx, ← view, ← view_listed]
    rfl

namespace Shadow

variable {b d : List Bytes} {fs fs' : Fs} {t t' : Os.Fs}

/-- One name below changes, and the file that it stands for. -/
theorem update (h : Shadow b d fs t) (hwf : fs'.WF) {q : List Bytes} (hq : q ≠ [])
    {k : Option Kind}
    (hview : view fs'.root = Function.update (view fs.root) (d ++ q) k)
    (hlink : ∀ text, k ≠ some (.link text)) (hnext : fs.next ≤ fs'.next)
    (hfile : ∀ ino, k = some (.file ino) →
      ino < fs'.next ∧ ∀ e, view fs.root e = some (.file ino) → e = d ++ q)
    (hino : ∀ e ino, e ≠ d ++ q → view fs.root e = some (.file ino) →
      fs'.inodes ino = fs.inodes ino)
    (htree : Os.view t' = Function.update (Os.view t) (b ++ q) (k.map (Kind.shown fs'.inodes))) :
    Shadow b d fs' t' ∧ Frame d fs fs' := by
  have hne {e : List Bytes} (he : ¬ Below d e) : e ≠ d ++ q := by
    rintro rfl
    exact he ⟨q, hq, rfl⟩
  have hframe : Frame d fs fs' := by
    refine ⟨fun e he => ?_, fun e ino he => hino e ino (hne he)⟩
    rw [hview, Function.update_of_ne (hne he)]
  have hd : view fs'.root d = view fs.root d := by
    refine hframe.agree d ?_
    rintro ⟨r, hr, hdr⟩
    exact hr (List.self_eq_append_right.1 hdr)
  refine ⟨⟨⟨hwf, fun e ino he => ?_, ?_, h.outside.agree hframe.agree, ?_, fun r text => ?_,
    fun r e ino hr he => ?_⟩, fun r => ?_⟩, hframe⟩
  · rw [hview, Function.update_apply] at he
    split at he
    · exact (hfile ino he).1
    · exact (h.numbered e ino he).trans_le hnext
  · rw [h.outside.place hframe.agree, h.place]
  · rw [hd]
    exact h.base
  · rw [hview, Function.update_apply]
    split
    · exact hlink text
    · exact h.noLink r text
  · rw [hview, Function.update_apply] at hr he
    split at hr
    · next hrq =>
        rw [hrq]
        split at he
        · next heq => exact heq
        · exact (hfile ino hr).2 e he
    · next hrq =>
        split at he
        · next heq => exact ((hrq ((hfile ino he).2 _ hr))).elim
        · exact h.alone r e ino hr he
  · rw [hview, htree, Function.update_apply, Function.update_apply]
    by_cases hrq : r = q
    · simp [hrq]
    · rw [if_neg (by simpa using hrq), if_neg (by simpa using hrq), h.same r]
      cases hk : view fs.root (d ++ r) with
      | none => rfl
      | some k' =>
        cases k' with
        | file ino =>
          have hsame := hino (d ++ r) ino (by simpa using hrq) hk
          rw [Option.map_some, Option.map_some, Kind.shown, Kind.shown, hsame]
        | link text => rfl
        | dir m => rfl

/-! ### What is found -/

/-- What stands in the shadow, of what stands below. -/
theorem reach_eq (h : Shadow b d fs t) (q : List Bytes) :
    (Os.reach t (b ++ q) = none ∧ reach fs.root (d ++ q) = none) ∨
      (∃ ino, Os.reach t (b ++ q) = some (.file (fs.inodes ino).mode (fs.inodes ino).content) ∧
        reach fs.root (d ++ q) = some (.file ino)) ∨
      ∃ m es es', Os.reach t (b ++ q) = some (.dir m es) ∧
        reach fs.root (d ++ q) = some (.dir m es') := by
  have hsame := h.same q
  have hno := h.noLink q
  rw [Os.view, view] at hsame
  rw [view] at hno
  generalize Os.reach t (b ++ q) = x, reach fs.root (d ++ q) = y at hsame hno ⊢
  rcases y with _ | ⟨ino⟩ | ⟨text⟩ | ⟨m, es'⟩
  · exact .inl ⟨by simpa using hsame, rfl⟩
  · refine .inr (.inl ⟨ino, ?_, rfl⟩)
    rcases x with _ | ⟨m, c⟩ | ⟨m, es⟩ <;>
      simp_all [Entry.kind, Kind.shown, Os.Entry.kind]
  · exact (hno text rfl).elim
  · refine .inr (.inr ?_)
    rcases x with _ | ⟨m', c⟩ | ⟨m', es⟩ <;>
      simp_all [Entry.kind, Kind.shown, Os.Entry.kind]

theorem walk_step (h : Shadow b d fs t) (jump : List Bytes → List Bytes → Except Errno (List Bytes))
    {r p : List Bytes} {c : Bytes} (hc : Plain c) {m : UInt32} {es : List (Bytes × Entry)}
    (hdir : reach fs.root (d ++ r) = some (.dir m es)) :
    walk jump fs.root (d ++ r) (c :: p) = walk jump fs.root (d ++ (r ++ [c])) p := by
  rw [walk, hdir, descend_plain hc, List.append_assoc]
  rcases hnext : reach fs.root (d ++ (r ++ [c])) with _ | ⟨i⟩ | ⟨text⟩ | ⟨m', es'⟩
  · rfl
  · rfl
  · exact (h.noLink _ text (view_eq_link.2 hnext)).elim
  · rfl

/-- The way down from `d`, as the shadow has it.  The induction is on the names to go, and `r` are
those behind. -/
theorem walk_eq (h : Shadow b d fs t) (jump : List Bytes → List Bytes → Except Errno (List Bytes))
    {q : List Bytes} (hq : ∀ c ∈ q, Plain c) {c : Bytes} (hc : Plain c) (r : List Bytes) :
    walk jump fs.root (d ++ r) (q ++ [c]) = (match Os.stat (Os.reach t (b ++ r)) q with
      | .ok (.dir ..) => .ok (d ++ r ++ (q ++ [c]))
      | .ok (.file ..) => .error .notDir
      | .error e => .error e) := by
  induction q generalizing r with
  | nil =>
    rcases h.reach_eq r with ⟨ht, hf⟩ | ⟨ino, ht, hf⟩ | ⟨m, es, es', ht, hf⟩
    · rw [ht, List.nil_append, walk, hf]
      rfl
    · rw [ht, List.nil_append, walk, hf]
      rfl
    · rw [ht, List.nil_append, h.walk_step jump hc hf, walk, List.append_assoc]
      rfl
  | cons a q ih =>
    rw [List.forall_mem_cons] at hq
    rcases h.reach_eq r with ⟨ht, hf⟩ | ⟨ino, ht, hf⟩ | ⟨m, es, es', ht, hf⟩
    · rw [ht, List.cons_append, walk, hf]
      rfl
    · rw [ht, List.cons_append, walk, hf]
      rfl
    · have hdown : Os.reach t (b ++ (r ++ [a])) = es.lookup a := by
        rw [← List.append_assoc, Os.reach_append, ht, Os.reach, Os.reach_nil]
      rw [List.cons_append, h.walk_step jump hq.1 hf, ih hq.2, hdown, ht, Os.stat]
      simp

theorem exists_dir (h : Shadow b d fs t) : ∃ m es, Os.reach t b = some (.dir m es) := by
  obtain ⟨m, hm⟩ := h.base
  rcases h.reach_eq [] with ⟨-, hf⟩ | ⟨ino, -, hf⟩ | ⟨m', es, es', ht, -⟩
  · rw [List.append_nil] at hf
    rw [view, hf] at hm
    cases hm
  · rw [List.append_nil] at hf
    rw [view, hf] at hm
    cases hm
  · rw [List.append_nil] at ht
    exact ⟨m', es, ht⟩

/-- Where a name below stands, by the directory that it is in. -/
theorem place_concat (h : Shadow b d fs t) {q : List Bytes} (hq : ∀ c ∈ q, Plain c) {c : Bytes}
    (hc : Plain c) : fs.place (b ++ (q ++ [c])) = (match Os.stat t (b ++ q) with
      | .ok (.dir ..) => .ok (d ++ (q ++ [c]))
      | .ok (.file ..) => .error .notDir
      | .error e => .error e) := by
  obtain ⟨m, es, hdir⟩ := h.exists_dir
  have hwalk (jump : List Bytes → List Bytes → Except Errno (List Bytes)) :=
    h.walk_eq jump hq hc []
  simp only [List.append_nil, hdir] at hwalk
  rw [Fs.place, follow_append hwalk maxLinks h.place, Os.stat_append hdir]

/-- What the names below lead to, there and in the shadow. -/
inductive Found (b d : List Bytes) (fs : Fs) (t : Os.Fs) (q : List Bytes) : Prop
  | error (e : Errno) (hlookup : fs.lookup (b ++ q) = .error e)
      (hstat : Os.stat t (b ++ q) = .error e)
  | file (ino : ℕ) (hplace : fs.place (b ++ q) = .ok (d ++ q))
      (hlookup : fs.lookup (b ++ q) = .ok (.file ino))
      (hstat : Os.stat t (b ++ q) = .ok (.file (fs.inodes ino).mode (fs.inodes ino).content))
  | dir (m : UInt32) (es : List (Bytes × Os.Entry)) (es' : List (Bytes × Entry))
      (hplace : fs.place (b ++ q) = .ok (d ++ q)) (hlookup : fs.lookup (b ++ q) = .ok (.dir m es'))
      (hstat : Os.stat t (b ++ q) = .ok (.dir m es))

theorem found_of_place (h : Shadow b d fs t) {q : List Bytes}
    (hp : fs.place (b ++ q) = .ok (d ++ q))
    (hvac : Os.reach t (b ++ q) = none → Os.stat t (b ++ q) = .error .notExist) :
    Found b d fs t q := by
  rcases h.reach_eq q with ⟨ht, hf⟩ | ⟨ino, ht, hf⟩ | ⟨m, es, es', ht, hf⟩
  · refine .error .notExist ?_ (hvac ht)
    simp [Fs.lookup, hp, bind, Except.bind, hf]
  · exact .file ino hp (Fs.lookup_eq_ok.2 ⟨_, hp, hf⟩) (Os.stat_ok.2 ht)
  · exact .dir m es es' hp (Fs.lookup_eq_ok.2 ⟨_, hp, hf⟩) (Os.stat_ok.2 ht)

/-- **What is below is found in the shadow as well.** -/
theorem found (h : Shadow b d fs t) {q : List Bytes} (hq : ∀ c ∈ q, Plain c) :
    Found b d fs t q := by
  rcases List.eq_nil_or_concat q with rfl | ⟨q, c, rfl⟩
  · refine h.found_of_place (by rw [List.append_nil, List.append_nil, h.place]) fun hvac => ?_
    obtain ⟨m, es, hdir⟩ := h.exists_dir
    rw [List.append_nil, hdir] at hvac
    cases hvac
  · rw [List.concat_eq_append] at hq ⊢
    rw [List.forall_mem_append] at hq
    have hp := h.place_concat hq.1 (hq.2 c (by simp))
    have hst := Os.stat_concat t (b ++ q) c
    rw [List.append_assoc] at hst
    rcases hpar : Os.stat t (b ++ q) with e | ⟨m, x⟩ | ⟨m, es⟩
    · rw [hpar] at hp hst
      refine .error e ?_ hst
      simp [Fs.lookup, hp, bind, Except.bind]
    · rw [hpar] at hp hst
      refine .error .notDir ?_ hst
      simp [Fs.lookup, hp, bind, Except.bind]
    · rw [hpar] at hp hst
      refine h.found_of_place hp fun hvac => ?_
      rw [← List.append_assoc, Os.reach_append, Os.stat_ok.1 hpar, Os.reach, Os.reach_nil] at hvac
      rw [hst]
      dsimp only
      rw [hvac]
      rfl

/-! ### What the calls do -/

/-- A call fails with the same error, or it leaves a shadow and what is elsewhere as it was. -/
def Alike (b d : List Bytes) (fs : Fs) : Except Errno Fs → Except Errno Os.Fs → Prop
  | .ok fs', .ok t' => Shadow b d fs' t' ∧ Frame d fs fs'
  | .error e, .error e' => e = e'
  | _, _ => False

/-- A name below is in a directory, or the way to it fails. -/
theorem parent (h : Shadow b d fs t) {q : List Bytes} (hq : ∀ c ∈ q, Plain c) {c : Bytes}
    (hc : Plain c) :
    (∃ m es es', Os.stat t (b ++ q) = .ok (.dir m es) ∧
        reach fs.root (d ++ q) = some (.dir m es') ∧
        (Os.reach t (b ++ (q ++ [c])) = none →
          Os.stat t (b ++ (q ++ [c])) = .error .notExist) ∧
        fs.place (b ++ (q ++ [c])) = .ok (d ++ (q ++ [c])) ∧
        fs.placeOfName (b ++ (q ++ [c])) = .ok (d ++ (q ++ [c]))) ∨
      ∃ e, (Os.stat t (b ++ q) = .error e ∨
          ∃ m x, Os.stat t (b ++ q) = .ok (.file m x) ∧ e = .notDir) ∧
        Os.stat t (b ++ (q ++ [c])) = .error e ∧ fs.place (b ++ (q ++ [c])) = .error e ∧
        fs.placeOfName (b ++ (q ++ [c])) = .error e := by
  have hp := h.place_concat hq hc
  have hst := Os.stat_concat t (b ++ q) c
  have hname := fs.placeOfName_eq (b ++ q) c
  rw [List.append_assoc] at hst hname
  rcases h.found hq with ⟨e, hlookup, hstat⟩ | ⟨ino, hplace, hlookup, hstat⟩ |
    ⟨m, es, es', hplace, hlookup, hstat⟩
  · rw [hstat] at hp hst
    rw [hlookup] at hname
    exact .inr ⟨e, .inl hstat, hst, hp, hname⟩
  · rw [hstat] at hp hst
    rw [hlookup] at hname
    exact .inr ⟨.notDir, .inr ⟨_, _, hstat, rfl⟩, hst, hp, hname⟩
  · rw [hstat] at hp hst
    rw [hlookup, hplace] at hname
    obtain ⟨d', hd', hr⟩ := Fs.lookup_eq_ok.1 hlookup
    rw [hplace] at hd'
    cases hd'
    refine .inl ⟨m, es, es', hstat, hr, fun hvac => ?_, hp, hname.trans ?_⟩
    · rw [← List.append_assoc, Os.reach_append, Os.stat_ok.1 hstat, Os.reach, Os.reach_nil] at hvac
      rw [hst]
      dsimp only
      rw [hvac]
      rfl
    · rw [Except.map, List.append_assoc]

theorem read (h : Shadow b d fs t) {q : List Bytes} (hq : ∀ c ∈ q, Plain c) :
    fs.read (b ++ q) = Os.read t (b ++ q) := by
  rw [Fs.read, Os.read]
  rcases h.found hq with ⟨e, hlookup, hstat⟩ | ⟨ino, -, hlookup, hstat⟩ |
    ⟨m, es, es', -, hlookup, hstat⟩ <;> rw [hlookup, hstat] <;> rfl

theorem stat (h : Shadow b d fs t) {q : List Bytes} (hq : ∀ c ∈ q, Plain c) :
    (fs.stat (b ++ q)).map (fun _ => ()) = (Os.stat t (b ++ q)).map fun _ => () := by
  rw [Fs.stat]
  rcases h.found hq with ⟨e, hlookup, hstat⟩ | ⟨ino, -, hlookup, hstat⟩ |
    ⟨m, es, es', -, hlookup, hstat⟩ <;> rw [hlookup, hstat] <;> rfl

section Calls

variable {q : List Bytes} {c : Bytes}

/-- A change of a name in the shadow. -/
theorem view_shadow {o : Os.Fs} {m : UInt32} {es : List (Bytes × Os.Entry)}
    (hdir : Os.stat t (b ++ q) = .ok (.dir m es))
    (hleaf : Os.Leaf (Os.reach t (b ++ (q ++ [c])))) (ho : Os.Leaf o) :
    Os.view (Os.modify (fun _ => o) t (b ++ (q ++ [c]))) =
      Function.update (Os.view t) (b ++ (q ++ [c])) (o.map Os.Entry.kind) := by
  refine Os.view_modify_leaf (.inr ⟨m, es, ?_⟩) hleaf ho
  rw [← List.append_assoc, List.dropLast_concat, ← Os.stat_ok, hdir]

/-- A change of a name below. -/
theorem view_below {o root : Option Entry} {m : UInt32} {es : List (Bytes × Entry)}
    (hdir : reach root (d ++ q) = some (.dir m es))
    (hbare : Bare (reach root (d ++ (q ++ [c])))) (ho : Bare o) :
    view (modify o root (d ++ (q ++ [c]))) =
      Function.update (view root) (d ++ (q ++ [c])) (o.map Entry.kind) := by
  rw [← List.append_assoc] at hbare ⊢
  exact view_modify (view_eq_dir.2 ⟨es, hdir⟩) hbare ho

theorem bare_none : Bare none := fun _ _ h => by cases h

theorem bare_file (ino : ℕ) : Bare (some (.file ino)) := fun _ _ h => by cases h

theorem bare_of_view {root : Option Entry} {e : List Bytes}
    (h : view root e = none ∨ ∃ ino, view root e = some (.file ino)) : Bare (reach root e) := by
  rcases h with h | ⟨ino, h⟩
  · rw [view_eq_none.1 h]
    exact bare_none
  · rw [view_eq_file.1 h]
    exact bare_file ino

theorem bare_dir (m : UInt32) : Bare (some (.dir m [])) := fun _ _ h => by cases h; rfl

/-- The file of a name below changes. -/
theorem withInode (h : Shadow b d fs t) (hq : q ≠ []) {ino : ℕ}
    (hino : reach fs.root (d ++ q) = some (.file ino)) (f : Inode)
    (htree : Os.view t' = Function.update (Os.view t) (b ++ q) (some (.file f.mode f.content))) :
    Shadow b d (fs.withInode ino f) t' ∧ Frame d fs (fs.withInode ino f) := by
  have hview := view_eq_file.2 hino
  have hself : (fs.withInode ino f).inodes ino = f := by
    rw [Fs.withInode]
    exact Function.update_self ..
  refine h.update h.wf hq (k := some (.file ino)) ?_ (by simp) le_rfl ?_ ?_ ?_
  · rw [← hview, Function.update_eq_self]
    rfl
  · intro i hi
    cases hi
    exact ⟨h.numbered _ _ hview, fun e he => h.alone q e ino hview he⟩
  · intro e i he hi
    refine Function.update_of_ne ?_ ..
    rintro rfl
    exact he (h.alone q e i hview hi)
  · rw [htree, Option.map_some, Kind.shown, hself]

/-- A directory below is empty if it is so in the shadow. -/
theorem entries_eq_nil_iff (h : Shadow b d fs t) {m : UInt32} {es : List (Bytes × Os.Entry)}
    {es' : List (Bytes × Entry)} (ht : Os.reach t (b ++ q) = some (.dir m es))
    (hf : reach fs.root (d ++ q) = some (.dir m es')) : es = [] ↔ es' = [] := by
  have hlookup (x : Bytes) : es.lookup x = none ↔ es'.lookup x = none := by
    have hnil : reach (es'.lookup x) [] = es'.lookup x := by cases es'.lookup x <;> rfl
    have hx := h.same (q ++ [x])
    rw [← List.append_assoc, ← List.append_assoc, Os.view, view, Os.reach_append, reach_append, ht,
      hf, Os.reach, Os.reach_nil, reach, hnil] at hx
    rw [← Option.map_eq_none_iff (f := Os.Entry.kind), hx, Option.map_eq_none_iff,
      Option.map_eq_none_iff]
  constructor
  · rintro rfl
    cases es' with
    | nil => rfl
    | cons y es' => simpa using (hlookup y.1).1 rfl
  · rintro rfl
    cases es with
    | nil => rfl
    | cons y es => simpa using (hlookup y.1).2 rfl

variable (hq : ∀ c ∈ q, Plain c) (hc : Plain c)
include hq hc

theorem wf_modify (h : Shadow b d fs t) {o : Option Entry} (ho : ∀ x, o = some x → x.WF) :
    ∀ x, modify o fs.root (d ++ (q ++ [c])) = some x → x.WF := by
  obtain ⟨m, hm⟩ := h.base
  obtain ⟨es, hd⟩ := view_eq_dir.1 hm
  have hplain : ∀ x ∈ d, Plain x := (Fs.wf_of_reach h.wf hd).2
  refine Os.Linked.wf_modify ho h.wf ?_
  exact List.forall_mem_append.2 ⟨hplain,
    List.forall_mem_append.2 ⟨hq, List.forall_mem_singleton.2 hc⟩⟩

/-- A name below is removed that has nothing below it. -/
theorem vacate (h : Shadow b d fs t) {m : UInt32} {es : List (Bytes × Os.Entry)}
    {es' : List (Bytes × Entry)} (hdir : Os.stat t (b ++ q) = .ok (.dir m es))
    (hdir' : reach fs.root (d ++ q) = some (.dir m es'))
    (hleaf : Os.Leaf (Os.reach t (b ++ (q ++ [c]))))
    (hbare : Bare (reach fs.root (d ++ (q ++ [c])))) :
    Shadow b d { fs with root := modify none fs.root (d ++ (q ++ [c])) }
        (Os.modify (fun _ => none) t (b ++ (q ++ [c]))) ∧
      Frame d fs { fs with root := modify none fs.root (d ++ (q ++ [c])) } :=
  h.update (h.wf_modify hq hc (by simp)) (by simp) (k := none) (view_below hdir' hbare bare_none)
    (by simp) le_rfl (by simp)
    (fun _ _ _ _ => rfl) (view_shadow hdir hleaf trivial)

/-- A file below gets another name in its directory. -/
theorem move (h : Shadow b d fs t) {m : UInt32} {es : List (Bytes × Os.Entry)}
    {es' : List (Bytes × Entry)} (hdir : Os.stat t (b ++ q) = .ok (.dir m es))
    (hdir' : reach fs.root (d ++ q) = some (.dir m es')) {c' : Bytes} (hc' : Plain c')
    (hne : c ≠ c')
    {ino : ℕ} (ht : Os.reach t (b ++ (q ++ [c])) =
      some (.file (fs.inodes ino).mode (fs.inodes ino).content))
    (hf : reach fs.root (d ++ (q ++ [c])) = some (.file ino))
    (hdst : Os.view t (b ++ (q ++ [c'])) = none ∨
      ∃ m x, Os.view t (b ++ (q ++ [c'])) = some (.file m x))
    (hdst' : view fs.root (d ++ (q ++ [c'])) = none ∨
      ∃ i, view fs.root (d ++ (q ++ [c'])) = some (.file i)) :
    let root₁ := modify none fs.root (d ++ (q ++ [c]))
    let root₂ := modify (some (.file ino)) root₁ (d ++ (q ++ [c']))
    let t₁ := Os.modify (fun _ => none) t (b ++ (q ++ [c]))
    let t₂ := Os.modify (fun _ => some (.file (fs.inodes ino).mode (fs.inodes ino).content)) t₁
      (b ++ (q ++ [c']))
    Shadow b d { fs with root := root₂ } t₂ ∧ Frame d fs { fs with root := root₂ } := by
  intro root₁ root₂ t₁ t₂
  have hfile := view_eq_file.2 hf
  have hleaf : Os.Leaf (Os.reach t (b ++ (q ++ [c]))) := by
    rw [ht]
    trivial
  have hbare : Bare (reach fs.root (d ++ (q ++ [c]))) := by
    rw [hf]
    exact bare_file ino
  have hin : Os.InDir t (b ++ (q ++ [c'])) := by
    refine .inr ⟨m, es, ?_⟩
    rw [← List.append_assoc, List.dropLast_concat, ← Os.stat_ok, hdir]
  have hparent : d ++ q ≠ d ++ (q ++ [c]) := by simp
  have hother : d ++ (q ++ [c']) ≠ d ++ (q ++ [c]) := by simpa using hne.symm
  have hview₁ : view root₁ = Function.update (view fs.root) (d ++ (q ++ [c])) none :=
    view_below hdir' hbare bare_none
  have hview₂ : view root₂ =
      Function.update (view root₁) (d ++ (q ++ [c'])) (some (.file ino)) := by
    obtain ⟨es'', hes''⟩ : ∃ es'', reach root₁ (d ++ q) = some (.dir m es'') := by
      rw [← view_eq_dir, hview₁, Function.update_of_ne hparent]
      exact view_eq_dir.2 ⟨es', hdir'⟩
    refine view_below hes'' (bare_of_view ?_) (bare_file ino)
    rwa [hview₁, Function.update_of_ne hother]
  obtain ⟨h₁, hframe₁⟩ := h.vacate hq hc hdir hdir' hleaf hbare
  have h₂ : Shadow b d { fs with root := root₂ } t₂ ∧
      Frame d { fs with root := root₁ } { fs with root := root₂ } := by
    refine h₁.update (h₁.wf_modify hq hc' (by simp [Entry.WF.file])) (by simp)
      (k := some (.file ino)) hview₂ (by simp) le_rfl ?_
      (fun _ _ _ _ => rfl) ?_
    · intro i hi
      cases hi
      refine ⟨h.numbered _ _ hfile, fun e he => ?_⟩
      rw [show view root₁ = _ from hview₁, Function.update_apply] at he
      split at he
      · cases he
      · next hesrc => exact (hesrc (h.alone _ e ino hfile he)).elim
    · rw [Os.view_move ht hin hdst, view_shadow (o := none) hdir hleaf trivial]
      rfl
  exact ⟨h₂.1, hframe₁.trans h₂.2⟩

theorem createTrunc (h : Shadow b d fs t) {mode : UInt32} (hmode : mode &&& modeBits = mode) :
    Alike b d fs (fs.createTrunc (b ++ (q ++ [c])) mode)
      (Os.createTrunc t (b ++ (q ++ [c])) mode) := by
  have hne : q ++ [c] ≠ [] := by simp
  have hdrop : (b ++ (q ++ [c])).dropLast = b ++ q := by
    rw [← List.append_assoc, List.dropLast_concat]
  rcases h.parent hq hc with ⟨m, es, es', hdir, hdir', hvac, hplace, -⟩ |
    ⟨e, hpar, hstat, hplace, -⟩
  · rw [Fs.createTrunc, hplace, Os.createTrunc]
    dsimp only [bind, Except.bind]
    rcases h.reach_eq (q ++ [c]) with ⟨ht, hf⟩ | ⟨ino, ht, hf⟩ | ⟨m', es, es', ht, hf⟩
    · rw [hf, hvac ht, hdrop, hdir]
      refine h.update (h.wf_modify hq hc (by simp [Entry.WF.file])) hne (k := some (.file fs.next))
        (view_below hdir' ?_ (bare_file _)) (by simp) (Nat.le_succ _) ?_ ?_ ?_
      · rw [hf]
        exact bare_none
      · intro ino hino
        cases hino
        refine ⟨Nat.lt_succ_self _, fun e he => ?_⟩
        exact ((h.numbered e fs.next he).false).elim
      · intro e ino _ he
        exact Function.update_of_ne (h.numbered e ino he).ne ..
      · rw [view_shadow (o := some (.file mode [])) hdir (by rw [ht]; trivial) trivial]
        simp [Kind.shown, hmode, Os.Entry.kind]
    · rw [hf, Os.stat_ok.2 ht]
      refine h.withInode hne hf _ ?_
      rw [view_shadow (o := some (.file (fs.inodes ino).mode [])) hdir (by rw [ht]; trivial)
        trivial]
      rfl
    · rw [hf, Os.stat_ok.2 ht]
      rfl
  · rw [Fs.createTrunc, hplace, Os.createTrunc, hstat, hdrop]
    rcases hpar with hpar | ⟨m, x, hpar, rfl⟩
    · cases e with
      | notExist =>
        rw [hpar]
        rfl
      | _ => rfl
    · rfl

theorem append (h : Shadow b d fs t) (data : Bytes) :
    Alike b d fs (fs.append (b ++ (q ++ [c])) data) (Os.append t (b ++ (q ++ [c])) data) := by
  have hplain : ∀ x ∈ q ++ [c], Plain x :=
    List.forall_mem_append.2 ⟨hq, List.forall_mem_singleton.2 hc⟩
  rw [Fs.append, Os.append]
  rcases h.found hplain with ⟨e, hlookup, hstat⟩ | ⟨ino, hplace, hlookup, hstat⟩ |
    ⟨m, es, es', hplace, hlookup, hstat⟩
  · rw [hlookup, hstat]
    rfl
  · obtain ⟨d', hd', hf⟩ := Fs.lookup_eq_ok.1 hlookup
    rw [hplace] at hd'
    cases hd'
    rw [hlookup, hstat]
    refine h.withInode (by simp) hf _ ?_
    have hr := Os.stat_ok.1 hstat
    exact Os.view_modify_leaf (Os.inDir_of_reach hr) (by rw [hr]; trivial) trivial
  · rw [hlookup, hstat]
    rfl

theorem remove (h : Shadow b d fs t) :
    Alike b d fs (fs.remove (b ++ (q ++ [c]))) (Os.remove t (b ++ (q ++ [c]))) := by
  rcases h.parent hq hc with ⟨m, es, es', hdir, hdir', hvac, -, hplace⟩ |
    ⟨e, -, hstat, -, hplace⟩
  · rw [Fs.remove, hplace, Os.remove]
    dsimp only [bind, Except.bind]
    rcases h.reach_eq (q ++ [c]) with ⟨ht, hf⟩ | ⟨ino, ht, hf⟩ | ⟨m', es₁, es₁', ht, hf⟩
    · rw [hf, hvac ht]
      rfl
    · rw [hf, Os.stat_ok.2 ht]
      exact h.vacate hq hc hdir hdir' (by rw [ht]; trivial) (by rw [hf]; exact bare_file ino)
    · rw [hf, Os.stat_ok.2 ht]
      have hempty := h.entries_eq_nil_iff ht hf
      cases es₁ with
      | nil =>
        obtain rfl := hempty.1 rfl
        refine h.vacate hq hc hdir hdir' (by rw [ht]; rfl) (by rw [hf]; exact bare_dir m')
      | cons y es₁ =>
        cases es₁' with
        | nil => simp at hempty
        | cons y' es₁' => rfl
  · rw [Fs.remove, hplace, Os.remove, hstat]
    rfl

theorem rename (h : Shadow b d fs t) {c' : Bytes} (hc' : Plain c') (hne : c ≠ c') :
    Alike b d fs (fs.rename (b ++ (q ++ [c])) (b ++ (q ++ [c'])))
      (Os.rename t (b ++ (q ++ [c])) (b ++ (q ++ [c']))) := by
  have hdrop : (b ++ (q ++ [c'])).dropLast = b ++ q := by
    rw [← List.append_assoc, List.dropLast_concat]
  rcases h.parent hq hc with ⟨m, es, es', hdir, hdir', hvac, -, hplace⟩ |
    ⟨e, -, hstat, -, hplace⟩
  · rcases h.parent hq hc' with ⟨-, -, -, -, -, hvac', -, hplace'⟩ | ⟨e, hpar, -⟩
    · rw [Fs.rename, hplace, hplace', Os.rename]
      dsimp only [bind, Except.bind]
      rcases h.reach_eq (q ++ [c]) with ⟨ht, hf⟩ | ⟨ino, ht, hf⟩ | ⟨m₁, es₁, es₁', ht, hf⟩
      · rw [hf, hvac ht]
        rfl
      · have hfile := view_eq_file.2 hf
        rw [hf, Os.stat_ok.2 ht]
        rcases h.reach_eq (q ++ [c']) with ⟨ht', hf'⟩ | ⟨ino', ht', hf'⟩ | ⟨m₁, es₁, es₁', ht', hf'⟩
        · rw [hf', hvac' ht', hdrop, hdir]
          exact h.move hq hc hdir hdir' hc' hne ht hf (.inl (by rw [Os.view, ht']; rfl))
            (.inl (view_eq_none.2 hf'))
        · rw [hf', Os.stat_ok.2 ht']
          have hother : ino ≠ ino' := by
            rintro rfl
            have heq := h.alone _ _ ino hfile (view_eq_file.2 hf')
            simp [hne.symm] at heq
          dsimp only
          rw [if_neg hother]
          exact h.move hq hc hdir hdir' hc' hne ht hf (.inr ⟨_, _, by rw [Os.view, ht']; rfl⟩)
            (.inr ⟨ino', view_eq_file.2 hf'⟩)
        · rw [hf', Os.stat_ok.2 ht']
          rfl
      · rw [hf, Os.stat_ok.2 ht]
        rfl
    · rw [hdir] at hpar
      rcases hpar with hpar | ⟨m, x, hpar, -⟩ <;> cases hpar
  · rw [Fs.rename, hplace, Os.rename, hstat]
    rfl

omit hq in
/-- One more directory below. -/
theorem mkdirAll (h : Shadow b d fs t) (mode : UInt32) :
    Alike b d fs (fs.mkdirAll (b ++ [c]) mode) (Os.mkdirAll t (b ++ [c]) mode) := by
  have hplain : ∀ x ∈ [c], Plain x := List.forall_mem_singleton.2 hc
  rw [Fs.mkdirAll, List.reverse_append, List.reverse_singleton, List.singleton_append,
    Fs.mkdirAllRev, List.reverse_cons, List.reverse_reverse, Os.mkdirAll]
  rcases h.found hplain with ⟨e, hlookup, hstat⟩ | ⟨ino, hplace, hlookup, hstat⟩ |
    ⟨m, es, es', hplace, hlookup, hstat⟩
  · obtain ⟨m, hm⟩ := h.base
    obtain ⟨es', hdir'⟩ := view_eq_dir.1 hm
    have hbase : fs.mkdirAllRev mode b.reverse = .ok fs :=
      Fs.mkdirAll_of_lookup (Fs.lookup_eq_ok.2 ⟨d, h.place, hdir'⟩) mode
    rcases h.parent (q := []) (by simp) hc with ⟨m, es, es', hdir, hdir', hvac, -, hplace⟩ |
      ⟨e, hpar, -⟩
    · simp only [List.append_nil, List.nil_append] at hdir hdir' hvac hplace
      have ht := Os.reach_of_stat_error hstat
      obtain rfl : e = .notExist := Except.error.inj (hstat.symm.trans (hvac ht))
      have hf : reach fs.root (d ++ [c]) = none := by
        have hsame := h.same [c]
        rw [Os.view, ht] at hsame
        simpa [view] using hsame.symm
      rw [hlookup, hstat]
      dsimp only [bind, Except.bind]
      rw [hbase]
      dsimp only
      rw [Fs.mkdir, hplace]
      dsimp only [bind, Except.bind]
      rw [hf]
      have hwf : Fs.WF { fs with root := modify (some (.dir mode [])) fs.root (d ++ [c]) } := by
        refine h.wf_modify (q := []) (by simp) hc fun x hx => ?_
        cases hx
        exact .dir mode (by simp) (by simp) (by simp)
      refine h.update hwf (q := [c]) (by simp) (k := some (.dir mode))
        (view_modify (view_eq_dir.2 ⟨es', hdir'⟩) (by rw [hf]; exact bare_none) (bare_dir mode))
        (by simp) le_rfl (by simp) (fun _ _ _ _ => rfl) ?_
      exact Os.view_mkdirs_concat hdir ht mode
    · obtain ⟨m, es, hdir⟩ := h.exists_dir
      rw [List.append_nil, Os.stat_ok.2 hdir] at hpar
      rcases hpar with hpar | ⟨m, x, hpar, -⟩ <;> cases hpar
  · rw [hlookup, hstat]
    rfl
  · rw [hlookup, hstat]
    exact ⟨h, .refl d fs⟩

end Calls

end Shadow

/-- No path leads to something below an empty directory. -/
theorem lookup_ne_of_empty {b : List Bytes} {fs : Fs} {m : UInt32} (hwf : fs.WF)
    (hnum : fs.Numbered) (h : fs.lookup b = .ok (.dir m [])) {q : List Bytes} (hq : q ≠ [])
    (hplain : ∀ c ∈ q, Plain c) (e : Entry) : fs.lookup (b ++ q) ≠ .ok e := by
  obtain ⟨d, hsealed, hreach⟩ := sealed_of_empty hwf hnum h
  have hstat {x : Os.Entry} :
      Os.stat (some (under b (listed fs.inodes (.dir m [])))) (b ++ q) ≠ .ok x := by
    intro hx
    rw [Os.stat_ok, Os.reach_append, reach_under] at hx
    obtain ⟨c, q, rfl⟩ := List.exists_cons_of_ne_nil hq
    cases q <;> cases hx
  intro he
  rcases (hsealed.shadow hreach).found hplain with ⟨x, hl, -⟩ | ⟨i, -, -, hst⟩ |
    ⟨m₁, es₁, es₂, -, -, hst⟩
  · cases hl.symm.trans he
  · exact hstat hst
  · exact hstat hst

end Os.Linked
