import FileSync.Os.Links
import FileSync.Os.WellFormed

/-!
# Os — names

What the calls do to the names and to the files of a file system with links.

`view` forgets the tree of names: it says what stands at each place.  The names are those of a file
system without links in which each file holds the number of its inode (`tags`), so that a change of
one name does to the view what it does there (`view_modify`).

* `Grows`: names are added, and none is lost or changed.  Then a path that led somewhere leads there
  still (`Grows.lookup`).
* `createTrunc_ok`, `append_ok`, `mkdirAll_ok`: what has come of a call that succeeds.
-/

namespace Os.Linked

open Filepath

/-! ### What stands at a place -/

/-- What a name stands for, without what is below it. -/
inductive Kind
  | file (ino : ℕ)
  | link (text : Bytes)
  | dir (mode : UInt32)
deriving DecidableEq

def Entry.kind : Entry → Kind
  | .file ino => .file ino
  | .link text => .link text
  | .dir m _ => .dir m

/-- What stands at each place. -/
def view (root : Option Entry) (q : List Bytes) : Option Kind := (reach root q).map Entry.kind

section Listed

variable {files : Files}

theorem listedEntries_eq (es : List (Bytes × Entry)) :
    listedEntries files es = es.map fun x => (x.1, listed files x.2) := by
  induction es with
  | nil => rfl
  | cons x es ih => rw [listedEntries, ih, List.map_cons]

theorem lookup_listedEntries (es : List (Bytes × Entry)) (c : Bytes) :
    (listedEntries files es).lookup c = (es.lookup c).map (listed files) := by
  induction es with
  | nil => rfl
  | cons x es ih =>
    rw [listedEntries, List.lookup_cons, List.lookup_cons]
    cases c == x.1 with
    | true => rfl
    | false => exact ih

/-- What stands in the tree that `lstat` shows, at a place. -/
theorem reach_listed (root : Option Entry) (q : List Bytes) :
    Os.reach (root.map (listed files)) q = (reach root q).map (listed files) := by
  induction q generalizing root with
  | nil => cases root <;> simp [reach]
  | cons c q ih =>
    rcases root with _ | ⟨i⟩ | ⟨t⟩ | ⟨m, es⟩
    · rfl
    · rw [Option.map_some, listed, Os.reach, reach]
      · rfl
      · simp
    · rw [Option.map_some, listed, Os.reach, reach]
      · rfl
      · simp
    · rw [Option.map_some, listed, Os.reach, reach, lookup_listedEntries]
      exact ih _

theorem listedEntries_put (es : List (Bytes × Entry)) (c : Bytes) (e : Option Entry) :
    listedEntries files (put es c e) =
      Os.put (listedEntries files es) c (e.map (listed files)) := by
  rw [listedEntries_eq, listedEntries_eq, put, List.map_append]
  cases e with
  | none => simp [Os.put, List.filter_map, Function.comp_def]
  | some e => simp [Os.put, List.filter_map, Function.comp_def]

theorem listed_modify (e root : Option Entry) (p : List Bytes) :
    (modify e root p).map (listed files) =
      Os.modify (fun _ => e.map (listed files)) (root.map (listed files)) p := by
  induction p generalizing root with
  | nil => cases root <;> rfl
  | cons c p ih =>
    rcases root with _ | ⟨i⟩ | ⟨t⟩ | ⟨m, es⟩
    · rfl
    · rfl
    · rfl
    · rw [modify, Option.map_some, Option.map_some, listed, listed, Os.modify, listedEntries_put,
        ih, lookup_listedEntries]

/-- Names that are distinct are listed so. -/
theorem wf_listed {e : Entry} (h : e.WF) : (listed files e).WF := by
  induction h with
  | file ino => exact .file _ _
  | link text => exact .file _ _
  | dir m hnames hplain _ ih =>
    rw [listed, listedEntries_eq]
    refine .dir m ?_ (List.forall_mem_map.2 hplain) (List.forall_mem_map.2 ih)
    rwa [List.map_map]

theorem wf_of_listed {e : Entry} (h : (listed files e).WF) : e.WF := by
  generalize hx : listed files e = x at h
  induction h generalizing e with
  | file m c =>
    cases e with
    | file ino => exact .file ino
    | link text => exact .link text
    | dir m es => simp [listed] at hx
  | @dir m es' hnames hplain _ ih =>
    cases e with
    | file ino => exact .file ino
    | link text => exact .link text
    | dir m es =>
      rw [listed, listedEntries_eq, Os.Entry.dir.injEq] at hx
      obtain ⟨rfl, rfl⟩ := hx
      rw [List.map_map] at hnames
      rw [List.forall_mem_map] at hplain ih
      exact .dir m hnames hplain fun x hx => ih x hx rfl

/-- A change of a name that is plain. -/
theorem wf_modify {e root : Option Entry} (he : ∀ x, e = some x → x.WF)
    (hroot : ∀ x, root = some x → x.WF) {p : List Bytes} (hp : ∀ c ∈ p, Plain c) :
    ∀ x, modify e root p = some x → x.WF := by
  have hlisted {o : Option Entry} (ho : ∀ x, o = some x → x.WF) :
      Os.Fs.WF (o.map (listed fun _ => ⟨0, [], rfl⟩)) := by
    intro y hy
    obtain ⟨x, hx, rfl⟩ := Option.map_eq_some_iff.1 hy
    exact wf_listed (ho x hx)
  intro x hx
  have hmod := Os.wf_modify (f := fun _ => e.map (listed fun _ => ⟨0, [], rfl⟩))
    (fun _ _ => hlisted he) (hlisted hroot) hp
  rw [← listed_modify, hx] at hmod
  exact wf_of_listed (hmod _ rfl)

end Listed

/-- What `lstat` shows of what stands at a place. -/
def Kind.shown (files : Files) : Kind → Os.Kind
  | .file ino => .file (files ino).mode (files ino).content
  | .link text => .file linkMode text
  | .dir m => .dir m

theorem kind_listed (files : Files) (e : Entry) : (listed files e).kind = e.kind.shown files := by
  cases e <;> simp [listed, Os.Entry.kind, Entry.kind, Kind.shown]

theorem view_listed (files : Files) (root : Option Entry) (q : List Bytes) :
    Os.view (root.map (listed files)) q = (view root q).map (Kind.shown files) := by
  rw [Os.view, reach_listed, view, Option.map_map, Option.map_map]
  congr 1
  exact funext (kind_listed files)

/-- Each file with its number for a content. -/
def tags : Files := fun ino => ⟨0, List.replicate ino 0, rfl⟩

theorem shown_tags_injective : Function.Injective (Kind.shown tags) := by
  rintro (i | t | m) (j | u | n) h
  · rw [Kind.shown, Kind.shown, Os.Kind.file.injEq] at h
    have hlen := congrArg List.length h.2
    rw [tags, tags, List.length_replicate, List.length_replicate] at hlen
    rw [hlen]
  all_goals simp_all [Kind.shown, tags, linkMode]

/-- There is nothing below the place. -/
def Bare (o : Option Entry) : Prop := ∀ m es, o = some (.dir m es) → es = []

theorem leaf_of_bare {o : Option Entry} (h : Bare o) : Os.Leaf (o.map (listed tags)) := by
  rcases o with _ | ⟨i⟩ | ⟨t⟩ | ⟨m, es⟩
  · trivial
  · simp [listed, Os.Leaf]
  · simp [listed, Os.Leaf]
  · rw [h m es rfl, Option.map_some, listed, listedEntries, Os.Leaf]

theorem view_eq_dir {root : Option Entry} {q : List Bytes} {m : UInt32} :
    view root q = some (.dir m) ↔ ∃ es, reach root q = some (.dir m es) := by
  rw [view]
  rcases reach root q with _ | ⟨i⟩ | ⟨t⟩ | ⟨m', es⟩ <;> simp [Entry.kind]

theorem view_eq_file {root : Option Entry} {q : List Bytes} {ino : ℕ} :
    view root q = some (.file ino) ↔ reach root q = some (.file ino) := by
  rw [view]
  rcases reach root q with _ | ⟨i⟩ | ⟨t⟩ | ⟨m', es⟩ <;> simp [Entry.kind]

theorem view_eq_link {root : Option Entry} {q : List Bytes} {text : Bytes} :
    view root q = some (.link text) ↔ reach root q = some (.link text) := by
  rw [view]
  rcases reach root q with _ | ⟨i⟩ | ⟨t⟩ | ⟨m', es⟩ <;> simp [Entry.kind]

theorem view_eq_none {root : Option Entry} {q : List Bytes} :
    view root q = none ↔ reach root q = none := by
  rw [view, Option.map_eq_none_iff]

mutual

/-- The numbers of the files in an entry. -/
def Entry.numbers : Entry → List ℕ
  | .file ino => [ino]
  | .link _ => []
  | .dir _ es => numbersEntries es

def numbersEntries : List (Bytes × Entry) → List ℕ
  | [] => []
  | (_, e) :: es => e.numbers ++ numbersEntries es

end

theorem mem_numbersEntries {es : List (Bytes × Entry)} {c : Bytes} {e : Entry} {ino : ℕ}
    (he : es.lookup c = some e) (h : ino ∈ e.numbers) : ino ∈ numbersEntries es := by
  induction es with
  | nil => cases he
  | cons x es ih =>
    rw [numbersEntries, List.mem_append]
    rw [List.lookup_cons] at he
    split at he
    · cases he
      exact .inl h
    · exact .inr (ih he)

theorem mem_numbers_of_reach {e : Entry} {q : List Bytes} {ino : ℕ}
    (h : reach (some e) q = some (.file ino)) : ino ∈ e.numbers := by
  induction q generalizing e with
  | nil =>
    cases h
    exact List.mem_singleton_self ino
  | cons c q ih =>
    cases e with
    | file | link => cases h
    | dir m es =>
      rw [reach] at h
      cases hc : es.lookup c with
      | none =>
        rw [hc] at h
        cases q <;> cases h
      | some x =>
        rw [hc] at h
        exact mem_numbersEntries hc (ih h)

/-- A change of a name in a directory, with nothing below it before and after. -/
theorem view_modify {e root : Option Entry} {q : List Bytes} {c : Bytes} {m : UInt32}
    (hdir : view root q = some (.dir m)) (hbare : Bare (reach root (q ++ [c]))) (he : Bare e) :
    view (modify e root (q ++ [c])) =
      Function.update (view root) (q ++ [c]) (e.map Entry.kind) := by
  obtain ⟨es, hdir⟩ := view_eq_dir.1 hdir
  have hin : Os.InDir (root.map (listed tags)) (q ++ [c]) := by
    refine .inr ⟨m, listedEntries tags es, ?_⟩
    rw [List.dropLast_concat, reach_listed, hdir, Option.map_some, listed]
  have hleaf : Os.Leaf (Os.reach (root.map (listed tags)) (q ++ [c])) := by
    rw [reach_listed]
    exact leaf_of_bare hbare
  have hview := Os.view_modify_leaf (f := fun _ => e.map (listed tags)) hin hleaf (leaf_of_bare he)
  funext r
  refine Option.map_injective shown_tags_injective ?_
  rw [← view_listed, listed_modify, hview, Function.update_apply, Function.update_apply]
  split
  · rw [Option.map_map, Option.map_map]
    congr 1
    exact funext (kind_listed tags)
  · exact view_listed tags root r

/-! ### The steps of a path -/

/-- The way along at most `n` links, step by step: each element of a path leads on from a directory,
to what is not a link, or to a link that is followed. -/
inductive Leads (root : Option Entry) : ℕ → List Bytes → List Bytes → List Bytes → Prop
  | done {n : ℕ} {here : List Bytes} : Leads root n here [] here
  | step {n : ℕ} {here p d : List Bytes} {c : Bytes} {m : UInt32}
      (hdir : view root here = some (.dir m))
      (hno : ∀ text, view root (descend here c) ≠ some (.link text))
      (hrest : Leads root n (descend here c) p d) : Leads root n here (c :: p) d
  | jump {n : ℕ} {here p d : List Bytes} {c text : Bytes} {m : UInt32}
      (hdir : view root here = some (.dir m))
      (hlink : view root (descend here c) = some (.link text))
      (hrest : Leads root n (if isAbs text then [] else here) (split text ++ p) d) :
      Leads root (n + 1) here (c :: p) d

/-- One element of a path, where the links lead on as `jump` says. -/
theorem walk_cons_ok {jump : List Bytes → List Bytes → Except Errno (List Bytes)}
    {root : Option Entry} {here p d : List Bytes} {c : Bytes} :
    walk jump root here (c :: p) = .ok d ↔ ∃ m, view root here = some (.dir m) ∧
      ((∃ text, view root (descend here c) = some (.link text) ∧
          jump (if isAbs text then [] else here) (split text ++ p) = .ok d) ∨
        (∀ text, view root (descend here c) ≠ some (.link text)) ∧
          walk jump root (descend here c) p = .ok d) := by
  rw [walk, view, view]
  rcases reach root here with _ | ⟨i⟩ | ⟨t⟩ | ⟨m, es⟩
  · simp
  · simp [Entry.kind]
  · simp [Entry.kind]
  · rcases reach root (descend here c) with _ | ⟨i⟩ | ⟨t⟩ | ⟨m', es'⟩ <;> simp [Entry.kind]

section Leads

variable {root root' : Option Entry} {n : ℕ} {here p d : List Bytes}

theorem leads_of_walk {jump : List Bytes → List Bytes → Except Errno (List Bytes)}
    (hjump : ∀ here p m c text, view root here = some (.dir m) →
      view root (descend here c) = some (.link text) →
      jump (if isAbs text then [] else here) (split text ++ p) = .ok d →
      Leads root n here (c :: p) d)
    (h : walk jump root here p = .ok d) : Leads root n here p d := by
  induction p generalizing here with
  | nil =>
    cases h
    exact .done
  | cons c p ih =>
    obtain ⟨m, hdir, ⟨text, hlink, hrest⟩ | ⟨hno, hrest⟩⟩ := walk_cons_ok.1 h
    · exact hjump here p m c text hdir hlink hrest
    · exact .step hdir hno (ih hrest)

theorem follow_eq_ok : follow root n here p = .ok d ↔ Leads root n here p d := by
  constructor
  · intro h
    induction n generalizing here p with
    | zero => exact leads_of_walk (fun _ _ _ _ _ _ _ hloop => by cases hloop) h
    | succ n ih =>
      exact leads_of_walk (fun _ _ _ _ _ hdir hlink hrest => .jump hdir hlink (ih hrest)) h
  · intro h
    induction h with
    | @done n here => cases n <;> rfl
    | @step n _ _ _ _ m hdir hno _ ih =>
      cases n <;> exact walk_cons_ok.2 ⟨m, hdir, .inr ⟨hno, ih⟩⟩
    | jump hdir hlink _ ih => exact walk_cons_ok.2 ⟨_, hdir, .inl ⟨_, hlink, ih⟩⟩

theorem Leads.mono (h : Leads root n here p d) {k : ℕ} (hk : n ≤ k) : Leads root k here p d := by
  induction h generalizing k with
  | done => exact .done
  | step hdir hno _ ih => exact .step hdir hno (ih hk)
  | jump hdir hlink _ ih =>
    obtain ⟨k, rfl⟩ : ∃ j, k = j + 1 := ⟨k - 1, by omega⟩
    exact .jump hdir hlink (ih (by omega))

/-- A path may lead on, along no more links. -/
theorem Leads.append {q r : List Bytes} (h : Leads root n here p d) (hq : Leads root 0 d q r) :
    Leads root n here (p ++ q) r := by
  induction h with
  | done => exact hq.mono (Nat.zero_le _)
  | step hdir hno _ ih => exact .step hdir hno (ih hq)
  | @jump _ _ p _ _ text _ hdir hlink _ ih =>
    refine .jump hdir hlink ?_
    have hrest := ih hq
    rwa [List.append_assoc] at hrest

/-- A path along no link may lead on along some. -/
theorem Leads.trans {q r : List Bytes} (h : Leads root 0 here p d) (hq : Leads root n d q r) :
    Leads root n here (p ++ q) r := by
  generalize hk : 0 = k at h
  induction h with
  | done => exact hq
  | step hdir hno _ ih => exact .step hdir hno (ih hq hk)
  | jump => cases hk

/-- The way behind the place that the first part of a path leads to. -/
theorem Leads.rest {q r : List Bytes} (h : Leads root n here p d)
    (hr : Leads root n here (p ++ q) r) : Leads root n d q r := by
  induction h with
  | done => exact hr
  | step hdir hno _ ih =>
    cases hr with
    | step _ _ hrest => exact ih hrest
    | jump _ hlink _ => exact absurd hlink (hno _)
  | jump hdir hlink _ ih =>
    cases hr with
    | step _ hno _ => exact absurd hlink (hno _)
    | jump _ hlink' hrest =>
      cases hlink.symm.trans hlink'
      exact (ih ((List.append_assoc ..).symm ▸ hrest)).mono (Nat.le_succ _)

/-- Names below a directory, with no link at their end, stand where they lead. -/
theorem leads_of_reach {q : List Bytes} (hq : ∀ c ∈ q, Plain c) {e : Entry}
    (h : reach root (here ++ q) = some e) (he : e.Proper) : Leads root n here q (here ++ q) := by
  have hwalk : follow root 0 here q = .ok (here ++ q) := walk_of_reach _ hq h he
  exact (follow_eq_ok.1 hwalk).mono (Nat.zero_le n)

/-- Below a directory, a name that is not a link stands where its path leads. -/
theorem Leads.concat {m : UInt32} {c : Bytes} (h : Leads root n here p d) (hc : Plain c)
    (hdir : view root d = some (.dir m)) (hno : ∀ text, view root (d ++ [c]) ≠ some (.link text)) :
    Leads root n here (p ++ [c]) (d ++ [c]) := by
  have hlast : descend d c = d ++ [c] := descend_plain hc d
  exact h.append (.step hdir (by rwa [hlast]) (hlast ▸ .done))

/-- What leads on from a path leads through a directory. -/
theorem Leads.exists_dir {s : List Bytes} (h : Leads root n here s d) {c : Bytes} {q : List Bytes}
    (hs : s = p ++ c :: q) : ∃ r m, Leads root n here p r ∧ view root r = some (.dir m) := by
  induction h generalizing p with
  | done => simp at hs
  | step hdir hno _ ih =>
    cases p with
    | nil => exact ⟨_, _, .done, hdir⟩
    | cons x p =>
      obtain ⟨rfl, rfl⟩ := List.cons.inj hs
      obtain ⟨r, m, hr, hm⟩ := ih rfl
      exact ⟨r, m, .step hdir hno hr, hm⟩
  | jump hdir hlink _ ih =>
    cases p with
    | nil => exact ⟨_, _, .done, hdir⟩
    | cons x p =>
      obtain ⟨rfl, rfl⟩ := List.cons.inj hs
      obtain ⟨r, m, hr, hm⟩ := ih (List.append_assoc ..).symm
      exact ⟨r, m, .jump hdir hlink hr, hm⟩

/-- The parent of a directory is one. -/
theorem view_dropLast {q : List Bytes} {m : UInt32} (h : view root q = some (.dir m)) :
    ∃ m', view root q.dropLast = some (.dir m') := by
  rcases List.eq_nil_or_concat q with rfl | ⟨r, c, rfl⟩
  · exact ⟨m, h⟩
  · obtain ⟨es, hes⟩ := view_eq_dir.1 h
    rw [List.concat_eq_append] at hes ⊢
    obtain ⟨m', es', hdir⟩ := reach_parent hes
    rw [List.dropLast_concat]
    exact ⟨m', view_eq_dir.2 ⟨es', hdir⟩⟩

/-- Where a path leads to nothing there is a directory for it. -/
theorem Leads.vacant (h : Leads root n here p d) (hp : p ≠ []) (hvac : view root d = none) :
    ∃ r c m, d = r ++ [c] ∧ view root r = some (.dir m) := by
  induction h with
  | done => exact (hp rfl).elim
  | @step _ here p _ c m hdir _ hrest ih =>
    by_cases hnil : p = []
    · subst hnil
      cases hrest
      rw [descend] at hvac ⊢
      split_ifs at hvac ⊢
      · cases hdir.symm.trans hvac
      · obtain ⟨m', hm'⟩ := view_dropLast hdir
        cases hm'.symm.trans hvac
      · exact ⟨here, c, m, rfl, hdir⟩
    · exact ih hnil hvac
  | @jump _ _ p _ _ text _ _ _ hrest ih => exact ih (by simp [split, List.splitOn_ne_nil]) hvac

/-- Names are added, and none is lost or changed. -/
def Grows (root root' : Option Entry) : Prop := ∀ q k, view root q = some k → view root' q = some k

theorem Grows.refl (root : Option Entry) : Grows root root := fun _ _ h => h

theorem Grows.trans {root'' : Option Entry} (h : Grows root root') (h' : Grows root' root'') :
    Grows root root'' := fun q k hq => h' q k (h q k hq)

/-- **Where a path leads it leads still**, unless a link was put there. -/
theorem Grows.leads (hgrow : Grows root root') (h : Leads root n here p d)
    (hend : ∀ text, view root' d ≠ some (.link text)) : Leads root' n here p d := by
  induction h with
  | done => exact .done
  | @step _ _ p _ _ _ hdir hno hrest ih =>
    refine .step (hgrow _ _ hdir) (fun text hlink => ?_) (ih hend)
    cases hrest with
    | done => exact hend text hlink
    | step hdir' | jump hdir' => cases (hgrow _ _ hdir').symm.trans hlink
  | jump hdir hlink _ ih => exact .jump (hgrow _ _ hdir) (hgrow _ _ hlink) (ih hend)

theorem Leads.unique {d' : List Bytes} (h : Leads root n here p d) (h' : Leads root n here p d') :
    d = d' := by
  rw [← follow_eq_ok] at h h'
  exact Except.ok.inj (h.symm.trans h')

end Leads

/-! ### What a path leads to -/

namespace Fs

/-- The path leads to what is of this kind. -/
def At (fs : Fs) (p : List Bytes) (k : Kind) : Prop :=
  ∃ d, Leads fs.root maxLinks [] p d ∧ view fs.root d = some k

variable {fs fs' : Fs} {p : List Bytes}

theorem place_eq_ok {d : List Bytes} : fs.place p = .ok d ↔ Leads fs.root maxLinks [] p d :=
  follow_eq_ok

theorem At.unique {k k' : Kind} (h : fs.At p k) (h' : fs.At p k') : k = k' := by
  obtain ⟨d, hd, hk⟩ := h
  obtain ⟨d', hd', hk'⟩ := h'
  obtain rfl := hd.unique hd'
  exact Option.some.inj (hk.symm.trans hk')

theorem at_of_lookup {e : Entry} (h : fs.lookup p = .ok e) : fs.At p e.kind := by
  obtain ⟨d, hd, he⟩ := lookup_eq_ok.1 h
  exact ⟨d, place_eq_ok.1 hd, by rw [view, he, Option.map_some]⟩

theorem lookup_eq_file {ino : ℕ} : fs.lookup p = .ok (.file ino) ↔ fs.At p (.file ino) := by
  refine ⟨at_of_lookup, ?_⟩
  rintro ⟨d, hd, hk⟩
  exact lookup_eq_ok.2 ⟨d, place_eq_ok.2 hd, view_eq_file.1 hk⟩

theorem lookup_eq_dir {m : UInt32} :
    (∃ es, fs.lookup p = .ok (.dir m es)) ↔ fs.At p (.dir m) := by
  constructor
  · rintro ⟨es, h⟩
    exact at_of_lookup h
  · rintro ⟨d, hd, hk⟩
    obtain ⟨es, hes⟩ := view_eq_dir.1 hk
    exact ⟨es, lookup_eq_ok.2 ⟨d, place_eq_ok.2 hd, hes⟩⟩

theorem at_iff_view {k : Kind} :
    fs.At p k ↔ (fs.place p).toOption.bind (view fs.root) = some k := by
  constructor
  · rintro ⟨d, hd, hk⟩
    rw [place_eq_ok.2 hd]
    exact hk
  · intro h
    rcases hd : fs.place p with e | d
    · rw [hd] at h
      cases h
    · rw [hd] at h
      exact ⟨d, place_eq_ok.1 hd, h⟩

instance (fs : Fs) (p : List Bytes) (k : Kind) : Decidable (fs.At p k) :=
  decidable_of_iff' _ at_iff_view

theorem content_eq_some_iff {c : Bytes} : fs.content p = some c ↔
    ∃ d, fs.place p = .ok d ∧ ∃ ino, view fs.root d = some (.file ino) ∧
      (fs.inodes ino).content = c := by
  rw [content_eq_some, read_eq_ok]
  simp only [lookup_eq_ok, view_eq_file]
  constructor
  · rintro ⟨ino, ⟨d, hd, hr⟩, hc⟩
    exact ⟨d, hd, ino, hr, hc⟩
  · rintro ⟨d, hd, ino, hr, hc⟩
    exact ⟨ino, ⟨d, hd, hr⟩, hc⟩

theorem read_eq_ok_iff_at {c : Bytes} :
    fs.read p = .ok c ↔ ∃ ino, fs.At p (.file ino) ∧ (fs.inodes ino).content = c := by
  simp only [read_eq_ok, lookup_eq_file]

theorem content_of_at {ino : ℕ} (h : fs.At p (.file ino)) :
    fs.content p = some (fs.inodes ino).content :=
  content_eq_some.2 (read_eq_ok_iff_at.2 ⟨ino, h, rfl⟩)

/-- What is not a link stays where paths lead. -/
theorem At.grows {k : Kind} (h : fs.At p k) (hgrow : Grows fs.root fs'.root)
    (hk : ∀ text, k ≠ .link text) : fs'.At p k := by
  obtain ⟨d, hd, hview⟩ := h
  have hview' := hgrow d k hview
  refine ⟨d, hgrow.leads hd fun text hlink => hk text ?_, hview'⟩
  exact Option.some.inj (hview'.symm.trans hlink)

/-- The parent of what a path leads to. -/
theorem At.parent {c : Bytes} {k : Kind} (h : fs.At (p ++ [c]) k) : ∃ m, fs.At p (.dir m) := by
  obtain ⟨d, hd, -⟩ := h
  obtain ⟨r, m, hr, hm⟩ := hd.exists_dir rfl
  exact ⟨m, r, hr, hm⟩

theorem at_append {m : UInt32} {d : List Bytes} {c : Bytes} (hc : Plain c)
    (hp : Leads fs.root maxLinks [] p d) (hdir : view fs.root d = some (.dir m)) {k : Kind}
    (hk : view fs.root (d ++ [c]) = some k) (hno : ∀ text, k ≠ .link text) :
    fs.At (p ++ [c]) k := by
  refine ⟨d ++ [c], hp.concat hc hdir fun text hlink => hno text ?_, hk⟩
  rw [hk] at hlink
  exact Option.some.inj hlink

/-! ### The last name of a path -/

theorem lookupName_eq_ok {e : Entry} :
    fs.lookupName p = .ok e ↔ ∃ d, fs.placeOfName p = .ok d ∧ reach fs.root d = some e := by
  rw [lookupName]
  cases hp : fs.placeOfName p with
  | error x =>
    constructor
    · intro h
      cases h
    · rintro ⟨d, h, -⟩
      cases h
  | ok d =>
    simp only [bind, Except.bind, Except.ok.injEq, exists_eq_left']
    cases reach fs.root d with
    | none => simp
    | some x => simp

theorem wf_lookupName (h : fs.WF) {e : Entry} (he : fs.lookupName p = .ok e) : e.WF := by
  obtain ⟨d, -, hd⟩ := lookupName_eq_ok.1 he
  exact (wf_of_reach h hd).1

/-- Names at which something stands. -/
theorem plain_of_view (h : fs.WF) {r q : List Bytes} {k : Kind}
    (hk : view fs.root (r ++ q) = some k) : ∀ c ∈ q, Plain c := by
  obtain ⟨e, he, -⟩ := Option.map_eq_some_iff.1 hk
  exact fun c hc => (wf_of_reach h he).2 c (List.mem_append_right _ hc)

/-- Where the last name of a path stands, by what the others lead to. -/
theorem placeOfName_eq (fs : Fs) (p : List Bytes) (c : Bytes) :
    fs.placeOfName (p ++ [c]) = (match fs.lookup p with
      | .ok (.dir ..) => (fs.place p).map (· ++ [c])
      | .ok _ => .error .notDir
      | .error e => .error e) := by
  rw [placeOfName, List.getLast?_concat, List.dropLast_concat, lookup]
  cases fs.place p with
  | error e => rfl
  | ok d => rcases hr : reach fs.root d with _ | ⟨i⟩ | ⟨t⟩ | ⟨m, es⟩ <;>
      simp [bind, Except.bind, hr, Except.map]

theorem placeOfName_concat {c : Bytes} {d : List Bytes} :
    fs.placeOfName (p ++ [c]) = .ok d ↔
      ∃ r m, Leads fs.root maxLinks [] p r ∧ view fs.root r = some (.dir m) ∧ d = r ++ [c] := by
  rw [placeOfName, List.getLast?_concat, List.dropLast_concat]
  constructor
  · intro h
    obtain ⟨r, hr, h⟩ := Except.bind_eq_ok.1 h
    rcases hdir : reach fs.root r with _ | ⟨i⟩ | ⟨t⟩ | ⟨m, es⟩ <;> rw [hdir] at h <;> cases h
    exact ⟨r, m, place_eq_ok.1 hr, view_eq_dir.2 ⟨es, hdir⟩, rfl⟩
  · rintro ⟨r, m, hr, hdir, rfl⟩
    obtain ⟨es, hdir⟩ := view_eq_dir.1 hdir
    refine Except.bind_eq_ok.2 ⟨r, place_eq_ok.2 hr, ?_⟩
    rw [hdir]

/-- The last name of a path that leads somewhere stands for that, or is a link. -/
theorem lookupName_of_lookup (hp : ∀ c ∈ p, Plain c) {e : Entry} (h : fs.lookup p = .ok e) :
    ∃ x, fs.lookupName p = .ok x ∧ (x = e ∨ ∃ text, x = .link text) := by
  obtain ⟨d, hd, hr⟩ := lookup_eq_ok.1 h
  rcases List.eq_nil_or_concat p with rfl | ⟨q, c, rfl⟩
  · cases (place_eq_ok.1 hd)
    exact ⟨e, lookupName_eq_ok.2 ⟨[], rfl, hr⟩, .inl rfl⟩
  · rw [List.concat_eq_append] at h hp ⊢
    rw [place_eq_ok, List.concat_eq_append] at hd
    obtain ⟨r, m, hleads, hdir⟩ := hd.exists_dir rfl
    have hplace : fs.placeOfName (q ++ [c]) = .ok (r ++ [c]) :=
      placeOfName_concat.2 ⟨r, m, hleads, hdir, rfl⟩
    by_cases hlink : ∃ text, view fs.root (r ++ [c]) = some (.link text)
    · obtain ⟨text, hlink⟩ := hlink
      exact ⟨.link text, lookupName_eq_ok.2 ⟨_, hplace, view_eq_link.1 hlink⟩, .inr ⟨text, rfl⟩⟩
    · obtain rfl := hd.unique (hleads.concat (hp c (by simp)) hdir (not_exists.1 hlink))
      exact ⟨e, lookupName_eq_ok.2 ⟨_, hplace, hr⟩, .inl rfl⟩

/-! ### Calls that build -/

/-- Names are added, for new files and directories. -/
structure Builds (fs fs' : Fs) : Prop where
  grows : Grows fs.root fs'.root
  next : fs.next ≤ fs'.next
  fresh : ∀ q ino, view fs'.root q = some (.file ino) →
    view fs.root q = some (.file ino) ∨ fs.next ≤ ino ∧ ino < fs'.next

theorem Builds.of_root (hroot : fs'.root = fs.root) (hnext : fs'.next = fs.next) :
    Builds fs fs' where
  grows := hroot ▸ Grows.refl _
  next := hnext.ge
  fresh _ _ h := .inl (hroot ▸ h)

theorem Builds.refl (fs : Fs) : Builds fs fs := .of_root rfl rfl

theorem Builds.trans {fs'' : Fs} (h : Builds fs fs') (h' : Builds fs' fs'') :
    Builds fs fs'' where
  grows := h.grows.trans h'.grows
  next := h.next.trans h'.next
  fresh q ino hq := by
    rcases h'.fresh q ino hq with hq | ⟨hle, hlt⟩
    · exact (h.fresh q ino hq).imp_right fun hnew => ⟨hnew.1, hnew.2.trans_le h'.next⟩
    · exact .inr ⟨h.next.trans hle, hlt⟩

/-- Files have numbers that are in use. -/
def Numbered (fs : Fs) : Prop := ∀ q ino, view fs.root q = some (.file ino) → ino < fs.next

/-- It suffices to look at the numbers that are listed in the tree. -/
theorem numbered_of_numbers (h : ∀ e, fs.root = some e → ∀ ino ∈ e.numbers, ino < fs.next) :
    fs.Numbered := by
  intro q ino hq
  rw [view_eq_file] at hq
  cases hroot : fs.root with
  | none =>
    rw [hroot] at hq
    cases q <;> cases hq
  | some e =>
    rw [hroot] at hq
    exact h e hroot ino (mem_numbers_of_reach hq)

instance (fs : Fs) : Decidable (∀ e, fs.root = some e → ∀ ino ∈ e.numbers, ino < fs.next) :=
  decidable_of_iff (∀ ino ∈ fs.root.elim [] Entry.numbers, ino < fs.next) <| by
    cases h : fs.root <;> simp

/-- A name is added in a directory. -/
theorem builds_modify {f : Fs} {e : Entry} {r : List Bytes} {c : Bytes} {m : UInt32}
    (hdir : view fs.root r = some (.dir m)) (hvac : view fs.root (r ++ [c]) = none)
    (he : Bare (some e)) (hroot : f.root = modify (some e) fs.root (r ++ [c]))
    (hnext : fs.next ≤ f.next) (hino : ∀ ino, e.kind = .file ino → fs.next ≤ ino ∧ ino < f.next) :
    Builds fs f ∧ view f.root (r ++ [c]) = some e.kind := by
  have hbare : Bare (reach fs.root (r ++ [c])) := by
    rw [view_eq_none.1 hvac]
    exact fun m es h => by cases h
  have hview := view_modify hdir hbare he
  rw [← hroot, Option.map_some] at hview
  have hhere : view f.root (r ++ [c]) = some e.kind := by rw [hview, Function.update_self]
  refine ⟨⟨fun q k hq => ?_, hnext, fun q ino hq => ?_⟩, hhere⟩
  · have hne : q ≠ r ++ [c] := by
      rintro rfl
      cases hvac.symm.trans hq
    rwa [hview, Function.update_of_ne hne]
  · by_cases hqr : q = r ++ [c]
    · rw [hqr, hhere] at hq
      exact .inr (hino ino (Option.some.inj hq))
    · rw [hview, Function.update_of_ne hqr] at hq
      exact .inl hq

/-- What has come of `createTrunc`: an empty file, the one that was there or a new one. -/
theorem createTrunc_ok (hp : p ≠ []) {mode : UInt32} (h : fs.createTrunc p mode = .ok fs') :
    Builds fs fs' ∧ ∃ ino, fs'.At p (.file ino) ∧ (fs.At p (.file ino) ∨ ino = fs.next) ∧
      (fs'.inodes ino).content = [] ∧ ∀ j ≠ ino, fs'.inodes j = fs.inodes j := by
  obtain ⟨d, hd, h⟩ := Except.bind_eq_ok.1 h
  have hleads := place_eq_ok.1 hd
  rcases hr : reach fs.root d with _ | ⟨ino⟩ | ⟨t⟩ | ⟨m, es⟩
  · rw [hr] at h
    cases h
    have hvac := view_eq_none.2 hr
    obtain ⟨r, c, m, rfl, hdir⟩ := hleads.vacant hp hvac
    obtain ⟨hbuilds, hthere⟩ := builds_modify (e := .file fs.next)
      (f := ⟨modify (some (.file fs.next)) fs.root (r ++ [c]),
        Function.update fs.inodes fs.next ⟨mode &&& modeBits, [], regular_and mode⟩, fs.next + 1⟩)
      hdir hvac (fun m es h => by cases h) rfl (Nat.le_succ _)
      (fun ino h => by cases h; exact ⟨le_rfl, Nat.lt_succ_self _⟩)
    refine ⟨hbuilds, fs.next, ⟨_, hbuilds.grows.leads hleads ?_, hthere⟩, .inr rfl, ?_, ?_⟩
    · intro text hlink
      cases hthere.symm.trans hlink
    · dsimp only
      rw [Function.update_self]
    · exact fun j hj => Function.update_of_ne hj ..
  · rw [hr] at h
    cases h
    have hat : fs.At p (.file ino) := ⟨d, hleads, view_eq_file.2 hr⟩
    refine ⟨.of_root rfl rfl, ino, hat, .inl hat, ?_, fun j hj => Function.update_of_ne hj ..⟩
    rw [withInode]
    dsimp only
    rw [Function.update_self]
  · rw [hr] at h
    cases h
  · rw [hr] at h
    cases h

/-- The root is not opened for writing. -/
theorem createTrunc_root {m mode : UInt32} (h : fs.At [] (.dir m)) :
    fs.createTrunc [] mode ≠ .ok fs' := by
  obtain ⟨d, hd, hdir⟩ := h
  cases hd
  obtain ⟨es, hes⟩ := view_eq_dir.1 hdir
  have hplace : fs.place [] = .ok [] := place_eq_ok.2 .done
  simp [createTrunc, hplace, bind, Except.bind, hes]

theorem append_ok {data : Bytes} (h : fs.append p data = .ok fs') :
    ∃ ino, fs.At p (.file ino) ∧ fs' = fs.withInode ino
      { fs.inodes ino with content := (fs.inodes ino).content ++ data } := by
  obtain ⟨e, he, h⟩ := Except.bind_eq_ok.1 h
  cases e with
  | file ino =>
    cases h
    exact ⟨ino, lookup_eq_file.1 he, rfl⟩
  | link text => cases h
  | dir m es => cases h

theorem mkdir_ok {c : Bytes} (hc : Plain c) {mode : UInt32}
    (h : fs.mkdir (p ++ [c]) mode = .ok fs') :
    Builds fs fs' ∧ fs'.inodes = fs.inodes ∧ fs'.At (p ++ [c]) (.dir mode) := by
  obtain ⟨q, hq, h⟩ := Except.bind_eq_ok.1 h
  obtain ⟨r, m, hleads, hdir, rfl⟩ := placeOfName_concat.1 hq
  cases hvac : reach fs.root (r ++ [c]) with
  | some e =>
    rw [hvac] at h
    cases h
  | none =>
    rw [hvac] at h
    cases h
    obtain ⟨hbuilds, hthere⟩ := builds_modify (e := .dir mode [])
      (f := { fs with root := modify (some (.dir mode [])) fs.root (r ++ [c]) }) hdir
      (view_eq_none.2 hvac) (fun m es h => by cases h; rfl) rfl le_rfl
      (fun ino h => by cases h)
    have hdir' := hbuilds.grows r _ hdir
    refine ⟨hbuilds, rfl, at_append hc (hbuilds.grows.leads hleads fun text hlink => ?_) hdir'
      hthere (fun text h => by cases h)⟩
    cases hdir'.symm.trans hlink

/-- What has come of `mkdirAll`: directories, the last of them at the path. -/
theorem mkdirAll_ok (hp : ∀ c ∈ p, Plain c) {mode : UInt32} (h : fs.mkdirAll p mode = .ok fs') :
    Builds fs fs' ∧ fs'.inodes = fs.inodes ∧ ∃ m, fs'.At p (.dir m) := by
  rw [mkdirAll] at h
  obtain ⟨q, rfl⟩ : ∃ q : List Bytes, p = q.reverse := ⟨p.reverse, (List.reverse_reverse p).symm⟩
  rw [List.reverse_reverse] at h
  induction q generalizing fs' with
  | nil =>
    rw [mkdirAllRev] at h
    split at h
    · next m es hl =>
        cases h
        exact ⟨.refl _, rfl, m, at_of_lookup hl⟩
    · cases h
    · cases h
  | cons c q ih =>
    rw [mkdirAllRev] at h
    split at h
    · next m es hl =>
        cases h
        exact ⟨.refl _, rfl, m, at_of_lookup hl⟩
    · cases h
    · obtain ⟨fs₁, h₁, h⟩ := Except.bind_eq_ok.1 h
      rw [List.reverse_cons] at h hp ⊢
      rw [List.forall_mem_append] at hp
      obtain ⟨hbuilds, hfiles, -⟩ := ih hp.1 h₁
      obtain ⟨hbuilds', hfiles', hat⟩ := mkdir_ok (hp.2 c (by simp)) h
      exact ⟨hbuilds.trans hbuilds', hfiles'.trans hfiles, mode, hat⟩

end Fs

end Os.Linked
