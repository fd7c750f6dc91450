import FileSync.Os.WellFormed
import FileSync.Support.Maps

/-!
# Os — Walk

`filepath.WalkDir` and `filepath.Walk` over a tree that stands still, and `filepath.Rel`.

* `elements` are the elements of the cleaned path.
* `walk` calls a function for an entry and for what is below it, and the function says whether to
  go on.  A directory is listed in the order of its entries.
* `pathOf` is the path a walk passes for an entry: from the root of the walk, joined name by name.
  It is the cleaned root and the names (`split_pathOf`), which `Rel` gives back (`rel_pathOf`).
* `walk_eq_foldlM`: a walk whose function only skips directories by their name is a loop over
  `visits`, and `enumerates_visits` says which entries those are.
-/

namespace Filepath

/-! ### Relative paths -/

/-- The elements of the cleaned path. -/
def elements (s : Bytes) : List Bytes :=
  if isAbs s then (split s).foldl descend [] else (split s).foldl climb []

/-- What is left of two lists behind what they have in common. -/
def stripCommon : List Bytes → List Bytes → List Bytes × List Bytes
  | b :: bs, t :: ts => if b = t then stripCommon bs ts else (b :: bs, t :: ts)
  | bs, ts => (bs, ts)

/-- `filepath.Rel`: from the base up to where the paths part, and down to the target. -/
def rel (base targ : Bytes) : Option Bytes :=
  if isAbs base ≠ isAbs targ then none
  else
    let (bs, ts) := stripCommon (elements base) (elements targ)
    if bs = [] ∧ ts = [] then some dot
    else if bs.head? = some dotdot then none
    else some (relative (bs.map (fun _ => dotdot) ++ ts))

theorem stripCommon_append (bs ts : List Bytes) : stripCommon bs (bs ++ ts) = ([], ts) := by
  induction bs with
  | nil => cases ts <;> rfl
  | cons b bs ih => rw [List.cons_append, stripCommon, if_pos rfl, ih]

theorem foldl_climb_dotdot (j k : ℕ) :
    (List.replicate k dotdot).foldl climb (List.replicate j dotdot) =
      List.replicate (j + k) dotdot := by
  induction k generalizing j with
  | zero => rfl
  | succ k ih =>
    have hstep : climb (List.replicate j dotdot) dotdot = List.replicate (j + 1) dotdot := by
      rw [climb, if_neg (by decide), if_neg ?_, List.replicate_succ']
      rintro ⟨-, hne, hlast⟩
      cases j with
      | zero => exact hne rfl
      | succ j => exact hlast (by simp [List.replicate_succ'])
    rw [List.replicate_succ, List.foldl_cons, hstep, ih, Nat.add_right_comm, Nat.add_assoc]

/-- Cleaning what is clean. -/
theorem foldl_climb_idem {cs : List Bytes} (hcs : ∀ c ∈ cs, 47 ∉ c) :
    (cs.foldl climb []).foldl climb [] = cs.foldl climb [] := by
  obtain ⟨k, ns, heq, hns⟩ := foldl_climb_relative hcs (k := 0) (List.forall_mem_nil Plain)
  have hrel : cs.foldl climb [] = List.replicate k dotdot ++ ns := heq
  have hup : (List.replicate k dotdot).foldl climb [] = List.replicate k dotdot := by
    rw [← List.replicate_zero (a := dotdot), foldl_climb_dotdot, Nat.zero_add]
  rw [hrel, List.foldl_append, hup, foldl_climb_plain hns]

section Join
variable {p n : Bytes}

theorem isAbs_append (hp : p ≠ []) (t : Bytes) : isAbs (p ++ t) = isAbs p := by
  cases p with
  | nil => exact absurd rfl hp
  | cons x p => rfl

theorem join_name (hp : p ≠ []) (n : Bytes) : join [p, n] = clean (p ++ 47 :: n) := by
  rw [join, List.dropWhile_cons_of_neg (by simpa using hp)]
  simp [List.intercalate]

theorem no_slash_split (s : Bytes) : ∀ c ∈ split s, 47 ∉ c := fun _ => no_slash_of_mem_split

/-- A relative path with a name behind it, cleaned. -/
theorem join_of_relative (hp : p ≠ []) (hrel : isAbs p = false) (hn : Plain n) :
    join [p, n] = relative ((split p).foldl climb [] ++ [n]) := by
  have hclimb : (split (p ++ 47 :: n)).foldl climb [] = (split p).foldl climb [] ++ [n] := by
    rw [split_append, split_plain hn, List.foldl_append,
      foldl_climb_plain (List.forall_mem_singleton.2 hn)]
  rw [join_name hp, clean, if_neg (by rw [isAbs_append hp, hrel]; decide), hclimb,
    if_neg (by simp), relative]

theorem element_climb_append (p : Bytes) (hn : Plain n) :
    ∀ c ∈ (split p).foldl climb [] ++ [n], Element c :=
  List.forall_mem_append.2 ⟨(foldl_climb (no_slash_split p) (List.forall_mem_nil Element)).1,
    List.forall_mem_singleton.2 (element_of_plain hn)⟩

theorem join_of_absolute (habs : isAbs p = true) (hn : Plain n) :
    join [p, n] = ofNames (resolve p ++ [n]) := by
  rw [join_of_isAbs habs]
  simp only [List.flatMap_cons, List.flatMap_nil, List.append_nil, foldl_split_plain hn]

theorem join_ne_nil (hp : p ≠ []) (hn : Plain n) : join [p, n] ≠ [] := by
  cases habs : isAbs p with
  | true => rw [join_of_absolute habs hn]; exact List.cons_ne_nil _ _
  | false =>
    rw [join_of_relative hp habs hn]
    intro hnil
    have hsplit := split_relative_elements (element_climb_append p hn) (by simp)
    rw [hnil, split_nil] at hsplit
    exact (element_climb_append p hn [] (by rw [← hsplit]; exact List.mem_cons_self)).1 rfl

theorem isAbs_join (hp : p ≠ []) (hn : Plain n) : isAbs (join [p, n]) = isAbs p := by
  cases habs : isAbs p with
  | true => rw [join_of_absolute habs hn]; rfl
  | false =>
    rw [join_of_relative hp habs hn, isAbs_relative (element_climb_append p hn) (by simp)]

theorem plain_resolve_append (p : Bytes) (hn : Plain n) : ∀ c ∈ resolve p ++ [n], Plain c :=
  List.forall_mem_append.2 ⟨fun _ => plain_of_mem_resolve, List.forall_mem_singleton.2 hn⟩

theorem elements_join (hp : p ≠ []) (hn : Plain n) :
    elements (join [p, n]) = elements p ++ [n] := by
  rw [elements, elements, isAbs_join hp hn]
  cases habs : isAbs p with
  | true =>
    rw [if_pos rfl, if_pos rfl, join_of_absolute habs hn]
    exact resolve_ofNames (plain_resolve_append p hn)
  | false =>
    have hclimb : (split p ++ [n]).foldl climb [] = (split p).foldl climb [] ++ [n] := by
      rw [List.foldl_append, foldl_climb_plain (List.forall_mem_singleton.2 hn)]
    rw [if_neg (by decide), if_neg (by decide), join_of_relative hp habs hn,
      split_relative_elements (element_climb_append p hn) (by simp), ← hclimb]
    exact foldl_climb_idem (List.forall_mem_append.2
      ⟨no_slash_split p, List.forall_mem_singleton.2 hn.no_slash⟩)

theorem split_ofNames {cs : List Bytes} (h : ∀ c ∈ cs, Plain c) (hne : cs ≠ []) :
    split (ofNames cs) = [] :: cs := by
  have hsplit : split (ofNames cs) = [] :: split (List.intercalate [47] cs) := split_append [] _
  rw [hsplit]
  exact congrArg _ (split_relative h hne)

/-- What stands before the names of a path when it is split. -/
def lead (s : Bytes) : List Bytes := if isAbs s then [[]] else []

theorem split_join (hp : p ≠ []) (hn : Plain n) :
    split (join [p, n]) = lead p ++ elements p ++ [n] := by
  rw [elements, lead]
  cases habs : isAbs p with
  | true =>
    rw [if_pos rfl, if_pos rfl, join_of_absolute habs hn,
      split_ofNames (plain_resolve_append p hn) (by simp)]
    rfl
  | false =>
    rw [if_neg (by decide), if_neg (by decide), join_of_relative hp habs hn,
      split_relative_elements (element_climb_append p hn) (by simp), List.nil_append]

end Join

/-- The elements of a clean path with any. -/
theorem split_clean {s : Bytes} (h : elements s ≠ []) : split (clean s) = lead s ++ elements s := by
  cases habs : isAbs s with
  | true =>
    have helems : elements s = resolve s := by rw [elements, if_pos habs, resolve]
    rw [helems] at h ⊢
    rw [clean_of_isAbs habs, split_ofNames (fun _ => plain_of_mem_resolve) h, lead, if_pos habs]
    rfl
  | false =>
    have helems : elements s = (split s).foldl climb [] := by rw [elements, habs]; rfl
    have hclean : clean s = relative (elements s) := by
      rw [clean, if_neg (by simp [habs]), ← helems, if_neg h, relative]
    rw [hclean, lead, if_neg (by simp [habs])]
    refine split_relative_elements ?_ h
    rw [helems]
    exact (foldl_climb (no_slash_split s) (List.forall_mem_nil Element)).1

theorem isAbs_clean (s : Bytes) : isAbs (clean s) = isAbs s := by
  cases habs : isAbs s with
  | true =>
    rw [clean_of_isAbs habs]
    exact isAbs_ofNames _
  | false =>
    rw [clean, if_neg (by simp [habs])]
    split_ifs with hnil
    · rfl
    · exact isAbs_relative (foldl_climb (no_slash_split s) (List.forall_mem_nil Element)).1 hnil

/-- A clean path without any. -/
theorem clean_of_elements_eq_nil {s : Bytes} (h : elements s = []) :
    clean s = if isAbs s then [47] else dot := by
  rw [elements] at h
  rw [clean]
  split_ifs at h ⊢ with habs
  · rw [h]
    rfl
  · rfl

/-! ### The paths of a walk -/

/-- The path a walk from `root` passes for the entry at `names`. -/
def pathOf (root : Bytes) (names : List Bytes) : Bytes :=
  names.foldl (fun path name => join [path, name]) root

section PathOf
variable {root : Bytes} {names : List Bytes} (hroot : root ≠ []) (hnames : ∀ n ∈ names, Plain n)

include hroot hnames

theorem pathOf_spec :
    pathOf root names ≠ [] ∧ isAbs (pathOf root names) = isAbs root ∧
      elements (pathOf root names) = elements root ++ names := by
  induction names generalizing root with
  | nil => simpa [pathOf] using hroot
  | cons n names ih =>
    obtain ⟨hn, hnames⟩ := List.forall_mem_cons.1 hnames
    obtain ⟨hne, habs, helems⟩ := ih (join_ne_nil hroot hn) hnames
    refine ⟨hne, habs.trans (isAbs_join hroot hn), ?_⟩
    rw [show pathOf root (n :: names) = pathOf (join [root, n]) names from rfl, helems,
      elements_join hroot hn, List.append_assoc, List.singleton_append]

theorem split_pathOf (hne : names ≠ []) :
    split (pathOf root names) = lead root ++ elements root ++ names := by
  rcases List.eq_nil_or_concat names with rfl | ⟨init, n, rfl⟩
  · exact (hne rfl).elim
  · rw [List.concat_eq_append] at hnames ⊢
    obtain ⟨hinit, hn⟩ := List.forall_mem_append.1 hnames
    obtain ⟨hne', habs, helems⟩ := pathOf_spec hroot hinit
    rw [pathOf, List.foldl_append]
    change split (join [pathOf root init, n]) = _
    rw [split_join hne' (hn n (List.mem_singleton_self n)), lead, habs, helems]
    simp [lead]

/-- **`Rel` gives back the names** below the root of a walk. -/
theorem rel_pathOf (hne : names ≠ []) : rel root (pathOf root names) = some (relative names) := by
  obtain ⟨-, habs, helems⟩ := pathOf_spec hroot hnames
  rw [rel, habs, helems, stripCommon_append]
  simp [hne]

end PathOf

/-- From an absolute root on, the paths are clean. -/
theorem pathOf_of_isAbs {root : Bytes} {names : List Bytes} (habs : isAbs root = true)
    (hnames : ∀ n ∈ names, Plain n) (hne : names ≠ []) :
    pathOf root names = ofNames (resolve root ++ names) := by
  induction names generalizing root with
  | nil => exact absurd rfl hne
  | cons n names ih =>
    obtain ⟨hn, hnames⟩ := List.forall_mem_cons.1 hnames
    rw [show pathOf root (n :: names) = pathOf (join [root, n]) names from rfl,
      join_of_absolute habs hn]
    by_cases hnil : names = []
    · rw [hnil]
      rfl
    · rw [ih (isAbs_ofNames _) hnames hnil, resolve_ofNames (plain_resolve_append root hn),
        List.append_assoc, List.singleton_append]

end Filepath

namespace Os
open Filepath (join pathOf)

/-! ### Walking -/

/-- What a walk passes to its function. -/
structure Visit where
  path : Bytes
  name : Bytes
  entry : Entry

/-- What the function says: to go on, `filepath.SkipDir`, or another error. -/
inductive Verdict
  | go
  | skipDir
  | fail (e : Err)

section Walk
variable {m : Type → Type} [Monad m] {σ : Type} (fn : Visit → σ → m (Verdict × σ))

mutual

/-- The entry, and what is below it; a skipped directory is no error. -/
def walk (path name : Bytes) : Entry → σ → m (Verdict × σ)
  | .file mode content, s => fn ⟨path, name, .file mode content⟩ s
  | .dir mode es, s => do
      match ← fn ⟨path, name, .dir mode es⟩ s with
      | (.go, s) => walkEntries path es s
      | (.skipDir, s) => return (.go, s)
      | (.fail e, s) => return (.fail e, s)

/-- The entries of a directory; to skip at a file is to skip those behind it. -/
def walkEntries (path : Bytes) : List (Bytes × Entry) → σ → m (Verdict × σ)
  | [], s => return (.go, s)
  | (name, e) :: es, s => do
      match ← walk (join [path, name]) name e s with
      | (.go, s) => walkEntries path es s
      | (.skipDir, s) => return (.go, s)
      | (.fail e, s) => return (.fail e, s)

end

end Walk

mutual

/-- What is visited if directories are skipped by their name. -/
def visits (skip : Bytes → Bool) (path name : Bytes) : Entry → List Visit
  | .file mode content => [⟨path, name, .file mode content⟩]
  | .dir mode es =>
    ⟨path, name, .dir mode es⟩ :: if skip name then [] else visitEntries skip path es

def visitEntries (skip : Bytes → Bool) (path : Bytes) : List (Bytes × Entry) → List Visit
  | [] => []
  | (name, e) :: es => visits skip (join [path, name]) name e ++ visitEntries skip path es

end

def Entry.isDir : Entry → Bool
  | .file .. => false
  | .dir .. => true

section Loop
variable {m : Type → Type} [Monad m] {σ : Type}

/-- On these entries the function does `act`, and skips directories by their name. -/
def Acts (fn : Visit → σ → m (Verdict × σ)) (act : σ → Visit → m σ) (skip : Bytes → Bool)
    (vs : List Visit) : Prop :=
  ∀ v ∈ vs, ∀ s, fn v s = do
    let s ← act s v
    return (if v.entry.isDir && skip v.name then .skipDir else .go, s)

variable [LawfulMonad m] {fn : Visit → σ → m (Verdict × σ)} {act : σ → Visit → m σ}
  {skip : Bytes → Bool}

mutual

/-- **A walk is a loop over what it visits.** -/
theorem walk_eq_foldlM (path name : Bytes) : ∀ (e : Entry) (s : σ),
    Acts fn act skip (visits skip path name e) →
    walk fn path name e s = do
      let s ← (visits skip path name e).foldlM act s
      return (.go, s)
  | .file mode content, s, hfn => by
    rw [walk, hfn _ List.mem_cons_self, visits, List.foldlM_cons, bind_assoc]
    simp [Entry.isDir]
  | .dir mode es, s, hfn => by
    rw [visits] at hfn
    rw [walk, hfn _ List.mem_cons_self, visits, List.foldlM_cons]
    simp only [Entry.isDir, Bool.true_and, bind_assoc, pure_bind]
    congr 1
    funext s
    cases hskip : skip name with
    | true => simp
    | false =>
      have hbelow : Acts fn act skip (visitEntries skip path es) := fun v hv =>
        hfn v (List.mem_cons_of_mem _ (by rwa [hskip]))
      simpa using walkEntries_eq_foldlM path es s hbelow

theorem walkEntries_eq_foldlM (path : Bytes) : ∀ (es : List (Bytes × Entry)) (s : σ),
    Acts fn act skip (visitEntries skip path es) →
    walkEntries fn path es s = do
      let s ← (visitEntries skip path es).foldlM act s
      return (.go, s)
  | [], s, _ => by simp [walkEntries, visitEntries]
  | (name, e) :: es, s, hfn => by
    rw [visitEntries] at hfn
    rw [walkEntries, walk_eq_foldlM _ name e s fun v hv => hfn v (List.mem_append_left _ hv),
      visitEntries, List.foldlM_append]
    simp only [bind_assoc, pure_bind]
    congr 1
    funext s
    exact walkEntries_eq_foldlM path es s fun v hv => hfn v (List.mem_append_right _ hv)

end

end Loop

/-! ### What is visited -/

theorem visitEntries_eq (skip : Bytes → Bool) (path : Bytes) (es : List (Bytes × Entry)) :
    visitEntries skip path es = es.flatMap fun x => visits skip (join [path, x.1]) x.1 x.2 := by
  induction es with
  | nil => rfl
  | cons x es ih => rw [visitEntries, ih, List.flatMap_cons]

/-- The walk of an entry comes to what is at `names` below it, past no skipped directory. -/
structure Seen (skip : Bytes → Bool) (path name : Bytes) (e : Entry) (names : List Bytes)
    (v : Visit) : Prop where
  passed : ∀ n ∈ (name :: names).dropLast, skip n = false
  reached : reach (some e) names = some v.entry
  path_eq : v.path = pathOf path names
  name_eq : (name :: names).getLast? = some v.name

theorem seen_nil {skip : Bytes → Bool} {path name : Bytes} {e : Entry} {v : Visit} :
    Seen skip path name e [] v ↔ ⟨path, name, e⟩ = v := by
  constructor
  · rintro ⟨-, hreach, hpath, hname⟩
    rw [reach_nil] at hreach
    obtain ⟨p, n, e'⟩ := v
    cases hreach
    cases hpath
    cases hname
    rfl
  · rintro rfl
    exact ⟨by simp, reach_nil _, rfl, rfl⟩

theorem seen_cons {skip : Bytes → Bool} {path name : Bytes} {mode : UInt32}
    {es : List (Bytes × Entry)} {n : Bytes} {names : List Bytes} {v : Visit} :
    Seen skip path name (.dir mode es) (n :: names) v ↔
      skip name = false ∧ ∃ e, es.lookup n = some e ∧ Seen skip (join [path, n]) n e names v := by
  constructor
  · rintro ⟨hpassed, hreach, hpath, hname⟩
    rw [List.dropLast_cons_of_ne_nil (by simp), List.forall_mem_cons] at hpassed
    rw [reach] at hreach
    cases he : es.lookup n with
    | none => rw [he, reach_none] at hreach; cases hreach
    | some e =>
      rw [he] at hreach
      exact ⟨hpassed.1, e, rfl, hpassed.2, hreach, hpath, by simpa using hname⟩
  · rintro ⟨hskip, e, he, hpassed, hreach, hpath, hname⟩
    refine ⟨?_, by rw [reach, he, hreach], hpath, by simpa using hname⟩
    rw [List.dropLast_cons_of_ne_nil (by simp)]
    exact List.forall_mem_cons.2 ⟨hskip, hpassed⟩

theorem not_seen_file {skip : Bytes → Bool} {path name content n : Bytes} {mode : UInt32}
    {names : List Bytes} {v : Visit} :
    ¬ Seen skip path name (.file mode content) (n :: names) v := by
  rintro ⟨-, hreach, -, -⟩
  cases hreach

/-- **What a walk visits**, each entry once. -/
theorem enumerates_visits (skip : Bytes → Bool) {e : Entry} (he : e.WF) (path name : Bytes) :
    Enumerates (visits skip path name e) (Seen skip path name e) := by
  induction he generalizing path name with
  | file mode content =>
    exact Enumerates.leaf (fun v => seen_nil) fun n names v => not_seen_file
  | dir mode hnames hplain hbelow ih =>
    rename_i es
    rw [visits]
    cases hskip : skip name with
    | true =>
      refine Enumerates.leaf (fun v => seen_nil) fun n names v hseen => ?_
      rw [seen_cons, hskip] at hseen
      cases hseen.1
    | false =>
      rw [if_neg (by decide), visitEntries_eq]
      refine Enumerates.node (some (Visit.mk path name (.dir mode es))) Prod.fst
        (fun v => by rw [seen_nil, Option.some.injEq]) hnames (fun x hx => ?_) ?_
      · refine (ih x hx (join [path, x.1]) x.1).congr fun names v => ?_
        rw [seen_cons, hskip, (lookup_eq_some hnames).2 hx]
        simp
      · rintro n hn names v hseen
        obtain ⟨-, e, he, -⟩ := seen_cons.1 hseen
        have hmem : (n, e) ∈ es := (lookup_eq_some hnames).1 he
        exact hn (List.mem_map.2 ⟨(n, e), hmem, rfl⟩)

end Os
