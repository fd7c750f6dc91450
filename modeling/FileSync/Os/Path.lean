import Mathlib.Data.List.DropRight
import FileSync.Support.Sha256

/-!
# Os — Path

Package `path/filepath` of a Unix system, on byte strings, and the list of names a path leads
through from the root directory.

* `clean`, `join`, `dir`, `base` and `ext` are the functions of that name, lexical as there: `.` and
  empty elements vanish, `..` cancels the element before it, and at the root it vanishes.
* `resolve` is where the system takes a path: the names from the root down.  There are no symbolic
  links, and a path that does not start with a separator is taken from the root directory.

The lemmas say where the results lead: `join_of_isAbs` goes down from the first element through the
others, `dir_ofNames` drops the last name.
-/

namespace Filepath

def dot : Bytes := [46]

def dotdot : Bytes := [46, 46]

/-- The elements between separators; an empty one where two separators meet. -/
def split (s : Bytes) : List Bytes := s.splitOn 47

/-- `filepath.IsAbs`. -/
def isAbs (s : Bytes) : Bool := s.head? == some 47

/-- One element of a path, below the names passed so far, from the root. -/
def descend (names : List Bytes) (c : Bytes) : List Bytes :=
  if c = [] ∨ c = dot then names else if c = dotdot then names.dropLast else names ++ [c]

/-- One element of a relative path that is being cleaned: a `..` with nothing to cancel stays. -/
def climb (names : List Bytes) (c : Bytes) : List Bytes :=
  if c = [] ∨ c = dot then names
  else if c = dotdot ∧ names.getLast? ≠ none ∧ names.getLast? ≠ some dotdot then names.dropLast
  else names ++ [c]

/-- The clean absolute path that leads through `names`. -/
def ofNames (names : List Bytes) : Bytes := 47 :: List.intercalate [47] names

/-- `filepath.Clean`. -/
def clean (s : Bytes) : Bytes :=
  if isAbs s then ofNames ((split s).foldl descend [])
  else if (split s).foldl climb [] = [] then dot
  else List.intercalate [47] ((split s).foldl climb [])

/-- `filepath.Join`: the elements from the first that is not empty on. -/
def join (elems : List Bytes) : Bytes :=
  match elems.dropWhile (· = []) with
  | [] => []
  | es => clean (List.intercalate [47] es)

/-- `filepath.Dir`. -/
def dir (s : Bytes) : Bytes := clean (s.rdropWhile (· ≠ 47))

/-- `filepath.Base`. -/
def base (s : Bytes) : Bytes :=
  if s = [] then dot
  else match (s.rdropWhile (· = 47)).rtakeWhile (· ≠ 47) with
    | [] => [47]
    | name => name

/-- `filepath.Ext`: the last element from its last dot on. -/
def ext (s : Bytes) : Bytes :=
  let last := s.rtakeWhile (· ≠ 47)
  if 46 ∈ last then 46 :: last.rtakeWhile (· ≠ 46) else []

/-- The names from the root directory to what the path names. -/
def resolve (s : Bytes) : List Bytes := (split s).foldl descend []

/-- A name of one directory entry. -/
structure Plain (name : Bytes) : Prop where
  ne_nil : name ≠ []
  ne_dot : name ≠ dot
  ne_dotdot : name ≠ dotdot
  no_slash : 47 ∉ name

instance (name : Bytes) : Decidable (Plain name) :=
  decidable_of_iff (name ≠ [] ∧ name ≠ dot ∧ name ≠ dotdot ∧ 47 ∉ name)
    ⟨fun h => ⟨h.1, h.2.1, h.2.2.1, h.2.2.2⟩, fun h => ⟨h.1, h.2, h.3, h.4⟩⟩

/-! ### Splitting -/

theorem split_append (a b : Bytes) : split (a ++ 47 :: b) = split a ++ split b :=
  List.splitOnP_append_cons a b (by simp)

theorem split_of_no_slash {s : Bytes} (h : 47 ∉ s) : split s = [s] :=
  List.splitOnP_eq_singleton fun x hx => by
    simpa using ne_of_mem_of_not_mem hx h

@[simp] theorem split_nil : split [] = [[]] := rfl

theorem intercalate_cons (e : Bytes) {es : List Bytes} (h : es ≠ []) :
    List.intercalate [47] (e :: es) = e ++ 47 :: List.intercalate [47] es := by
  cases es with
  | nil => exact (h rfl).elim
  | cons e' es => simp [List.intercalate]

theorem split_intercalate {es : List Bytes} (h : es ≠ []) :
    split (List.intercalate [47] es) = es.flatMap split := by
  induction es with
  | nil => exact (h rfl).elim
  | cons e es ih =>
    by_cases hes : es = []
    · subst hes
      simp [List.intercalate]
    · rw [intercalate_cons e hes, split_append, ih hes, List.flatMap_cons]

theorem no_slash_of_mem_split {s c : Bytes} (h : c ∈ split s) : 47 ∉ c := by
  induction hn : s.length using Nat.strong_induction_on generalizing s with
  | _ n ih =>
    by_cases hs : 47 ∈ s
    · obtain ⟨a, b, rfl, ha⟩ := List.eq_append_cons_of_mem hs
      rw [split_append, split_of_no_slash ha, List.singleton_append, List.mem_cons] at h
      rcases h with rfl | h
      · exact ha
      · exact ih b.length (by simp [← hn]; omega) h rfl
    · rw [split_of_no_slash hs, List.mem_singleton] at h
      exact h ▸ hs

/-! ### Going down -/

theorem descend_plain {name : Bytes} (h : Plain name) (names : List Bytes) :
    descend names name = names ++ [name] := by
  rw [descend, if_neg (by simp [h.ne_nil, h.ne_dot]), if_neg h.ne_dotdot]

theorem foldl_descend_plain {cs : List Bytes} (h : ∀ c ∈ cs, Plain c) (names : List Bytes) :
    cs.foldl descend names = names ++ cs := by
  induction cs generalizing names with
  | nil => simp
  | cons c cs ih =>
    rw [List.forall_mem_cons] at h
    rw [List.foldl_cons, descend_plain h.1, ih h.2, List.append_assoc, List.singleton_append]

/-- Below the root only names of entries are passed. -/
theorem plain_of_mem_descend {cs names : List Bytes} (hcs : ∀ c ∈ cs, 47 ∉ c)
    (h : ∀ c ∈ names, Plain c) : ∀ c ∈ cs.foldl descend names, Plain c := by
  induction cs generalizing names with
  | nil => exact h
  | cons c cs ih =>
    rw [List.forall_mem_cons] at hcs
    refine ih hcs.2 fun d hd => ?_
    unfold descend at hd
    split at hd
    · exact h d hd
    · split at hd
      · exact h d ((List.dropLast_sublist _).subset hd)
      · next hc hcc =>
          rw [not_or] at hc
          rcases List.mem_append.1 hd with hd | hd
          · exact h d hd
          · obtain rfl := List.mem_singleton.1 hd
            exact ⟨hc.1, hc.2, hcc, hcs.1⟩

theorem plain_of_mem_resolve {s c : Bytes} (h : c ∈ resolve s) : Plain c :=
  plain_of_mem_descend (fun _ => no_slash_of_mem_split) (by simp) c h

theorem split_plain {name : Bytes} (h : Plain name) : split name = [name] :=
  split_of_no_slash h.no_slash

theorem foldl_split_plain {name : Bytes} (h : Plain name) (names : List Bytes) :
    (split name).foldl descend names = names ++ [name] := by
  rw [split_plain h, List.foldl_cons, List.foldl_nil, descend_plain h]

theorem foldl_split_nil (names : List Bytes) : (split []).foldl descend names = names := by
  simp [descend]

/-- The path of `names` leads through them, from wherever it is taken. -/
theorem foldl_descend_ofNames {cs : List Bytes} (h : ∀ c ∈ cs, Plain c) (names : List Bytes) :
    (split (ofNames cs)).foldl descend names = names ++ cs := by
  have hsplit : split (ofNames cs) = [] :: split (List.intercalate [47] cs) := split_append [] _
  rw [hsplit, List.foldl_cons, show descend names [] = names by simp [descend]]
  by_cases hcs : cs = []
  · subst hcs
    simp [List.intercalate, descend]
  · rw [split_intercalate hcs, List.flatMap_congr fun c hc => split_plain (h c hc),
      List.flatMap_singleton']
    exact foldl_descend_plain h names

theorem resolve_ofNames {cs : List Bytes} (h : ∀ c ∈ cs, Plain c) : resolve (ofNames cs) = cs :=
  foldl_descend_ofNames h []

/-! ### Clean paths -/

theorem clean_of_isAbs {s : Bytes} (h : isAbs s) : clean s = ofNames (resolve s) := by
  rw [clean, if_pos h, resolve]

/-- An element of a cleaned relative path: a name or `..`. -/
def Element (c : Bytes) : Prop := c ≠ [] ∧ c ≠ dot ∧ 47 ∉ c

theorem element_of_mem_climb {acc : List Bytes} {c : Bytes} (hc : 47 ∉ c)
    (hacc : ∀ d ∈ acc, Element d) : ∀ d ∈ climb acc c, Element d := by
  intro d hd
  unfold climb at hd
  split at hd
  · exact hacc d hd
  · next hne =>
      rw [not_or] at hne
      split at hd
      · exact hacc d ((List.dropLast_sublist _).subset hd)
      · rcases List.mem_append.1 hd with hd | hd
        · exact hacc d hd
        · obtain rfl := List.mem_singleton.1 hd
          exact ⟨hne.1, hne.2, hc⟩

theorem foldl_descend_climb {acc : List Bytes} (hacc : ∀ d ∈ acc, Element d)
    (c : Bytes) (names : List Bytes) :
    (climb acc c).foldl descend names = descend (acc.foldl descend names) c := by
  unfold climb
  split
  · next hc => rw [descend, if_pos hc]
  · next hc =>
      split
      · next hdd =>
          obtain ⟨rfl, hne, htop⟩ := hdd
          -- The element that `..` cancels is a name, so that going down through it adds it.
          obtain ⟨acc, top, rfl⟩ : ∃ acc' top, acc = acc' ++ [top] :=
            ⟨_, _, (List.dropLast_append_getLast (by simpa using hne)).symm⟩
          have hplain :
              descend (acc.foldl descend names) top = acc.foldl descend names ++ [top] := by
            obtain ⟨hnil, hdot, -⟩ := hacc top (by simp)
            rw [descend, if_neg (by simp [hnil, hdot]), if_neg (by simpa using htop)]
          rw [List.dropLast_concat, List.foldl_append, List.foldl_cons, List.foldl_nil, hplain,
            descend, if_neg hc, if_pos rfl, List.dropLast_concat]
      · rw [List.foldl_append, List.foldl_cons, List.foldl_nil]

theorem foldl_climb {cs acc : List Bytes} (hcs : ∀ c ∈ cs, 47 ∉ c)
    (hacc : ∀ d ∈ acc, Element d) :
    (∀ d ∈ cs.foldl climb acc, Element d) ∧ ∀ names,
      (cs.foldl climb acc).foldl descend names = cs.foldl descend (acc.foldl descend names) := by
  induction cs generalizing acc with
  | nil => exact ⟨hacc, fun _ => rfl⟩
  | cons c cs ih =>
    rw [List.forall_mem_cons] at hcs
    obtain ⟨hmem, hfold⟩ := ih hcs.2 (element_of_mem_climb hcs.1 hacc)
    refine ⟨hmem, fun names => ?_⟩
    rw [List.foldl_cons, hfold, foldl_descend_climb hacc, List.foldl_cons]

/-! ### `Join`, `Dir` and `Base` -/

theorem isAbs_intercalate {b : Bytes} (h : isAbs b) (elems : List Bytes) :
    isAbs (List.intercalate [47] (b :: elems)) := by
  cases b with
  | nil => cases h
  | cons x b =>
    cases elems with
    | nil => simpa [List.intercalate] using h
    | cons e elems => simpa [isAbs, intercalate_cons] using h

/-- From an absolute path down through the other elements. -/
theorem join_of_isAbs {b : Bytes} (h : isAbs b) (elems : List Bytes) :
    join (b :: elems) = ofNames ((elems.flatMap split).foldl descend (resolve b)) := by
  have hne : b ≠ [] := by rintro rfl; cases h
  rw [join, List.dropWhile_cons_of_neg (by simpa using hne)]
  simp only [clean_of_isAbs (isAbs_intercalate h elems), resolve,
    split_intercalate (List.cons_ne_nil b elems), List.flatMap_cons, List.foldl_append]

theorem isAbs_ofNames (cs : List Bytes) : isAbs (ofNames cs) := rfl

theorem dir_append {a c : Bytes} (h : 47 ∉ c) : dir (a ++ 47 :: c) = clean (a ++ [47]) := by
  have hcut : (a ++ 47 :: c).rdropWhile (· ≠ 47) = a ++ [47] := by
    rw [List.rdropWhile, List.reverse_append, List.reverse_cons, List.append_assoc,
      List.dropWhile_append_of_pos fun b hb => ?_]
    · simp
    · simpa using ne_of_mem_of_not_mem (List.mem_reverse.1 hb) h
  rw [dir, hcut]

/-- What follows the last of a byte. -/
theorem rtakeWhile_append_cons {a c : Bytes} {b : UInt8} (h : b ∉ c) :
    (a ++ b :: c).rtakeWhile (· ≠ b) = c := by
  rw [List.rtakeWhile, List.reverse_append, List.reverse_cons, List.append_assoc,
    List.takeWhile_append_of_pos fun x hx => ?_]
  · simp
  · simpa using ne_of_mem_of_not_mem (List.mem_reverse.1 hx) h

theorem base_append {a c : Bytes} (h : 47 ∉ c) (hne : c ≠ []) : base (a ++ 47 :: c) = c := by
  obtain ⟨c, x, rfl⟩ : ∃ c' x, c = c' ++ [x] :=
    ⟨_, _, (List.dropLast_append_getLast hne).symm⟩
  have hx : x ≠ 47 := fun hx => h (by simp [hx])
  have htrim : (a ++ 47 :: (c ++ [x])).rdropWhile (· = 47) = a ++ 47 :: (c ++ [x]) := by
    simp [List.rdropWhile, hx]
  rw [base, if_neg (by simp), htrim, rtakeWhile_append_cons h]
  split
  · next hnil => simp at hnil
  · rfl

theorem intercalate_concat {cs : List Bytes} (h : cs ≠ []) (c : Bytes) :
    List.intercalate [47] (cs ++ [c]) = List.intercalate [47] cs ++ 47 :: c := by
  induction cs with
  | nil => exact (h rfl).elim
  | cons d cs ih =>
    by_cases hcs : cs = []
    · subst hcs
      simp [List.intercalate]
    · rw [List.cons_append, intercalate_cons d (by simp), ih hcs, intercalate_cons d hcs,
        List.append_assoc, List.cons_append]

theorem resolve_append (a c : Bytes) :
    resolve (a ++ 47 :: c) = (split c).foldl descend (resolve a) := by
  rw [resolve, split_append, List.foldl_append, resolve]

/-- A path through one or more names is a path through the others, a separator and the last. -/
theorem ofNames_concat {cs : List Bytes} (h : ∀ d ∈ cs, Plain d) (c : Bytes) :
    ∃ a, ofNames (cs ++ [c]) = a ++ 47 :: c ∧ resolve a = cs ∧ clean (a ++ [47]) = ofNames cs := by
  by_cases hcs : cs = []
  · subst hcs
    exact ⟨[], by simp [ofNames, List.intercalate], rfl, by decide⟩
  · refine ⟨ofNames cs, by rw [ofNames, intercalate_concat hcs, ofNames, List.cons_append],
      resolve_ofNames h, ?_⟩
    rw [clean_of_isAbs (by rfl), resolve_append, resolve_ofNames h]
    simp [descend]

theorem dir_ofNames {cs : List Bytes} {c : Bytes} (h : ∀ d ∈ cs, Plain d) (hc : Plain c) :
    dir (ofNames (cs ++ [c])) = ofNames cs := by
  obtain ⟨a, ha, -, hclean⟩ := ofNames_concat h c
  rw [ha, dir_append hc.no_slash, hclean]

theorem base_ofNames {cs : List Bytes} {c : Bytes} (h : ∀ d ∈ cs, Plain d) (hc : Plain c) :
    base (ofNames (cs ++ [c])) = c := by
  obtain ⟨a, ha, -⟩ := ofNames_concat h c
  rw [ha, base_append hc.no_slash hc.ne_nil]

theorem ext_ofNames {cs : List Bytes} {c : Bytes} (h : ∀ d ∈ cs, Plain d) (hc : 47 ∉ c) :
    ext (ofNames (cs ++ [c])) = if 46 ∈ c then 46 :: c.rtakeWhile (· ≠ 46) else [] := by
  obtain ⟨a, ha, -⟩ := ofNames_concat h c
  rw [ha, ext, rtakeWhile_append_cons hc]

/-- A suffix to a path belongs to its last name. -/
theorem resolve_ofNames_append {cs : List Bytes} {c t : Bytes} (h : ∀ d ∈ cs, Plain d)
    (hct : Plain (c ++ t)) : resolve (ofNames (cs ++ [c]) ++ t) = cs ++ [c ++ t] := by
  obtain ⟨a, ha, hres, -⟩ := ofNames_concat h c
  rw [ha, List.append_assoc, List.cons_append, resolve_append, hres, split_plain hct,
    List.foldl_cons, List.foldl_nil, descend_plain hct]

theorem resolve_dir_ofNames {cs : List Bytes} (h : ∀ c ∈ cs, Plain c) :
    resolve (dir (ofNames cs)) = cs.dropLast := by
  rcases List.eq_nil_or_concat cs with rfl | ⟨cs, c, rfl⟩
  · decide
  · rw [List.concat_eq_append] at h ⊢
    have hcs : ∀ d ∈ cs, Plain d := fun d hd => h d (List.mem_append_left _ hd)
    rw [dir_ofNames hcs (h c (by simp)), resolve_ofNames hcs, List.dropLast_concat]

/-! ### Relative paths -/

/-- How many levels a clean relative path goes up. -/
def goesUp (rel : List Bytes) : ℕ := (rel.takeWhile (· = dotdot)).length

/-- The names a clean relative path then goes down. -/
def goesDown (rel : List Bytes) : List Bytes := rel.dropWhile (· = dotdot)

theorem climb_relative {k : ℕ} {ns : List Bytes} (hns : ∀ n ∈ ns, Plain n) {c : Bytes}
    (hc : 47 ∉ c) : ∃ k' ns', climb (List.replicate k dotdot ++ ns) c =
      List.replicate k' dotdot ++ ns' ∧ ∀ n ∈ ns', Plain n := by
  unfold climb
  split
  · exact ⟨k, ns, rfl, hns⟩
  · next hne =>
      rw [not_or] at hne
      split
      · next hup =>
          -- Something is cancelled, so it is a name.
          have hne' : ns ≠ [] := by
            rintro rfl
            rcases k with _ | k
            · simp at hup
            · simp [List.replicate_succ'] at hup
          refine ⟨k, ns.dropLast, List.dropLast_append_of_ne_nil hne', fun n hn => ?_⟩
          exact hns n ((List.dropLast_sublist ns).subset hn)
      · next hup =>
          by_cases hcd : c = dotdot
          · have hns' : ns = [] := by
              by_contra hne'
              refine hup ⟨hcd, ?_⟩
              rw [List.getLast?_append_of_ne_nil _ hne', List.getLast?_eq_some_getLast hne']
              exact ⟨by simp, fun h => (hns _ (List.getLast_mem hne')).ne_dotdot
                (Option.some.inj h)⟩
            refine ⟨k + 1, [], ?_, by simp⟩
            rw [hns', hcd, List.replicate_succ']
            simp
          · refine ⟨k, ns ++ [c], by simp, fun n hn => ?_⟩
            rcases List.mem_append.1 hn with hn | hn
            · exact hns n hn
            · rw [List.mem_singleton.1 hn]
              exact ⟨hne.1, hne.2, hcd, hc⟩

theorem foldl_climb_relative {cs : List Bytes} (hcs : ∀ c ∈ cs, 47 ∉ c) :
    ∀ {k : ℕ} {ns : List Bytes}, (∀ n ∈ ns, Plain n) → ∃ k' ns',
      cs.foldl climb (List.replicate k dotdot ++ ns) = List.replicate k' dotdot ++ ns' ∧
        ∀ n ∈ ns', Plain n := by
  induction cs with
  | nil => exact fun hns => ⟨_, _, rfl, hns⟩
  | cons c cs ih =>
    intro k ns hns
    obtain ⟨k', ns', heq, hns'⟩ := climb_relative hns (hcs c List.mem_cons_self)
    rw [List.foldl_cons, heq]
    exact ih (fun d hd => hcs d (List.mem_cons_of_mem c hd)) hns'

theorem foldl_descend_up (k : ℕ) (names : List Bytes) :
    (List.replicate k dotdot).foldl descend names = names.rdrop k := by
  induction k generalizing names with
  | zero => simp
  | succ k ih =>
    have hstep : descend names dotdot = names.dropLast := by
      simp [descend, dotdot, dot]
    rw [List.replicate_succ, List.foldl_cons, hstep, ih, List.rdrop, List.rdrop,
      List.dropLast_eq_take, List.take_take, List.length_take]
    congr 1
    omega

/-- A relative path, cleaned, goes up some levels and then down through names. -/
theorem foldl_descend_relative {cs : List Bytes} (hcs : ∀ c ∈ cs, 47 ∉ c) (names : List Bytes) :
    cs.foldl descend names =
      names.rdrop (goesUp (cs.foldl climb [])) ++ goesDown (cs.foldl climb []) := by
  obtain ⟨k, ns, heq, hns⟩ := foldl_climb_relative hcs (k := 0) (List.forall_mem_nil Plain)
  have hrel : cs.foldl climb [] = List.replicate k dotdot ++ ns := heq
  have hsplit : goesUp (List.replicate k dotdot ++ ns) = k ∧
      goesDown (List.replicate k dotdot ++ ns) = ns := by
    have hhead : ∀ c ∈ ns.head?, ¬ decide (c = dotdot) = true := fun c hc =>
      by simpa using (hns c (List.mem_of_mem_head? hc)).ne_dotdot
    constructor
    · rw [goesUp, List.takeWhile_append_of_pos (by simp)]
      cases ns with
      | nil => simp
      | cons c ns => simp [hhead c rfl]
    · rw [goesDown, List.dropWhile_append_of_pos (by simp)]
      cases ns with
      | nil => simp
      | cons c ns => simp [hhead c rfl]
  have hsame := (foldl_climb hcs (List.forall_mem_nil Element)).2 names
  rw [List.foldl_nil] at hsame
  rw [← hsame, hrel, hsplit.1, hsplit.2, List.foldl_append, foldl_descend_up,
    foldl_descend_plain hns]

/-- The relative path through `names`; the empty path if there are none. -/
def relative (names : List Bytes) : Bytes := List.intercalate [47] names

theorem relative_concat (names : List Bytes) (c : Bytes) :
    relative (names ++ [c]) = if names = [] then c else relative names ++ 47 :: c := by
  split
  · next h =>
      subst h
      simp [relative, List.intercalate]
  · next h => exact intercalate_concat h c

theorem element_of_plain {c : Bytes} (h : Plain c) : Element c := ⟨h.ne_nil, h.ne_dot, h.no_slash⟩

theorem split_relative_elements {cs : List Bytes} (h : ∀ c ∈ cs, Element c) (hne : cs ≠ []) :
    split (relative cs) = cs := by
  rw [relative, split_intercalate hne,
    List.flatMap_congr fun c hc => split_of_no_slash (h c hc).2.2, List.flatMap_singleton']

theorem split_relative {names : List Bytes} (h : ∀ c ∈ names, Plain c) (hne : names ≠ []) :
    split (relative names) = names :=
  split_relative_elements (fun c hc => element_of_plain (h c hc)) hne

/-- The first element is not empty, so the path does not start with a separator. -/
theorem isAbs_relative {cs : List Bytes} (h : ∀ c ∈ cs, Element c) (hne : cs ≠ []) :
    isAbs (relative cs) = false := by
  rcases cs with _ | ⟨c, cs⟩
  · exact absurd rfl hne
  · obtain ⟨hnil, -, hslash⟩ := h c List.mem_cons_self
    rcases c with _ | ⟨x, c⟩
    · exact absurd rfl hnil
    · have hx : x ≠ 47 := fun hx => hslash (by simp [hx])
      rcases cs with _ | ⟨d, cs⟩
      · simp [isAbs, relative, List.intercalate, hx]
      · simp [isAbs, relative, hx]

theorem relative_eq_nil {names : List Bytes} (h : ∀ c ∈ names, Plain c) :
    relative names = [] ↔ names = [] := by
  refine ⟨fun heq => ?_, fun heq => heq ▸ rfl⟩
  by_contra hne
  have hsplit := split_relative h hne
  rw [heq, split_nil] at hsplit
  exact (h [] (by simp [← hsplit])).ne_nil rfl

/-- From a directory down the relative path of names. -/
theorem foldl_descend_relative_names {names : List Bytes} (h : ∀ c ∈ names, Plain c)
    (below : List Bytes) : (split (relative names)).foldl descend below = below ++ names := by
  by_cases hne : names = []
  · subst hne
    simp [relative, List.intercalate, descend]
  · rw [split_relative h hne, foldl_descend_plain h]

theorem foldl_climb_plain {names acc : List Bytes} (h : ∀ c ∈ names, Plain c) :
    names.foldl climb acc = acc ++ names := by
  induction names generalizing acc with
  | nil => simp
  | cons c names ih =>
    rw [List.forall_mem_cons] at h
    have hstep : climb acc c = acc ++ [c] := by
      rw [climb, if_neg (by simp [h.1.ne_nil, h.1.ne_dot]), if_neg (by simp [h.1.ne_dotdot])]
    rw [List.foldl_cons, hstep, ih h.2, List.append_assoc, List.singleton_append]

theorem clean_relative {names : List Bytes} (h : ∀ c ∈ names, Plain c) (hne : names ≠ []) :
    clean (relative names) = relative names := by
  have habs := isAbs_relative (fun c hc => element_of_plain (h c hc)) hne
  have hfold : (split (relative names)).foldl climb [] = names := by
    rw [split_relative h hne, foldl_climb_plain h, List.nil_append]
  rw [clean, if_neg (by simp [habs]), hfold, if_neg hne, relative]

theorem dir_relative {names : List Bytes} (h : ∀ c ∈ names, Plain c) (hne : names ≠ []) {c : Bytes}
    (hc : 47 ∉ c) : dir (relative (names ++ [c])) = relative names := by
  have hrel : relative names ≠ [] := fun hn => hne ((relative_eq_nil h).1 hn)
  have hfold : (split (relative names ++ [47])).foldl climb [] = names := by
    rw [split_append, split_relative h hne, List.foldl_append, foldl_climb_plain h]
    simp [climb]
  have habs : isAbs (relative names ++ [47]) = false := by
    rw [← isAbs_relative (fun c hc => element_of_plain (h c hc)) hne]
    cases hr : relative names with
    | nil => exact (hrel hr).elim
    | cons x r => rfl
  rw [relative_concat, if_neg hne, dir_append hc, clean, if_neg (by simp [habs]), hfold,
    if_neg hne, relative]

/-- `Join` of a relative path and a name. -/
theorem join_relative {names : List Bytes} (h : ∀ c ∈ names, Plain c) {c : Bytes} (hc : Plain c) :
    join [relative names, c] = relative (names ++ [c]) := by
  have hall : ∀ d ∈ names ++ [c], Plain d :=
    List.forall_mem_append.2 ⟨h, List.forall_mem_singleton.2 hc⟩
  rw [← clean_relative hall (by simp), relative_concat]
  by_cases hne : names = []
  · subst hne
    simp [join, relative, List.intercalate, hc.ne_nil]
  · have hrel : relative names ≠ [] := fun hn => hne ((relative_eq_nil h).1 hn)
    rw [if_neg hne, join, List.dropWhile_cons_of_neg (by simpa using hrel)]
    simp [List.intercalate]

theorem relative_cons (c : Bytes) {names : List Bytes} (h : names ≠ []) :
    relative (c :: names) = c ++ 47 :: relative names :=
  intercalate_cons c h

theorem relative_append {names below : List Bytes} (h : names ≠ []) (h' : below ≠ []) :
    relative (names ++ below) = relative names ++ 47 :: relative below := by
  induction names with
  | nil => exact absurd rfl h
  | cons c names ih =>
    by_cases hne : names = []
    · subst hne
      have hone : relative [c] = c := by simp [relative, List.intercalate]
      rw [List.singleton_append, relative_cons c h', hone]
    · rw [List.cons_append, relative_cons c (by simp [hne]), ih hne, relative_cons c hne,
        List.append_assoc, List.cons_append]

/-- **A path is or lies below another** just when its names start with those of the other. -/
theorem below_relative_iff {names below : List Bytes} (h : ∀ c ∈ names, Plain c)
    (h' : ∀ c ∈ below, Plain c) (hne : names ≠ []) :
    (relative below = relative names ∨ relative names ++ [47] <+: relative below) ↔
      names <+: below := by
  constructor
  · intro hpath
    have hbelow : below ≠ [] := by
      rintro rfl
      rcases hpath with heq | ⟨t, ht⟩
      · exact hne ((relative_eq_nil h).1 heq.symm)
      · have hnil : relative names ++ [47] ++ t = [] := ht
        simp at hnil
    rcases hpath with heq | ⟨t, ht⟩
    · have hnames : names = below := by
        rw [← split_relative h hne, ← heq, split_relative h' hbelow]
      exact ⟨[], (List.append_nil names).trans hnames⟩
    · refine ⟨split t, ?_⟩
      rw [← split_relative h' hbelow, ← ht, List.append_assoc, List.singleton_append, split_append,
        split_relative h hne]
  · rintro ⟨t, rfl⟩
    by_cases ht : t = []
    · exact .inl (by rw [ht, List.append_nil])
    · refine .inr ⟨relative t, ?_⟩
      rw [relative_append hne ht, List.append_assoc, List.singleton_append]

/-- Below a directory, the relative path of names leads along them. -/
theorem resolve_join_relative {base : Bytes} (hbase : isAbs base) {names : List Bytes}
    (h : ∀ c ∈ names, Plain c) : resolve (join [base, relative names]) = resolve base ++ names := by
  rw [join_of_isAbs hbase]
  simp only [List.flatMap_cons, List.flatMap_nil, List.append_nil]
  rw [foldl_descend_relative_names h, resolve_ofNames]
  exact List.forall_mem_append.2 ⟨fun _ => plain_of_mem_resolve, h⟩

end Filepath
