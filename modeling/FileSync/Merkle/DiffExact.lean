import FileSync.Merkle.Diff

/-!
# Merkle — Diff is exact

What `Diff` is for, said without its walk: `Expected` gives, for two roots that may be missing, the
entry due at each relative path.

* a node that only one side has is due an entry if every pair of nodes above it, one of each side
  at one path, is two directories; so all of a one-sided subtree is;
* two nodes of different types at one path are due one, and two files of different hashes are.

**Exactness** (`diff_exact`).  For every iteration order, `Diff` returns one entry for each path
that is due one and no other entry, for trees with distinct sibling names in which equal hashes at
one path are only found on subtrees that are alike.
-/

namespace FileSync.Merkle

/-! ### The entries that are due -/

/-- The node at a relative path of a root that may be missing. -/
def subOf (root : Option Node) (p : List Bytes) : Option Node := root.bind (·.sub p)

/-- Wherever the two trees both have a node strictly above `p`, both nodes are directories. -/
def DirsAbove (l r : Option Node) (p : List Bytes) : Prop :=
  ∀ q, q <+: p → q ≠ p → ∀ a b, subOf l q = some a → subOf r q = some b →
    a.type = .dir ∧ b.type = .dir

/-- The name of the root, from the local tree if there is one. -/
def rootName : Option Node → Option Node → Bytes
  | some a, _ => a.name
  | none, some b => b.name
  | none, none => []

/-- The path string of a list of names below `parent`. -/
def pathTo (parent : Bytes) (names : List Bytes) : Bytes := names.foldl joinPath parent

/-- The entry due for what the two trees have at one path. -/
def entryFor (path : Bytes) : Option Node → Option Node → Option DiffResult
  | none, none => none
  | some a, none => some ⟨path, .added, some a, none, a.fileChunks⟩
  | none, some b => some ⟨path, .deleted, none, some b, b.fileChunks⟩
  | some a, some b =>
    if a.type ≠ b.type then some ⟨path, .modified, some a, some b, []⟩
    else if a.type = .file ∧ a.hash ≠ b.hash then
      some ⟨path, .modified, some a, some b, findDifferingChunks a.chunks b.chunks⟩
    else none

/-- `x` is the entry due at the relative path `p`. -/
structure Expected (parent : Bytes) (l r : Option Node) (p : List Bytes) (x : DiffResult) :
    Prop where
  above : DirsAbove l r p
  entry : entryFor (pathTo parent (rootName l r :: p)) (subOf l p) (subOf r p) = some x

/-- The same paths, with the same type, hash and chunks at each. -/
def Alike (a b : Node) : Prop :=
  ∀ p, (a.sub p).map (fun n => (n.type, n.hash, n.chunks)) =
    (b.sub p).map (fun n => (n.type, n.hash, n.chunks))

/-- Two nodes at one path have equal hashes only if they are alike. -/
def HashFaithful (l r : Option Node) : Prop :=
  ∀ p a b, subOf l p = some a → subOf r p = some b → a.hash = b.hash → Alike a b

/-! ### One name further down -/

section Descent

variable {parent : Bytes} {l r : Option Node} {name : Bytes} {p : List Bytes} {x : DiffResult}

theorem subOf_cons (root : Option Node) (name : Bytes) (p : List Bytes) :
    subOf root (name :: p) = subOf (root.bind (·.child name)) p := by
  cases root <;> rfl

theorem dirsAbove_nil : DirsAbove l r [] := by
  intro q hq hne
  exact (hne (List.prefix_nil.1 hq)).elim

theorem dirsAbove_cons : DirsAbove l r (name :: p) ↔
    (∀ a b, l = some a → r = some b → a.type = .dir ∧ b.type = .dir) ∧
      DirsAbove (l.bind (·.child name)) (r.bind (·.child name)) p := by
  constructor
  · intro h
    refine ⟨fun a b hl hr => h [] List.nil_prefix (by simp) a b ?_ ?_, fun q hq hne => ?_⟩
    · simp [subOf, hl]
    · simp [subOf, hr]
    · have := h (name :: q) (List.cons_prefix_cons.2 ⟨rfl, hq⟩) (by simpa using hne)
      simpa only [subOf_cons] using this
  · rintro ⟨hroot, hbelow⟩ q hq hne
    cases q with
    | nil =>
      intro a b ha hb
      exact hroot a b (by simpa [subOf] using ha) (by simpa [subOf] using hb)
    | cons m q =>
      obtain ⟨rfl, hq'⟩ := List.cons_prefix_cons.1 hq
      simpa only [subOf_cons] using hbelow q hq' (by simpa using hne)

/-- What is reached through the children named `name` is reached below that name. -/
theorem pathTo_descend (h : (l.bind (·.child name)).isSome ∨ (r.bind (·.child name)).isSome) :
    pathTo (joinPath parent (rootName l r))
        (rootName (l.bind (·.child name)) (r.bind (·.child name)) :: p) =
      pathTo parent (rootName l r :: name :: p) := by
  suffices hname : rootName (l.bind (·.child name)) (r.bind (·.child name)) = name by
    rw [hname]; rfl
  cases hl : l.bind (·.child name) with
  | some c =>
    obtain ⟨a, -, hc⟩ := Option.bind_eq_some_iff.1 hl
    exact Node.name_of_child hc
  | none =>
    obtain ⟨d, hd⟩ := Option.isSome_iff_exists.1 (h.resolve_left (by simp [hl]))
    obtain ⟨b, -, hd'⟩ := Option.bind_eq_some_iff.1 hd
    rw [hd]
    exact Node.name_of_child hd'

/-- The entries due below a child are the entries due for the two children. -/
theorem expected_cons : Expected parent l r (name :: p) x ↔
    (∀ a b, l = some a → r = some b → a.type = .dir ∧ b.type = .dir) ∧
      Expected (joinPath parent (rootName l r)) (l.bind (·.child name)) (r.bind (·.child name))
        p x := by
  have hentry :
      entryFor (pathTo parent (rootName l r :: name :: p)) (subOf l (name :: p))
          (subOf r (name :: p)) =
        entryFor (pathTo (joinPath parent (rootName l r))
          (rootName (l.bind (·.child name)) (r.bind (·.child name)) :: p))
          (subOf (l.bind (·.child name)) p) (subOf (r.bind (·.child name)) p) := by
    rw [subOf_cons, subOf_cons]
    -- Where neither side has the child, no entry is due and the path does not matter.
    by_cases h : (l.bind (·.child name)).isSome ∨ (r.bind (·.child name)).isSome
    · rw [pathTo_descend h]
    · simp only [not_or, Option.not_isSome_iff_eq_none] at h
      simp only [h.1, h.2]
      rfl
  constructor
  · rintro ⟨habove, hx⟩
    obtain ⟨hdirs, habove⟩ := dirsAbove_cons.1 habove
    exact ⟨hdirs, habove, hentry ▸ hx⟩
  · rintro ⟨hdirs, habove, hx⟩
    exact ⟨dirsAbove_cons.2 ⟨hdirs, habove⟩, hentry ▸ hx⟩

theorem expected_nil : Expected parent l r [] x ↔
    entryFor (joinPath parent (rootName l r)) l r = some x := by
  have hsub (o : Option Node) : subOf o [] = o := by cases o <;> rfl
  constructor
  · rintro ⟨-, hx⟩
    simpa [hsub, pathTo] using hx
  · intro hx
    exact ⟨dirsAbove_nil, by simpa [hsub, pathTo] using hx⟩

theorem HashFaithful.descend (h : HashFaithful l r) (name : Bytes) :
    HashFaithful (l.bind (·.child name)) (r.bind (·.child name)) := by
  intro p a b ha hb
  rw [← subOf_cons] at ha hb
  exact h (name :: p) a b ha hb

end Descent

/-! ### One-sided subtrees -/

/-- `collectAll` has one entry for each node of the subtree. -/
theorem enumerates_collectAll {n : Node} (hn : n.Distinct) (parent : Bytes) (ty : DiffType) :
    Enumerates (collectAll n parent ty) fun p x =>
      ∃ m, n.sub p = some m ∧ collected (pathTo parent (n.name :: p)) ty m = x := by
  induction n using Node.induction generalizing parent with
  | h n ih =>
    rw [collectAll_eq]
    refine Enumerates.node (some _) Node.name (fun x => ?_) hn.names (fun c hc => ?_)
      (fun name hname p x => ?_)
    · simp [pathTo]
    · refine (ih c hc (hn.below hc) _).congr fun p x => ?_
      simp [hn.child_name hc, pathTo]
    · have hnone : n.child name = none :=
        Node.child_eq_none.2 fun c hc he => hname (he ▸ List.mem_map_of_mem hc)
      simp [hnone]

/-- With one root missing there is no type to change on the way. -/
theorem expected_of_none {l r : Option Node} (h : l = none ∨ r = none) {parent : Bytes}
    {p : List Bytes} {x : DiffResult} : Expected parent l r p x ↔
      entryFor (pathTo parent (rootName l r :: p)) (subOf l p) (subOf r p) = some x := by
  refine ⟨fun hx => hx.entry, fun hx => ⟨fun q _ _ a b ha hb => ?_, hx⟩⟩
  rcases h with rfl | rfl
  · cases ha
  · cases hb

theorem expected_added {n : Node} {parent : Bytes} {p : List Bytes} {x : DiffResult} :
    Expected parent (some n) none p x ↔
      ∃ m, n.sub p = some m ∧ collected (pathTo parent (n.name :: p)) .added m = x := by
  rw [expected_of_none (.inr rfl)]
  cases hm : n.sub p with
  | none => simp [subOf, hm, entryFor]
  | some m => simp [subOf, hm, entryFor, collected, rootName]

theorem expected_deleted {n : Node} {parent : Bytes} {p : List Bytes} {x : DiffResult} :
    Expected parent none (some n) p x ↔
      ∃ m, n.sub p = some m ∧ collected (pathTo parent (n.name :: p)) .deleted m = x := by
  rw [expected_of_none (.inl rfl)]
  cases hm : n.sub p with
  | none => simp [subOf, hm, entryFor]
  | some m => simp [subOf, hm, entryFor, collected, rootName]

/-! ### Two nodes -/

theorem Alike.not_expected {a b : Node} (h : Alike a b) {parent : Bytes} {p : List Bytes}
    {x : DiffResult} : ¬ Expected parent (some a) (some b) p x := by
  rintro ⟨-, hx⟩
  have hp := h p
  cases ha : a.sub p <;> cases hb : b.sub p <;> simp [ha, hb, subOf, entryFor] at hp hx
  simp [hp] at hx

section Directories

variable {a b : Node} (ord : DiffOrder) (pos : List Bytes) (path : Bytes)

theorem lookup_childMap (hb : b.Distinct) (name : Bytes) :
    (childMap b.children).lookup name = b.child name := by
  rw [childMap, lookup_assign hb.names]
  simp [Node.child]

theorem lookup_localResults (ha : a.Distinct) (hb : b.Distinct) (name : Bytes) :
    (localResults ord pos path a b).lookup name =
      (a.child name).map fun c => diffPair ord (pos ++ [name]) path (some c) (b.child name) := by
  rw [localResults, diffChildren_eq, lookup_assign (by simpa [Function.comp_def] using ha.names),
    List.find?_map, Option.map_map]
  refine Option.map_congr fun c hc => ?_
  simp only [Function.comp, Node.name_of_child hc, lookup_childMap hb]

/-- The names visited at two directories: the local ones, then the others. -/
def visited (a b : Node) : List Bytes :=
  ord.range (pos, .here) (localResults ord pos path a b).keys ++
    (ord.range (pos, .there) (childMap b.children).keys).filter (· ∉ localResults ord pos path a b)

variable {ord pos path}

theorem mem_localResults (ha : a.Distinct) (hb : b.Distinct) {name : Bytes} :
    name ∈ localResults ord pos path a b ↔ (a.child name).isSome := by
  rw [← AList.lookup_isSome, lookup_localResults ord pos path ha hb, Option.isSome_map]

theorem mem_childMap (hb : b.Distinct) {name : Bytes} :
    name ∈ childMap b.children ↔ (b.child name).isSome := by
  rw [← AList.lookup_isSome, lookup_childMap hb]

theorem mem_visited (ha : a.Distinct) (hb : b.Distinct) {name : Bytes} :
    name ∈ visited ord pos path a b ↔ (a.child name).isSome ∨ (b.child name).isSome := by
  rw [visited, List.mem_append, List.mem_filter, (ord.perm _ _).mem_iff, (ord.perm _ _).mem_iff,
    decide_eq_true_iff]
  simp only [← AList.mem_keys, mem_localResults ha hb, mem_childMap hb]
  by_cases h : (a.child name).isSome <;> simp [h]

theorem nodup_visited : (visited ord pos path a b).Nodup := by
  rw [visited, List.nodup_append]
  refine ⟨(ord.perm _ _).nodup_iff.2 (AList.keys_nodup _),
    ((ord.perm _ _).nodup_iff.2 (AList.keys_nodup _)).filter _, ?_⟩
  rintro n hn _ hm rfl
  rw [(ord.perm _ _).mem_iff] at hn
  exact of_decide_eq_true (List.mem_filter.1 hm).2 (AList.mem_keys.2 hn)

/-- At two directories of different hashes each name is visited once, with the children it names. -/
theorem diffNodes_dirs (ha : a.Distinct) (hb : b.Distinct) (hhash : a.hash ≠ b.hash)
    (hta : a.type = .dir) (htb : b.type = .dir) :
    diffNodes ord pos a b path =
      (visited ord pos (joinPath path a.name) a b).flatMap fun name =>
        diffPair ord (pos ++ [name]) (joinPath path a.name) (a.child name) (b.child name) := by
  rw [diffNodes_eq, if_neg hhash, if_neg (by simp [hta, htb]), if_neg (by simp [hta]), visited,
    List.flatMap_append]
  congr 1
  · refine List.flatMap_congr fun name hn => ?_
    rw [(ord.perm _ _).mem_iff] at hn
    obtain ⟨c, hc⟩ := Option.isSome_iff_exists.1 ((mem_localResults ha hb).1 (AList.mem_keys.2 hn))
    rw [lookup_localResults ord pos _ ha hb, hc]
    rfl
  · refine List.flatMap_congr fun name hn => ?_
    have hnone : a.child name = none := by
      simpa using fun h => of_decide_eq_true (List.mem_filter.1 hn).2 ((mem_localResults ha hb).2 h)
    rw [hnone, lookup_childMap hb]
    cases b.child name <;> rfl

end Directories

section Cases

variable {ord : DiffOrder} {pos : List Bytes} {path : Bytes} {a b : Node}

/-- Two directories are due no entry themselves. -/
theorem enumerates_dirs (ha : a.Distinct) (hb : b.Distinct) (hhash : a.hash ≠ b.hash)
    (hdirs : a.type = .dir ∧ b.type = .dir)
    (hbelow : ∀ name, Enumerates
      (diffPair ord (pos ++ [name]) (joinPath path a.name) (a.child name) (b.child name))
      (Expected (joinPath path a.name) (a.child name) (b.child name))) :
    Enumerates (diffNodes ord pos a b path) (Expected path (some a) (some b)) := by
  have hroots : ∀ a' b', some a = some a' → some b = some b' → a'.type = .dir ∧ b'.type = .dir := by
    rintro _ _ ⟨⟩ ⟨⟩
    exact hdirs
  rw [diffNodes_dirs ha hb hhash hdirs.1 hdirs.2]
  refine Enumerates.node none id (fun x => ?_) (by simpa using nodup_visited)
    (fun name _ => (hbelow name).congr fun p x => ?_) (fun name hname p x hx => ?_)
  · simp [expected_nil, entryFor, hdirs]
  · exact (expected_cons.trans (and_iff_right hroots)).symm
  · -- A name that neither directory has is due nothing.
    rw [List.map_id, mem_visited ha hb, not_or, Option.not_isSome_iff_eq_none,
      Option.not_isSome_iff_eq_none] at hname
    have hentry := (expected_cons.1 hx).2.entry
    simp only [Option.bind_some, hname] at hentry
    cases hentry

/-- Two nodes that are not both directories are due an entry only at their own path. -/
theorem enumerates_unlike (hhash : a.hash ≠ b.hash) (hdirs : ¬ (a.type = .dir ∧ b.type = .dir)) :
    Enumerates (diffNodes ord pos a b path) (Expected path (some a) (some b)) := by
  have hbelow : ∀ name p x, ¬ Expected path (some a) (some b) (name :: p) x :=
    fun name p x hx => hdirs ((expected_cons.1 hx).1 a b rfl rfl)
  rw [diffNodes_eq, if_neg hhash]
  by_cases htypes : a.type = b.type
  · have hfile : a.type = .file := by
      cases ha : a.type with
      | file => rfl
      | dir => exact (hdirs ⟨ha, htypes ▸ ha⟩).elim
    rw [if_neg (by simpa using htypes), if_pos hfile]
    exact Enumerates.leaf
      (fun x => by simp [expected_nil, entryFor, rootName, ← htypes, hfile, hhash])
      hbelow
  · rw [if_pos htypes]
    exact Enumerates.leaf (fun x => by simp [expected_nil, entryFor, rootName, htypes]) hbelow

end Cases

theorem enumerates_diffPair_none (ord : DiffOrder) {r : Option Node} (hr : ∀ b ∈ r, b.Distinct)
    (pos : List Bytes) (path : Bytes) :
    Enumerates (diffPair ord pos path none r) (Expected path none r) := by
  cases r with
  | none => exact Enumerates.nil fun p x hx => by simpa [subOf, entryFor] using hx.entry
  | some b =>
    exact (enumerates_collectAll (hr b rfl) path .deleted).congr fun p x => expected_deleted.symm

theorem enumerates_diffPair_some (ord : DiffOrder) {a : Node} (ha : a.Distinct) {r : Option Node}
    (hr : ∀ b ∈ r, b.Distinct) (hf : HashFaithful (some a) r) (pos : List Bytes) (path : Bytes) :
    Enumerates (diffPair ord pos path (some a) r) (Expected path (some a) r) := by
  induction a using Node.induction generalizing r pos path with
  | h a ih =>
    cases r with
    | none => exact (enumerates_collectAll ha path .added).congr fun p x => expected_added.symm
    | some b =>
      have hb : b.Distinct := hr b rfl
      rw [diffPair]
      by_cases hhash : a.hash = b.hash
      · rw [diffNodes_eq, if_pos hhash]
        exact Enumerates.nil fun p x => (hf [] a b rfl rfl hhash).not_expected
      by_cases hdirs : a.type = .dir ∧ b.type = .dir
      · refine enumerates_dirs ha hb hhash hdirs fun name => ?_
        have hb' : ∀ d ∈ b.child name, d.Distinct :=
          fun d hd => hb.below (Node.mem_of_child hd)
        cases hc : a.child name with
        | none => exact enumerates_diffPair_none ord hb' _ _
        | some c =>
          have hca := Node.mem_of_child hc
          have hf' : HashFaithful (some c) (b.child name) := by
            simpa only [Option.bind_some, hc] using hf.descend name
          exact ih c hca (ha.below hca) hb' hf' _ _
      · exact enumerates_unlike hhash hdirs

theorem enumerates_diff (ord : DiffOrder) (here remote : Option Tree)
    (hl : ∀ a ∈ rootOf here, a.Distinct) (hr : ∀ b ∈ rootOf remote, b.Distinct)
    (hf : HashFaithful (rootOf here) (rootOf remote)) :
    Enumerates (diff ord here remote) (Expected [] (rootOf here) (rootOf remote)) := by
  rw [diff_eq]
  cases hroot : rootOf here with
  | none => exact enumerates_diffPair_none ord hr _ _
  | some a => exact enumerates_diffPair_some ord (hl a hroot) hr (hroot ▸ hf) _ _

/-! ### Path strings -/

/-- No name in the tree has a separator. -/
def Node.NoSlash (n : Node) : Prop := ∀ m ∈ n.nodes, 47 ∉ m.name

instance (n : Node) : Decidable n.NoSlash := inferInstanceAs (Decidable (∀ m ∈ n.nodes, _))

theorem Node.NoSlash.names {n m : Node} {p : List Bytes} (h : n.NoSlash) (hp : n.sub p = some m) :
    ∀ name ∈ p, 47 ∉ name := by
  induction p generalizing n with
  | nil => simp
  | cons name p ih =>
    rw [Node.sub_cons, Option.bind_eq_some_iff] at hp
    obtain ⟨c, hc, hp⟩ := hp
    have hcn := Node.mem_of_child hc
    rintro x (_ | ⟨_, hx⟩)
    · exact Node.name_of_child hc ▸ h c (Node.mem_nodes_child hcn c.mem_nodes_self)
    · exact ih (fun k hk => h k (Node.mem_nodes_child hcn hk)) hp x hx

theorem pathTo_of_ne_nil {parent : Bytes} (h : parent ≠ []) (p : List Bytes) :
    pathTo parent p = parent ++ p.flatMap (47 :: ·) := by
  induction p generalizing parent with
  | nil => simp [pathTo]
  | cons name p ih =>
    have := @ih (joinPath parent name) (by simp [joinPath, h])
    simpa [pathTo, joinPath, h] using this

theorem takeWhile_names {name : Bytes} (h : 47 ∉ name) (p : List Bytes) :
    (name ++ p.flatMap (47 :: ·)).takeWhile (· ≠ 47) = name := by
  rw [List.takeWhile_append_of_pos fun b hb => by simpa using ne_of_mem_of_not_mem hb h]
  cases p <;> simp

theorem names_injective {p q : List Bytes} (hp : ∀ name ∈ p, 47 ∉ name)
    (hq : ∀ name ∈ q, 47 ∉ name) (h : p.flatMap (47 :: ·) = q.flatMap (47 :: ·)) : p = q := by
  induction p generalizing q with
  | nil => cases q <;> simp_all
  | cons name p ih =>
    cases q with
    | nil => simp at h
    | cons name' q =>
      rw [List.forall_mem_cons] at hp hq
      simp only [List.flatMap_cons, List.cons_append, List.cons.injEq, true_and] at h
      have hname : name = name' := by
        rw [← takeWhile_names hp.1 p, h, takeWhile_names hq.1 q]
      subst hname
      rw [ih hp.2 hq.2 (List.append_cancel_left h)]

theorem path_of_entryFor {path : Bytes} {l r : Option Node} {x : DiffResult}
    (h : entryFor path l r = some x) : x.path = path := by
  unfold entryFor at h
  split at h
  · cases h
  · cases h; rfl
  · cases h; rfl
  · split at h
    · cases h; rfl
    · split at h <;> cases h
      rfl

/-- The path string of an entry tells its position. -/
theorem Expected.pos_injective {l r : Option Node} (hroot : rootName l r ≠ [])
    (hl : ∀ a ∈ l, a.NoSlash) (hr : ∀ b ∈ r, b.NoSlash) {p q : List Bytes} {x y : DiffResult}
    (hx : Expected [] l r p x) (hy : Expected [] l r q y) (h : x.path = y.path) : p = q := by
  have hnames {p : List Bytes} {x : DiffResult} (hx : Expected [] l r p x) :
      ∀ name ∈ p, 47 ∉ name := by
    cases hlp : subOf l p with
    | some m =>
      obtain ⟨a, rfl, ha⟩ := Option.bind_eq_some_iff.1 hlp
      exact (hl a rfl).names ha
    | none =>
      cases hrp : subOf r p with
      | some m =>
        obtain ⟨b, rfl, hb⟩ := Option.bind_eq_some_iff.1 hrp
        exact (hr b rfl).names hb
      | none =>
        have hentry := hx.entry
        rw [hlp, hrp] at hentry
        cases hentry
  have hpath {p : List Bytes} : pathTo [] (rootName l r :: p) =
      rootName l r ++ p.flatMap (47 :: ·) := pathTo_of_ne_nil hroot p
  rw [path_of_entryFor hx.entry, path_of_entryFor hy.entry, hpath, hpath] at h
  exact names_injective (hnames hx) (hnames hy) (List.append_cancel_left h)

/-! ### Exactness -/

/-- **Exactness of `Diff`.**  Whatever the iteration orders, there is one entry for each path that
is due one and no other; if the root has a name and no name has a separator, no two entries have the
same path string.  A tree that is nil or has no root counts as missing, so that every node of the
other is due an entry. -/
theorem diff_exact (ord : DiffOrder) (here remote : Option Tree)
    (hl : ∀ a ∈ rootOf here, a.Distinct) (hr : ∀ b ∈ rootOf remote, b.Distinct)
    (hf : HashFaithful (rootOf here) (rootOf remote)) :
    Enumerates (diff ord here remote) (Expected [] (rootOf here) (rootOf remote)) ∧
      (rootName (rootOf here) (rootOf remote) ≠ [] → (∀ a ∈ rootOf here, a.NoSlash) →
        (∀ b ∈ rootOf remote, b.NoSlash) →
        ((diff ord here remote).map DiffResult.path).Nodup) := by
  have henum := enumerates_diff ord here remote hl hr hf
  exact ⟨henum, fun hroot hsl hsr => henum.nodup_map _ fun p q x y hx hy =>
    hx.pos_injective hroot hsl hsr hy⟩

/-- Trees that share no hash. -/
theorem HashFaithful.of_disjoint {a b : Node}
    (h : ∀ m ∈ a.nodes, ∀ n ∈ b.nodes, m.hash ≠ n.hash) : HashFaithful (some a) (some b) :=
  fun _ m n hm hn he =>
    (h m (Node.mem_nodes_of_sub hm) n (Node.mem_nodes_of_sub hn) he).elim

/-- A root with a file that changed and one that only the local tree has. -/
theorem diff_exact_changed_and_added :
    let l : Node := ⟨[114], .dir, [1], 0, 0,
      [⟨[97], .file, [2], 0, 0, [], [[7]]⟩, ⟨[98], .file, [3], 0, 0, [], [[8]]⟩], []⟩
    let r : Node := ⟨[114], .dir, [4], 0, 0, [⟨[97], .file, [5], 0, 0, [], [[9]]⟩], []⟩
    Enumerates (diff (RangeOrder.listed _ _) (some ⟨some l⟩) (some ⟨some r⟩))
        (Expected [] (some l) (some r)) ∧
      ((diff (RangeOrder.listed _ _) (some ⟨some l⟩) (some ⟨some r⟩)).map
        DiffResult.path).Nodup := by
  intro l r
  have h := diff_exact (RangeOrder.listed _ _) (some ⟨some l⟩) (some ⟨some r⟩)
    (by rintro _ ⟨⟩; decide) (by rintro _ ⟨⟩; decide) (HashFaithful.of_disjoint (by decide))
  exact ⟨h.1, h.2 (by decide) (by rintro _ ⟨⟩; decide) (by rintro _ ⟨⟩; decide)⟩

end FileSync.Merkle
