import FileSync.Merkle.Build

/-!
# Merkle — the order of a listing

A directory may be listed in any order, and `sort.Slice` is not stable: all that is known of its
result is that it is the list in an order of names.

* `Makes` are the nodes that can come of one description of a tree, with the children of each
  directory presented in any order and put by the sort in some order of names.
* `Relisted` says that two entries of a file system are the same up to the order of their listings.

**The order is forgotten** (`listing_order_forgotten`).  Of a description with distinct sibling
names there comes one node, and two directories that are the same up to their listings have, name
of the root apart, one tree.
-/

namespace FileSync.Merkle

/-- What `sort.Slice` by name may leave of a list of children. -/
structure SortsByName (children sorted : List Node) : Prop where
  perm : sorted.Perm children
  ordered : sorted.Pairwise fun a b => a.name ≤ b.name

theorem sortsByName_sortByName (children : List Node) :
    SortsByName children (Node.sortByName children) :=
  ⟨Node.perm_sortByName children, Node.sorted_sortByName children⟩

/-- Under distinct names there is one order. -/
theorem SortsByName.unique {children children' sorted sorted' : List Node}
    (h : SortsByName children sorted) (h' : SortsByName children' sorted')
    (hperm : children.Perm children') (hnames : (children.map Node.name).Nodup) :
    sorted = sorted' := by
  have hsame : sorted.Perm sorted' := h.perm.trans (hperm.trans h'.perm.symm)
  refine hsame.eq_of_pairwise ?_ h.ordered h'.ordered
  intro a b ha hb hab hba
  have ha' : a ∈ children := h.perm.mem_iff.1 ha
  have hb' : b ∈ children := h.perm.mem_iff.1 (hsame.mem_iff.2 hb)
  exact List.inj_on_of_nodup_map hnames ha' hb' (List.le_antisymm hab hba)

theorem newDirNode_perm {children children' : List Node} (hperm : children.Perm children')
    (hnames : (children.map Node.name).Nodup) (name : Bytes) (mode : UInt32) :
    newDirNode name mode children = newDirNode name mode children' := by
  have hsorted : Node.sortByName children = Node.sortByName children' :=
    (sortsByName_sortByName children).unique (sortsByName_sortByName children') hperm hnames
  rw [newDirNode, hsorted, newDirNode]

/-! ### Descriptions -/

/-- What the constructors are given for a tree. -/
inductive Description
  | file (name : Bytes) (mode : UInt32) (chunks : List Bytes)
  | dir (name : Bytes) (mode : UInt32) (children : List Description)

namespace Description

def name : Description → Bytes
  | file name _ _ => name
  | dir name _ _ => name

/-- In every directory the names are distinct. -/
inductive Distinct : Description → Prop
  | file (name : Bytes) (mode : UInt32) (chunks : List Bytes) : Distinct (.file name mode chunks)
  | dir (name : Bytes) (mode : UInt32) {children : List Description}
      (names : (children.map Description.name).Nodup) (below : ∀ d ∈ children, Distinct d) :
      Distinct (.dir name mode children)

/-- The tree, with the children presented as the description lists them. -/
def build : Description → Node
  | file name mode chunks => newFileNode name mode chunks
  | dir name mode children => newDirNode name mode (children.map build)

theorem name_build (d : Description) : d.build.name = d.name := by
  cases d <;> rw [build] <;> rfl

end Description

/-- `NewDirNode` after its sort. -/
def hashedDir (name : Bytes) (mode : UInt32) (sorted : List Node) : Node :=
  Node.computeDirHash ⟨name, .dir, [], mode, 0, sorted, []⟩

/-- The nodes that can be made bottom-up of a description. -/
inductive Makes : Description → Node → Prop
  | file (name : Bytes) (mode : UInt32) (chunks : List Bytes) :
      Makes (.file name mode chunks) (newFileNode name mode chunks)
  | dir (name : Bytes) (mode : UInt32) {children : List Description}
      {made presented sorted : List Node} (below : List.Forall₂ Makes children made)
      (order : presented.Perm made) (sorts : SortsByName presented sorted) :
      Makes (.dir name mode children) (hashedDir name mode sorted)

/-- Made one by one. -/
theorem forall₂_makes_iff {children : List Description} {made : List Node}
    (h : ∀ d ∈ children, ∀ n, Makes d n ↔ n = d.build) :
    List.Forall₂ Makes children made ↔ made = children.map Description.build := by
  induction children generalizing made with
  | nil => simp
  | cons d ds ih =>
    cases made with
    | nil => simp
    | cons n ns =>
      have hds : List.Forall₂ Makes ds ns ↔ ns = ds.map Description.build :=
        ih fun d' hd' => h d' (List.mem_cons_of_mem d hd')
      simp [h d List.mem_cons_self, hds]

/-- Of a description there comes the tree that is built in the order of the description. -/
theorem makes_iff_build {d : Description} (hd : d.Distinct) (n : Node) :
    Makes d n ↔ n = d.build := by
  induction hd generalizing n with
  | file name mode chunks =>
    rw [Description.build]
    constructor
    · rintro ⟨⟩
      rfl
    · rintro rfl
      exact .file name mode chunks
  | @dir name mode children hnames _ ih =>
    rw [Description.build]
    constructor
    · rintro ⟨⟩
      next made presented sorted horder hsorts hbelow =>
        obtain rfl := (forall₂_makes_iff ih).1 hbelow
        have hmade : ((children.map Description.build).map Node.name).Nodup := by
          simpa only [List.map_map, Function.comp_def, Description.name_build] using hnames
        have hone := (sortsByName_sortByName _).unique hsorts horder.symm hmade
        rw [newDirNode, hone, hashedDir]
    · rintro rfl
      exact .dir name mode ((forall₂_makes_iff ih).2 rfl) (List.Perm.refl _)
        (sortsByName_sortByName _)

/-! ### Listings of the file system -/

/-- The same entry, listed in other orders. -/
inductive Relisted : Os.Entry → Os.Entry → Prop
  | file (mode : UInt32) (content : Bytes) : Relisted (.file mode content) (.file mode content)
  | dir (mode : UInt32) {es mid es' : List (Bytes × Os.Entry)}
      (names : es.map Prod.fst = mid.map Prod.fst)
      (below : List.Forall₂ Relisted (es.map Prod.snd) (mid.map Prod.snd))
      (order : mid.Perm es') : Relisted (.dir mode es) (.dir mode es')

theorem buildEntries_congr {es mid : List (Bytes × Os.Entry)}
    (hnames : es.map Prod.fst = mid.map Prod.fst)
    (hbelow : List.Forall₂ Relisted (es.map Prod.snd) (mid.map Prod.snd))
    (h : ∀ x ∈ es, ∀ e', Relisted x.2 e' → ∀ name, buildNode name x.2 = buildNode name e') :
    buildEntries es = buildEntries mid := by
  induction es generalizing mid with
  | nil => rw [List.map_eq_nil_iff.1 hnames.symm]
  | cons x es ih =>
    cases mid with
    | nil => cases hnames
    | cons y mid =>
      rw [List.map_cons, List.map_cons, List.cons.injEq] at hnames
      rw [List.map_cons, List.map_cons, List.forall₂_cons] at hbelow
      have hx := h x List.mem_cons_self y.2 hbelow.1 x.1
      have hrest := ih hnames.2 hbelow.2 fun z hz => h z (List.mem_cons_of_mem x hz)
      rw [buildEntries, buildEntries, hx, hrest, hnames.1]

theorem buildNode_relisted {e e' : Os.Entry} (he : e.WF) (h : Relisted e e') (name : Bytes) :
    buildNode name e = buildNode name e' := by
  induction he generalizing e' name with
  | file mode content =>
    cases h
    rfl
  | @dir mode es hnames _ _ ih =>
    cases h with
    | @dir _ _ mid es' hsame hbelow horder =>
      have hmid : buildEntries es = buildEntries mid :=
        buildEntries_congr hsame hbelow fun x hx e' hrel name => ih x hx hrel name
      have hperm : (buildEntries mid).Perm (buildEntries es') := by
        rw [buildEntries_eq, buildEntries_eq]
        exact (horder.filter _).map _
      rw [buildNode, buildNode, hmid]
      exact newDirNode_perm hperm (hmid ▸ nodup_buildEntries hnames) _ _

/-- **The order is forgotten.**  Every node that can be made of a description with distinct sibling
names is one and the same node, with the hash, the size and the children in order at every level.
Two file systems that hold one directory, listed in other orders, are built into one tree, the
names of the two roots apart, which are not hashed. -/
theorem listing_order_forgotten {ν : Type} (answer : Proto.Request → ν → Proto.Exchange × ν) :
    (∀ d : Description, d.Distinct →
      Makes d d.build ∧ ∀ n m, Makes d n → Makes d m → n = m) ∧
    ∀ (w w' : World ν) (path path' : Bytes) (e e' : Os.Entry) (t t' : Tree),
      e.WF → Relisted e e' →
      Os.reach w.fs (Filepath.resolve path) = some e →
      Os.reach w'.fs (Filepath.resolve path') = some e' →
      ((buildFromFS path).run (handle answer) w).1 = .ok t →
      ((buildFromFS path').run (handle answer) w').1 = .ok t' →
      t'.root = t.root.map ({ · with name := Filepath.base path' }) ∧
        t.root.map Node.hash = t'.root.map Node.hash := by
  refine ⟨fun d hd => ⟨(makes_iff_build hd _).2 rfl, fun n m hn hm => ?_⟩, ?_⟩
  · rw [(makes_iff_build hd n).1 hn, (makes_iff_build hd m).1 hm]
  · intro w w' path path' e e' t t' he hrel hreach hreach' ht ht'
    obtain ⟨mode, es, hdir, rfl⟩ := run_buildFromFS ht
    obtain ⟨mode', es', hdir', rfl⟩ := run_buildFromFS ht'
    obtain rfl : e = .dir mode es := Option.some.inj (hreach.symm.trans hdir)
    obtain rfl : e' = .dir mode' es' := Option.some.inj (hreach'.symm.trans hdir')
    have hnode := buildNode_relisted he hrel (Filepath.base path')
    rw [← hnode]
    exact ⟨rfl, rfl⟩

/-- The directory `d` with the files `a` and `b`, presented the other way round. -/
theorem listing_order_forgotten_two_files :
    let a := newFileNode [97] 0 [[1]]
    let b := newFileNode [98] 0 []
    let file := Os.Entry.file 0 [7]
    let entry := Os.Entry.dir 0 [([97], file), ([98], file)]
    let relisted := Os.Entry.dir 0 [([98], file), ([97], file)]
    newDirNode [100] 0 [a, b] = newDirNode [100] 0 [b, a] ∧
      ∃ t t', ((buildFromFS [47]).run (handle fun _ s => (.error (.opening, .eof), s))
          (⟨some entry, 0, ()⟩ : World Unit)).1 = .ok t ∧
        ((buildFromFS [47]).run (handle fun _ s => (.error (.opening, .eof), s))
          (⟨some relisted, 0, ()⟩ : World Unit)).1 = .ok t' ∧
        t.root.map Node.hash = t'.root.map Node.hash := by
  intro a b file entry relisted
  obtain ⟨hmade, hbuilt⟩ := listing_order_forgotten
    fun _ (s : Unit) => (.error (.opening, .eof), s)
  constructor
  · -- The description, and the two ways to make it.
    let d := Description.dir [100] 0 [.file [97] 0 [[1]], .file [98] 0 []]
    have hd : d.Distinct := .dir _ _ (by decide) (by
      simp only [List.forall_mem_cons]
      exact ⟨.file _ _ _, .file _ _ _, by simp⟩)
    have hbelow : List.Forall₂ Makes [.file [97] 0 [[1]], .file [98] 0 []] [a, b] :=
      .cons (.file _ _ _) (.cons (.file _ _ _) .nil)
    have hab : Makes d (newDirNode [100] 0 [a, b]) :=
      .dir _ _ hbelow (List.Perm.refl _) (sortsByName_sortByName _)
    have hba : Makes d (newDirNode [100] 0 [b, a]) :=
      .dir _ _ hbelow (List.Perm.swap a b []) (sortsByName_sortByName _)
    exact (hmade d hd).2 _ _ hab hba
  · have hfile : Os.Entry.WF file := .file _ _
    have hplain : Filepath.Plain [97] ∧ Filepath.Plain [98] := by decide
    have hwf : Os.Entry.WF entry := .dir _ (by decide) (by simp [hplain]) (by simp [hfile])
    have hrel : Relisted entry relisted := .dir _ rfl
      (.cons (.file _ _) (.cons (.file _ _) .nil)) (List.Perm.swap _ _ [])
    exact ⟨_, _, rfl, rfl, (hbuilt ⟨some entry, 0, ()⟩ ⟨some relisted, 0, ()⟩ [47] [47] entry
      relisted _ _ hwf hrel rfl rfl rfl rfl).2⟩

end FileSync.Merkle
