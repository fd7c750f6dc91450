import FileSync.Merkle.Tree

/-!
# Merkle — what a root hash commits to

A node's hash is the SHA-256 of its *face* written out without tags or delimiters: the chunk hashes
of a file, the names and hashes of the children of a directory.  Two nodes whose faces differ but
are written with the same bytes get one hash, and a difference there is hidden from every
comparison of hashes above them.

* `Built` are the trees that `newFileNode` and `newDirNode` make.
* `SameTree` says that two trees have the same relative paths, with the same type and, for files,
  the same chunks at each of them.
* `Confused` says that at some path two different faces are written with the same bytes.

**Soundness of the root hash** (`hash_sound_iff_not_confused`).  Equal root hashes mean the same
tree exactly for the pairs of trees that are not confused; `empty_file_confused_with_empty_dir` is a
pair that is.
-/

open Sha256

namespace FileSync.Merkle

/-- The trees built with `NewFileNode` and `NewDirNode`, under distinct sibling names that are not
empty and have no separator. -/
inductive Built : Node → Prop
  | file (name : Bytes) (mode : UInt32) (chunks : List Bytes) : Built (newFileNode name mode chunks)
  | dir (name : Bytes) (mode : UInt32) {children : List Node}
      (below : ∀ c ∈ children, Built c)
      (distinct : (children.map Node.name).Nodup)
      (names : ∀ c ∈ children, c.name ≠ [] ∧ 47 ∉ c.name) :
      Built (newDirNode name mode children)

/-- What a tree holds at one path: a directory, or a file with its chunk list. -/
def Node.entry (n : Node) : NodeType × List Bytes := (n.type, if n.isDir then [] else n.chunks)

/-- The same relative paths, with the same type and chunks at each. -/
def SameTree (t u : Node) : Prop := ∀ p, (t.sub p).map Node.entry = (u.sub p).map Node.entry

/-- What a node's hash is computed from. -/
inductive Face
  | file (chunks : List Bytes)
  | dir (listing : List (Bytes × Bytes))
deriving DecidableEq

/-- The bytes written to the hasher. -/
def Face.bytes : Face → Bytes
  | .file chunks => chunks.flatten
  | .dir listing => listing.flatMap fun e => e.1 ++ e.2

namespace Node

/-- The names and hashes of the children. -/
def listing (n : Node) : List (Bytes × Bytes) := n.children.map fun c => (c.name, c.hash)

def face (n : Node) : Face :=
  match n.type with
  | .file => .file n.chunks
  | .dir => .dir n.listing

theorem bytes_face (n : Node) : n.face.bytes = n.preimage := by
  unfold face preimage
  cases n.type <;> simp [Face.bytes, listing, List.flatMap_map]

end Node

/-- Somewhere at one path, below directories with equal faces, the faces of the two trees differ
but are written with the same bytes. -/
inductive Confused : Node → Node → Prop
  | here {a b : Node} (ne : a.face ≠ b.face) (bytes : a.face.bytes = b.face.bytes) : Confused a b
  | deeper {a b c d : Node} {name : Bytes} (face : a.face = b.face) (left : a.child name = some c)
      (right : b.child name = some d) (h : Confused c d) : Confused a b

/-! ### Built trees -/

namespace Built

theorem hash_eq {n : Node} (h : Built n) : n.hash = (sum256 n.preimage).bytes := by
  cases h with
  | file => exact hash_newFileNode ..
  | dir => exact hash_newDirNode ..

theorem children {n c : Node} (h : Built n) (hc : c ∈ n.children) : Built c := by
  cases h with
  | file => cases hc
  | dir _ _ below _ _ => exact below c ((Node.perm_sortByName _).mem_iff.1 hc)

theorem nodup_names {n : Node} (h : Built n) : (n.children.map Node.name).Nodup := by
  cases h with
  | file => exact List.nodup_nil
  | dir _ _ _ distinct _ => exact (((Node.perm_sortByName _).map Node.name).nodup_iff).2 distinct

theorem sorted {n : Node} (h : Built n) : n.children.Pairwise fun a b => a.name ≤ b.name := by
  cases h with
  | file => exact List.Pairwise.nil
  | dir => exact Node.sorted_sortByName _

theorem children_of_file {n : Node} (h : Built n) (ht : n.type = .file) : n.children = [] := by
  cases h with
  | file => rfl
  | dir => cases ht

theorem distinct {n : Node} (h : Built n) : n.Distinct := by
  induction n using Node.induction with
  | h n ih => exact .node h.nodup_names fun c hc => ih c hc (h.children hc)

/-- Nodes with the same face have the same hash. -/
theorem hash_of_face {a b : Node} (ha : Built a) (hb : Built b) (h : a.face = b.face) :
    a.hash = b.hash := by
  rw [ha.hash_eq, hb.hash_eq, ← Node.bytes_face, ← Node.bytes_face, h]

/-- Nodes with the same hash are written with the same bytes. -/
theorem bytes_of_hash {a b : Node} {S : Set Bytes} (hS : NoCollision S) (ha : Built a)
    (hb : Built b) (hSa : a.preimage ∈ S) (hSb : b.preimage ∈ S) (h : a.hash = b.hash) :
    a.face.bytes = b.face.bytes := by
  rw [ha.hash_eq, hb.hash_eq] at h
  rw [Node.bytes_face, Node.bytes_face]
  exact hS hSa hSb (Digest.ext_bytes h)

end Built

/-! ### Faces and children -/

theorem Node.listing_find (n : Node) (name : Bytes) :
    (n.child name).map (fun c => (c.name, c.hash)) = n.listing.find? (·.1 = name) := by
  rw [Node.listing, List.find?_map]
  rfl

theorem Node.listing_of_face {a b : Node} (ha : Built a) (hb : Built b) (h : a.face = b.face) :
    a.type = b.type ∧ a.listing = b.listing := by
  unfold Node.face at h
  cases hta : a.type <;> cases htb : b.type <;> simp only [hta, htb, reduceCtorEq] at h
  · simp [Node.listing, ha.children_of_file hta, hb.children_of_file htb]
  · exact ⟨rfl, Face.dir.inj h⟩

theorem Node.entry_of_face {a b : Node} (h : a.face = b.face) : a.entry = b.entry := by
  unfold Node.face at h
  unfold Node.entry Node.isDir
  cases hta : a.type <;> cases htb : b.type <;> simp_all

/-- Equal faces have children of the same names, with equal hashes. -/
theorem Node.child_of_face {a b : Node} (ha : Built a) (hb : Built b) (h : a.face = b.face)
    (name : Bytes) :
    (a.child name = none ∧ b.child name = none) ∨
      ∃ c d, a.child name = some c ∧ b.child name = some d ∧ c.hash = d.hash := by
  have hfind := Node.listing_find a name
  rw [(Node.listing_of_face ha hb h).2, ← Node.listing_find] at hfind
  cases hc : a.child name <;> cases hd : b.child name <;> simp [hc, hd] at hfind
  · exact Or.inl ⟨rfl, rfl⟩
  · exact Or.inr ⟨_, _, rfl, rfl, hfind.2⟩

/-- The children at one name of two trees that are the same are the same. -/
theorem SameTree.child {a b : Node} (h : SameTree a b) (name : Bytes) :
    (a.child name = none ∧ b.child name = none) ∨
      ∃ c d, a.child name = some c ∧ b.child name = some d ∧ SameTree c d := by
  have hone := h [name]
  cases hc : a.child name <;> cases hd : b.child name <;> simp [hc, hd] at hone
  · exact Or.inl ⟨rfl, rfl⟩
  · refine Or.inr ⟨_, _, rfl, rfl, fun p => ?_⟩
    simpa [hc, hd] using h (name :: p)

/-! ### The same tree has the same face -/

/-- A directory's listing is determined by which child it has at each name. -/
theorem Node.mem_listing {n : Node} (h : Built n) {e : Bytes × Bytes} :
    e ∈ n.listing ↔ ∃ c, n.child e.1 = some c ∧ c.hash = e.2 := by
  constructor
  · intro he
    obtain ⟨c, hc, rfl⟩ := List.mem_map.1 he
    exact ⟨c, h.distinct.child_name hc, rfl⟩
  · rintro ⟨c, hc, hh⟩
    exact List.mem_map.2 ⟨c, mem_of_child hc, Prod.ext (name_of_child hc) hh⟩

theorem Node.listing_ext {a b : Node} (ha : Built a) (hb : Built b)
    (h : ∀ e, e ∈ a.listing ↔ e ∈ b.listing) : a.listing = b.listing := by
  have nodup {n : Node} (hn : Built n) : n.listing.Nodup := by
    refine List.Nodup.of_map Prod.fst ?_
    simpa [Node.listing, Function.comp_def] using hn.nodup_names
  have sorted {n : Node} (hn : Built n) : n.listing.Pairwise fun e f => e.1 ≤ f.1 :=
    List.pairwise_map.2 hn.sorted
  refine List.Perm.eq_of_pairwise ?_ (sorted ha) (sorted hb)
    ((List.perm_ext_iff_of_nodup (nodup ha) (nodup hb)).2 h)
  -- Entries of one name are the entry of the one child of that name.
  intro e f he hf hef hfe
  have hname : e.1 = f.1 := List.le_antisymm hef hfe
  obtain ⟨c, hc, hch⟩ := (Node.mem_listing ha).1 he
  obtain ⟨d, hd, hdh⟩ := (Node.mem_listing ha).1 ((h f).2 hf)
  rw [← hname, hc, Option.some_inj] at hd
  subst hd
  exact Prod.ext hname (hch ▸ hdh)

theorem SameTree.face {a b : Node} (ha : Built a) (hb : Built b) (h : SameTree a b) :
    a.face = b.face := by
  induction a using Node.induction generalizing b with
  | h a ih =>
    have hentry : a.entry = b.entry := by simpa using h []
    have htype : a.type = b.type := congrArg Prod.fst hentry
    cases ht : a.type with
    | file =>
      have hchunks := congrArg Prod.snd hentry
      simp only [Node.entry, Node.isDir, ← htype, ht] at hchunks
      simpa [Node.face, ← htype, ht] using hchunks
    | dir =>
      suffices a.listing = b.listing by simp [Node.face, ← htype, ht, this]
      refine Node.listing_ext ha hb fun e => ?_
      rw [Node.mem_listing ha, Node.mem_listing hb]
      rcases h.child e.1 with ⟨hc, hd⟩ | ⟨c, d, hc, hd, hsame⟩
      · simp [hc, hd]
      · have hcb := ha.children (Node.mem_of_child hc)
        have hdb := hb.children (Node.mem_of_child hd)
        have hface := ih c (Node.mem_of_child hc) hcb hdb hsame
        simp [hc, hd, hcb.hash_of_face hdb hface]

/-! ### Soundness of the root hash -/

theorem not_sameTree_of_confused {a b : Node} (ha : Built a) (hb : Built b) (h : Confused a b) :
    ¬ SameTree a b := by
  induction h with
  | here ne _ => exact fun hsame => ne (hsame.face ha hb)
  | deeper _ left right _ ih =>
    intro hsame
    rcases hsame.child _ with ⟨hc, -⟩ | ⟨c', d', hc, hd, hsame'⟩
    · rw [left] at hc
      cases hc
    · rw [left, Option.some_inj] at hc
      rw [right, Option.some_inj] at hd
      subst hc hd
      exact ih (ha.children (Node.mem_of_child left)) (hb.children (Node.mem_of_child right))
        hsame'

theorem Confused.hash {a b : Node} (ha : Built a) (hb : Built b) (h : Confused a b) :
    a.hash = b.hash := by
  cases h with
  | here _ bytes =>
    rw [Node.bytes_face, Node.bytes_face] at bytes
    rw [ha.hash_eq, hb.hash_eq, bytes]
  | deeper face _ _ _ => exact ha.hash_of_face hb face

theorem sameTree_of_hash {S : Set Bytes} (hS : NoCollision S) {a b : Node} (ha : Built a)
    (hb : Built b) (hSa : ∀ n ∈ a.nodes, n.preimage ∈ S) (hSb : ∀ n ∈ b.nodes, n.preimage ∈ S)
    (hconf : ¬ Confused a b) (h : a.hash = b.hash) : SameTree a b := by
  induction a using Node.induction generalizing b with
  | h a ih =>
    have hface : a.face = b.face := by
      by_contra hne
      exact hconf (.here hne (ha.bytes_of_hash hS hb (hSa a a.mem_nodes_self)
        (hSb b b.mem_nodes_self) h))
    intro p
    cases p with
    | nil => simpa using Node.entry_of_face hface
    | cons name p =>
      rcases Node.child_of_face ha hb hface name with ⟨hc, hd⟩ | ⟨c, d, hc, hd, hhash⟩
      · simp [hc, hd]
      · have hca := Node.mem_of_child hc
        have hdb := Node.mem_of_child hd
        simpa [hc, hd] using ih c hca (ha.children hca) (hb.children hdb)
          (fun n hn => hSa n (Node.mem_nodes_child hca hn))
          (fun n hn => hSb n (Node.mem_nodes_child hdb hn))
          (fun hcd => hconf (.deeper hface hc hd hcd)) hhash p

/-- The inputs hashed when the two trees are built. -/
def hashedInputs (t u : Node) : List Bytes := (t.nodes ++ u.nodes).map Node.preimage

theorem preimage_mem_hashedInputs {t u n : Node} (h : n ∈ t.nodes ∨ n ∈ u.nodes) :
    n.preimage ∈ hashedInputs t u :=
  List.mem_map_of_mem (List.mem_append.2 h)

/-- **Soundness of the root hash.**  For two built trees on whose inputs SHA-256 does not collide,
"equal hashes only for the same tree" holds exactly when they are not confused. -/
theorem hash_sound_iff_not_confused {t u : Node} (ht : Built t) (hu : Built u)
    (hS : NoCollision {m | m ∈ hashedInputs t u}) :
    (t.hash = u.hash → SameTree t u) ↔ ¬ Confused t u := by
  constructor
  · intro hsound hconf
    exact not_sameTree_of_confused ht hu hconf (hsound (hconf.hash ht hu))
  · intro hconf
    exact sameTree_of_hash hS ht hu (fun n hn => preimage_mem_hashedInputs (Or.inl hn))
      (fun n hn => preimage_mem_hashedInputs (Or.inr hn)) hconf

/-- A root directory `r` whose one entry is `n`. -/
def rootWith (n : Node) : Node := newDirNode [114] 0o755 [n]

theorem Built.rootWith {n : Node} (h : Built n) (hname : n.name = [97]) :
    Built (rootWith n) :=
  .dir _ _ (by simpa using h) (by simp) (by simp [hname])

/-- Two one-file trees whose files have different chunks. -/
theorem hash_sound_iff_not_confused_one_file :
    ((rootWith (newFileNode [97] 0o644 [[1]])).hash =
        (rootWith (newFileNode [97] 0o644 [[2]])).hash →
      SameTree (rootWith (newFileNode [97] 0o644 [[1]]))
        (rootWith (newFileNode [97] 0o644 [[2]]))) ↔
      ¬ Confused (rootWith (newFileNode [97] 0o644 [[1]]))
        (rootWith (newFileNode [97] 0o644 [[2]])) :=
  hash_sound_iff_not_confused (Built.rootWith (.file ..) rfl) (Built.rootWith (.file ..) rfl)
    (noCollision_of_forall (by decide +kernel))

/-- An empty file and an empty directory of one name: nothing is written to the hasher for either,
so the two roots have one hash. -/
theorem empty_file_confused_with_empty_dir :
    Built (rootWith (newFileNode [97] 0o644 [])) ∧
      Built (rootWith (newDirNode [97] 0o755 [])) ∧
      NoCollision {m | m ∈ hashedInputs (rootWith (newFileNode [97] 0o644 []))
        (rootWith (newDirNode [97] 0o755 []))} ∧
      (rootWith (newFileNode [97] 0o644 [])).hash = (rootWith (newDirNode [97] 0o755 [])).hash ∧
      ¬ SameTree (rootWith (newFileNode [97] 0o644 [])) (rootWith (newDirNode [97] 0o755 [])) := by
  have hempty : Built (newDirNode [97] 0o755 []) := .dir _ _ (by simp) (by simp) (by simp)
  refine ⟨Built.rootWith (.file ..) rfl, Built.rootWith hempty rfl,
    noCollision_of_forall (by decide +kernel), rfl, fun h => ?_⟩
  -- The entries at the path `a` have different types.
  have htypes : (NodeType.file, ([] : List Bytes)) = (.dir, []) := Option.some.inj (h [[97]])
  cases htypes

end FileSync.Merkle
