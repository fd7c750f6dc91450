import FileSync.Proto.Manifest
import FileSync.Support.Io
import FileSync.Support.Maps

/-!
# Diff — manifests

`DiffTrees` compares the manifest of a local directory with that of a peer and lists what the peer
has and the directory has not, the files that both have with different hashes, and the paths of what
only the directory has (`internal/diff/diff.go`).  It stops where the hashes agree.  A file and a
directory are compared through their children.

The names below two nodes are visited through a Go map; the order comes from a `RangeOrder`, in
which a loop is told apart by the names from the root.

* `diffNode_iff`: what is in the result of two nodes that are compared through their children.
* `mem_deleted_iff`: the paths listed as deleted are those of the local nodes where the other
  manifest has none, and above which the hashes differ.
* `deleted_iff_absent`: where equal hashes stand for equal paths, what the other side lacks is
  listed, or lies below what is.
-/

open Filepath

namespace FileSync.Diff

open Proto (ManifestNode)

structure DiffResult where
  added : List ManifestNode := []
  modified : List ManifestNode := []
  deleted : List Bytes := []

/-- What several calls have appended, one after the other. -/
def gather (results : List DiffResult) : DiffResult :=
  ⟨results.flatMap (·.added), results.flatMap (·.modified), results.flatMap (·.deleted)⟩

/-- The iteration orders of one run. -/
abbrev DiffOrder := RangeOrder (List Bytes) Bytes

def childPath (path name : Bytes) : Bytes := if path = [] then name else join [path, name]

/-- A map of the children by their names. -/
def childMap (children : List ManifestNode) : AList (fun _ : Bytes => ManifestNode) :=
  assign ManifestNode.name id children

mutual

/-- `diffNode` for two nodes that are not nil; `pos` are the names from the root to them. -/
def diffNode (ord : DiffOrder) (pos : List Bytes) :
    ManifestNode → ManifestNode → Bytes → DiffResult
  | here@{ children := cs, .. }, remote, path =>
    if here.hash = remote.hash then {}
    else if !here.isDir && !remote.isDir then { modified := [remote] }
    else
      let remoteChildren := childMap remote.children
      let results := assign Prod.fst Prod.snd (diffChildren ord pos cs remoteChildren path)
      let allNames := results.keys ++ remoteChildren.keys.filter (· ∉ results)
      gather ((ord.range pos allNames).map fun name =>
        (results.lookup name).getD { added := (remoteChildren.lookup name).toList })

/-- What `diffNode` appends for each local child, under its name. -/
def diffChildren (ord : DiffOrder) (pos : List Bytes) :
    List ManifestNode → AList (fun _ : Bytes => ManifestNode) → Bytes → List (Bytes × DiffResult)
  | [], _, _ => []
  | c :: cs, remoteChildren, path =>
    (c.name, match remoteChildren.lookup c.name with
      | none => { deleted := [childPath path c.name] }
      | some r => diffNode ord (pos ++ [c.name]) c r (childPath path c.name)) ::
    diffChildren ord pos cs remoteChildren path

end

/-- `DiffTrees`; of two nil nodes the hash is read. -/
def diffTrees (ord : DiffOrder) : Option ManifestNode → Option ManifestNode → Go DiffResult
  | none, none => .error .panic
  | none, some r => .ok { added := [r] }
  | some _, none => .ok { deleted := [[]] }
  | some l, some r => .ok (diffNode ord [] l r [])

/-- A manifest has no differences with itself. -/
theorem diffTrees_self (ord : DiffOrder) (n : ManifestNode) :
    diffTrees ord (some n) (some n) = .ok {} := by
  obtain ⟨name, isDir, hash, mode, size, cs, chunks⟩ := n
  rw [diffTrees, diffNode, if_pos rfl]

/-! ### The recursion, on lists of children -/

/-- What `diffNode` appends for a local child and the remote child of its name. -/
def diffChild (ord : DiffOrder) (pos : List Bytes) (path : Bytes) (remote : List ManifestNode)
    (c : ManifestNode) : DiffResult :=
  match (childMap remote).lookup c.name with
  | none => { deleted := [childPath path c.name] }
  | some r => diffNode ord (pos ++ [c.name]) c r (childPath path c.name)

theorem diffChildren_eq (ord : DiffOrder) (pos : List Bytes) (cs remote : List ManifestNode)
    (path : Bytes) :
    diffChildren ord pos cs (childMap remote) path =
      cs.map fun c => (c.name, diffChild ord pos path remote c) := by
  induction cs with
  | nil => rfl
  | cons c cs ih => rw [diffChildren, ih, List.map_cons, diffChild]

theorem lookup_childMap {cs : List ManifestNode} (h : (cs.map (·.name)).Nodup) (name : Bytes) :
    (childMap cs).lookup name = cs.find? (·.name = name) := by
  rw [childMap, lookup_assign h]
  simp

theorem childPath_relative {names : List Bytes} (h : ∀ c ∈ names, Plain c) {c : Bytes}
    (hc : Plain c) : childPath (relative names) c = relative (names ++ [c]) := by
  rw [childPath, join_relative h hc]
  split
  · next hnil => rw [relative_concat, if_pos ((relative_eq_nil h).1 hnil)]
  · rfl

/-- The two nodes are compared through their children. -/
def Descends (l r : ManifestNode) : Prop := l.hash ≠ r.hash ∧ (l.isDir = true ∨ r.isDir = true)

theorem diffNode_of_not_descends {ord : DiffOrder} {pos : List Bytes} {l r : ManifestNode}
    {path : Bytes} (h : ¬ Descends l r) :
    diffNode ord pos l r path = if l.hash = r.hash then {} else { modified := [r] } := by
  obtain ⟨name, isDir, hash, mode, size, cs, chunks⟩ := l
  rw [diffNode]
  by_cases hhash : hash = r.hash
  · rw [if_pos hhash, if_pos hhash]
  · have hfiles : isDir = false ∧ r.isDir = false := by
      simpa [Descends, hhash] using h
    rw [if_neg hhash, if_neg hhash, if_pos (by simp [hfiles])]

theorem lookup_results (ord : DiffOrder) (pos : List Bytes) (path : Bytes)
    {cs : List ManifestNode} (remote : List ManifestNode) (h : (cs.map (·.name)).Nodup)
    (name : Bytes) :
    (assign Prod.fst Prod.snd (diffChildren ord pos cs (childMap remote) path)).lookup name =
      (cs.find? (·.name = name)).map (diffChild ord pos path remote) := by
  rw [diffChildren_eq, lookup_assign (by simpa [Function.comp_def] using h), List.find?_map]
  simp [Function.comp_def]

/-- The names of the loop are those of the children on either side. -/
theorem mem_names_iff {results : AList fun _ : Bytes => DiffResult}
    {remote : AList fun _ : Bytes => ManifestNode} {name : Bytes} :
    name ∈ results.keys ++ remote.keys.filter (· ∉ results) ↔
      results.lookup name ≠ none ∨ remote.lookup name ≠ none := by
  rw [List.mem_append, List.mem_filter, decide_eq_true_eq, AList.mem_keys, mem_keys_iff,
    mem_keys_iff]
  tauto

/-- **What is in the result of two nodes** that are compared through their children: what the result
of a local child has, and what a remote child adds that has no local one of its name. -/
theorem diffNode_iff {F : DiffResult → Prop}
    (hF : ∀ results, F (gather results) ↔ ∃ d ∈ results, F d) {ord : DiffOrder} {pos : List Bytes}
    {l r : ManifestNode} {path : Bytes} (hd : Descends l r)
    (hl : (l.children.map (·.name)).Nodup) (hr : (r.children.map (·.name)).Nodup) :
    F (diffNode ord pos l r path) ↔
      (∃ c ∈ l.children, F (diffChild ord pos path r.children c)) ∨
        ∃ c ∈ r.children, (∀ d ∈ l.children, d.name ≠ c.name) ∧ F { added := [c] } := by
  have hresults := lookup_results ord pos path r.children hl
  have hremote := lookup_childMap hr
  obtain ⟨name, isDir, hash, mode, size, cs, chunks⟩ := l
  have htype : (!isDir && !r.isDir) = false := by
    rcases hd.2 with h | h
    · rw [show isDir = true from h]
      rfl
    · rw [h, Bool.not_true, Bool.and_false]
  rw [diffNode, if_neg hd.1, if_neg (by rw [htype]; exact Bool.false_ne_true), hF]
  dsimp only at hresults ⊢
  generalize assign Prod.fst Prod.snd (diffChildren ord pos cs (childMap r.children) path) =
    results at hresults ⊢
  simp only [List.mem_map, (ord.perm _ _).mem_iff]
  have hnames (name : Bytes) : name ∈ results.keys ++
      (childMap r.children).keys.filter (· ∉ results) ↔
        cs.find? (·.name = name) ≠ none ∨ r.children.find? (·.name = name) ≠ none := by
    rw [mem_names_iff, hresults, hremote, Ne, Option.map_eq_none_iff]
  constructor
  · rintro ⟨_, ⟨name, hname, rfl⟩, hx⟩
    rw [hresults, hremote] at hx
    cases hc : cs.find? (·.name = name) with
    | some c =>
      rw [hc] at hx
      exact .inl ⟨c, List.mem_of_find?_eq_some hc, hx⟩
    | none =>
      rw [hc] at hx
      cases hd' : r.children.find? (·.name = name) with
      | none => exact (((hnames name).1 hname).elim (· hc) (· hd')).elim
      | some d =>
        rw [hd'] at hx
        have hdname : d.name = name := by simpa using List.find?_some hd'
        refine .inr ⟨d, List.mem_of_find?_eq_some hd', fun c hmem heq => ?_, hx⟩
        simpa [heq, hdname] using List.find?_eq_none.1 hc c hmem
  · rintro (⟨c, hc, hx⟩ | ⟨d, hd', hno, hx⟩)
    · have hfind := find?_key hl hc
      refine ⟨_, ⟨c.name, (hnames _).2 (.inl ?_), rfl⟩, ?_⟩
      · simp [hfind]
      · rw [hresults, hfind]
        exact hx
    · have hfind := find?_key hr hd'
      have hnone : cs.find? (·.name = d.name) = none :=
        List.find?_eq_none.2 fun c hc => by simpa using hno c hc
      refine ⟨_, ⟨d.name, (hnames _).2 (.inr ?_), rfl⟩, ?_⟩
      · simp [hfind]
      · rw [hresults, hremote, hnone, hfind]
        exact hx

section Child

variable {ord : DiffOrder} {pos : List Bytes} {path : Bytes} {remote : List ManifestNode}
  {c d : ManifestNode}

theorem diffChild_absent (hr : (remote.map (·.name)).Nodup) (h : ∀ d ∈ remote, d.name ≠ c.name) :
    diffChild ord pos path remote c = { deleted := [childPath path c.name] } := by
  have hfind : remote.find? (·.name = c.name) = none :=
    List.find?_eq_none.2 fun d hd => by simpa using h d hd
  rw [diffChild, lookup_childMap hr, hfind]

theorem diffChild_present (hr : (remote.map (·.name)).Nodup) (hd : d ∈ remote)
    (h : d.name = c.name) :
    diffChild ord pos path remote c =
      diffNode ord (pos ++ [c.name]) c d (childPath path c.name) := by
  rw [diffChild, lookup_childMap hr, ← h, find?_key hr hd]

end Child

/-! ### Deletions -/

/-- What is deleted below two nodes is deleted at one of the local children. -/
theorem mem_deleted_diffNode {ord : DiffOrder} {pos : List Bytes} {l r : ManifestNode}
    {path p : Bytes} (hl : (l.children.map (·.name)).Nodup) (hr : (r.children.map (·.name)).Nodup) :
    p ∈ (diffNode ord pos l r path).deleted ↔
      Descends l r ∧ ∃ c ∈ l.children, p ∈ (diffChild ord pos path r.children c).deleted := by
  by_cases hd : Descends l r
  · rw [diffNode_iff (F := (p ∈ ·.deleted)) (fun _ => List.mem_flatMap) hd hl hr]
    simp [hd]
  · rw [diffNode_of_not_descends hd]
    simp only [hd, false_and, iff_false]
    split <;> simp

/-- At every node above the end of the names, the hashes differ. -/
def Compared (l r : ManifestNode) (s : List Bytes) : Prop :=
  ∀ t, t <+: s → t ≠ s → ∃ a b, l.At t a ∧ r.At t b ∧ a.hash ≠ b.hash

theorem compared_singleton {l r : ManifestNode} {name : Bytes} (h : l.hash ≠ r.hash) :
    Compared l r [name] := by
  intro t ht hne
  obtain rfl : t = [] := by
    rcases List.prefix_cons_iff.1 ht with rfl | ⟨t', rfl, ht'⟩
    · rfl
    · exact (hne (by rw [List.prefix_nil.1 ht'])).elim
  exact ⟨l, r, .here l, .here r, h⟩

theorem Compared.hash {l r : ManifestNode} {name : Bytes} {s : List Bytes}
    (h : Compared l r (name :: s)) : l.hash ≠ r.hash := by
  obtain ⟨a, b, ha, hb, hne⟩ := h [] List.nil_prefix (by simp)
  rw [Proto.ManifestNode.at_nil.1 ha, Proto.ManifestNode.at_nil.1 hb] at hne
  exact hne

theorem compared_cons {l r c d : ManifestNode} (hl : l.Distinct) (hr : r.Distinct)
    (hc : c ∈ l.children) (hd : d ∈ r.children) (hname : d.name = c.name) {s : List Bytes} :
    Compared l r (c.name :: s) ↔ l.hash ≠ r.hash ∧ Compared c d s := by
  constructor
  · intro h
    refine ⟨h.hash, fun t ht hne => ?_⟩
    obtain ⟨a, b, ha, hb, hab⟩ := h (c.name :: t) (List.cons_prefix_cons.2 ⟨rfl, ht⟩) (by simpa)
    rw [← hname] at hb
    exact ⟨a, b, (hl.at_child hc).1 ha, (hr.at_child hd).1 hb, hab⟩
  · rintro ⟨hhash, h⟩ t ht hne
    rcases List.prefix_cons_iff.1 ht with rfl | ⟨t, rfl, ht'⟩
    · exact ⟨l, r, .here l, .here r, hhash⟩
    · obtain ⟨a, b, ha, hb, hab⟩ := h t ht' (by rintro rfl; exact hne rfl)
      exact ⟨a, b, .child hc ha, hname ▸ .child hd hb, hab⟩

/-- **What is listed as deleted**, below nodes at the end of the names `q`: the paths of the local
nodes where the other manifest has none, and above which the two differ all the way. -/
theorem mem_deleted_iff {ord : DiffOrder} {l r : ManifestNode} (hl : l.Orderly) (hr : r.Distinct)
    {pos q : List Bytes} (hq : ∀ c ∈ q, Plain c) {p : Bytes} :
    p ∈ (diffNode ord pos l r (relative q)).deleted ↔
      ∃ s n, l.At s n ∧ p = relative (q ++ s) ∧ (∀ m, ¬ r.At s m) ∧ Compared l r s := by
  induction hl generalizing r pos q with
  | @node l hdir hnames hplain hbelow ih =>
    have hl : l.Orderly := .node hdir hnames hplain hbelow
    rw [mem_deleted_diffNode hnames hr.hnames]
    have hq' (c : ManifestNode) (hc : c ∈ l.children) : ∀ d ∈ q ++ [c.name], Plain d :=
      List.forall_mem_append.2 ⟨hq, List.forall_mem_singleton.2 (hplain c hc)⟩
    constructor
    · rintro ⟨hdesc, c, hc, hp⟩
      by_cases hex : ∃ d ∈ r.children, d.name = c.name
      · obtain ⟨d, hd, hname⟩ := hex
        rw [diffChild_present hr.hnames hd hname, childPath_relative hq (hplain c hc),
          ih c hc (hr.hbelow d hd) (hq' c hc)] at hp
        obtain ⟨s, n, hs, rfl, hno, hcomp⟩ := hp
        refine ⟨c.name :: s, n, .child hc hs, by simp, fun m hm => hno m ?_,
          (compared_cons hl.distinct hr hc hd hname).2 ⟨hdesc.1, hcomp⟩⟩
        exact (hr.at_child hd).1 (hname ▸ hm)
      · have hno : ∀ d ∈ r.children, d.name ≠ c.name := fun d hd hname => hex ⟨d, hd, hname⟩
        rw [diffChild_absent hr.hnames hno, childPath_relative hq (hplain c hc)] at hp
        refine ⟨[c.name], c, .child hc (.here c), List.mem_singleton.1 hp, fun m hm => ?_,
          compared_singleton hdesc.1⟩
        obtain ⟨d, hd, hname, -⟩ := Proto.ManifestNode.at_cons.1 hm
        exact hno d hd hname
    · rintro ⟨_, n, _ | ⟨hc, hs⟩, rfl, hno, hcomp⟩
      · exact absurd (.here r) (hno r)
      · rename_i c s
        refine ⟨⟨hcomp.hash, .inl (hdir (List.ne_nil_of_mem hc))⟩, c, hc, ?_⟩
        by_cases hex : ∃ d ∈ r.children, d.name = c.name
        · obtain ⟨d, hd, hname⟩ := hex
          rw [diffChild_present hr.hnames hd hname, childPath_relative hq (hplain c hc),
            ih c hc (hr.hbelow d hd) (hq' c hc)]
          exact ⟨s, n, hs, by simp, fun m hm => hno m (hname ▸ .child hd hm),
            ((compared_cons hl.distinct hr hc hd hname).1 hcomp).2⟩
        · have hno' : ∀ d ∈ r.children, d.name ≠ c.name := fun d hd hname => hex ⟨d, hd, hname⟩
          rw [diffChild_absent hr.hnames hno', childPath_relative hq (hplain c hc),
            List.mem_singleton]
          -- Below the child nothing was compared.
          cases s with
          | nil => rfl
          | cons name s =>
            obtain ⟨_, _, -, hb, -⟩ := hcomp [c.name] (by simp) (by simp)
            obtain ⟨d, hd, hname, -⟩ := Proto.ManifestNode.at_cons.1 hb
            exact absurd hname (hno' d hd)

/-- Nodes with equal hashes have nodes below them at the end of the same names. -/
def SamePaths (l r : ManifestNode) : Prop :=
  ∀ {q q' a b}, l.At q a → r.At q' b → a.hash = b.hash →
    ∀ s, (∃ m, a.At s m) ↔ ∃ m, b.At s m

/-- **What is missing is listed**: a local node where the other manifest has none is listed itself,
or a node above it is. -/
theorem exists_deleted {ord : DiffOrder} {l r : ManifestNode} (hl : l.Orderly) (hr : r.Distinct)
    (hpaths : SamePaths l r) {s : List Bytes} {n : ManifestNode} (hn : l.At s n)
    (hno : ∀ m, ¬ r.At s m) :
    ∃ t, t ≠ [] ∧ t <+: s ∧ relative t ∈ (diffNode ord [] l r []).deleted := by
  obtain ⟨t, ht, hno', b, hb⟩ := Proto.ManifestNode.exists_topmost hno
  obtain ⟨m, -, hm, -, -⟩ := hn.above ht
  have hne : t ≠ [] := by
    rintro rfl
    exact hno' r (.here r)
  refine ⟨t, hne, ht, (mem_deleted_iff hl hr (List.forall_mem_nil Plain)).2
    ⟨t, m, hm, rfl, hno', fun u hu hne' => ?_⟩⟩
  obtain ⟨a, v, ha, rfl, hav⟩ := hm.above hu
  have hu' : u <+: (u ++ v).dropLast := by
    rw [List.dropLast_append_of_ne_nil (by simpa using hne')]
    exact List.prefix_append _ _
  obtain ⟨c, -, hc, -, -⟩ := hb.above hu'
  refine ⟨a, c, ha, hc, fun hhash => ?_⟩
  obtain ⟨x, hx⟩ := (hpaths ha hc hhash v).1 ⟨m, hav⟩
  exact hno' x (Proto.ManifestNode.at_append.2 ⟨c, hc, hx⟩)

/-- A path is listed as deleted or lies below one that is. -/
def DiffResult.Deletes (d : DiffResult) (q : List Bytes) : Prop :=
  ∃ p ∈ d.deleted, relative q = p ∨ p ++ [47] <+: relative q

/-- Nothing is listed as deleted at or above a node of the other manifest. -/
theorem not_deletes_of_at {ord : DiffOrder} {l r : ManifestNode} (hl : l.Orderly)
    (hr : r.Distinct) {q : List Bytes} {m : ManifestNode} (hm : r.At q m)
    (hq : ∀ c ∈ q, Plain c) : ¬ (diffNode ord [] l r []).Deletes q := by
  rintro ⟨p, hp, hbelow⟩
  obtain ⟨s, a, hs, rfl, hno, -⟩ := (mem_deleted_iff hl hr (List.forall_mem_nil Plain)).1 hp
  have hne : s ≠ [] := by
    rintro rfl
    exact hno r (.here r)
  obtain ⟨t, rfl⟩ := (below_relative_iff (hl.plain_of_at hs) hq hne).1 hbelow
  obtain ⟨b, hb, -⟩ := Proto.ManifestNode.at_append.1 hm
  exact hno b hb

/-- **Deletions are what the other side lacks.**  Of two manifests of directories, in which equal
hashes stand for equal paths below, a path of the local one is listed as deleted, or lies below one
that is, just when the other manifest has no node there; and no path of the other one is. -/
theorem deleted_iff_absent (ord : DiffOrder) {l r : ManifestNode} (hl : l.Orderly)
    (hr : r.Distinct) (hpaths : SamePaths l r) :
    ∃ d, diffTrees ord (some l) (some r) = .ok d ∧
      (∀ q n, l.At q n → q ≠ [] → (d.Deletes q ↔ ∀ m, ¬ r.At q m)) ∧
      ∀ q m, r.At q m → (∀ c ∈ q, Plain c) → ¬ d.Deletes q := by
  refine ⟨_, rfl, fun q n hn hq => ?_, fun q m hm hplain => not_deletes_of_at hl hr hm hplain⟩
  have hplain := hl.plain_of_at hn
  constructor
  · intro hdel m hm
    exact not_deletes_of_at hl hr hm hplain hdel
  · intro hno
    obtain ⟨t, hne, ht, hmem⟩ := exists_deleted hl hr hpaths hn hno
    have hplain' : ∀ c ∈ t, Plain c := fun c hc => hplain c (ht.subset hc)
    exact ⟨_, hmem, (below_relative_iff hplain' hplain hne).2 ht⟩

section Removed

open Proto.ManifestNode

/-- A directory of a file `a` and a directory `d` of a file `x`, of which a peer has `a` only. -/
def keptFile : ManifestNode := file [97] [1] []

def removedDir : ManifestNode := directory [100] [2] [file [120] [3] []]

theorem deleted_iff_absent_removedDir :
    ∃ d, diffTrees (RangeOrder.listed _ _) (some (directory [] [4] [keptFile, removedDir]))
        (some (directory [] [5] [keptFile])) = .ok d ∧
      d.Deletes [[100], [120]] ∧ ¬ d.Deletes [[97]] := by
  have hfile (name hash : Bytes) : (file name hash []).Orderly := .node (by simp [file])
    (by simp [file]) (by simp [file]) (by simp [file])
  have hremoved : removedDir.Orderly := .node (fun _ => rfl) (by decide) (by decide)
    (List.forall_mem_singleton.2 (hfile [120] [3]))
  have hpaths : SamePaths (directory [] [4] [keptFile, removedDir])
      (directory [] [5] [keptFile]) := by
    intro q q' a b ha hb hhash s
    simp only [at_directory, at_file, keptFile, removedDir, List.mem_cons, List.not_mem_nil,
      or_false, exists_eq_or_imp, exists_eq_left] at ha hb
    -- only the two nodes of the file have the same hash
    rcases ha with ⟨-, rfl⟩ | ⟨-, -, -, rfl⟩ | ⟨-, -, ⟨-, rfl⟩ | ⟨-, -, -, rfl⟩⟩ <;>
      rcases hb with ⟨-, rfl⟩ | ⟨-, -, -, rfl⟩ <;>
      first | exact Iff.rfl | exact absurd hhash (by decide)
  have hl : (directory [] [4] [keptFile, removedDir]).Orderly :=
    .node (fun _ => rfl) (by decide) (by decide)
      (List.forall_mem_cons.2 ⟨hfile _ _, List.forall_mem_singleton.2 hremoved⟩)
  have hr : (directory [] [5] [keptFile]).Distinct :=
    .node (by decide) (List.forall_mem_singleton.2 (hfile _ _).distinct)
  obtain ⟨d, hd, hlocal, hremote⟩ := deleted_iff_absent (RangeOrder.listed _ _) hl hr hpaths
  refine ⟨d, hd, (hlocal _ (file [120] [3] []) ?_ (by simp)).2 ?_,
    hremote _ keptFile ?_ (by decide)⟩
  · exact .child (c := removedDir) (.tail _ (.head _))
      (.child (c := file [120] [3] []) (.head _) (.here _))
  · simp [at_directory, at_file, keptFile]
  · exact .child (c := keptFile) (.head _) (.here _)

end Removed

end FileSync.Diff
