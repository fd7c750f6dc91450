import FileSync.Merkle.Commitment

/-!
# Merkle — reading a directory's preimage back

`computeDirHash` feeds the hasher the name and the hash of each child, one after the other and
without a delimiter.  A name has any length, so that where it ends is not written anywhere.

* `Listing` are the lists of names and hashes that a directory of a Unix file system can have.
* `RunTogether` says that a name of one listing goes on, at the first difference, with bytes that
  are the hash of the other's entry.
* `decodable_of_prefixFree`: names none of which begins another are enough to tell two listings
  apart.

**When a preimage can be read back** (`decodable_iff_not_runTogether`): exactly for the listings
that do not run together.  `empty_files_run_together` are two directories of empty files that do,
with one hash.
-/

open Sha256

namespace FileSync.Merkle

/-- The children of a directory by name and hash: in order of their distinct names, which are not
empty and have neither NUL nor a separator. -/
structure Listing where
  entries : List (Bytes × Bytes)
  sorted : entries.Pairwise fun e f => e.1 < f.1
  names : ∀ e ∈ entries, e.1 ≠ [] ∧ 0 ∉ e.1 ∧ 47 ∉ e.1
  hashes : ∀ e ∈ entries, e.2.length = 32

/-- The bytes of a list of entries. -/
def written (entries : List (Bytes × Bytes)) : Bytes := (Face.dir entries).bytes

@[simp] theorem written_nil : written [] = [] := rfl

theorem written_cons (e : Bytes × Bytes) (l : List (Bytes × Bytes)) :
    written (e :: l) = e.1 ++ (e.2 ++ written l) := by
  simp [written, Face.bytes]

/-- What `computeDirHash` feeds to the hasher. -/
theorem fed_eq_written (n : Node) :
    (n.children.foldl Node.hashChild (Hasher.new, 0)).1.fed = written n.listing := by
  rw [Node.fed_foldl_hashChild, written, Face.bytes, Node.listing, List.flatMap_map]
  rfl

/-! ### Listings that run together -/

/-- After the entries in common, the second listing's name is the first's with more bytes, and
these, with what follows, are written as the first's hash and what follows it. -/
inductive RunsInto : List (Bytes × Bytes) → List (Bytes × Bytes) → Prop
  | here (name : Bytes) {more hash hash' : Bytes} {rest rest' : List (Bytes × Bytes)}
      (longer : more ≠ []) (same : hash ++ written rest = more ++ (hash' ++ written rest')) :
      RunsInto ((name, hash) :: rest) ((name ++ more, hash') :: rest')
  | later (e : Bytes × Bytes) {l l' : List (Bytes × Bytes)} (h : RunsInto l l') :
      RunsInto (e :: l) (e :: l')

def RunTogether (l l' : List (Bytes × Bytes)) : Prop := RunsInto l l' ∨ RunsInto l' l

namespace RunsInto

variable {l l' : List (Bytes × Bytes)}

theorem written_eq (h : RunsInto l l') : written l = written l' := by
  induction h with
  | here name _ same => rw [written_cons, written_cons, same, List.append_assoc]
  | later e _ ih => rw [written_cons, written_cons, ih]

theorem ne (h : RunsInto l l') : l ≠ l' := by
  induction h with
  | here name longer _ =>
    intro heq
    have hname : name = name ++ _ := congrArg Prod.fst (List.cons.inj heq).1
    exact longer (List.self_eq_append_right.1 hname)
  | later e _ ih => exact fun heq => ih (List.cons.inj heq).2

/-- A name that begins another. -/
theorem exists_names (h : RunsInto l l') :
    ∃ e ∈ l, ∃ e' ∈ l', e.1 <+: e'.1 ∧ e.1 ≠ e'.1 := by
  induction h with
  | here name longer _ =>
    refine ⟨_, List.mem_cons_self, _, List.mem_cons_self, List.prefix_append .., ?_⟩
    exact fun hname => longer (List.self_eq_append_right.1 hname)
  | later x _ ih =>
    obtain ⟨e, he, e', he', hnames⟩ := ih
    exact ⟨e, List.mem_cons_of_mem x he, e', List.mem_cons_of_mem x he', hnames⟩

end RunsInto

/-- Two names, each with a hash and more bytes behind it, that are written the same: the entries
are equal, or one name goes on with the other's hash. -/
theorem head_cases {name name' hash hash' r r' : Bytes} (hlen : hash.length = hash'.length)
    (heq : name ++ (hash ++ r) = name' ++ (hash' ++ r')) :
    (name, hash) = (name', hash') ∧ r = r' ∨
      (∃ more, more ≠ [] ∧ name' = name ++ more ∧ hash ++ r = more ++ (hash' ++ r')) ∨
      ∃ more, more ≠ [] ∧ name = name' ++ more ∧ hash' ++ r' = more ++ (hash ++ r) := by
  by_cases hname : name = name'
  · subst hname
    obtain ⟨rfl, rfl⟩ := List.append_inj (List.append_cancel_left heq) hlen
    exact .inl ⟨rfl, rfl⟩
  · rcases List.append_eq_append_iff.1 heq with ⟨more, hmore, hsame⟩ | ⟨more, hmore, hsame⟩
    · refine .inr (.inl ⟨more, ?_, hmore, hsame⟩)
      rintro rfl
      exact hname (hmore.trans (List.append_nil name)).symm
    · refine .inr (.inr ⟨more, ?_, hmore, hsame⟩)
      rintro rfl
      exact hname (hmore.trans (List.append_nil name'))

/-- Two lists with one preimage that differ run together at their first difference. -/
theorem runTogether_of_written {l l' : List (Bytes × Bytes)} (hl : ∀ e ∈ l, e.1 ≠ [])
    (hl' : ∀ e ∈ l', e.1 ≠ []) (hlen : ∀ e ∈ l, ∀ e' ∈ l', e.2.length = e'.2.length)
    (heq : written l = written l') (hne : l ≠ l') : RunTogether l l' := by
  induction l generalizing l' with
  | nil =>
    cases l' with
    | nil => exact (hne rfl).elim
    | cons e' l' =>
      rw [written_cons, written_nil, eq_comm, List.append_eq_nil_iff] at heq
      exact (hl' e' List.mem_cons_self heq.1).elim
  | cons e l ih =>
    cases l' with
    | nil =>
      rw [written_cons, written_nil, List.append_eq_nil_iff] at heq
      exact (hl e List.mem_cons_self heq.1).elim
    | cons e' l' =>
      obtain ⟨name, hash⟩ := e
      obtain ⟨name', hash'⟩ := e'
      rw [List.forall_mem_cons] at hl hl'
      have hhash := hlen _ List.mem_cons_self _ List.mem_cons_self
      rw [written_cons, written_cons] at heq
      rcases head_cases hhash heq with ⟨hhead, hrest⟩ | ⟨more, hmore, rfl, hsame⟩ |
        ⟨more, hmore, rfl, hsame⟩
      · cases hhead
        have htail : RunTogether l l' := ih hl.2 hl'.2
          (fun x hx y hy => hlen x (List.mem_cons_of_mem _ hx) y (List.mem_cons_of_mem _ hy))
          hrest (fun h => hne (h ▸ rfl))
        exact htail.imp (.later _) (.later _)
      · exact .inl (.here name hmore hsame)
      · exact .inr (.here name' hmore hsame)

/-! ### Listings -/

namespace Listing

theorem length_hash (l l' : Listing) :
    ∀ e ∈ l.entries, ∀ e' ∈ l'.entries, e.2.length = e'.2.length :=
  fun e he e' he' => (l.hashes e he).trans (l'.hashes e' he').symm

theorem eq_of_written {l l' : Listing} (h : ¬ RunTogether l.entries l'.entries)
    (heq : written l.entries = written l'.entries) : l.entries = l'.entries := by
  by_contra hne
  exact h (runTogether_of_written (fun e he => (l.names e he).1) (fun e he => (l'.names e he).1)
    (l.length_hash l') heq hne)

/-- **Names none of which begins another** can be told from the hashes behind them. -/
theorem decodable_of_prefixFree {l l' : Listing}
    (h : ∀ e ∈ l.entries, ∀ e' ∈ l'.entries, e.1 <+: e'.1 ∨ e'.1 <+: e.1 → e.1 = e'.1)
    (heq : written l.entries = written l'.entries) : l.entries = l'.entries := by
  refine eq_of_written ?_ heq
  rintro (hinto | hinto)
  · obtain ⟨e, he, e', he', hpre, hne⟩ := hinto.exists_names
    exact hne (h e he e' he' (.inl hpre))
  · obtain ⟨e', he', e, he, hpre, hne⟩ := hinto.exists_names
    exact hne (h e he e' he' (.inr hpre)).symm

end Listing

/-- **When a preimage can be read back.**  For a directory with a listing, `computeDirHash` feeds
the bytes of the listing to the hasher, and of two listings with the same bytes to be equal means
exactly that they do not run together. -/
theorem decodable_iff_not_runTogether (l l' : Listing) :
    (∀ n : Node, n.listing = l.entries →
      (n.children.foldl Node.hashChild (Hasher.new, 0)).1.fed = written l.entries) ∧
    ((written l.entries = written l'.entries → l.entries = l'.entries) ↔
      ¬ RunTogether l.entries l'.entries) := by
  refine ⟨fun n hn => hn ▸ fed_eq_written n, fun h hrun => ?_, Listing.eq_of_written⟩
  rcases hrun with hinto | hinto
  · exact hinto.ne (h hinto.written_eq)
  · exact hinto.ne (h hinto.written_eq.symm).symm

/-- The hash of an empty file. -/
def emptyHash : Bytes := (sum256 []).bytes

theorem emptyHash_plain : 0 ∉ emptyHash ∧ 47 ∉ emptyHash := by decide +kernel

/-- The empty files `a` and `b`. -/
def twoFiles : Listing where
  entries := [([97], emptyHash), ([98], emptyHash)]
  sorted := List.pairwise_pair.2 (by decide)
  names := by simp
  hashes := by simp [emptyHash, Digest.length_bytes]

/-- One empty file whose name is `a`, the hash of an empty file and `b`. -/
def oneFile : Listing where
  entries := [([97] ++ emptyHash ++ [98], emptyHash)]
  sorted := List.pairwise_singleton ..
  names := by simp [emptyHash_plain]
  hashes := by simp [emptyHash, Digest.length_bytes]

/-- Two listings of directories with empty files, one preimage and one hash. -/
theorem empty_files_run_together :
    let d := newDirNode [100] 0o755 [newFileNode [97] 0o644 [], newFileNode [98] 0o644 []]
    let d' := newDirNode [100] 0o755 [newFileNode ([97] ++ emptyHash ++ [98]) 0o644 []]
    d.listing = twoFiles.entries ∧ d'.listing = oneFile.entries ∧
      written twoFiles.entries = written oneFile.entries ∧
      twoFiles.entries ≠ oneFile.entries ∧ d.hash = d'.hash := by
  intro d d'
  have hlisting : d.listing = twoFiles.entries := rfl
  have hlisting' : d'.listing = oneFile.entries := rfl
  have hbytes : written twoFiles.entries = written oneFile.entries := by
    simp [written, Face.bytes, twoFiles, oneFile]
  refine ⟨hlisting, hlisting', hbytes, by simp [twoFiles, oneFile], ?_⟩
  have hpreimage : d.preimage = d'.preimage := by
    rw [← Node.bytes_face, ← Node.bytes_face]
    exact (congrArg written hlisting).trans (hbytes.trans (congrArg written hlisting').symm)
  rw [hash_newDirNode, hash_newDirNode, hpreimage]

end FileSync.Merkle
