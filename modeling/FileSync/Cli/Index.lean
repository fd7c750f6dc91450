import FileSync.Cas.Kept
import FileSync.Merkle.Build

/-!
# Cli — indexing

`indexDirectory` walks a directory with `filepath.Walk` and puts the chunks of its files into the
store (`cmd/p2p-file-sync/main.go`).  It skips the names that start with a dot; the callback of
`Walk` is also called for the directory itself and skips it, with all that is in it, if its own name
starts with a dot.

* `Putting` is what the walk relies on, of whatever answers its calls: that the visible files can be
  read or not, and that a chunk that is put is stored.
* `Putting.walkEntry`: the chunks put are those of the files at visible paths that can be read.
* `wp_indexDirectory`: the same of a file system without links.
-/

open Sha256 Filepath

namespace FileSync.Cli

open Proto (Request Exchange)
open Cas (BlobStore Chunk chunksOf)
open Merkle (Visible Shows buildFromFS)

/-! ### The program -/

/-- `fileCount` and `chunkCount`. -/
structure Counts where
  files : ℕ
  chunks : ℕ
deriving DecidableEq

instance : Add Counts := ⟨fun a b => ⟨a.files + b.files, a.chunks + b.chunks⟩⟩

/-- The loop over the chunks of a file: a `Put` that fails ends it, and the file is not counted. -/
def putChunks (store : BlobStore) : List Chunk → ℕ → Cmd Counts
  | [], chunkCount => return ⟨1, chunkCount⟩
  | c :: cs, chunkCount => do
      match ← store.put c with
      | .error _ => return ⟨0, chunkCount⟩
      | .ok _ => putChunks store cs (chunkCount + 1)

/-- What the callback does for a file: the chunks that `Next` returns are put in turn. -/
def indexFile (store : BlobStore) (path : Bytes) : Cmd Counts := do
  match ← Sys.openRead path with
  | .error _ => return ⟨0, 0⟩
  | .ok () =>
  match ← Sys.readAll path with
  | .error _ => return ⟨0, 0⟩
  | .ok data => putChunks store (chunksOf data) 0

/-- Commands in turn. -/
def inTurn : List (Bytes × Cmd Counts) → Cmd Counts
  | [] => return ⟨0, 0⟩
  | x :: xs => do
      let counts ← x.2
      let rest ← inTurn xs
      return counts + rest

mutual

/-- `filepath.Walk` below `path` with the callback of `indexDirectory`: a name that starts with a
dot is skipped, with all that is in it. -/
def walkEntry (store : BlobStore) (path : Bytes) : Os.Entry → Cmd Counts
  | .file .. => if Merkle.hidden (base path) then return ⟨0, 0⟩ else indexFile store path
  | .dir _ es =>
    if Merkle.hidden (base path) then return ⟨0, 0⟩
    else inTurn ((walkEntries store path es).insertionSort fun x y => x.1 ≤ y.1)

/-- The walks of the entries of a directory, under their names. -/
def walkEntries (store : BlobStore) (path : Bytes) :
    List (Bytes × Os.Entry) → List (Bytes × Cmd Counts)
  | [] => []
  | (name, e) :: es => (name, walkEntry store (join [path, name]) e) :: walkEntries store path es

end

/-- `indexDirectory`, which never returns an error. -/
def indexDirectory (dir : Bytes) (store : BlobStore) : Cmd Counts := do
  match ← Sys.walkTree dir with
  | .error _ => return ⟨0, 0⟩
  | .ok e => walkEntry store dir e

theorem walkEntries_eq (store : BlobStore) (path : Bytes) (es : List (Bytes × Os.Entry)) :
    walkEntries store path es = es.map fun x => (x.1, walkEntry store (join [path, x.1]) x.2) := by
  induction es with
  | nil => rfl
  | cons x es ih => rw [walkEntries, ih, List.map_cons]

/-! ### What is put -/

/-- What the walk relies on.  In the states of `I` a file at names in `W` below `root` reads as
`reads` says, and a chunk of `C` can be put; `T` relates the states before and after some chunks. -/
structure Putting {σ : Type} (h : Prog.Handler Op Op.Resp σ) (store : BlobStore)
    (root : List Bytes) (W : List Bytes → Prop) (reads : List Bytes → Option Bytes)
    (C : Chunk → Prop) (I : σ → Prop) (T : σ → List Chunk → σ → Prop) : Prop where
  nil : ∀ s, T s [] s
  append : ∀ s cs s₁ ds s₂, T s cs s₁ → T s₁ ds s₂ → T s (cs ++ ds) s₂
  keeps : ∀ s cs s', I s → T s cs s' → (∀ c ∈ cs, C c) → I s'
  put : ∀ s c, I s → C c → ∃ new s', (store.put c).run h s = (.ok new, s') ∧ T s [c] s'
  chunks : ∀ q c, W q → reads q = some c → ∀ k ∈ chunksOf c, C k
  found : ∀ s q c path, I s → W q → resolve path = root ++ q → reads q = some c →
    h (.openRead path) s = (.ok (), s) ∧ h (.readAll path) s = (.ok c, s)
  lost : ∀ s q path, I s → W q → resolve path = root ++ q → reads q = none →
    (∃ e, h (.openRead path) s = (.error e, s)) ∨
      h (.openRead path) s = (.ok (), s) ∧ ∃ e, h (.readAll path) s = (.error e, s)

theorem resolve_join_name {path name : Bytes} (h : isAbs path) (hname : Plain name) :
    isAbs (join [path, name]) ∧ resolve (join [path, name]) = resolve path ++ [name] ∧
      base (join [path, name]) = name := by
  have hjoin : join [path, name] = ofNames (resolve path ++ [name]) := by
    rw [join_of_isAbs h]
    simp [split_plain hname, descend_plain hname]
  have hpath : ∀ c ∈ resolve path, Plain c := fun _ => plain_of_mem_resolve
  rw [hjoin]
  refine ⟨isAbs_ofNames _, resolve_ofNames ?_, base_ofNames hpath hname⟩
  exact List.forall_mem_append.2 ⟨hpath, List.forall_mem_singleton.2 hname⟩

section Puts

variable {σ : Type} {h : Prog.Handler Op Op.Resp σ} {store : BlobStore} {root : List Bytes}
  {W : List Bytes → Prop} {reads : List Bytes → Option Bytes} {C : Chunk → Prop} {I : σ → Prop}
  {T : σ → List Chunk → σ → Prop}

variable (h C I T) in
/-- The command puts the chunks in `S`, in some order. -/
def Puts (p : Cmd Counts) (S : Chunk → Prop) : Prop :=
  ∀ s, I s → ∃ n cs s', p.run h s = (n, s') ∧ T s cs s' ∧ (∀ c ∈ cs, C c) ∧ ∀ c, c ∈ cs ↔ S c

theorem Puts.congr {p : Cmd Counts} {S S' : Chunk → Prop} (hp : Puts h C I T p S)
    (hS : ∀ c, S c ↔ S' c) : Puts h C I T p S' := by
  obtain rfl : S = S' := funext fun c => propext (hS c)
  exact hp

/-- The entry is or has a file at visible names whose content `c` can be read. -/
def Finds (reads : List Bytes → Option Bytes) (e : Os.Entry) (q : List Bytes) (c : Bytes) : Prop :=
  ∃ r m c', Visible r ∧ Os.reach (some e) r = some (.file m c') ∧ reads (q ++ r) = some c

theorem finds_file {m : UInt32} {c' c : Bytes} {q : List Bytes} :
    Finds reads (.file m c') q c ↔ reads q = some c := by
  constructor
  · rintro ⟨_ | ⟨n, r⟩, m', c'', -, hr, hc⟩
    · rwa [List.append_nil] at hc
    · cases hr
  · intro hc
    exact ⟨[], m, c', by simp [Visible], rfl, by rwa [List.append_nil]⟩

theorem finds_dir {m : UInt32} {es : List (Bytes × Os.Entry)} (hnames : (es.map Prod.fst).Nodup)
    {q : List Bytes} {c : Bytes} : Finds reads (.dir m es) q c ↔
      ∃ x ∈ es, Merkle.hidden x.1 = false ∧ Finds reads x.2 (q ++ [x.1]) c := by
  constructor
  · rintro ⟨_ | ⟨name, r⟩, m', c', hr, hreach, hc⟩
    · cases hreach
    · obtain ⟨hname, hr⟩ := List.forall_mem_cons.1 hr
      rw [Os.reach] at hreach
      cases hl : es.lookup name with
      | none => simp [hl] at hreach
      | some x =>
        rw [hl] at hreach
        refine ⟨(name, x), (Os.lookup_eq_some hnames).1 hl, hname, r, m', c', hr, hreach, ?_⟩
        rwa [List.append_assoc]
  · rintro ⟨⟨name, x⟩, hmem, hname, r, m', c', hr, hreach, hc⟩
    refine ⟨name :: r, m', c', List.forall_mem_cons.2 ⟨hname, hr⟩, ?_, ?_⟩
    · rwa [Os.reach, (Os.lookup_eq_some hnames).2 hmem]
    · rwa [List.append_assoc] at hc

namespace Putting

variable (hp : Putting h store root W reads C I T)
include hp

theorem nothing (n : Counts) : Puts h C I T (.ret n) fun _ => False :=
  fun s _ => ⟨n, [], s, rfl, hp.nil s, by simp, by simp⟩

theorem bind {p : Cmd Counts} {f : Counts → Cmd Counts} {S S' : Chunk → Prop}
    (hS : Puts h C I T p S) (hS' : ∀ n, Puts h C I T (f n) S') :
    Puts h C I T (p >>= f) fun c => S c ∨ S' c := by
  intro s hs
  obtain ⟨n, cs, s₁, hrun, hT, hC, hcs⟩ := hS s hs
  obtain ⟨n', ds, s₂, hrun', hT', hC', hds⟩ := hS' n s₁ (hp.keeps s cs s₁ hs hT hC)
  refine ⟨n', cs ++ ds, s₂, ?_, hp.append s cs s₁ ds s₂ hT hT', ?_, fun c => ?_⟩
  · rw [Prog.run_bind, hrun, hrun']
  · exact List.forall_mem_append.2 ⟨hC, hC'⟩
  · rw [List.mem_append, hcs, hds]

theorem inTurn {ι : Type} {f : ι → Bytes × Cmd Counts} {S : ι → Chunk → Prop} {xs : List ι}
    (hxs : ∀ x ∈ xs, Puts h C I T (f x).2 (S x)) :
    Puts h C I T (Cli.inTurn (xs.map f)) fun c => ∃ x ∈ xs, S x c := by
  induction xs with
  | nil => exact (hp.nothing _).congr (by simp)
  | cons x xs ih =>
    rw [List.forall_mem_cons] at hxs
    refine (hp.bind hxs.1 fun n => hp.bind (ih hxs.2) fun k => hp.nothing _).congr fun c => ?_
    simp only [or_false, List.exists_mem_cons_iff]

theorem putChunks (chunks : List Chunk) (hC : ∀ c ∈ chunks, C c) (n : ℕ) :
    Puts h C I T (Cli.putChunks store chunks n) (· ∈ chunks) := by
  induction chunks generalizing n with
  | nil => exact (hp.nothing _).congr (by simp)
  | cons c cs ih =>
    intro s hs
    rw [List.forall_mem_cons] at hC
    obtain ⟨new, s₁, hrun, hT⟩ := hp.put s c hs hC.1
    have hs₁ := hp.keeps s [c] s₁ hs hT (List.forall_mem_singleton.2 hC.1)
    obtain ⟨k, ds, s₂, hrun', hT', hC', hds⟩ := ih hC.2 (n + 1) s₁ hs₁
    refine ⟨k, c :: ds, s₂, ?_, hp.append s [c] s₁ ds s₂ hT hT', ?_, fun d => ?_⟩
    · rw [Cli.putChunks, Prog.run_bind, hrun]
      exact hrun'
    · exact List.forall_mem_cons.2 ⟨hC.1, hC'⟩
    · simp only [List.mem_cons, hds]

theorem indexFile {path : Bytes} {q : List Bytes} (hpath : resolve path = root ++ q)
    (hq : W q) :
    Puts h C I T (Cli.indexFile store path) fun k => ∃ c, reads q = some c ∧ k ∈ chunksOf c := by
  cases hc : reads q with
  | some c =>
    refine Puts.congr (S := (· ∈ chunksOf c)) (fun s hs => ?_) (by simp)
    obtain ⟨hopen, hread⟩ := hp.found s q c path hs hq hpath hc
    rw [Cli.indexFile, Sys.run_openRead, hopen]
    dsimp only
    rw [Sys.run_readAll, hread]
    exact hp.putChunks _ (hp.chunks q c hq hc) 0 s hs
  | none =>
    refine Puts.congr (S := fun _ => False) (fun s hs => ⟨⟨0, 0⟩, [], s, ?_, hp.nil s, by simp,
      by simp⟩) (by simp)
    rw [Cli.indexFile, Sys.run_openRead]
    rcases hp.lost s q path hs hq hpath hc with ⟨e, hopen⟩ | ⟨hopen, e, hread⟩
    · rw [hopen]
      rfl
    · rw [hopen]
      dsimp only
      rw [Sys.run_readAll, hread]
      rfl

theorem walkEntry_hidden {path : Bytes} (hh : Merkle.hidden (base path) = true) (e : Os.Entry) :
    Puts h C I T (Cli.walkEntry store path e) fun _ => False := by
  cases e <;> rw [Cli.walkEntry, if_pos hh] <;> exact hp.nothing _

/-- **The walk of an entry** puts the chunks of the files that it finds.  The induction is on the
entry, and `q` are the names on the way to it. -/
theorem walkEntry {e : Os.Entry} (he : e.WF) {path : Bytes} {q : List Bytes} (habs : isAbs path)
    (hpath : resolve path = root ++ q) (hname : Merkle.hidden (base path) = false)
    (hW : ∀ r m c, Visible r → Os.reach (some e) r = some (.file m c) → W (q ++ r)) :
    Puts h C I T (Cli.walkEntry store path e)
      fun k => ∃ c, Finds reads e q c ∧ k ∈ chunksOf c := by
  induction he generalizing path q with
  | file m c =>
    rw [Cli.walkEntry, if_neg (by simp [hname])]
    have hq := hW [] m c (by simp [Visible]) rfl
    rw [List.append_nil] at hq
    exact (hp.indexFile hpath hq).congr (by simp [finds_file])
  | @dir m es hnames hplain _ ih =>
    rw [Cli.walkEntry, if_neg (by simp [hname]), walkEntries_eq]
    have hchild : ∀ x ∈ es, Puts h C I T (Cli.walkEntry store (join [path, x.1]) x.2)
        fun k => Merkle.hidden x.1 = false ∧
          ∃ c, Finds reads x.2 (q ++ [x.1]) c ∧ k ∈ chunksOf c := by
      rintro ⟨name, e⟩ hx
      obtain ⟨habs', hres, hbase⟩ := resolve_join_name habs (hplain _ hx)
      by_cases hh : Merkle.hidden name = true
      · exact (hp.walkEntry_hidden (by rwa [hbase]) e).congr (by simp [hh])
      · rw [Bool.not_eq_true] at hh
        refine (ih _ hx habs' (by rw [hres, hpath, List.append_assoc]) (by rwa [hbase])
          fun r m' c hr hreach => ?_).congr (by simp [hh])
        rw [List.append_assoc]
        refine hW (name :: r) m' c (List.forall_mem_cons.2 ⟨hh, hr⟩) ?_
        rwa [Os.reach, (Os.lookup_eq_some hnames).2 hx]
    rw [← List.map_insertionSort (fun x y : Bytes × Os.Entry => x.1 ≤ y.1)
      (fun x y : Bytes × Cmd Counts => x.1 ≤ y.1) _ _ fun _ _ _ _ => Iff.rfl]
    refine (hp.inTurn fun x hx => hchild x ((List.mem_insertionSort _).1 hx)).congr fun k => ?_
    simp only [List.mem_insertionSort, finds_dir hnames]
    constructor
    · rintro ⟨x, hx, hh, c, hc, hk⟩
      exact ⟨c, ⟨x, hx, hh, hc⟩, hk⟩
    · rintro ⟨c, ⟨x, hx, hh, hc⟩, hk⟩
      exact ⟨x, hx, hh, c, hc, hk⟩

/-- **What `indexDirectory` puts**: the chunks of the files that the walk finds, unless the
directory's own name starts with a dot. -/
theorem indexDirectory {dir : Bytes} (hd : isAbs dir) (hroot : resolve dir = root) {s : σ}
    (hs : I s) {r : Except Errno Os.Entry} (hr : h (.walkTree dir) s = (r, s))
    (hwf : ∀ e, r = .ok e → e.WF)
    (hW : ∀ e q m c, r = .ok e → Visible q → Os.reach (some e) q = some (.file m c) → W q) :
    ∃ n cs s', (Cli.indexDirectory dir store).run h s = (n, s') ∧ T s cs s' ∧ (∀ c ∈ cs, C c) ∧
      ∀ k, k ∈ cs ↔ Merkle.hidden (base dir) = false ∧
        ∃ e c, r = .ok e ∧ Finds reads e [] c ∧ k ∈ chunksOf c := by
  rw [Cli.indexDirectory, Sys.run_walkTree, hr]
  cases r with
  | error e => exact (hp.nothing ⟨0, 0⟩).congr (by simp) s hs
  | ok e =>
    by_cases hh : Merkle.hidden (base dir) = true
    · exact (hp.walkEntry_hidden hh e).congr (by simp [hh]) s hs
    · rw [Bool.not_eq_true] at hh
      refine (hp.walkEntry (hwf e rfl) (q := []) hd (by simp [hroot]) hh
        fun q m c => hW e q m c rfl).congr (fun k => ?_) s hs
      simp [hh]

end Putting

end Puts

/-! ### Without links -/

section Tree

variable {ν : Type} {answer : Request → ν → Exchange × ν} {store : BlobStore}

/-- Where nothing is in the way a `Put` does not fail. -/
theorem run_put_ready {s : BlobStore} (hs : isAbs s.baseDir) {w : World ν} (hready : s.Ready w.fs)
    (hclear : s.Clear w.fs) (c : Chunk) :
    ∃ new fs', (s.put c).run (handle answer) w = (.ok new, { w with fs := fs' }) ∧
      s.Stored w.fs [c] fs' := by
  have hspec : Prog.wp (handle answer) (fun _ => True) (s.put c) (fun r w' => ∃ new fs',
      r = .ok new ∧ w' = { w with fs := fs' } ∧ s.Stored w.fs [c] fs') w := by
    refine Prog.wp_mono (BlobStore.put_spec hs hready.base fun _ _ => trivial) ?_
    rintro r _ ⟨fs', rfl, heff, hres⟩
    cases r with
    | error e => exact (BlobStore.put_succeeds hclear hready hres).elim
    | ok new => exact ⟨new, fs', rfl, rfl, .cons heff hres .nil⟩
  obtain ⟨new, fs', hr, hw', hst⟩ := Prog.wp_run hspec
  exact ⟨new, fs', Prod.ext hr hw', hst⟩

/-- In a file system without links the store can be written and the visible files stay. -/
theorem putting_tree {root : List Bytes} (hs : isAbs store.baseDir)
    (hout : ∀ q, Visible q → ¬ resolve store.baseDir <+: root ++ q) (fs₀ : Os.Fs) :
    Putting (handle answer) store root Visible (fun q => Os.content fs₀ (root ++ q))
      (fun c => (sum256 c.data).bytes = c.hash)
      (fun w : World ν => store.Ready w.fs ∧ store.Clear w.fs ∧
        ∀ q, Visible q → Os.content w.fs (root ++ q) = Os.content fs₀ (root ++ q))
      (fun w cs w' => w' = { w with fs := w'.fs } ∧ store.Stored w.fs cs w'.fs) where
  nil _ := ⟨rfl, .nil⟩
  append _ _ _ _ _ hcs hds := ⟨by rw [hds.1, hcs.1], hcs.2.append hds.2⟩
  keeps w cs w' hw hT hhash := by
    have hlen : ∀ c ∈ cs, 2 ≤ c.hash.length := fun c hc => by
      rw [← hhash c hc, (sum256 c.data).length_bytes]
      decide
    refine ⟨hT.2.ready hs hw.1, hT.2.clear hs hlen hw.2.1, fun q hq => ?_⟩
    rw [Os.content_of_view (hT.2.outside hs hw.1.base (hout q hq)), hw.2.2 q hq]
  put w c hw _ := by
    obtain ⟨new, fs', hrun, hst⟩ := run_put_ready hs hw.1 hw.2.1 c
    exact ⟨new, _, hrun, rfl, hst⟩
  chunks _ _ _ _ _ := Cas.hash_of_mem_chunksOf
  found w q c path hw hq hpath hc := by
    obtain ⟨m, hview⟩ := Os.content_eq_some.1 ((hw.2.2 q hq).trans hc)
    rw [← hpath] at hview
    constructor
    · simp only [handle, Os.stat_of_view_file hview]
      rfl
    · simp only [handle, Os.read_ok.2 ⟨m, hview⟩]
  lost w q path hw hq hpath hc := by
    have hnone := (hw.2.2 q hq).trans hc
    rw [← hpath] at hnone
    have hread : ∃ e, Os.read w.fs (resolve path) = .error e := by
      cases hr : Os.read w.fs (resolve path) with
      | error e => exact ⟨e, rfl⟩
      | ok c =>
        rw [Os.content_eq_some.2 (Os.read_ok.1 hr)] at hnone
        cases hnone
    obtain ⟨e, hread⟩ := hread
    cases hst : Os.stat w.fs (resolve path) with
    | error e =>
      refine .inl ⟨e, ?_⟩
      simp only [handle, hst]
      rfl
    | ok x =>
      refine .inr ⟨?_, e, ?_⟩
      · simp only [handle, hst]
        rfl
      · simp only [handle, hread]

/-- **What `indexDirectory` puts**: the chunks of the files at visible paths, unless the directory's
own name starts with a dot. -/
theorem wp_indexDirectory {dir : Bytes} (hd : isAbs dir) (hs : isAbs store.baseDir)
    (hout : ∀ q, Visible q → ¬ resolve store.baseDir <+: resolve dir ++ q) {w : World ν}
    (hwf : w.fs.WF) (hready : store.Ready w.fs) (hclear : store.Clear w.fs) :
    Prog.wp (handle answer) (fun _ => True) (indexDirectory dir store) (fun _ w' => ∃ fs' cs,
      w' = { w with fs := fs' } ∧ store.Stored w.fs cs fs' ∧
      (∀ c ∈ cs, (sum256 c.data).bytes = c.hash) ∧ ∀ k, k ∈ cs ↔ Merkle.hidden (base dir) = false ∧
        ∃ q c, Visible q ∧ Os.content w.fs (resolve dir ++ q) = some c ∧ k ∈ chunksOf c) w := by
  obtain ⟨n, cs, w', hrun, ⟨hw', hst⟩, hhash, hcs⟩ := (putting_tree hs hout w.fs).indexDirectory hd
    rfl ⟨hready, hclear, fun _ _ => rfl⟩ (s := w) (r := Os.stat w.fs (resolve dir)) rfl
    (fun e he => Os.wf_reach hwf _ _ (Os.stat_ok.1 he)) (fun _ _ _ _ _ hq _ => hq)
  refine Prog.wp_mono (Prog.wp_record Prog.wp_true) ?_
  rintro n' w'' ⟨-, hrun'⟩
  obtain ⟨rfl, rfl⟩ := Prod.mk.inj (hrun.symm.trans hrun')
  refine ⟨w'.fs, cs, hw', hst, hhash, fun k => (hcs k).trans (and_congr_right fun _ => ?_)⟩
  simp only [Os.stat_ok, Finds, List.nil_append, Os.content_eq_some_iff_reach]
  constructor
  · rintro ⟨e, c, hr, ⟨q, m, c', hq, -, hc⟩, hk⟩
    exact ⟨q, c, hq, hc, hk⟩
  · rintro ⟨q, c, hq, ⟨m, hc⟩, hk⟩
    have hc' := hc
    rw [Os.reach_append] at hc'
    cases hr : Os.reach w.fs (resolve dir) with
    | none => simp [hr] at hc'
    | some e => exact ⟨e, c, rfl, ⟨q, m, c, hq, by rwa [hr] at hc', m, hc⟩, hk⟩

end Tree

end FileSync.Cli
