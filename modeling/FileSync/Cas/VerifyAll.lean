import FileSync.Cas.Layout
import FileSync.Os.Walk

/-!
# Cas — the check of the whole store

`VerifyAll` of `internal/cas/store.go` walks the store's directory, reads the hash of each chunk
back from its path and checks the chunk.  What is not named like a chunk is passed over.

* `InOrder`: the files in the store's directory are chunks and temporary files, in its
  subdirectories.  Calls with hashes of 32 bytes keep it so, and so does writing over a chunk.
* `verifyAll_spec`: there, without links, `VerifyAll` does not fail, and the keys of its map are the
  names of the hashes whose chunks do not have them.  For paths with links see `Cli.LinkedStore`.
-/

open Sha256 Filepath

namespace FileSync.Cas.BlobStore

abbrev Corrupted := AList fun _ : Bytes => Err

/-- The function that `VerifyAll` passes to the walk: it fails on no file. -/
def checkFile (s : BlobStore) (corrupted : Corrupted) (v : Os.Visit) : Cmd Corrupted :=
  if v.entry.isDir then return corrupted
  else if ext v.path = tmpSuffix then return corrupted
  else match rel s.baseDir v.path with
    | none => return corrupted
    | some rel =>
      let hashHex := dir rel ++ base rel
      match Hex.decodeString hashHex with
      | none => return corrupted
      | some hash => do
          match ← s.verify hash with
          | .ok () => return corrupted
          | .error e => return corrupted.insert hashHex e

/-- `VerifyAll`: the map of what is corrupted, and the error. -/
def verifyAll (s : BlobStore) : Cmd (Corrupted × Option Err) := do
  match ← Sys.walkTree s.baseDir with
  | .error e => return (∅, some (.wrap "walking storage directory" (.errno e)))
  | .ok root =>
  match ← Os.walk (fun v corrupted => do return (.go, ← s.checkFile corrupted v)) s.baseDir
    (base s.baseDir) root ∅ with
  | (.fail e, corrupted) => return (corrupted, some (.wrap "walking storage directory" e))
  | (_, corrupted) => return (corrupted, none)

variable {s : BlobStore} {fs fs' : Os.Fs}

/-! ### The files of a store -/

/-- Every file in the store's directory is a chunk's or a temporary one. -/
def Named (s : BlobStore) (fs : Os.Fs) : Prop :=
  ∀ names m c, Os.view fs (resolve s.baseDir ++ names) = some (.file m c) →
    ∃ hash : Bytes, hash.length = 32 ∧
      (resolve s.baseDir ++ names = s.place hash ∨ resolve s.baseDir ++ names = s.temp hash)

structure InOrder (s : BlobStore) (fs : Os.Fs) : Prop where
  tidy : s.Tidy fs
  named : s.Named fs
  wf : fs.WF

theorem PutEffect.named {chunk : Chunk} (hlen : chunk.hash.length = 32)
    (h : PutEffect s chunk fs fs') (hn : s.Named fs) : s.Named fs' := by
  intro names m c hv
  by_cases hplace : resolve s.baseDir ++ names = s.place chunk.hash
  · exact ⟨chunk.hash, hlen, .inl hplace⟩
  by_cases htemp : resolve s.baseDir ++ names = s.temp chunk.hash
  · exact ⟨chunk.hash, hlen, .inr htemp⟩
  rcases h.elsewhere _ hplace htemp with heq | ⟨-, -, m', hm'⟩
  · exact hn names m c (heq ▸ hv)
  · exact nomatch hm'.symm.trans hv

theorem Effect.named {c : Call} (hlen : c.hash.length = 32) (h : s.Effect fs fs' c)
    (hn : s.Named fs) : s.Named fs' := by
  cases c with
  | put chunk => exact h.1.named hlen hn
  | delete hash =>
    intro names m c hv
    rw [show Os.view fs' = _ from h, Function.update_apply] at hv
    split at hv
    · cases hv
    · exact hn names m c hv
  | get | has | verify => exact h ▸ hn

/-- The content of a chunk is replaced. -/
theorem tidy_and_named_overwrite (ht : s.Tidy fs) (hn : s.Named fs)
    {hash : Bytes} (hlen : hash.length = 32) {m : UInt32} {data : Bytes}
    (hview : Os.view fs' = Function.update (Os.view fs) (s.place hash) (some (.file m data))) :
    s.Tidy fs' ∧ s.Named fs' := by
  have hshort : ∀ x : Bytes, x.length ≤ 1 → s.place x ≠ s.place hash := by
    intro x hx hp
    rw [s.place_injective hp] at hx
    omega
  refine ⟨⟨⟨?_, fun x hx m' => ?_⟩, fun x hx m' c => ?_, fun x hx m' => ?_⟩,
    fun names m' c hv => ?_⟩
  · rw [Holds, hview, Function.update_of_ne (hshort [] (by simp))]
    exact ht.ready.base
  · rw [hview, Function.update_apply]
    split
    · simp
    · exact ht.ready.temp x hx m'
  · rw [hview, Function.update_of_ne (hshort x hx)]
    exact ht.clear x hx m' c
  · rw [hview, Function.update_apply]
    split
    · simp
    · exact ht.leaf x hx m'
  · rw [hview, Function.update_apply] at hv
    split at hv
    · next heq => exact ⟨hash, hlen, .inl heq⟩
    · exact hn names m' c hv

theorem tidy_and_named_of_empty (hs : isAbs s.baseDir) {m : UInt32}
    (h : Os.reach fs (resolve s.baseDir) = some (.dir m [])) : s.Tidy fs ∧ s.Named fs := by
  refine ⟨tidy_of_empty hs h, fun names m c hv => ?_⟩
  by_cases hnil : names = []
  · subst hnil
    rw [List.append_nil, Os.view, h] at hv
    cases hv
  · rw [view_below_empty h hnil] at hv
    cases hv

/-- What is below the store's directory decides. -/
theorem tidy_and_named_congr (hs : isAbs s.baseDir)
    (hsame : ∀ q, Os.view fs' (resolve s.baseDir ++ q) = Os.view fs (resolve s.baseDir ++ q))
    (ht : s.Tidy fs) (hn : s.Named fs) : s.Tidy fs' ∧ s.Named fs' := by
  have hplace (hash : Bytes) : Os.view fs' (s.place hash) = Os.view fs (s.place hash) :=
    hsame (loc hash)
  refine ⟨⟨⟨?_, fun x hx m => ?_⟩, fun x hx m c => ?_, fun x hx m => ?_⟩, fun names m c hv => ?_⟩
  · rw [Holds, hplace]
    exact ht.ready.base
  · obtain ⟨e, c, -, htemp, -⟩ := place_eq_concat hs hx
    rw [htemp, List.append_assoc, hsame, ← List.append_assoc, ← htemp]
    exact ht.ready.temp x hx m
  · rw [hplace]
    exact ht.clear x hx m c
  · rw [hplace]
    exact ht.leaf x hx m
  · rw [hsame] at hv
    exact hn names m c hv

/-- The store's directory is a directory. -/
theorem Tidy.root (h : s.Tidy fs) :
    ∃ root, Os.reach fs (resolve s.baseDir) = some root ∧ root.isDir = true := by
  have hbase : s.place [] = resolve s.baseDir := by simp [place, loc]
  have hholds := h.ready.base
  have hclear := h.clear [] (by simp)
  rw [Holds, hbase, Os.view] at hholds
  rw [hbase, Os.view] at hclear
  rcases hroot : Os.reach fs (resolve s.baseDir) with _ | ⟨mode, data⟩ | ⟨mode, es⟩
  · rw [hroot] at hholds
    exact (hholds rfl).elim
  · rw [hroot] at hclear
    exact (hclear mode data rfl).elim
  · exact ⟨_, rfl, rfl⟩

/-! ### From the path to the hash and back -/

theorem loc_of_length {hash : Bytes} (hlen : 2 ≤ hash.length) :
    ∃ x r, hash = x :: r ∧ r ≠ [] ∧ loc hash = [Hex.encode [x], Hex.encode r] := by
  rcases hash with _ | ⟨x, _ | ⟨y, r⟩⟩
  · simp at hlen
  · simp at hlen
  · exact ⟨x, y :: r, rfl, by simp, rfl⟩

/-- A temporary file is known by its extension, which no chunk has. -/
theorem ext_temp_and_place (hs : isAbs s.baseDir) {hash : Bytes} (hne : hash ≠ []) :
    ext (ofNames (s.temp hash)) = tmpSuffix ∧ ext (ofNames (s.place hash)) = [] := by
  obtain ⟨d, c, hplace, htemp, -⟩ := place_eq_concat hs hne
  have hd : ∀ n ∈ resolve s.baseDir ++ d, Plain n := fun n hn =>
    plain_of_mem_place (s := s) (by rw [hplace]; exact List.mem_append_left _ hn)
  have hdigits {b : UInt8} (hb : b ∈ Hex.encode c) : b ≠ 46 ∧ b ≠ 47 := Hex.ne_of_mem_encode hb
  have hslash : 47 ∉ Hex.encode c := fun h => (hdigits h).2 rfl
  have hdot : 46 ∉ Hex.encode c := fun h => (hdigits h).1 rfl
  constructor
  · have hlast : (Hex.encode c ++ tmpSuffix).rtakeWhile (· ≠ 46) = [116, 109, 112] :=
      rtakeWhile_append_cons (by decide)
    rw [htemp, ext_ofNames hd (by simp [hslash, tmpSuffix]), if_pos (by simp [tmpSuffix]), hlast]
    rfl
  · rw [hplace, ext_ofNames hd hslash, if_neg hdot]

/-- The path of a chunk below the store's directory, put together as `VerifyAll` does. -/
theorem hashHex_of_loc {hash : Bytes} (hlen : hash.length = 32) :
    dir (relative (loc hash)) ++ base (relative (loc hash)) = Hex.encode hash := by
  obtain ⟨x, r, rfl, hr, hloc⟩ := loc_of_length (by omega : 2 ≤ hash.length)
  have hslash := (plain_encode hr).no_slash
  have hdir : dir (relative ([Hex.encode [x]] ++ [Hex.encode r])) = relative [Hex.encode [x]] :=
    dir_relative (List.forall_mem_singleton.2 (plain_encode (by simp))) (by simp) hslash
  have hbase : base (relative ([Hex.encode [x]] ++ [Hex.encode r])) = Hex.encode r := by
    rw [relative_concat, if_neg (by simp), base_append hslash (plain_encode hr).ne_nil]
  rw [hloc, show [Hex.encode [x], Hex.encode r] = [Hex.encode [x]] ++ [Hex.encode r] from rfl,
    hdir, hbase]
  simp [relative, List.intercalate, Hex.encode_cons]

/-! ### The walk -/

section Walk
variable {ν : Type} {peer : Proto.Request → ν → Proto.Exchange × ν} {w : World ν}

/-- The path is the one of a chunk that does not have the hash it is kept under. -/
def Flawed (s : BlobStore) (fs : Os.Fs) (path hash : Bytes) : Prop :=
  path = s.chunkPath (Hex.encode hash) ∧
    ∃ c, s.blob fs hash = some c ∧ (sum256 c).bytes ≠ hash

/-- The map has the names of these hashes. -/
def Marks (corrupted : Corrupted) (bad : Bytes → Prop) : Prop :=
  ∀ key, corrupted.lookup key ≠ none ↔ ∃ hash, bad hash ∧ Hex.encode hash = key

theorem Marks.insert {corrupted : Corrupted} {bad : Bytes → Prop} (h : Marks corrupted bad)
    (hash : Bytes) (e : Err) :
    Marks (corrupted.insert (Hex.encode hash) e) fun hash' => bad hash' ∨ hash' = hash := by
  intro key
  simp only [or_and_right, exists_or, exists_eq_left]
  by_cases hkey : key = Hex.encode hash
  · subst hkey
    rw [AList.lookup_insert]
    exact iff_of_true (Option.some_ne_none e) (.inr rfl)
  · rw [AList.lookup_insert_ne hkey, h key]
    exact (or_iff_left (Ne.symm hkey)).symm

theorem Marks.congr {corrupted : Corrupted} {bad bad' : Bytes → Prop} (h : Marks corrupted bad)
    (hiff : ∀ hash, bad hash ↔ bad' hash) : Marks corrupted bad' := by
  obtain rfl : bad = bad' := by
    ext hash
    exact hiff hash
  exact h

section Seen
variable (hs : isAbs s.baseDir) {root : Os.Entry}
  (hroot : Os.reach w.fs (resolve s.baseDir) = some root) (hwf : w.fs.WF) {names : List Bytes}
  {v : Os.Visit} (hseen : Os.Seen (fun _ => false) s.baseDir (base s.baseDir) root names v)

include hs hroot hwf hseen

/-- What is visited stands where its path leads. -/
theorem resolve_seen : resolve v.path = resolve s.baseDir ++ names ∧
    Os.reach w.fs (resolve s.baseDir ++ names) = some v.entry := by
  have hplain := Os.plain_of_reach (Os.wf_reach hwf _ _ hroot) hseen.reached
  refine ⟨?_, by rw [Os.reach_append, hroot, hseen.reached]⟩
  rw [hseen.path_eq]
  by_cases hnil : names = []
  · rw [hnil, List.append_nil]
    rfl
  · rw [pathOf_of_isAbs hs hplain hnil]
    refine resolve_ofNames (List.forall_mem_append.2 ⟨fun _ => plain_of_mem_resolve, hplain⟩)

/-- A flaw is found at a file, and at the place of the hash. -/
theorem place_of_flawed {hash : Bytes} (h : s.Flawed w.fs v.path hash) :
    s.place hash = resolve s.baseDir ++ names ∧ v.entry.isDir = false := by
  obtain ⟨hpath, c, hblob, -⟩ := h
  obtain ⟨hres, hreach⟩ := resolve_seen hs hroot hwf hseen
  rw [hpath, resolve_chunkPath hs] at hres
  refine ⟨hres, ?_⟩
  obtain ⟨m, hview⟩ := Os.content_eq_some.1 hblob
  rw [hres, Os.view, hreach] at hview
  cases hentry : v.entry with
  | file => rfl
  | dir => rw [hentry] at hview; cases hview

end Seen

/-- A chunk is checked. -/
theorem wp_checkFile_chunk (hs : isAbs s.baseDir) {v : Os.Visit} (hfile : v.entry.isDir = false)
    {hash data : Bytes} (hlen : hash.length = 32) (hpath : v.path = pathOf s.baseDir (loc hash))
    (hblob : s.blob w.fs hash = some data) {corrupted : Corrupted} {bad : Bytes → Prop}
    (hmarks : Marks corrupted bad) :
    Prog.wp (handle peer) (fun _ => True) (s.checkFile corrupted v)
      (fun corrupted' w' => w' = w ∧
        Marks corrupted' fun hash => bad hash ∨ s.Flawed w.fs v.path hash) w := by
  obtain ⟨x, r, -, -, hloc⟩ := loc_of_length (by omega : 2 ≤ hash.length)
  have hne : loc hash ≠ [] := by simp [hloc]
  have hplain : ∀ n ∈ loc hash, Plain n := fun _ => plain_of_mem_loc
  have hnames : v.path = ofNames (s.place hash) := hpath.trans (pathOf_of_isAbs hs hplain hne)
  have hext : ext v.path ≠ tmpSuffix := by
    rw [hnames, (ext_temp_and_place hs (ne_nil_of_length hlen)).2]
    decide
  have hrel : rel s.baseDir v.path = some (relative (loc hash)) := by
    rw [hpath]
    refine rel_pathOf ?_ hplain hne
    intro hnil
    rw [hnil] at hs
    cases hs
  -- Only the hash of this chunk can be found at fault here.
  have hthis : ∀ hash', s.Flawed w.fs v.path hash' ↔
      hash' = hash ∧ (sum256 data).bytes ≠ hash := by
    intro hash'
    constructor
    · rintro ⟨heq, c, hblob', hsum⟩
      have hplace : s.place hash' = s.place hash := by
        rw [← resolve_chunkPath hs hash', ← heq, hnames,
          resolve_ofNames fun _ => plain_of_mem_place]
      obtain rfl := s.place_injective hplace
      rw [hblob] at hblob'
      cases hblob'
      exact ⟨rfl, hsum⟩
    · rintro ⟨rfl, hsum⟩
      exact ⟨hnames.trans (chunkPath_eq hs hash').symm, data, hblob, hsum⟩
  rw [checkFile, if_neg (by simp [hfile]), if_neg hext, hrel]
  dsimp only
  rw [hashHex_of_loc hlen, Hex.decodeString_encode]
  refine Prog.wp_bind.2 (wp_verify hs trivial (fun c hc hsum => ?_) fun hbad e => ?_)
  · rw [hblob] at hc
    cases hc
    exact ⟨rfl, hmarks.congr fun hash' => (or_iff_left fun h => ((hthis hash').1 h).2 hsum).symm⟩
  · refine ⟨rfl, (hmarks.insert hash e).congr fun hash' => or_congr_right ?_⟩
    rw [hthis, and_iff_left (hbad data hblob)]

/-- One file is checked. -/
theorem wp_checkFile (hs : isAbs s.baseDir) (hord : s.InOrder w.fs) {root : Os.Entry}
    (hroot : Os.reach w.fs (resolve s.baseDir) = some root) {v : Os.Visit}
    (hv : v ∈ Os.visits (fun _ => false) s.baseDir (base s.baseDir) root)
    {corrupted : Corrupted} {bad : Bytes → Prop} (hmarks : Marks corrupted bad) :
    Prog.wp (handle peer) (fun _ => True) (s.checkFile corrupted v)
      (fun corrupted' w' => w' = w ∧
        Marks corrupted' fun hash => bad hash ∨ s.Flawed w.fs v.path hash) w := by
  have hwfroot : root.WF := Os.wf_reach hord.wf _ _ hroot
  obtain ⟨names, hseen⟩ := (Os.enumerates_visits _ hwfroot _ _).mem_iff.1 hv
  have hflawed {hash : Bytes} (h : s.Flawed w.fs v.path hash) :=
    place_of_flawed hs hroot hord.wf hseen h
  have hsame (hnone : ∀ hash, ¬ s.Flawed w.fs v.path hash) :
      Marks corrupted fun hash => bad hash ∨ s.Flawed w.fs v.path hash :=
    hmarks.congr fun hash => (or_iff_left (hnone hash)).symm
  cases hentry : v.entry with
  | dir mode es =>
    rw [checkFile, if_pos (by rw [hentry]; rfl)]
    refine ⟨rfl, hsame fun hash h => ?_⟩
    have hfile := (hflawed h).2
    rw [hentry] at hfile
    cases hfile
  | file mode content =>
    obtain ⟨-, hreach⟩ := resolve_seen hs hroot hord.wf hseen
    have hview : Os.view w.fs (resolve s.baseDir ++ names) = some (.file mode content) := by
      rw [Os.view, hreach, hentry]
      rfl
    obtain ⟨hash, hlen, hplace | htemp⟩ := hord.named names mode content hview
    · have hnames : names = loc hash := List.append_cancel_left hplace
      refine wp_checkFile_chunk hs (by rw [hentry]; rfl) hlen ?_
        (blob_of_view (hplace ▸ hview)) hmarks
      rw [hseen.path_eq, hnames]
    · have hne : names ≠ [] := by
        rintro rfl
        exact hord.tidy.clear [] (by simp) mode content hview
      have hhash := ne_nil_of_length hlen
      have hext : ext v.path = tmpSuffix := by
        rw [hseen.path_eq, pathOf_of_isAbs hs (Os.plain_of_reach hwfroot hseen.reached) hne,
          htemp, (ext_temp_and_place hs hhash).1]
      rw [checkFile, if_neg (by simp [hentry, Os.Entry.isDir]), if_pos hext]
      refine ⟨rfl, hsame fun hash' h => ?_⟩
      exact temp_ne_place hs hhash hash' (htemp.symm.trans (hflawed h).1.symm)

/-- The loop over what is visited. -/
theorem wp_checkFiles (hs : isAbs s.baseDir) (hord : s.InOrder w.fs) {root : Os.Entry}
    (hroot : Os.reach w.fs (resolve s.baseDir) = some root) {vs : List Os.Visit}
    (hvs : vs = Os.visits (fun _ => false) s.baseDir (base s.baseDir) root) :
    Prog.wp (handle peer) (fun _ => True) (vs.foldlM s.checkFile ∅)
      (fun corrupted w' => w' = w ∧
        Marks corrupted fun hash => ∃ v ∈ vs, s.Flawed w.fs v.path hash) w := by
  refine Prog.wp_foldlM (J := fun (done : List Os.Visit) corrupted w' => w' = w ∧
    Marks corrupted fun hash => ∃ v ∈ done, s.Flawed w.fs v.path hash) ?_ ⟨rfl, ?_⟩
  · rintro done v corrupted w' hv ⟨rfl, hmarks⟩
    refine Prog.wp_mono (wp_checkFile hs hord hroot (hvs ▸ hv) hmarks) ?_
    rintro corrupted' w'' ⟨hw, hmarks'⟩
    refine ⟨hw, hmarks'.congr fun hash => ?_⟩
    simp [or_and_right, exists_or]
  · intro key
    simp

/-- Every chunk is come to. -/
theorem flawed_visits_iff (hs : isAbs s.baseDir) (hord : s.InOrder w.fs) {root : Os.Entry}
    (hroot : Os.reach w.fs (resolve s.baseDir) = some root) (hdir : root.isDir = true)
    (hash : Bytes) :
    (∃ v ∈ Os.visits (fun _ => false) s.baseDir (base s.baseDir) root,
        s.Flawed w.fs v.path hash) ↔
      ∃ c, s.blob w.fs hash = some c ∧ (sum256 c).bytes ≠ hash := by
  refine ⟨fun ⟨_, _, hflawed⟩ => hflawed.2, fun hflaw => ?_⟩
  obtain ⟨c, hblob, -⟩ := id hflaw
  obtain ⟨mode, hview⟩ := Os.content_eq_some.1 hblob
  obtain ⟨entry, hentry⟩ : ∃ entry, Os.reach (some root) (loc hash) = some entry := by
    rw [Os.view, place, Os.reach_append, hroot] at hview
    obtain ⟨entry, hentry, -⟩ := Option.map_eq_some_iff.1 hview
    exact ⟨entry, hentry⟩
  have hne : loc hash ≠ [] := by
    intro hnil
    rw [place, hnil, List.append_nil, Os.view, hroot] at hview
    cases root with
    | file => cases hdir
    | dir => cases hview
  have hseen : Os.Seen (fun _ => false) s.baseDir (base s.baseDir) root (loc hash)
      ⟨pathOf s.baseDir (loc hash), (base s.baseDir :: loc hash).getLast (by simp), entry⟩ :=
    ⟨fun _ _ => rfl, hentry, rfl, List.getLast?_eq_some_getLast _⟩
  have hwfroot : root.WF := Os.wf_reach hord.wf _ _ hroot
  refine ⟨_, (Os.enumerates_visits _ hwfroot _ _).mem_iff.2 ⟨_, hseen⟩, ?_, hflaw⟩
  rw [chunkPath_eq hs]
  exact pathOf_of_isAbs hs (Os.plain_of_reach hwfroot hentry) hne

/-- **`VerifyAll` is exact** on a store that is in order, without links: it does not fail, it
changes nothing, and it names the hashes whose chunks do not have them. -/
theorem verifyAll_spec (hs : isAbs s.baseDir) (hord : s.InOrder w.fs) :
    ∃ corrupted, Prog.run (handle peer) s.verifyAll w = ((corrupted, none), w) ∧
      Marks corrupted fun hash => ∃ c, s.blob w.fs hash = some c ∧ (sum256 c).bytes ≠ hash := by
  suffices hwp : Prog.wp (handle peer) (fun _ => True) s.verifyAll
      (fun r w' => w' = w ∧ r.2 = none ∧ Marks r.1 fun hash =>
        ∃ c, s.blob w.fs hash = some c ∧ (sum256 c).bytes ≠ hash) w by
    obtain ⟨hw, hnone, hmarks⟩ := Prog.wp_run hwp
    exact ⟨_, Prod.ext (Prod.ext rfl hnone) hw, hmarks⟩
  obtain ⟨root, hroot, hdir⟩ := hord.tidy.root
  have hacts : Os.Acts (fun v corrupted => do return (.go, ← s.checkFile corrupted v)) s.checkFile
      (fun _ => false) (Os.visits (fun _ => false) s.baseDir (base s.baseDir) root) := by
    intro v _ corrupted
    simp
  refine wp_walkTree.2 ⟨trivial, ?_⟩
  rw [Os.stat_ok.2 hroot]
  dsimp only
  rw [Os.walk_eq_foldlM _ _ _ _ hacts, Prog.bind_assoc]
  refine Prog.wp_bind.2 (Prog.wp_mono (wp_checkFiles hs hord hroot rfl) ?_)
  rintro corrupted w' ⟨rfl, hmarks⟩
  exact ⟨rfl, rfl, hmarks.congr (flawed_visits_iff hs hord hroot hdir)⟩

end Walk

end FileSync.Cas.BlobStore
