import FileSync.System
import FileSync.Support.Hex

/-!
# Cas — the blob store

A directory of chunks, each in a file named by the hexadecimal digits of its hash: the first two
name a subdirectory, the others the file (`internal/cas/store.go`).  A chunk is written to a
temporary file beside its place and renamed to it, and what is stored is not written again.

A store is addressed by byte strings of any length: a hash of one byte is put at the place of a
subdirectory, and the empty hash at the store's own directory.

* `place` is where a hash is kept, and `blob` the content of the file there.
* `put_spec` says what a `Put` does at every step: other files are left alone, new directories may
  appear, and the place of the chunk goes from vacant to the chunk's data or stays as it is.
-/

open Sha256 Filepath

namespace FileSync.Cas

/-- `cas.Chunk`. -/
structure Chunk where
  hash : Bytes
  size : UInt32
  data : Bytes
deriving DecidableEq

structure BlobStore where
  baseDir : Bytes

/-- `Chunk.HashHex`. -/
def Chunk.hashHex (c : Chunk) : Bytes := Hex.encode c.hash

def prefixLength : ℕ := 2

def filePermissions : UInt32 := 0o600

def dirPermissions : UInt32 := 0o700

def bufferSize : ℕ := 64 * 1024

/-- The suffix `.tmp`. -/
def tmpSuffix : Bytes := [46, 116, 109, 112]

/-- The path `.storage/chunks`. -/
def defaultStorageDir : Bytes :=
  [46, 115, 116, 111, 114, 97, 103, 101, 47, 99, 104, 117, 110, 107, 115]

/-- `NewBlobStore`. -/
def newBlobStore (dir : Bytes) : Cmd (Except Err BlobStore) := do
  let dir := if dir = [] then defaultStorageDir else dir
  match ← Sys.mkdirAll dir dirPermissions with
  | .error e => return .error (.wrap "creating storage directory" (.errno e))
  | .ok () => return .ok ⟨dir⟩

namespace BlobStore

/-! ### The operations -/

def chunkPath (s : BlobStore) (hashHex : Bytes) : Bytes :=
  if hashHex.length < prefixLength then join [s.baseDir, hashHex]
  else join [s.baseDir, hashHex.take prefixLength, hashHex.drop prefixLength]

/-- The data through a buffered writer: one write, of all of it, when it is more than the buffer or
when the writer is flushed; none if there is none. -/
def writeData (path : Bytes) (data : Bytes) : Cmd (Except Err Unit) := do
  if data = [] then return .ok ()
  match ← Sys.write path data with
  | .ok () => return .ok ()
  | .error e =>
    return .error (.wrap
      (if bufferSize < data.length then "writing chunk data" else "flushing chunk data")
      (.errno e))

/-- The write of a chunk that is not there: to a temporary file, which is then renamed. -/
def writeNew (path data : Bytes) : Cmd (Except Err Bool) := do
  match ← Sys.mkdirAll (dir path) dirPermissions with
  | .error e => return .error (.wrapOf "creating chunk directory" (dir path) (.errno e))
  | .ok () =>
  let tmpPath := path ++ tmpSuffix
  match ← Sys.openTrunc tmpPath filePermissions with
  | .error e => return .error (.wrap "creating temp file" (.errno e))
  | .ok () =>
  match ← writeData tmpPath data with
  | .error e =>
    let _ ← Sys.remove tmpPath
    return .error e
  | .ok () =>
  match ← Sys.rename tmpPath path with
  | .error e =>
    let _ ← Sys.remove tmpPath
    return .error (.wrap "renaming chunk file" (.errno e))
  | .ok () => return .ok true

/-- `Put`: whether the chunk was newly written. -/
def put (s : BlobStore) (chunk : Chunk) : Cmd (Except Err Bool) := do
  let path := s.chunkPath chunk.hashHex
  match ← Sys.stat path with
  | .ok _ => return .ok false
  | .error _ => writeNew path chunk.data

/-- `Get`. -/
def get (s : BlobStore) (hash : Bytes) : Cmd (Except Err Chunk) := do
  let path := s.chunkPath (Hex.encode hash)
  match ← Sys.openRead path with
  | .error .notExist => return .error (.textOf "chunk not found" (Hex.encode hash))
  | .error e => return .error (.wrap "opening chunk file" (.errno e))
  | .ok () =>
  match ← Sys.readAll path with
  | .error e => return .error (.wrap "reading chunk data" (.errno e))
  | .ok data => return .ok ⟨hash, UInt32.ofNat data.length, data⟩

/-- `Has`. -/
def has (s : BlobStore) (hash : Bytes) : Cmd Bool := do
  match ← Sys.stat (s.chunkPath (Hex.encode hash)) with
  | .ok _ => return true
  | .error _ => return false

/-- `Verify`. -/
def verify (s : BlobStore) (hash : Bytes) : Cmd (Except Err Unit) := do
  let path := s.chunkPath (Hex.encode hash)
  match ← Sys.openRead path with
  | .error .notExist => return .error (.textOf "chunk not found" (Hex.encode hash))
  | .error e => return .error (.wrap "opening chunk for verification" (.errno e))
  | .ok () =>
  match ← Sys.readAll path with
  | .error e => return .error (.wrap "reading chunk for verification" (.errno e))
  | .ok data =>
  let computed := (sum256 data).bytes
  if computed ≠ hash then
    return .error (.textOf₂ "corruption detected: expected %s, got %s" (Hex.encode hash)
      (Hex.encode computed))
  return .ok ()

/-- `Delete`. -/
def delete (s : BlobStore) (hash : Bytes) : Cmd (Except Err Unit) := do
  match ← Sys.remove (s.chunkPath (Hex.encode hash)) with
  | .ok () => return .ok ()
  | .error .notExist => return .ok ()
  | .error e => return .error (.wrap "deleting chunk" (.errno e))

/-! ### Places -/

/-- The names below the store's directory under which a hash is kept. -/
def loc : Bytes → List Bytes
  | [] => []
  | [x] => [Hex.encode [x]]
  | x :: y :: r => [Hex.encode [x], Hex.encode (y :: r)]

/-- Where a hash is kept. -/
def place (s : BlobStore) (hash : Bytes) : List Bytes := resolve s.baseDir ++ loc hash

/-- Where a hash is written before it is renamed to its place. -/
def temp (s : BlobStore) (hash : Bytes) : List Bytes :=
  resolve (s.chunkPath (Hex.encode hash) ++ tmpSuffix)

/-- The content of the file kept under a hash. -/
def blob (s : BlobStore) (fs : Os.Fs) (hash : Bytes) : Option Bytes := Os.content fs (s.place hash)

/-- What `Has` answers for a hash. -/
def Holds (s : BlobStore) (fs : Os.Fs) (hash : Bytes) : Prop := Os.view fs (s.place hash) ≠ none

instance (s : BlobStore) (fs : Os.Fs) (hash : Bytes) : Decidable (s.Holds fs hash) :=
  inferInstanceAs (Decidable (_ ≠ _))

/-- A store as `NewBlobStore` opens it: its directory is there, and no directory stands where a
chunk is written before it is renamed. -/
structure Ready (s : BlobStore) (fs : Os.Fs) : Prop where
  base : s.Holds fs []
  temp : ∀ hash, hash ≠ [] → ∀ m, Os.view fs (s.temp hash) ≠ some (.dir m)

/-- Every blob's content has the hash that it is kept under. -/
def Sound (s : BlobStore) (fs : Os.Fs) : Prop :=
  ∀ hash c, s.blob fs hash = some c → (sum256 c).bytes = hash

theorem plain_encode {b : Bytes} (h : b ≠ []) : Plain (Hex.encode b) := by
  have hne : Hex.encode b ≠ [] := by
    cases b with
    | nil => exact (h rfl).elim
    | cons x b => simp [Hex.encode_cons]
  have hdot : 46 ∉ Hex.encode b := fun hm => (Hex.ne_of_mem_encode hm).1 rfl
  refine ⟨hne, ?_, ?_, fun hm => (Hex.ne_of_mem_encode hm).2 rfl⟩
  · intro he
    simp [he, dot] at hdot
  · intro he
    simp [he, dotdot] at hdot

theorem plain_encode_tmp {b : Bytes} (h : b ≠ []) : Plain (Hex.encode b ++ tmpSuffix) := by
  have hlen : 5 ≤ (Hex.encode b ++ tmpSuffix).length := by
    have := List.length_pos_of_ne_nil (plain_encode h).ne_nil
    simp [tmpSuffix]
    omega
  refine ⟨?_, ?_, ?_, ?_⟩
  · intro he
    simp [he] at hlen
  · intro he
    simp [he, dot] at hlen
  · intro he
    simp [he, dotdot] at hlen
  · rw [List.mem_append, not_or]
    exact ⟨(plain_encode h).no_slash, by decide⟩

theorem loc_injective : Function.Injective loc := by
  intro a b h
  match a, b with
  | [], [] => rfl
  | [x], [y] => exact Hex.encode_injective (List.cons.inj h).1
  | [], [_] | [], _ :: _ :: _ | [_], [] | [_], _ :: _ :: _ | _ :: _ :: _, [] | _ :: _ :: _, [_] =>
    simp [loc] at h
  | x :: y :: r, x' :: y' :: r' =>
    obtain ⟨hx, hr⟩ := List.cons.inj h
    obtain ⟨hr, -⟩ := List.cons.inj hr
    rw [List.singleton_inj.1 (Hex.encode_injective hx), Hex.encode_injective hr]

theorem place_injective (s : BlobStore) : Function.Injective s.place :=
  fun _ _ h => loc_injective (List.append_cancel_left h)

/-- Nothing is kept below the place of a hash of two bytes or more. -/
theorem eq_of_place_below (s : BlobStore) {h h' : Bytes} (hlen : 2 ≤ h.length)
    (hpre : s.place h <+: s.place h') : h = h' := by
  refine s.place_injective (hpre.eq_of_length_le ?_)
  have hloc (b : Bytes) : (loc b).length ≤ 2 := by
    match b with
    | [] | [_] | _ :: _ :: _ => simp [loc]
  match h, hlen with
  | x :: y :: r, _ => simpa [place, loc] using hloc h'

/-- A hash that is not empty is kept under a hexadecimal name. -/
theorem loc_eq_concat {hash : Bytes} (h : hash ≠ []) :
    ∃ d c, loc hash = d ++ [Hex.encode c] ∧ c ≠ [] ∧ ∀ n ∈ d, Plain n := by
  match hash, h with
  | [x], _ => exact ⟨[], [x], rfl, by simp, by simp⟩
  | x :: y :: r, _ =>
    exact ⟨[Hex.encode [x]], y :: r, rfl, by simp,
      by simpa using plain_encode (b := [x]) (by simp)⟩

variable {s : BlobStore}

theorem blob_eq_some {fs : Os.Fs} {hash c : Bytes} :
    s.blob fs hash = some c ↔ Os.read fs (s.place hash) = .ok c := by
  rw [Os.read_ok, blob, Os.content_eq_some]

theorem blob_of_view {fs : Os.Fs} {hash c : Bytes} {m : UInt32}
    (h : Os.view fs (s.place hash) = some (.file m c)) : s.blob fs hash = some c :=
  Os.content_eq_some.2 ⟨m, h⟩

theorem chunkPath_eq (hs : isAbs s.baseDir) (hash : Bytes) :
    s.chunkPath (Hex.encode hash) = ofNames (s.place hash) := by
  have htake (x : UInt8) (r : Bytes) : (Hex.encode (x :: r)).take prefixLength = Hex.encode [x] :=
    rfl
  have hdrop (x : UInt8) (r : Bytes) : (Hex.encode (x :: r)).drop prefixLength = Hex.encode r :=
    rfl
  have hlen (x : UInt8) (r : Bytes) : ¬ (Hex.encode (x :: r)).length < prefixLength := by
    simp [Hex.encode_cons, prefixLength]
  unfold chunkPath place
  match hash with
  | [] => simp [prefixLength, join_of_isAbs hs, descend, loc]
  | [x] =>
    rw [if_neg (hlen x []), htake, hdrop, join_of_isAbs hs]
    simp only [List.flatMap_cons, List.flatMap_nil, List.foldl_append, List.foldl_nil, loc,
      foldl_split_plain (plain_encode (List.cons_ne_nil x [])), Hex.encode_nil, foldl_split_nil]
  | x :: y :: r =>
    rw [if_neg (hlen x _), htake, hdrop, join_of_isAbs hs]
    simp only [List.flatMap_cons, List.flatMap_nil, List.foldl_append, List.foldl_nil, loc,
      foldl_split_plain (plain_encode (List.cons_ne_nil x [])),
      foldl_split_plain (plain_encode (List.cons_ne_nil y r)), List.append_assoc,
      List.singleton_append]

theorem plain_of_mem_loc {hash n : Bytes} (h : n ∈ loc hash) : Plain n := by
  by_cases hne : hash = []
  · simp [hne, loc] at h
  · obtain ⟨d, c, hloc, hc, hd⟩ := loc_eq_concat hne
    rw [hloc, List.mem_append, List.mem_singleton] at h
    rcases h with h | rfl
    · exact hd n h
    · exact plain_encode hc

theorem plain_of_mem_place {hash n : Bytes} (h : n ∈ s.place hash) : Plain n :=
  (List.mem_append.1 h).elim plain_of_mem_resolve plain_of_mem_loc

theorem resolve_chunkPath (hs : isAbs s.baseDir) (hash : Bytes) :
    resolve (s.chunkPath (Hex.encode hash)) = s.place hash := by
  rw [chunkPath_eq hs, resolve_ofNames fun _ => plain_of_mem_place]

/-- The subdirectory of a place and the temporary file beside it. -/
theorem place_eq_concat (hs : isAbs s.baseDir) {hash : Bytes} (h : hash ≠ []) :
    ∃ d c, s.place hash = resolve s.baseDir ++ d ++ [Hex.encode c] ∧
      s.temp hash = resolve s.baseDir ++ d ++ [Hex.encode c ++ tmpSuffix] ∧
      resolve (dir (s.chunkPath (Hex.encode hash))) = resolve s.baseDir ++ d := by
  obtain ⟨d, c, hloc, hc, -⟩ := loc_eq_concat h
  have hplace : s.place hash = resolve s.baseDir ++ d ++ [Hex.encode c] := by
    rw [place, hloc, List.append_assoc]
  have hd : ∀ n ∈ resolve s.baseDir ++ d, Plain n := fun n hn =>
    plain_of_mem_place (s := s) (by rw [hplace]; exact List.mem_append_left _ hn)
  refine ⟨d, c, hplace, ?_, ?_⟩
  · rw [temp, chunkPath_eq hs, hplace, resolve_ofNames_append hd (plain_encode_tmp hc)]
  · rw [chunkPath_eq hs, hplace, dir_ofNames hd (plain_encode hc), resolve_ofNames hd]

theorem dot_notMem_loc {hash n : Bytes} (h : n ∈ loc hash) : 46 ∉ n := by
  have hdot (b : Bytes) : 46 ∉ Hex.encode b := fun hm => (Hex.ne_of_mem_encode hm).1 rfl
  match hash with
  | [] => cases h
  | [x] => exact List.mem_singleton.1 h ▸ hdot [x]
  | x :: y :: r =>
    rcases List.mem_cons.1 h with rfl | h
    · exact hdot [x]
    · exact List.mem_singleton.1 h ▸ hdot (y :: r)

/-- No hash is kept in a temporary file. -/
theorem temp_ne_place (hs : isAbs s.baseDir) {hash : Bytes} (h : hash ≠ []) (hash' : Bytes) :
    s.temp hash ≠ s.place hash' := by
  obtain ⟨d, c, -, htemp, -⟩ := place_eq_concat hs h
  intro heq
  rw [htemp, List.append_assoc, place] at heq
  have hmem : Hex.encode c ++ tmpSuffix ∈ loc hash' := by
    rw [← List.append_cancel_left heq]
    simp
  exact dot_notMem_loc hmem (by simp [tmpSuffix])

/-! ### What `Put` does -/

/-- What a `Put` of the chunk may have made of the file system at any of its steps. -/
structure PutEffect (s : BlobStore) (chunk : Chunk) (fs fs' : Os.Fs) : Prop where
  elsewhere : ∀ q, q ≠ s.place chunk.hash → q ≠ s.temp chunk.hash →
    Os.view fs' q = Os.view fs q ∨ (Os.view fs q = none ∧ q <+: (s.place chunk.hash).dropLast ∧
      ∃ m, Os.view fs' q = some (.dir m))
  there : Os.view fs' (s.place chunk.hash) = Os.view fs (s.place chunk.hash) ∨
    (Os.view fs (s.place chunk.hash) = none ∧
      ∃ m, Os.view fs' (s.place chunk.hash) = some (.file m chunk.data))
  beside : ∀ m, Os.view fs' (s.temp chunk.hash) = some (.dir m) →
    Os.view fs (s.temp chunk.hash) = some (.dir m)
  home : chunk.hash = [] → fs' = fs

namespace PutEffect

variable {chunk : Chunk} {fs fs₁ fs₂ : Os.Fs}

theorem refl : PutEffect s chunk fs fs :=
  ⟨fun _ _ _ => Or.inl rfl, Or.inl rfl, fun _ h => h, fun _ => rfl⟩

/-- What is made of the temporary file, other than a directory. -/
theorem temp (h : PutEffect s chunk fs fs₁) (hhash : chunk.hash ≠ [])
    (hne : s.temp chunk.hash ≠ s.place chunk.hash) {o : Option Os.Kind}
    (ho : ∀ m, o ≠ some (.dir m))
    (hv : Os.view fs₂ = Function.update (Os.view fs₁) (s.temp chunk.hash) o) :
    PutEffect s chunk fs fs₂ := by
  refine ⟨fun q hp ht => ?_, ?_, fun m hm => ?_, fun h => (hhash h).elim⟩
  · rw [hv, Function.update_of_ne ht]
    exact h.elsewhere q hp ht
  · rw [hv, Function.update_of_ne hne.symm]
    exact h.there
  · rw [hv, Function.update_self] at hm
    exact (ho m hm).elim

/-- Directories above the place are made. -/
theorem made (hs : isAbs s.baseDir) (hhash : chunk.hash ≠ []) {p : List Bytes} {mode : UInt32}
    (hp : p <+: (s.place chunk.hash).dropLast) (h : Os.mkdirAll fs p mode = .ok fs₁) :
    PutEffect s chunk fs fs₁ := by
  obtain ⟨d, c, hplace, htemp, -⟩ := place_eq_concat hs hhash
  have hle : p.length ≤ (resolve s.baseDir ++ d).length := by
    rw [hplace, List.dropLast_concat] at hp
    exact hp.length_le
  refine ⟨fun q _ _ => ?_, Or.inl (Os.view_mkdirAll_below h ?_), fun m hm => ?_,
    fun h => (hhash h).elim⟩
  · rw [(Os.mkdirAll_ok h).2]
    split
    · next hpre => exact Or.inr ⟨hpre.2, hpre.1.trans hp, _, rfl⟩
    · exact Or.inl rfl
  · rw [hplace, List.length_append]
    exact Nat.lt_succ_of_le hle
  · rwa [Os.view_mkdirAll_below h] at hm
    rw [htemp, List.length_append]
    exact Nat.lt_succ_of_le hle

/-- The temporary file renamed to the place. -/
theorem placed (h : PutEffect s chunk fs fs₁) (hhash : chunk.hash ≠ [])
    (hne : s.temp chunk.hash ≠ s.place chunk.hash) (hvac : Os.view fs (s.place chunk.hash) = none)
    {m : UInt32} (hv : Os.view fs₂ = Function.update (Function.update (Os.view fs₁)
      (s.temp chunk.hash) none) (s.place chunk.hash) (some (.file m chunk.data))) :
    PutEffect s chunk fs fs₂ ∧ Os.view fs₂ (s.place chunk.hash) = some (.file m chunk.data) := by
  have hthere : Os.view fs₂ (s.place chunk.hash) = some (.file m chunk.data) := by
    rw [hv, Function.update_self]
  refine ⟨⟨fun q hq ht => ?_, Or.inr ⟨hvac, m, hthere⟩, fun m hm => by simp [hv, hne] at hm,
    fun h => (hhash h).elim⟩, hthere⟩
  rw [hv, Function.update_of_ne hq, Function.update_of_ne ht]
  exact h.elsewhere q hq ht

end PutEffect

/-- What a `Put` that has returned `r` has made of the file system. -/
def PutResult (s : BlobStore) (chunk : Chunk) (fs fs' : Os.Fs) : Except Err Bool → Prop
  | .ok false => fs' = fs ∧ Os.view fs (s.place chunk.hash) ≠ none
  | .ok true => Os.view fs (s.place chunk.hash) = none ∧
      ∃ m, Os.view fs' (s.place chunk.hash) = some (.file m chunk.data)
  | .error _ => Os.view fs (s.place chunk.hash) = none ∧ Os.view fs' (s.place chunk.hash) = none ∧
      (¬ Os.NoFile fs (s.place chunk.hash).dropLast ∨
        ∃ m, Os.view fs (s.temp chunk.hash) = some (.dir m))

section Put

variable {ν : Type} {peer : Proto.Request → ν → Proto.Exchange × ν} {I : World ν → Prop}
  {w : World ν} {chunk : Chunk}

/-- The write of the data to an empty temporary file. -/
theorem wp_writeData {path : Bytes} {m : UInt32} {w : World ν}
    {Q : Except Err Unit → World ν → Prop}
    (hfile : Os.view w.fs (resolve path) = some (.file m []))
    (h : ∀ fs', Os.view fs' = Function.update (Os.view w.fs) (resolve path)
      (some (.file m chunk.data)) → I { w with fs := fs' } ∧ Q (.ok ()) { w with fs := fs' }) :
    Prog.wp (handle peer) I (writeData path chunk.data) Q w := by
  unfold writeData
  split
  · next hnil =>
      refine (h w.fs ?_).2
      rw [hnil, ← hfile, Function.update_eq_self]
  · refine wp_change (fun e he => ?_) (fun fs' hfs' => ?_)
    · obtain ⟨fs', hfs'⟩ := Os.append_succeeds hfile chunk.data
      exact nomatch hfs'.symm.trans he
    · obtain ⟨m', c, hv, hview⟩ := Os.append_ok hfs'
      obtain ⟨rfl, rfl⟩ := Os.Kind.file.inj (Option.some.inj (hfile.symm.trans hv))
      exact h fs' hview

/-- The temporary file, with all the data, is renamed to the place. -/
theorem wp_rename_temp (hs : isAbs s.baseDir) (hne : chunk.hash ≠ []) {fs : Os.Fs}
    (heff : PutEffect s chunk fs w.fs) (hvac : Os.view fs (s.place chunk.hash) = none)
    {m md : UInt32} (hsrc : Os.view w.fs (s.temp chunk.hash) = some (.file m chunk.data))
    (hplace : Os.view w.fs (s.place chunk.hash) = none)
    (hsub : Os.view w.fs (s.place chunk.hash).dropLast = some (.dir md))
    {k : Except Errno Unit → Cmd (Except Err Bool)} {Q : Except Err Bool → World ν → Prop}
    (hok : ∀ fs', PutEffect s chunk fs fs' →
      Os.view fs' (s.place chunk.hash) = some (.file m chunk.data) →
      I { w with fs := fs' } ∧ Prog.wp (handle peer) I (k (.ok ())) Q { w with fs := fs' }) :
    Prog.wp (handle peer) I
      (Sys.rename (s.chunkPath (Hex.encode chunk.hash) ++ tmpSuffix)
        (s.chunkPath (Hex.encode chunk.hash)) >>= k) Q w := by
  have hres := resolve_chunkPath hs chunk.hash
  refine wp_change (fun e he => ?_) (fun fs' h => ?_)
  · obtain ⟨fs', hfs'⟩ := Os.rename_succeeds hsrc hsub (by simp [hplace])
    rw [← hres] at hfs'
    exact nomatch hfs'.symm.trans he
  · obtain ⟨m', k, hv, hview⟩ := Os.rename_ok h
    obtain ⟨rfl, rfl⟩ := Os.Kind.file.inj (Option.some.inj (hsrc.symm.trans hv))
    rw [hres] at hview
    obtain ⟨heff', hthere⟩ := heff.placed hne (temp_ne_place hs hne _) hvac hview
    exact hok fs' heff' hthere

theorem writeNew_spec (hs : isAbs s.baseDir) (hne : chunk.hash ≠ [])
    (hvac : Os.view w.fs (s.place chunk.hash) = none)
    (hI : ∀ fs', PutEffect s chunk w.fs fs' → I { w with fs := fs' }) :
    Prog.wp (handle peer) I (writeNew (s.chunkPath chunk.hashHex) chunk.data)
      (fun r w' => ∃ fs', w' = { w with fs := fs' } ∧
        PutEffect s chunk w.fs fs' ∧ PutResult s chunk w.fs fs' r) w := by
  obtain ⟨d, c, hplace, htemp, hdir⟩ := place_eq_concat hs hne
  have htp : s.temp chunk.hash ≠ s.place chunk.hash := temp_ne_place hs hne _
  have hdrop : (s.place chunk.hash).dropLast = resolve s.baseDir ++ d := by
    rw [hplace, List.dropLast_concat]
  have htdrop : (s.temp chunk.hash).dropLast = resolve s.baseDir ++ d := by
    rw [htemp, List.dropLast_concat]
  unfold writeNew Chunk.hashHex
  refine wp_change (fun e he => ⟨hI w.fs .refl, w.fs, rfl, .refl, hvac, hvac, Or.inl ?_⟩)
    (fun fs₁ h₁ => ?_)
  · intro hfree
    rw [hdrop, ← hdir] at hfree
    obtain ⟨fs', hfs'⟩ := Os.mkdirAll_succeeds hfree (perm w.umask dirPermissions)
    exact nomatch hfs'.symm.trans he
  rw [Change.apply, hdir] at h₁
  have heff₁ : PutEffect s chunk w.fs fs₁ := .made hs hne (hdrop ▸ List.prefix_rfl) h₁
  obtain ⟨md, hsub⟩ := Os.isDir_mkdirAll h₁
  have hplace₁ : Os.view fs₁ (s.place chunk.hash) = none := by
    rw [Os.view_mkdirAll_below h₁ (by simp [hplace]), hvac]
  have htemp₁ : Os.view fs₁ (s.temp chunk.hash) = Os.view w.fs (s.temp chunk.hash) :=
    Os.view_mkdirAll_below h₁ (by simp [htemp])
  refine ⟨hI fs₁ heff₁, wp_change (fun e he => ⟨hI fs₁ heff₁, fs₁, rfl, heff₁, hvac, hplace₁,
    Or.inr ?_⟩) (fun fs₂ h₂ => ?_)⟩
  · by_contra hnd
    obtain ⟨fs', hfs'⟩ := Os.createTrunc_succeeds (p := s.temp chunk.hash) (htdrop ▸ hsub)
      (fun m hm => hnd ⟨m, htemp₁ ▸ hm⟩) (perm w.umask filePermissions)
    exact nomatch hfs'.symm.trans he
  obtain ⟨m, hview₂, -⟩ := Os.createTrunc_ok h₂
  have heff₂ := heff₁.temp hne htp (by simp) hview₂
  refine ⟨hI fs₂ heff₂, Prog.wp_bind.2 (wp_writeData
    (by rw [hview₂]; exact Function.update_self ..) fun fs₃ hview₃ => ?_)⟩
  have heff₃ := heff₂.temp hne htp (by simp) hview₃
  have hview₃' : Os.view fs₃ =
      Function.update (Os.view fs₁) (s.temp chunk.hash) (some (.file m chunk.data)) := by
    rw [hview₃, hview₂]
    exact Function.update_idem ..
  have hsrc : Os.view fs₃ (s.temp chunk.hash) = some (.file m chunk.data) := by
    rw [hview₃', Function.update_self]
  have hplace₃ : Os.view fs₃ (s.place chunk.hash) = none := by
    rw [hview₃', Function.update_of_ne htp.symm, hplace₁]
  have hsub₃ : Os.view fs₃ (s.place chunk.hash).dropLast = some (.dir md) := by
    have hne' : resolve s.baseDir ++ d ≠ s.temp chunk.hash := fun h => by
      simpa [htemp] using congrArg List.length h
    rw [hview₃', hdrop, Function.update_of_ne hne', hsub]
  exact ⟨hI fs₃ heff₃, wp_rename_temp hs hne heff₃ hvac hsrc hplace₃ hsub₃ fun fs₄ heff₄ hthere =>
    ⟨hI fs₄ heff₄, fs₄, rfl, heff₄, hvac, m, hthere⟩⟩

/-- **What `Put` does.**  At every step, and at the end as its result says. -/
theorem put_spec (hs : isAbs s.baseDir) (hbase : s.Holds w.fs [])
    (hI : ∀ fs', PutEffect s chunk w.fs fs' → I { w with fs := fs' }) :
    Prog.wp (handle peer) I (s.put chunk) (fun r w' => ∃ fs', w' = { w with fs := fs' } ∧
      PutEffect s chunk w.fs fs' ∧ PutResult s chunk w.fs fs' r) w := by
  refine wp_stat.2 ⟨hI w.fs .refl, ?_⟩
  rw [Chunk.hashHex, resolve_chunkPath hs chunk.hash]
  cases hst : Os.stat w.fs (s.place chunk.hash) with
  | ok e => exact ⟨w.fs, rfl, .refl, rfl, by simp [Os.view, Os.stat_ok.1 hst]⟩
  | error e =>
    have hvac : Os.view w.fs (s.place chunk.hash) = none := by
      simp [Os.view, Os.reach_of_stat_error hst]
    -- The place of the empty hash is the store's own directory, which is there.
    have hne : chunk.hash ≠ [] := fun h => hbase (h ▸ hvac)
    exact writeNew_spec hs hne hvac hI

/-- `NewBlobStore` leaves the files alone, and the store that it opens has its directory. -/
theorem wp_newBlobStore {dir : Bytes} (hdir : dir ≠ []) {Q : Except Err BlobStore → World ν → Prop}
    (hI : ∀ fs', (∀ q, Os.content fs' q = Os.content w.fs q) → I { w with fs := fs' })
    (hok : ∀ fs', (∀ q, Os.content fs' q = Os.content w.fs q) → (mk dir).Holds fs' [] →
      Q (.ok ⟨dir⟩) { w with fs := fs' }) (herr : ∀ e, Q (.error e) w) :
    Prog.wp (handle peer) I (newBlobStore dir) Q w := by
  unfold newBlobStore
  rw [if_neg hdir]
  refine wp_change (fun e he => ⟨hI w.fs fun _ => rfl, herr _⟩) (fun fs₁ h₁ => ?_)
  have hsame := Os.content_mkdirAll h₁
  obtain ⟨m, hm⟩ := Os.isDir_mkdirAll h₁
  refine ⟨hI fs₁ hsame, hok fs₁ hsame ?_⟩
  simp [Holds, place, loc, hm]

/-- The file of a hash is opened and read to its end. -/
theorem wp_readBlob {α : Type} (hs : isAbs s.baseDir) {hash : Bytes} {Q : α → World ν → Prop}
    (hI : I w) {k : Except Errno Unit → Cmd α} {k' : Except Errno Bytes → Cmd α}
    (hk : k (.ok ()) = Sys.readAll (s.chunkPath (Hex.encode hash)) >>= k')
    (hok : ∀ c, s.blob w.fs hash = some c → Prog.wp (handle peer) I (k' (.ok c)) Q w)
    (herr : s.blob w.fs hash = none → ∀ e, Prog.wp (handle peer) I (k (.error e)) Q w ∧
      Prog.wp (handle peer) I (k' (.error e)) Q w) :
    Prog.wp (handle peer) I (Sys.openRead (s.chunkPath (Hex.encode hash)) >>= k) Q w := by
  refine wp_openRead.2 ⟨hI, ?_⟩
  rw [resolve_chunkPath hs]
  cases hst : Os.stat w.fs (s.place hash) with
  | error e =>
    refine (herr ?_ e).1
    simp [blob, Os.content, Os.view, Os.reach_of_stat_error hst]
  | ok e =>
    rw [Except.map, hk]
    refine wp_readAll.2 ⟨hI, ?_⟩
    rw [resolve_chunkPath hs]
    cases hr : Os.read w.fs (s.place hash) with
    | error e =>
      refine (herr (Option.eq_none_iff_forall_ne_some.2 fun c hc => ?_) e).2
      cases (blob_eq_some.1 hc).symm.trans hr
    | ok c => exact hok c (blob_eq_some.2 hr)

theorem wp_get (hs : isAbs s.baseDir) {hash : Bytes} {Q : Except Err Chunk → World ν → Prop}
    (hI : I w) (hok : ∀ c, s.blob w.fs hash = some c → Q (.ok ⟨hash, UInt32.ofNat c.length, c⟩) w)
    (herr : s.blob w.fs hash = none → ∀ e, Q (.error e) w) :
    Prog.wp (handle peer) I (s.get hash) Q w := by
  refine wp_readBlob hs hI rfl hok fun hnone e => ⟨?_, herr hnone _⟩
  cases e <;> exact herr hnone _

/-- `Verify` finds fault with a hash unless what is kept under it has that hash. -/
theorem wp_verify (hs : isAbs s.baseDir) {hash : Bytes} {Q : Except Err Unit → World ν → Prop}
    (hI : I w) (hok : ∀ c, s.blob w.fs hash = some c → (sum256 c).bytes = hash → Q (.ok ()) w)
    (herr : (∀ c, s.blob w.fs hash = some c → (sum256 c).bytes ≠ hash) → ∀ e, Q (.error e) w) :
    Prog.wp (handle peer) I (s.verify hash) Q w := by
  refine wp_readBlob hs hI rfl (fun c hc => ?_) fun hnone e => ⟨?_, herr (by simp [hnone]) _⟩
  · by_cases heq : (sum256 c).bytes = hash
    · simpa [heq] using hok c hc heq
    · simp only [heq, ne_eq, not_false_eq_true, ↓reduceIte]
      refine herr (fun c' hc' => ?_) _
      rw [Option.some.inj (hc'.symm.trans hc)]
      exact heq
  · cases e <;> exact herr (by simp [hnone]) _

theorem wp_has (hs : isAbs s.baseDir) {hash : Bytes} {Q : Bool → World ν → Prop} (hI : I w)
    (h : Q (decide (s.Holds w.fs hash)) w) :
    Prog.wp (handle peer) I (s.has hash) Q w := by
  refine wp_stat.2 ⟨hI, ?_⟩
  rw [resolve_chunkPath hs]
  unfold Holds at h
  cases hst : Os.stat w.fs (s.place hash) with
  | error e => simpa [Os.view, Os.reach_of_stat_error hst] using h
  | ok e => simpa [Os.view, Os.stat_ok.1 hst] using h

end Put

/-! ### The calls that read a chunk -/

section Within

variable {P : Op → Prop} {hash : Bytes}
  (hopen : P (.openRead (s.chunkPath (Hex.encode hash))))
  (hread : P (.readAll (s.chunkPath (Hex.encode hash))))
include hopen hread

theorem within_read {α : Type} {k : Except Errno Unit → Cmd α} {k' : Except Errno Bytes → Cmd α}
    (hk : k (.ok ()) = Sys.readAll (s.chunkPath (Hex.encode hash)) >>= k')
    (herr : ∀ e, Prog.Within P (k (.error e))) (hrest : ∀ r, Prog.Within P (k' r)) :
    Prog.Within P (Sys.openRead (s.chunkPath (Hex.encode hash)) >>= k) := by
  refine Prog.within_call_bind.2 ⟨hopen, fun r => ?_⟩
  cases r with
  | error e => exact herr e
  | ok _ =>
    rw [hk]
    exact Prog.within_call_bind.2 ⟨hread, hrest⟩

theorem within_get : Prog.Within P (s.get hash) := by
  refine within_read hopen hread rfl (fun e => ?_) fun r => ?_
  · cases e <;> exact Prog.within_ret _
  · cases r <;> exact Prog.within_ret _

theorem within_verify : Prog.Within P (s.verify hash) := by
  refine within_read hopen hread rfl (fun e => ?_) fun r => ?_
  · cases e <;> exact Prog.within_ret _
  · cases r with
    | error e => exact Prog.within_ret _
    | ok data =>
      dsimp only
      split <;> exact Prog.within_ret _

end Within

end BlobStore

end FileSync.Cas
