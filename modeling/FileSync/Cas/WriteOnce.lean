import FileSync.Cas.Kept
import FileSync.Support.Refinement
import Mathlib.Data.Finmap

/-!
# Cas — the store is a write-once map

`internal/cas/store.go` keeps a finite map from hashes to data in a directory.  `Spec.answer` is the
map: `Put` enters what is absent and nothing else, `Get`, `Has` and `Verify` read, `Delete` removes.

* `Holding s m fs` relates a map to the files of a store: a hash of 32 bytes is in the map just when
  a file with its data is at its place.
* `refines_spec`: every operation answers as the map does and keeps the relation.
* `store_refines_map`: all answers to any sequence of calls on a store that was empty are those of
  the map that was empty.
-/

open Sha256 Filepath

namespace FileSync.Cas

/-- A call of one of the five operations. -/
inductive Call
  | put (chunk : Chunk)
  | get (hash : Bytes)
  | has (hash : Bytes)
  | delete (hash : Bytes)
  | verify (hash : Bytes)

/-- What it returns. -/
inductive Answer
  | put (r : Except Err Bool)
  | get (r : Except Err Chunk)
  | has (r : Bool)
  | delete (r : Except Err Unit)
  | verify (r : Except Err Unit)
deriving DecidableEq

def Call.hash : Call → Bytes
  | .put chunk => chunk.hash
  | .get hash | .has hash | .delete hash | .verify hash => hash

def BlobStore.perform (s : BlobStore) : Call → Cmd Answer
  | .put chunk => do return .put (← s.put chunk)
  | .get hash => do return .get (← s.get hash)
  | .has hash => do return .has (← s.has hash)
  | .delete hash => do return .delete (← s.delete hash)
  | .verify hash => do return .verify (← s.verify hash)

/-! ### The map -/

namespace Spec

abbrev Blobs := Finmap fun _ : Bytes => Bytes

/-- What is read of a hash, or that it is not there. -/
def found {α : Type} (m : Blobs) (hash : Bytes) (f : Bytes → Except Err α) : Except Err α :=
  match m.lookup hash with
  | some data => f data
  | none => .error (.textOf "chunk not found" (Hex.encode hash))

def answer : Call → Blobs → Answer × Blobs
  | .put chunk, m =>
    match m.lookup chunk.hash with
    | some _ => (.put (.ok false), m)
    | none => (.put (.ok true), m.insert chunk.hash chunk.data)
  | .get hash, m =>
    (.get (found m hash fun data => .ok ⟨hash, UInt32.ofNat data.length, data⟩), m)
  | .has hash, m => (.has (m.lookup hash).isSome, m)
  | .delete hash, m => (.delete (.ok ()), m.erase hash)
  | .verify hash, m =>
    (.verify (found m hash fun data =>
      if (sum256 data).bytes = hash then .ok ()
      else .error (.textOf₂ "corruption detected: expected %s, got %s" (Hex.encode hash)
        (Hex.encode (sum256 data).bytes))), m)

end Spec

open Spec

namespace BlobStore

variable {s : BlobStore} {fs fs' : Os.Fs} {m : Blobs}

/-! ### The map of a store -/

/-- What the file system has of an entry of the map. -/
def Kept (fs : Os.Fs) (p : List Bytes) : Option Bytes → Prop
  | none => Os.view fs p = none
  | some data => ∃ mode, Os.view fs p = some (.file mode data)

/-- The store holds the map. -/
structure Holding (s : BlobStore) (m : Blobs) (fs : Os.Fs) : Prop where
  ready : s.Ready fs
  clear : s.Clear fs
  kept : ∀ hash, hash.length = 32 → Kept fs (s.place hash) (m.lookup hash)

theorem Kept.congr {p : List Bytes} {o : Option Bytes} (h : Kept fs p o)
    (hv : Os.view fs' p = Os.view fs p) : Kept fs' p o := by
  cases o with
  | none => exact hv.trans h
  | some data =>
    obtain ⟨mode, hmode⟩ := h
    exact ⟨mode, hv.trans hmode⟩

/-- A place that is vacant is not found. -/
theorem stat_of_vacant (hclear : s.Clear fs) (hbase : s.Holds fs []) {hash : Bytes}
    (hne : hash ≠ []) (hv : Os.view fs (s.place hash) = none) :
    Os.stat fs (s.place hash) = .error .notExist := by
  rcases Os.stat_of_vacant hv with ⟨hst, -⟩ | ⟨-, hfile⟩
  · exact hst
  · refine (hfile fun q hq mode c hqv => ?_).elim
    have hplace : s.place hash ≠ [] := by
      obtain ⟨d, c, hloc, -⟩ := loc_eq_concat hne
      simp [place, hloc]
    have habove : Os.NoFile fs (s.place hash).dropLast := by
      rcases dropLast_place (s := s) hne with h | ⟨x, h⟩
      · exact h ▸ hclear.noFile hbase (by simp)
      · exact h ▸ hclear.noFile hbase (by simp)
    rw [← List.dropLast_concat_getLast hplace, List.prefix_concat_iff] at hq
    rcases hq with rfl | hq
    · rw [List.dropLast_concat_getLast hplace, hv] at hqv
      cases hqv
    · exact habove q hq mode c hqv

theorem ne_nil_of_length {hash : Bytes} (h : hash.length = 32) : hash ≠ [] := by
  rintro rfl
  simp at h

/-- What `os.Stat` says of the place of an entry. -/
theorem Holding.stat (h : s.Holding m fs) (hash : Bytes) (hlen : hash.length = 32) :
    (m.lookup hash = none ∧ Os.stat fs (s.place hash) = .error .notExist) ∨
      ∃ data mode, m.lookup hash = some data ∧
        Os.view fs (s.place hash) = some (.file mode data) ∧
        Os.stat fs (s.place hash) = .ok (.file mode data) := by
  have hkept := h.kept hash hlen
  cases hm : m.lookup hash with
  | none =>
    rw [hm] at hkept
    exact Or.inl ⟨rfl, stat_of_vacant h.clear h.ready.base (ne_nil_of_length hlen) hkept⟩
  | some data =>
    rw [hm] at hkept
    obtain ⟨mode, hv⟩ := hkept
    exact Or.inr ⟨data, mode, rfl, hv, Os.stat_of_view_file hv⟩

/-! ### The operations -/

theorem Holding.put (hs : isAbs s.baseDir) {chunk : Chunk} (h : s.Holding m fs)
    (hlen : chunk.hash.length = 32) (heff : PutEffect s chunk fs fs') {r : Except Err Bool}
    (hr : PutResult s chunk fs fs' r) :
    Answer.put r = (answer (.put chunk) m).1 ∧ s.Holding (answer (.put chunk) m).2 fs' := by
  cases r with
  | error e => exact (put_succeeds h.clear h.ready hr).elim
  | ok created =>
    cases created with
    | false =>
      obtain ⟨rfl, hheld⟩ := hr
      rcases h.stat _ hlen with ⟨-, hst⟩ | ⟨data, mode, hm, -⟩
      · exact (hheld (by simp [Os.view, Os.reach_of_stat_error hst])).elim
      · simpa [answer, hm] using h
    | true =>
      obtain ⟨hvac, mode, hnew⟩ := hr
      have hm : m.lookup chunk.hash = none := by
        rcases h.stat _ hlen with ⟨hm, -⟩ | ⟨data, mode, -, hv, -⟩
        · exact hm
        · cases hvac.symm.trans hv
      simp only [answer, hm, true_and]
      refine ⟨heff.ready hs h.ready, heff.clear hs (by omega) h.clear, fun hash hlen' => ?_⟩
      rcases eq_or_ne hash chunk.hash with rfl | hne
      · rw [Finmap.lookup_insert]
        exact ⟨mode, hnew⟩
      · rw [Finmap.lookup_insert_of_ne m hne]
        refine (h.kept hash hlen').congr ?_
        rcases heff.view_place hs hash with heq | ⟨-, ⟨heq, -⟩ | ⟨hpre, -⟩⟩
        · exact heq
        · exact (hne heq).elim
        · -- A directory is made only above the place of the chunk.
          have habove := hpre.trans (List.dropLast_prefix _)
          exact (hne (s.eq_of_place_below (by omega) habove)).elim

/-- Nothing comes in the way of a `Put` when a chunk is removed. -/
theorem ready_and_clear_erase (hs : isAbs s.baseDir) {hash : Bytes} (hlen : 2 ≤ hash.length)
    (hv : Os.view fs' = Function.update (Os.view fs) (s.place hash) none) (hr : s.Ready fs)
    (hclear : s.Clear fs) : s.Ready fs' ∧ s.Clear fs' := by
  have hshort {x : Bytes} (hx : x.length ≤ 1) : s.place x ≠ s.place hash := by
    intro heq
    rw [s.place_injective heq] at hx
    omega
  refine ⟨⟨?_, fun x hx mode => ?_⟩, fun x hx mode c => ?_⟩
  · rw [Holds, hv, Function.update_of_ne (hshort (by simp))]
    exact hr.base
  · rw [hv, Function.update_of_ne (temp_ne_place hs hx hash)]
    exact hr.temp x hx mode
  · rw [hv, Function.update_of_ne (hshort hx)]
    exact hclear x hx mode c

theorem Holding.erase (hs : isAbs s.baseDir) {hash : Bytes} (h : s.Holding m fs)
    (hlen : hash.length = 32)
    (hv : Os.view fs' = Function.update (Os.view fs) (s.place hash) none) :
    s.Holding (m.erase hash) fs' := by
  obtain ⟨hready, hclear⟩ := ready_and_clear_erase hs (by omega) hv h.ready h.clear
  refine ⟨hready, hclear, fun x hx => ?_⟩
  rcases eq_or_ne x hash with rfl | hne
  · rw [Finmap.lookup_erase]
    exact by rw [Kept, hv, Function.update_self]
  · rw [Finmap.lookup_erase_ne hne]
    refine (h.kept x hx).congr ?_
    rw [hv, Function.update_of_ne fun heq => hne (s.place_injective heq)]

section Refines

variable {ν : Type} {peer : Proto.Request → ν → Proto.Exchange × ν}

/-- The file of a hash is there, with its data, just when the hash is in the map. -/
theorem Holding.wp_read {α : Type} (hs : isAbs s.baseDir) {w : World ν} (h : s.Holding m w.fs)
    {hash : Bytes} (hlen : hash.length = 32) {Q : α → World ν → Prop}
    {k : Except Errno Unit → Cmd α} {k' : Except Errno Bytes → Cmd α}
    (hk : k (.ok ()) = Sys.readAll (s.chunkPath (Hex.encode hash)) >>= k')
    (hnone : m.lookup hash = none →
      Prog.wp (handle peer) (fun _ => True) (k (.error .notExist)) Q w)
    (hsome : ∀ data, m.lookup hash = some data →
      Prog.wp (handle peer) (fun _ => True) (k' (.ok data)) Q w) :
    Prog.wp (handle peer) (fun _ => True)
      (Sys.openRead (s.chunkPath (Hex.encode hash)) >>= k) Q w := by
  refine wp_openRead.2 ⟨trivial, ?_⟩
  rw [resolve_chunkPath hs]
  rcases h.stat hash hlen with ⟨hm, hst⟩ | ⟨data, mode, hm, hv, hst⟩ <;> rw [hst]
  · exact hnone hm
  · rw [Except.map, hk]
    refine wp_readAll.2 ⟨trivial, ?_⟩
    rw [resolve_chunkPath hs, Os.read_ok.2 ⟨mode, hv⟩]
    exact hsome data hm

/-- **Every operation answers as the map does.** -/
theorem refines_spec (hs : isAbs s.baseDir) :
    Prog.Refines (handle peer) s.perform answer (fun c => c.hash.length = 32)
      (fun m w => s.Holding m w.fs) := by
  intro c m w hlen h
  cases c with
  | put chunk =>
    refine Prog.wp_bind.2 (Prog.wp_mono (put_spec hs h.ready.base fun _ _ => trivial) ?_)
    rintro r w' ⟨fs', rfl, heff, hr⟩
    exact h.put hs hlen heff hr
  | get hash =>
    rw [Call.hash] at hlen
    refine Prog.wp_bind.2 (h.wp_read hs hlen rfl (fun hm => ?_) fun data hm => ?_)
    · exact ⟨by simp [answer, found, hm], h⟩
    · exact ⟨by simp [answer, found, hm], h⟩
  | has hash =>
    refine Prog.wp_bind.2 (wp_stat.2 ⟨trivial, ?_⟩)
    rw [resolve_chunkPath hs]
    rcases h.stat hash hlen with ⟨hm, hst⟩ | ⟨data, mode, hm, -, hst⟩ <;> rw [hst]
    · exact ⟨by simp [answer, hm], h⟩
    · exact ⟨by simp [answer, hm], h⟩
  | delete hash =>
    refine Prog.wp_bind.2 (wp_change (fun e he => ?_) fun fs' hfs' => ?_)
    · simp only [Change.apply, resolve_chunkPath hs, Os.remove] at he
      rcases h.stat hash hlen with ⟨hm, hst⟩ | ⟨data, mode, hm, -, hst⟩ <;>
        rw [hst] at he
      · obtain rfl := Except.error.inj he
        have hvac : Os.view w.fs (s.place hash) = none := by
          simp [Os.view, Os.reach_of_stat_error hst]
        exact ⟨trivial, rfl, h.erase hs hlen (by rw [← hvac, Function.update_eq_self])⟩
      · cases he
    · simp only [Change.apply, resolve_chunkPath hs] at hfs'
      exact ⟨trivial, rfl, h.erase hs hlen (Os.remove_ok hfs')⟩
  | verify hash =>
    rw [Call.hash] at hlen
    refine Prog.wp_bind.2 (h.wp_read hs hlen rfl (fun hm => ?_) fun data hm => ?_)
    · exact ⟨by simp [answer, found, hm], h⟩
    · by_cases heq : (sum256 data).bytes = hash
      · simpa [answer, found, hm, heq] using h
      · simpa [answer, found, hm, heq] using h

end Refines

end BlobStore

/-- **The store refines the write-once map.**  On a store that was empty, every sequence of calls
with hashes of 32 bytes is answered as on an empty map. -/
theorem store_refines_map {ν : Type} {peer : Proto.Request → ν → Proto.Exchange × ν}
    {s : BlobStore} (hs : isAbs s.baseDir) {w : World ν} {mode : UInt32}
    (hempty : Os.reach w.fs (resolve s.baseDir) = some (.dir mode [])) {calls : List Call}
    (hlen : ∀ c ∈ calls, c.hash.length = 32) :
    (Prog.run (handle peer) (Prog.sequence s.perform calls) w).1 = Prog.replies answer calls ∅ := by
  obtain ⟨hready, hsound⟩ := BlobStore.ready_and_sound_of_empty hs hempty
  refine (BlobStore.refines_spec hs).run_sequence hlen ⟨hready, hsound.clear, fun hash hlen => ?_⟩
  rw [Finmap.lookup_empty]
  exact not_not.1 (BlobStore.not_holds_of_empty hempty (BlobStore.ne_nil_of_length hlen))

/-- The empty store `/s`. -/
def emptyStore : World (List Proto.Exchange) where
  fs := some (.dir 0o755 [([115], .dir 0o700 [])])
  umask := 0o022
  net := []

theorem reach_emptyStore :
    Os.reach emptyStore.fs (resolve [47, 115]) = some (.dir 0o700 []) := by
  have hres : resolve [47, 115] = [[115]] := by decide
  simp [hres, emptyStore, Os.reach]

/-- What is put first stays until it is deleted. -/
theorem store_refines_map_put_twice :
    let hash : Bytes := List.replicate 32 0
    let calls : List Call :=
      [.put ⟨hash, 1, [7]⟩, .put ⟨hash, 1, [8]⟩, .get hash, .delete hash, .has hash]
    (Prog.run (handle scripted) (Prog.sequence (BlobStore.perform ⟨[47, 115]⟩) calls)
      emptyStore).1 = [.put (.ok true), .put (.ok false), .get (.ok ⟨hash, 1, [7]⟩),
        .delete (.ok ()), .has false] := by
  exact (store_refines_map (by decide) reach_emptyStore (by simp [Call.hash])).trans
    (by simp [Prog.replies, answer, found])

end FileSync.Cas
