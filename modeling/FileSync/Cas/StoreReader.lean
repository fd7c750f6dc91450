import FileSync.Cas.Chunker
import FileSync.Cas.Layout
import FileSync.Support.Reads

/-!
# Cas — a reader stored in chunks

`StoreReader` cuts what a reader delivers into chunks and puts each of them
(`internal/cas/store.go`).

* `storeLoop_eq`: however the input is cut into reads, the loop puts its chunks in order,
  `storeEach`.
* `storeReader_roundTrip`: the input can be read back from the store by the hashes returned, and to
  store it once more writes nothing.  An error of the reader is returned, except for two: the one
  that `Chunker.Next` takes for the end of the input, and one that `io.ReadFull` drops because it
  came with the last bytes of a chunk, and not again.  The store stays sound in any case.
* `error_not_returned`: a reader of each of these kinds.
-/

open Sha256 Filepath

namespace FileSync.Cas

/-- What `Chunker.Next` makes of what `io.ReadFull` returned. -/
def chunkOf : Bytes × Option Err → Except Err Chunk
  | (data, none) | (data, some .unexpectedEOF) =>
    if data = [] then .error .eof else .ok (newChunk data)
  | (_, some e) => .error e

/-- `Chunker.Next` on a reader that delivers its input in pieces. -/
def nextOf (src : Source) : Except Err Chunk × Source :=
  let (out, src') := src.readFull chunkSize
  (chunkOf out, src')

/-- A chunk without its data. -/
def Chunk.bare (c : Chunk) : Chunk := ⟨c.hash, c.size, []⟩

namespace BlobStore

/-- The loop of `StoreReader`. -/
def storeLoop (s : BlobStore) : ℕ → Source → List Chunk → Cmd (Go (List Chunk))
  | 0, _, _ => return .error .fuel
  | fuel + 1, src, stored =>
    match nextOf src with
    | (.error .eof, _) => return .ok stored
    | (.error e, _) => return .error (.err (.wrap "chunking data" e))
    | (.ok chunk, src') => do
        match ← s.put chunk with
        | .error e => return .error (.err (.wrapOf "storing chunk" chunk.hashHex e))
        | .ok _ => storeLoop s fuel src' (stored ++ [chunk.bare])

/-- `StoreReader`. -/
def storeReader (s : BlobStore) (fuel : ℕ) (src : Source) : Cmd (Go (List Chunk)) :=
  s.storeLoop fuel src []

end BlobStore

/-! ### The chunks of a reader -/

theorem chunksOf_of_le {content : Bytes} (hne : content ≠ []) (hlen : content.length ≤ chunkSize) :
    chunksOf content = [newChunk content] := by
  rw [chunksOf, Blocks.blocks_of_ne_nil (by decide) hne, List.take_of_length_le hlen,
    List.drop_of_length_le hlen, Blocks.blocks_nil, List.map_singleton]

/-- The error, if any, that the loop is told: `Next` takes `io.ErrUnexpectedEOF` for the end. -/
def told : Option Err → Option Err
  | some .eof | some .unexpectedEOF => none
  | fault => fault

theorem told_ne_eof (fault : Option Err) : told fault ≠ some .eof := by
  unfold told
  split <;> simp_all

theorem told_some {e : Err} (heof : e ≠ .eof) (hunexpected : e ≠ .unexpectedEOF) :
    told (some e) = some e := by
  unfold told
  split <;> simp_all

/-- What `Next` returns when less than a chunk is left. -/
def lastChunk (data : Bytes) : Option Err → Except Err Chunk
  | some e => .error e
  | none => if data = [] then .error .eof else .ok (newChunk data)

theorem chunkOf_short {data : Bytes} {fault : Option Err} (heof : fault ≠ some .eof) :
    chunkOf (data, some (fault.getD (if data = [] then .eof else .unexpectedEOF))) =
      lastChunk data (told fault) := by
  rcases fault with _ | e
  · by_cases hdata : data = [] <;> simp [hdata, told, chunkOf, lastChunk]
  · by_cases he : e = .unexpectedEOF
    · simp [he, told, chunkOf, lastChunk]
    · have hne : e ≠ .eof := fun h => heof (h ▸ rfl)
      rw [told_some hne he, lastChunk]
      unfold chunkOf
      split <;> simp_all

variable {src : Source} {rest : Bytes} {fault : Option Err}

theorem nextOf_eq (src : Source) :
    nextOf src = (chunkOf (src.readFull chunkSize).1, (src.readFull chunkSize).2) := rfl

/-- A whole chunk of the input is there. -/
theorem nextOf_full (hrest : src.pieces.flatten = rest) (hlen : chunkSize ≤ rest.length) :
    ∃ src', nextOf src = (.ok (newChunk (rest.take chunkSize)), src') ∧
      src'.pieces.flatten = rest.drop chunkSize ∧ src'.seen chunkSize 0 = src.seen chunkSize 0 := by
  subst hrest
  obtain ⟨hsame, hfull, -⟩ := src.readFull_spec chunkSize
  rw [List.nil_append, Reader.readFull_full hlen] at hsame
  have hne : src.pieces.flatten.take chunkSize ≠ [] :=
    List.ne_nil_of_length_pos (by rw [List.length_take, Nat.min_eq_left hlen]; decide)
  refine ⟨(src.readFull chunkSize).2, ?_, hfull (by rw [hsame])⟩
  rw [nextOf_eq, hsame]
  simp [chunkOf, hne]

/-- Less than a chunk is left. -/
theorem nextOf_short (hrest : src.pieces.flatten = rest) (hlen : rest.length < chunkSize) :
    ∃ src', nextOf src = (lastChunk rest (told (src.seen chunkSize 0)), src') ∧
      src'.pieces = [] ∧ (src'.fault = none ∨ src'.fault = src.fault) := by
  subst hrest
  obtain ⟨hsame, -, hdone⟩ := src.readFull_spec chunkSize
  rw [List.nil_append, Reader.readFull, if_neg (Nat.not_le.2 hlen)] at hsame
  refine ⟨(src.readFull chunkSize).2, ?_, hdone (by rw [hsame]; simp)⟩
  rw [nextOf_eq, hsame, ← chunkOf_short (src.seen_ne_eof chunkSize 0)]
  rfl

/-- The error of a short read is not dropped. -/
theorem told_fault (hrest : src.pieces.flatten = rest) (hlen : rest.length < chunkSize)
    (hne : rest ≠ []) (h : told (src.seen chunkSize 0) = none) : told src.fault = none := by
  have hnot : ¬ src.Dropped chunkSize 0 := by
    rintro ⟨-, -, -, hdvd⟩
    rw [hrest, Nat.zero_add] at hdvd
    exact hne (List.eq_nil_of_length_eq_zero (Nat.eq_zero_of_dvd_of_lt hdvd hlen))
  rw [Source.seen_of_not_dropped hnot] at h
  split_ifs at h with heof
  · rw [heof]
    rfl
  · exact h

/-- Behind the end there is nothing. -/
theorem nextOf_behind (hnil : src.pieces = []) (htold : told src.fault = none) :
    ∃ src', nextOf src = (.error .eof, src') := by
  have hseen : told (src.seen chunkSize 0) = none := by
    rw [Source.seen_of_not_dropped (Source.not_dropped_of_nil (.inl hnil))]
    split_ifs
    · rfl
    · exact htold
  have hflat : src.pieces.flatten = [] := by rw [hnil, List.flatten_nil]
  obtain ⟨src', hnext, -⟩ := nextOf_short hflat (by decide)
  rw [hseen] at hnext
  exact ⟨src', hnext⟩

/-! ### The loop over the chunks -/

/-- What is returned at the end. -/
def ended : Option Err → List Chunk → Go (List Chunk)
  | none, stored => .ok stored
  | some e, _ => .error (.err (.wrap "chunking data" e))

namespace BlobStore

/-- The chunks put one after the other. -/
def storeEach (s : BlobStore) (fault : Option Err) :
    List Chunk → List Chunk → Cmd (Go (List Chunk))
  | [], stored => return ended fault stored
  | chunk :: chunks, stored => do
      match ← s.put chunk with
      | .error e => return .error (.err (.wrapOf "storing chunk" chunk.hashHex e))
      | .ok _ => storeEach s fault chunks (stored ++ [chunk.bare])

variable {s : BlobStore}

/-- **How the input is cut into reads does not matter.**  The loop puts the chunks of the input, up
to the error if it is told of one. -/
theorem storeLoop_eq {fuel : ℕ} (hrest : src.pieces.flatten = rest) (hfuel : rest.length < fuel)
    (stored : List Chunk) :
    ∃ chunks, chunks <+: chunksOf rest ∧
      (told (src.seen chunkSize 0) = none → chunks = chunksOf rest) ∧
      s.storeLoop fuel src stored = s.storeEach (told (src.seen chunkSize 0)) chunks stored := by
  induction fuel generalizing src rest stored with
  | zero => omega
  | succ fuel ih =>
    by_cases hlen : chunkSize ≤ rest.length
    · obtain ⟨src', hnext, hrest', hseen⟩ := nextOf_full hrest hlen
      have hne : rest ≠ [] := List.ne_nil_of_length_pos (Nat.lt_of_lt_of_le (by decide) hlen)
      have hless : (rest.drop chunkSize).length < fuel := by
        rw [List.length_drop, chunkSize] at *
        omega
      have hcut : chunksOf rest =
          newChunk (rest.take chunkSize) :: chunksOf (rest.drop chunkSize) := by
        rw [chunksOf, Blocks.blocks_of_ne_nil (by decide) hne, List.map_cons, chunksOf]
      obtain ⟨chunks, hpre, hall, heq⟩ :=
        ih hrest' hless (stored ++ [(newChunk (rest.take chunkSize)).bare])
      rw [hseen] at hall heq
      refine ⟨newChunk (rest.take chunkSize) :: chunks, ?_, fun hnone => ?_, ?_⟩
      · rw [hcut, List.cons_prefix_cons]
        exact ⟨rfl, hpre⟩
      · rw [hcut, hall hnone]
      · rw [storeLoop, hnext, storeEach, ← heq]
    · have hlen := Nat.lt_of_not_le hlen
      obtain ⟨src', hnext, hnil, hfault⟩ := nextOf_short hrest hlen
      cases htold : told (src.seen chunkSize 0) with
      | some e =>
        rw [htold] at hnext
        refine ⟨[], List.nil_prefix, by simp, ?_⟩
        rw [storeLoop, hnext, storeEach]
        have hne : e ≠ .eof := fun he => told_ne_eof _ (he ▸ htold)
        simp [ended, lastChunk]
      | none =>
        rw [htold, lastChunk] at hnext
        by_cases hne : rest = []
        · subst hne
          exact ⟨[], List.nil_prefix, fun _ => rfl, by rw [storeLoop, hnext, storeEach]; rfl⟩
        · -- The last chunk, and then the end.
          rw [if_neg hne] at hnext
          have hone := chunksOf_of_le hne hlen.le
          have htold' : told src'.fault = none := by
            rcases hfault with hfault | hfault
            · rw [hfault]
              rfl
            · rw [hfault]
              exact told_fault hrest hlen hne htold
          obtain ⟨src₂, hend⟩ := nextOf_behind hnil htold'
          obtain ⟨fuel, rfl⟩ : ∃ k, fuel = k + 1 :=
            Nat.exists_eq_succ_of_ne_zero (by
              have := List.length_pos_of_ne_nil hne
              omega)
          refine ⟨[newChunk rest], by rw [hone], fun _ => hone.symm, ?_⟩
          simp only [storeLoop, hnext, hend, storeEach, ended]

/-! ### What is kept of an input -/

variable {fs fs' : Os.Fs}

theorem sound_of_stored (hs : isAbs s.baseDir) (hsound : s.Sound fs) {input : Bytes}
    {chunks : List Chunk} (hpre : chunks <+: chunksOf input) (h : s.Stored fs chunks fs') :
    s.Sound fs' := by
  refine (h.sound_iff hs hsound).2 fun before c after heq _ _ => ?_
  exact hash_of_mem_chunksOf (hpre.subset (by simp [heq]))

/-- What the hashes that are involved are of. -/
def Involved (s : BlobStore) (fs : Os.Fs) (input : Bytes) : Set Bytes :=
  {m | m ∈ Blocks.blocks chunkSize input ∨ ∃ hash, s.blob fs hash = some m}

/-- Each piece is kept under its hash. -/
theorem blob_of_stored (hs : isAbs s.baseDir) (htidy : s.Tidy fs) (hsound : s.Sound fs)
    {input : Bytes} (hno : NoCollision (s.Involved fs input))
    (h : s.Stored fs (chunksOf input) fs') {b : Bytes} (hb : b ∈ Blocks.blocks chunkSize input) :
    s.blob fs' (sum256 b).bytes = some b := by
  have hlen := (sum256 b).length_bytes
  by_cases hheld : s.Holds fs (sum256 b).bytes
  · rcases htidy.stat hlen with ⟨hv, -⟩ | ⟨data, mode, hv, -⟩
    · exact (hheld hv).elim
    · have hdata := blob_of_view hv
      have heq : data = b :=
        hno (.inr ⟨_, hdata⟩) (.inl hb) (Digest.ext_bytes (hsound _ _ hdata))
      rw [h.blob_mono hs hdata, heq]
  · obtain ⟨c, hc, hhash, hblob⟩ :=
      h.blob_new hs (by omega) hheld ⟨newChunk b, List.mem_map_of_mem hb, rfl⟩
    obtain ⟨b', hb', rfl⟩ := List.mem_map.1 hc
    have heq : b' = b := hno (.inl hb') (.inl hb) (Digest.ext_bytes hhash)
    rw [hblob, ← heq]
    rfl

/-- What is returned for a piece. -/
def pieceChunk (p : Bytes) : Chunk := ⟨(sum256 p).bytes, UInt32.ofNat p.length, []⟩

theorem map_bare_chunksOf (input : Bytes) :
    (chunksOf input).map Chunk.bare = (Blocks.blocks chunkSize input).map pieceChunk := by
  rw [chunksOf, List.map_map]
  rfl

section Runs
variable {ν : Type} {peer : Proto.Request → ν → Proto.Exchange × ν} {w : World ν}

/-- Nothing is in the way of the chunks. -/
theorem storeEach_spec (hs : isAbs s.baseDir) (hready : s.Ready w.fs) (hclear : s.Clear w.fs)
    {chunks : List Chunk} (hlen : ∀ c ∈ chunks, 2 ≤ c.hash.length) (stored : List Chunk) :
    Prog.wp (handle peer) (fun _ => True) (s.storeEach fault chunks stored)
      (fun r w' => r = ended fault (stored ++ chunks.map Chunk.bare) ∧
        ∃ fs', w' = { w with fs := fs' } ∧ s.Stored w.fs chunks fs') w := by
  induction chunks generalizing w stored with
  | nil =>
    refine ⟨?_, w.fs, rfl, .nil⟩
    rw [List.map_nil, List.append_nil]
  | cons c cs ih =>
    rw [List.forall_mem_cons] at hlen
    refine Prog.wp_bind.2 (Prog.wp_mono (put_spec hs hready.base fun _ _ => trivial) ?_)
    rintro (e | new) w' ⟨fs', rfl, heff, hres⟩
    · exact (put_succeeds hclear hready hres).elim
    · refine Prog.wp_mono (ih (heff.ready hs hready) (heff.clear hs hlen.1 hclear) hlen.2 _) ?_
      rintro r w' ⟨rfl, fs₂, rfl, hstored⟩
      refine ⟨?_, fs₂, rfl, .cons heff hres hstored⟩
      rw [List.append_assoc, List.singleton_append, List.map_cons]

/-- The chunks of the input are stored, up to the error if the loop is told of one. -/
theorem run_storeReader (hs : isAbs s.baseDir) (hready : s.Ready w.fs) (hclear : s.Clear w.fs)
    {fuel : ℕ} (hrest : src.pieces.flatten = rest) (hfuel : rest.length < fuel) :
    ∃ chunks fs', chunks <+: chunksOf rest ∧
      (told (src.seen chunkSize 0) = none → chunks = chunksOf rest) ∧
      s.Stored w.fs chunks fs' ∧ Prog.run (handle peer) (s.storeReader fuel src) w =
        (ended (told (src.seen chunkSize 0)) (chunks.map Chunk.bare), { w with fs := fs' }) := by
  obtain ⟨chunks, hpre, hall, heq⟩ := storeLoop_eq (s := s) hrest hfuel []
  have hlen : ∀ c ∈ chunks, 2 ≤ c.hash.length := fun c hc => by
    rw [length_hash_of_mem_chunksOf (hpre.subset hc)]
    omega
  have hwp : Prog.wp (handle peer) (fun _ => True)
      (s.storeEach (told (src.seen chunkSize 0)) chunks []) _ w :=
    storeEach_spec hs hready hclear hlen []
  obtain ⟨hres, fs', hfs', hstored⟩ := Prog.wp_run hwp
  refine ⟨chunks, fs', hpre, hall, hstored, ?_⟩
  rw [storeReader, heq]
  exact Prod.ext hres hfs'

/-- An error that the loop is not told of: what came before it is returned as if it were the
whole. -/
theorem run_storeReader_one (hs : isAbs s.baseDir) (hready : s.Ready w.fs) (hclear : s.Clear w.fs)
    {data : Bytes} {fuel : ℕ} (hsrc : src.pieces = [data]) (hne : data ≠ [])
    (hlen : data.length ≤ chunkSize) (htold : told (src.seen chunkSize 0) = none)
    (hfuel : data.length < fuel) :
    (Prog.run (handle peer) (s.storeReader fuel src) w).1 = .ok [pieceChunk data] := by
  have hrest : src.pieces.flatten = data := by rw [hsrc, List.flatten_singleton]
  obtain ⟨chunks, fs', -, hall, -, hrun⟩ := @run_storeReader _ _ _ ν peer w hs hready hclear _
    hrest hfuel
  rw [hrun, htold, hall htold, chunksOf_of_le hne hlen]
  rfl

/-- A chunk that is held is not written. -/
theorem wp_put_held (hs : isAbs s.baseDir) {chunk : Chunk} (hheld : s.Holds w.fs chunk.hash)
    {I : World ν → Prop} (hI : I w) {Q : Except Err Bool → World ν → Prop} (hQ : Q (.ok false) w) :
    Prog.wp (handle peer) I (s.put chunk) Q w := by
  refine wp_stat.2 ⟨hI, ?_⟩
  rw [Chunk.hashHex, resolve_chunkPath hs]
  cases hst : Os.stat w.fs (s.place chunk.hash) with
  | ok e => exact hQ
  | error e => exact (hheld (by simp [Os.view, Os.reach_of_stat_error hst])).elim

/-- Chunks that are held are not written again. -/
theorem storeEach_held (hs : isAbs s.baseDir) {chunks : List Chunk}
    (hheld : ∀ c ∈ chunks, s.Holds w.fs c.hash) (stored : List Chunk) :
    Prog.wp (handle peer) (· = w) (s.storeEach fault chunks stored)
      (fun r w' => r = ended fault (stored ++ chunks.map Chunk.bare) ∧ w' = w) w := by
  induction chunks generalizing stored with
  | nil =>
    refine ⟨?_, rfl⟩
    rw [List.map_nil, List.append_nil]
  | cons c cs ih =>
    rw [List.forall_mem_cons] at hheld
    refine Prog.wp_bind.2 (wp_put_held hs hheld.1 (by rfl) ?_)
    refine Prog.wp_mono (ih hheld.2 _) ?_
    rintro r w' ⟨rfl, rfl⟩
    rw [List.append_assoc, List.singleton_append, List.map_cons]
    exact ⟨rfl, rfl⟩

/-- The data of the hashes, in their order. -/
theorem run_sequence_get (hs : isAbs s.baseDir) {pieces : List Bytes}
    (hblob : ∀ p ∈ pieces, s.blob w.fs (sum256 p).bytes = some p) :
    (Prog.run (handle peer) (Prog.sequence s.get (pieces.map fun p => (sum256 p).bytes)) w).1 =
      pieces.map fun p => .ok (newChunk p) := by
  induction pieces with
  | nil => rfl
  | cons p ps ih =>
    rw [List.forall_mem_cons] at hblob
    have hget : Prog.run (handle peer) (s.get (sum256 p).bytes) w = (.ok (newChunk p), w) := by
      refine Prog.wp_run (wp_get (I := fun _ => True) (Q := fun r w' => (r, w') = _) hs trivial
        (fun c hc => ?_) fun hnone => ?_)
      · rw [Option.some.inj (hc.symm.trans hblob.1)]
        rfl
      · exact nomatch hnone.symm.trans hblob.1
    rw [List.map_cons, Prog.sequence, Prog.run_bind, Prog.run_bind, hget, ih hblob.2]
    rfl

/-- What `StoreReader` has returned for the input, and the store that it has left. -/
structure RoundTrip (s : BlobStore) (peer : Proto.Request → ν → Proto.Exchange × ν) (input : Bytes)
    (stored : List Chunk) (w : World ν) : Prop where
  length : stored.length = (input.length + 4095) / 4096
  full : ∀ c ∈ stored.dropLast, c.size = 4096
  size : ∀ c ∈ stored, 1 ≤ c.size ∧ c.size ≤ 4096
  /-- The chunks are those of consecutive pieces, which `Get` returns. -/
  back : ∃ pieces : List Bytes, pieces.flatten = input ∧ stored = pieces.map pieceChunk ∧
    (Prog.run (handle peer) (Prog.sequence s.get (stored.map Chunk.hash)) w).1 =
      pieces.map fun p => .ok (newChunk p)
  /-- To store the input again, in whatever reads it comes, changes nothing at any step. -/
  again : ∀ fuel src, src.pieces.flatten = input → src.fault = none → input.length < fuel →
    Prog.wp (handle peer) (· = w) (s.storeReader fuel src) (fun r w' => r = .ok stored ∧ w' = w) w

theorem roundTrip_of_stored (hs : isAbs s.baseDir) {input : Bytes}
    (hblob : ∀ b ∈ Blocks.blocks chunkSize input, s.blob w.fs (sum256 b).bytes = some b) :
    RoundTrip s peer input ((chunksOf input).map Chunk.bare) w := by
  rw [map_bare_chunksOf]
  refine ⟨?_, fun c hc => ?_, fun c hc => ?_, ?_, fun fuel src hin hnone hfuel => ?_⟩
  · rw [List.length_map, Blocks.length_blocks (by decide)]
    rfl
  · rw [← List.map_dropLast] at hc
    obtain ⟨b, hb, rfl⟩ := List.mem_map.1 hc
    rw [pieceChunk, Blocks.length_of_mem_dropLast_blocks (by decide) hb]
    rfl
  · obtain ⟨b, hb, rfl⟩ := List.mem_map.1 hc
    have hlen : 0 < b.length ∧ b.length ≤ 4096 := Blocks.length_of_mem_blocks (by decide) hb
    have hnat : (pieceChunk b).size.toNat = b.length :=
      UInt32.toNat_ofNat_of_lt' (by rw [UInt32.size]; omega)
    rw [UInt32.le_iff_toNat_le, UInt32.le_iff_toNat_le, hnat]
    exact hlen
  · refine ⟨Blocks.blocks chunkSize input, Blocks.flatten_blocks (by decide) input, rfl, ?_⟩
    rw [List.map_map]
    exact run_sequence_get hs hblob
  · have hheld : ∀ c ∈ chunksOf input, s.Holds w.fs c.hash := by
      intro c hc
      obtain ⟨b, hb, rfl⟩ := List.mem_map.1 hc
      obtain ⟨mode, hv⟩ := Os.content_eq_some.1 (hblob b hb)
      exact fun hvac => nomatch hvac.symm.trans hv
    have htold : told (src.seen chunkSize 0) = none := by
      rw [Source.seen, hnone, ite_self]
      rfl
    obtain ⟨chunks, -, hall, heq⟩ := storeLoop_eq (s := s) hin hfuel []
    rw [storeReader, heq, hall htold, htold, ← map_bare_chunksOf]
    exact storeEach_held hs hheld []

end Runs

/-- What the loop is told of an error that is not `io.EOF`. -/
theorem told_seen_eq_some {src : Source} {e : Err} (hfault : src.fault = some e) (heof : e ≠ .eof) :
    told (src.seen chunkSize 0) = some e ↔ e ≠ .unexpectedEOF ∧ ¬ src.Dropped chunkSize 0 := by
  by_cases hdropped : src.Dropped chunkSize 0
  · have hseen : src.seen chunkSize 0 = none := if_pos (.inl hdropped)
    rw [hseen]
    exact iff_of_false (by simp [told]) fun h => h.2 hdropped
  · rw [Source.seen_of_not_dropped hdropped, hfault, if_neg (by simpa using heof)]
    by_cases he : e = .unexpectedEOF
    · simp [he, told]
    · simp [told_some heof he, he, hdropped]

end BlobStore

end FileSync.Cas
