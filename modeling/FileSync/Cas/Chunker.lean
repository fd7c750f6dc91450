import FileSync.Cas.Store
import FileSync.Support.Blocks

/-!
# Cas — the chunker

A reader cut into chunks of 4096 bytes, the last one possibly shorter, each with its SHA-256
(`internal/cas/chunk.go`).

* `chunkAll_ofBytes`: of a file that is read without an error, `ChunkAll` makes the chunks of its
  blocks, `chunksOf`.  Each of them has the hash of its data (`hash_of_mem_chunksOf`).
-/

open Sha256 Filepath

namespace FileSync.Cas

def chunkSize : ℕ := 4 * 1024

/-- A chunk of the data and its hash. -/
def newChunk (data : Bytes) : Chunk := ⟨(sum256 data).bytes, UInt32.ofNat data.length, data⟩

/-- `Chunker.Next`: the end of the input in the middle of a chunk is no error. -/
def next (r : Reader) : Except Err Chunk × Reader :=
  match r.readFull chunkSize with
  | ((data, none), r') => (if data = [] then .error .eof else .ok (newChunk data), r')
  | ((data, some .unexpectedEOF), r') =>
    (if data = [] then .error .eof else .ok (newChunk data), r')
  | ((_, some e), r') => (.error e, r')

/-- The loop of `ChunkAll`. -/
def chunkAll : ℕ → Reader → Go (List Chunk)
  | 0, _ => .error .fuel
  | fuel + 1, r =>
    match next r with
    | (.error .eof, _) => .ok []
    | (.error e, _) => .error (.err e)
    | (.ok c, r') => do return c :: (← chunkAll fuel r')

/-- The chunks of a file. -/
def chunksOf (content : Bytes) : List Chunk := (Blocks.blocks chunkSize content).map newChunk

theorem next_ofBytes {content : Bytes} (h : content ≠ []) :
    next (.ofBytes content) =
      (.ok (newChunk (content.take chunkSize)), .ofBytes (content.drop chunkSize)) := by
  unfold next Reader.ofBytes
  by_cases hlen : chunkSize ≤ content.length
  · have hne : content.take chunkSize ≠ [] := by simp [h, chunkSize]
    rw [Reader.readFull_full hlen]
    simp [hne]
  · rw [Reader.readFull_short (by omega) h]
    simp [h, List.take_of_length_le (Nat.le_of_not_le hlen),
      List.drop_of_length_le (Nat.le_of_not_le hlen)]

/-- **`ChunkAll` of a file** is the chunks of its blocks. -/
theorem chunkAll_ofBytes {content : Bytes} {fuel : ℕ} (h : content.length < fuel) :
    chunkAll fuel (.ofBytes content) = .ok (chunksOf content) := by
  induction fuel generalizing content with
  | zero => omega
  | succ fuel ih =>
    by_cases hne : content = []
    · rw [hne]
      rfl
    · have hlen : (content.drop chunkSize).length < fuel := by
        have := List.length_pos_of_ne_nil hne
        rw [List.length_drop, chunkSize]
        omega
      rw [chunkAll, next_ofBytes hne]
      simp only [ih hlen, Go.ok_bind]
      rw [chunksOf, chunksOf, Blocks.blocks_of_ne_nil (by decide) hne, List.map_cons]
      rfl

theorem hash_of_mem_chunksOf {content : Bytes} {c : Chunk} (h : c ∈ chunksOf content) :
    (sum256 c.data).bytes = c.hash := by
  obtain ⟨b, -, rfl⟩ := List.mem_map.1 h
  rfl

theorem length_hash_of_mem_chunksOf {content : Bytes} {c : Chunk} (h : c ∈ chunksOf content) :
    c.hash.length = 32 := by
  rw [← hash_of_mem_chunksOf h, (sum256 c.data).length_bytes]

end FileSync.Cas
