import FileSync.Delta.Rolling

/-!
# Delta — signatures, deltas and their application

`internal/delta/delta.go`: `GenerateSignature`, `GenerateDelta` and `ApplyDelta`.

`GenerateDelta` is a loop over local variables, collected in `Gen`.  Its body is `step`: a window
whose hashes match a block becomes a copy and the window is filled again (`afterMatch`), any other
window gives up its oldest byte as literal data (`rollLiteral`).  The loop runs on fuel, since a
signature with block size zero can keep it from ending.
-/

namespace FileSync.Deltas
open Sha256 (Digest Hasher sum256)

inductive DeltaOp
  | copy (blockIndex : UInt32)
  | data (bytes : Bytes)
deriving DecidableEq

structure Delta where
  ops : List DeltaOp
  newFileSize : Int64
  newFileHash : Digest
  blocksCopied : ℕ
  bytesCopied : Int64
  bytesLiteral : Int64

/-! ### `GenerateSignature` -/

/-- The loop of `GenerateSignature`, at block `blockIndex` with `fileSize` bytes read. -/
def signatureLoop : ℕ → Reader → UInt32 → Int64 → Signature → Go Signature
  | 0, _, _, _, _ => .error .fuel
  | fuel + 1, r, blockIndex, fileSize, sig =>
    let ((buf, err), r) := r.readFull sig.blockSize.toNat
    let sig' := if buf.length > 0 then
        sig.addBlock blockIndex (computeBlockSignature buf).1 (computeBlockSignature buf).2
      else sig
    let fileSize' := if buf.length > 0 then fileSize + Int64.ofNat buf.length else fileSize
    let nextIndex := if buf.length > 0 then blockIndex + 1 else blockIndex
    match err with
    | some .eof | some .unexpectedEOF => .ok { sig' with fileSize := fileSize' }
    | some e => .error (.err (.wrap s!"reading block {nextIndex}" e))
    | none => signatureLoop fuel r nextIndex fileSize' sig'

/-- `GenerateSignature`.  Every round but the last reads a whole block, so the fuel suffices. -/
def generateSignature (r : Reader) (blockSize : Int) : Go Signature :=
  let blockSize := if blockSize ≤ 0 then defaultBlockSize else blockSize
  signatureLoop (r.rest.length + 1) r 0 0
    { blockSize := blockSize, fileSize := 0, blocks := [], weakIndex := fun _ => [] }

/-- What holds of a signature without blocks, and is kept by `AddBlock` and when the file size is
set, holds of the signature that the loop returns, whatever the reader does. -/
theorem signatureLoop_invariant {P : Signature → Prop}
    (hadd : ∀ sig i weak strong, P sig → P (sig.addBlock i weak strong))
    (hsize : ∀ sig size, P sig → P { sig with fileSize := size }) :
    ∀ (fuel : ℕ) (r : Reader) (i : UInt32) (sz : Int64) (sig sig' : Signature), P sig →
      signatureLoop fuel r i sz sig = .ok sig' → P sig' := by
  intro fuel
  induction fuel with
  | zero =>
    intro r i sz sig sig' _ h
    cases h
  | succ fuel ih =>
    intro r i sz sig sig' hsig h
    rw [signatureLoop] at h
    generalize hread : r.readFull sig.blockSize.toNat = res at h
    obtain ⟨⟨buf, err⟩, r'⟩ := res
    -- the signature with the block that was read, if any
    have hnext : P (if buf.length > 0 then
        sig.addBlock i (computeBlockSignature buf).1 (computeBlockSignature buf).2 else sig) := by
      split
      · exact hadd _ _ _ _ hsig
      · exact hsig
    dsimp only at h
    split at h
    · obtain rfl := Except.ok.inj h
      exact hsize _ _ hnext
    · obtain rfl := Except.ok.inj h
      exact hsize _ _ hnext
    · cases h
    · exact ih _ _ _ _ _ hnext h

theorem generateSignature_invariant {P : Signature → Prop}
    (hempty : ∀ blockSize, P ⟨blockSize, 0, [], fun _ => []⟩)
    (hadd : ∀ sig i weak strong, P sig → P (sig.addBlock i weak strong))
    (hsize : ∀ sig size, P sig → P { sig with fileSize := size }) {r : Reader} {blockSize : Int}
    {sig : Signature} (h : generateSignature r blockSize = .ok sig) : P sig :=
  signatureLoop_invariant hadd hsize _ _ _ _ _ _ (hempty _) h

/-! ### `GenerateDelta` -/

/-- The local variables of `GenerateDelta`. -/
structure Gen where
  ops : List DeltaOp
  blocksCopied : ℕ
  bytesCopied : Int64
  bytesLiteral : Int64
  literalBuf : Bytes
  rh : RollingHash
  reader : Reader
  fileHasher : Hasher
  totalBytes : Int64
  eofReached : Bool

namespace Gen

/-- `p` becomes literal data of the new file. -/
def emitLiteral (g : Gen) (p : Bytes) : Gen :=
  { g with
    literalBuf := g.literalBuf ++ p
    fileHasher := g.fileHasher.write p
    totalBytes := g.totalBytes + Int64.ofNat p.length }

/-- The pending literal data becomes an operation. -/
def flush (g : Gen) : Gen :=
  if g.literalBuf.length > 0 then
    { g with
      ops := g.ops ++ [.data g.literalBuf]
      bytesLiteral := g.bytesLiteral + Int64.ofNat g.literalBuf.length
      literalBuf := [] }
  else g

/-- `window` is copied from block `idx`, `n` bytes by the statistics. -/
def emitCopy (g : Gen) (idx : UInt32) (n : Int64) (window : Bytes) : Gen :=
  { g with
    ops := g.ops ++ [.copy idx]
    blocksCopied := g.blocksCopied + 1
    bytesCopied := g.bytesCopied + n
    fileHasher := g.fileHasher.write window
    totalBytes := g.totalBytes + Int64.ofNat window.length }

/-- The full window `window` is copied from `block`, and the rolling hash starts over. -/
def copyWindow (g : Gen) (sig : Signature) (block : BlockSignature) (window : Bytes) : Gen :=
  let g := g.flush.emitCopy block.index (Int64.ofInt sig.blockSize) window
  { g with rh := g.rh.reset sig.blockSize }

/-- The variables before the first byte is read. -/
def init (pooled : Bytes) (newFile : Reader) (sig : Signature) : Gen :=
  { ops := [], blocksCopied := 0, bytesCopied := 0, bytesLiteral := 0, literalBuf := []
    rh := newRollingHash pooled sig.blockSize, reader := newFile, fileHasher := Hasher.new
    totalBytes := 0, eofReached := false }

end Gen

/-- The first candidate whose strong hash is `strongHash`. -/
def findMatch (sig : Signature) (candidates : List ℕ) (strongHash : Digest) :
    Option BlockSignature :=
  candidates.findSome? fun idx => (sig.getBlock idx).filter fun b => strongHash = b.strongHash

/-- Fill initial window: `n` bytes to go, `i` read. -/
def fillInitialWindow : ℕ → ℕ → Gen → Go Gen
  | 0, _, g => .ok g
  | n + 1, i, g =>
    match g.reader.readByte with
    | (.ok b, r) => do
      let (rh, _) ← Go.orPanic (g.rh.rollIn b)
      fillInitialWindow n (i + 1) { g with rh := rh, reader := r }
    | (.error .eof, _) =>
      -- File smaller than one block
      if i > 0 then do
        let window ← Go.orPanic g.rh.windowBytes
        let window ← Go.orPanic (slice window 0 i)
        .ok { g.emitLiteral window with eofReached := true }
      else
        .ok { g with eofReached := true }
    | (.error e, _) => .error (.err (.wrap "reading initial window" e))

/-- Fill next window: `n` bytes to go, `partialCount` read. -/
def fillNextWindow : ℕ → ℕ → Gen → Go (Gen × ℕ)
  | 0, partialCount, g => .ok (g, partialCount)
  | n + 1, partialCount, g =>
    match g.reader.readByte with
    | (.ok b, r) => do
      let (rh, _) ← Go.orPanic (g.rh.rollIn b)
      fillNextWindow n (partialCount + 1) { g with rh := rh, reader := r }
    | (.error .eof, _) => .ok ({ g with eofReached := true }, partialCount)
    | (.error e, _) => .error (.err (.wrap "reading after match" e))

/-- The block the window matches, with the window. -/
def matchWindow (sig : Signature) (g : Gen) : Go (Option (BlockSignature × Bytes)) :=
  let candidates := sig.findByWeakHash g.rh.sum
  if candidates.length > 0 then do
    let window ← Go.orPanic g.rh.windowBytes
    .ok ((findMatch sig candidates (computeBlockSignature window).2).map fun b => (b, window))
  else
    .ok none

/-- The bytes left after a match when the file ends within the next window. -/
def partialBlock (sig : Signature) (g : Gen) (partialCount : ℕ) : Go Gen := do
  let window ← Go.orPanic g.rh.windowBytes
  let partialData ← Go.orPanic (slice window 0 partialCount)
  let (partialWeakHash, partialStrongHash) := computeBlockSignature partialData
  match findMatch sig (sig.findByWeakHash partialWeakHash) partialStrongHash with
  | some pBlock => .ok (g.emitCopy pBlock.index (Int64.ofNat partialCount) partialData)
  | none => .ok (g.emitLiteral partialData)

/-- Match found: the copy, and the next window. -/
def afterMatch (sig : Signature) (g : Gen) (block : BlockSignature) (window : Bytes) : Go Gen := do
  let (g, partialCount) ← fillNextWindow sig.blockSize.toNat 0 (g.copyWindow sig block window)
  if g.eofReached ∧ partialCount > 0 then partialBlock sig g partialCount else .ok g

/-- No match: the oldest byte is literal, and the window rolls on. -/
def rollLiteral (g : Gen) : Go Gen := do
  let g ←
    if g.rh.isFull then do
      let oldestByte ← Go.orPanic
        (index g.rh.window ((g.rh.pos - g.rh.count + g.rh.size).tmod g.rh.size))
      .ok (g.emitLiteral [oldestByte])
    else .ok g
  match g.reader.readByte with
  | (.ok nextByte, r) =>
    if g.rh.isFull then do
      let rh ← Go.orPanic (g.rh.roll nextByte)
      .ok { g with rh := rh, reader := r }
    else do
      let (rh, _) ← Go.orPanic (g.rh.rollIn nextByte)
      .ok { g with rh := rh, reader := r }
  | (.error .eof, _) =>
    if g.rh.isFull then do
      let window ← Go.orPanic g.rh.windowBytes
      let rest ← Go.orPanic (slice window 1 window.length)
      .ok { g.emitLiteral rest with eofReached := true }
    else
      .ok { g with eofReached := true }
  | (.error e, _) => .error (.err (.wrap "reading file" e))

/-- One round of the main processing loop. -/
def step (sig : Signature) (g : Gen) : Go Gen := do
  let found ← if g.rh.isFull then matchWindow sig g else .ok none
  match found with
  | some (block, window) => afterMatch sig g block window
  | none => rollLiteral g

/-- Main processing loop. -/
def mainLoop (sig : Signature) : ℕ → Gen → Go Gen
  | 0, g => if g.eofReached then .ok g else .error .fuel
  | fuel + 1, g => if g.eofReached then .ok g else do mainLoop sig fuel (← step sig g)

/-- `GenerateDelta`; `pooled` is the buffer of the rolling hash the pool hands out. -/
def generateDelta (fuel : ℕ) (pooled : Bytes) (newFile : Reader) (sig : Signature) : Go Delta := do
  let g ← fillInitialWindow sig.blockSize.toNat 0 (Gen.init pooled newFile sig)
  let g ← mainLoop sig fuel g
  -- Emit any remaining literal data
  let g := g.flush
  .ok { ops := g.ops, newFileSize := g.totalBytes, newFileHash := g.fileHasher.sum
        blocksCopied := g.blocksCopied, bytesCopied := g.bytesCopied
        bytesLiteral := g.bytesLiteral }

/-! ### `ApplyDelta` -/

/-- The writer, the hasher and the count of `ApplyDelta`. -/
structure Applied where
  w : Sink
  hasher : Hasher
  written : Int64

/-- A write to `io.MultiWriter(w, hasher)`; `what` is the text around its error. -/
def Applied.write (s : Applied) (what : String) (p : Bytes) : Applied × Option Err :=
  match s.w.write p with
  | .ok w => (⟨w, s.hasher.write p, s.written + Int64.ofNat p.length⟩, none)
  | .error e => (s, some (.wrap what e))

def applyOp (oldBlocks : UInt32 → Except Err Bytes) (s : Applied) : DeltaOp → Applied × Option Err
  | .copy idx =>
    match oldBlocks idx with
    | .ok data => s.write "writing block" data
    | .error e => (s, some (.wrap s!"getting block {idx}" e))
  | .data d => s.write "writing literal" d

def applyOps (oldBlocks : UInt32 → Except Err Bytes) : List DeltaOp → Applied → Applied × Option Err
  | [], s => (s, none)
  | op :: ops, s =>
    match applyOp oldBlocks s op with
    | (s, none) => applyOps oldBlocks ops s
    | (s, some e) => (s, some e)

/-- `ApplyDelta`: the writer afterwards, and the error. -/
def applyDelta (d : Delta) (oldBlocks : UInt32 → Except Err Bytes) (w : Sink) :
    Sink × Option Err :=
  match applyOps oldBlocks d.ops ⟨w, Hasher.new, 0⟩ with
  | (s, some e) => (s.w, some e)
  | (s, none) =>
    if s.hasher.sum ≠ d.newFileHash then (s.w, some (.text "hash mismatch: file corrupted"))
    else if s.written ≠ d.newFileSize then
      (s.w, some (.text ("size mismatch: expected " ++ toString d.newFileSize.toInt ++
        ", wrote " ++ toString s.written.toInt)))
    else (s.w, none)

end FileSync.Deltas
