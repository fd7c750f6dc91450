import FileSync.Support.Sha256

/-!
# Support — Io

The parts of Go's runtime and of package `io` the program is written against.

* `Err` is the interface `error`: the sentinel values of `io` and `os`, a text of `fmt.Errorf`, and
  a text wrapped around a cause with `%w`; a text may have arguments printed with `%s` or `%x`.
* `Fault` is how a call can fail to return a value: with an `error`, by a run-time panic (an index
  or a slice out of range), or, for a loop that is run on fuel, by using all of it.
* `Allocator` is how much room the runtime gives to bytes that are appended to an empty slice; a
  slice expression may reach beyond them, to the end of their room.
* `Reader` delivers its bytes and then `io.EOF` or an error; `Sink` is an `io.Writer`.
-/

/-- The conditions of `os` the program distinguishes. -/
inductive Errno
  | notExist
  | notDir
  | isDir
  | notEmpty
  | exist
  | loop
deriving DecidableEq, Repr

inductive Err
  | eof
  | unexpectedEOF
  | errno (e : Errno)
  | text (s : String)
  | textOf (s : String) (arg : Bytes)
  | textOf₂ (s : String) (arg arg' : Bytes)
  | wrap (s : String) (cause : Err)
  | wrapOf (s : String) (arg : Bytes) (cause : Err)
deriving DecidableEq

inductive Fault
  | err (e : Err)
  | panic
  | fuel
deriving DecidableEq

/-- A sequence that returns a value has returned one at each step. -/
theorem Except.bind_eq_ok {ε α β : Type} {x : Except ε α} {f : α → Except ε β} {b : β} :
    x >>= f = .ok b ↔ ∃ a, x = .ok a ∧ f a = .ok b := by
  cases x with
  | error e => simp [bind, Except.bind]
  | ok a => simp [bind, Except.bind]

/-- What a Go function of the model returns. -/
abbrev Go (α : Type) := Except Fault α

namespace Go

/-- `v, ok := o`, with a panic for `nil`. -/
def orPanic {α : Type} : Option α → Go α
  | some a => .ok a
  | none => .error .panic

/-- `v, err := f()`: an error is a value of the caller, a panic is not. -/
def result {α : Type} : Go α → Go (Except Err α)
  | .ok a => .ok (.ok a)
  | .error (.err e) => .ok (.error e)
  | .error f => .error f

@[simp] theorem orPanic_some {α : Type} (a : α) : orPanic (some a) = .ok a := rfl

@[simp] theorem ok_bind {α β : Type} (a : α) (f : α → Go β) : (.ok a : Go α) >>= f = f a := rfl

theorem orPanic_eq_ok {α : Type} {o : Option α} {a : α} : orPanic o = .ok a ↔ o = some a := by
  cases o with
  | none => simp [orPanic]
  | some b => simp [orPanic]

end Go

/-! ### Indices and slices -/

/-- `xs[i]`. -/
def index (xs : Bytes) (i : Int) : Option UInt8 :=
  if 0 ≤ i then xs[i.toNat]? else none

/-- `xs[i] = b`. -/
def setIndex (xs : Bytes) (i : Int) (b : UInt8) : Option Bytes :=
  if 0 ≤ i ∧ i < xs.length then some (xs.set i.toNat b) else none

/-- `xs[lo:hi]`. -/
def slice {α : Type} (xs : List α) (lo hi : Int) : Option (List α) :=
  if 0 ≤ lo ∧ lo ≤ hi ∧ hi ≤ xs.length then some ((xs.take hi.toNat).drop lo.toNat) else none

@[simp] theorem index_natCast (xs : Bytes) (i : ℕ) : index xs i = xs[i]? := by
  simp [index]

theorem setIndex_natCast {xs : Bytes} {i : ℕ} (h : i < xs.length) (b : UInt8) :
    setIndex xs i b = some (xs.set i b) := by
  simp [setIndex, h]

theorem slice_natCast {α : Type} (xs : List α) {lo hi : ℕ} (h : lo ≤ hi) (h' : hi ≤ xs.length) :
    slice xs lo hi = some ((xs.take hi).drop lo) := by
  simp [slice, h, h']

/-- The element at the start of what is left from `i` on. -/
theorem index_of_drop {xs tail : Bytes} {i : ℕ} {c : UInt8} (h : xs.drop i = c :: tail) :
    index xs i = some c := by
  have h₀ : (xs.drop i)[0]? = some c := by rw [h]; rfl
  rwa [List.getElem?_drop, Nat.add_zero, ← index_natCast] at h₀

/-- The elements at the start of what is left from `i` on. -/
theorem slice_of_drop {xs p tail : Bytes} {i : ℕ} (h : xs.drop i = p ++ tail)
    (hi : i ≤ xs.length) : slice xs i (i + p.length : ℕ) = some p := by
  have hlen : i + (p ++ tail).length = xs.length := by
    rw [← h, List.length_drop, Nat.add_sub_cancel' hi]
  rw [List.length_append] at hlen
  rw [slice_natCast xs (Nat.le_add_right i _) (by omega), List.drop_take, h,
    Nat.add_sub_cancel_left, List.take_left' rfl]

/-- What is left behind the elements at the start of what is left from `i` on. -/
theorem drop_behind {xs p tail : Bytes} {i : ℕ} (h : xs.drop i = p ++ tail) :
    xs.drop (i + p.length) = tail := by
  rw [← List.drop_drop, h, List.drop_left' rfl]

/-! ### Room beyond the end -/

/-- The capacity of `n` bytes that were appended to an empty slice. -/
class Allocator where
  cap : ℕ → ℕ
  le_cap (n : ℕ) : n ≤ cap n

/-- Whole words, which is what the Go runtime gives to at most 32 bytes. -/
instance : Allocator where
  cap n := (n + 7) / 8 * 8
  le_cap n := by omega

/-- `xs[:n]`; the room beyond the bytes is zero. -/
def front [Allocator] (xs : Bytes) (n : ℕ) : Option Bytes :=
  if n ≤ Allocator.cap xs.length then some ((xs.take n).rightpad n 0) else none

/-- There is room for what is there. -/
theorem exists_front [Allocator] {xs : Bytes} {n : ℕ} (h : n ≤ xs.length) :
    ∃ ys, front xs n = some ys :=
  ⟨_, if_pos (h.trans (Allocator.le_cap _))⟩

/-! ### Readers and writers -/

/-- A reader that delivers `rest`, then `fault`, or `io.EOF` if there is none. -/
structure Reader where
  rest : Bytes
  fault : Option Err

namespace Reader

/-- A reader over a whole file. -/
def ofBytes (b : Bytes) : Reader := ⟨b, none⟩

/-- `ReadByte` of a `bufio.Reader`. -/
def readByte (r : Reader) : Except Err UInt8 × Reader :=
  match r.rest with
  | b :: rest => (.ok b, { r with rest := rest })
  | [] => (.error (r.fault.getD .eof), r)

/-- `io.ReadFull` into a buffer of `n` bytes: the bytes read, and the error. -/
def readFull (r : Reader) (n : ℕ) : (Bytes × Option Err) × Reader :=
  if n ≤ r.rest.length then ((r.rest.take n, none), { r with rest := r.rest.drop n })
  else ((r.rest, some (r.fault.getD (if r.rest = [] then .eof else .unexpectedEOF))),
    { r with rest := [] })

@[simp] theorem readByte_cons (b : UInt8) (rest : Bytes) (f : Option Err) :
    readByte ⟨b :: rest, f⟩ = (.ok b, ⟨rest, f⟩) := rfl

@[simp] theorem readByte_nil : readByte ⟨[], none⟩ = (.error .eof, ⟨[], none⟩) := rfl

theorem readFull_nil {n : ℕ} (hn : 0 < n) :
    readFull ⟨[], none⟩ n = (([], some .eof), ⟨[], none⟩) := by
  rw [readFull, if_neg (by simp; omega)]
  rfl

theorem readFull_full {n : ℕ} {rest : Bytes} (h : n ≤ rest.length) (f : Option Err) :
    readFull ⟨rest, f⟩ n = ((rest.take n, none), ⟨rest.drop n, f⟩) := by
  rw [readFull, if_pos h]

theorem readFull_short {n : ℕ} {rest : Bytes} (h : rest.length < n) (hne : rest ≠ []) :
    readFull ⟨rest, none⟩ n = ((rest, some .unexpectedEOF), ⟨[], none⟩) := by
  rw [readFull, if_neg (by simp; omega)]
  simp [hne]

end Reader

/-- A writer: what it has taken, and the error, if any, of the next write. -/
structure Sink where
  out : Bytes
  fails : Bytes → Bytes → Option Err

namespace Sink

/-- `new(bytes.Buffer)`: no write fails. -/
def buffer : Sink := ⟨[], fun _ _ => none⟩

def write (s : Sink) (p : Bytes) : Except Err Sink :=
  match s.fails s.out p with
  | some e => .error e
  | none => .ok { s with out := s.out ++ p }

/-- The size of what the writer takes is an `int64`, as it is for files and buffers: a write that
would pass that size fails. -/
def Bounded (s : Sink) : Prop :=
  ∀ out p, s.fails out p = none → (out ++ p).length < 2 ^ 63

end Sink
