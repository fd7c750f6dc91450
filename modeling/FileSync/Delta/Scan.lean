import FileSync.Delta.Generate
import Mathlib.Data.List.Chain
import Mathlib.Data.List.Infix

/-!
# Delta — the scan the generator implements

What `GenerateDelta` is for, without windows, buffers and end-of-file flags: a greedy scan of the
new file.  `find w` is the block whose contents are `w`, if there is one.  While at least `n` bytes
are left, the next `n` either match a block and become a copy, or their first byte becomes literal
data.  Only after a copy are fewer than `n` bytes looked up too.

* `scan_cases`: the operations of a scan, by the cases of its recursion; the results below are
  inductions on it.
* `scan_applied`: if every copy the scan makes is right, its operations stand for the input.
* `scan_tidy`, `scan_unfound`, `find_of_mem_spans`: literal data are not empty and not adjacent, no
  window inside them would have been found, and each copy names what was found for its bytes.
* `Compared n xs w`: `w` is looked up in no scan of `xs` unless it is a full window of `xs` or a
  short rest.
-/

namespace FileSync.Deltas

/-- The pending literal data as operations. -/
def flushed (lit : Bytes) : List DeltaOp := if lit.length > 0 then [.data lit] else []

/-- The operations for the bytes `rest`, fewer than a block, that follow a copy. -/
def scanTail (find : Bytes → Option UInt32) (rest : Bytes) : List DeltaOp :=
  if rest = [] then []
  else match find rest with
    | some i => [.copy i]
    | none => flushed rest

/-- The operations for `todo`, with `lit` pending. -/
def scan (find : Bytes → Option UInt32) (n : ℕ) (lit todo : Bytes) : List DeltaOp :=
  if _h : 0 < n ∧ n ≤ todo.length then
    match find (todo.take n) with
    | some i =>
      flushed lit ++ .copy i ::
        if (todo.drop n).length < n then scanTail find (todo.drop n)
        else scan find n [] (todo.drop n)
    | none =>
      if todo.length = n then flushed (lit ++ todo)
      else scan find n (lit ++ todo.take 1) todo.tail
  else flushed (lit ++ todo)
termination_by todo.length
decreasing_by
  · simp; omega
  · simp; omega

section Equations
variable {find : Bytes → Option UInt32} {n : ℕ} {lit todo : Bytes}

theorem scan_short (h : todo.length < n) : scan find n lit todo = flushed (lit ++ todo) := by
  rw [scan, dif_neg (by omega)]

theorem scan_match_last {i : UInt32} (hn : 0 < n) (h : n ≤ todo.length)
    (hf : find (todo.take n) = some i) (hr : (todo.drop n).length < n) :
    scan find n lit todo = flushed lit ++ .copy i :: scanTail find (todo.drop n) := by
  rw [scan, dif_pos ⟨hn, h⟩, hf, if_pos hr]

theorem scan_match {i : UInt32} (hn : 0 < n) (h : n ≤ todo.length)
    (hf : find (todo.take n) = some i) (hr : n ≤ (todo.drop n).length) :
    scan find n lit todo = flushed lit ++ .copy i :: scan find n [] (todo.drop n) := by
  rw [scan, dif_pos ⟨hn, h⟩, hf, if_neg (by omega)]

theorem scan_last (hn : 0 < n) (h : todo.length = n) (hf : find (todo.take n) = none) :
    scan find n lit todo = flushed (lit ++ todo) := by
  rw [scan, dif_pos ⟨hn, h.ge⟩, hf, if_pos h]

theorem scan_literal {b : UInt8} {v : Bytes} (hn : 0 < n) (h : n < (b :: v).length)
    (hf : find ((b :: v).take n) = none) :
    scan find n lit (b :: v) = scan find n (lit ++ [b]) v := by
  rw [scan, dif_pos ⟨hn, h.le⟩, hf, if_neg h.ne']
  rfl

end Equations

/-- The cases of the scan, for an input of at least `n` bytes. -/
theorem scan_induction {n : ℕ} (hn : 0 < n) {motive : Bytes → Bytes → Prop}
    (find : Bytes → Option UInt32)
    (last_match : ∀ lit todo i, n ≤ todo.length → find (todo.take n) = some i →
      (todo.drop n).length < n → motive lit todo)
    (next_match : ∀ lit todo i, n ≤ todo.length → find (todo.take n) = some i →
      n ≤ (todo.drop n).length → motive [] (todo.drop n) → motive lit todo)
    (last_literal : ∀ lit todo, todo.length = n → find (todo.take n) = none → motive lit todo)
    (next_literal : ∀ lit b v, n < (b :: v).length → find ((b :: v).take n) = none →
      motive (lit ++ [b]) v → motive lit (b :: v)) :
    ∀ lit todo, n ≤ todo.length → motive lit todo := by
  intro lit todo
  induction h : todo.length using Nat.strong_induction_on generalizing lit todo with
  | _ k ih =>
    subst h
    intro hle
    cases hf : find (todo.take n) with
    | some i =>
      by_cases hr : (todo.drop n).length < n
      · exact last_match lit todo i hle hf hr
      · have hlt : (todo.drop n).length < todo.length := by simp; omega
        exact next_match lit todo i hle hf (by omega) (ih _ hlt _ _ rfl (by omega))
    | none =>
      rcases hle.eq_or_lt with heq | hlt
      · exact last_literal lit todo heq.symm hf
      · cases todo with
        | nil => simp at hlt
        | cons b v =>
          exact next_literal lit b v hlt hf
            (ih v.length (by simp) _ _ rfl (by simp at hlt; omega))

/-- The operations of a scan, by its cases. -/
theorem scan_cases (find : Bytes → Option UInt32) {n : ℕ} (hn : 0 < n)
    {motive : Bytes → Bytes → List DeltaOp → Prop}
    (short : ∀ lit todo, todo.length < n → motive lit todo (flushed (lit ++ todo)))
    (last_match : ∀ lit todo i, n ≤ todo.length → find (todo.take n) = some i →
      (todo.drop n).length < n →
      motive lit todo (flushed lit ++ .copy i :: scanTail find (todo.drop n)))
    (next_match : ∀ lit todo i ops, n ≤ todo.length → find (todo.take n) = some i →
      n ≤ (todo.drop n).length → motive [] (todo.drop n) ops →
      motive lit todo (flushed lit ++ .copy i :: ops))
    (last_literal : ∀ lit todo, todo.length = n → find todo = none →
      motive lit todo (flushed (lit ++ todo)))
    (next_literal : ∀ lit b v ops, n < (b :: v).length → find ((b :: v).take n) = none →
      motive (lit ++ [b]) v ops → motive lit (b :: v) ops) :
    ∀ lit todo, motive lit todo (scan find n lit todo) := by
  intro lit todo
  by_cases hle : n ≤ todo.length
  swap
  · have hlt := Nat.lt_of_not_le hle
    rw [scan_short hlt]
    exact short lit todo hlt
  refine scan_induction hn find (motive := fun lit todo => motive lit todo (scan find n lit todo))
    ?_ ?_ ?_ ?_ lit todo hle
  · intro lit todo i hle hf hr
    rw [scan_match_last hn hle hf hr]
    exact last_match lit todo i hle hf hr
  · intro lit todo i hle hf hr ih
    rw [scan_match hn hle hf hr]
    exact next_match lit todo i _ hle hf hr ih
  · intro lit todo heq hf
    rw [scan_last hn heq hf]
    rw [List.take_of_length_le heq.le] at hf
    exact last_literal lit todo heq hf
  · intro lit b v hlt hf ih
    rw [scan_literal hn hlt hf]
    exact next_literal lit b v _ hlt hf ih

/-- Where nothing is found, everything is literal data. -/
theorem scan_none {find : Bytes → Option UInt32} {n : ℕ} (hn : 0 < n) (hf : ∀ w, find w = none)
    (lit todo : Bytes) : scan find n lit todo = flushed (lit ++ todo) := by
  refine scan_cases find hn (motive := fun lit todo ops => ops = flushed (lit ++ todo))
    ?_ ?_ ?_ ?_ ?_ lit todo
  · exact fun _ _ _ => rfl
  · intro lit todo i _ h _
    rw [hf] at h
    cases h
  · intro lit todo i ops _ h _ _
    rw [hf] at h
    cases h
  · exact fun _ _ _ _ => rfl
  · intro lit b v ops _ _ ih
    rw [ih, List.append_assoc]
    rfl

/-! ### What the operations stand for -/

/-- The bytes the operations stand for when block `i` is `blk i`. -/
def applied (blk : UInt32 → Bytes) (ops : List DeltaOp) : Bytes :=
  ops.flatMap fun
    | .copy i => blk i
    | .data d => d

@[simp] theorem applied_nil (blk : UInt32 → Bytes) : applied blk [] = [] := rfl

@[simp] theorem applied_append (blk : UInt32 → Bytes) (o₁ o₂ : List DeltaOp) :
    applied blk (o₁ ++ o₂) = applied blk o₁ ++ applied blk o₂ := by
  simp [applied]

@[simp] theorem applied_copy (blk : UInt32 → Bytes) (i : UInt32) (ops : List DeltaOp) :
    applied blk (.copy i :: ops) = blk i ++ applied blk ops := by
  simp [applied]

@[simp] theorem applied_flushed (blk : UInt32 → Bytes) (lit : Bytes) :
    applied blk (flushed lit) = lit := by
  cases lit <;> simp [flushed, applied]

/-- `w` can be looked up by a scan of `xs`: a full window, or a short rest. -/
def Compared (n : ℕ) (xs w : Bytes) : Prop :=
  (w.length = n ∧ w <:+: xs) ∨ (w.length < n ∧ w <:+ xs)

theorem Compared.of_suffix {n : ℕ} {xs ys w : Bytes} (h : Compared n ys w) (hs : ys <:+ xs) :
    Compared n xs w := by
  rcases h with ⟨hl, hi⟩ | ⟨hl, hi⟩
  · exact .inl ⟨hl, hi.trans hs.isInfix⟩
  · exact .inr ⟨hl, hi.trans hs⟩

theorem compared_take {n : ℕ} {xs : Bytes} (h : n ≤ xs.length) : Compared n xs (xs.take n) :=
  .inl ⟨by simp; omega, (List.take_prefix n xs).isInfix⟩

theorem compared_drop {n : ℕ} {xs : Bytes} (h : (xs.drop n).length < n) :
    Compared n xs (xs.drop n) :=
  .inr ⟨h, List.drop_suffix n xs⟩

/-- **The scan is right when its copies are.** -/
theorem scan_applied {find : Bytes → Option UInt32} {blk : UInt32 → Bytes} {n : ℕ} (hn : 0 < n) :
    ∀ lit todo, (∀ w i, Compared n todo w → find w = some i → blk i = w) →
      applied blk (scan find n lit todo) = lit ++ todo := by
  refine scan_cases find hn (motive := fun lit todo ops =>
    (∀ w i, Compared n todo w → find w = some i → blk i = w) → applied blk ops = lit ++ todo)
    ?_ ?_ ?_ ?_ ?_
  · intro lit todo _ _
    exact applied_flushed blk _
  · intro lit todo i hle hf hr hfind
    have htail : applied blk (scanTail find (todo.drop n)) = todo.drop n := by
      rw [scanTail]
      split
      · next h => rw [h, applied_nil]
      · cases hf' : find (todo.drop n) with
        | none => exact applied_flushed blk _
        | some j =>
          have := hfind _ j (compared_drop hr) hf'
          simp [this]
    rw [applied_append, applied_flushed, applied_copy, htail,
      hfind _ i (compared_take hle) hf, List.take_append_drop]
  · intro lit todo i ops hle hf _ ih hfind
    rw [applied_append, applied_flushed, applied_copy,
      ih (fun w j hw => hfind w j (hw.of_suffix (List.drop_suffix n todo))),
      hfind _ i (compared_take hle) hf, List.nil_append, List.take_append_drop]
  · intro lit todo _ _ _
    exact applied_flushed blk _
  · intro lit b v ops _ _ ih hfind
    rw [ih (fun w j hw => hfind w j (hw.of_suffix (List.suffix_cons b v))), List.append_assoc]
    rfl

/-- A scan depends on what is found for the windows and the rest it looks up. -/
theorem scan_congr {find find' : Bytes → Option UInt32} {n : ℕ} (hn : 0 < n) :
    ∀ lit todo, (∀ w, Compared n todo w → find w = find' w) →
      scan find n lit todo = scan find' n lit todo := by
  refine scan_cases find hn (motive := fun lit todo ops =>
    (∀ w, Compared n todo w → find w = find' w) → ops = scan find' n lit todo) ?_ ?_ ?_ ?_ ?_
  · intro lit todo hlt _
    rw [scan_short hlt]
  · intro lit todo i hle hf hr hfind
    rw [hfind _ (compared_take hle)] at hf
    rw [scan_match_last hn hle hf hr, scanTail, scanTail, hfind _ (compared_drop hr)]
  · intro lit todo i ops hle hf hr ih hfind
    rw [hfind _ (compared_take hle)] at hf
    rw [scan_match hn hle hf hr,
      ih fun w hw => hfind w (hw.of_suffix (List.drop_suffix n todo))]
  · intro lit todo heq hf hfind
    rw [← List.take_of_length_le heq.le, hfind _ (compared_take heq.ge)] at hf
    rw [scan_last hn heq hf]
  · intro lit b v ops hlt hf ih hfind
    rw [hfind _ (compared_take hlt.le)] at hf
    rw [scan_literal hn hlt hf]
    exact ih fun w hw => hfind w (hw.of_suffix (List.suffix_cons b v))

/-! ### The shape of the operations -/

/-- The operation is literal data. -/
def DeltaOp.IsData : DeltaOp → Prop
  | .copy _ => False
  | .data _ => True

/-- No literal is empty, and no two are adjacent. -/
structure Tidy (ops : List DeltaOp) : Prop where
  nonempty : ∀ p, .data p ∈ ops → p ≠ []
  apart : ops.IsChain fun o o' => ¬ (o.IsData ∧ o'.IsData)

theorem tidy_nil : Tidy [] := ⟨by simp, .nil⟩

theorem mem_flushed {p lit : Bytes} : .data p ∈ flushed lit ↔ p = lit ∧ lit ≠ [] := by
  rw [flushed]
  split
  · next h => simp [List.length_pos_iff.mp h]
  · next h => simp [List.eq_nil_of_length_eq_zero (Nat.eq_zero_of_not_pos h)]

theorem tidy_flushed (lit : Bytes) : Tidy (flushed lit) where
  nonempty := by
    intro p hp
    obtain ⟨rfl, hne⟩ := mem_flushed.1 hp
    exact hne
  apart := by
    rw [flushed]
    split
    · exact .singleton _
    · exact .nil

theorem tidy_copy {i : UInt32} {ops : List DeltaOp} (h : Tidy ops) : Tidy (.copy i :: ops) where
  nonempty := by
    intro p hp
    rcases List.mem_cons.1 hp with hp | hp
    · cases hp
    · exact h.nonempty p hp
  apart := List.isChain_cons.2 ⟨fun _ _ hd => hd.1, h.apart⟩

theorem tidy_flushed_copy {i : UInt32} {ops : List DeltaOp} (h : Tidy ops) (lit : Bytes) :
    Tidy (flushed lit ++ .copy i :: ops) where
  nonempty := by
    intro p hp
    rcases List.mem_append.1 hp with hp | hp
    · exact (tidy_flushed lit).nonempty p hp
    · exact (tidy_copy h).nonempty p hp
  apart := by
    refine List.isChain_append.2 ⟨(tidy_flushed lit).apart, (tidy_copy h).apart, ?_⟩
    rintro o - o' ho' ⟨-, hd⟩
    obtain rfl : .copy i = o' := by simpa using ho'
    exact hd

/-- What follows the last full copy: nothing, a copy of the rest, or the rest. -/
theorem scanTail_cases (find : Bytes → Option UInt32) (rest : Bytes) :
    rest = [] ∧ scanTail find rest = [] ∨
      (∃ i, find rest = some i ∧ scanTail find rest = [.copy i]) ∨
      scanTail find rest = flushed rest := by
  rw [scanTail]
  split
  · next h => exact .inl ⟨h, rfl⟩
  · cases hf : find rest with
    | some i => exact .inr (.inl ⟨i, rfl, rfl⟩)
    | none => exact .inr (.inr rfl)

theorem tidy_scanTail (find : Bytes → Option UInt32) (rest : Bytes) :
    Tidy (scanTail find rest) := by
  rcases scanTail_cases find rest with ⟨-, h⟩ | ⟨i, -, h⟩ | h
  · exact h ▸ tidy_nil
  · exact h ▸ tidy_copy tidy_nil
  · exact h ▸ tidy_flushed rest

/-- **The operations of a scan are tidy.** -/
theorem scan_tidy {find : Bytes → Option UInt32} {n : ℕ} (hn : 0 < n) (lit todo : Bytes) :
    Tidy (scan find n lit todo) := by
  refine scan_cases find hn (motive := fun _ _ ops => Tidy ops) ?_ ?_ ?_ ?_ ?_ lit todo
  · exact fun lit todo _ => tidy_flushed _
  · exact fun lit todo i _ _ _ => tidy_flushed_copy (tidy_scanTail find _) lit
  · exact fun lit todo i ops _ _ _ ih => tidy_flushed_copy ih lit
  · exact fun lit todo _ _ => tidy_flushed _
  · exact fun lit b v ops _ _ ih => ih

/-! ### Nothing is missed -/

/-- A window that ends with `n` bytes of `xs` is those bytes, or ends before the last of them. -/
theorem infix_append_take {n : ℕ} (hn : 0 < n) {lit xs w : Bytes} (hxs : n ≤ xs.length)
    (hlen : w.length = n) (h : w <:+: lit ++ xs.take n) :
    w = xs.take n ∨ w <:+: lit ++ xs.take (n - 1) := by
  obtain ⟨m, rfl⟩ := Nat.exists_eq_add_one_of_ne_zero hn.ne'
  have htake : xs.take (m + 1) = xs.take m ++ [xs.get ⟨m, hxs⟩] := by
    rw [List.take_add_one, List.getElem?_eq_getElem hxs]
    rfl
  have hcut : lit ++ xs.take (m + 1) = (lit ++ xs.take m) ++ [xs.get ⟨m, hxs⟩] := by
    rw [htake, List.append_assoc]
  rw [hcut, List.infix_concat_iff, ← hcut] at h
  rcases h with hs | hi
  · have heq : w.length = (xs.take (m + 1)).length := by rw [hlen, List.length_take]; omega
    exact .inl ((List.suffix_of_suffix_length_le hs (List.suffix_append lit _) heq.le).eq_of_length
      heq)
  · exact .inr hi

/-- **No window inside literal data would have been found.** -/
theorem scan_unfound {find : Bytes → Option UInt32} {n : ℕ} (hn : 0 < n) :
    ∀ lit todo, (∀ w, w.length = n → w <:+: lit ++ todo.take (n - 1) → find w = none) →
      ∀ p, .data p ∈ scan find n lit todo → ∀ w, w.length = n → w <:+: p → find w = none := by
  -- the windows that start in the pending data reach at most `n - 1` bytes beyond them
  refine scan_cases find hn (motive := fun lit todo ops =>
    (∀ w, w.length = n → w <:+: lit ++ todo.take (n - 1) → find w = none) →
      ∀ p, .data p ∈ ops → ∀ w, w.length = n → w <:+: p → find w = none) ?_ ?_ ?_ ?_ ?_
  · intro lit todo hlt hlit p hp w hw hi
    obtain ⟨rfl, -⟩ := mem_flushed.1 hp
    rw [List.take_of_length_le (Nat.le_sub_one_of_lt hlt)] at hlit
    exact hlit w hw hi
  · intro lit todo i _ _ hr hlit p hp w hw hi
    rcases List.mem_append.1 hp with hp | hp
    · obtain ⟨rfl, -⟩ := mem_flushed.1 hp
      exact hlit w hw (hi.trans (List.prefix_append _ _).isInfix)
    · have htail : .data p ∈ scanTail find (todo.drop n) := by simpa using hp
      rcases scanTail_cases find (todo.drop n) with ⟨-, h⟩ | ⟨j, -, h⟩ | h
      · simp [h] at htail
      · simp [h] at htail
      · rw [h] at htail
        obtain ⟨rfl, -⟩ := mem_flushed.1 htail
        exact absurd hi.length_le (by omega)
  · intro lit todo i ops _ _ _ ih hlit p hp w hw hi
    rcases List.mem_append.1 hp with hp | hp
    · obtain ⟨rfl, -⟩ := mem_flushed.1 hp
      exact hlit w hw (hi.trans (List.prefix_append _ _).isInfix)
    · refine ih ?_ p (by simpa using hp) w hw hi
      intro w' hw' hi'
      have hle := hi'.length_le
      rw [List.nil_append, List.length_take] at hle
      omega
  · intro lit todo heq hf hlit p hp w hw hi
    obtain ⟨rfl, -⟩ := mem_flushed.1 hp
    have htake : todo.take n = todo := List.take_of_length_le heq.le
    rw [← htake] at hi
    rcases infix_append_take hn heq.ge hw hi with rfl | hi'
    · rw [htake, hf]
    · exact hlit w hw hi'
  · intro lit b v ops hlt hf ih hlit
    refine ih fun w hw hi => ?_
    have hshift : lit ++ [b] ++ v.take (n - 1) = lit ++ (b :: v).take n := by
      obtain ⟨m, rfl⟩ := Nat.exists_eq_add_one_of_ne_zero hn.ne'
      rw [List.append_assoc]
      rfl
    rw [hshift] at hi
    rcases infix_append_take hn hlt.le hw hi with rfl | hi'
    · exact hf
    · exact hlit w hw hi'

/-- The operations with the bytes of the input each of them stands for: a literal for as many as it
has, a copy for `n`, or for what is left of the input. -/
def spans (n : ℕ) : List DeltaOp → Bytes → List (DeltaOp × Bytes)
  | [], _ => []
  | .copy i :: ops, rest => (.copy i, rest.take n) :: spans n ops (rest.drop n)
  | .data d :: ops, rest => (.data d, rest.take d.length) :: spans n ops (rest.drop d.length)

/-- Literal data in front of the operations change nothing about the copies. -/
theorem mem_spans_flushed {n : ℕ} {i : UInt32} {w lit rest : Bytes} {ops : List DeltaOp} :
    (.copy i, w) ∈ spans n (flushed lit ++ ops) (lit ++ rest) ↔
      (.copy i, w) ∈ spans n ops rest := by
  rw [flushed]
  split
  · rw [List.singleton_append, spans, List.drop_left' rfl]
    simp
  · next h =>
    obtain rfl := List.eq_nil_of_length_eq_zero (Nat.eq_zero_of_not_pos h)
    rfl

/-- The copies of operations that start with literal data and a copy. -/
theorem mem_spans_copy {n : ℕ} {i j : UInt32} {w lit todo : Bytes} {ops : List DeltaOp} :
    (.copy i, w) ∈ spans n (flushed lit ++ .copy j :: ops) (lit ++ todo) ↔
      (i = j ∧ w = todo.take n) ∨ (.copy i, w) ∈ spans n ops (todo.drop n) := by
  rw [mem_spans_flushed, spans, List.mem_cons, Prod.mk.injEq, DeltaOp.copy.injEq]

/-- **Every copy of a scan names what was found for its bytes.** -/
theorem find_of_mem_spans {find : Bytes → Option UInt32} {n : ℕ} (hn : 0 < n) :
    ∀ lit todo i w, (.copy i, w) ∈ spans n (scan find n lit todo) (lit ++ todo) →
      find w = some i := by
  have none : ∀ (lit todo : Bytes) (i : UInt32) (w : Bytes),
      (.copy i, w) ∈ spans n (flushed (lit ++ todo)) (lit ++ todo) → find w = some i := by
    intro lit todo i w h
    have h' : (.copy i, w) ∈ spans n (flushed (lit ++ todo) ++ []) (lit ++ todo ++ []) := by
      simpa using h
    rw [mem_spans_flushed] at h'
    cases h'
  refine scan_cases find hn (motive := fun lit todo ops =>
    ∀ i w, (.copy i, w) ∈ spans n ops (lit ++ todo) → find w = some i) ?_ ?_ ?_ ?_ ?_
  · exact fun lit todo _ => none lit todo
  · intro lit todo j hle hf hr i w h
    rcases mem_spans_copy.1 h with ⟨rfl, rfl⟩ | h
    · exact hf
    · rcases scanTail_cases find (todo.drop n) with ⟨-, ht⟩ | ⟨k, hk, ht⟩ | ht
      · rw [ht] at h
        cases h
      · rw [ht, spans, spans, List.mem_singleton, List.take_of_length_le hr.le] at h
        obtain ⟨⟨rfl⟩, rfl⟩ := Prod.mk.inj h
        exact hk
      · rw [ht] at h
        exact none [] (todo.drop n) i w h
  · intro lit todo j ops hle hf _ ih i w h
    rcases mem_spans_copy.1 h with ⟨rfl, rfl⟩ | h
    · exact hf
    · exact ih i w h
  · exact fun lit todo _ _ => none lit todo
  · intro lit b v ops _ _ ih i w h
    exact ih i w (by rwa [List.append_assoc])

end FileSync.Deltas
