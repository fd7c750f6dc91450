import FileSync.Support.Io

/-!
# Support — Reads

A reader that delivers its input in pieces of any size, and `io.ReadFull` on it.

A call of `Read` returns at most one piece, and of a piece that does not fit the first part.  The
error that ends the input comes with the last piece or by itself.  When the reader is read on it
comes again, or the reader is at its end.

`io.ReadFull` drops an error that comes with the bytes that fill its buffer (`Dropped`); if the
error does not come again, nobody sees it.

* `readFull_spec`: how the input is cut is not seen through `io.ReadFull`: the bytes and the error
  are those of a `Reader` over the whole input that fails with the error if it is not dropped, and
  so is what is left.
-/

/-- The pieces that are left, and the error that comes after them, `io.EOF` if there is none. -/
structure Source where
  pieces : List Bytes
  fault : Option Err
  /-- The error comes with the last piece. -/
  together : Bool
  /-- The error comes again. -/
  again : Bool

namespace Source

def ending (src : Source) : Err := src.fault.getD .eof

/-- The reader after its error. -/
def spent (src : Source) : Source :=
  { src with pieces := [], fault := if src.again then src.fault else none }

/-- `Read` into a buffer of `n` bytes. -/
def read (n : ℕ) (src : Source) : (Bytes × Option Err) × Source :=
  match src.pieces with
  | [] => (([], some src.ending), src.spent)
  | p :: ps =>
    if n < p.length then ((p.take n, none), { src with pieces := p.drop n :: ps })
    else if ps = [] ∧ src.together then ((p, some src.ending), src.spent)
    else ((p, none), { src with pieces := ps })

/-- Reading on without an error takes a piece, or fills the buffer. -/
theorem read_lt {n : ℕ} {src src' : Source} {p : Bytes}
    (h : src.read n = ((p, none), src')) :
    src'.pieces.length < src.pieces.length ∨
      src'.pieces.length = src.pieces.length ∧ p.length = n := by
  unfold read at h
  split at h
  · cases h
  · next q ps hps =>
      rw [hps]
      split at h
      · next hlt =>
          cases h
          exact .inr ⟨rfl, by rw [List.length_take]; omega⟩
      · split at h
        · cases h
        · cases h
          exact .inl (Nat.lt_succ_self _)

/-- The loop of `io.ReadAtLeast` for a full buffer of `n` bytes, of which `got` is there. -/
def readAtLeast (n : ℕ) (got : Bytes) (src : Source) : (Bytes × Option Err) × Source :=
  if n ≤ got.length then ((got, none), src)
  else
    match _hread : src.read (n - got.length) with
    | ((p, none), src') => readAtLeast n (got ++ p) src'
    | ((p, some e), src') =>
      ((got ++ p,
        if n ≤ (got ++ p).length then none
        else if got ++ p ≠ [] ∧ e = .eof then some .unexpectedEOF
        else some e), src')
termination_by (src.pieces.length, n - got.length)
decreasing_by
  rcases read_lt _hread with hlt | ⟨heq, hlen⟩
  · exact Prod.Lex.left _ _ hlt
  · rw [heq]
    refine Prod.Lex.right _ ?_
    rw [List.length_append, hlen]
    omega

/-- `io.ReadFull` into a buffer of `n` bytes. -/
def readFull (n : ℕ) (src : Source) : (Bytes × Option Err) × Source := readAtLeast n [] src

/-! ### One read -/

theorem read_none {n : ℕ} {src src' : Source} {p : Bytes} (h : src.read n = ((p, none), src')) :
    p.length ≤ n ∧ src.pieces.flatten = p ++ src'.pieces.flatten ∧
      src' = { src with pieces := src'.pieces } := by
  unfold read at h
  split at h
  · cases h
  · next q ps hps =>
      rw [hps]
      split at h
      · cases h
        simp [← List.append_assoc]
      · next hle =>
          split at h
          · cases h
          · cases h
            exact ⟨Nat.le_of_not_lt hle, rfl, rfl⟩

theorem read_some {n : ℕ} {src src' : Source} {p : Bytes} {e : Err}
    (h : src.read n = ((p, some e), src')) :
    p.length ≤ n ∧ src.pieces.flatten = p ∧ e = src.ending ∧ src' = src.spent ∧
      (p = [] ∧ src.pieces = [] ∨ src.pieces = [p] ∧ src.together) := by
  unfold read at h
  split at h
  · next hps =>
      cases h
      simp [hps]
  · next q ps hps =>
      rw [hps]
      split at h
      · cases h
      · next hle =>
          split at h
          · next hlast =>
              cases h
              refine ⟨Nat.le_of_not_lt hle, by simp [hlast.1], rfl, rfl, .inr ⟨?_, hlast.2⟩⟩
              rw [hlast.1]
          · cases h

/-! ### The error that is dropped -/

/-- Of `got` bytes in a buffer of `n` and buffers of `n` from then on: the error comes with bytes
that fill one of them, and does not come again. -/
def Dropped (n got : ℕ) (src : Source) : Prop :=
  src.together ∧ src.again = false ∧ (∃ p ∈ src.pieces.getLast?, p ≠ []) ∧
    n ∣ got + src.pieces.flatten.length

instance (n got : ℕ) (src : Source) : Decidable (src.Dropped n got) :=
  inferInstanceAs (Decidable (_ ∧ _ ∧ _ ∧ _))

/-- Reading on changes nothing about that. -/
theorem dropped_of_read_none {n m got : ℕ} {src src' : Source} {p : Bytes}
    (h : src.read m = ((p, none), src')) :
    src'.Dropped n (got + p.length) ↔ src.Dropped n got := by
  obtain ⟨-, hflat, hsame⟩ := read_none h
  have hflags : src'.together = src.together ∧ src'.again = src.again := by
    rw [hsame]
    exact ⟨rfl, rfl⟩
  have hlen : got + p.length + src'.pieces.flatten.length = got + src.pieces.flatten.length := by
    rw [hflat, List.length_append]
    omega
  rw [Dropped, Dropped, hflags.1, hflags.2, hlen]
  refine and_congr_right fun htogether => and_congr_right fun _ => and_congr_left fun _ => ?_
  -- The last piece is the same, or what is left of it.
  unfold read at h
  split at h
  · cases h
  · next q ps hps =>
      rw [hps]
      split at h
      · next hlt =>
          cases h
          cases ps with
          | nil =>
            have hq : q ≠ [] := List.ne_nil_of_length_pos (by omega)
            have hleft : q.drop m ≠ [] := List.ne_nil_of_length_pos (by
              rw [List.length_drop]
              omega)
            simp [hq, hleft]
          | cons q' ps => simp
      · split at h
        · cases h
        · next hmore =>
            cases h
            cases ps with
            | nil => exact (hmore ⟨rfl, htogether⟩).elim
            | cons q' ps => simp

/-- The error that is seen through buffers of `n`. -/
def seen (n got : ℕ) (src : Source) : Option Err :=
  if src.Dropped n got ∨ src.fault = some .eof then none else src.fault

theorem seen_ne_eof (n got : ℕ) (src : Source) : src.seen n got ≠ some .eof := by
  intro h
  rw [seen] at h
  split_ifs at h with hnone
  exact hnone (.inr h)

theorem seen_congr {n got got' : ℕ} {src src' : Source} (hfault : src'.fault = src.fault)
    (hdropped : src'.Dropped n got' ↔ src.Dropped n got) : src'.seen n got' = src.seen n got := by
  simp only [seen, hfault, hdropped]

theorem seen_of_not_dropped {n got : ℕ} {src : Source} (h : ¬ src.Dropped n got) :
    src.seen n got = if src.fault = some .eof then none else src.fault := by
  simp only [seen, h, false_or]

/-- At the end there is nothing for an error to come with. -/
theorem not_dropped_of_nil {n got : ℕ} {src : Source} (h : src.pieces = [] ∨ src.pieces = [[]]) :
    ¬ src.Dropped n got := by
  rintro ⟨-, -, ⟨p, hp, hne⟩, -⟩
  rcases h with h | h
  · simp [h] at hp
  · simp_all

/-- The error comes with the bytes that fill the buffer. -/
theorem seen_spent {n got : ℕ} {src : Source} {p : Bytes} (hone : src.pieces = [p]) (hne : p ≠ [])
    (htogether : src.together) (hfull : got + p.length = n) :
    src.spent.seen n 0 = src.seen n got := by
  cases hagain : src.again with
  | true =>
    refine seen_congr (if_pos hagain) (iff_of_false (not_dropped_of_nil (.inl rfl)) ?_)
    rintro ⟨-, hnot, -⟩
    cases hagain.symm.trans hnot
  | false =>
    have hdropped : src.Dropped n got := by
      refine ⟨htogether, hagain, ⟨p, by simp [hone], hne⟩, ?_⟩
      simp [hone, hfull]
    have hgone : src.spent.fault = none := by rw [spent, hagain]; rfl
    have hnone : src.seen n got = none := if_pos (.inl hdropped)
    rw [hnone, seen, hgone, ite_self]

/-- The error of a short read. -/
theorem ending_of_not_dropped {n got : ℕ} {src : Source} (h : ¬ src.Dropped n got) (data : Bytes) :
    (if data ≠ [] ∧ src.ending = .eof then some .unexpectedEOF else some src.ending) =
      some ((src.seen n got).getD (if data = [] then .eof else .unexpectedEOF)) := by
  rw [seen_of_not_dropped h, ending]
  cases hfault : src.fault with
  | none => by_cases hdata : data = [] <;> simp [hdata]
  | some e =>
    by_cases he : e = .eof
    · by_cases hdata : data = [] <;> simp [hdata, he]
    · simp [he]

/-! ### The whole input -/

/-- What the loop returns for the bytes that are left. -/
structure Reads (n : ℕ) (got : Bytes) (src : Source) (out : (Bytes × Option Err) × Source) :
    Prop where
  same : out.1 = (Reader.readFull ⟨got ++ src.pieces.flatten, src.seen n got.length⟩ n).1
  /-- The buffer was filled, and the rest is to come. -/
  full : out.1.2 = none → out.2.pieces.flatten = (got ++ src.pieces.flatten).drop n ∧
    out.2.seen n 0 = src.seen n got.length
  /-- Or this was the end. -/
  done : out.1.2 ≠ none → out.2.pieces = [] ∧ (out.2.fault = none ∨ out.2.fault = src.fault)

theorem readAtLeast_spec {n : ℕ} {got : Bytes} (hgot : got.length ≤ n) (src : Source) :
    Reads n got src (readAtLeast n got src) := by
  fun_induction readAtLeast n got src with
  | case1 got src hfull =>
    obtain rfl : got.length = n := le_antisymm hgot hfull
    refine ⟨?_, fun _ => ⟨?_, ?_⟩, fun h => (h rfl).elim⟩
    · rw [Reader.readFull_full (by simp), List.take_left]
    · rw [List.drop_left]
    · have hdropped : src.Dropped got.length 0 ↔ src.Dropped got.length got.length := by
        rw [Dropped, Dropped, Nat.zero_add, Nat.dvd_add_right (Nat.dvd_refl _)]
      exact seen_congr rfl hdropped
  | case2 got src hfull p src' hread ih =>
    obtain ⟨hp, hflat, hsame⟩ := read_none hread
    obtain ⟨hout, hmore, hdone⟩ := ih (by rw [List.length_append]; omega)
    have hfault : src'.fault = src.fault := by rw [hsame]
    have hseen : src'.seen n (got ++ p).length = src.seen n got.length := by
      rw [List.length_append]
      exact seen_congr hfault (dropped_of_read_none hread)
    rw [List.append_assoc, ← hflat, hseen] at hout hmore
    exact ⟨hout, hmore, fun h => hfault ▸ hdone h⟩
  | case3 got src hfull p e src' hread =>
    obtain ⟨hp, hflat, rfl, rfl, hlast⟩ := read_some hread
    have hlen : (got ++ p).length ≤ n := by
      rw [List.length_append]
      omega
    rw [← hflat] at hlen ⊢
    by_cases hle : n ≤ (got ++ src.pieces.flatten).length
    · -- The error is dropped, so it came with the bytes that filled the buffer.
      refine ⟨?_, fun _ => ⟨?_, ?_⟩, fun h => (h (if_pos hle)).elim⟩
      · rw [Reader.readFull_full hle, List.take_of_length_le hlen, if_pos hle]
      · rw [List.drop_of_length_le hlen]
        rfl
      · rcases hlast with ⟨rfl, -⟩ | ⟨hone, htogether⟩
        · rw [hflat, List.append_nil] at hle
          exact (hfull hle).elim
        have hne : p ≠ [] := by
          rintro rfl
          rw [hflat, List.append_nil] at hle
          exact hfull hle
        refine seen_spent hone hne htogether ?_
        rw [← List.length_append, ← hflat]
        exact le_antisymm hlen hle
    · have hnot : ¬ src.Dropped n got.length := by
        rintro hdropped
        have hzero := Nat.eq_zero_of_dvd_of_lt hdropped.2.2.2
          (by rw [← List.length_append]; exact Nat.lt_of_not_le hle)
        have hnil : p = [] := List.eq_nil_of_length_eq_zero (by rw [← hflat]; omega)
        exact not_dropped_of_nil (hlast.imp And.right fun h => hnil ▸ h.1) hdropped
      refine ⟨?_, fun h => ?_, fun _ => ⟨rfl, ?_⟩⟩
      · rw [Reader.readFull, if_neg hle, if_neg hle, ending_of_not_dropped hnot]
      · rw [if_neg hle] at h
        split_ifs at h
      · exact (Bool.eq_false_or_eq_true src.again).elim (fun h => .inr (if_pos h))
          fun h => .inl (by rw [spent, h]; rfl)

/-- **How the input is cut is not seen** through `io.ReadFull`. -/
theorem readFull_spec (src : Source) (n : ℕ) : Reads n [] src (src.readFull n) :=
  readAtLeast_spec (Nat.zero_le n) src

end Source
