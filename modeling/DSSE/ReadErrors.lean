import DSSE.ClientStorage
import DSSE.Schemes.FStream
import DSSE.Schemes.Loops

/-! The loops of the readers on files that may have a read error. Four of them come to an error or to the
    end of the file, since each round takes something from the stream. The loop of `readRevlist` asks for
    the end of the file alone, which a stream with a read error does not come to. A string longer than
    `std::string` allows is an exception, `std::length_error`. -/

namespace DSSE
open Schemes Std

/-! ### Strings -/

/-- `readString`, where `maxSize` is `std::string::max_size()`. There is no result where the string cannot
    be made. -/
def readStringFrom (maxSize : ℕ) (st : FStream) (s : Bytes) : Option (Bool × Bytes × FStream) :=
  let (size, st) := st.getUnsigned (2 ^ 64)
  if st.eof then some (true, [], st)
  else if st.fail then some (false, s, st)
  else
    let (c0, st) := st.getChar
    if st.fail then some (false, s, st)
    else if maxSize < size.getD 0 then none
    else
      let (s, st) := st.read (size.getD 0)
      let (c1, st) := st.getChar
      if st.fail then some (false, s, st)
      else if c0 ≠ some 0x3a ∨ c1 ≠ some 0x2c then some (false, s, st)
      else some (true, s, st)

/-- A length stands in the stream, with a character behind it, that no string can have. -/
def Oversized (maxSize : ℕ) (st : FStream) : Prop :=
  (st.getUnsigned (2 ^ 64)).2.eof = false ∧ (st.getUnsigned (2 ^ 64)).2.fail = false ∧
  (st.getUnsigned (2 ^ 64)).2.getChar.2.fail = false ∧
  maxSize < (st.getUnsigned (2 ^ 64)).1.getD 0

theorem readStringFrom_eq_none {maxSize : ℕ} {st : FStream} {s : Bytes} :
    readStringFrom maxSize st s = none ↔ Oversized maxSize st := by
  rw [readStringFrom, Oversized]
  obtain ⟨size, st₁⟩ := st.getUnsigned (2 ^ 64)
  simp only
  cases st₁.eof
  · cases st₁.fail
    · cases st₁.getChar.2.fail
      · by_cases hsize : maxSize < size.getD 0
        · simp [hsize]
        · simp only [hsize, Bool.false_eq_true, if_false, and_false, iff_false]
          split
          · exact Option.some_ne_none _
          · split <;> exact Option.some_ne_none _
      · simp
    · simp
  · simp

/-- A string that is read is taken from the text. -/
theorem length_rest_readStringFrom_lt {maxSize : ℕ} {st st' : FStream} {s v : Bytes}
    (h : readStringFrom maxSize st s = some (true, v, st')) (heof : st'.eof = false) :
    st'.text.rest.length < st.text.rest.length := by
  have hsize := st.length_rest_getUnsigned_le (2 ^ 64)
  rw [readStringFrom] at h
  generalize st.getUnsigned (2 ^ 64) = r₁ at h hsize
  obtain ⟨size, st₁⟩ := r₁
  simp only at h hsize
  by_cases heof₁ : st₁.eof = true
  · simp only [heof₁, if_true, Option.some.injEq, Prod.mk.injEq, true_and] at h
    rw [← h.2, heof₁] at heof
    cases heof
  by_cases hfail₁ : st₁.fail = true
  · simp [heof₁, hfail₁] at h
  rw [if_neg heof₁, if_neg hfail₁] at h
  have hc0 : st₁.getChar.2.fail = false → _ := FStream.length_rest_getChar_lt
  generalize st₁.getChar = r₂ at h hc0
  obtain ⟨c0, st₂⟩ := r₂
  simp only at h hc0
  by_cases hfail₂ : st₂.fail = true
  · simp [hfail₂] at h
  by_cases hlong : maxSize < size.getD 0
  · simp [hfail₂, hlong] at h
  rw [if_neg hfail₂, if_neg hlong] at h
  have hbuf := st₂.length_rest_read_le (size.getD 0)
  generalize st₂.read (size.getD 0) = r₃ at h hbuf
  obtain ⟨buf, st₃⟩ := r₃
  simp only at h hbuf
  have hc1 : st₃.getChar.2.fail = false → _ := FStream.length_rest_getChar_lt
  generalize st₃.getChar = r₄ at h hc1
  obtain ⟨c1, st₄⟩ := r₄
  simp only at h hc1
  by_cases hfail₄ : st₄.fail = true
  · simp [hfail₄] at h
  rw [if_neg hfail₄] at h
  have hst' : st₄ = st' := by
    split at h
    · simp at h
    · simp only [Option.some.injEq, Prod.mk.injEq] at h
      exact h.2.2
  have h₀ := hc0 (eq_false_of_ne_true hfail₂)
  have h₁ := hc1 (eq_false_of_ne_true hfail₄)
  rw [← hst']
  omega

/-- The same where the loop goes on behind a string. -/
theorem length_rest_of_next {maxSize : ℕ} {st st' : FStream} {s v : Bytes} {ok : Bool}
    (h : readStringFrom maxSize st s = some (ok, v, st')) (hnext : (!ok || st'.eof) = false) :
    st'.text.rest.length < st.text.rest.length := by
  rw [Bool.or_eq_false_iff, Bool.not_eq_false'] at hnext
  rw [hnext.1] at h
  exact length_rest_readStringFrom_lt h hnext.2

/-! ### Rounds -/

section
variable (maxSize : ℕ) (st : FStream)

/-- A round of `readMap`. -/
def readMapRound : FStream × Dmap → Option (Bool × Dmap) ⊕ FStream × Dmap
  | (st, map) =>
    let (k, st) := st.read KEYLEN
    if st.eof then .inl (some (true, map))
    else
      match readStringFrom maxSize st [] with
      | none => .inl none
      | some (ok, v, st) =>
        if !ok || st.eof then .inl (some (false, map)) else .inr (st, map.insert k v)

theorem readMapRound_eq_none_iff (map : Dmap) :
    readMapRound maxSize (st, map) = .inl none ↔
      (st.read KEYLEN).2.eof = false ∧ Oversized maxSize (st.read KEYLEN).2 := by
  simp only [readMapRound, ← readStringFrom_eq_none (s := [])]
  cases (st.read KEYLEN).2.eof with
  | true => simp
  | false =>
    rcases readStringFrom maxSize (st.read KEYLEN).2 [] with _ | ⟨ok, v, st'⟩
    · simp
    · simp only [Bool.false_eq_true, if_false, true_and, reduceCtorEq, iff_false]
      split <;> simp

theorem length_rest_readMapRound_lt {s s' : FStream × Dmap} (h : readMapRound maxSize s = .inr s') :
    s'.1.text.rest.length < s.1.text.rest.length := by
  obtain ⟨st, map⟩ := s
  have hread := st.length_rest_read_le KEYLEN
  simp only [readMapRound] at h
  split at h
  · cases h
  · split at h
    · cases h
    · rename_i ok v st₁ hstring
      split at h
      · cases h
      · rename_i hok
        cases h
        exact (length_rest_of_next hstring (eq_false_of_ne_true hok)).trans_le hread

/-- A round of `readMapCount`. -/
def readMapCountRound : FStream × Dcountmap → Option (Bool × Dcountmap) ⊕ FStream × Dcountmap
  | (st, map) =>
    match readStringFrom maxSize st [] with
    | none => .inl none
    | some (ok, token, st) =>
      if !ok then .inl (some (false, map))
      else if st.eof then .inl (some (true, map))
      else
        let (v, st) := st.getUnsigned (2 ^ 64)
        if st.fail then .inl (some (false, map))
        else .inr (st, map.insert token (UInt64.ofNat (v.getD 0)))

theorem readMapCountRound_eq_none_iff (map : Dcountmap) :
    readMapCountRound maxSize (st, map) = .inl none ↔ Oversized maxSize st := by
  simp only [readMapCountRound, ← readStringFrom_eq_none (s := [])]
  rcases readStringFrom maxSize st [] with _ | ⟨ok, v, st'⟩
  · simp
  · simp only [reduceCtorEq, iff_false]
    split
    · simp
    · split
      · simp
      · split <;> simp

theorem length_rest_readMapCountRound_lt {s s' : FStream × Dcountmap}
    (h : readMapCountRound maxSize s = .inr s') :
    s'.1.text.rest.length < s.1.text.rest.length := by
  obtain ⟨st, map⟩ := s
  simp only [readMapCountRound] at h
  split at h
  · cases h
  · rename_i ok token st₁ hstring
    split at h
    · cases h
    · rename_i hok
      split at h
      · cases h
      · rename_i heof
        split at h
        · cases h
        · have hnext := Bool.or_eq_false_iff.mpr ⟨eq_false_of_ne_true hok, eq_false_of_ne_true heof⟩
          cases h
          exact (st₁.length_rest_getUnsigned_le _).trans_lt (length_rest_of_next hstring hnext)

/-- A round of `readRevlist`. -/
def readRevlistRound : FStream × Revlist → Option (Bool × Revlist) ⊕ FStream × Revlist
  | (st, m) =>
    let (v, st) := st.read KEYLEN
    if st.eof then .inl (some (true, m)) else .inr (st, m.insert v)

/-- A round of `readFileidMap`. -/
def readFileidMapRound : FStream × FileidMap → Option (Bool × FileidMap) ⊕ FStream × FileidMap
  | (st, m) =>
    let (fileid, st) := st.getUnsigned (2 ^ 64)
    if st.eof then .inl (some (true, m))
    else
      match readStringFrom maxSize st [] with
      | none => .inl none
      | some (ok, v, st) =>
        if !ok || st.eof then .inl (some (false, m))
        else .inr (st, m.insert (UInt64.ofNat (fileid.getD 0)) v)

theorem readFileidMapRound_eq_none_iff (m : FileidMap) :
    readFileidMapRound maxSize (st, m) = .inl none ↔
      (st.getUnsigned (2 ^ 64)).2.eof = false ∧ Oversized maxSize (st.getUnsigned (2 ^ 64)).2 := by
  simp only [readFileidMapRound, ← readStringFrom_eq_none (s := [])]
  obtain ⟨fileid, st₁⟩ := st.getUnsigned (2 ^ 64)
  simp only
  cases st₁.eof with
  | true => simp
  | false =>
    rcases readStringFrom maxSize st₁ [] with _ | ⟨ok, v, st'⟩
    · simp
    · simp only [Bool.false_eq_true, if_false, true_and, reduceCtorEq, iff_false]
      split <;> simp

theorem length_rest_readFileidMapRound_lt {s s' : FStream × FileidMap}
    (h : readFileidMapRound maxSize s = .inr s') :
    s'.1.text.rest.length < s.1.text.rest.length := by
  obtain ⟨st, m⟩ := s
  have hid := st.length_rest_getUnsigned_le (2 ^ 64)
  simp only [readFileidMapRound] at h
  split at h
  · cases h
  · split at h
    · cases h
    · rename_i ok v st₁ hstring
      split at h
      · cases h
      · rename_i hok
        cases h
        exact (length_rest_of_next hstring (eq_false_of_ne_true hok)).trans_le hid

/-- Round `i` of `readBlocks`. -/
def readBlocksRound : FStream × ℕ × List Bytes → Option (Bool × List Bytes) ⊕ FStream × ℕ × List Bytes
  | (st, i, A) =>
    let A := A ++ [[]]
    match readStringFrom maxSize st (A.getD i []) with
    | none => .inl none
    | some (ok, s, st) =>
      let A := A.set i s
      if !ok then .inl (some (false, A))
      else if st.eof then .inl (some (true, A))
      else .inr (st, i + 1, A)

theorem readBlocksRound_eq_none_iff (i : ℕ) (A : List Bytes) :
    readBlocksRound maxSize (st, i, A) = .inl none ↔ Oversized maxSize st := by
  rw [readBlocksRound, ← readStringFrom_eq_none (s := (A ++ [[]]).getD i [])]
  generalize readStringFrom maxSize st ((A ++ [[]]).getD i []) = r
  rcases r with _ | ⟨ok, v, st'⟩
  · simp
  · simp only [reduceCtorEq, iff_false]
    split
    · simp
    · split <;> simp

theorem length_rest_readBlocksRound_lt {s s' : FStream × ℕ × List Bytes}
    (h : readBlocksRound maxSize s = .inr s') :
    s'.1.text.rest.length < s.1.text.rest.length := by
  obtain ⟨st, i, A⟩ := s
  simp only [readBlocksRound] at h
  split at h
  · cases h
  · rename_i ok v st₁ hstring
    split at h
    · cases h
    · rename_i hok
      split at h
      · cases h
      · rename_i heof
        have hnext := Bool.or_eq_false_iff.mpr ⟨eq_false_of_ne_true hok, eq_false_of_ne_true heof⟩
        cases h
        exact length_rest_of_next hstring hnext

end

/-! ### The loop of the revocation list -/

/-- Without a read error a round that is not the last one takes an id from the text. -/
theorem readRevlistRound_sound {s s' : FStream × Revlist}
    (hs : s.1.broken = false ∧ s.1.fail = false) (h : readRevlistRound s = .inr s') :
    (s'.1.broken = false ∧ s'.1.fail = false) ∧ s'.1.text.rest.length < s.1.text.rest.length := by
  obtain ⟨⟨⟨rest, eof, fail⟩, bad, broken⟩, m⟩ := s
  obtain ⟨rfl, rfl⟩ : broken = false ∧ fail = false := hs
  cases eof with
  | true => cases h
  | false =>
    simp only [readRevlistRound, FStream.read, IStream.read, IStream.good, FStream.settle, FStream.eof,
      Bool.not_false, Bool.and_self, if_true, Bool.false_and, Bool.false_eq_true, if_false,
      decide_eq_true_eq] at h
    split at h
    · cases h
    · rename_i hlong
      cases h
      refine ⟨⟨rfl, decide_eq_false hlong⟩, ?_⟩
      have hpos : 0 < KEYLEN := by decide
      simp only [List.length_drop]
      omega

/-- With a read error no round is the last one. -/
theorem readRevlistRound_broken {s : FStream × Revlist} (h : s.1.broken = true) :
    ∃ s', readRevlistRound s = .inr s' ∧ s'.1.broken = true := by
  obtain ⟨st, m⟩ := s
  have heof : (st.read KEYLEN).2.eof = false := by
    rw [FStream.read, FStream.eof_settle, h]
    rfl
  refine ⟨_, by rw [readRevlistRound]; simp only [heof, Bool.false_eq_true, if_false]; rfl, ?_⟩
  exact (FStream.broken_settle st _).trans h

/-! ### Files without read errors -/

/-- Without a read error, and without an exception, a string is read as before. -/
theorem readString_of_sound {maxSize : ℕ} {st st' : FStream} {s v : Bytes} {ok : Bool}
    (hst : st.broken = false) (h : readStringFrom maxSize st s = some (ok, v, st')) :
    readString st.text s = (ok, v, st'.text) ∧ st'.broken = false := by
  rw [readStringFrom, FStream.getUnsigned_of_sound hst] at h
  rw [readString]
  generalize st.text.getUnsigned (2 ^ 64) = r₁ at h ⊢
  obtain ⟨size, t₁⟩ := r₁
  simp only [FStream.eof, FStream.fail] at h ⊢
  by_cases heof : t₁.eof = true
  · rw [if_pos heof] at h ⊢
    cases h
    exact ⟨rfl, hst⟩
  by_cases hfail₁ : t₁.fail = true
  · rw [if_neg heof, if_pos hfail₁] at h ⊢
    cases h
    exact ⟨rfl, hst⟩
  rw [if_neg heof, if_neg hfail₁] at h ⊢
  rw [FStream.getChar_of_sound (s := { st with text := t₁ }) hst] at h
  generalize t₁.getChar = r₂ at h ⊢
  obtain ⟨c0, t₂⟩ := r₂
  simp only at h ⊢
  by_cases hfail₂ : t₂.fail = true
  · rw [if_pos hfail₂] at h ⊢
    cases h
    exact ⟨rfl, hst⟩
  by_cases hlong : maxSize < size.getD 0
  · rw [if_neg hfail₂, if_pos hlong] at h
    cases h
  rw [if_neg hfail₂, if_neg hlong, FStream.read_of_sound (s := { st with text := t₂ }) hst] at h
  rw [if_neg hfail₂]
  generalize t₂.read (size.getD 0) = r₃ at h ⊢
  obtain ⟨buf, t₃⟩ := r₃
  simp only [FStream.getChar_of_sound (s := { st with text := t₃ }) hst] at h ⊢
  generalize t₃.getChar = r₄ at h ⊢
  obtain ⟨c1, t₄⟩ := r₄
  simp only at h ⊢
  split at h
  · rename_i hfail₄
    rw [if_pos hfail₄]
    cases h
    exact ⟨rfl, hst⟩
  · rename_i hfail₄
    rw [if_neg hfail₄]
    split at h
    · rename_i hsyntax
      rw [if_pos hsyntax]
      cases h
      exact ⟨rfl, hst⟩
    · rename_i hsyntax
      rw [if_neg hsyntax]
      cases h
      exact ⟨rfl, hst⟩

/-- A round on a text without read errors. -/
def Sound {T : Type} (s : FStream × T) : Prop := s.1.broken = false

section
variable {maxSize : ℕ} {st : FStream} (hst : st.broken = false) (n : ℕ)
include hst

theorem readMapLoop_succ (map : Dmap) :
    GoesOn Sound (fun n s => readMapLoop n s.1.text s.2) n (readMapLoop (n + 1) st.text map)
      (readMapRound maxSize (st, map)) := by
  rw [readMapRound, readMapLoop, FStream.read_of_sound hst]
  by_cases heof : (st.text.read KEYLEN).2.eof = true
  · simp [FStream.eof, heof, GoesOn]
  simp only [FStream.eof, eq_false_of_ne_true heof, Bool.false_eq_true, if_false]
  cases hstring : readStringFrom maxSize { st with text := (st.text.read KEYLEN).2 } [] with
  | none => trivial
  | some r =>
    obtain ⟨ok, v, st'⟩ := r
    obtain ⟨hread, hst'⟩ := readString_of_sound (by exact hst) hstring
    simp only at hread
    simp only [hread]
    by_cases hstop : st'.text.eof = true
    · cases ok <;> simp [GoesOn, hstop]
    · cases ok <;> simp [GoesOn, Sound, hstop, hst']

theorem readMapCountLoop_succ (map : Dcountmap) :
    GoesOn Sound (fun n s => readMapCountLoop n s.1.text s.2) n (readMapCountLoop (n + 1) st.text map)
      (readMapCountRound maxSize (st, map)) := by
  rw [readMapCountRound, readMapCountLoop]
  cases hstring : readStringFrom maxSize st [] with
  | none => trivial
  | some r =>
    obtain ⟨ok, token, st'⟩ := r
    obtain ⟨hread, hst'⟩ := readString_of_sound hst hstring
    simp only [hread, FStream.getUnsigned_of_sound hst', FStream.eof, FStream.fail]
    cases ok
    · simp [GoesOn]
    by_cases heof : st'.text.eof = true
    · simp [heof, GoesOn]
    by_cases hfail : (st'.text.getUnsigned (2 ^ 64)).2.fail = true
    · simp only [Bool.not_true, Bool.false_eq_true, if_false, eq_false_of_ne_true heof, hfail, if_true,
        GoesOn]
    · simp only [Bool.not_true, Bool.false_eq_true, if_false, eq_false_of_ne_true heof,
        eq_false_of_ne_true hfail, GoesOn, Sound, hst', true_and]

theorem readFileidMapLoop_succ (m : FileidMap) :
    GoesOn Sound (fun n s => readFileidMapLoop n s.1.text s.2) n (readFileidMapLoop (n + 1) st.text m)
      (readFileidMapRound maxSize (st, m)) := by
  rw [readFileidMapRound, readFileidMapLoop, FStream.getUnsigned_of_sound hst]
  generalize st.text.getUnsigned (2 ^ 64) = r
  obtain ⟨fileid, t⟩ := r
  by_cases heof : t.eof = true
  · simp [FStream.eof, heof, GoesOn]
  simp only [FStream.eof, eq_false_of_ne_true heof, Bool.false_eq_true, if_false]
  cases hstring : readStringFrom maxSize { st with text := t } [] with
  | none => trivial
  | some r =>
    obtain ⟨ok, v, st'⟩ := r
    obtain ⟨hread, hst'⟩ := readString_of_sound (by exact hst) hstring
    simp only at hread
    simp only [hread]
    by_cases hstop : st'.text.eof = true
    · cases ok <;> simp [GoesOn, hstop]
    · cases ok <;> simp [GoesOn, Sound, hstop, hst']

theorem readBlocksLoop_succ (i : ℕ) (A : List Bytes) :
    GoesOn Sound (fun n s => readBlocksLoop n s.2.1 s.1.text s.2.2) n
      (readBlocksLoop (n + 1) i st.text A) (readBlocksRound maxSize (st, i, A)) := by
  rw [readBlocksRound, readBlocksLoop]
  generalize (A ++ [[]]).getD i [] = s₀
  cases hstring : readStringFrom maxSize st s₀ with
  | none => trivial
  | some r =>
    obtain ⟨ok, s, st'⟩ := r
    obtain ⟨hread, hst'⟩ := readString_of_sound hst hstring
    simp only [hread, FStream.eof]
    by_cases hstop : st'.text.eof = true
    · cases ok <;> simp [GoesOn, hstop]
    · cases ok <;> simp [GoesOn, Sound, hstop, hst']

theorem readRevlistLoop_succ (m : Revlist) :
    GoesOn Sound (fun n s => (true, readRevlistLoop n s.1.text s.2)) n
      (true, readRevlistLoop (n + 1) st.text m) (readRevlistRound (st, m)) := by
  rw [readRevlistRound, readRevlistLoop, FStream.read_of_sound hst]
  by_cases heof : (st.text.read KEYLEN).2.eof = true
  · simp [FStream.eof, heof, GoesOn]
  · simp [FStream.eof, heof, GoesOn, Sound, hst]

end

/-! ### All loops -/

inductive Loader where | readMap | readMapCount | readRevlist | readFileidMap | readBlocks
  deriving DecidableEq

namespace Loader

/-- What a loop reads. -/
def Value : Loader → Type
  | readMap => Dmap
  | readMapCount => Dcountmap
  | readRevlist => Revlist
  | readFileidMap => FileidMap
  | readBlocks => List Bytes

/-- What a loop keeps besides the stream. -/
def Vars : Loader → Type
  | readBlocks => ℕ × List Bytes
  | readMap => Dmap
  | readMapCount => Dcountmap
  | readRevlist => Revlist
  | readFileidMap => FileidMap

def round (maxSize : ℕ) :
    (l : Loader) → FStream × l.Vars → Option (Bool × l.Value) ⊕ FStream × l.Vars
  | readMap => readMapRound maxSize
  | readMapCount => readMapCountRound maxSize
  | readRevlist => readRevlistRound
  | readFileidMap => readFileidMapRound maxSize
  | readBlocks => readBlocksRound maxSize

/-- The loop begins with the value `v` of the caller: `readRevlist` clears it, `readBlocks` counts from 0. -/
def start : (l : Loader) → l.Value → l.Vars
  | readMap, map => map
  | readMapCount, map => map
  | readRevlist, _ => (∅ : Revlist)
  | readFileidMap, m => m
  | readBlocks, A => (0, A)

/-- The reader, for a file without read errors. -/
def read (text : Bytes) : (l : Loader) → l.Value → Bool × l.Value
  | readMap, map => DSSE.readMap (some text) map
  | readMapCount, map => DSSE.readMapCount (some text) map
  | readRevlist, m => DSSE.readRevlist (some text) m
  | readFileidMap, m => DSSE.readFileidMap (some text) m
  | readBlocks, A => DSSE.readBlocks (some text) A

/-- The string of a round that begins at `st` is longer than a string can be. -/
def TooLong (maxSize : ℕ) (st : FStream) : Loader → Prop
  | readMap => (st.read KEYLEN).2.eof = false ∧ Oversized maxSize (st.read KEYLEN).2
  | readMapCount => Oversized maxSize st
  | readRevlist => False
  | readFileidMap =>
    (st.getUnsigned (2 ^ 64)).2.eof = false ∧ Oversized maxSize (st.getUnsigned (2 ^ 64)).2
  | readBlocks => Oversized maxSize st

theorem round_eq_none_iff (maxSize : ℕ) (l : Loader) (s : FStream × l.Vars) :
    l.round maxSize s = .inl none ↔ l.TooLong maxSize s.1 := by
  cases l with
  | readMap => exact readMapRound_eq_none_iff maxSize s.1 s.2
  | readMapCount => exact readMapCountRound_eq_none_iff maxSize s.1 s.2
  | readRevlist =>
    refine iff_of_false (fun h => ?_) id
    simp only [round, readRevlistRound] at h
    split at h <;> cases h
  | readFileidMap => exact readFileidMapRound_eq_none_iff maxSize s.1 s.2
  | readBlocks => exact readBlocksRound_eq_none_iff maxSize s.1 s.2.1 s.2.2

theorem length_rest_round_lt {maxSize : ℕ} {l : Loader} (hl : l ≠ readRevlist)
    {s s' : FStream × l.Vars} (h : l.round maxSize s = .inr s') :
    s'.1.text.rest.length < s.1.text.rest.length := by
  cases l with
  | readMap => exact length_rest_readMapRound_lt maxSize h
  | readMapCount => exact length_rest_readMapCountRound_lt maxSize h
  | readRevlist => exact absurd rfl hl
  | readFileidMap => exact length_rest_readFileidMapRound_lt maxSize h
  | readBlocks => exact length_rest_readBlocksRound_lt maxSize h

/-- A loop ends if it is not the one of `readRevlist`, and that one where there is no read error. -/
theorem ends_iff (maxSize : ℕ) (l : Loader) (text : Bytes) (broken : Bool) (t : l.Vars) :
    (loop (l.round maxSize) (.opened text broken, t)).Dom ↔ (l = readRevlist → broken = false) := by
  by_cases hl : l = readRevlist
  · subst hl
    constructor
    · intro hdom _
      refine Bool.eq_false_iff.mpr fun hbroken => ?_
      exact loop_not_dom_of_invariant (I := fun s : FStream × Revlist => s.1.broken = true)
        (fun _ hs => readRevlistRound_broken hs) hbroken hdom
    · intro hsound
      exact loop_dom_of_measure (fun s : FStream × Revlist => s.1.text.rest.length)
        (fun _ _ hs hround => readRevlistRound_sound hs hround) ⟨hsound rfl, rfl⟩
  · refine iff_of_true ?_ fun h => absurd h hl
    exact loop_dom_of_measure (I := fun _ => True) (fun s => s.1.text.rest.length)
      (fun _ _ _ hround => ⟨trivial, length_rest_round_lt hl hround⟩) trivial

/-- What a loop returns on a file without read errors is what the reader returns. -/
theorem read_of_loop {maxSize : ℕ} {text : Bytes} (l : Loader) {v : l.Value} {r : Bool × l.Value}
    (h : some r ∈ loop (l.round maxSize) (.opened text false, l.start v)) : l.read text v = r := by
  have hfuel : (FStream.opened text false).text.rest.length < text.length + 1 := Nat.lt_succ_self _
  cases l with
  | readMap =>
    exact eq_of_mem_loop (I := Sound) (fun n s => readMapLoop n s.1.text s.2)
      (fun s => s.1.text.rest.length) (fun n _ hs => readMapLoop_succ hs n _)
      (fun _ _ _ hround => length_rest_readMapRound_lt maxSize hround) h _ rfl hfuel
  | readMapCount =>
    exact eq_of_mem_loop (I := Sound) (fun n s => readMapCountLoop n s.1.text s.2)
      (fun s => s.1.text.rest.length) (fun n _ hs => readMapCountLoop_succ hs n _)
      (fun _ _ _ hround => length_rest_readMapCountRound_lt maxSize hround) h _ rfl hfuel
  | readRevlist =>
    refine eq_of_mem_loop (I := fun s => s.1.broken = false ∧ s.1.fail = false)
      (fun n s => (true, readRevlistLoop n s.1.text s.2)) (fun s => s.1.text.rest.length)
      (fun n s hs => ?_) (fun _ _ hs hround => (readRevlistRound_sound hs hround).2) h _ ⟨rfl, rfl⟩ hfuel
    have hgo := readRevlistLoop_succ hs.1 n s.2
    cases hround : readRevlistRound s with
    | inl r =>
      rw [hround] at hgo
      cases r with
      | none => trivial
      | some r => exact hgo
    | inr s' =>
      rw [hround] at hgo
      exact ⟨(readRevlistRound_sound hs hround).1, hgo.2⟩
  | readFileidMap =>
    exact eq_of_mem_loop (I := Sound) (fun n s => readFileidMapLoop n s.1.text s.2)
      (fun s => s.1.text.rest.length) (fun n _ hs => readFileidMapLoop_succ hs n _)
      (fun _ _ _ hround => length_rest_readFileidMapRound_lt maxSize hround) h _ rfl hfuel
  | readBlocks =>
    exact eq_of_mem_loop (I := Sound) (fun n s => readBlocksLoop n s.2.1 s.1.text s.2.2)
      (fun s => s.1.text.rest.length) (fun n _ hs => readBlocksLoop_succ hs n _ _)
      (fun _ _ _ hround => length_rest_readBlocksRound_lt maxSize hround) h _ rfl hfuel

/-- **A loop ends with true or false exactly if** it is not the one of `readRevlist` on a file with a read
    error, and no round meets the length of a string that is longer than `std::string` allows. -/
theorem returns_iff (maxSize : ℕ) (l : Loader) (text : Bytes) (broken : Bool) (v : l.Value) :
    (∃ r, some r ∈ loop (l.round maxSize) (.opened text broken, l.start v)) ↔
      (l = readRevlist → broken = false) ∧
      ∀ s, Reaches (l.round maxSize) (.opened text broken, l.start v) s → ¬ l.TooLong maxSize s.1 := by
  rw [← ends_iff maxSize l text broken (l.start v), Part.dom_iff_mem]
  constructor
  · rintro ⟨r, hr⟩
    refine ⟨⟨_, hr⟩, fun s hreach hlong => ?_⟩
    have hnone := mem_loop_iff.mpr ⟨s, hreach, (round_eq_none_iff maxSize l s).mpr hlong⟩
    cases Part.mem_unique hr hnone
  · rintro ⟨⟨_ | r, hr⟩, hshort⟩
    · obtain ⟨s, hreach, hnone⟩ := mem_loop_iff.mp hr
      exact absurd ((round_eq_none_iff maxSize l s).mp hnone) (hshort s hreach)
    · exact ⟨r, hr⟩

/-- The list of revocation ids cannot be read, and its loop does not end; a block array whose file begins
    with a length of 2^64 - 1 is an exception. -/
theorem not_all_return :
    ¬ (loop (readRevlist.round (2 ^ 63 - 1)) (.opened [] true, (∅ : Revlist))).Dom ∧
    none ∈ loop (readBlocks.round (2 ^ 63 - 1))
      (.opened (IStream.decimal (2 ^ 64 - 1) ++ [0x3a]) false, ((0, []) : ℕ × List Bytes)) :=
  ⟨fun h => absurd ((ends_iff _ _ _ _ _).mp h rfl) (by decide), loop_stop rfl⟩

end Loader

end DSSE
