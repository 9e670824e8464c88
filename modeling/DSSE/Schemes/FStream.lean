import DSSE.Schemes.IStream

/-! Input from a file that may have a read error at its end: where an operation comes to the end of the
    text it finds the end of the file, or an error. An error sets `badbit` and never `eofbit`, and no later
    operation takes anything from the stream. -/

namespace Schemes

/-- An open input stream. `text.fail` is what `in.fail()` reports, of `failbit` or of `badbit`; behind the
    text there is an error if the file is `broken`. -/
structure FStream where
  text : IStream
  bad : Bool
  broken : Bool
  deriving DecidableEq

namespace FStream

/-- A file just opened. -/
def opened (text : List UInt8) (broken : Bool) : FStream := ⟨.ofBytes text, false, broken⟩

def eof (s : FStream) : Bool := s.text.eof

/-- `!in`. -/
def fail (s : FStream) : Bool := s.text.fail

/-- The stream behind an operation that leaves the text `t`. -/
def settle (s : FStream) (t : IStream) : FStream :=
  if s.broken && t.eof then { s with text := ⟨t.rest, false, true⟩, bad := true } else { s with text := t }

/-- `in.read(&buf[0], n)` with a buffer of `n` zeros: what the buffer holds then. -/
def read (s : FStream) (n : ℕ) : List UInt8 × FStream :=
  let (buf, t) := s.text.read n
  (buf, s.settle t)

/-- `in >> c`; without a value `c` stays as it was. -/
def getChar (s : FStream) : Option UInt8 × FStream :=
  let (c, t) := s.text.getChar
  (c, s.settle t)

/-- `in >> v` for an unsigned integer below `limit`; digits in front of an error give no value. -/
def getUnsigned (limit : ℕ) (s : FStream) : Option ℕ × FStream :=
  let (v, t) := s.text.getUnsigned limit
  (if s.broken && t.eof then none else v, s.settle t)

/-! ### What is left of the text -/

theorem rest_settle (s : FStream) (t : IStream) : (s.settle t).text.rest = t.rest := by
  rw [settle]
  split <;> rfl

theorem eof_settle (s : FStream) (t : IStream) : (s.settle t).eof = (!s.broken && t.eof) := by
  rw [settle]
  split
  · rename_i h
    rw [Bool.and_eq_true] at h
    rw [h.1]
    rfl
  · rename_i h
    cases hb : s.broken
    · rfl
    · simpa [hb, eof] using h

theorem broken_settle (s : FStream) (t : IStream) : (s.settle t).broken = s.broken := by
  rw [settle]
  split <;> rfl

theorem fail_settle_of_fail (s : FStream) {t : IStream} (h : t.fail = true) :
    (s.settle t).fail = true := by
  rw [settle]
  split
  · rfl
  · exact h

/-- Without read errors the stream behaves as its text. -/
theorem settle_of_sound {s : FStream} (h : s.broken = false) (t : IStream) :
    s.settle t = { s with text := t } := by
  rw [settle, h]
  rfl

end FStream

namespace IStream

theorem length_rest_read_le (s : IStream) (n : ℕ) : (s.read n).2.rest.length ≤ s.rest.length := by
  rw [read]
  split
  · exact (List.drop_suffix n s.rest).length_le
  · exact le_rfl

theorem length_rest_sentry_le (s : IStream) : s.sentry.rest.length ≤ s.rest.length := by
  rw [sentry]
  split
  · have hdrop := (List.dropWhile_suffix isSpace (l := s.rest)).length_le
    split
    · exact Nat.zero_le _
    · exact hdrop
  · exact le_rfl

theorem length_rest_getUnsigned_le (s : IStream) (limit : ℕ) :
    (s.getUnsigned limit).2.rest.length ≤ s.rest.length := by
  have hnumber : ∀ text : List UInt8, (number text).2.2.rest.length ≤ text.length := by
    intro text
    have hsign : (sign text).2.length ≤ text.length := by
      unfold sign
      split <;> simp
    exact ((List.dropWhile_suffix isDigit).length_le).trans hsign
  have hle := (hnumber s.sentry.rest).trans s.length_rest_sentry_le
  rw [getUnsigned]
  split
  · simp only
    split <;> exact hle
  · exact s.length_rest_sentry_le

/-- A character that is extracted is taken from the text. -/
theorem length_rest_getChar_lt {s : IStream} (h : s.getChar.2.fail = false) :
    s.getChar.2.rest.length < s.rest.length := by
  have hle := s.length_rest_sentry_le
  unfold getChar at h ⊢
  split
  · rename_i c rest hsentry
    rw [hsentry] at hle
    exact hle
  · rename_i t hsentry
    split at h
    · rename_i c rest hsentry'
      exact absurd hsentry' (hsentry c rest)
    · -- a sentry that does not fail stops at a character
      exfalso
      rw [sentry] at h hsentry
      split at h
      · rename_i hgood
        rw [if_pos hgood] at hsentry
        split at h
        · cases h
        · rename_i rest hne
          cases hrest : s.rest.dropWhile isSpace with
          | nil => exact hne hrest
          | cons c rest =>
            simp only [hrest] at hsentry
            exact hsentry c rest rfl
      · cases h

end IStream

namespace FStream

variable (s : FStream)

theorem length_rest_read_le (n : ℕ) : (s.read n).2.text.rest.length ≤ s.text.rest.length := by
  rw [read, rest_settle]
  exact s.text.length_rest_read_le n

theorem length_rest_getUnsigned_le (limit : ℕ) :
    (s.getUnsigned limit).2.text.rest.length ≤ s.text.rest.length := by
  rw [getUnsigned, rest_settle]
  exact s.text.length_rest_getUnsigned_le limit

theorem length_rest_getChar_lt {s : FStream} (h : s.getChar.2.fail = false) :
    s.getChar.2.text.rest.length < s.text.rest.length := by
  rw [getChar, rest_settle]
  refine IStream.length_rest_getChar_lt (Bool.eq_false_iff.mpr fun hfail => ?_)
  exact absurd ((fail_settle_of_fail s hfail).symm.trans h) Bool.true_eq_false.mp

/-! ### Files without read errors -/

variable {s}

theorem read_of_sound (h : s.broken = false) (n : ℕ) :
    s.read n = ((s.text.read n).1, { s with text := (s.text.read n).2 }) :=
  Prod.ext rfl (settle_of_sound h _)

theorem getChar_of_sound (h : s.broken = false) :
    s.getChar = (s.text.getChar.1, { s with text := s.text.getChar.2 }) :=
  Prod.ext rfl (settle_of_sound h _)

theorem getUnsigned_of_sound (h : s.broken = false) (limit : ℕ) :
    s.getUnsigned limit =
      ((s.text.getUnsigned limit).1, { s with text := (s.text.getUnsigned limit).2 }) :=
  Prod.ext (by simp [getUnsigned, h]) (settle_of_sound h _)

end FStream

end Schemes
