import DSSE.Schemes.Ctr

/-! Messages as sequences of tagged fields. A tag is a field number over three bits of wire type. Numbers,
    tags and lengths are varints, strings and nested messages a length and that many bytes. A reader knows
    the tags of its fields and skips the others. A nested message whose length runs past the end of the
    message around it is read up to that end, so that some cut messages can be read. -/

namespace Schemes.Wire

/-! ### Varints -/

def writeVarintLoop : ℕ → ℕ → Bytes
  | 0, v => [UInt8.ofNat v]
  | n + 1, v =>
    if v < 128 then [UInt8.ofNat v]
    else UInt8.ofNat (v % 128 + 128) :: writeVarintLoop n (v / 128)

/-- Seven bits a byte, the lowest first; all bytes but the last have the high bit. -/
def writeVarint (v : UInt64) : Bytes := writeVarintLoop 9 v.toNat

def readVarintLoop : ℕ → Bytes → Option (ℕ × Bytes)
  | 0, _ => none
  | _ + 1, [] => none
  | n + 1, b :: bs =>
    if b.toNat < 128 then some (b.toNat, bs)
    else (readVarintLoop n bs).map fun (v, rest) => (b.toNat - 128 + 128 * v, rest)

/-- A varint of at most ten bytes; what goes beyond 64 bits is dropped. -/
def readVarint64 (bs : Bytes) : Option (UInt64 × Bytes) :=
  (readVarintLoop 10 bs).map fun (v, rest) => (UInt64.ofNat v, rest)

/-- The same, without the high 32 bits. -/
def readVarint32 (bs : Bytes) : Option (ℕ × Bytes) :=
  (readVarintLoop 10 bs).map fun (v, rest) => (v % 2 ^ 32, rest)

/-- A length that fits an `int`. -/
def readSize (bs : Bytes) : Option (ℕ × Bytes) := do
  let (v, rest) ← readVarint64 bs
  if v.toNat < 2 ^ 31 then some (v.toNat, rest) else none

/-! ### Fields -/

/-- A length and that many bytes. -/
def readBytes (bs : Bytes) : Option (Bytes × Bytes) := do
  let (size, rest) ← readVarint32 bs
  if size < 2 ^ 31 ∧ size ≤ rest.length then some (rest.take size, rest.drop size) else none

/-- A length and that many bytes, or all bytes up to the end if there are fewer. -/
def readNested (bs : Bytes) : Option (Bytes × Bytes) := do
  let (size, rest) ← readSize bs
  return (rest.take size, rest.drop size)

def skipBytes (n : ℕ) (bs : Bytes) : Option Bytes := if n ≤ bs.length then some (bs.drop n) else none

/-- What stands behind a field that the reader does not know; `group` does the same for the rest of a
    group. -/
def skipField (group : ℕ → Bytes → Option Bytes) (tag : ℕ) (bs : Bytes) : Option Bytes :=
  if tag / 8 = 0 then none
  else match tag % 8 with
    | 0 => (readVarint64 bs).map Prod.snd
    | 1 => skipBytes 8 bs
    | 2 => (readBytes bs).map Prod.snd
    | 3 => group (tag / 8) bs
    | 5 => skipBytes 4 bs
    | _ => none

/-- What stands behind the end of a group: a tag with its number. Groups nest to `depth` at most. -/
def skipGroup : ℕ → ℕ → ℕ → Bytes → Option Bytes
  | 0, _, _, _ => none
  | fuel + 1, depth, number, bs =>
    match readVarint32 bs with
    | none => none
    | some (tag, bs) =>
      if tag = 0 then none
      else if tag % 8 = 4 then if tag / 8 = number then some bs else none
      else
        let inner number bs := match depth with
          | 0 => none
          | depth + 1 => skipGroup fuel depth number bs
        (skipField inner tag bs).bind fun bs => skipGroup fuel depth number bs

def skip (depth tag : ℕ) (bs : Bytes) : Option Bytes :=
  skipField (fun number bs => match depth with
    | 0 => none
    | depth + 1 => skipGroup (bs.length + 1) depth number bs) tag bs

/-- How a reader takes what stands behind a tag that it knows. -/
inductive Kind where | number | bytes | message
  deriving DecidableEq

inductive Value where
  | number (v : UInt64)
  | bytes (b : Bytes)
  deriving DecidableEq

/-- A tag and what stands behind it. -/
abbrev Field := ℕ × Value

/-- The tags that a reader knows. -/
abbrev Reader := ℕ → Option Kind

/-- The field at the start, if the reader knows it, and what stands behind it. A tag 0 is none. -/
def next (reader : Reader) (depth : ℕ) (bs : Bytes) : Option (List Field × Bytes) := do
  let (tag, bs) ← readVarint32 bs
  if tag = 0 then none
  else match reader tag with
    | some .number => (readVarint64 bs).map fun (v, bs) => ([(tag, .number v)], bs)
    | some .bytes => (readBytes bs).map fun (b, bs) => ([(tag, .bytes b)], bs)
    | some .message => (readNested bs).map fun (b, bs) => ([(tag, .bytes b)], bs)
    | none => (skip depth tag bs).map fun bs => ([], bs)

def fieldsLoop (reader : Reader) (depth : ℕ) : ℕ → Bytes → Option (List Field)
  | _, [] => some []
  | 0, _ => none
  | fuel + 1, bs => do
    let (f, bs) ← next reader depth bs
    let fs ← fieldsLoop reader depth fuel bs
    return f ++ fs

/-- The fields of a message that the reader knows. -/
def fields (reader : Reader) (depth : ℕ) (bs : Bytes) : Option (List Field) :=
  fieldsLoop reader depth bs.length bs

def Value.write : Value → Bytes
  | .number v => writeVarint v
  | .bytes b => writeVarint (UInt64.ofNat b.length) ++ b

def writeField (f : Field) : Bytes := writeVarint (UInt64.ofNat f.1) ++ f.2.write

def write (fs : List Field) : Bytes := fs.flatMap writeField

/-- A value as the reader takes it. -/
def Kind.Takes : Kind → Value → Prop
  | .number, .number _ => True
  | .bytes, .bytes b | .message, .bytes b => b.length < 2 ^ 31
  | _, _ => False

/-- The reader knows the field. -/
def Reader.Knows (reader : Reader) (f : Field) : Prop :=
  f.1 ≠ 0 ∧ f.1 < 2 ^ 32 ∧ ∃ kind, reader f.1 = some kind ∧ kind.Takes f.2

/-- The reader knows the tag, and the field has a value of its kind. -/
def Reader.Has (reader : Reader) (f : Field) : Prop :=
  f.1 ≠ 0 ∧ f.1 < 2 ^ 32 ∧ match reader f.1, f.2 with
    | some .number, .number _ | some .bytes, .bytes _ | some .message, .bytes _ => True
    | _, _ => False

/-! ### Writing and reading varints -/

theorem readVarintLoop_writeVarintLoop (rest : Bytes) : ∀ (n v : ℕ), v < 128 ^ (n + 1) →
    readVarintLoop (n + 1) (writeVarintLoop n v ++ rest) = some (v, rest)
  | 0, v, h => by
    have hv : v < 128 := by simpa using h
    simp [writeVarintLoop, readVarintLoop, UInt8.toNat_ofNat_of_lt' (hv.trans (by norm_num)), hv]
  | n + 1, v, h => by
    rw [writeVarintLoop]
    split
    · rename_i hv
      simp [readVarintLoop, UInt8.toNat_ofNat_of_lt' (hv.trans (by norm_num)), hv]
    · have hbyte : (UInt8.ofNat (v % 128 + 128)).toNat = v % 128 + 128 :=
        UInt8.toNat_ofNat_of_lt' (show _ < 2 ^ 8 by omega)
      have hdiv : v / 128 < 128 ^ (n + 1) := by
        rw [Nat.div_lt_iff_lt_mul (by norm_num), ← Nat.pow_succ]
        exact h
      have ih := readVarintLoop_writeVarintLoop rest n (v / 128) hdiv
      rw [List.cons_append, readVarintLoop, hbyte, if_neg (by omega), ih]
      simp only [Option.map_some, Option.some.injEq, Prod.mk.injEq, and_true]
      omega

theorem readVarintLoop_writeVarint (v : UInt64) (rest : Bytes) :
    readVarintLoop 10 (writeVarint v ++ rest) = some (v.toNat, rest) :=
  readVarintLoop_writeVarintLoop rest 9 v.toNat (v.toNat_lt.trans (by norm_num))

@[simp] theorem readVarint64_writeVarint (v : UInt64) (rest : Bytes) :
    readVarint64 (writeVarint v ++ rest) = some (v, rest) := by
  rw [readVarint64, readVarintLoop_writeVarint]
  simp

theorem readVarint32_writeVarint {v : ℕ} (h : v < 2 ^ 32) (rest : Bytes) :
    readVarint32 (writeVarint (UInt64.ofNat v) ++ rest) = some (v, rest) := by
  have hv : (UInt64.ofNat v).toNat = v := UInt64.toNat_ofNat_of_lt' (h.trans (by norm_num))
  rw [readVarint32, readVarintLoop_writeVarint, hv]
  simp only [Option.map_some, Nat.mod_eq_of_lt h]

theorem readSize_writeVarint {v : ℕ} (h : v < 2 ^ 31) (rest : Bytes) :
    readSize (writeVarint (UInt64.ofNat v) ++ rest) = some (v, rest) := by
  have hv : (UInt64.ofNat v).toNat = v := UInt64.toNat_ofNat_of_lt' (h.trans (by norm_num))
  rw [readSize, readVarint64_writeVarint]
  simp only [Option.bind_eq_bind, Option.bind_some, hv, if_pos h]

theorem length_readVarintLoop_lt : ∀ {n : ℕ} {bs rest : Bytes} {v : ℕ},
    readVarintLoop n bs = some (v, rest) → rest.length < bs.length
  | 0, _, _, _, h => by cases h
  | _ + 1, [], _, _, h => by cases h
  | n + 1, b :: bs, rest, v, h => by
    rw [readVarintLoop] at h
    split at h
    · cases h
      exact Nat.lt_succ_self _
    · obtain ⟨⟨v', rest'⟩, hread, heq⟩ := Option.map_eq_some_iff.mp h
      cases heq
      exact (length_readVarintLoop_lt hread).trans (Nat.lt_succ_self _)

theorem length_readVarint64_lt {bs rest : Bytes} {v : UInt64}
    (h : readVarint64 bs = some (v, rest)) : rest.length < bs.length := by
  obtain ⟨⟨v', rest'⟩, hread, heq⟩ := Option.map_eq_some_iff.mp h
  cases heq
  exact length_readVarintLoop_lt hread

theorem length_readVarint32_lt {bs rest : Bytes} {v : ℕ}
    (h : readVarint32 bs = some (v, rest)) : rest.length < bs.length := by
  obtain ⟨⟨v', rest'⟩, hread, heq⟩ := Option.map_eq_some_iff.mp h
  cases heq
  exact length_readVarintLoop_lt hread

/-! ### Every field takes bytes -/

theorem length_readBytes_lt {bs b rest : Bytes} (h : readBytes bs = some (b, rest)) :
    rest.length < bs.length := by
  obtain ⟨⟨size, rest'⟩, hread, h⟩ := Option.bind_eq_some_iff.mp h
  have hlt := length_readVarint32_lt hread
  simp only at h
  split at h
  · cases h
    rw [List.length_drop]
    omega
  · cases h

theorem length_readNested_lt {bs b rest : Bytes} (h : readNested bs = some (b, rest)) :
    rest.length < bs.length := by
  obtain ⟨⟨size, rest'⟩, hread, h⟩ := Option.bind_eq_some_iff.mp h
  obtain ⟨⟨v, rest''⟩, hvarint, hsize⟩ := Option.bind_eq_some_iff.mp hread
  have hlt := length_readVarint64_lt hvarint
  cases h
  simp only at hsize
  split at hsize
  · cases hsize
    rw [List.length_drop]
    omega
  · cases hsize

theorem length_skipBytes_le {n : ℕ} {bs rest : Bytes} (h : skipBytes n bs = some rest) :
    rest.length ≤ bs.length := by
  rw [skipBytes] at h
  split at h
  · cases h
    rw [List.length_drop]
    omega
  · cases h

theorem length_skipField_le {group : ℕ → Bytes → Option Bytes} {tag : ℕ} {bs rest : Bytes}
    (hgroup : ∀ number bs rest, group number bs = some rest → rest.length ≤ bs.length)
    (h : skipField group tag bs = some rest) : rest.length ≤ bs.length := by
  rw [skipField] at h
  split at h
  · cases h
  · split at h
    · obtain ⟨⟨v, rest'⟩, hread, rfl⟩ := Option.map_eq_some_iff.mp h
      exact (length_readVarint64_lt hread).le
    · exact length_skipBytes_le h
    · obtain ⟨⟨b, rest'⟩, hread, rfl⟩ := Option.map_eq_some_iff.mp h
      exact (length_readBytes_lt hread).le
    · exact hgroup _ _ _ h
    · exact length_skipBytes_le h
    · cases h

theorem length_skipGroup_le : ∀ {fuel depth number : ℕ} {bs rest : Bytes},
    skipGroup fuel depth number bs = some rest → rest.length ≤ bs.length := by
  intro fuel
  induction fuel with
  | zero => rintro depth number bs rest ⟨⟩
  | succ fuel ih =>
    intro depth number bs rest h
    rw [skipGroup] at h
    cases htag : readVarint32 bs with
    | none => rw [htag] at h; cases h
    | some r =>
      obtain ⟨tag, bs'⟩ := r
      have hlt := length_readVarint32_lt htag
      rw [htag] at h
      simp only at h
      split_ifs at h with h0 hend hnumber
      · cases h
        exact hlt.le
      · obtain ⟨rest', hskip, h⟩ := Option.bind_eq_some_iff.mp h
        have hfield := length_skipField_le (fun number bs rest hg => by
          cases depth with
          | zero => cases hg
          | succ depth => exact ih hg) hskip
        have hrest := ih h
        omega

theorem length_next_lt {reader : Reader} {depth : ℕ} {bs rest : Bytes} {f : List Field}
    (h : next reader depth bs = some (f, rest)) : rest.length < bs.length := by
  obtain ⟨⟨tag, bs'⟩, htag, h⟩ := Option.bind_eq_some_iff.mp h
  have hlt := length_readVarint32_lt htag
  simp only at h
  split at h
  · cases h
  · split at h
    · obtain ⟨⟨v, rest'⟩, hread, heq⟩ := Option.map_eq_some_iff.mp h
      cases heq
      exact (length_readVarint64_lt hread).trans hlt
    · obtain ⟨⟨b, rest'⟩, hread, heq⟩ := Option.map_eq_some_iff.mp h
      cases heq
      exact (length_readBytes_lt hread).trans hlt
    · obtain ⟨⟨b, rest'⟩, hread, heq⟩ := Option.map_eq_some_iff.mp h
      cases heq
      exact (length_readNested_lt hread).trans hlt
    · obtain ⟨rest', hskip, heq⟩ := Option.map_eq_some_iff.mp h
      cases heq
      refine (length_skipField_le (fun number bs rest hg => ?_) hskip).trans_lt hlt
      cases depth with
      | zero => cases hg
      | succ depth => exact length_skipGroup_le hg

section
variable {reader : Reader} {depth : ℕ}

theorem fieldsLoop_cons (fuel : ℕ) (b : UInt8) (bs : Bytes) :
    fieldsLoop reader depth (fuel + 1) (b :: bs) = (next reader depth (b :: bs)).bind fun r =>
      (fieldsLoop reader depth fuel r.2).map (r.1 ++ ·) := by
  rw [fieldsLoop]
  · cases next reader depth (b :: bs) with
    | none => rfl
    | some r => cases hr : fieldsLoop reader depth fuel r.2 <;> simp [hr]
  · exact List.cons_ne_nil _ _

/-- As many rounds as there are bytes are enough. -/
theorem fieldsLoop_fuel : ∀ {fuel : ℕ} {bs : Bytes}, bs.length ≤ fuel →
    fieldsLoop reader depth fuel bs = fields reader depth bs := by
  intro fuel
  induction fuel using Nat.strong_induction_on with
  | _ fuel ih =>
    intro bs h
    cases bs with
    | nil => cases fuel <;> rfl
    | cons b bs =>
      cases fuel with
      | zero => simp at h
      | succ fuel =>
        rw [fields, List.length_cons, fieldsLoop_cons, fieldsLoop_cons]
        cases hnext : next reader depth (b :: bs) with
        | none => rfl
        | some r =>
          obtain ⟨f, rest⟩ := r
          have hlt := length_next_lt hnext
          rw [List.length_cons] at h hlt
          simp only [Option.bind_some]
          rw [ih fuel (Nat.lt_succ_self _) (by omega), ih bs.length (by omega) (by omega)]

@[simp] theorem fields_nil : fields reader depth [] = some [] := rfl

/-- One field and then the others. -/
theorem fields_of_next {bs rest : Bytes} {f : List Field} (h : next reader depth bs = some (f, rest)) :
    fields reader depth bs = (fields reader depth rest).map (f ++ ·) := by
  cases bs with
  | nil => cases h
  | cons b bs =>
    have hlt := length_next_lt h
    rw [List.length_cons] at hlt
    rw [fields, List.length_cons, fieldsLoop_cons, h]
    simp only [Option.bind_some]
    rw [fieldsLoop_fuel (by omega)]

/-! ### Reading what was written -/

theorem readBytes_write {b : Bytes} (h : b.length < 2 ^ 31) (rest : Bytes) :
    readBytes (Value.write (.bytes b) ++ rest) = some (b, rest) := by
  have h32 : b.length < 2 ^ 32 := h.trans (by norm_num)
  rw [Value.write, List.append_assoc, readBytes, readVarint32_writeVarint h32]
  simp only [Option.bind_eq_bind, Option.bind_some]
  rw [if_pos ⟨h, by simp⟩, List.take_left' rfl, List.drop_left' rfl]

theorem readNested_write {b : Bytes} (h : b.length < 2 ^ 31) (rest : Bytes) :
    readNested (Value.write (.bytes b) ++ rest) = some (b, rest) := by
  rw [Value.write, List.append_assoc, readNested, readSize_writeVarint h]
  simp

theorem next_writeField {f : Field} (h : reader.Knows f) (rest : Bytes) :
    next reader depth (writeField f ++ rest) = some ([f], rest) := by
  obtain ⟨tag, value⟩ := f
  obtain ⟨hne, hlt, kind, hkind, htakes⟩ := h
  simp only at hne hlt hkind htakes
  rw [writeField, List.append_assoc, next, readVarint32_writeVarint hlt]
  simp only [Option.bind_eq_bind, Option.bind_some, if_neg hne, hkind]
  cases kind with
  | number =>
    cases value with
    | number v => simp [Value.write]
    | bytes b => exact htakes.elim
  | bytes =>
    cases value with
    | number v => exact htakes.elim
    | bytes b => rw [readBytes_write htakes]; rfl
  | message =>
    cases value with
    | number v => exact htakes.elim
    | bytes b => rw [readNested_write htakes]; rfl

/-- Fields that were written are read again, whatever stands behind them. -/
theorem fields_append : ∀ {fs : List Field}, (∀ f ∈ fs, reader.Knows f) → ∀ bs : Bytes,
    fields reader depth (write fs ++ bs) = (fields reader depth bs).map (fs ++ ·)
  | [], _, bs => by simp [write]
  | f :: fs, h, bs => by
    have hf := h f List.mem_cons_self
    rw [write, List.flatMap_cons, List.append_assoc, fields_of_next (next_writeField hf _)]
    have ih := fields_append (fun g hg => h g (List.mem_cons_of_mem _ hg)) bs
    rw [write] at ih
    rw [ih, Option.map_map]
    rfl

theorem fields_write {fs : List Field} (h : ∀ f ∈ fs, reader.Knows f) :
    fields reader depth (write fs) = some fs := by
  have hnil : fields reader depth (write fs ++ []) = (fields reader depth []).map (fs ++ ·) :=
    fields_append h []
  simpa using hnil

theorem length_le_of_mem {fs : List Field} {tag : ℕ} {b : Bytes} (h : (tag, .bytes b) ∈ fs) :
    b.length ≤ (write fs).length := by
  obtain ⟨pre, post, rfl⟩ := List.append_of_mem h
  simp only [write, List.flatMap_append, List.flatMap_cons, writeField, Value.write, List.length_append]
  omega

/-- A message that is not too long is read as it was written. -/
theorem fields_of_has {fs : List Field} (h : ∀ f ∈ fs, reader.Has f) (hsmall : (write fs).length < 2 ^ 31) :
    fields reader depth (write fs) = some fs := by
  refine fields_write fun f hf => ?_
  obtain ⟨hne, hlt, hkind⟩ := h f hf
  refine ⟨hne, hlt, ?_⟩
  obtain ⟨tag, value⟩ := f
  simp only at hkind ⊢
  cases hr : reader tag with
  | none => simp [hr] at hkind
  | some kind =>
    refine ⟨kind, rfl, ?_⟩
    rw [hr] at hkind
    cases value with
    | number v => cases kind <;> trivial
    | bytes b =>
      have hb := length_le_of_mem hf
      cases kind with
      | number => exact hkind.elim
      | bytes | message => exact hb.trans_lt hsmall

/-! ### Lengths -/

theorem length_writeVarintLoop_le : ∀ n v : ℕ, (writeVarintLoop n v).length ≤ n + 1
  | 0, _ => le_rfl
  | n + 1, v => by
    have ih := length_writeVarintLoop_le n (v / 128)
    rw [writeVarintLoop]
    split
    · simp
    · rw [List.length_cons]
      omega

theorem length_writeVarint_le (v : UInt64) : (writeVarint v).length ≤ 10 :=
  length_writeVarintLoop_le 9 v.toNat

/-- A varint below 128 is one byte. -/
theorem length_writeVarint_of_lt {v : ℕ} (h : v < 128) : (writeVarint (UInt64.ofNat v)).length = 1 := by
  have hv : (UInt64.ofNat v).toNat = v := UInt64.toNat_ofNat_of_lt' (h.trans (by norm_num))
  rw [writeVarint, hv, writeVarintLoop, if_pos h]
  rfl

@[simp] theorem write_nil : write [] = [] := rfl

@[simp] theorem write_cons (f : Field) (fs : List Field) : write (f :: fs) = writeField f ++ write fs :=
  List.flatMap_cons

@[simp] theorem write_append (fs gs : List Field) : write (fs ++ gs) = write fs ++ write gs :=
  List.flatMap_append

end

end Schemes.Wire
