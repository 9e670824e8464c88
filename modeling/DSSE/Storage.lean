import DSSE.Core
import DSSE.Schemes.IStream

/-! `storage.cpp`, the part of the server: the five files of a save directory, how they are written and
    how they are read back. Writing never fails here; reading fails where a file is missing or does not
    parse. A loop that reads to the end of a file takes at least one character a round, so the length
    of the file is fuel enough. -/

namespace DSSE
open Schemes Std

/-! ### Strings -/

/-- A string in netstring format. -/
def writeString (s : Bytes) : Bytes := IStream.decimal s.length ++ 0x3a :: (s ++ [0x2c])

/-- The result of `readString`, the string, and the stream behind it. At the end of the file the string
    is empty and the result true. -/
def readString (st : IStream) (s : Bytes) : Bool × Bytes × IStream :=
  let (size, st) := st.getUnsigned (2 ^ 64)
  if st.eof then (true, [], st)
  else if st.fail then (false, s, st)
  else
    let (c0, st) := st.getChar
    if st.fail then (false, s, st)
    else
      let (s, st) := st.read (size.getD 0)
      let (c1, st) := st.getChar
      if st.fail then (false, s, st)
      else if c0 ≠ some 0x3a ∨ c1 ≠ some 0x2c then (false, s, st)
      else (true, s, st)

/-! ### Files -/

/-- Entries with a key of another length are left out. -/
def writeMap (map : Dmap) : Bytes :=
  map.toList.flatMap fun (k, v) => if k.length = KEYLEN then k ++ writeString v else []

def readMapLoop : ℕ → IStream → Dmap → Bool × Dmap
  | 0, _, map => (false, map)
  | fuel + 1, st, map =>
    let (k, st) := st.read KEYLEN
    if st.eof then (true, map)
    else
      let (ok, v, st) := readString st []
      if !ok || st.eof then (false, map)
      else readMapLoop fuel st (map.insert k v)

def readMap (file : Option Bytes) (map : Dmap) : Bool × Dmap :=
  match file with
  | none => (false, map)
  | some text => readMapLoop (text.length + 1) (.ofBytes text) map

/-- Entries of another length are left out. -/
def writeRevlist (m : Revlist) : Bytes :=
  m.toList.flatMap fun v => if v.length = KEYLEN then v else []

def readRevlistLoop : ℕ → IStream → Revlist → Revlist
  | 0, _, m => m
  | fuel + 1, st, m =>
    let (v, st) := st.read KEYLEN
    if st.eof then m else readRevlistLoop fuel st (m.insert v)

def readRevlist (file : Option Bytes) (m : Revlist) : Bool × Revlist :=
  match file with
  | none => (false, m)
  | some text => (true, readRevlistLoop (text.length + 1) (.ofBytes text) ∅)

def writeInt (value : ℤ) : Bytes := IStream.decimalInt value

def readInt (file : Option Bytes) (value : ℤ) : Bool × ℤ :=
  match file with
  | none => (false, value)
  | some text =>
    let (v, st) := (IStream.ofBytes text).getSigned (2 ^ 31)
    (!st.fail, v.getD value)

def writeBlocks (A : List Bytes) : Bytes := A.flatMap writeString

/-- Round `i`: a new string at the end of `A`, and what is read goes to `A[i]`. The round that meets the
    end of the file leaves its string in `A`. -/
def readBlocksLoop : ℕ → ℕ → IStream → List Bytes → Bool × List Bytes
  | 0, _, _, A => (false, A)
  | fuel + 1, i, st, A =>
    let A := A ++ [[]]
    let (ok, s, st) := readString st (A.getD i [])
    let A := A.set i s
    if !ok then (false, A)
    else if st.eof then (true, A)
    else readBlocksLoop fuel (i + 1) st A

def readBlocks (file : Option Bytes) (A : List Bytes) : Bool × List Bytes :=
  match file with
  | none => (false, A)
  | some text => readBlocksLoop (text.length + 1) 0 (.ofBytes text) A

/-! ### The save directory -/

/-- The files of a server's save directory. -/
inductive File where | version | D | A | Dplus | Srev
  deriving DecidableEq

/-- What the files hold, if they exist. -/
abbrev Dir := File → Option Bytes

def Dir.write (dir : Dir) (w : File × Bytes) : Dir := Function.update dir w.1 (some w.2)

/-- The file writes of `SaveServerToStorage`, in order: `D` and `A` only after a Setup. -/
def saveWrites (core : Core) : List (File × Bytes) :=
  (.version, writeInt core.version) ::
    ((if core.dirtyD then [(.D, writeMap core.D), (.A, writeBlocks core.A)] else []) ++
      [(.Dplus, writeMap core.Dplus), (.Srev, writeRevlist core.Srev)])

/-- `SaveServerToStorage`. -/
def saveServer (core : Core) (dir : Dir) : Core × Dir :=
  ({ core with dirtyD := false }, (saveWrites core).foldl Dir.write dir)

/-- `LoadServerFromStorage`: what was read before a failure stays. -/
def loadServer (core : Core) (dir : Dir) : Bool × Core :=
  let (ok, version) := readInt (dir .version) core.version
  let core := { core with version := version }
  if !ok then (false, core)
  else
    let (ok, D) := readMap (dir .D) core.D
    let core := { core with D := D }
    if !ok then (false, core)
    else
      let (ok, Dplus) := readMap (dir .Dplus) core.Dplus
      let core := { core with Dplus := Dplus }
      if !ok then (false, core)
      else
        let (ok, Srev) := readRevlist (dir .Srev) core.Srev
        let core := { core with Srev := Srev }
        if !ok then (false, core)
        else
          let (ok, A) := readBlocks (dir .A) core.A
          (ok, { core with A := A })

/-- Each file is read where all before it could be read. -/
theorem loadServer_eq (core : Core) (dir : Dir) :
    let version := readInt (dir .version) core.version
    let D := readMap (dir .D) core.D
    let Dplus := readMap (dir .Dplus) core.Dplus
    let Srev := readRevlist (dir .Srev) core.Srev
    let A := readBlocks (dir .A) core.A
    loadServer core dir = (version.1 && D.1 && Dplus.1 && Srev.1 && A.1, { core with
      version := version.2
      D := if version.1 then D.2 else core.D
      Dplus := if version.1 && D.1 then Dplus.2 else core.Dplus
      Srev := if version.1 && D.1 && Dplus.1 then Srev.2 else core.Srev
      A := if version.1 && D.1 && Dplus.1 && Srev.1 then A.2 else core.A }) := by
  rw [loadServer]
  simp only
  rcases readInt (dir .version) core.version with ⟨⟨⟩, version⟩
  · rfl
  rcases readMap (dir .D) core.D with ⟨⟨⟩, D⟩
  · rfl
  rcases readMap (dir .Dplus) core.Dplus with ⟨⟨⟩, Dplus⟩
  · rfl
  rcases readRevlist (dir .Srev) core.Srev with ⟨⟨⟩, Srev⟩
  · rfl
  · rfl

/-! ### Reading what was written -/

theorem readString_writeString {s : Bytes} (hs : s.length < 2 ^ 64) (rest s₀ : Bytes) :
    readString (.ofBytes (writeString s ++ rest)) s₀ = (true, s, .ofBytes rest) := by
  have hcolon : ∀ c ∈ (0x3a :: (s ++ 0x2c :: rest)).head?, IStream.isDigit c = false := by
    intro c hc
    rw [← Option.some.inj hc]; rfl
  have hsize := IStream.getUnsigned_decimal hs hcolon
  have htext : writeString s ++ rest = IStream.decimal s.length ++ 0x3a :: (s ++ 0x2c :: rest) := by
    simp [writeString]
  have hc0 : (IStream.ofBytes (0x3a :: (s ++ 0x2c :: rest))).getChar =
      (some 0x3a, .ofBytes (s ++ 0x2c :: rest)) := IStream.getChar_ofBytes (by decide)
  have hbuf := IStream.read_append s (0x2c :: rest)
  have hc1 : (IStream.ofBytes (0x2c :: rest)).getChar = (some 0x2c, .ofBytes rest) :=
    IStream.getChar_ofBytes (by decide)
  rw [readString, htext, hsize]
  simp only [List.isEmpty_cons, Bool.false_eq_true, if_false, Option.getD_some]
  rw [IStream.ofBytes] at hc0
  simp only [hc0, hbuf, hc1]
  simp

theorem readString_nil (s₀ : Bytes) : readString (.ofBytes []) s₀ = (true, [], ⟨[], true, true⟩) := rfl

/-- An entry that a map file can hold. -/
def Entry (p : Bytes × Bytes) : Prop := p.1.length = KEYLEN ∧ p.2.length < 2 ^ 64

/-- Pieces of at least one character are no more than the characters. -/
theorem length_le_length_flatMap {α : Type*} {f : α → Bytes} {L : List α}
    (h : ∀ a ∈ L, 0 < (f a).length) : L.length ≤ (L.flatMap f).length := by
  induction L with
  | nil => exact Nat.zero_le _
  | cons a L ih =>
    have ha := h a List.mem_cons_self
    have hL := ih fun b hb => h b (List.mem_cons_of_mem _ hb)
    rw [List.flatMap_cons, List.length_append, List.length_cons]
    omega

/-- Whole entries are read one after the other, whatever stands behind them. -/
theorem readMapLoop_append (tail : Bytes) (fuel : ℕ) (L : List (Bytes × Bytes)) : ∀ map : Dmap,
    (∀ p ∈ L, Entry p) →
    readMapLoop (fuel + L.length) (.ofBytes ((L.flatMap fun p => p.1 ++ writeString p.2) ++ tail)) map =
      readMapLoop fuel (.ofBytes tail) (L.foldl (fun map p => map.insert p.1 p.2) map) := by
  induction L with
  | nil => intro map _; rfl
  | cons p L ih =>
    intro map hL
    obtain ⟨hkey, hval⟩ := hL p List.mem_cons_self
    have hread := IStream.read_append p.1
      (writeString p.2 ++ ((L.flatMap fun p => p.1 ++ writeString p.2) ++ tail))
    rw [hkey] at hread
    rw [List.flatMap_cons, List.append_assoc, List.append_assoc, List.length_cons, ← Nat.add_assoc,
      readMapLoop, hread]
    simp only [readString_writeString hval, IStream.eof_ofBytes, Bool.false_eq_true, if_false,
      Bool.not_true, Bool.or_self]
    exact ih _ fun q hq => hL q (List.mem_cons_of_mem _ hq)

theorem readMapLoop_flatMap (L : List (Bytes × Bytes)) (fuel : ℕ) (map : Dmap)
    (hL : ∀ p ∈ L, Entry p) (hfuel : L.length < fuel) :
    readMapLoop fuel (.ofBytes (L.flatMap fun p => p.1 ++ writeString p.2)) map =
      (true, L.foldl (fun map p => map.insert p.1 p.2) map) := by
  obtain ⟨k, rfl⟩ := Nat.exists_eq_add_of_lt hfuel
  have hread := readMapLoop_append [] (k + 1) L map hL
  rw [List.append_nil, Nat.add_comm (k + 1), ← Nat.add_assoc] at hread
  rw [hread]
  rfl

theorem foldl_insert_eq_ofList {κ ν : Type*} [Ord κ] [TransOrd κ] (L : List (κ × ν)) :
    L.foldl (fun map p => map.insert p.1 p.2) (∅ : ExtTreeMap κ ν compare) =
      ExtTreeMap.ofList L compare := by
  rw [ExtTreeMap.ofList_eq_insertMany_empty, ExtTreeMap.insertMany_list_eq_foldl]

/-- The entries of a map in order, put into an empty one. -/
theorem foldl_insert_toList {κ ν : Type*} [DecidableEq κ] [Ord κ] [TransOrd κ] [LawfulEqOrd κ]
    (map : ExtTreeMap κ ν compare) :
    map.toList.foldl (fun map p => map.insert p.1 p.2) ∅ = map := by
  rw [foldl_insert_eq_ofList]
  ext1 k
  cases hk : map[k]? with
  | some v =>
    exact ExtTreeMap.getElem?_ofList_of_mem (LawfulEqCmp.compare_eq_iff_eq.mpr rfl)
      ExtTreeMap.distinct_keys_toList (ExtTreeMap.mem_toList_iff_getElem?_eq_some.mpr hk)
  | none =>
    refine ExtTreeMap.getElem?_ofList_of_contains_eq_false ?_
    rw [Bool.eq_false_iff, ne_eq, List.contains_iff_mem, List.mem_map]
    rintro ⟨⟨k', v⟩, hmem, rfl⟩
    rw [ExtTreeMap.mem_toList_iff_getElem?_eq_some, hk] at hmem
    cases hmem

/-- A map whose entries a file can hold. -/
def Writable (map : Dmap) : Prop := ∀ k v, map[k]? = some v → Entry (k, v)

theorem readMap_writeMap {map : Dmap} (h : Writable map) :
    readMap (some (writeMap map)) ∅ = (true, map) := by
  have hentries : ∀ p ∈ map.toList, Entry p := by
    rintro ⟨k, v⟩ hmem
    exact h k v (ExtTreeMap.mem_toList_iff_getElem?_eq_some.mp hmem)
  have htext : writeMap map = map.toList.flatMap fun p => p.1 ++ writeString p.2 := by
    rw [writeMap, List.flatMap_def, List.flatMap_def]
    refine congrArg List.flatten (List.map_congr_left fun p hp => ?_)
    exact if_pos (hentries p hp).1
  have hfuel : map.toList.length <
      (map.toList.flatMap fun p => p.1 ++ writeString p.2).length + 1 := by
    refine Nat.lt_succ_of_le (length_le_length_flatMap fun p hp => ?_)
    rw [List.length_append, (hentries p hp).1]
    exact Nat.lt_of_lt_of_le (by decide) (Nat.le_add_right _ _)
  rw [htext, readMap, readMapLoop_flatMap _ _ _ hentries hfuel, foldl_insert_toList]

theorem readRevlistLoop_append (tail : Bytes) (fuel : ℕ) (L : List Bytes) : ∀ m : Revlist,
    (∀ v ∈ L, v.length = KEYLEN) →
    readRevlistLoop (fuel + L.length) (.ofBytes (L.flatMap id ++ tail)) m =
      readRevlistLoop fuel (.ofBytes tail) (L.foldl (fun m v => m.insert v) m) := by
  induction L with
  | nil => intro m _; rfl
  | cons v L ih =>
    intro m hL
    have hread := IStream.read_append v (L.flatMap id ++ tail)
    rw [hL v List.mem_cons_self] at hread
    rw [List.flatMap_cons, id_eq, List.append_assoc, List.length_cons, ← Nat.add_assoc, readRevlistLoop,
      hread]
    simp only [IStream.eof_ofBytes, Bool.false_eq_true, if_false]
    exact ih _ fun u hu => hL u (List.mem_cons_of_mem _ hu)

theorem readRevlistLoop_flatten (L : List Bytes) (fuel : ℕ) (m : Revlist)
    (hL : ∀ v ∈ L, v.length = KEYLEN) (hfuel : L.length < fuel) :
    readRevlistLoop fuel (.ofBytes (L.flatMap id)) m = L.foldl (fun m v => m.insert v) m := by
  obtain ⟨k, rfl⟩ := Nat.exists_eq_add_of_lt hfuel
  have hread := readRevlistLoop_append [] (k + 1) L m hL
  rw [List.append_nil, Nat.add_comm (k + 1), ← Nat.add_assoc] at hread
  rw [hread]
  rfl

theorem readRevlist_writeRevlist {m : Revlist} (h : ∀ v ∈ m, v.length = KEYLEN) (m₀ : Revlist) :
    readRevlist (some (writeRevlist m)) m₀ = (true, m) := by
  have hkeys : ∀ v ∈ m.toList, v.length = KEYLEN := fun v hv => h v (ExtTreeSet.mem_toList.mp hv)
  have htext : writeRevlist m = m.toList.flatMap id := by
    rw [writeRevlist, List.flatMap_def, List.flatMap_def]
    refine congrArg List.flatten (List.map_congr_left fun v hv => ?_)
    exact if_pos (hkeys v hv)
  have hfuel : m.toList.length < (m.toList.flatMap id).length + 1 := by
    refine Nat.lt_succ_of_le (length_le_length_flatMap fun v hv => ?_)
    rw [id_eq, hkeys v hv]
    decide
  have hsame : m.toList.foldl (fun m v => m.insert v) ∅ = m := by
    ext v
    rw [mem_foldl_insert, ExtTreeSet.mem_toList]
    exact or_iff_right ExtTreeSet.not_mem_empty
  rw [htext, readRevlist, readRevlistLoop_flatten _ _ _ hkeys hfuel, hsame]

theorem readInt_writeInt {value : ℤ} (hlow : -2 ^ 31 ≤ value) (hhigh : value < 2 ^ 31) (value₀ : ℤ) :
    readInt (some (writeInt value)) value₀ = (true, value) := by
  have htext : writeInt value = IStream.decimalInt value ++ [] := by
    rw [writeInt, List.append_nil]
  have hread : (IStream.ofBytes (IStream.decimalInt value ++ [])).getSigned (2 ^ 31) =
      (some value, ⟨[], true, false⟩) :=
    IStream.getSigned_decimalInt (by push_cast; exact hlow) (by push_cast; exact hhigh) (by simp)
  rw [htext, readInt]
  simp only [hread, Bool.not_false, Option.getD_some]

theorem readBlocksLoop_flatMap (L : List Bytes) : ∀ (fuel : ℕ) (A : List Bytes),
    (∀ s ∈ L, s.length < 2 ^ 64) → L.length < fuel →
    readBlocksLoop fuel A.length (.ofBytes (L.flatMap writeString)) A = (true, A ++ L ++ [[]]) := by
  induction L with
  | nil =>
    intro fuel A _ hfuel
    cases fuel with
    | zero => exact absurd hfuel (Nat.not_lt_zero _)
    | succ fuel =>
      rw [List.flatMap_nil, readBlocksLoop, readString_nil]
      simp
  | cons s L ih =>
    intro fuel A hL hfuel
    cases fuel with
    | zero => exact absurd hfuel (Nat.not_lt_zero _)
    | succ fuel =>
      have hset : (A ++ [[]]).set A.length s = A ++ [s] := by simp
      rw [List.flatMap_cons, readBlocksLoop]
      simp only [readString_writeString (hL s List.mem_cons_self), hset, IStream.eof_ofBytes,
        Bool.not_true, Bool.false_eq_true, if_false]
      have hrest := ih fuel (A ++ [s]) (fun u hu => hL u (List.mem_cons_of_mem _ hu))
        (Nat.lt_of_succ_lt_succ hfuel)
      rw [List.length_append, List.length_singleton] at hrest
      rw [hrest]
      simp

/-- The blocks come back with an empty one behind them. -/
theorem readBlocks_writeBlocks {A : List Bytes} (h : ∀ s ∈ A, s.length < 2 ^ 64) :
    readBlocks (some (writeBlocks A)) [] = (true, A ++ [[]]) := by
  have hfuel : A.length < (A.flatMap writeString).length + 1 := by
    refine Nat.lt_succ_of_le (length_le_length_flatMap fun s _ => ?_)
    simp [writeString]
  exact readBlocksLoop_flatMap A _ [] h hfuel

/-! ### Saving and loading -/

/-- A server state that a save directory can hold. -/
structure Saveable (core : Core) : Prop where
  version : ∃ v : Version, core.version = v.toInt
  D : Writable core.D
  Dplus : Writable core.Dplus
  Srev : ∀ v ∈ core.Srev, v.length = KEYLEN
  A : ∀ s ∈ core.A, s.length < 2 ^ 64

/-- The files hold the state of the server. -/
structure OnDisk (dir : Dir) (core : Core) : Prop where
  version : dir .version = some (writeInt core.version)
  D : dir .D = some (writeMap core.D)
  A : dir .A = some (writeBlocks core.A)
  Dplus : dir .Dplus = some (writeMap core.Dplus)
  Srev : dir .Srev = some (writeRevlist core.Srev)

/-- `t` is the state `s` after any number of restarts: there may be an empty block behind the others. -/
structure Restored (s t : Core) : Prop where
  version : t.version = s.version
  D : t.D = s.D
  A : t.A = s.A ∨ t.A = s.A ++ [[]]
  Dplus : t.Dplus = s.Dplus
  Srev : t.Srev = s.Srev
  dirtyD : t.dirtyD = s.dirtyD

theorem Version.readInt_writeInt (v : Version) (value₀ : ℤ) :
    readInt (some (writeInt v.toInt)) value₀ = (true, v.toInt) := by
  cases v <;> exact DSSE.readInt_writeInt (by decide) (by decide) value₀

/-- What is on disk is loaded into a new process. -/
theorem OnDisk.load {dir : Dir} {core : Core} (h : OnDisk dir core) (hs : Saveable core)
    (hclean : core.dirtyD = false) :
    ∃ core', loadServer Core.new dir = (true, core') ∧ Restored core core' := by
  obtain ⟨v, hv⟩ := hs.version
  have hversion : readInt (dir .version) Core.new.version = (true, core.version) := by
    rw [h.version, hv, v.readInt_writeInt]
  have hD : readMap (dir .D) ∅ = (true, core.D) := by rw [h.D, readMap_writeMap hs.D]
  have hDplus : readMap (dir .Dplus) ∅ = (true, core.Dplus) := by
    rw [h.Dplus, readMap_writeMap hs.Dplus]
  have hSrev : readRevlist (dir .Srev) ∅ = (true, core.Srev) := by
    rw [h.Srev, readRevlist_writeRevlist hs.Srev]
  have hA : readBlocks (dir .A) [] = (true, core.A ++ [[]]) := by
    rw [h.A, readBlocks_writeBlocks hs.A]
  let core' : Core := { Core.new with
    version := core.version
    D := core.D
    Dplus := core.Dplus
    Srev := core.Srev
    A := core.A ++ [[]] }
  have hload : loadServer Core.new dir = (true, core') := by
    rw [loadServer, hversion]
    simp only [Core.new, hD, hDplus, hSrev, hA, Bool.not_true, Bool.false_eq_true, if_false]
    rfl
  exact ⟨core', hload, rfl, rfl, Or.inr rfl, rfl, rfl, hclean.symm⟩

end DSSE
