import DSSE.Service
import DSSE.ClientStorage

/-! Loads that fail. Every read works on the state itself and keeps what it had read when it fails: a
    failed load changes nothing only where all that was read up to the failure is what the state held
    before. A file that is missing or cannot be opened is `none`. -/

namespace DSSE
open Schemes Std

/-! ### What a file says -/

/-- What `readInt` stores: nothing without a file, nor if the file is blank. -/
def intIn (file : Option Bytes) : Option ℤ :=
  file.bind fun text => ((IStream.ofBytes text).getSigned (2 ^ 31)).1

/-- The file holds a number that fits. -/
def IntGood (file : Option Bytes) : Prop := (readInt file 0).1 = true

/-- The file is a map to its end. -/
def MapGood (file : Option Bytes) : Prop := (readMap file ∅).1 = true

/-- The file has the bytes of a key. -/
def KeyGood (file : Option Bytes) : Prop := (readBytes file [] KEYLEN).1 = true

/-- The entries in front of the first error of the file are all in the map. -/
def MapSays (file : Option Bytes) (map : Dmap) : Prop :=
  ∀ k v : Bytes, (readMap file ∅).2[k]? = some v → map[k]? = some v

def MapCountSays (file : Option Bytes) (map : Dcountmap) : Prop :=
  ∀ (k : Bytes) v, (readMapCount file ∅).2[k]? = some v → map[k]? = some v

/-- The bytes in the file, a key at most, are the first of the key. -/
def KeySays (file : Option Bytes) (key : Bytes) : Prop := ∀ text ∈ file, text.take KEYLEN <+: key

/-- The file has the revocation ids of the list and no others. -/
def RevlistSays (file : Option Bytes) (m : Revlist) : Prop :=
  file = none ∨ (readRevlist file ∅).2 = m

/-! ### Which loads succeed -/

/-- A directory that a server can load. -/
structure Dir.Loads (dir : Dir) : Prop where
  version : IntGood (dir .version)
  D : MapGood (dir .D)
  Dplus : MapGood (dir .Dplus)
  Srev : dir .Srev ≠ none
  A : (readBlocks (dir .A) []).1 = true

/-- All that a server reads up to the first bad file is what it holds already. -/
structure Dir.Says (dir : Dir) (core : Core) : Prop where
  version : ∀ v ∈ intIn (dir .version), v = core.version
  D : IntGood (dir .version) → MapSays (dir .D) core.D
  Dplus : IntGood (dir .version) → MapGood (dir .D) → MapSays (dir .Dplus) core.Dplus
  Srev : IntGood (dir .version) → MapGood (dir .D) → MapGood (dir .Dplus) →
    RevlistSays (dir .Srev) core.Srev
  A : IntGood (dir .version) → MapGood (dir .D) → MapGood (dir .Dplus) → dir .Srev ≠ none →
    dir .A = none

/-- A directory that a client can load. -/
structure ClientLoads (dir : ClientDir) : Prop where
  version : IntGood (dir .version)
  key : KeyGood (dir .key)
  kplus : KeyGood (dir .kplus)
  kminus : KeyGood (dir .kminus)
  Dcount : (readMapCount (dir .Dcount) ∅).1 = true

structure ClientSays (dir : ClientDir) (core : Core) : Prop where
  version : ∀ v ∈ intIn (dir .version), v = core.version
  key : IntGood (dir .version) → KeySays (dir .key) core.key
  kplus : IntGood (dir .version) → KeyGood (dir .key) → KeySays (dir .kplus) core.kplus
  kminus : IntGood (dir .version) → KeyGood (dir .key) → KeyGood (dir .kplus) →
    KeySays (dir .kminus) core.kminus
  Dcount : IntGood (dir .version) → KeyGood (dir .key) → KeyGood (dir .kplus) →
    KeyGood (dir .kminus) → MapCountSays (dir .Dcount) core.Dcount

/-! ### The reads one by one -/

theorem readInt_eq (file : Option Bytes) (value : ℤ) :
    readInt file value = ((readInt file 0).1, (intIn file).getD value) := by
  cases file with
  | none => rfl
  | some text => rfl

section
variable {κ ν : Type*} [Ord κ] [TransOrd κ]

/-- `map'` is `map` put over `old`. -/
def Over (old map map' : ExtTreeMap κ ν compare) : Prop := ∀ k : κ, map'[k]? = (map[k]?).or old[k]?

theorem Over.start (old : ExtTreeMap κ ν compare) : Over old ∅ old := fun k => by simp

theorem Over.insert {old map map' : ExtTreeMap κ ν compare} (h : Over old map map') (k : κ) (v : ν) :
    Over old (map.insert k v) (map'.insert k v) := by
  intro k'
  simp only [ExtTreeMap.getElem?_insert]
  split
  · rfl
  · exact h k'

/-- Nothing new is put over a map. -/
theorem Over.eq_iff [LawfulEqOrd κ] {old map map' : ExtTreeMap κ ν compare} (h : Over old map map') :
    map' = old ↔ ∀ (k : κ) v, map[k]? = some v → old[k]? = some v := by
  constructor
  · rintro rfl k v hv
    rw [h k, hv, Option.some_or]
  · intro hsays
    ext1 k
    rw [h k]
    cases hk : map[k]? with
    | none => rfl
    | some v => rw [Option.some_or, hsays k v hk]

end

/-- A map is read entry by entry into whatever map there is. -/
theorem readMapLoop_over (old : Dmap) (fuel : ℕ) : ∀ (st : IStream) (map map' : Dmap),
    Over old map map' → (readMapLoop fuel st map').1 = (readMapLoop fuel st map).1 ∧
      Over old (readMapLoop fuel st map).2 (readMapLoop fuel st map').2 := by
  induction fuel with
  | zero => intro st map map' h; exact ⟨rfl, h⟩
  | succ fuel ih =>
    intro st map map' h
    rw [readMapLoop, readMapLoop]
    simp only
    split
    · exact ⟨rfl, h⟩
    · split
      · exact ⟨rfl, h⟩
      · exact ih _ _ _ (h.insert _ _)

theorem readMap_over (file : Option Bytes) (map : Dmap) :
    (readMap file map).1 = (readMap file ∅).1 ∧ Over map (readMap file ∅).2 (readMap file map).2 := by
  cases file with
  | none => exact ⟨rfl, Over.start map⟩
  | some text => exact readMapLoop_over map _ _ ∅ map (Over.start map)

theorem readMap_eq_iff (file : Option Bytes) (map : Dmap) :
    (readMap file map).2 = map ↔ MapSays file map := (readMap_over file map).2.eq_iff

theorem readMapCountLoop_over (old : Dcountmap) (fuel : ℕ) : ∀ (st : IStream) (map map' : Dcountmap),
    Over old map map' → (readMapCountLoop fuel st map').1 = (readMapCountLoop fuel st map).1 ∧
      Over old (readMapCountLoop fuel st map).2 (readMapCountLoop fuel st map').2 := by
  induction fuel with
  | zero => intro st map map' h; exact ⟨rfl, h⟩
  | succ fuel ih =>
    intro st map map' h
    rw [readMapCountLoop, readMapCountLoop]
    simp only
    split
    · exact ⟨rfl, h⟩
    · split
      · exact ⟨rfl, h⟩
      · split
        · exact ⟨rfl, h⟩
        · exact ih _ _ _ (h.insert _ _)

theorem readMapCount_over (file : Option Bytes) (map : Dcountmap) :
    (readMapCount file map).1 = (readMapCount file ∅).1 ∧
      Over map (readMapCount file ∅).2 (readMapCount file map).2 := by
  cases file with
  | none => exact ⟨rfl, Over.start map⟩
  | some text => exact readMapCountLoop_over map _ _ ∅ map (Over.start map)

theorem readMapCount_eq_iff (file : Option Bytes) (map : Dcountmap) :
    (readMapCount file map).2 = map ↔ MapCountSays file map := (readMapCount_over file map).2.eq_iff

theorem readRevlist_eq_iff (file : Option Bytes) (m : Revlist) :
    (readRevlist file m).2 = m ↔ RevlistSays file m := by
  cases file with
  | none => simp [readRevlist, RevlistSays]
  | some text => simp [readRevlist, RevlistSays]

theorem readRevlist_good (file : Option Bytes) (m : Revlist) :
    (readRevlist file m).1 = true ↔ file ≠ none := by
  cases file with
  | none => simp [readRevlist]
  | some text => simp [readRevlist]

theorem readBytes_good (file : Option Bytes) (bytes bytes' : Bytes) (size : ℕ) :
    (readBytes file bytes size).1 = (readBytes file bytes' size).1 := by
  cases file with
  | none => rfl
  | some text => rfl

/-- A short file overwrites the beginning of the buffer. -/
theorem readBytes_eq_iff (file : Option Bytes) (key : Bytes) :
    (readBytes file key KEYLEN).2 = key ↔ KeySays file key := by
  cases file with
  | none => simp [readBytes, KeySays]
  | some text =>
    simp only [readBytes, KeySays, Option.mem_some_iff, forall_eq']
    constructor
    · intro h
      exact ⟨_, h⟩
    · rintro ⟨rest, h⟩
      rw [← h, List.drop_left' rfl]

theorem readInt_eq_iff (file : Option Bytes) (value : ℤ) :
    (readInt file value).2 = value ↔ ∀ v ∈ intIn file, v = value := by
  rw [readInt_eq]
  cases intIn file <;> simp

/-- A list of blocks only grows in a read. -/
theorem readBlocksLoop_length (fuel : ℕ) : ∀ (i : ℕ) (st : IStream) (A : List Bytes), 0 < fuel →
    A.length < (readBlocksLoop fuel i st A).2.length := by
  induction fuel with
  | zero => intro i st A h; exact absurd h (Nat.lt_irrefl 0)
  | succ fuel ih =>
    intro i st A _
    rw [readBlocksLoop]
    simp only
    split
    · simp
    · split
      · simp
      · rcases Nat.eq_zero_or_pos fuel with rfl | hpos
        · simp [readBlocksLoop]
        · refine Nat.lt_trans ?_ (ih _ _ _ hpos)
          simp

/-- How a string is read does not depend on what the variable held. -/
theorem readString_stream (st : IStream) (s s' : Bytes) :
    (readString st s).1 = (readString st s').1 ∧ (readString st s).2.2 = (readString st s').2.2 := by
  rw [readString, readString]
  simp only
  split
  · exact ⟨rfl, rfl⟩
  · split
    · exact ⟨rfl, rfl⟩
    · split
      · exact ⟨rfl, rfl⟩
      · exact ⟨rfl, rfl⟩

theorem readBlocksLoop_good (fuel : ℕ) : ∀ (i j : ℕ) (st : IStream) (A A' : List Bytes),
    (readBlocksLoop fuel i st A).1 = (readBlocksLoop fuel j st A').1 := by
  induction fuel with
  | zero => intro i j st A A'; rfl
  | succ fuel ih =>
    intro i j st A A'
    obtain ⟨hok, hst⟩ := readString_stream st ((A ++ [[]]).getD i []) ((A' ++ [[]]).getD j [])
    rw [readBlocksLoop, readBlocksLoop]
    simp only [hok, hst]
    split
    · rfl
    · split
      · rfl
      · exact ih _ _ _ _ _

theorem readBlocks_good (file : Option Bytes) (A A' : List Bytes) :
    (readBlocks file A).1 = (readBlocks file A').1 := by
  cases file with
  | none => rfl
  | some text => exact readBlocksLoop_good _ _ _ _ _ _

theorem readBlocks_eq_iff (file : Option Bytes) (A : List Bytes) :
    (readBlocks file A).2 = A ↔ file = none := by
  cases file with
  | none => simp [readBlocks]
  | some text =>
    have hlen := readBlocksLoop_length (text.length + 1) 0 (.ofBytes text) A (Nat.succ_pos _)
    simp only [readBlocks, reduceCtorEq, iff_false]
    intro h
    rw [h] at hlen
    exact Nat.lt_irrefl _ hlen

/-- Whether a file can be read does not depend on what the state held. -/
theorem intGood_iff (file : Option Bytes) (value : ℤ) : IntGood file ↔ (readInt file value).1 = true := by
  rw [IntGood, readInt_eq _ value]

theorem mapGood_iff (file : Option Bytes) (map : Dmap) : MapGood file ↔ (readMap file map).1 = true := by
  rw [MapGood, (readMap_over _ map).1]

theorem keyGood_iff (file : Option Bytes) (key : Bytes) :
    KeyGood file ↔ (readBytes file key KEYLEN).1 = true := by
  rw [KeyGood, readBytes_good _ key []]

/-! ### The loads -/

attribute [ext] Core

theorem loadServer_good (core : Core) (dir : Dir) : (loadServer core dir).1 = true ↔ dir.Loads := by
  rw [loadServer_eq]
  simp only [Bool.and_eq_true, ← intGood_iff, ← mapGood_iff, readRevlist_good,
    readBlocks_good _ core.A []]
  constructor
  · rintro ⟨⟨⟨⟨hversion, hD⟩, hDplus⟩, hSrev⟩, hA⟩
    exact ⟨hversion, hD, hDplus, hSrev, hA⟩
  · rintro ⟨hversion, hD, hDplus, hSrev, hA⟩
    exact ⟨⟨⟨⟨hversion, hD⟩, hDplus⟩, hSrev⟩, hA⟩

/-- A load leaves the state as it was if each file it gets to says what the state was. -/
theorem loadServer_unchanged (core : Core) (dir : Dir) :
    (loadServer core dir).2 = core ↔ dir.Says core := by
  rw [loadServer_eq]
  simp only [Core.ext_iff, true_and, and_true, ite_eq_right_iff, Bool.and_eq_true, ← intGood_iff,
    ← mapGood_iff, readRevlist_good, readInt_eq_iff, readMap_eq_iff, readRevlist_eq_iff,
    readBlocks_eq_iff, and_imp]
  constructor
  · rintro ⟨hversion, hD, hA, hDplus, hSrev⟩
    exact ⟨hversion, hD, hDplus, hSrev, hA⟩
  · rintro ⟨hversion, hD, hDplus, hSrev, hA⟩
    exact ⟨hversion, hD, hA, hDplus, hSrev⟩

theorem loadClient_good (core : Core) (dir : ClientDir) :
    (loadClient core dir).1 = true ↔ ClientLoads dir := by
  rw [loadClient_eq]
  simp only [Bool.and_eq_true, ← intGood_iff, ← keyGood_iff, (readMapCount_over _ core.Dcount).1]
  constructor
  · rintro ⟨⟨⟨⟨hversion, hkey⟩, hkplus⟩, hkminus⟩, hDcount⟩
    exact ⟨hversion, hkey, hkplus, hkminus, hDcount⟩
  · rintro ⟨hversion, hkey, hkplus, hkminus, hDcount⟩
    exact ⟨⟨⟨⟨hversion, hkey⟩, hkplus⟩, hkminus⟩, hDcount⟩

theorem loadClient_unchanged (core : Core) (dir : ClientDir) :
    (loadClient core dir).2 = core ↔ ClientSays dir core := by
  rw [loadClient_eq]
  simp only [Core.ext_iff, and_true, ite_eq_right_iff, Bool.and_eq_true, ← intGood_iff,
    ← keyGood_iff, readInt_eq_iff, readBytes_eq_iff, readMapCount_eq_iff, and_imp]
  constructor
  · rintro ⟨hversion, hkey, hkplus, hkminus, hDcount⟩
    exact ⟨hversion, hkey, hkplus, hkminus, hDcount⟩
  · rintro ⟨hversion, hkey, hkplus, hkminus, hDcount⟩
    exact ⟨hversion, hkey, hkplus, hkminus, hDcount⟩

/-- Whatever a directory holds, a load of it that fails leaves the state as it was exactly if the files
    say, up to the first bad one and in it up to the error, what the state was. -/
theorem failed_loads_iff (core : Core) (dir : Dir) (cdir : ClientDir) :
    (((loadServer core dir).1 = false → (loadServer core dir).2 = core) ↔
      dir.Loads ∨ dir.Says core) ∧
    (((loadClient core cdir).1 = false → (loadClient core cdir).2 = core) ↔
      ClientLoads cdir ∨ ClientSays cdir core) := by
  constructor
  · rw [loadServer_unchanged, ← loadServer_good core dir, ← Bool.not_eq_true, ← or_iff_not_imp_left]
  · rw [loadClient_unchanged, ← loadClient_good core cdir, ← Bool.not_eq_true, ← or_iff_not_imp_left]

/-- A directory of version 1 with one entry in `D` and a `Dplus` that breaks off in the middle of an
    entry. -/
def sampleTorn : Dir := fun
  | .version => some [0x31]
  | .D => some (List.replicate 32 1 ++ [0x31, 0x3a, 0x61, 0x2c])
  | .Dplus => some (List.replicate 32 2 ++ [0x39])
  | .Srev => some []
  | .A => some []

/-- The load fails, and the server goes on with the version and the `D` of the directory and without its
    added ids. -/
theorem loadServer_half : (loadServer Core.new sampleTorn).1 = false ∧
    (loadServer Core.new sampleTorn).2.version = 1 ∧
    (loadServer Core.new sampleTorn).2 ≠ Core.new := by
  have hload : (loadServer Core.new sampleTorn).1 = false ∧
      (loadServer Core.new sampleTorn).2.version = 1 := by decide +kernel
  refine ⟨hload.1, hload.2, fun h => ?_⟩
  rw [h] at hload
  exact absurd hload.2 (by decide)

end DSSE
