import DSSE.Truncated
import DSSE.Service

/-! Saves on a disk that fills up. Each of the writers opens its file and hands text to a stream. Only
    `writeInt` and `writeBlocks` look at the stream behind that, and they do not see what is still in its
    buffer; no writer looks at the result of the flush. -/

namespace DSSE
open Schemes Std

/-- What a file write meets: whether the file can be opened, how many bytes reach the disk before writes
    fail, and how many have left the buffer of the stream when its state is looked at. -/
structure Fault where
  opens : Bool
  room : ℕ
  sent : ℕ

/-- What a save meets. -/
structure Disk where
  mkdir : Bool
  file : File → Fault

/-- The result of a writer of this text that looks at its stream, or does not. -/
def Fault.passes (fault : Fault) (checked : Bool) (text : Bytes) : Bool :=
  fault.opens && !(checked && decide (fault.room < min fault.sent text.length))

/-- A writer: opening a file empties it. -/
def Fault.write (fault : Fault) (checked : Bool) (dir : Dir) (file : File) (text : Bytes) : Bool × Dir :=
  (fault.passes checked text, if fault.opens then dir.write (file, text.take fault.room) else dir)

/-- The block behind `if (core.dirtyD)`. -/
def saveIndexOn (disk : Disk) (core : Core) (dir : Dir) : Bool × Core × Dir :=
  let (ok, dir) := (disk.file .D).write false dir .D (writeMap core.D)
  if !ok then (false, core, dir)
  else
    let (ok, dir) := (disk.file .A).write true dir .A (writeBlocks core.A)
    if !ok then (false, core, dir)
    else (true, { core with dirtyD := false }, dir)

/-- The writes of `Dplus` and `Srev`. -/
def saveAddedOn (disk : Disk) (core : Core) (dir : Dir) : Bool × Dir :=
  let (ok, dir) := (disk.file .Dplus).write false dir .Dplus (writeMap core.Dplus)
  if !ok then (false, dir)
  else (disk.file .Srev).write false dir .Srev (writeRevlist core.Srev)

/-- `SaveServerToStorage`: its result, and what it leaves of the state and of the directory. -/
def saveServerOn (disk : Disk) (core : Core) (dir : Dir) : Bool × Core × Dir :=
  if !disk.mkdir then (false, core, dir)
  else
    let (ok, dir) := (disk.file .version).write true dir .version (writeInt core.version)
    if !ok then (false, core, dir)
    else
      let (ok, core, dir) := if core.dirtyD then saveIndexOn disk core dir else (true, core, dir)
      if !ok then (false, core, dir)
      else
        let (ok, dir) := saveAddedOn disk core dir
        (ok, core, dir)

/-- A save that reports success is complete, and `dirtyD` is cleared only if `D` and `A` are saved. -/
structure SaveComplete (disk : Disk) (core : Core) (dir : Dir) : Prop where
  loads : (saveServerOn disk core dir).1 = true →
    ∃ core', loadServer Core.new (saveServerOn disk core dir).2.2 = (true, core') ∧
      core'.version = core.version ∧ core'.D = core.D ∧ core'.Dplus = core.Dplus ∧
      core'.Srev = core.Srev
  cleared : core.dirtyD = true → (saveServerOn disk core dir).2.1.dirtyD = false →
    readMap ((saveServerOn disk core dir).2.2 .D) ∅ = (true, core.D) ∧
      (saveServerOn disk core dir).2.2 .A = some (writeBlocks core.A)

/-! ### Which saves are complete -/

/-- The writers up to those of `D` and `A` report no failure. -/
def Disk.passesIndex (disk : Disk) (core : Core) : Bool :=
  disk.mkdir && (disk.file .version).passes true (writeInt core.version) &&
    (!core.dirtyD || ((disk.file .D).passes false (writeMap core.D) &&
      (disk.file .A).passes true (writeBlocks core.A)))

/-- No writer reports a failure. -/
def Disk.passesAll (disk : Disk) (core : Core) : Bool :=
  disk.passesIndex core && (disk.file .Dplus).passes false (writeMap core.Dplus) &&
    (disk.file .Srev).passes false (writeRevlist core.Srev)

/-- All of the text reaches the disk. -/
def Disk.Whole (disk : Disk) (file : File) (text : Bytes) : Prop := text.length ≤ (disk.file file).room

instance (disk : Disk) (file : File) (text : Bytes) : Decidable (disk.Whole file text) :=
  inferInstanceAs (Decidable (_ ≤ _))

/-- The keys are as long as the ones that are written. -/
def KeysLong (map : Dmap) : Prop := ∀ p ∈ map.toList, p.1.length = KEYLEN

instance (map : Dmap) : Decidable (KeysLong map) :=
  inferInstanceAs (Decidable (∀ p ∈ map.toList, p.1.length = KEYLEN))

/-- Where no writer reports a failure, nothing was cut and nothing left out; and `D` and `A` are written
    or were written before. -/
def Disk.Sound (disk : Disk) (core : Core) (dir : Dir) : Prop :=
  (core.dirtyD = true → disk.passesIndex core = true →
    KeysLong core.D ∧ disk.Whole .D (writeMap core.D) ∧ disk.Whole .A (writeBlocks core.A)) ∧
  (disk.passesAll core = true →
    disk.Whole .version (writeInt core.version) ∧
    (KeysLong core.Dplus ∧ disk.Whole .Dplus (writeMap core.Dplus)) ∧
    ((∀ v ∈ core.Srev.toList, v.length = KEYLEN) ∧ disk.Whole .Srev (writeRevlist core.Srev)) ∧
    (core.dirtyD = true ∨ (dir .D).isSome = true ∧ (dir .A).isSome = true))

instance (disk : Disk) (core : Core) (dir : Dir) : Decidable (disk.Sound core dir) :=
  inferInstanceAs (Decidable (_ ∧ _))

/-- The strings of the state fit into memory. -/
def Core.Fits (core : Core) : Prop :=
  (∀ p ∈ core.D.toList, p.2.length < 2 ^ 64) ∧ (∀ p ∈ core.Dplus.toList, p.2.length < 2 ^ 64) ∧
    ∀ s ∈ core.A, s.length < 2 ^ 64

instance (core : Core) : Decidable core.Fits := inferInstanceAs (Decidable (_ ∧ _))

/-! ### A server and its saves -/

/-- The server handles a request, saves its state, or is started again. -/
inductive SaveEvent where
  | handle (req : Msg.Request)
  | save (disk : Disk)
  | restart

section
variable (tc : Tomcrypt)

/-- One event; a save gives its result. -/
def Machine.event (m : Machine) : SaveEvent → Except Halt (Machine × List Bool)
  | .handle req => (handleMessage tc m.core req).map fun r => (⟨r.1, m.dir⟩, [])
  | .save disk =>
    let (ok, core, dir) := saveServerOn disk m.core m.dir
    .ok (⟨core, dir⟩, [ok])
  | .restart => .ok ((Machine.boot m.dir).2, [])

/-- A process started for the first time. -/
def Machine.first : Machine := ⟨Core.new, fun _ => none⟩

/-- Saves are sound, and where `D` and `A` are on disk a new process can read them. -/
def Machine.Meets (m : Machine) : SaveEvent → Prop
  | .handle _ => True
  | .save disk => disk.Sound m.core m.dir ∧ m.core.Fits
  | .restart => (m.dir .D).isSome = true → (m.dir .A).isSome = true →
      (readInt (m.dir .version) 0).1 = true ∧ (readMap (m.dir .D) ∅).1 = true ∧
        (readBlocks (m.dir .A) []).1 = true

end

instance (m : Machine) : DecidablePred m.Meets
  | .handle _ => inferInstanceAs (Decidable True)
  | .save disk => inferInstanceAs (Decidable (disk.Sound m.core m.dir ∧ m.core.Fits))
  | .restart => inferInstanceAs (Decidable (_ → _ → _ ∧ _))

variable {tc : Tomcrypt}

/-! ### What a save does -/

/-- The file of a writer that reports no failure. -/
theorem Fault.write_of_passes {fault : Fault} {checked : Bool} {text : Bytes}
    (h : fault.passes checked text = true) (dir : Dir) (file : File) :
    fault.write checked dir file text = (true, dir.write (file, text.take fault.room)) := by
  have hopens : fault.opens = true := (Bool.and_eq_true_iff.mp h).1
  rw [Fault.write, h, hopens, if_pos rfl]

/-- A writer with enough room. -/
theorem Fault.write_whole {fault : Fault} {text : Bytes} (hopens : fault.opens = true)
    (hroom : text.length ≤ fault.room) (checked : Bool) (dir : Dir) (file : File) :
    fault.write checked dir file text = (true, dir.write (file, text)) := by
  have hpasses : fault.passes checked text = true := by
    have hlate : ¬ fault.room < min fault.sent text.length := by omega
    rw [Fault.passes, hopens, decide_eq_false hlate, Bool.and_false]
    rfl
  rw [Fault.write_of_passes hpasses, List.take_of_length_le hroom]

/-- Without faults a save is the one that never fails. -/
theorem saveServerOn_whole {disk : Disk} {core : Core} (dir : Dir) (hmkdir : disk.mkdir = true)
    (hopens : ∀ file, (disk.file file).opens = true)
    (hroom : ∀ w ∈ saveWrites core, w.2.length ≤ (disk.file w.1).room) :
    saveServerOn disk core dir = (true, saveServer core dir) := by
  have hwrite : ∀ (file : File) (text : Bytes) (checked : Bool) (dir : Dir),
      (file, text) ∈ saveWrites core →
      (disk.file file).write checked dir file text = (true, dir.write (file, text)) :=
    fun file text checked dir h => Fault.write_whole (hopens file) (hroom _ h) checked dir file
  have hversion := hwrite .version (writeInt core.version) true dir (by simp [saveWrites])
  have hDplus := fun dir => hwrite .Dplus (writeMap core.Dplus) false dir (by simp [saveWrites])
  have hSrev := fun dir => hwrite .Srev (writeRevlist core.Srev) false dir (by simp [saveWrites])
  rw [saveServerOn, hmkdir, hversion, saveServer, saveWrites]
  cases hdirty : core.dirtyD with
  | false =>
    have hsame : { core with dirtyD := false } = core := by rw [← hdirty]
    simp [saveAddedOn, hDplus, hSrev, hsame]
  | true =>
    have hD := fun dir => hwrite .D (writeMap core.D) false dir (by simp [saveWrites, hdirty])
    have hA := fun dir => hwrite .A (writeBlocks core.A) true dir (by simp [saveWrites, hdirty])
    simp [saveAddedOn, saveIndexOn, hDplus, hSrev, hD, hA]

/-- A writer leaves the other files alone. -/
theorem Fault.write_other (fault : Fault) (checked : Bool) (dir : Dir) {file file' : File}
    (text : Bytes) (h : file' ≠ file) : (fault.write checked dir file text).2 file' = dir file' := by
  rw [Fault.write]
  split
  · exact Function.update_of_ne h _ _
  · rfl

theorem saveAddedOn_result (disk : Disk) (core : Core) (dir : Dir) :
    (saveAddedOn disk core dir).1 = ((disk.file .Dplus).passes false (writeMap core.Dplus) &&
      (disk.file .Srev).passes false (writeRevlist core.Srev)) := by
  rw [saveAddedOn]
  cases hDplus : (disk.file .Dplus).passes false (writeMap core.Dplus) with
  | false => simp [Fault.write, hDplus]
  | true => simp [Fault.write, hDplus]

theorem saveAddedOn_other (disk : Disk) (core : Core) (dir : Dir) {file : File} (hDplus : file ≠ .Dplus)
    (hSrev : file ≠ .Srev) : (saveAddedOn disk core dir).2 file = dir file := by
  rw [saveAddedOn]
  simp only
  split
  · rw [Fault.write_other _ _ _ _ hDplus]
  · rw [Fault.write_other _ _ _ _ hSrev, Fault.write_other _ _ _ _ hDplus]

theorem saveAddedOn_files {disk : Disk} {core : Core} (dir : Dir)
    (h : (saveAddedOn disk core dir).1 = true) :
    (saveAddedOn disk core dir).2 .Dplus = some ((writeMap core.Dplus).take (disk.file .Dplus).room) ∧
      (saveAddedOn disk core dir).2 .Srev =
        some ((writeRevlist core.Srev).take (disk.file .Srev).room) := by
  rw [saveAddedOn_result, Bool.and_eq_true] at h
  rw [saveAddedOn, Fault.write_of_passes h.1]
  simp only [Bool.not_true, Bool.false_eq_true, if_false]
  rw [Fault.write_of_passes h.2]
  exact ⟨by simp [Dir.write], by simp [Dir.write]⟩

theorem saveIndexOn_result (disk : Disk) (core : Core) (dir : Dir) :
    (saveIndexOn disk core dir).1 = ((disk.file .D).passes false (writeMap core.D) &&
      (disk.file .A).passes true (writeBlocks core.A)) ∧
    (saveIndexOn disk core dir).2.1 =
      { core with dirtyD := core.dirtyD && !(saveIndexOn disk core dir).1 } := by
  rw [saveIndexOn]
  cases hD : (disk.file .D).passes false (writeMap core.D) with
  | false => simp [Fault.write, hD]
  | true =>
    cases hA : (disk.file .A).passes true (writeBlocks core.A) with
    | false => simp [Fault.write, hD, hA]
    | true => simp [Fault.write, hD, hA]

theorem saveIndexOn_other (disk : Disk) (core : Core) (dir : Dir) {file : File} (hD : file ≠ .D)
    (hA : file ≠ .A) : (saveIndexOn disk core dir).2.2 file = dir file := by
  rw [saveIndexOn]
  simp only
  split
  · rw [Fault.write_other _ _ _ _ hD]
  · split
    · rw [Fault.write_other _ _ _ _ hA, Fault.write_other _ _ _ _ hD]
    · rw [Fault.write_other _ _ _ _ hA, Fault.write_other _ _ _ _ hD]

theorem saveIndexOn_files {disk : Disk} {core : Core} (dir : Dir)
    (h : (saveIndexOn disk core dir).1 = true) :
    (saveIndexOn disk core dir).2.2 .D = some ((writeMap core.D).take (disk.file .D).room) ∧
      (saveIndexOn disk core dir).2.2 .A = some ((writeBlocks core.A).take (disk.file .A).room) := by
  rw [(saveIndexOn_result disk core dir).1, Bool.and_eq_true] at h
  rw [saveIndexOn, Fault.write_of_passes h.1]
  simp only [Bool.not_true, Bool.false_eq_true, if_false]
  rw [Fault.write_of_passes h.2]
  exact ⟨by simp [Dir.write], by simp [Dir.write]⟩

/-- What a save reports, what becomes of the state, and which files are written. -/
structure Saved (disk : Disk) (core : Core) (dir : Dir) (r : Bool × Core × Dir) : Prop where
  ok : r.1 = disk.passesAll core
  core_eq : r.2.1 = { core with dirtyD := core.dirtyD && !disk.passesIndex core }
  version : r.2.2 .version = dir .version ∨
    r.2.2 .version = some ((writeInt core.version).take (disk.file .version).room)
  clean : core.dirtyD = false → r.2.2 .D = dir .D ∧ r.2.2 .A = dir .A
  index : core.dirtyD = true → disk.passesIndex core = true →
    r.2.2 .D = some ((writeMap core.D).take (disk.file .D).room) ∧
      r.2.2 .A = some ((writeBlocks core.A).take (disk.file .A).room)
  all : disk.passesAll core = true →
    r.2.2 .version = some ((writeInt core.version).take (disk.file .version).room) ∧
      r.2.2 .Dplus = some ((writeMap core.Dplus).take (disk.file .Dplus).room) ∧
      r.2.2 .Srev = some ((writeRevlist core.Srev).take (disk.file .Srev).room)

/-- A save that stops before the index is written. -/
theorem Saved.early {disk : Disk} {core : Core} {dir dir' : Dir} (hfail : disk.passesIndex core = false)
    (hversion : dir' .version = dir .version ∨
      dir' .version = some ((writeInt core.version).take (disk.file .version).room))
    (hclean : core.dirtyD = false → dir' .D = dir .D ∧ dir' .A = dir .A) :
    Saved disk core dir (false, core, dir') where
  ok := by rw [Disk.passesAll, hfail]; rfl
  core_eq := by rw [hfail, Bool.not_false, Bool.and_true]
  version := hversion
  clean := hclean
  index _ h := by rw [hfail] at h; cases h
  all h := by rw [Disk.passesAll, hfail] at h; cases h

/-- A save that gets to the writes of `Dplus` and `Srev`. -/
theorem Saved.late {disk : Disk} {core : Core} {dir dir' : Dir} (hindex : disk.passesIndex core = true)
    (hversion : dir' .version = some ((writeInt core.version).take (disk.file .version).room))
    (hclean : core.dirtyD = false → dir' .D = dir .D ∧ dir' .A = dir .A)
    (hfiles : core.dirtyD = true →
      dir' .D = some ((writeMap core.D).take (disk.file .D).room) ∧
        dir' .A = some ((writeBlocks core.A).take (disk.file .A).room)) :
    Saved disk core dir ((saveAddedOn disk { core with dirtyD := false } dir').1,
      { core with dirtyD := false }, (saveAddedOn disk { core with dirtyD := false } dir').2) := by
  have hother : ∀ file : File, file ≠ .Dplus → file ≠ .Srev →
      (saveAddedOn disk { core with dirtyD := false } dir').2 file = dir' file := fun file h h' =>
    saveAddedOn_other disk _ dir' h h'
  have hok : (saveAddedOn disk { core with dirtyD := false } dir').1 = disk.passesAll core := by
    rw [saveAddedOn_result, Disk.passesAll, hindex, Bool.true_and]
  refine ⟨hok, ?_, Or.inr ?_, fun hdirty => ⟨?_, ?_⟩, fun hdirty _ => ⟨?_, ?_⟩, fun hall => ⟨?_, ?_⟩⟩
  · rw [hindex, Bool.not_true, Bool.and_false]
  · exact (hother _ (by decide) (by decide)).trans hversion
  · exact (hother _ (by decide) (by decide)).trans (hclean hdirty).1
  · exact (hother _ (by decide) (by decide)).trans (hclean hdirty).2
  · exact (hother _ (by decide) (by decide)).trans (hfiles hdirty).1
  · exact (hother _ (by decide) (by decide)).trans (hfiles hdirty).2
  · exact (hother _ (by decide) (by decide)).trans hversion
  · exact saveAddedOn_files dir' (hok.trans hall)

theorem saveServerOn_saved (disk : Disk) (core : Core) (dir : Dir) :
    Saved disk core dir (saveServerOn disk core dir) := by
  rw [saveServerOn]
  cases hmkdir : disk.mkdir with
  | false =>
    refine .early ?_ (Or.inl rfl) fun _ => ⟨rfl, rfl⟩
    rw [Disk.passesIndex, hmkdir]
    rfl
  | true =>
    simp only [Bool.not_true, Bool.false_eq_true, if_false]
    cases hversion : (disk.file .version).passes true (writeInt core.version) with
    | false =>
      have hfail : ((disk.file .version).write true dir .version (writeInt core.version)).1 = false :=
        hversion
      simp only [hfail, Bool.not_false, if_true]
      refine .early ?_ ?_ fun _ => ?_
      · rw [Disk.passesIndex, hversion, Bool.and_false, Bool.false_and]
      · rw [Fault.write]
        split
        · exact Or.inr (by simp [Dir.write])
        · exact Or.inl rfl
      · exact ⟨Fault.write_other _ _ _ _ (by decide), Fault.write_other _ _ _ _ (by decide)⟩
    | true =>
      rw [Fault.write_of_passes hversion]
      obtain ⟨dir₁, hdir₁⟩ : ∃ dir₁, dir.write (.version, (writeInt core.version).take
        (disk.file .version).room) = dir₁ := ⟨_, rfl⟩
      have hfile : ∀ file : File, file ≠ .version → dir₁ file = dir file := by
        intro file h
        rw [← hdir₁]
        exact Function.update_of_ne h _ _
      have hwritten : dir₁ .version =
          some ((writeInt core.version).take (disk.file .version).room) := by
        rw [← hdir₁]
        exact Function.update_self _ _ _
      rw [hdir₁]
      cases hdirty : core.dirtyD with
      | false =>
        have hsame : { core with dirtyD := false } = core := by rw [← hdirty]
        have hindex : disk.passesIndex core = true := by
          rw [Disk.passesIndex, hmkdir, hversion, hdirty]; rfl
        have hclean : core.dirtyD = false → dir₁ .D = dir .D ∧ dir₁ .A = dir .A := fun _ =>
          ⟨hfile _ (by decide), hfile _ (by decide)⟩
        have hlate := Saved.late hindex hwritten hclean fun h => by rw [hdirty] at h; cases h
        rw [hsame] at hlate
        exact hlate
      | true =>
        obtain ⟨hok, hcore⟩ := saveIndexOn_result disk core dir₁
        have hversion₂ : (saveIndexOn disk core dir₁).2.2 .version =
            some ((writeInt core.version).take (disk.file .version).room) :=
          (saveIndexOn_other disk core dir₁ (by decide) (by decide)).trans hwritten
        have hclean : core.dirtyD = false → (saveIndexOn disk core dir₁).2.2 .D = dir .D ∧
            (saveIndexOn disk core dir₁).2.2 .A = dir .A := by
          intro h
          rw [hdirty] at h; cases h
        have hpasses : disk.passesIndex core = (saveIndexOn disk core dir₁).1 := by
          rw [Disk.passesIndex, hmkdir, hversion, hdirty, hok]; rfl
        simp only [if_true]
        cases hindex : (saveIndexOn disk core dir₁).1 with
        | false =>
          rw [hindex] at hcore hpasses
          simp only [Bool.not_false, Bool.and_true] at hcore
          simp only [Bool.not_false, if_true, hcore]
          exact .early hpasses (Or.inr hversion₂) hclean
        | true =>
          rw [hindex] at hcore hpasses
          simp only [Bool.not_true, Bool.and_false] at hcore
          simp only [Bool.not_true, Bool.false_eq_true, if_false, hcore]
          exact .late hpasses hversion₂ hclean fun _ => saveIndexOn_files dir₁ hindex

/-! ### Loads -/

theorem loadServer_iff (core : Core) (dir : Dir) (version : ℤ) (D Dplus : Dmap) (Srev : Revlist) :
    (∃ core', loadServer core dir = (true, core') ∧ core'.version = version ∧ core'.D = D ∧
      core'.Dplus = Dplus ∧ core'.Srev = Srev) ↔
    readInt (dir .version) core.version = (true, version) ∧ readMap (dir .D) core.D = (true, D) ∧
      readMap (dir .Dplus) core.Dplus = (true, Dplus) ∧
      readRevlist (dir .Srev) core.Srev = (true, Srev) ∧ (readBlocks (dir .A) core.A).1 = true := by
  rw [loadServer_eq]
  simp only [Prod.ext_iff, Bool.and_eq_true]
  constructor
  · rintro ⟨core', ⟨⟨⟨⟨⟨h0, h1⟩, h2⟩, h3⟩, h4⟩, rfl⟩, rfl, rfl, rfl, rfl⟩
    simp [h0, h1, h2, h3, h4]
  · rintro ⟨⟨h0, rfl⟩, ⟨h1, rfl⟩, ⟨h2, rfl⟩, ⟨h3, rfl⟩, h4⟩
    exact ⟨_, ⟨⟨⟨⟨⟨h0, h1⟩, h2⟩, h3⟩, h4⟩, rfl⟩, rfl, by simp [h0], by simp [h0, h1],
      by simp [h0, h1, h2]⟩

/-- What a new process loads. -/
theorem loadServer_new_iff (dir : Dir) (version : ℤ) (D Dplus : Dmap) (Srev : Revlist) :
    (∃ core', loadServer Core.new dir = (true, core') ∧ core'.version = version ∧ core'.D = D ∧
      core'.Dplus = Dplus ∧ core'.Srev = Srev) ↔
    readInt (dir .version) 0 = (true, version) ∧ readMap (dir .D) ∅ = (true, D) ∧
      readMap (dir .Dplus) ∅ = (true, Dplus) ∧ readRevlist (dir .Srev) ∅ = (true, Srev) ∧
      (readBlocks (dir .A) []).1 = true := loadServer_iff Core.new dir version D Dplus Srev

/-- What a load leaves, whether it fails or not. -/
theorem loadServer_state (core : Core) (dir : Dir) :
    (loadServer core dir).2.version = (readInt (dir .version) core.version).2 ∧
      (loadServer core dir).2.dirtyD = core.dirtyD ∧
      ((readInt (dir .version) core.version).1 = true →
        (loadServer core dir).2.D = (readMap (dir .D) core.D).2) := by
  rw [loadServer_eq]
  exact ⟨rfl, rfl, fun h => by simp only [h, if_true]⟩

/-! ### The server between its saves -/

/-- The version is one of the four, also on disk; and where `D` and `A` are on disk and no Setup is waiting
    to be saved, they can be read, and `D` is that of the server. -/
structure Machine.Held (m : Machine) : Prop where
  version : ∃ v : Version, m.core.version = v.toInt
  file : ∀ text ∈ m.dir .version, ∃ (v : Version) (n : ℕ), text = (writeInt v.toInt).take n
  index : m.core.dirtyD = false → (m.dir .D).isSome = true → (m.dir .A).isSome = true →
    readMap (m.dir .D) ∅ = (true, m.core.D) ∧ (readBlocks (m.dir .A) []).1 = true

theorem keysLong_iff {map : Dmap} : KeysLong map ↔ ∀ k ∈ map, k.length = KEYLEN := by
  constructor
  · intro h k hk
    obtain ⟨v, hv⟩ : ∃ v, map[k]? = some v := ⟨_, ExtTreeMap.getElem?_eq_some_getElem hk⟩
    exact h (k, v) (ExtTreeMap.mem_toList_iff_getElem?_eq_some.mpr hv)
  · rintro h ⟨k, v⟩ hp
    have hget := ExtTreeMap.mem_toList_iff_getElem?_eq_some.mp hp
    exact h k (ExtTreeMap.mem_iff_isSome_getElem?.mpr (by rw [hget]; rfl))

theorem inMemory_of_toList {map : Dmap} (h : ∀ p ∈ map.toList, p.2.length < 2 ^ 64) : InMemory map :=
  fun k v hget => h (k, v) (ExtTreeMap.mem_toList_iff_getElem?_eq_some.mpr hget)

/-- Where the index was written, it is read back exactly if nothing was cut or left out. -/
theorem Saved.index_iff {disk : Disk} {core : Core} {dir : Dir} {r : Bool × Core × Dir}
    (hs : Saved disk core dir r) (hfits : core.Fits) (hdirty : core.dirtyD = true)
    (hpass : disk.passesIndex core = true) :
    readMap (r.2.2 .D) ∅ = (true, core.D) ∧ r.2.2 .A = some (writeBlocks core.A) ↔
      KeysLong core.D ∧ disk.Whole .D (writeMap core.D) ∧ disk.Whole .A (writeBlocks core.A) := by
  obtain ⟨hD, hA⟩ := hs.index hdirty hpass
  rw [hD, hA, readMap_take_iff (inMemory_of_toList hfits.1), Option.some_inj, List.take_eq_self_iff,
    keysLong_iff]
  exact and_assoc

/-- Where all files were written, those besides the index are read back exactly if nothing was cut or
    left out. -/
theorem Saved.added_iff {disk : Disk} {core : Core} {dir : Dir} {r : Bool × Core × Dir}
    (hs : Saved disk core dir r) (hfits : core.Fits) {v : Version} (hv : core.version = v.toInt)
    (hpass : disk.passesAll core = true) :
    readInt (r.2.2 .version) 0 = (true, core.version) ∧
        readMap (r.2.2 .Dplus) ∅ = (true, core.Dplus) ∧ readRevlist (r.2.2 .Srev) ∅ = (true, core.Srev) ↔
      disk.Whole .version (writeInt core.version) ∧
        (KeysLong core.Dplus ∧ disk.Whole .Dplus (writeMap core.Dplus)) ∧
        (∀ v ∈ core.Srev.toList, v.length = KEYLEN) ∧ disk.Whole .Srev (writeRevlist core.Srev) := by
  obtain ⟨hversion, hDplus, hSrev⟩ := hs.all hpass
  rw [hversion, hDplus, hSrev, hv, readInt_take_iff, readMap_take_iff (inMemory_of_toList hfits.2.1),
    readRevlist_take_iff, keysLong_iff]
  simp only [ExtTreeSet.mem_toList]
  rfl

/-- A save is complete exactly if nothing is cut or left out without a report and `D` and `A` are there. -/
theorem Machine.Held.complete_iff {m : Machine} (hm : m.Held) (hfits : m.core.Fits) (disk : Disk) :
    SaveComplete disk m.core m.dir ↔ disk.Sound m.core m.dir := by
  have hs := saveServerOn_saved disk m.core m.dir
  obtain ⟨v, hv⟩ := hm.version
  have hcleared : (saveServerOn disk m.core m.dir).2.1.dirtyD =
      (m.core.dirtyD && !disk.passesIndex m.core) := by rw [hs.core_eq]
  have hread := loadServer_new_iff (saveServerOn disk m.core m.dir).2.2 m.core.version m.core.D
    m.core.Dplus m.core.Srev
  have hsplit : disk.passesAll m.core = true → disk.passesIndex m.core = true := by
    intro h
    simp only [Disk.passesAll, Bool.and_eq_true] at h
    exact h.1.1
  constructor
  · rintro ⟨hloads, hclears⟩
    refine ⟨fun hdirty hpass => ?_, fun hpass => ?_⟩
    · have hcleared' := hcleared
      rw [hpass, Bool.not_true, Bool.and_false] at hcleared'
      exact (hs.index_iff hfits hdirty hpass).mp (hclears hdirty hcleared')
    · obtain ⟨hversion, hD, hDplus, hSrev, hA⟩ := hread.mp (hloads (hs.ok.trans hpass))
      obtain ⟨hwhole, hkeys, hids, hSrev'⟩ := (hs.added_iff hfits hv hpass).mp ⟨hversion, hDplus, hSrev⟩
      refine ⟨hwhole, hkeys, ⟨hids, hSrev'⟩, ?_⟩
      cases hdirty : m.core.dirtyD with
      | true => exact Or.inl rfl
      | false =>
        rw [(hs.clean hdirty).1] at hD
        rw [(hs.clean hdirty).2] at hA
        refine Or.inr ⟨?_, ?_⟩
        · cases hnone : m.dir .D with
          | none => rw [hnone] at hD; cases hD
          | some text => rfl
        · cases hnone : m.dir .A with
          | none => rw [hnone] at hA; cases hA
          | some text => rfl
  · rintro ⟨hD, hrest⟩
    refine ⟨fun hsaved => ?_, fun hdirty hclears => ?_⟩
    · have hpass := hs.ok.symm.trans hsaved
      obtain ⟨hwhole, hkeys, ⟨hids, hSrev'⟩, hthere⟩ := hrest hpass
      obtain ⟨hversion, hDplus, hSrev⟩ := (hs.added_iff hfits hv hpass).mpr ⟨hwhole, hkeys, hids, hSrev'⟩
      have hDA : readMap ((saveServerOn disk m.core m.dir).2.2 .D) ∅ = (true, m.core.D) ∧
          (readBlocks ((saveServerOn disk m.core m.dir).2.2 .A) []).1 = true := by
        cases hdirty : m.core.dirtyD with
        | true =>
          have hindex := hsplit hpass
          obtain ⟨hreadD, hfileA⟩ := (hs.index_iff hfits hdirty hindex).mpr (hD hdirty hindex)
          refine ⟨hreadD, ?_⟩
          rw [hfileA, readBlocks_writeBlocks hfits.2.2]
        | false =>
          rw [hdirty] at hthere
          obtain ⟨hsomeD, hsomeA⟩ := hthere.resolve_left Bool.false_ne_true
          rw [(hs.clean hdirty).1, (hs.clean hdirty).2]
          exact hm.index hdirty hsomeD hsomeA
      exact hread.mpr ⟨hversion, hDA.1, hDplus, hSrev, hDA.2⟩
    · rw [hcleared, hdirty, Bool.true_and, Bool.not_eq_false'] at hclears
      exact (hs.index_iff hfits hdirty hclears).mpr (hD hdirty hclears)

/-- A request leaves the version one of the four, and changes `D` only where it sets `dirtyD`. -/
theorem handleMessage_index {core core' : Core} {req : Msg.Request} {reply : Option Reply}
    (h : handleMessage tc core req = .ok (core', reply)) :
    ((∃ v : Version, core.version = v.toInt) → ∃ v : Version, core'.version = v.toInt) ∧
      (core'.dirtyD = false → core.dirtyD = false ∧ core'.D = core.D) := by
  rw [handleMessage] at h
  split at h
  · cases h
    exact ⟨fun _ => ⟨_, rfl⟩, fun hd => by cases hd⟩
  · obtain ⟨r, -, hr⟩ := exists_of_map_ok h
    cases hr
    exact ⟨id, fun hd => ⟨hd, rfl⟩⟩
  · rename_i add _
    cases h
    obtain ⟨⟨hversion, hD, -⟩, hdirty⟩ := addServer_sameIndex
      (add.L.map fun p => (⟨p.Token, p.FileID, p.RevID⟩ : AddPair)) core
    refine ⟨?_, fun hd => ⟨hdirty.symm.trans hd, hD⟩⟩
    rintro ⟨v, hv⟩
    exact ⟨v, hversion.trans hv⟩
  · cases h
    exact ⟨id, fun hd => ⟨hd, rfl⟩⟩
  · cases h
    exact ⟨id, fun hd => ⟨hd, rfl⟩⟩

/-- A beginning of a version file gives one of the four versions, or leaves the one of a new process. -/
theorem readInt_take_version (v : Version) (n : ℕ) :
    ∃ v' : Version, (readInt (some ((writeInt v.toInt).take n)) 0).2 = v'.toInt := by
  have hone : (writeInt v.toInt).length = 1 := by cases v <;> rfl
  rcases Nat.eq_zero_or_pos n with rfl | hpos
  · exact ⟨.Basic, rfl⟩
  · refine ⟨v, ?_⟩
    rw [List.take_of_length_le (by omega), v.readInt_writeInt]

theorem Machine.Held.event {m m' : Machine} (hm : m.Held) {e : SaveEvent} (hmeets : m.Meets e)
    {reports : List Bool} (h : m.event tc e = .ok (m', reports)) : m'.Held := by
  cases e with
  | handle req =>
    obtain ⟨⟨core', reply⟩, hcore, hr⟩ := exists_of_map_ok h
    cases hr
    obtain ⟨hversion, hindex⟩ := handleMessage_index hcore
    refine ⟨hversion hm.version, hm.file, fun hd hD hA => ?_⟩
    obtain ⟨hd, hsame⟩ := hindex hd
    show readMap (m.dir .D) ∅ = (true, core'.D) ∧ _
    rw [hsame]
    exact hm.index hd hD hA
  | save disk =>
    obtain ⟨hsound, hfits⟩ := hmeets
    obtain ⟨-, hcore, hversion, hclean, hindex, -⟩ := saveServerOn_saved disk m.core m.dir
    obtain ⟨-, hclears⟩ := (hm.complete_iff hfits disk).mpr hsound
    have hm' : (⟨(saveServerOn disk m.core m.dir).2.1, (saveServerOn disk m.core m.dir).2.2⟩ : Machine) =
        m' := congrArg Prod.fst (Except.ok.inj h)
    subst hm'
    refine ⟨?_, ?_, ?_⟩
    · simp only [hcore]
      exact hm.version
    · intro text htext
      simp only at htext
      rcases hversion with hsame | hwritten
      · exact hm.file text (hsame ▸ htext)
      · obtain ⟨v, hv⟩ := hm.version
        rw [hwritten, Option.mem_some_iff] at htext
        exact ⟨v, _, by rw [← htext, hv]⟩
    · intro hd hD hA
      simp only at hd hD hA ⊢
      have hsameD : (saveServerOn disk m.core m.dir).2.1.D = m.core.D := by rw [hcore]
      rw [hsameD]
      cases hdirty : m.core.dirtyD with
      | true =>
        -- the save cleared the mark, so the files are those of the state
        obtain ⟨hreadD, hfileA⟩ := hclears hdirty hd
        refine ⟨hreadD, ?_⟩
        rw [hfileA, readBlocks_writeBlocks hfits.2.2]
      | false =>
        rw [(hclean hdirty).1] at hD ⊢
        rw [(hclean hdirty).2] at hA ⊢
        exact hm.index hdirty hD hA
  | restart =>
    cases h
    obtain ⟨hversion, hdirty, hD⟩ := loadServer_state Core.new m.dir
    refine ⟨?_, hm.file, fun _ hsomeD hsomeA => ?_⟩
    · show ∃ v : Version, (loadServer Core.new m.dir).2.version = v.toInt
      rw [hversion]
      cases hfile : m.dir .version with
      | none => exact ⟨.Basic, rfl⟩
      | some text =>
        obtain ⟨v, n, rfl⟩ := hm.file text hfile
        exact readInt_take_version v n
    · obtain ⟨hint, hmap, hblocks⟩ := hmeets hsomeD hsomeA
      show readMap (m.dir .D) ∅ = (true, (loadServer Core.new m.dir).2.D) ∧ _
      rw [hD hint]
      exact ⟨Prod.ext hmap rfl, hblocks⟩

theorem Machine.held_first : Machine.first.Held where
  version := ⟨.Basic, rfl⟩
  file _ h := by cases h
  index _ h := by cases h

/-- In every run whose saves are sound, a save in the state reached is complete exactly if it is sound. -/
theorem Machine.save_complete_iff (tc : Tomcrypt) {events : List SaveEvent} {m : Machine}
    {reports : List Bool} (hrun : runs (Machine.event tc) Machine.first events = .ok (m, reports))
    (hmeets : Along (Machine.event tc) Machine.Meets Machine.first events) (hfits : m.core.Fits)
    (disk : Disk) : SaveComplete disk m.core m.dir ↔ disk.Sound m.core m.dir := by
  have hstep : ∀ (s : Machine) (a : SaveEvent) (s' : Machine) (out : List Bool), s.Held → s.Meets a →
      s.event tc a = .ok (s', out) → s'.Held ∧ ∀ o ∈ out, o = o :=
    fun s a s' out hs ha h => ⟨hs.event ha h, fun _ _ => rfl⟩
  have hheld := (runs_outputs hstep Machine.held_first hmeets hrun).1
  exact hheld.complete_iff hfits disk

/-- A disk with room for so many bytes in each file. -/
def roomyDisk (room : ℕ) : Disk := ⟨true, fun _ => ⟨true, room, 0⟩⟩

def sampleSetupRequest : Msg.Request :=
  ⟨some (.setup ⟨[⟨List.replicate 32 1, [5]⟩], [[6, 7]]⟩), some .Pointer⟩

def sampleAddRequest : Msg.Request :=
  ⟨some (.add ⟨[⟨List.replicate 32 2, [8, 9], List.replicate 32 3⟩]⟩), none⟩

def sampleSaveEvents : List SaveEvent :=
  [.handle sampleSetupRequest, .save (roomyDisk 100), .restart, .handle sampleAddRequest,
    .save (roomyDisk 100), .handle sampleSetupRequest]

theorem Machine.save_complete_sample : ∃ m reports,
    runs (Machine.event standIn) Machine.first sampleSaveEvents = .ok (m, reports) ∧
      SaveComplete (roomyDisk 100) m.core m.dir := by
  have hrun : (runs (Machine.event standIn) Machine.first sampleSaveEvents >>= fun r =>
      .ok (decide (r.1.core.Fits ∧ (roomyDisk 100).Sound r.1.core r.1.dir)) : Except Halt Bool) =
        .ok true := by decide +kernel
  have hmeets : Along (Machine.event standIn) Machine.Meets Machine.first sampleSaveEvents := by
    decide +kernel
  obtain ⟨⟨m, reports⟩, hrun, hlast⟩ := exists_of_bind_ok hrun
  obtain ⟨hfits, hsound⟩ := of_decide_eq_true (Except.ok.inj hlast)
  exact ⟨m, reports, hrun, (Machine.save_complete_iff standIn hrun hmeets hfits _).mpr hsound⟩

/-- A server that handled an Add and no Setup saves without a report, and cannot be loaded; and a `Dplus`
    that is cut short by a full disk is taken for saved. -/
theorem Machine.save_incomplete :
    (∃ m reports, runs (Machine.event standIn) Machine.first [.handle sampleAddRequest] =
        .ok (m, reports) ∧
      (saveServerOn (roomyDisk 100) m.core m.dir).1 = true ∧
      (loadServer Core.new (saveServerOn (roomyDisk 100) m.core m.dir).2.2).1 = false ∧
      ¬ SaveComplete (roomyDisk 100) m.core m.dir) ∧
    ∃ m reports, runs (Machine.event standIn) Machine.first
        [.handle sampleSetupRequest, .save (roomyDisk 100), .handle sampleAddRequest] =
        .ok (m, reports) ∧
      (saveServerOn (roomyDisk 34) m.core m.dir).1 = true ∧
      (loadServer Core.new (saveServerOn (roomyDisk 34) m.core m.dir).2.2).1 = false ∧
      ¬ SaveComplete (roomyDisk 34) m.core m.dir := by
  have hbroken : ∀ {m : Machine} {disk : Disk}, (saveServerOn disk m.core m.dir).1 = true →
      (loadServer Core.new (saveServerOn disk m.core m.dir).2.2).1 = false →
      ¬ SaveComplete disk m.core m.dir := by
    rintro m disk hok hload ⟨hloads, -⟩
    obtain ⟨core', hcore, -⟩ := hloads hok
    rw [hcore] at hload
    cases hload
  constructor
  · have hrun : (runs (Machine.event standIn) Machine.first [.handle sampleAddRequest] >>= fun r =>
        .ok (decide ((saveServerOn (roomyDisk 100) r.1.core r.1.dir).1 = true ∧
          (loadServer Core.new (saveServerOn (roomyDisk 100) r.1.core r.1.dir).2.2).1 = false)) :
        Except Halt Bool) = .ok true := by decide +kernel
    obtain ⟨⟨m, reports⟩, hrun, hlast⟩ := exists_of_bind_ok hrun
    obtain ⟨hok, hload⟩ := of_decide_eq_true (Except.ok.inj hlast)
    exact ⟨m, reports, hrun, hok, hload, hbroken hok hload⟩
  · have hrun : (runs (Machine.event standIn) Machine.first
        [.handle sampleSetupRequest, .save (roomyDisk 100), .handle sampleAddRequest] >>= fun r =>
        .ok (decide ((saveServerOn (roomyDisk 34) r.1.core r.1.dir).1 = true ∧
          (loadServer Core.new (saveServerOn (roomyDisk 34) r.1.core r.1.dir).2.2).1 = false)) :
        Except Halt Bool) = .ok true := by decide +kernel
    obtain ⟨⟨m, reports⟩, hrun, hlast⟩ := exists_of_bind_ok hrun
    obtain ⟨hok, hload⟩ := of_decide_eq_true (Except.ok.inj hlast)
    exact ⟨m, reports, hrun, hok, hload, hbroken hok hload⟩

end DSSE
