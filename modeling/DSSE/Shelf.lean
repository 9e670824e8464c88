import DSSE.Program

/-! What the programs are for: a shelf of files with their names and an index of their words, in the clear.
    Every run of the client's commands, each in a process of its own, and of restarts of the server prints
    what the shelf has. -/

namespace DSSE
open Schemes Std

/-- The index, the names of the files and the next number for a file. -/
structure Shelf where
  index : PlainIndex Bytes UInt64
  names : UInt64 → Option Bytes
  next : UInt64

/-- The readable files of a list, numbered from 1 on, with the files of each word. -/
def Shelf.setup (files : Bytes → Option Bytes) (filenames : List Bytes) : Shelf where
  index := .ofBase (occurrences files filenames)
  names id := (readable files filenames).find? fun name => idOf (readable files filenames) name = id
  next := UInt64.ofNat ((firsts (readable files filenames)).length + 1)

/-- A readable file gets the next number. -/
def Shelf.addFile (s : Shelf) (files : Bytes → Option Bytes) (filename : Bytes) : Shelf :=
  if (files filename).isSome then
    ⟨s.index.add s.next (tokensOf files filename), Function.update s.names s.next (some filename),
      s.next + 1⟩
  else s

/-- The line for a file. -/
def Shelf.line (s : Shelf) (word : Bytes) (id : UInt64) : Bytes :=
  let name := (s.names id).getD []
  word ++ text ": " ++ (if name = [] then IStream.decimal id.toNat else name) ++ [0x0a]

/-- What a command makes of the shelf; before the first setup there is none. -/
def Shelf.perform (inv : Invocation) : Option Shelf → Command → Option Shelf
  | _, .setup _ filenames => some (.setup inv.files filenames)
  | s, .setupTest _ => s
  | s, .search _ => s
  | s, .add fileid words => s.map fun s => { s with index := s.index.add fileid words }
  | s, .addFile filename => s.map fun s => s.addFile inv.files filename
  | s, .delete fileid words => s.map fun s => { s with index := s.index.delete fileid words }

/-- An event, seen from the shelf. -/
def Shelf.step (s : Option Shelf) : WorldEvent → Option Shelf
  | .client inv => match inv.command with
    | .ok (_, command) => Shelf.perform inv s command
    | .error _ => s
  | .restart => s

/-- What a command prints: the response to a search is announced, and there is a line for each file. -/
def Shelf.print : Option Shelf → Command → List Bytes
  | some s, .search word => gotResponse :: (s.index.search word).map (s.line word)
  | _, _ => []

/-- What the client of an event prints. -/
def Shelf.out (s : Option Shelf) : WorldEvent → List Bytes
  | .client inv => match inv.command with
    | .ok (_, command) => Shelf.print s command
    | .error _ => []
  | .restart => []

/-! ### What is asked of the events -/

/-- Words that `strlen` sees whole and memory can hold. -/
def Typeable (words : List Bytes) : Prop := ∀ w ∈ words, NulFree w ∧ w.length < 2 ^ 64

instance (words : List Bytes) : Decidable (Typeable words) :=
  inferInstanceAs (Decidable (∀ w ∈ words, NulFree w ∧ w.length < 2 ^ 64))

/-- Keys are arrays of 32 bytes. -/
def Keys.Typed (keys : Keys) : Prop :=
  keys.key.length = KEYLEN ∧ keys.kplus.length = KEYLEN ∧ keys.kminus.length = KEYLEN

instance (keys : Keys) : Decidable keys.Typed :=
  inferInstanceAs (Decidable (_ = _ ∧ _ = _ ∧ _ = _))

/-- The request is short enough to be sent, and what is more: a setup names files and comes when nothing
    is revoked, ids are those of named files, a word is not appended twice by one command. -/
def Shelf.AllowsCommand (inv : Invocation) (s : Option Shelf) : Command → Prop
  | .setup version filenames =>
    inv.keys.Typed ∧ filenames.length + 1 < 2 ^ 64 ∧
      (∀ name ∈ filenames, name.length < 2 ^ 64 ∧ Typeable (tokensOf inv.files name)) ∧
      (castVersion version).setupSize (postingLengths (indexFiles inv.files filenames).fileids
        (indexFiles inv.files filenames).allTokens) < 2 ^ 31 ∧
      ∀ s' ∈ s, s'.index.revoked = ∅
  | .setupTest _ => False
  | .search word => NulFree word ∧
    ∀ s' ∈ s, Msg.Sendable (Msg.SearchResult.toFields ⟨(s'.index.search word).map UInt64.toInt64⟩)
  | .add fileid words => Typeable words ∧ words.length < 2 ^ 24 ∧
    ∀ s' ∈ s, (words ≠ [] → (s'.names fileid).isSome) ∧ s'.index.Single fileid words
  | .addFile filename => filename.length < 2 ^ 64 ∧ Typeable (tokensOf inv.files filename) ∧
    (tokensOf inv.files filename).length < 2 ^ 24
  | .delete _ words => Typeable words ∧ words.length ≤ 63161283

instance (inv : Invocation) (s : Option Shelf) : DecidablePred (Shelf.AllowsCommand inv s)
  | .setup version filenames => inferInstanceAs (Decidable (inv.keys.Typed ∧ filenames.length + 1 < 2 ^ 64 ∧
      (∀ name ∈ filenames, name.length < 2 ^ 64 ∧ Typeable (tokensOf inv.files name)) ∧
      (castVersion version).setupSize (postingLengths (indexFiles inv.files filenames).fileids
        (indexFiles inv.files filenames).allTokens) < 2 ^ 31 ∧
      ∀ s' ∈ s, s'.index.revoked = ∅))
  | .setupTest _ => isFalse id
  | .search word => inferInstanceAs (Decidable (NulFree word ∧
      ∀ s' ∈ s, Msg.Sendable (Msg.SearchResult.toFields ⟨(s'.index.search word).map UInt64.toInt64⟩)))
  | .add fileid words => inferInstanceAs (Decidable (Typeable words ∧ words.length < 2 ^ 24 ∧
      ∀ s' ∈ s, (words ≠ [] → (s'.names fileid).isSome) ∧ s'.index.Single fileid words))
  | .addFile filename => inferInstanceAs (Decidable (filename.length < 2 ^ 64 ∧
      Typeable (tokensOf inv.files filename) ∧ (tokensOf inv.files filename).length < 2 ^ 24))
  | .delete _ words => inferInstanceAs (Decidable (Typeable words ∧ words.length ≤ 63161283))

/-- The program exits at the arguments; or it connects to the port of the server and the command is
    allowed. -/
def Shelf.AllowsArgs (port : UInt16) (inv : Invocation) (s : Option Shelf) :
    Except Halt (UInt16 × Command) → Prop
  | .ok (port', command) => port' = port ∧ Shelf.AllowsCommand inv s command
  | .error e => e = .exit

instance (port : UInt16) (inv : Invocation) (s : Option Shelf) : DecidablePred (Shelf.AllowsArgs port inv s)
  | .ok (port', command) => inferInstanceAs (Decidable (port' = port ∧ Shelf.AllowsCommand inv s command))
  | .error e => inferInstanceAs (Decidable (e = .exit))

def Shelf.Allows (port : UInt16) (s : Option Shelf) : WorldEvent → Prop
  | .client inv => Shelf.AllowsArgs port inv s inv.command
  | .restart => True

instance (port : UInt16) (s : Option Shelf) : DecidablePred (Shelf.Allows port s)
  | .client inv => inferInstanceAs (Decidable (Shelf.AllowsArgs port inv s inv.command))
  | .restart => isTrue trivial

/-- Every event is allowed when its turn comes. -/
def Shelf.AllowsAll (port : UInt16) : Option Shelf → List WorldEvent → Prop
  | _, [] => True
  | s, event :: events => Shelf.Allows port s event ∧ Shelf.AllowsAll port (Shelf.step s event) events

instance Shelf.decidableAllowsAll (port : UInt16) : ∀ (s : Option Shelf) (events : List WorldEvent),
    Decidable (Shelf.AllowsAll port s events)
  | _, [] => isTrue trivial
  | s, event :: events =>
    haveI := Shelf.decidableAllowsAll port (Shelf.step s event) events
    inferInstanceAs (Decidable (Shelf.Allows port s event ∧ Shelf.AllowsAll port (Shelf.step s event) events))

/-! ### The version -/

/-- `-P` goes from Basic to Packed and from there to Pointer, and no further. -/
theorem optionLetters_version : ∀ {letters : Bytes} {o o' : Options} {next : Bool},
    optionLetters letters o = .ok (o', next) → 0 ≤ o.version ∧ o.version ≤ 2 →
    0 ≤ o'.version ∧ o'.version ≤ 2
  | [], o, o', next, h, hv => by
    cases h
    exact hv
  | c :: letters, o, o', next, h, hv => by
    rw [optionLetters] at h
    split_ifs at h with hP hlow hp hnone
    · have hlow : o.version < 2 := hlow
      exact optionLetters_version h ⟨by simp only; omega, by simp only; omega⟩
    · exact optionLetters_version h hv
    · cases h
      exact hv
    · cases h
      exact hv

theorem getoptLoop_version (args : List Bytes) (o : Options) {o' : Options}
    (h : getoptLoop args o = .ok o') (hv : 0 ≤ o.version ∧ o.version ≤ 2) :
    0 ≤ o'.version ∧ o'.version ≤ 2 := by
  induction args, o using getoptLoop.induct with
  | case1 o => cases h; exact hv
  | case2 args o =>
    rw [getoptLoop.eq_def] at h
    simp only [if_true] at h
    cases h
    exact hv
  | case3 args o c letters e he hne =>
    rw [getoptLoop, if_neg hne] at h
    simp only [he] at h
    cases h
  | case4 args o c letters o₁ ho hne ih =>
    rw [getoptLoop, if_neg hne] at h
    simp only [ho] at h
    exact ih h (optionLetters_version ho hv)
  | case5 o c letters o₁ ho hne =>
    rw [getoptLoop, if_neg hne] at h
    simp only [ho] at h
    cases h
  | case6 o c letters o₁ ho port args hne ih =>
    rw [getoptLoop, if_neg hne] at h
    simp only [ho] at h
    have hv₁ := optionLetters_version ho hv
    exact ih h hv₁
  | case7 args o arg hplain hne ih =>
    rw [getoptLoop, if_neg hne] at h
    · exact ih h hv
    · exact hplain

theorem Invocation.operate_setup {inv : Invocation} {v version : ℤ} {command : Bytes}
    {args filenames : List Bytes} (h : inv.operate v command args = .ok (.setup version filenames)) :
    v = version := by
  unfold Invocation.operate at h
  split_ifs at h
  · cases h
  · cases h
    rfl
  · -- `setuplist`
    split at h
    · split at h
      · cases h
        rfl
      · cases h
    · cases h
  all_goals first | cases h | (split at h <;> cases h)

/-- A setup has a version that the client knows. -/
theorem Invocation.setup_version {inv : Invocation} {port : UInt16} {version : ℤ} {filenames : List Bytes}
    (h : inv.command = .ok (port, .setup version filenames)) (tc : Tomcrypt) :
    ∃ v lay, Version.layout? tc v = some lay ∧ version = v.toInt := by
  obtain ⟨o, ho, hcommand⟩ := exists_of_bind_ok h
  obtain ⟨hlow, hhigh⟩ := getoptLoop_version _ _ ho (by decide)
  cases hops : o.operands with
  | nil => rw [hops] at hcommand; cases hcommand
  | cons command args =>
  rw [hops] at hcommand
  obtain ⟨port', -, hcommand⟩ := exists_of_bind_ok hcommand
  obtain ⟨command', hoperate, hcommand⟩ := exists_of_bind_ok hcommand
  cases hcommand
  obtain rfl := Invocation.operate_setup hoperate
  have hcases : o.version = 0 ∨ o.version = 1 ∨ o.version = 2 := by omega
  rcases hcases with h | h | h
  · exact ⟨.Basic, _, rfl, h⟩
  · exact ⟨.Packed, _, rfl, h⟩
  · exact ⟨.Pointer, _, rfl, h⟩

end DSSE
