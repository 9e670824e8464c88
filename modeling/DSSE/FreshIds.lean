import DSSE.Bookkeeping

/-! The ids that AddFileByName gives to new files. `lastFileid` is the next of them; SetupFiles and
    AddFileByName move it, Setup and Add take ids from the caller and do not. -/

namespace DSSE
open Schemes Std

/-- A client, and the ids put into the index since the last Setup that reached the server. -/
structure Filing where
  client : Client
  indexed : List UInt64

def Filing.start : Filing := ⟨.new, []⟩

/-- A method of the client is called, or its state is saved and loaded into a new one. -/
inductive FileOp where
  | setup (version : ℤ) (keys : Keys) (tokens : List Bytes) (fileids : Postings) (d : Delivery Unit)
  | setupFiles (version : ℤ) (keys : Keys) (files : Bytes → Option Bytes) (filenames : List Bytes)
      (d : Delivery Unit)
  | add (stack : Stack) (fileid : UInt64) (words : List Bytes) (d : Delivery (List UInt8))
  | addFile (stack : Stack) (files : Bytes → Option Bytes) (filename : Bytes)
      (d : Delivery (List UInt8))
  | delete (fileid : UInt64) (words : List Bytes) (d : Delivery Unit)
  | saveLoad (dir : ClientDir)

instance {α : Type} : DecidablePred (Delivery.Reaches (α := α))
  | .unsent => isFalse id
  | .unanswered => isTrue trivial
  | .answered _ => isTrue trivial

/-- The ids that a Setup puts into the index. -/
def postedIds (fileids : Postings) (tokens : List Bytes) : List UInt64 :=
  tokens.flatMap fun w => fileids.getD w []

section
variable (tc : Tomcrypt)

/-- One step. AddFileByName gives the id that it uses for the file, with the ids that are in the index
    then. DeleteClient does not change the client. -/
def Filing.step (s : Filing) : FileOp → Except Halt (Filing × List (UInt64 × List UInt64))
  | .setup version keys tokens fileids d => do
    let (c, _) ← s.client.setupVia tc version keys tokens fileids d
    return (⟨c, if d.Reaches then postedIds fileids tokens else s.indexed⟩, [])
  | .setupFiles version keys files filenames d => do
    let (c, _) ← s.client.setupFiles tc version keys files filenames d
    let ix := indexFiles files filenames
    return (⟨c, if d.Reaches then postedIds ix.fileids ix.allTokens else s.indexed⟩, [])
  | .add stack fileid words d => do
    let (c, _) ← s.client.addVia tc stack fileid words d
    return (⟨c, if d.Reaches ∧ words ≠ [] then fileid :: s.indexed else s.indexed⟩, [])
  | .addFile stack files filename d => do
    let (c, _) ← s.client.addFileByName tc stack files filename d
    match tokenize (files filename) with
    | none => return (⟨c, s.indexed⟩, [])
    | some words =>
      let fileid := s.client.lastFileid
      return (⟨c, if d.Reaches ∧ words ≠ [] then fileid :: s.indexed else s.indexed⟩,
        [(fileid, s.indexed)])
  | .delete _ _ _ => .ok (s, [])
  | .saveLoad dir =>
    match Client.new.load (s.client.save dir).2 with
    | (true, c) => .ok (⟨c, s.indexed⟩, [])
    | (false, _) => .error .exit

end

/-- Ids that the caller puts into the index are below `lastFileid`; a request of SetupFiles or AddFileByName
    that reaches the server is answered, unless it puts nothing into the index or what is below
    `lastFileid`; and the 64-bit number does not run over. -/
def Filing.Allows (s : Filing) : FileOp → Prop
  | .setup _ _ tokens fileids d =>
    d.Reaches → ∀ id ∈ postedIds fileids tokens, id.toNat < s.client.lastFileid.toNat
  | .setupFiles _ _ files filenames d =>
    (d = .answered () → filenames.length + 1 < 2 ^ 64) ∧
      (d = .unanswered → ∀ id ∈ postedIds (indexFiles files filenames).fileids
        (indexFiles files filenames).allTokens, id.toNat < s.client.lastFileid.toNat)
  | .add _ fileid words d => d.Reaches → words ≠ [] → fileid.toNat < s.client.lastFileid.toNat
  | .addFile _ files filename d =>
    (d = .unanswered → tokensOf files filename = []) ∧
      (d.Reaches → s.client.lastFileid.toNat + 1 < 2 ^ 64)
  | .delete _ _ _ => True
  | .saveLoad _ => True

instance (s : Filing) : DecidablePred s.Allows
  | .setup _ _ tokens fileids d => inferInstanceAs (Decidable (d.Reaches →
      ∀ id ∈ postedIds fileids tokens, id.toNat < s.client.lastFileid.toNat))
  | .setupFiles _ _ files filenames d => inferInstanceAs (Decidable
      ((d = .answered () → filenames.length + 1 < 2 ^ 64) ∧
        (d = .unanswered → ∀ id ∈ postedIds (indexFiles files filenames).fileids
          (indexFiles files filenames).allTokens, id.toNat < s.client.lastFileid.toNat)))
  | .add _ fileid words d => inferInstanceAs (Decidable (d.Reaches → words ≠ [] →
      fileid.toNat < s.client.lastFileid.toNat))
  | .addFile _ files filename d => inferInstanceAs (Decidable
      ((d = .unanswered → tokensOf files filename = []) ∧
        (d.Reaches → s.client.lastFileid.toNat + 1 < 2 ^ 64)))
  | .delete .. => isTrue trivial
  | .saveLoad _ => isTrue trivial

/-- All ids in the index are below `lastFileid`. -/
def Filing.Below (s : Filing) : Prop := ∀ id ∈ s.indexed, id.toNat < s.client.lastFileid.toNat

variable {tc : Tomcrypt}

/-! ### Steps -/

theorem Client.addVia_state {c c' : Client} {stack : Stack} {fileid : UInt64} {words : List Bytes}
    {d : Delivery (List UInt8)} {ok : Bool} (h : c.addVia tc stack fileid words d = .ok (c', ok)) :
    c'.fileidMap = c.fileidMap ∧ c'.lastFileid = c.lastFileid ∧ (ok = true ↔ ∃ r, d = .answered r) := by
  rw [Client.addVia] at h
  cases d with
  | unsent => cases h; exact ⟨rfl, rfl, by simp⟩
  | unanswered => cases h; exact ⟨rfl, rfl, by simp⟩
  | answered r =>
    obtain ⟨core, -, h⟩ := exists_of_bind_ok h
    cases h
    exact ⟨rfl, rfl, by simp⟩

theorem Client.setupVia_ok {c c' : Client} {version : ℤ} {keys : Keys} {tokens : List Bytes}
    {fileids : Postings} {d : Delivery Unit} {ok : Bool}
    (h : c.setupVia tc version keys tokens fileids d = .ok (c', ok)) : ok = true ↔ d = .answered () := by
  rw [Client.setupVia] at h
  obtain ⟨r, -, h⟩ := exists_of_bind_ok h
  cases d <;> cases h <;> simp

/-- The numbers that SetupFiles gives are below the next one. -/
theorem indexFiles_posted {files : Bytes → Option Bytes} {filenames : List Bytes}
    (hlen : filenames.length + 1 < 2 ^ 64) :
    ∀ id ∈ postedIds (indexFiles files filenames).fileids (indexFiles files filenames).allTokens,
      id.toNat ≤ (firsts (readable files filenames)).length := by
  have hrlen : (readable files filenames).length + 1 < 2 ^ 64 := by
    have := List.length_filter_le (fun filename => (files filename).isSome) filenames
    rw [readable]
    omega
  intro id hid
  obtain ⟨w, -, hw⟩ := List.mem_flatMap.mp hid
  rw [ExtTreeMap.getD_eq_getD_getElem?, (indexFiles_built files filenames hlen).posted] at hw
  split at hw
  · simp at hw
  · obtain ⟨filename, hmem, rfl⟩ := List.mem_map.mp hw
    have hname := List.mem_of_mem_filter hmem
    rw [idOf_toNat hrlen hname]
    exact number_lt hname

theorem indexFiles_lastFileid {files : Bytes → Option Bytes} {filenames : List Bytes}
    (hlen : filenames.length + 1 < 2 ^ 64) :
    (indexFiles files filenames).lastFileid.toNat = (firsts (readable files filenames)).length + 1 := by
  have hle := length_firsts_le (readable files filenames)
  have hrlen := List.length_filter_le (fun filename => (files filename).isSome) filenames
  rw [(indexFiles_built files filenames hlen).last, UInt64.toNat_ofNat_of_lt']
  show _ < 2 ^ 64
  rw [readable] at *
  omega

theorem Filing.Below.setupFiles {s s' : Filing} {version : ℤ} {keys : Keys}
    {files : Bytes → Option Bytes} {filenames : List Bytes} {d : Delivery Unit}
    {out : List (UInt64 × List UInt64)} (h : s.Below)
    (hop : s.Allows (.setupFiles version keys files filenames d))
    (hstep : s.step tc (.setupFiles version keys files filenames d) = .ok (s', out)) :
    s'.Below ∧ out = [] := by
  obtain ⟨⟨c, ok⟩, hfiles, heq⟩ := exists_of_bind_ok hstep
  cases heq
  refine ⟨fun id hid => ?_, rfl⟩
  show id.toNat < c.lastFileid.toNat
  simp only at hid
  cases ok with
  | true =>
    obtain ⟨-, hlast⟩ := Client.setupFiles_ok hfiles
    have hd : d = .answered () := by
      rw [Client.setupFiles] at hfiles
      obtain ⟨⟨c₁, ok₁⟩, hvia, heq⟩ := exists_of_bind_ok hfiles
      cases ok₁ with
      | false => cases heq
      | true => exact (Client.setupVia_ok hvia).mp rfl
    have hreach : d.Reaches := by rw [hd]; trivial
    have hlen := hop.1 hd
    rw [if_pos hreach] at hid
    rw [hlast, indexFiles_lastFileid hlen]
    exact Nat.lt_succ_of_le (indexFiles_posted hlen id hid)
  | false =>
    -- `lastFileid` is what it was, so that the ids in the index must be below it
    have hvia := Client.setupFiles_failed hfiles
    obtain ⟨-, -, -, -, hlast⟩ := Client.setupVia_state hvia
    rw [hlast]
    by_cases hreach : d.Reaches
    · rw [if_pos hreach] at hid
      have hd : d = .unanswered := by
        cases d with
        | unsent => exact hreach.elim
        | unanswered => rfl
        | answered r => exact absurd ((Client.setupVia_ok hvia).mpr rfl) (by simp)
      exact hop.2 hd id hid
    · rw [if_neg hreach] at hid
      exact h id hid

theorem Filing.Below.addFile {s s' : Filing} {stack : Stack} {files : Bytes → Option Bytes}
    {filename : Bytes} {d : Delivery (List UInt8)} {out : List (UInt64 × List UInt64)} (h : s.Below)
    (hop : s.Allows (.addFile stack files filename d))
    (hstep : s.step tc (.addFile stack files filename d) = .ok (s', out)) :
    s'.Below ∧ ∀ p ∈ out, p.1 ∉ p.2 := by
  obtain ⟨⟨c, ok⟩, hfile, heq⟩ := exists_of_bind_ok hstep
  obtain ⟨hunanswered, hfits⟩ := hop
  rw [Client.addFileByName] at hfile
  cases htok : tokenize (files filename) with
  | none =>
    rw [htok] at hfile heq
    cases hfile
    cases heq
    exact ⟨h, by simp⟩
  | some words =>
    rw [htok] at hfile heq
    cases heq
    obtain ⟨⟨c₁, ok₁⟩, hvia, heq⟩ := exists_of_bind_ok hfile
    obtain ⟨-, hlast, hok⟩ := Client.addVia_state hvia
    refine ⟨fun id hid => ?_, fun p hp => ?_⟩
    · show id.toNat < c.lastFileid.toNat
      simp only at hid
      cases ok₁ with
      | true =>
        cases heq
        obtain ⟨r, rfl⟩ := hok.mp rfl
        have hnext : (c₁.lastFileid + 1).toNat = s.client.lastFileid.toNat + 1 := by
          rw [hlast, UInt64.toNat_add]
          exact Nat.mod_eq_of_lt (hfits trivial)
        show id.toNat < (c₁.lastFileid + 1).toNat
        rw [hnext]
        split at hid
        · rcases List.mem_cons.mp hid with rfl | hid
          · exact Nat.lt_succ_self _
          · exact Nat.lt_succ_of_lt (h id hid)
        · exact Nat.lt_succ_of_lt (h id hid)
      | false =>
        cases heq
        rw [hlast]
        have hnothing : ¬ (d.Reaches ∧ words ≠ []) := by
          rintro ⟨hreach, hwords⟩
          cases d with
          | unsent => exact hreach
          | unanswered => exact hwords (by simpa [tokensOf, htok] using hunanswered rfl)
          | answered r => exact absurd (hok.mpr ⟨r, rfl⟩) (by simp)
        rw [if_neg hnothing] at hid
        exact h id hid
    · rw [List.mem_singleton.mp hp]
      exact fun hmem => Nat.lt_irrefl _ (h _ hmem)

theorem Filing.Below.step {s s' : Filing} {op : FileOp} {out : List (UInt64 × List UInt64)}
    (h : s.Below) (hop : s.Allows op) (hstep : s.step tc op = .ok (s', out)) :
    s'.Below ∧ ∀ p ∈ out, p.1 ∉ p.2 := by
  cases op with
  | setup version keys tokens fileids d =>
    obtain ⟨⟨c, ok⟩, hvia, heq⟩ := exists_of_bind_ok hstep
    cases heq
    obtain ⟨-, -, -, -, hlast⟩ := Client.setupVia_state hvia
    refine ⟨fun id hid => ?_, by simp⟩
    show id.toNat < c.lastFileid.toNat
    rw [hlast]
    simp only at hid
    split at hid
    · rename_i hreach
      exact hop hreach id hid
    · exact h id hid
  | setupFiles version keys files filenames d =>
    obtain ⟨hbelow, rfl⟩ := h.setupFiles hop hstep
    exact ⟨hbelow, by simp⟩
  | add stack fileid words d =>
    obtain ⟨⟨c, ok⟩, hvia, heq⟩ := exists_of_bind_ok hstep
    cases heq
    obtain ⟨-, hlast, -⟩ := Client.addVia_state hvia
    refine ⟨fun id hid => ?_, by simp⟩
    show id.toNat < c.lastFileid.toNat
    rw [hlast]
    simp only at hid
    split at hid
    · rename_i hreach
      rcases List.mem_cons.mp hid with rfl | hid
      · exact hop hreach.1 hreach.2
      · exact h id hid
    · exact h id hid
  | addFile stack files filename d => exact h.addFile hop hstep
  | delete fileid words d => cases hstep; exact ⟨h, by simp⟩
  | saveLoad dir =>
    dsimp only [Filing.step] at hstep
    cases hload : Client.new.load (s.client.save dir).2 with
    | mk ok c =>
      rw [hload] at hstep
      cases ok with
      | false => cases hstep
      | true =>
        cases hstep
        refine ⟨fun id hid => ?_, by simp⟩
        show id.toNat < c.lastFileid.toNat
        rw [Client.load_lastFileid hload]
        exact h id hid

/-- In every run from a new client whose steps are allowed, the id of a new file is none that the index
    has had since the last Setup. -/
theorem Filing.fresh (tc : Tomcrypt) {ops : List FileOp}
    (hops : Along (Filing.step tc) Filing.Allows .start ops) {s : Filing}
    {used : List (UInt64 × List UInt64)} (hrun : runs (Filing.step tc) .start ops = .ok (s, used)) :
    ∀ p ∈ used, p.1 ∉ p.2 := by
  have hstart : Filing.start.Below := fun id hid => absurd hid List.not_mem_nil
  exact (runs_outputs (fun s op s' out h hop hstep => Filing.Below.step h hop hstep) hstart hops
    hrun).2

/-- Two files by name after SetupFiles, with a restart of the client between them. -/
def sampleFileOps : List FileOp :=
  [.setupFiles 0 Core.new.keys sampleFiles [[97]] (.answered ()),
    .addFile (fun _ _ => 0) sampleFiles [97] (.answered [0, 0]), .saveLoad fun _ => none,
    .addFile (fun _ _ => 0) sampleFiles [97] (.answered [0, 0])]

theorem Filing.fresh_sample :
    ∃ s used, runs (Filing.step standIn) .start sampleFileOps = .ok (s, used) ∧
      used.map Prod.fst = [2, 3] ∧ ∀ p ∈ used, p.1 ∉ p.2 := by
  have hrun : (runs (Filing.step standIn) .start sampleFileOps).map (fun r => decide
      (r.2.map Prod.fst = [2, 3] ∧ Along (Filing.step standIn) Filing.Allows .start sampleFileOps)) =
      .ok true := by
    decide +kernel
  obtain ⟨⟨s, used⟩, hok, h⟩ := exists_of_map_ok hrun
  obtain ⟨hids, hops⟩ := of_decide_eq_true h
  exact ⟨s, used, hok, hids, Filing.fresh standIn hops hok⟩

/-- The Setup of the command-line client without files takes id 1 itself; the second file gets it again.
    After an Add whose reply is lost the next file gets the same id. -/
theorem Filing.reused :
    let add := fun d => FileOp.addFile (fun _ _ => 0) sampleFiles [97] d
    let used := fun ops => (runs (Filing.step standIn) .start ops).toOption.map Prod.snd
    used [.setup 0 Core.new.keys [[97]] ((∅ : Postings).insert [97] [1]) (.answered ()),
      add (.answered [0, 0]), add (.answered [0, 0])] = some [(0, [1]), (1, [0, 1])] ∧
    used [.setupFiles 0 Core.new.keys sampleFiles [[97]] (.answered ()), add .unanswered,
      add (.answered [0, 0])] = some [(2, [1, 1]), (2, [2, 1, 1])] := by
  decide +kernel

end DSSE
