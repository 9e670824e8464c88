import DSSE.Files
import DSSE.Layouts
import DSSE.Schemes.Runs

/-! The methods of `Client` with a connection that can fail: a request may not go out, and a reply may
    not come back. What a failed method leaves of the client's state is what the next save writes. -/

namespace DSSE
open Schemes Std

/-- What becomes of a request: `send_message` returns false; or the server gets it but no reply comes, or
    none that parses; or the reply comes. -/
inductive Delivery (α : Type) where
  | unsent
  | unanswered
  | answered (reply : α)
  deriving DecidableEq

/-- The server gets the request. -/
def Delivery.Reaches {α : Type} : Delivery α → Prop
  | .unsent => False
  | _ => True

section
variable (tc : Tomcrypt)

/-- `Client::Setup`; the reply is empty. -/
def Client.setupVia (c : Client) (version : ℤ) (keys : Keys) (tokens : List Bytes) (fileids : Postings)
    (d : Delivery Unit) : Except Halt (Client × Bool) := do
  let (core, _, _) ← setupClient tc version c.core keys tokens fileids
  let c := { c with core := core }
  match d with
  | .answered () => return (c, true)
  | _ => return (c, false)

/-- `Client::SetupFiles`. -/
def Client.setupFiles (c : Client) (version : ℤ) (keys : Keys) (files : Bytes → Option Bytes)
    (filenames : List Bytes) (d : Delivery Unit) : Except Halt (Client × Bool) := do
  let ix := indexFiles files filenames
  let (c, ok) ← c.setupVia tc version keys ix.allTokens ix.fileids d
  if !ok then return (c, false)
  else return ({ c with lastFileid := ix.lastFileid, fileidMap := ix.fileidToFilename }, true)

/-- `Client::Add`; the reply carries flags. -/
def Client.addVia (c : Client) (stack : Stack) (fileid : UInt64) (words : List Bytes)
    (d : Delivery (List UInt8)) : Except Halt (Client × Bool) :=
  let (core, _, W) := addClient tc c.core stack fileid words
  let c := { c with core := core }
  match d with
  | .answered r => do
    let core ← addClient2 core r W
    return ({ c with core := core }, true)
  | _ => .ok (c, false)

/-- `Client::AddFileByName`. -/
def Client.addFileByName (c : Client) (stack : Stack) (files : Bytes → Option Bytes) (filename : Bytes)
    (d : Delivery (List UInt8)) : Except Halt (Client × Bool) :=
  match tokenize (files filename) with
  | none => .ok (c, false)
  | some tokens => do
    let fileid := c.lastFileid
    let (c, ok) ← c.addVia tc stack fileid tokens d
    if !ok then return (c, false)
    else return ({ c with
      fileidMap := c.fileidMap.insert fileid filename
      lastFileid := c.lastFileid + 1 }, true)

end

variable {tc : Tomcrypt}

/-! ### SetupFiles -/

theorem Client.setupFiles_ok {c c' : Client} {version : ℤ} {keys : Keys} {files : Bytes → Option Bytes}
    {filenames : List Bytes} {d : Delivery Unit}
    (h : c.setupFiles tc version keys files filenames d = .ok (c', true)) :
    c'.fileidMap = (indexFiles files filenames).fileidToFilename ∧
      c'.lastFileid = (indexFiles files filenames).lastFileid := by
  rw [Client.setupFiles] at h
  obtain ⟨⟨c₁, ok⟩, -, h⟩ := exists_of_bind_ok h
  cases ok with
  | false => cases h
  | true => cases h; exact ⟨rfl, rfl⟩

/-- SetupFiles hands an exact inverted index to Setup, and keeps its numbering when it succeeds, exactly
    if no readable file with a word in it is named twice. -/
theorem Client.setupFiles_exact_iff (tc : Tomcrypt) (files : Bytes → Option Bytes)
    (filenames : List Bytes) (hlen : filenames.length + 1 < 2 ^ 64) :
    ((indexFiles files filenames).Exact files filenames ∧
      ∀ c version keys d c', Client.setupFiles tc c version keys files filenames d = .ok (c', true) →
        c'.fileidMap = (indexFiles files filenames).fileidToFilename ∧
          c'.lastFileid = (indexFiles files filenames).lastFileid) ↔
    ∀ filename, tokensOf files filename ≠ [] → filenames.count filename ≤ 1 := by
  rw [(indexFiles_built files filenames hlen).exact_iff hlen]
  exact and_iff_left fun c version keys d c' h => Client.setupFiles_ok h

/-- Three files: "a" holds two words, "b" is empty, all others cannot be read. -/
def sampleFiles (filename : Bytes) : Option Bytes :=
  if filename = [97] then some [120, 32, 121, 10, 120] else if filename = [98] then some [] else none

theorem Client.setupFiles_exact_sample :
    (indexFiles sampleFiles [[98], [99], [97], [98]]).Exact sampleFiles [[98], [99], [97], [98]] := by
  refine ((Client.setupFiles_exact_iff standIn sampleFiles [[98], [99], [97], [98]] (by decide)).mpr
    fun filename hne => ?_).1
  have hname : filename = [97] := by
    by_contra hnot
    refine hne ?_
    rw [tokensOf, sampleFiles, if_neg hnot]
    split <;> rfl
  rw [hname]
  decide

/-- A file named twice. -/
theorem Client.setupFiles_repeats :
    (indexFiles sampleFiles [[97], [97]]).fileids.getD [120] [] = [1, 1] ∧
      ¬ (indexFiles sampleFiles [[97], [97]]).Exact sampleFiles [[97], [97]] := by
  have hposted : (indexFiles sampleFiles [[97], [97]]).fileids.getD [120] [] = [1, 1] := by
    decide +kernel
  refine ⟨hposted, fun h => ?_⟩
  have hnodup := h.posted_nodup [120]
  rw [hposted] at hnodup
  exact absurd hnodup (by decide)

/-! ### A Setup that fails -/

/-- The client's own state is the same. -/
structure Client.Same (c c' : Client) : Prop where
  keys : c'.core.keys = c.core.keys
  version : c'.core.version = c.core.version
  Dcount : c'.core.Dcount = c.core.Dcount
  fileidMap : c'.fileidMap = c.fileidMap
  lastFileid : c'.lastFileid = c.lastFileid

theorem Client.setupVia_state {c c' : Client} {version : ℤ} {keys : Keys} {tokens : List Bytes}
    {fileids : Postings} {d : Delivery Unit} {ok : Bool}
    (h : c.setupVia tc version keys tokens fileids d = .ok (c', ok)) :
    c'.core.keys = keys ∧ c'.core.version = version ∧ c'.core.Dcount = c.core.Dcount ∧
      c'.fileidMap = c.fileidMap ∧ c'.lastFileid = c.lastFileid := by
  rw [Client.setupVia] at h
  obtain ⟨⟨core, L, M⟩, hsetup, h⟩ := exists_of_bind_ok h
  obtain ⟨hkeys, hversion, hDcount⟩ := setupClient_state hsetup
  cases d <;> cases h <;> exact ⟨hkeys, hversion, hDcount, rfl, rfl⟩

theorem Client.setupFiles_failed {c c' : Client} {version : ℤ} {keys : Keys}
    {files : Bytes → Option Bytes} {filenames : List Bytes} {d : Delivery Unit}
    (h : c.setupFiles tc version keys files filenames d = .ok (c', false)) :
    c.setupVia tc version keys (indexFiles files filenames).allTokens
      (indexFiles files filenames).fileids d = .ok (c', false) := by
  rw [Client.setupFiles] at h
  obtain ⟨⟨c₁, ok⟩, hvia, h⟩ := exists_of_bind_ok h
  cases ok with
  | false => cases h; exact hvia
  | true => cases h

/-- A Setup or SetupFiles that fails leaves the client as it was exactly if the keys drawn and the version
    are those that it had. -/
theorem Client.setup_failed_iff (tc : Tomcrypt) (c : Client) (version : ℤ) (keys : Keys)
    (d : Delivery Unit) (c' : Client)
    (h : (∃ tokens fileids, c.setupVia tc version keys tokens fileids d = .ok (c', false)) ∨
      ∃ files filenames, c.setupFiles tc version keys files filenames d = .ok (c', false)) :
    c.Same c' ↔ keys = c.core.keys ∧ version = c.core.version := by
  have hvia : ∃ tokens fileids, c.setupVia tc version keys tokens fileids d = .ok (c', false) := by
    rcases h with h | ⟨files, filenames, h⟩
    · exact h
    · exact ⟨_, _, Client.setupFiles_failed h⟩
  obtain ⟨tokens, fileids, hvia⟩ := hvia
  obtain ⟨hkeys, hversion, hDcount, hmap, hlast⟩ := Client.setupVia_state hvia
  constructor
  · rintro ⟨hk, hv, -, -, -⟩
    exact ⟨hkeys.symm.trans hk, hversion.symm.trans hv⟩
  · rintro ⟨rfl, rfl⟩
    exact ⟨hkeys, hversion, hDcount, hmap, hlast⟩

/-- A client with one file, and a word that it has added twice. -/
def sampleOwner : Client where
  core := { Core.new with
    version := 1
    key := [1]
    kplus := [2]
    kminus := [3]
    Dcount := (∅ : Dcountmap).insert [120] 2 }
  fileidMap := (∅ : ExtTreeMap UInt64 Bytes compare).insert 1 [97]
  lastFileid := 2

/-- The keys that it has are drawn again, and the reply is lost. -/
theorem Client.setup_failed_sample :
    ∃ c', sampleOwner.setupVia standIn 1 ⟨[1], [2], [3]⟩ [[120], [121]]
        (((∅ : Postings).insert [120] [5, 6]).insert [121] [7]) .unanswered = .ok (c', false) ∧
      sampleOwner.Same c' := by
  have hrun : (sampleOwner.setupVia standIn 1 ⟨[1], [2], [3]⟩ [[120], [121]]
      (((∅ : Postings).insert [120] [5, 6]).insert [121] [7]) .unanswered).map Prod.snd = .ok false := by
    decide +kernel
  obtain ⟨⟨c', ok⟩, hc', rfl⟩ := exists_of_map_ok hrun
  exact ⟨c', hc', (Client.setup_failed_iff standIn sampleOwner 1 ⟨[1], [2], [3]⟩ .unanswered c'
    (Or.inl ⟨_, _, hc'⟩)).mpr ⟨rfl, rfl⟩⟩

/-- New keys are drawn and the request does not go out. -/
theorem Client.setup_failed_changes :
    ∃ c', Client.new.setupFiles standIn 0 ⟨[1], [2], [3]⟩ sampleFiles [[97]] .unsent = .ok (c', false) ∧
      c'.core.key = [1] ∧ Client.new.core.key ≠ [1] ∧ ¬ Client.new.Same c' := by
  have hrun : (Client.new.setupFiles standIn 0 ⟨[1], [2], [3]⟩ sampleFiles [[97]] .unsent).map
      (fun r => decide (r.2 = false ∧ r.1.core.key = [1])) = .ok true := by
    decide +kernel
  obtain ⟨⟨c', ok⟩, hc', h⟩ := exists_of_map_ok hrun
  obtain ⟨rfl, hkey⟩ := of_decide_eq_true h
  have hnew : Client.new.core.key ≠ [1] := by decide
  refine ⟨c', hc', hkey, hnew, fun hsame => hnew ?_⟩
  rw [← hkey]
  exact (congrArg Keys.key hsame.keys).symm

end DSSE
