import DSSE.FreshIds
import DSSE.Deletions

/-! `Client::Filename` and the ids that a search returns. An id gets into the index with a name, by
    SetupFiles and AddFileByName, or without one, by Setup and Add; `fileidMap` has the names that the
    client knows. -/

namespace DSSE
open Schemes Std

/-- `Client::Filename`: `count` is never below 0, so that the branch for unknown ids is never taken. -/
def Client.filename (c : Client) (fileid : UInt64) : Except Halt Bytes :=
  let count : ℕ := if c.fileidMap.contains fileid then 1 else 0
  if count ≥ 0 then
    match c.fileidMap[fileid]? with
    | some name => .ok name
    | none => .error .throw  -- `fileidMap.at(fileid)`
  else .ok []

theorem Client.filename_eq (c : Client) (fileid : UInt64) :
    c.filename fileid = match c.fileidMap[fileid]? with
      | some name => .ok name
      | none => .error .throw := by
  rw [Client.filename]
  exact if_pos (Nat.zero_le _)

/-! ### What a search returns -/

/-- Whatever word and keys an entry of the server is for, it holds no ids but those in `ids`. -/
structure Core.Yields (tc : Tomcrypt) (log : List MacCall) (core : Core) (ids : List UInt64) : Prop where
  base : ∀ l d, core.D[l]? = some d → ∃ v lay key w x out, Version.layout? tc v = some lay ∧
    core.version = v.toInt ∧ derivedCalls tc key w x ⊆ log ∧ derived tc key w x = l ∧
    Decodes tc lay (macKey tc key 0x32 w) core.A d out ∧ out ⊆ ids
  added : ∀ l d, core.Dplus[l]? = some d → ∃ kplus w x id, derivedCalls tc kplus w x ⊆ log ∧
    derived tc kplus w x = l ∧ Encrypts tc (macKey tc kplus 0x32 w) d id ∧ id ∈ ids

variable {tc : Tomcrypt} {log : List MacCall}

theorem labelLoop_mem {dict : Dmap} {key w : Bytes} {body : Bytes → Except Halt (List UInt64)}
    {found : List UInt64} (h : labelLoop tc dict (macKey tc key 0x31 w) body = .ok found)
    (hkey : macKeyCall key 0x31 w ∈ log) (hlabels : labelCalls tc dict (macKey tc key 0x31 w) ⊆ log) :
    ∀ id ∈ found, ∃ x d out, derivedCalls tc key w x ⊆ log ∧ dict[derived tc key w x]? = some d ∧
      body d = .ok out ∧ id ∈ out := by
  intro id hid
  obtain ⟨c, hc, d, out, hd, hout, hmem⟩ := probe_mem h id hid
  refine ⟨UInt64.ofNat c, d, out, fun call hcall => ?_, hd, hout, hmem⟩
  rcases List.mem_cons.mp hcall with rfl | hcall
  · exact hkey
  · rw [List.mem_singleton.mp hcall]
    exact hlabels (List.mem_map_of_mem hc)

theorem toInt_injective : Function.Injective Version.toInt := by
  intro v v' h
  cases v <;> cases v' <;> first | rfl | exact absurd h (by decide)

/-- A search returns for a version that has a layout. -/
theorem searchServer_version {core : Core} {k : SearchKeys} {ids : List UInt64}
    (h : searchServer tc core k = .ok ids) :
    ∃ v lay, Version.layout? tc v = some lay ∧ core.version = v.toInt ∧
      searchLoops tc lay.entry core k = .ok ids := by
  unfold searchServer at h
  split_ifs at h with hbasic hpacked hpointer
  · exact ⟨.Basic, _, rfl, hbasic, h⟩
  · exact ⟨.Packed, _, rfl, hpacked, h⟩
  · exact ⟨.Pointer, _, rfl, hpointer, h⟩

/-- A search, with whatever keys, returns ids of the index. -/
theorem Core.Yields.search {client server : Core} {ids found : List UInt64} {w : Bytes}
    (h : server.Yields tc log ids) (hn : NoCollision tc log)
    (hlog : Pair.searchCalls tc ⟨client, server⟩ w ⊆ log)
    (hsearch : Pair.search tc ⟨client, server⟩ w = .ok found) : found ⊆ ids := by
  obtain ⟨v, lay, hlay, hv, hloops⟩ := searchServer_version hsearch
  obtain ⟨base, hbase, hloops⟩ := exists_of_bind_ok hloops
  obtain ⟨added, hadded, hloops⟩ := exists_of_bind_ok hloops
  cases hloops
  have hclient : searchClientCalls client w ⊆ log :=
    fun call hcall => hlog (List.mem_append_left _ hcall)
  have hserver : ∀ call ∈ labelCalls tc server.D (macKey tc client.key 0x31 w) ++
      labelCalls tc server.Dplus (macKey tc client.kplus 0x31 w), call ∈ log :=
    fun call hcall => hlog (List.mem_append_right _ (List.mem_append_left _ hcall))
  intro id hid
  rcases List.mem_append.mp hid with hid | hid
  · obtain ⟨x, d, out, hcalls, hd, hout, hmem⟩ := labelLoop_mem hbase
      (hclient (by simp [searchClientCalls])) (fun c hc => hserver c (List.mem_append_left _ hc)) id hid
    obtain ⟨v', lay', key, w', x', out', hlay', hv', hcalls', hl, hdec, hsub⟩ := h.base _ d hd
    obtain rfl := toInt_injective (hv.symm.trans hv')
    obtain rfl : lay = lay' := Option.some.inj (hlay.symm.trans hlay')
    -- the label is that of the entry's own key and word
    obtain ⟨rfl, hcstr, -⟩ := derived_inj hn hcalls' hcalls hl
    rw [macKey_congr _ 0x32 hcstr] at hdec
    have hentry := hdec server (macKey tc client.kminus 0x31 w) (List.prefix_refl _)
    obtain rfl := Except.ok.inj (hentry.symm.trans hout)
    exact hsub (List.mem_of_mem_filter hmem)
  · obtain ⟨x, d, out, hcalls, hd, hout, hmem⟩ := labelLoop_mem hadded
      (hclient (by simp [searchClientCalls])) (fun c hc => hserver c (List.mem_append_right _ hc)) id hid
    obtain ⟨kplus, w', x', id', hcalls', hl, henc, hid'⟩ := h.added _ d hd
    obtain ⟨rfl, hcstr, -⟩ := derived_inj hn hcalls' hcalls hl
    rw [macKey_congr _ 0x32 hcstr] at henc
    have hentry := idEntry_of_encrypts server _ (macKey tc client.kminus 0x31 w) d id' henc
    obtain rfl := Except.ok.inj (hentry.symm.trans hout)
    rw [List.mem_singleton.mp (List.mem_of_mem_filter hmem)]
    exact hid'

/-! ### What the steps put into the index -/

theorem Core.Yields.mono {core : Core} {ids ids' : List UInt64} (h : core.Yields tc log ids)
    (hids : ids ⊆ ids') : core.Yields tc log ids' := by
  refine ⟨fun l d hd => ?_, fun l d hd => ?_⟩
  · obtain ⟨v, lay, key, w, x, out, hlay, hv, hcalls, hl, hdec, hout⟩ := h.base l d hd
    exact ⟨v, lay, key, w, x, out, hlay, hv, hcalls, hl, hdec, List.Subset.trans hout hids⟩
  · obtain ⟨kplus, w, x, id, hcalls, hl, henc, hid⟩ := h.added l d hd
    exact ⟨kplus, w, x, id, hcalls, hl, henc, hids hid⟩

theorem Core.yields_new : Core.new.Yields tc log [] :=
  ⟨fun l d hd => by simp [Core.new] at hd, fun l d hd => by simp [Core.new] at hd⟩

theorem readable_subset (v : Version) (fids : List UInt64) : v.readable fids ⊆ fids := by
  cases v
  · exact List.Subset.refl _
  all_goals exact List.filter_subset_self _

/-- A Setup puts the ids of its posting lists into the index, and nothing else is left. -/
theorem Core.Yields.setup {p p' : Pair} {version : ℤ} {keys : Keys} {tokens : List Bytes}
    {fileids : Postings} (hsetup : p.setup tc version keys tokens fileids = .ok p')
    (hfit : postingsTotal fileids tokens < INVALID.toNat)
    (hlog : setupCalls tc version keys tokens fileids ⊆ log) :
    p'.server.Yields tc log (postedIds fileids tokens) := by
  obtain ⟨v, lay, hlay, rfl⟩ := Pair.setup_version hsetup
  obtain ⟨hv, entries, hb⟩ := Pair.setup_built hlay hsetup hfit
  obtain ⟨-, -, hDplus, -⟩ := Pair.setup_state hsetup
  refine ⟨fun l d hd => ?_, fun l d hd => by simp [hDplus] at hd⟩
  obtain ⟨e, he, c, block, hblock, hl, rfl⟩ := hb.entry_of_some l d hd
  obtain ⟨hc, rfl⟩ := List.getElem?_eq_some_iff.mp hblock
  have hholds := (hb.indexed e he).holds
  have hc' : c < (lay.outs (fileids.getD e.1 [])).length := hholds.length_eq ▸ hc
  refine ⟨v, lay, keys.key, e.1, UInt64.ofNat c, _, hlay, hv,
    List.Subset.trans (hb.logged e he c hc) hlog, hl, hholds.get hc hc', fun id hid => ?_⟩
  have hread : id ∈ v.readable (fileids.getD e.1 []) := by
    rw [← flatten_outs tc hlay]
    exact List.mem_flatten.mpr ⟨_, List.get_mem _ _, hid⟩
  exact List.mem_flatMap.mpr ⟨e.1, hb.tokens_eq ▸ List.mem_map_of_mem he, readable_subset v _ hread⟩

/-- An Add puts its id into the index. -/
theorem Core.Yields.stored {id : UInt64} {ids : List UInt64} (hid : id ∈ ids) :
    ∀ (L : List AddPair) {core : Core}, core.Yields tc log ids →
    (∀ q ∈ L, ∃ kplus w x, derivedCalls tc kplus w x ⊆ log ∧ q.Token = derived tc kplus w x ∧
      Encrypts tc (macKey tc kplus 0x32 w) q.FileID id) → (addServer core L).1.Yields tc log ids
  | [], _, h, _ => h
  | q :: L, core, h, hL => by
    have hpair : (addServerPair core q).1.Yields tc log ids := by
      rcases addServerPair_cases core q with ⟨-, heq⟩ | ⟨-, -, heq⟩ | ⟨-, -, heq⟩
      · rw [heq]
        exact ⟨h.base, h.added⟩
      · rw [heq]
        exact h
      · rw [heq]
        refine ⟨h.base, fun l d hd => ?_⟩
        rw [ExtTreeMap.getElem?_insert] at hd
        split at hd
        · rename_i hl
          obtain rfl := Option.some.inj hd
          obtain ⟨kplus, w, x, hcalls, htoken, henc⟩ := hL q List.mem_cons_self
          exact ⟨kplus, w, x, id, hcalls, htoken.symm.trans (compare_eq_iff_eq.mp hl), henc, hid⟩
        · exact h.added l d hd
    exact Core.Yields.stored hid L hpair fun q' hq' => hL q' (List.mem_cons_of_mem _ hq')

theorem Core.Yields.add {server client : Core} {ids : List UInt64} (h : server.Yields tc log ids)
    (stack : Stack) {id : UInt64} {words : List Bytes} (hlog : addCalls tc client id words ⊆ log) :
    (addServer server (addClient tc client stack id words).2.1).1.Yields tc log
      (if words = [] then ids else id :: ids) := by
  have hpairs : ∀ q ∈ (addClient tc client stack id words).2.1, words ≠ [] ∧
      ∃ kplus w x, derivedCalls tc kplus w x ⊆ log ∧ q.Token = derived tc kplus w x ∧
        Encrypts tc (macKey tc kplus 0x32 w) q.FileID id := by
    intro q hq
    obtain ⟨w, hw, htoken, -, henc⟩ := mem_addClient client stack id words q hq
    exact ⟨List.ne_nil_of_mem hw, client.kplus, w, client.count w,
      List.Subset.trans (derivedCalls_subset_addCalls tc client id hw).1 hlog, htoken, henc⟩
  split
  · rename_i hwords
    rw [List.eq_nil_iff_forall_not_mem.mpr fun q hq => (hpairs q hq).1 hwords]
    exact h
  · exact (h.mono (List.subset_cons_self _ _)).stored List.mem_cons_self _ fun q hq => (hpairs q hq).2

theorem Core.Yields.delete {core : Core} {ids : List UInt64} (h : core.Yields tc log ids)
    (L : List Bytes) : (deleteServer core L).Yields tc log ids := ⟨h.base, h.added⟩

/-! ### A client, its server and its save directory -/

/-- What becomes of a request: it does not go out; the server gets it and the reply is lost; or all goes
    well. -/
inductive Wire where | unsent | lost | ok
  deriving DecidableEq

/-- The server gets the request. -/
def Wire.reaches : Wire → Bool
  | unsent => false
  | _ => true

def Wire.deliver {α : Type} (reply : α) : Wire → Delivery α
  | unsent => .unsent
  | lost => .unanswered
  | ok => .answered reply

/-- Beside the states: the ids put into the index since the last Setup that reached the server, and the
    names under which ids were allocated last. -/
structure Desk where
  client : Client
  server : Core
  dir : ClientDir
  indexed : List UInt64
  names : UInt64 → Option Bytes

def Desk.start (dir : ClientDir) : Desk := ⟨.new, .new, dir, [], fun _ => none⟩

/-- A method of the client is called; `load true` is a new process. -/
inductive DeskOp where
  | setup (version : ℤ) (keys : Keys) (tokens : List Bytes) (fileids : Postings) (wire : Wire)
  | setupFiles (version : ℤ) (keys : Keys) (files : Bytes → Option Bytes) (filenames : List Bytes)
      (wire : Wire)
  | add (stack : Stack) (fileid : UInt64) (words : List Bytes) (wire : Wire)
  | addFile (stack : Stack) (files : Bytes → Option Bytes) (filename : Bytes) (wire : Wire)
  | delete (fileid : UInt64) (words : List Bytes) (wire : Wire)
  | search (w : Bytes)
  | save
  | load (again : Bool)

/-- An id that was found, what `Filename` says of it, and the name under which it was allocated. -/
abbrev Hit := UInt64 × Except Halt Bytes × Option Bytes

/-- The names allocated by a SetupFiles: those that the client notes, or those that only the index has. -/
def Indexing.names (ix : Indexing) (names : UInt64 → Option Bytes) : Wire → UInt64 → Option Bytes
  | .unsent, id => names id
  | .lost, id => if id ∈ postedIds ix.fileids ix.allTokens then ix.fileidToFilename[id]? else names id
  | .ok, id => (ix.fileidToFilename[id]?).or (names id)

section
variable (tc : Tomcrypt)

/-- The server's part of an Add. -/
def Desk.serveAdd (s : Desk) (stack : Stack) (fileid : UInt64) (words : List Bytes) :
    Core × List UInt8 :=
  addServer s.server (addClient tc s.client.core stack fileid words).2.1

def Desk.step (s : Desk) : DeskOp → Except Halt (Desk × List Hit)
  | .setup version keys tokens fileids wire => do
    let (c, _) ← s.client.setupVia tc version keys tokens fileids (wire.deliver ())
    let p ← Pair.setup tc ⟨s.client.core, s.server⟩ version keys tokens fileids
    if wire.reaches then
      return ({ s with client := c, server := p.server, indexed := postedIds fileids tokens }, [])
    else return ({ s with client := c }, [])
  | .setupFiles version keys files filenames wire => do
    let (c, _) ← s.client.setupFiles tc version keys files filenames (wire.deliver ())
    let ix := indexFiles files filenames
    let p ← Pair.setup tc ⟨s.client.core, s.server⟩ version keys ix.allTokens ix.fileids
    let s := { s with client := c, names := ix.names s.names wire }
    if wire.reaches then
      return ({ s with server := p.server, indexed := postedIds ix.fileids ix.allTokens }, [])
    else return (s, [])
  | .add stack fileid words wire => do
    let (server, r) := s.serveAdd tc stack fileid words
    let (c, _) ← s.client.addVia tc stack fileid words (wire.deliver r)
    if wire.reaches then
      let indexed := if words = [] then s.indexed else fileid :: s.indexed
      return ({ s with client := c, server := server, indexed := indexed }, [])
    else return ({ s with client := c }, [])
  | .addFile stack files filename wire => do
    let fileid := s.client.lastFileid
    let words := tokensOf files filename
    let (server, r) := s.serveAdd tc stack fileid words
    let (c, _) ← s.client.addFileByName tc stack files filename (wire.deliver r)
    if (files filename).isSome ∧ wire.reaches then
      let indexed := if words = [] then s.indexed else fileid :: s.indexed
      -- without words only a reply makes the client note the name
      let names := if wire = .ok ∨ words ≠ [] then Function.update s.names fileid (some filename)
        else s.names
      return ({ s with client := c, server := server, indexed := indexed, names := names }, [])
    else return ({ s with client := c }, [])
  | .delete fileid words wire =>
    if wire.reaches then
      .ok ({ s with server := deleteServer s.server (deleteClient tc s.client.core fileid words) }, [])
    else .ok (s, [])
  | .search w => do
    let ids ← Pair.search tc ⟨s.client.core, s.server⟩ w
    return (s, ids.map fun id => (id, s.client.filename id, s.names id))
  | .save => .ok ({ s with dir := (s.client.save s.dir).2 }, [])
  | .load again =>
    match (if again then Client.new else s.client).load s.dir with
    | (_, c) => .ok ({ s with client := c }, [])

/-- The HMAC computations of a step. -/
def Desk.calls (s : Desk) : DeskOp → List MacCall
  | .setup version keys tokens fileids _ => setupCalls tc version keys tokens fileids
  | .setupFiles version keys files filenames _ =>
    let ix := indexFiles files filenames
    setupCalls tc version keys ix.allTokens ix.fileids
  | .add _ fileid words _ => addCalls tc s.client.core fileid words
  | .addFile _ files filename _ =>
    addCalls tc s.client.core s.client.lastFileid (tokensOf files filename)
  | .delete fileid words _ => deleteCalls tc s.client.core fileid words
  | .search w => Pair.searchCalls tc ⟨s.client.core, s.server⟩ w
  | .save => []
  | .load _ => []

end

/-- The posting lists of a Setup fit into memory. -/
def DeskOp.Fits : DeskOp → Prop
  | .setup _ _ tokens fileids _ => postingsTotal fileids tokens < INVALID.toNat
  | .setupFiles _ _ files filenames _ =>
    let ix := indexFiles files filenames
    filenames.length + 1 < 2 ^ 64 ∧ postingsTotal ix.fileids ix.allTokens < INVALID.toNat
  | _ => True

/-- The names that the save directory holds. -/
def Desk.saved (s : Desk) : FileidMap := (readFileidMap (s.dir .fileidMap) ∅).2

/-- No id gets into the index that the client has no name for, or another one than it was allocated under:
    callers of Setup and Add use ids that the client knows, a SetupFiles or AddFileByName whose reply is
    lost allocates what the client has noted before, and a Load brings no other names, and in a new process
    those of all ids in the index. -/
def Desk.Allows (s : Desk) : DeskOp → Prop
  | .setup _ _ tokens fileids wire =>
    wire.reaches = true → ∀ id ∈ postedIds fileids tokens, id ∈ s.client.fileidMap
  | .setupFiles _ _ files filenames wire =>
    let ix := indexFiles files filenames
    wire = .lost → ∀ id ∈ postedIds ix.fileids ix.allTokens,
      s.client.fileidMap[id]? = ix.fileidToFilename[id]?
  | .add _ fileid words wire => wire.reaches = true → words ≠ [] → fileid ∈ s.client.fileidMap
  | .addFile _ files filename wire => wire = .lost → tokensOf files filename ≠ [] →
    s.client.fileidMap[s.client.lastFileid]? = some filename
  | .load again =>
    let c := if again then Client.new else s.client
    ((loadClient c.core s.dir).1 = true → ∀ p ∈ s.saved.toList, s.names p.1 = some p.2) ∧
      (again = true → ∀ id ∈ s.indexed, (loadClient c.core s.dir).1 = true ∧ id ∈ s.saved)
  | _ => True

/-- Only the ids of the list are looked at, not all 2^64. -/
instance (priority := 2000) decidableIds (ids : List UInt64) (p : UInt64 → Prop) [DecidablePred p] :
    Decidable (∀ id ∈ ids, p id) := List.decidableBAll p ids

instance : DecidablePred DeskOp.Fits
  | .setup _ _ tokens fileids _ => inferInstanceAs (Decidable (postingsTotal fileids tokens < INVALID.toNat))
  | .setupFiles _ _ files filenames _ => inferInstanceAs (Decidable (filenames.length + 1 < 2 ^ 64 ∧
      postingsTotal (indexFiles files filenames).fileids (indexFiles files filenames).allTokens <
        INVALID.toNat))
  | .add .. | .addFile .. | .delete .. | .search _ | .save | .load _ => isTrue trivial

instance (s : Desk) : DecidablePred s.Allows
  | .setup _ _ tokens fileids wire => inferInstanceAs (Decidable (wire.reaches = true →
      ∀ id ∈ postedIds fileids tokens, id ∈ s.client.fileidMap))
  | .setupFiles _ _ files filenames wire => inferInstanceAs (Decidable (wire = .lost →
      ∀ id ∈ postedIds (indexFiles files filenames).fileids (indexFiles files filenames).allTokens,
        s.client.fileidMap[id]? = (indexFiles files filenames).fileidToFilename[id]?))
  | .add _ fileid words wire => inferInstanceAs (Decidable (wire.reaches = true → words ≠ [] →
      fileid ∈ s.client.fileidMap))
  | .addFile _ files filename wire => inferInstanceAs (Decidable (wire = .lost →
      tokensOf files filename ≠ [] → s.client.fileidMap[s.client.lastFileid]? = some filename))
  | .load again => inferInstanceAs (Decidable
      (((loadClient (if again then Client.new else s.client).core s.dir).1 = true →
        ∀ p ∈ s.saved.toList, s.names p.1 = some p.2) ∧
      (again = true → ∀ id ∈ s.indexed,
        (loadClient (if again then Client.new else s.client).core s.dir).1 = true ∧ id ∈ s.saved)))
  | .delete .. | .search _ | .save => isTrue trivial

/-! ### What the methods leave in the client's map -/

theorem Client.setupFiles_map {c c' : Client} {version : ℤ} {keys : Keys}
    {files : Bytes → Option Bytes} {filenames : List Bytes} {wire : Wire} {ok : Bool}
    (h : c.setupFiles tc version keys files filenames (wire.deliver ()) = .ok (c', ok)) :
    c'.fileidMap = if wire = .ok then (indexFiles files filenames).fileidToFilename else c.fileidMap := by
  rw [Client.setupFiles] at h
  obtain ⟨⟨c₁, ok₁⟩, hvia, h⟩ := exists_of_bind_ok h
  obtain ⟨-, -, -, hmap, -⟩ := Client.setupVia_state hvia
  have hok := Client.setupVia_ok hvia
  cases wire with
  | ok =>
    obtain rfl : ok₁ = true := hok.mpr rfl
    cases h
    rfl
  | unsent | lost =>
    obtain rfl : ok₁ = false := Bool.eq_false_iff.mpr fun htrue => by cases hok.mp htrue
    cases h
    exact hmap

theorem Client.addFileByName_map {c c' : Client} {stack : Stack} {files : Bytes → Option Bytes}
    {filename : Bytes} {r : List UInt8} {wire : Wire} {ok : Bool}
    (h : c.addFileByName tc stack files filename (wire.deliver r) = .ok (c', ok)) :
    c'.fileidMap = if (files filename).isSome ∧ wire = .ok then c.fileidMap.insert c.lastFileid filename
      else c.fileidMap := by
  rw [Client.addFileByName] at h
  cases hfile : files filename with
  | none =>
    rw [hfile] at h
    cases h
    rfl
  | some text =>
    rw [hfile] at h
    obtain ⟨⟨c₁, ok₁⟩, hvia, h⟩ := exists_of_bind_ok h
    obtain ⟨hmap, -, hok⟩ := Client.addVia_state hvia
    cases wire with
    | ok =>
      obtain rfl : ok₁ = true := hok.mpr ⟨r, rfl⟩
      cases h
      rw [hmap]
      rfl
    | unsent | lost =>
      obtain rfl : ok₁ = false := Bool.eq_false_iff.mpr fun htrue => by
        obtain ⟨_, hd⟩ := hok.mp htrue
        cases hd
      cases h
      exact hmap

/-- The entries of a file go over those that there are. -/
theorem readFileidMapLoop_over : ∀ (fuel : ℕ) (st : IStream) (m : FileidMap) (id : UInt64),
    (readFileidMapLoop fuel st m).2[id]? = ((readFileidMapLoop fuel st ∅).2[id]?).or (m[id]?)
  | 0, _, m, id => by simp [readFileidMapLoop]
  | fuel + 1, st, m, id => by
    rw [readFileidMapLoop, readFileidMapLoop]
    by_cases heof : (st.getUnsigned (2 ^ 64)).2.eof = true
    · simp only [if_pos heof, ExtTreeMap.getElem?_empty, Option.none_or]
    · simp only [if_neg heof]
      split
      · simp only [ExtTreeMap.getElem?_empty, Option.none_or]
      · rw [readFileidMapLoop_over fuel _ (m.insert _ _), readFileidMapLoop_over fuel _ (ExtTreeMap.insert _ _ _),
          ExtTreeMap.getElem?_insert, ExtTreeMap.getElem?_insert, Option.or_assoc]
        split <;> simp

theorem Client.load_map (c : Client) (dir : ClientDir) (id : UInt64) :
    (c.load dir).2.fileidMap[id]? = if (loadClient c.core dir).1
      then ((readFileidMap (dir .fileidMap) ∅).2[id]?).or (c.fileidMap[id]?) else c.fileidMap[id]? := by
  have hread : (readFileidMap (dir .fileidMap) c.fileidMap).2[id]? =
      ((readFileidMap (dir .fileidMap) ∅).2[id]?).or (c.fileidMap[id]?) := by
    cases dir .fileidMap with
    | none => simp [readFileidMap]
    | some text => exact readFileidMapLoop_over _ _ _ _
  rw [Client.load]
  obtain ⟨ok, core⟩ := loadClient c.core dir
  cases ok with
  | false => rfl
  | true =>
    rw [if_pos rfl, ← hread]
    simp only [Bool.not_true, Bool.false_eq_true, if_false, Client.loadExtraState]
    obtain ⟨ok', fileidMap⟩ := readFileidMap (dir .fileidMap) c.fileidMap
    cases ok' <;> rfl

/-! ### Every id in the index has a name -/

structure Desk.Named (tc : Tomcrypt) (log : List MacCall) (s : Desk) : Prop where
  yields : s.server.Yields tc log s.indexed
  known : ∀ id ∈ s.indexed, id ∈ s.client.fileidMap
  named : ∀ (id : UInt64) (name : Bytes), s.client.fileidMap[id]? = some name → s.names id = some name

/-- `Filename` says of an id what it was allocated under. -/
def Hit.Right (hit : Hit) : Prop := hit.2.1 = .ok (hit.2.2.getD [])

theorem Desk.Named.filename {s : Desk} (h : s.Named tc log) {id : UInt64} (hid : id ∈ s.indexed) :
    s.client.filename id = .ok ((s.names id).getD []) := by
  obtain ⟨name, hname⟩ : ∃ name, s.client.fileidMap[id]? = some name :=
    ⟨_, ExtTreeMap.getElem?_eq_some_getElem (h.known id hid)⟩
  rw [Client.filename_eq, hname, h.named id name hname]
  rfl

/-- A method that leaves the client's map and the index alone. -/
theorem Desk.Named.withClient {s : Desk} (h : s.Named tc log) {c : Client}
    (hmap : c.fileidMap = s.client.fileidMap) : Desk.Named tc log { s with client := c } := by
  refine ⟨h.yields, fun id hid => ?_, fun id name hname => h.named id name (hmap ▸ hname)⟩
  show id ∈ c.fileidMap
  rw [hmap]
  exact h.known id hid

theorem Desk.Named.setup {s s' : Desk} {version : ℤ} {keys : Keys} {tokens : List Bytes}
    {fileids : Postings} {wire : Wire} {out : List Hit} (h : s.Named tc log)
    (hfit : postingsTotal fileids tokens < INVALID.toNat)
    (hop : s.Allows (.setup version keys tokens fileids wire))
    (hlog : setupCalls tc version keys tokens fileids ⊆ log)
    (hstep : s.step tc (.setup version keys tokens fileids wire) = .ok (s', out)) :
    s'.Named tc log ∧ out = [] := by
  obtain ⟨⟨c, ok⟩, hvia, hstep⟩ := exists_of_bind_ok hstep
  obtain ⟨p, hp, hstep⟩ := exists_of_bind_ok hstep
  obtain ⟨-, -, -, hmap, -⟩ := Client.setupVia_state hvia
  split at hstep
  · rename_i hreach
    cases hstep
    refine ⟨⟨Core.Yields.setup hp hfit hlog, fun id hid => ?_, fun id name hname => ?_⟩, rfl⟩
    · show id ∈ c.fileidMap
      rw [hmap]
      exact hop hreach id hid
    · exact h.named id name (hmap ▸ hname)
  · cases hstep
    exact ⟨h.withClient hmap, rfl⟩

/-- SetupFiles allocates every id that it posts. -/
theorem indexFiles_allocated (files : Bytes → Option Bytes) {filenames : List Bytes}
    (hlen : filenames.length + 1 < 2 ^ 64) :
    ∀ id ∈ postedIds (indexFiles files filenames).fileids (indexFiles files filenames).allTokens,
      id ∈ (indexFiles files filenames).fileidToFilename := by
  have hb := indexFiles_built files filenames hlen
  intro id hid
  obtain ⟨w, -, hw⟩ := List.mem_flatMap.mp hid
  rw [ExtTreeMap.getD_eq_getD_getElem?, hb.posted] at hw
  split at hw
  · simp at hw
  · obtain ⟨filename, hmem, hname⟩ := List.mem_map.mp hw
    have hget := (hb.inverse id filename).mpr ⟨List.mem_of_mem_filter hmem, hname⟩
    exact ExtTreeMap.mem_iff_isSome_getElem?.mpr (by rw [hget]; rfl)

theorem Desk.Named.setupFiles {s s' : Desk} {version : ℤ} {keys : Keys}
    {files : Bytes → Option Bytes} {filenames : List Bytes} {wire : Wire} {out : List Hit}
    (h : s.Named tc log) (hfit : (DeskOp.setupFiles version keys files filenames wire).Fits)
    (hop : s.Allows (.setupFiles version keys files filenames wire))
    (hlog : s.calls tc (.setupFiles version keys files filenames wire) ⊆ log)
    (hstep : s.step tc (.setupFiles version keys files filenames wire) = .ok (s', out)) :
    s'.Named tc log ∧ out = [] := by
  obtain ⟨⟨c, ok⟩, hfiles, hstep⟩ := exists_of_bind_ok hstep
  obtain ⟨p, hp, hstep⟩ := exists_of_bind_ok hstep
  have hmap := Client.setupFiles_map hfiles
  have hyields := Core.Yields.setup hp hfit.2 hlog
  have hallocated := indexFiles_allocated files hfit.1
  have hlost : wire = .lost → ∀ id ∈ postedIds (indexFiles files filenames).fileids
      (indexFiles files filenames).allTokens,
      s.client.fileidMap[id]? = (indexFiles files filenames).fileidToFilename[id]? := hop
  generalize indexFiles files filenames = ix at *
  cases wire with
  | unsent =>
    cases hstep
    exact ⟨h.withClient hmap, rfl⟩
  | lost =>
    cases hstep
    have hmap : c.fileidMap = s.client.fileidMap := hmap
    have hold := hlost rfl
    refine ⟨⟨hyields, fun id hid => ?_, fun id name hname => ?_⟩, rfl⟩
    · show id ∈ c.fileidMap
      rw [hmap, ExtTreeMap.mem_iff_isSome_getElem?, hold id hid, ← ExtTreeMap.mem_iff_isSome_getElem?]
      exact hallocated id hid
    · have hname : s.client.fileidMap[id]? = some name := hmap ▸ hname
      show (if id ∈ postedIds ix.fileids ix.allTokens then ix.fileidToFilename[id]? else s.names id) = _
      split
      · rename_i hid
        rw [← hold id hid, hname]
      · exact h.named id name hname
  | ok =>
    cases hstep
    have hmap : c.fileidMap = ix.fileidToFilename := hmap
    refine ⟨⟨hyields, fun id hid => ?_, fun id name hname => ?_⟩, rfl⟩
    · show id ∈ c.fileidMap
      rw [hmap]
      exact hallocated id hid
    · have hname : ix.fileidToFilename[id]? = some name := hmap ▸ hname
      show (ix.fileidToFilename[id]?).or (s.names id) = _
      rw [hname]
      rfl

theorem Desk.Named.add {s s' : Desk} {stack : Stack} {fileid : UInt64} {words : List Bytes} {wire : Wire}
    {out : List Hit} (h : s.Named tc log) (hop : s.Allows (.add stack fileid words wire))
    (hlog : addCalls tc s.client.core fileid words ⊆ log)
    (hstep : s.step tc (.add stack fileid words wire) = .ok (s', out)) :
    s'.Named tc log ∧ out = [] := by
  obtain ⟨⟨c, ok⟩, hvia, hstep⟩ := exists_of_bind_ok hstep
  obtain ⟨hmap, -, -⟩ := Client.addVia_state hvia
  have hkept : Desk.Named tc log { s with client := c } := h.withClient hmap
  dsimp only at hstep
  by_cases hreach : wire.reaches = true
  · rw [if_pos hreach] at hstep
    cases hstep
    refine ⟨⟨h.yields.add stack hlog, fun id hid => ?_, hkept.named⟩, rfl⟩
    show id ∈ c.fileidMap
    simp only at hid
    split at hid
    · exact hkept.known id hid
    · rename_i hwords
      rcases List.mem_cons.mp hid with rfl | hid
      · rw [hmap]
        exact hop hreach hwords
      · exact hkept.known id hid
  · rw [if_neg hreach] at hstep
    cases hstep
    exact ⟨hkept, rfl⟩

/-- A file by name of which no reply comes: its id was noted before under the same name. -/
theorem Desk.Named.addFileLost {s : Desk} (h : s.Named tc log) (stack : Stack) {words : List Bytes}
    {filename : Bytes} (hnoted : words ≠ [] → s.client.fileidMap[s.client.lastFileid]? = some filename)
    (hlog : addCalls tc s.client.core s.client.lastFileid words ⊆ log) :
    Desk.Named tc log { s with
      server := (s.serveAdd tc stack s.client.lastFileid words).1
      indexed := if words = [] then s.indexed else s.client.lastFileid :: s.indexed
      names := if words ≠ [] then Function.update s.names s.client.lastFileid (some filename)
        else s.names } := by
  refine ⟨h.yields.add stack hlog, fun id hid => ?_, fun id name hname => ?_⟩
  · show id ∈ s.client.fileidMap
    simp only at hid
    split at hid
    · exact h.known id hid
    · rename_i hwords
      rcases List.mem_cons.mp hid with rfl | hid
      · exact ExtTreeMap.mem_iff_isSome_getElem?.mpr (by rw [hnoted hwords]; rfl)
      · exact h.known id hid
  · have hname : s.client.fileidMap[id]? = some name := hname
    dsimp only
    split
    · rename_i hwords
      rcases eq_or_ne id s.client.lastFileid with rfl | hne
      · rw [Function.update_self, ← hnoted hwords, hname]
      · rw [Function.update_of_ne hne]
        exact h.named id name hname
    · exact h.named id name hname

/-- A file by name whose reply comes: the client notes the name. -/
theorem Desk.Named.addFileOk {s : Desk} (h : s.Named tc log) (stack : Stack) {words : List Bytes}
    {filename : Bytes} {c : Client}
    (hmap : c.fileidMap = s.client.fileidMap.insert s.client.lastFileid filename)
    (hlog : addCalls tc s.client.core s.client.lastFileid words ⊆ log) :
    Desk.Named tc log { s with
      client := c
      server := (s.serveAdd tc stack s.client.lastFileid words).1
      indexed := if words = [] then s.indexed else s.client.lastFileid :: s.indexed
      names := Function.update s.names s.client.lastFileid (some filename) } := by
  refine ⟨h.yields.add stack hlog, fun id hid => ?_, fun id name hname => ?_⟩
  · show id ∈ c.fileidMap
    rw [hmap, ExtTreeMap.mem_insert]
    simp only at hid
    split at hid
    · exact Or.inr (h.known id hid)
    · rcases List.mem_cons.mp hid with rfl | hid
      · exact Or.inl ReflCmp.compare_self
      · exact Or.inr (h.known id hid)
  · have hname : (s.client.fileidMap.insert s.client.lastFileid filename)[id]? = some name :=
      hmap ▸ hname
    dsimp only
    rw [ExtTreeMap.getElem?_insert] at hname
    rcases eq_or_ne id s.client.lastFileid with rfl | hne
    · rw [if_pos ReflCmp.compare_self] at hname
      rw [Function.update_self, hname]
    · rw [if_neg fun he => hne (compare_eq_iff_eq.mp he).symm] at hname
      rw [Function.update_of_ne hne]
      exact h.named id name hname

theorem Desk.Named.addFile {s s' : Desk} {stack : Stack} {files : Bytes → Option Bytes}
    {filename : Bytes} {wire : Wire} {out : List Hit} (h : s.Named tc log)
    (hop : s.Allows (.addFile stack files filename wire))
    (hlog : addCalls tc s.client.core s.client.lastFileid (tokensOf files filename) ⊆ log)
    (hstep : s.step tc (.addFile stack files filename wire) = .ok (s', out)) :
    s'.Named tc log ∧ out = [] := by
  obtain ⟨⟨c, ok⟩, hfile, hstep⟩ := exists_of_bind_ok hstep
  have hmap := Client.addFileByName_map hfile
  dsimp only at hstep
  by_cases hreach : (files filename).isSome = true ∧ wire.reaches = true
  · rw [if_pos hreach] at hstep
    cases hstep
    rw [hreach.1] at hmap
    cases wire with
    | unsent => cases hreach.2
    | lost =>
      have hmap : c.fileidMap = s.client.fileidMap := hmap
      have hlost := (h.addFileLost stack (hop rfl) hlog).withClient hmap
      refine ⟨?_, rfl⟩
      simp only [reduceCtorEq, false_or]
      exact hlost
    | ok =>
      refine ⟨?_, rfl⟩
      simp only [true_or, if_true]
      exact h.addFileOk stack hmap hlog
  · rw [if_neg hreach] at hstep
    cases hstep
    have hsame : c.fileidMap = s.client.fileidMap := by
      rw [hmap, if_neg]
      rintro ⟨hreadable, rfl⟩
      exact hreach ⟨hreadable, rfl⟩
    exact ⟨h.withClient hsame, rfl⟩

theorem Desk.Named.load {s : Desk} {again : Bool} (h : s.Named tc log) (hop : s.Allows (.load again)) :
    Desk.Named tc log { s with client := ((if again then Client.new else s.client).load s.dir).2 } := by
  obtain ⟨hnames, hall⟩ := hop
  generalize hc : (if again = true then Client.new else s.client) = c at *
  have hmem : ∀ id : UInt64, id ∈ s.saved ↔ (s.saved[id]?).isSome = true := fun id =>
    ExtTreeMap.mem_iff_isSome_getElem?
  refine ⟨h.yields, fun id hid => ?_, fun id name hname => ?_⟩
  · show id ∈ (c.load s.dir).2.fileidMap
    rw [ExtTreeMap.mem_iff_isSome_getElem?, Client.load_map]
    cases again with
    | true =>
      obtain ⟨hok, hid⟩ := hall rfl id hid
      rw [if_pos hok, Option.isSome_or]
      exact Bool.or_eq_true_iff.mpr (Or.inl ((hmem id).mp hid))
    | false =>
      have hsome := ExtTreeMap.mem_iff_isSome_getElem?.mp (h.known id hid)
      obtain rfl : s.client = c := hc
      split
      · rw [Option.isSome_or, hsome, Bool.or_true]
      · exact hsome
  · have hname : (c.load s.dir).2.fileidMap[id]? = some name := hname
    rw [Client.load_map] at hname
    have hbefore : c.fileidMap[id]? = some name → s.names id = some name := by
      intro hget
      cases again with
      | true =>
        rw [← hc] at hget
        simp [Client.new] at hget
      | false =>
        obtain rfl : s.client = c := hc
        exact h.named id name hget
    split at hname
    · rename_i hok
      rcases Option.or_eq_some_iff.mp hname with hfile | ⟨-, hget⟩
      · exact hnames hok (id, name) (ExtTreeMap.mem_toList_iff_getElem?_eq_some.mpr hfile)
      · exact hbefore hget
    · exact hbefore hname

/-- A step that is allowed keeps a name for every id in the index, and what a search returns can be named. -/
theorem Desk.Named.step {s s' : Desk} {op : DeskOp} {out : List Hit} (hn : NoCollision tc log)
    (h : s.Named tc log) (hfit : op.Fits) (hop : s.Allows op) (hlog : s.calls tc op ⊆ log)
    (hstep : s.step tc op = .ok (s', out)) : s'.Named tc log ∧ ∀ hit ∈ out, hit.Right := by
  have hnone : s'.Named tc log ∧ out = [] → s'.Named tc log ∧ ∀ hit ∈ out, hit.Right :=
    fun ⟨h', hout⟩ => ⟨h', by rw [hout]; exact fun _ hhit => absurd hhit List.not_mem_nil⟩
  cases op with
  | setup => exact hnone (h.setup hfit hop hlog hstep)
  | setupFiles => exact hnone (h.setupFiles hfit hop hlog hstep)
  | add => exact hnone (h.add hop hlog hstep)
  | addFile => exact hnone (h.addFile hop hlog hstep)
  | delete fileid words wire =>
    rw [Desk.step] at hstep
    split at hstep
    · cases hstep
      exact hnone ⟨⟨h.yields.delete _, h.known, h.named⟩, rfl⟩
    · cases hstep
      exact hnone ⟨h, rfl⟩
  | search w =>
    obtain ⟨ids, hsearch, hstep⟩ := exists_of_bind_ok hstep
    cases hstep
    refine ⟨h, fun hit hhit => ?_⟩
    obtain ⟨id, hid, rfl⟩ := List.mem_map.mp hhit
    exact h.filename (h.yields.search hn hlog hsearch hid)
  | save =>
    cases hstep
    exact hnone ⟨⟨h.yields, h.known, h.named⟩, rfl⟩
  | load again =>
    have h' := h.load hop
    rw [Desk.step] at hstep
    generalize (if again = true then Client.new else s.client).load s.dir = loaded at hstep h'
    obtain ⟨ok, c⟩ := loaded
    cases hstep
    exact hnone ⟨h', rfl⟩

/-- In every run of a new client and a new server whose steps are allowed, `Filename` gives the name of
    every id that a search returns. -/
theorem Desk.hits_named (tc : Tomcrypt) (dir : ClientDir) {ops : List DeskOp}
    (hfits : ∀ op ∈ ops, op.Fits) (hops : Along (Desk.step tc) Desk.Allows (.start dir) ops)
    (hn : NoCollision tc (runLog (Desk.step tc) (Desk.calls tc) (.start dir) ops)) {s : Desk}
    {hits : List Hit} (hrun : runs (Desk.step tc) (.start dir) ops = .ok (s, hits)) :
    ∀ hit ∈ hits, hit.Right := by
  have hstart : (Desk.start dir).Named tc
      (runLog (Desk.step tc) (Desk.calls tc) (.start dir) ops) := by
    refine ⟨Core.yields_new, fun id hid => absurd hid List.not_mem_nil, fun id name hname => ?_⟩
    simp [Desk.start, Client.new] at hname
  have hall : Along (Desk.step tc) (fun s op => s.Allows op ∧ op.Fits ∧ s.calls tc op ⊆
      runLog (Desk.step tc) (Desk.calls tc) (.start dir) ops) (.start dir) ops :=
    hops.and ((Along.of_forall fun _ op hop => hfits op hop).and (along_uses (List.Subset.refl _)))
  refine (runs_outputs ?_ hstart hall hrun).2
  rintro s op s' out h ⟨hop, hfit, hlog⟩ hstep
  exact h.step hn hfit hop hlog hstep

/-- SetupFiles, a file by name, an Add of a known id and a restart, with searches. -/
def sampleDeskOps : List DeskOp :=
  [.setupFiles Version.Basic.toInt Core.new.keys sampleFiles [[97]] .ok,
    .addFile (fun _ _ => 0) sampleFiles [97] .ok, .add (fun _ _ => 0) 1 [[119]] .ok, .search [120], .save,
    .load true, .delete 1 [[120]] .ok, .search [119], .search [120]]

theorem Desk.hits_named_sample :
    ∃ s hits, runs (Desk.step standIn) (.start fun _ => none) sampleDeskOps = .ok (s, hits) ∧
      hits.map (fun hit => (hit.1, hit.2.2)) =
        [(1, some [97]), (2, some [97]), (1, some [97]), (2, some [97])] ∧
      ∀ hit ∈ hits, hit.Right := by
  have hrun : (runs (Desk.step standIn) (.start fun _ => none) sampleDeskOps).map (fun r => decide
      (r.2.map (fun hit => (hit.1, hit.2.2)) =
          [(1, some [97]), (2, some [97]), (1, some [97]), (2, some [97])] ∧
        Along (Desk.step standIn) Desk.Allows (.start fun _ => none) sampleDeskOps)) = .ok true := by
    decide +kernel
  have hn : NoCollision standIn (runLog (Desk.step standIn) (Desk.calls standIn) (.start fun _ => none)
      sampleDeskOps) := by decide +kernel
  have hfits : ∀ op ∈ sampleDeskOps, op.Fits := by decide +kernel
  obtain ⟨⟨s, hits⟩, hok, h⟩ := exists_of_map_ok hrun
  obtain ⟨hids, hops⟩ := of_decide_eq_true h
  exact ⟨s, hits, hok, hids, Desk.hits_named standIn _ hfits hops hn hok⟩

/-- A Setup with the postings of the caller, as the command line makes it: the id that the search returns
    has no name, and the lookup is an exception. -/
theorem Desk.hit_throws :
    (runs (Desk.step standIn) (.start fun _ => none)
      [.setup Version.Basic.toInt Core.new.keys [[97]] ((∅ : Postings).insert [97] [1]) .ok,
        .search [97]]).toOption.map Prod.snd = some [(1, .error .throw, none)] ∧
    ¬ Hit.Right (1, .error .throw, none) := by
  refine ⟨by decide +kernel, fun h => ?_⟩
  rw [Hit.Right] at h
  cases h

end DSSE
