import DSSE.Index
import DSSE.PlainIndex

/-! The encrypted index refines the plain one. `Tracks` ties the server's `Dplus` and `Srev` to the
    added ids and the revocations of a plain index, `Keeps` adds the client's counters and `Refines` the
    index that Setup made. Add and Delete keep all three, and a search gives what the plain index
    gives. -/

namespace DSSE
open Schemes Std

variable (tc : Tomcrypt)

/-- A ciphertext of an id, with whatever bytes the sender left behind it. -/
def Encrypts (K2 d : Bytes) (id : UInt64) : Prop := ∃ surplus, d = encryptLong tc K2 id ++ surplus

/-- The server keeps what was added to and revoked in `ix`, encrypted under `keys`. -/
structure Tracks (log : List MacCall) (keys : Keys) (server : Core) (ix : PlainIndex Bytes UInt64) :
    Prop where
  added : ∃ cts, Filed tc log keys.kplus server.Dplus cts ∧
    ∀ w, List.Forall₂ (Encrypts tc (macKey tc keys.kplus 0x32 w)) (cts w) (ix.added w)
  srev : ∀ r, r ∈ server.Srev ↔ ∃ q ∈ ix.revoked, derived tc keys.kminus q.1 q.2 = r
  revoked : ∀ q ∈ ix.revoked, NulFree q.1 ∧ derivedCalls tc keys.kminus q.1 q.2 ⊆ log

/-- The client's counters are those of the server's lists. -/
structure Keeps (log : List MacCall) (p : Pair) (ix : PlainIndex Bytes UInt64) : Prop where
  tracks : Tracks tc log p.client.keys p.server ix
  counts : ∀ w, p.client.count w = UInt64.ofNat (ix.added w).length

/-- A client and a server that keep the plain index `ix` between them, in the layout of version `v`. -/
structure Refines (log : List MacCall) (v : Version) (lay : Layout) (p : Pair)
    (ix : PlainIndex Bytes UInt64) : Prop extends Keeps tc log p ix where
  version : p.server.version = v.toInt
  index : ∀ w, NulFree w → ∃ outs,
    Meets tc lay log p.client.key p.server.D p.server.A w outs ∧ outs.flatten = ix.base w

/-- The part of the server's state that only Setup writes. -/
structure SameIndex (server server' : Core) : Prop where
  version : server'.version = server.version
  D : server'.D = server.D
  A : server'.A = server.A

theorem SameIndex.refl (server : Core) : SameIndex server server := ⟨rfl, rfl, rfl⟩

theorem SameIndex.trans {s s' s'' : Core} (h : SameIndex s s') (h' : SameIndex s' s'') :
    SameIndex s s'' :=
  ⟨h'.version.trans h.version, h'.D.trans h.D, h'.A.trans h.A⟩

variable {tc} {log : List MacCall} {lay : Layout} {v : Version} {keys : Keys} {server : Core}
  {p : Pair} {ix : PlainIndex Bytes UInt64}

theorem Tracks.mono (hs : Tracks tc log keys server ix) {log' : List MacCall} (hsub : log ⊆ log') :
    Tracks tc log' keys server ix := by
  obtain ⟨⟨cts, hfiled, henc⟩, hsrev, hrevoked⟩ := hs
  refine ⟨⟨cts, hfiled.mono hsub, henc⟩, hsrev, fun q hq => ?_⟩
  exact ⟨(hrevoked q hq).1, List.Subset.trans (hrevoked q hq).2 hsub⟩

theorem Tracks.mem_srev (hs : Tracks tc log keys server ix) (hn : NoCollision tc log) {w : Bytes}
    {id : UInt64} (hw : NulFree w) (hlog : derivedCalls tc keys.kminus w id ⊆ log) :
    derived tc keys.kminus w id ∈ server.Srev ↔ (w, id) ∈ ix.revoked := by
  rw [hs.srev]
  constructor
  · rintro ⟨⟨u, i⟩, hq, he⟩
    obtain ⟨hu, hcalls⟩ := hs.revoked _ hq
    obtain ⟨rfl, rfl⟩ := derived_inj_word hn hu hw hcalls hlog he
    exact hq
  · rintro hq
    exact ⟨(w, id), hq, rfl⟩

/-! ### Search -/

theorem idEntry_of_encrypts (core : Core) (K2 K1minus d : Bytes) (id : UInt64)
    (h : Encrypts tc K2 d id) :
    idEntry tc core K2 K1minus d = .ok (unrevoked tc core K1minus [id]) := by
  obtain ⟨surplus, rfl⟩ := h
  rw [idEntry, decryptLong_encryptLong]
  cases hr : revoked tc core K1minus id <;>
    simp [bind, Except.bind, pure, Except.pure, unrevoked, hr]

theorem unrevoked_flatten (core : Core) (K1minus : Bytes) (outs : List (List UInt64)) :
    (outs.map (unrevoked tc core K1minus)).flatten = unrevoked tc core K1minus outs.flatten := by
  rw [unrevoked, List.filter_flatten]; rfl

/-- The loop over `D`. -/
theorem Meets.labelLoop {key : Bytes} {D : Dmap} {w : Bytes} {outs : List (List UInt64)}
    (core : Core) (K1minus : Bytes) (hm : Meets tc lay log key D core.A w outs)
    (hkey : macKeyCall key 0x31 w ∈ log) (hD : labelCalls tc D (macKey tc key 0x31 w) ⊆ log) :
    DSSE.labelLoop tc D (macKey tc key 0x31 w) (lay.entry core (macKey tc key 0x32 w) K1minus) =
      .ok (unrevoked tc core K1minus outs.flatten) := by
  obtain ⟨cts, hit, hmiss, hfit, hdec⟩ := hm
  have hit' : ∀ (i : ℕ) d, cts[i]? = some d →
      D[macLong tc (macKey tc key 0x31 w) (UInt64.ofNat (0 + i))]? = some d := by
    intro i d hd
    rw [Nat.zero_add]; exact hit i d hd
  have hlog := derivedCalls_subset_of_hits hit' hfit hkey hD le_rfl
  have hrun : Run (fun c => D[macLong tc (macKey tc key 0x31 w) (UInt64.ofNat c)]?) 0 cts :=
    ⟨hit', by rw [Nat.zero_add]; exact hmiss hlog⟩
  rw [← unrevoked_flatten]
  refine probe_run hrun hfit ?_
  rw [List.forall₂_map_right_iff]
  exact hdec.imp fun d out h => h core K1minus List.prefix_rfl

/-- The loop over `Dplus`. -/
theorem Tracks.labelLoop (hs : Tracks tc log keys server ix) (hn : NoCollision tc log)
    {w : Bytes} (hw : NulFree w) (hkplus : macKeyCall keys.kplus 0x31 w ∈ log)
    (hDplus : labelCalls tc server.Dplus (macKey tc keys.kplus 0x31 w) ⊆ log) (core : Core)
    (K1minus : Bytes) :
    DSSE.labelLoop tc server.Dplus (macKey tc keys.kplus 0x31 w)
      (idEntry tc core (macKey tc keys.kplus 0x32 w) K1minus) =
        .ok (unrevoked tc core K1minus (ix.added w)) := by
  obtain ⟨cts, hfiled, henc⟩ := hs.added
  have hflat : ((ix.added w).map fun id => [id]).flatten = ix.added w := by
    rw [← List.flatMap_def, List.flatMap_singleton']
  rw [← hflat, ← unrevoked_flatten]
  refine hfiled.labelLoop hn hw (hfiled.derivedCalls_subset hkplus hDplus le_rfl) ?_
  rw [List.forall₂_map_right_iff, List.forall₂_map_right_iff]
  exact (henc w).imp fun d id h => idEntry_of_encrypts core _ _ d id h

/-- The result of a search is made of what it meets in `D` and what was added, whatever the revocation
    list of the server is. -/
theorem Tracks.searchServer (hs : Tracks tc log p.client.keys p.server ix) (hlay : v.layout? tc = some lay)
    (hver : p.server.version = v.toInt) (hn : NoCollision tc log) {w : Bytes} (hw : NulFree w)
    {outs : List (List UInt64)} (hm : Meets tc lay log p.client.key p.server.D p.server.A w outs)
    (hlog : p.searchCalls tc w ⊆ log) (Srev : Revlist) :
    DSSE.searchServer tc { p.server with Srev := Srev } (searchClient tc p.client w) =
      .ok (unrevoked tc { p.server with Srev := Srev } (macKey tc p.client.kminus 0x31 w)
        (outs.flatten ++ ix.added w)) := by
  have hclient : searchClientCalls p.client w ⊆ log := fun c hc =>
    hlog (List.mem_append_left _ hc)
  have hserver : searchServerCalls tc p.server (searchClient tc p.client w) ⊆ log := fun c hc =>
    hlog (List.mem_append_right _ hc)
  have hids := Meets.labelLoop { p.server with Srev := Srev } (macKey tc p.client.kminus 0x31 w) hm
    (hclient (by simp [searchClientCalls]))
    (fun c hc => hserver (List.mem_append_left _ (List.mem_append_left _ hc)))
  have hadded := hs.labelLoop hn hw (hclient (by simp [searchClientCalls, Core.keys]))
    (fun c hc => hserver (List.mem_append_left _ (List.mem_append_right _ hc)))
    { p.server with Srev := Srev } (macKey tc p.client.kminus 0x31 w)
  have hversion : ({ p.server with Srev := Srev } : Core).version = v.toInt := hver
  rw [searchServer_layout tc hlay hversion, searchLoops]
  simp only [searchClient, Core.keys] at hids hadded ⊢
  simp only [hids, hadded, bind, Except.bind, pure, Except.pure, unrevoked_append]

/-- A search drops exactly the ids whose pair with the word is revoked in the plain index. -/
theorem Tracks.search (hs : Tracks tc log p.client.keys p.server ix) (hlay : v.layout? tc = some lay)
    (hver : p.server.version = v.toInt) (hn : NoCollision tc log) {w : Bytes} (hw : NulFree w)
    {outs : List (List UInt64)} (hm : Meets tc lay log p.client.key p.server.D p.server.A w outs)
    (hlog : p.searchCalls tc w ⊆ log) :
    p.search tc w = .ok ((outs.flatten ++ ix.added w).filter fun id => (w, id) ∉ ix.revoked) := by
  have hboth := hs.searchServer hlay hver hn hw hm hlog
  have hall : DSSE.searchServer tc { p.server with Srev := ∅ } (searchClient tc p.client w) =
      .ok (outs.flatten ++ ix.added w) := by
    rw [hboth ∅, unrevoked, List.filter_eq_self.mpr fun id _ => by simp [DSSE.revoked]]
  -- the server checks the revocation id of every id of the word, so these are in the log
  have hrev : ∀ id ∈ outs.flatten ++ ix.added w, derivedCalls tc p.client.kminus w id ⊆ log := by
    intro id hid call hcall
    rcases List.mem_cons.mp hcall with rfl | hcall
    · exact hlog (List.mem_append_left _ (by simp [searchClientCalls]))
    · rw [List.mem_singleton.mp hcall]
      refine hlog (List.mem_append_right _ (List.mem_append_right _ ?_))
      rw [hall]
      exact List.mem_map.mpr ⟨id, hid, rfl⟩
  rw [Pair.search, hboth p.server.Srev, unrevoked]
  congr 1
  refine List.filter_congr fun id hid => ?_
  have hmem := hs.mem_srev hn hw (hrev id hid)
  have hrevoked : DSSE.revoked tc p.server (macKey tc p.client.kminus 0x31 w) id = true ↔
      (w, id) ∈ ix.revoked := by
    rw [← hmem, DSSE.revoked, ExtTreeSet.contains_iff_mem]; rfl
  by_cases h : (w, id) ∈ ix.revoked
  · simp [h, hrevoked.mpr h]
  · simp [h, Bool.eq_false_iff.mpr (mt hrevoked.mp h)]

/-- A search gives what the plain index gives. -/
theorem Refines.search (hR : Refines tc log v lay p ix) (hlay : v.layout? tc = some lay)
    (hn : NoCollision tc log) {w : Bytes} (hw : NulFree w) (hlog : p.searchCalls tc w ⊆ log) :
    p.search tc w = .ok (ix.search w) := by
  obtain ⟨outs, hm, hbase⟩ := hR.index w hw
  rw [hR.tracks.search hlay hR.version hn hw hm hlog, hbase]
  rfl

/-! ### Add -/

/-- What one pair of an add says: the word `w` with counter `c`, the file `id`. -/
structure PairFor (tc : Tomcrypt) (log : List MacCall) (keys : Keys) (id : UInt64) (w : Bytes) (c : ℕ)
    (q : AddPair) : Prop where
  token : q.Token = derived tc keys.kplus w (UInt64.ofNat c)
  encrypts : Encrypts tc (macKey tc keys.kplus 0x32 w) q.FileID id
  revid : q.RevID = derived tc keys.kminus w id
  nulFree : NulFree w
  token_logged : derivedCalls tc keys.kplus w (UInt64.ofNat c) ⊆ log
  revid_logged : derivedCalls tc keys.kminus w id ⊆ log

/-- The pair is revoked: the server takes the revocation back and says so. -/
theorem Tracks.revoked_pair (hs : Tracks tc log keys server ix) (hn : NoCollision tc log)
    {id : UInt64} {w : Bytes} {c : ℕ} {q : AddPair} (hq : PairFor tc log keys id w c q)
    (hrev : (w, id) ∈ ix.revoked) :
    ∃ server', addServerPair server q = (server', [1]) ∧ SameIndex server server' ∧
      Tracks tc log keys server' (ix.addWord id w) := by
  have hmem := (hs.mem_srev hn hq.nulFree hq.revid_logged).mpr hrev
  rw [← hq.revid] at hmem
  have hix : ix.addWord id w = { ix with revoked := ix.revoked.erase (w, id) } := if_pos hrev
  refine ⟨_, addServerPair_revoked hmem, ⟨rfl, rfl, rfl⟩, ?_⟩
  rw [hix]
  refine ⟨hs.added, ?_, fun q' hq' => hs.revoked q' (Finset.mem_of_mem_erase hq')⟩
  intro r
  simp only [ExtTreeSet.mem_erase, hs.srev, Finset.mem_erase]
  constructor
  · rintro ⟨hne, q', hq', rfl⟩
    refine ⟨q', ⟨?_, hq'⟩, rfl⟩
    rintro rfl
    exact hne (LawfulEqCmp.compare_eq_iff_eq.mpr hq.revid)
  · rintro ⟨q', ⟨hne, hq'⟩, rfl⟩
    refine ⟨fun he => hne ?_, q', hq', rfl⟩
    have he := LawfulEqCmp.compare_eq_iff_eq.mp he
    rw [hq.revid] at he
    obtain ⟨hu, hcalls⟩ := hs.revoked q' hq'
    obtain ⟨h1, h2⟩ := derived_inj_word hn hu hq.nulFree hcalls hq.revid_logged he.symm
    exact Prod.ext h1 h2

/-- The pair is not revoked and its label is the next one of its word: the server stores it. -/
theorem Tracks.stored_pair (hs : Tracks tc log keys server ix) (hn : NoCollision tc log)
    {id : UInt64} {w : Bytes} {q : AddPair} (hq : PairFor tc log keys id w (ix.added w).length q)
    (hrev : (w, id) ∉ ix.revoked) (hfit : (ix.added w).length + 1 < 2 ^ 64) :
    ∃ server', addServerPair server q = (server', [0]) ∧ SameIndex server server' ∧
      Tracks tc log keys server' (ix.addWord id w) := by
  obtain ⟨cts, hfiled, henc⟩ := hs.added
  have hlen : (cts w).length = (ix.added w).length := (henc w).length_eq
  have hsrev : q.RevID ∉ server.Srev := by
    rw [hq.revid, hs.mem_srev hn hq.nulFree hq.revid_logged]
    exact hrev
  have hfree : q.Token ∉ server.Dplus := by
    have hnone := hfiled.getElem? hn hq.nulFree (c := (ix.added w).length) (by omega) hq.token_logged
    rw [← hlen, List.getElem?_eq_none le_rfl, hlen, ← hq.token] at hnone
    rw [← ExtTreeMap.contains_iff_mem, ExtTreeMap.contains_eq_isSome_getElem?, hnone]
    exact Bool.false_ne_true
  refine ⟨{ server with Dplus := server.Dplus.insert q.Token q.FileID },
    addServerPair_stored hsrev hfree, ⟨rfl, rfl, rfl⟩, ?_⟩
  have hix : ix.addWord id w =
      { ix with added := Function.update ix.added w (ix.added w ++ [id]) } := if_neg hrev
  rw [hix]
  refine ⟨⟨Function.update cts w (cts w ++ [q.FileID]), ?_, fun u => ?_⟩, hs.srev, hs.revoked⟩
  · rw [hq.token, ← hlen]
    refine hfiled.insert hn hq.nulFree (by omega) ?_ q.FileID
    rw [hlen]; exact hq.token_logged
  · rcases eq_or_ne u w with rfl | hu
    · simp only [Function.update_self]
      exact List.rel_append (henc u) (.cons hq.encrypts .nil)
    · simp only [Function.update_of_ne hu]
      exact henc u

/-- The pair is not revoked and its label is taken: the server only logs a warning. -/
theorem Tracks.clash_pair (hs : Tracks tc log keys server ix) (hn : NoCollision tc log)
    {id : UInt64} {w : Bytes} {c : ℕ} {q : AddPair} (hq : PairFor tc log keys id w c q)
    (hrev : (w, id) ∉ ix.revoked) (hc : c < (ix.added w).length) :
    addServerPair server q = (server, []) := by
  obtain ⟨cts, hfiled, henc⟩ := hs.added
  have hlen : (cts w).length = (ix.added w).length := (henc w).length_eq
  have hsrev : q.RevID ∉ server.Srev := by
    rw [hq.revid, hs.mem_srev hn hq.nulFree hq.revid_logged]
    exact hrev
  have htaken : q.Token ∈ server.Dplus := by
    have hsome := hfiled.stores.hit w c (cts w)[c] (List.getElem?_eq_getElem (by omega))
    rw [← hq.token] at hsome
    rw [← ExtTreeMap.contains_iff_mem, ExtTreeMap.contains_eq_isSome_getElem?, hsome]; rfl
  exact addServerPair_taken hsrev htaken

/-- No word has so many added ids that its 64-bit counter wraps. -/
def Fits (ix : PlainIndex Bytes UInt64) : Prop := ∀ w, (ix.added w).length < 2 ^ 64

@[simp] theorem Core.keys_touch (core : Core) (w : Bytes) : (core.touch w).keys = core.keys := rfl

@[simp] theorem Core.keys_bump (core : Core) (w : Bytes) : (core.bump w).keys = core.keys := rfl

@[simp] theorem Core.count_touch (core : Core) (w u : Bytes) :
    (core.touch w).count u = core.count u := by
  simp only [Core.count, Core.touch, ExtTreeMap.getD_insertIfNew]
  split
  · rename_i h
    rw [← LawfulEqCmp.compare_eq_iff_eq.mp h.1, ExtTreeMap.getD_eq_fallback h.2]
  · rfl

theorem Core.count_bump (core : Core) (w u : Bytes) :
    (core.bump w).count u = if u = w then core.count w + 1 else core.count u := by
  simp only [Core.count, Core.bump, ExtTreeMap.getD_insert, LawfulEqCmp.compare_eq_iff_eq]
  exact if_congr eq_comm rfl rfl

/-- The loop over the words makes a pair for each word from the counters before the loop. -/
theorem addTokenPairs_spec (tc : Tomcrypt) (stack : Stack) (id : UInt64) : ∀ (words : List Bytes) (core : Core)
    (i : ℕ),
    (addTokenPairs tc stack id core i words).1.keys = core.keys ∧
      (∀ u, (addTokenPairs tc stack id core i words).1.count u = core.count u) ∧
      (addTokenPairs tc stack id core i words).2.map (·.w) = words ∧
      ∀ q ∈ (addTokenPairs tc stack id core i words).2, ∃ surplus,
        surplus.length = ENCRYPTED_BLOCK_SIZE - ENCRYPTED_FILEID_SIZE ∧
          q = addTokenPair tc core id surplus q.w
  | [], core, _ => ⟨rfl, fun _ => rfl, rfl, by simp [addTokenPairs]⟩
  | w :: words, core, i => by
    obtain ⟨hkeys, hcount, hw, hpairs⟩ := addTokenPairs_spec tc stack id words (core.touch w) (i + 1)
    rw [addTokenPairs]
    refine ⟨hkeys, fun u => (hcount u).trans (core.count_touch w u), by simp [hw, addTokenPair], ?_⟩
    intro q hq
    rcases List.mem_cons.mp hq with rfl | hq
    · exact ⟨_, by simp, rfl⟩
    · obtain ⟨surplus, hlen, he⟩ := hpairs q hq
      refine ⟨surplus, hlen, he.trans ?_⟩
      rw [addTokenPair, addTokenPair, Core.count_touch]
      rfl

theorem ofNat_succ (n : ℕ) : UInt64.ofNat (n + 1) = UInt64.ofNat n + 1 := by
  rw [UInt64.ofNat_add]; rfl

/-- The server's loop over the pairs and the client's loop over the flags, side by side: each pair
    moves the plain index by its word. -/
theorem Tracks.addServer (hn : NoCollision tc log) {id : UInt64} : ∀ (L : List TokenPair)
    (client : Core) {server : Core} {ix : PlainIndex Bytes UInt64}, Tracks tc log keys server ix →
    (∀ w, client.count w = UInt64.ofNat (ix.added w).length) →
    (∀ q ∈ L, PairFor tc log keys id q.w (ix.added q.w).length ⟨q.l, q.d, q.r⟩) →
    ix.Single id (L.map (·.w)) → Fits (ix.add id (L.map (·.w))) →
    ∃ server' client' r, DSSE.addServer server (L.map fun q => ⟨q.l, q.d, q.r⟩) = (server', r) ∧
      addClient2 client r (L.map (·.w)) = .ok client' ∧ SameIndex server server' ∧
      client'.keys = client.keys ∧ Tracks tc log keys server' (ix.add id (L.map (·.w))) ∧
      ∀ w, client'.count w = UInt64.ofNat ((ix.add id (L.map (·.w))).added w).length
  | [], client, server, ix, hs, hcount, _, _, _ =>
    ⟨server, client, [], rfl, rfl, .refl server, rfl, hs, hcount⟩
  | q :: L, client, server, ix, hs, hcount, hpairs, hsingle, hfit => by
    have hq := hpairs q List.mem_cons_self
    rw [List.map_cons] at hsingle hfit
    rw [List.map_cons, List.map_cons, DSSE.addServer, PlainIndex.add_cons]
    by_cases hrev : (q.w, id) ∈ ix.revoked
    · obtain ⟨server₁, hstep, hsame, hs₁⟩ := hs.revoked_pair hn hq hrev
      have hadded : (ix.addWord id q.w).added = ix.added := by rw [PlainIndex.addWord, if_pos hrev]
      obtain ⟨server', client', r, hserver, hclient, hsame', hkeys', hs', hcount'⟩ :=
        Tracks.addServer hn L client hs₁ (by rw [hadded]; exact hcount)
          (by rw [hadded]; exact fun q' hq' => hpairs q' (List.mem_cons_of_mem _ hq'))
          hsingle.tail hfit
      rw [hstep]
      simp only [hserver]
      exact ⟨server', client', 1 :: r, rfl, hclient, hsame.trans hsame', hkeys', hs', hcount'⟩
    · have hadded : ∀ u, (ix.addWord id q.w).added u =
          if u = q.w then ix.added u ++ [id] else ix.added u := by
        intro u
        rw [PlainIndex.addWord_added]
        simp only [hrev, not_false_eq_true, and_true]
      have hlt : (ix.added q.w).length + 1 < 2 ^ 64 := by
        have hle := PlainIndex.length_added_add_le id (L.map (·.w)) (ix.addWord id q.w) q.w
        have := hfit q.w
        rw [PlainIndex.add_cons] at this
        rw [hadded, if_pos rfl, List.length_append, List.length_singleton] at hle
        omega
      obtain ⟨server₁, hstep, hsame, hs₁⟩ := hs.stored_pair hn hq hrev hlt
      -- a word that was appended does not come again, so the other labels are still right
      have hrest : ∀ q' ∈ L, PairFor tc log keys id q'.w ((ix.addWord id q.w).added q'.w).length
          ⟨q'.l, q'.d, q'.r⟩ := by
        intro q' hq'
        have hne : q'.w ≠ q.w := by
          rintro he
          exact hsingle.notMem hrev (he ▸ List.mem_map_of_mem hq')
        rw [hadded, if_neg hne]
        exact hpairs q' (List.mem_cons_of_mem _ hq')
      have hbump : ∀ u, (client.bump q.w).count u =
          UInt64.ofNat ((ix.addWord id q.w).added u).length := by
        intro u
        rw [Core.count_bump, hadded]
        split
        · rename_i hu
          rw [hu, hcount, List.length_append, List.length_singleton, ofNat_succ]
        · exact hcount u
      obtain ⟨server', client', r, hserver, hclient, hsame', hkeys', hs', hcount'⟩ :=
        Tracks.addServer hn L (client.bump q.w) hs₁ hbump hrest hsingle.tail hfit
      rw [hstep]
      simp only [hserver]
      exact ⟨server', client', 0 :: r, rfl, hclient, hsame.trans hsame', hkeys', hs', hcount'⟩

theorem derivedCalls_subset_addCalls (tc : Tomcrypt) (core : Core) (id : UInt64)
    {words : List Bytes} {w : Bytes} (hw : w ∈ words) :
    derivedCalls tc core.kplus w (core.count w) ⊆ addCalls tc core id words ∧
      derivedCalls tc core.kminus w id ⊆ addCalls tc core id words := by
  constructor <;> intro call hcall <;> refine List.mem_flatMap.mpr ⟨w, hw, ?_⟩ <;>
    rcases List.mem_cons.mp hcall with rfl | hcall
  · simp
  · rw [List.mem_singleton.mp hcall]; simp
  · simp
  · rw [List.mem_singleton.mp hcall]; simp

theorem derivedCalls_subset_deleteCalls {core : Core} {id : UInt64} {words : List Bytes} {w : Bytes}
    (hw : w ∈ words) : derivedCalls tc core.kminus w id ⊆ deleteCalls tc core id words :=
  fun _ hcall => List.mem_flatMap.mpr ⟨w, hw, hcall⟩

/-- What AddClient hands over: a pair for each word, from the counters before it. -/
theorem addClient_spec (core : Core) (stack : Stack) {id : UInt64} {words : List Bytes}
    (hw : ∀ w ∈ words, NulFree w) (hlog : addCalls tc core id words ⊆ log) {c : Bytes → ℕ}
    (hc : ∀ w, core.count w = UInt64.ofNat (c w)) :
    ∃ (core' : Core) (L : List TokenPair), addClient tc core stack id words =
        (core', L.map fun q => ⟨q.l, q.d, q.r⟩, L.map (·.w)) ∧
      core'.keys = core.keys ∧ (∀ w, core'.count w = core.count w) ∧
      (L.map (·.w)).Perm words ∧
      ∀ q ∈ L, PairFor tc log core.keys id q.w (c q.w) ⟨q.l, q.d, q.r⟩ := by
  obtain ⟨core', L, hL⟩ : ∃ core' L, addTokenPairs tc stack id core 0 words = (core', L) :=
    ⟨_, _, rfl⟩
  obtain ⟨hkeys, hcount, hwords, hpairs⟩ := addTokenPairs_spec tc stack id words core 0
  rw [hL] at hkeys hcount hwords hpairs
  have hperm : (sortTokenPairs L).Perm L := List.perm_insertionSort _ L
  refine ⟨core', sortTokenPairs L, by rw [addClient, hL], hkeys, hcount, hwords ▸ hperm.map _, ?_⟩
  intro q hq
  have hqL := hperm.mem_iff.mp hq
  obtain ⟨surplus, -, he⟩ := hpairs q hqL
  have hqw : q.w ∈ words := hwords ▸ List.mem_map_of_mem hqL
  obtain ⟨htoken, hrevid⟩ := derivedCalls_subset_addCalls tc core id hqw
  refine ⟨?_, ⟨surplus, ?_⟩, ?_, hw _ hqw, ?_, ?_⟩
  · rw [← hc]; exact congrArg TokenPair.l he
  · exact congrArg TokenPair.d he
  · exact congrArg TokenPair.r he
  · rw [← hc]; exact List.Subset.trans htoken hlog
  · exact List.Subset.trans hrevid hlog

/-- An add moves the plain index as long as it appends no word twice. -/
theorem Keeps.add (hk : Keeps tc log p ix) (hn : NoCollision tc log) (stack : Stack)
    {id : UInt64} {words : List Bytes} (hw : ∀ w ∈ words, NulFree w) (hsingle : ix.Single id words)
    (hfit : Fits (ix.add id words)) (hlog : addCalls tc p.client id words ⊆ log) :
    ∃ p', p.add tc stack id words = .ok p' ∧ p'.client.keys = p.client.keys ∧
      SameIndex p.server p'.server ∧ Keeps tc log p' (ix.add id words) := by
  obtain ⟨client₁, L, hclient₁, hkeys, hcount, hpermw, hfor⟩ :=
    addClient_spec p.client stack hw hlog hk.counts
  have hadd : ix.add id (L.map (·.w)) = ix.add id words := PlainIndex.add_perm hpermw ix id
  obtain ⟨server', client', r, hserver, hclient, hsame, hkeys', hs', hcount'⟩ :=
    Tracks.addServer hn L client₁ hk.tracks (fun u => (hcount u).trans (hk.counts u)) hfor
      (hsingle.perm hpermw.symm) (hadd ▸ hfit)
  rw [hadd] at hs' hcount'
  refine ⟨⟨client', server'⟩, ?_, hkeys'.trans hkeys, hsame, ?_, hcount'⟩
  · rw [Pair.add, hclient₁]
    simp only [hserver, hclient, bind, Except.bind, pure, Except.pure]
  · rw [hkeys', hkeys]; exact hs'

theorem Refines.of_sameIndex (hR : Refines tc log v lay p ix) {p' : Pair}
    {ix' : PlainIndex Bytes UInt64} (hk : Keeps tc log p' ix')
    (hkeys : p'.client.keys = p.client.keys) (hsame : SameIndex p.server p'.server)
    (hbase : ix'.base = ix.base) : Refines tc log v lay p' ix' := by
  refine ⟨hk, hsame.version.trans hR.version, fun w hw => ?_⟩
  have hkey : p'.client.key = p.client.key := congrArg Keys.key hkeys
  rw [hkey, hsame.D, hsame.A, hbase]
  exact hR.index w hw

theorem Refines.add (hR : Refines tc log v lay p ix) (hn : NoCollision tc log) (stack : Stack)
    {id : UInt64} {words : List Bytes} (hw : ∀ w ∈ words, NulFree w) (hsingle : ix.Single id words)
    (hfit : Fits (ix.add id words)) (hlog : addCalls tc p.client id words ⊆ log) :
    ∃ p', p.add tc stack id words = .ok p' ∧ Refines tc log v lay p' (ix.add id words) := by
  obtain ⟨p', hadd, hkeys, hsame, hk⟩ := hR.toKeeps.add hn stack hw hsingle hfit hlog
  exact ⟨p', hadd, hR.of_sameIndex hk hkeys hsame (PlainIndex.add_base id words ix)⟩

/-! ### Delete -/

theorem mem_deleteClient (core : Core) (id : UInt64) (words : List Bytes) (r : Bytes) :
    r ∈ deleteClient tc core id words ↔ ∃ w ∈ words, derived tc core.kminus w id = r := by
  rw [deleteClient, List.mem_insertionSort, List.mem_map]; rfl

/-- A delete revokes its pairs in the plain index. -/
theorem Tracks.delete (hs : Tracks tc log keys server ix) (core : Core) (hkeys : core.keys = keys)
    {id : UInt64} {words : List Bytes} (hw : ∀ w ∈ words, NulFree w)
    (hlog : deleteCalls tc core id words ⊆ log) :
    Tracks tc log keys (deleteServer server (deleteClient tc core id words))
      (ix.delete id words) := by
  subst hkeys
  refine ⟨hs.added, ?_, ?_⟩
  · intro r
    have hold := hs.srev r
    simp only [deleteServer, mem_foldl_insert, mem_deleteClient, hold,
      PlainIndex.mem_revoked_delete]
    constructor
    · rintro (⟨q, hq, rfl⟩ | ⟨w, hw, rfl⟩)
      · exact ⟨q, Or.inl hq, rfl⟩
      · exact ⟨(w, id), Or.inr ⟨hw, rfl⟩, rfl⟩
    · rintro ⟨q, hq | ⟨hq, hid⟩, rfl⟩
      · exact Or.inl ⟨q, hq, rfl⟩
      · exact Or.inr ⟨q.1, hq, by rw [hid]; rfl⟩
  · rintro q hq
    rcases (PlainIndex.mem_revoked_delete ix id words q).mp hq with hq | ⟨hq, hid⟩
    · exact hs.revoked q hq
    · rw [hid]
      exact ⟨hw _ hq, List.Subset.trans (derivedCalls_subset_deleteCalls hq) hlog⟩

theorem Keeps.delete (hk : Keeps tc log p ix) {id : UInt64} {words : List Bytes}
    (hw : ∀ w ∈ words, NulFree w) (hlog : deleteCalls tc p.client id words ⊆ log) :
    Keeps tc log (p.delete tc id words) (ix.delete id words) :=
  ⟨hk.tracks.delete p.client rfl hw hlog, hk.counts⟩

theorem Refines.delete (hR : Refines tc log v lay p ix) {id : UInt64} {words : List Bytes}
    (hw : ∀ w ∈ words, NulFree w) (hlog : deleteCalls tc p.client id words ⊆ log) :
    Refines tc log v lay (p.delete tc id words) (ix.delete id words) :=
  hR.of_sameIndex (hR.toKeeps.delete hw hlog) rfl ⟨rfl, rfl, rfl⟩ rfl

/-! ### Setup -/

/-- The index that a Setup leaves on the server. -/
theorem Pair.setup_built (hlay : v.layout? tc = some lay) {p p' : Pair} {keys : Keys}
    {tokens : List Bytes} {fileids : Postings}
    (h : p.setup tc v.toInt keys tokens fileids = .ok p')
    (hfit : postingsTotal fileids tokens < INVALID.toNat) :
    p'.server.version = v.toInt ∧ ∃ entries, Built tc lay (setupCalls tc v.toInt keys tokens fileids) keys.key fileids tokens
        p'.server.D p'.server.A entries := by
  rw [Pair.setup, setupClient_layout tc hlay] at h
  cases hidx : setupIndex tc lay.encode lay.dlen p.client keys tokens fileids with
  | error e => rw [hidx] at h; simp [bind, Except.bind, Except.map] at h
  | ok r =>
    obtain ⟨client, L, M⟩ := r
    rw [hidx] at h
    simp only [bind, Except.bind, Except.map, pure, Except.pure, Except.ok.injEq] at h
    obtain ⟨rfl, entries, hbuilt, -⟩ := setupIndex_built tc (layout_right tc hlay) hidx hfit
    subst h
    refine ⟨rfl, entries, ?_⟩
    rw [setupCalls_layout hlay]
    exact hbuilt

theorem Pair.setup_version {version : ℤ} {p p' : Pair} {keys : Keys} {tokens : List Bytes}
    {fileids : Postings} (h : p.setup tc version keys tokens fileids = .ok p') :
    ∃ v lay, Version.layout? tc v = some lay ∧ version = v.toInt := by
  rw [Pair.setup] at h
  cases hs : setupClient tc version p.client keys tokens fileids with
  | error e => rw [hs] at h; simp [bind, Except.bind] at h
  | ok r => exact setupClient_version tc hs

/-- What every Setup that returns leaves, whatever its version and tokens are. -/
theorem Pair.setup_state {version : ℤ} {p p' : Pair} {keys : Keys} {tokens : List Bytes}
    {fileids : Postings} (h : p.setup tc version keys tokens fileids = .ok p') :
    p'.client.keys = keys ∧ p'.client.Dcount = p.client.Dcount ∧ p'.server.Dplus = ∅ ∧
      p'.server.Srev = p.server.Srev := by
  rw [Pair.setup] at h
  cases hs : setupClient tc version p.client keys tokens fileids with
  | error e => rw [hs] at h; simp [bind, Except.bind] at h
  | ok r =>
    rw [hs] at h
    cases h
    obtain ⟨hkeys, -, hcount⟩ := setupClient_state hs
    exact ⟨hkeys, hcount, rfl, rfl⟩

theorem Pair.count_of_setup {version : ℤ} {keys : Keys} {tokens : List Bytes} {fileids : Postings}
    {p p' : Pair} (h : p.setup tc version keys tokens fileids = .ok p') (w : Bytes) :
    p'.client.count w = p.client.count w := by
  rw [Core.count, Core.count, (Pair.setup_state h).2.1]

/-- Setup succeeds exactly when every token has a posting list. -/
theorem Pair.setup_ok (hlay : v.layout? tc = some lay) (p : Pair) (keys : Keys)
    (tokens : List Bytes) (fileids : Postings) :
    (∃ p', p.setup tc v.toInt keys tokens fileids = .ok p') ↔ ∀ w ∈ tokens, w ∈ fileids := by
  rw [← indexTokens_ok tc lay.encode keys.key fileids tokens [], Pair.setup,
    setupClient_layout tc hlay, setupIndex]
  cases indexTokens tc lay.encode keys.key fileids tokens [] <;>
    simp [bind, Except.bind, Except.map, pure, Except.pure]

/-- Without a posting list for every token, Setup ends in the exception of `fileids.at`. -/
theorem Pair.setup_throws (hlay : v.layout? tc = some lay) (p : Pair) (keys : Keys)
    {tokens : List Bytes} {fileids : Postings} (h : ¬ ∀ w ∈ tokens, w ∈ fileids) :
    p.setup tc v.toInt keys tokens fileids = .error .throw := by
  rw [← indexTokens_ok tc lay.encode keys.key fileids tokens []] at h
  rw [Pair.setup, setupClient_layout tc hlay, setupIndex]
  cases hidx : indexTokens tc lay.encode keys.key fileids tokens [] with
  | error e => rw [indexTokens_error tc lay.encode keys.key fileids tokens [] hidx]; rfl
  | ok r => exact absurd ⟨r, hidx⟩ h

/-- What was added and revoked is nothing after a Setup on a server without revocations. -/
theorem Tracks.ofBase (hDplus : server.Dplus = ∅) (hSrev : server.Srev = ∅)
    (base : Bytes → List UInt64) : Tracks tc log keys server (.ofBase base) := by
  refine ⟨⟨fun _ => [], ?_, fun _ => .nil⟩, fun r => ?_, by simp [PlainIndex.ofBase]⟩
  · rw [hDplus]; exact filed_empty tc log keys.kplus
  · rw [hSrev]; simp [PlainIndex.ofBase]

/-- A Setup on a fresh pair leaves nothing added and nothing counted. -/
theorem Keeps.setup {version : ℤ} {keys : Keys} {tokens : List Bytes} {fileids : Postings} {p₀ : Pair}
    (hsetup : Pair.fresh.setup tc version keys tokens fileids = .ok p₀) (base : Bytes → List UInt64) :
    p₀.client.keys = keys ∧ Keeps tc log p₀ (.ofBase base) := by
  obtain ⟨hkeys, -, hDplus, hSrev⟩ := Pair.setup_state hsetup
  refine ⟨hkeys, Tracks.ofBase hDplus hSrev base, fun w => ?_⟩
  rw [Pair.count_of_setup hsetup]
  simp [Pair.fresh, Core.new, Core.count, PlainIndex.ofBase]

end DSSE
