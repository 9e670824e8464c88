import DSSE.Updates
import DSSE.Frame

/-! A second Setup on a client and a server that are in use, compared with the same Setup on fresh ones.
    Setup replaces the keys, the index and the added ids. It leaves the client's counters and the
    server's revocations as they are: the revocations cannot matter unless an HMAC output collides with
    one of them, the counters do. -/

namespace DSSE
open Schemes Std

variable {tc : Tomcrypt} {W : Set Bytes} {left : Revlist}

/-- Servers that agree up to revocations `left` over from before a Setup. -/
structure AlikeServers (left : Revlist) (s t : Core) : Prop where
  version : t.version = s.version
  D : t.D = s.D
  A : t.A = s.A
  Dplus : t.Dplus = s.Dplus
  srev : ∀ r, r ∈ t.Srev ↔ r ∈ s.Srev ∨ r ∈ left

/-- Clients with the same keys and the same counters for the words in `W`. -/
structure AlikeClients (W : Set Bytes) (c d : Core) : Prop where
  keys : d.keys = c.keys
  counts : ∀ w ∈ W, d.count w = c.count w

structure Alike (W : Set Bytes) (left : Revlist) (p q : Pair) : Prop where
  clients : AlikeClients W p.client q.client
  servers : AlikeServers left p.server q.server

/-- No computation has the value of a leftover revocation. -/
def Unmixed (tc : Tomcrypt) (left : Revlist) (calls : List MacCall) : Prop :=
  ∀ c ∈ calls, tc.mac c ∉ left

instance (left : Revlist) (calls : List MacCall) : Decidable (Unmixed tc left calls) :=
  inferInstanceAs (Decidable (∀ c ∈ calls, tc.mac c ∉ left))

/-! ### Add -/

theorem AlikeServers.addServerPair {s t : Core} (h : AlikeServers left s t) {q : AddPair}
    (hq : q.RevID ∉ left) :
    (DSSE.addServerPair t q).2 = (DSSE.addServerPair s q).2 ∧
      AlikeServers left (DSSE.addServerPair s q).1 (DSSE.addServerPair t q).1 := by
  have hrev : t.Srev.contains q.RevID = s.Srev.contains q.RevID := by
    rw [Bool.eq_iff_iff, ExtTreeSet.contains_iff_mem, ExtTreeSet.contains_iff_mem, h.srev]
    exact or_iff_left hq
  unfold DSSE.addServerPair
  rw [hrev, h.Dplus]
  split
  · refine ⟨rfl, h.version, h.D, h.A, rfl, fun r => ?_⟩
    simp only [ExtTreeSet.mem_erase, h.srev]
    constructor
    · rintro ⟨hne, hr | hr⟩
      · exact Or.inl ⟨hne, hr⟩
      · exact Or.inr hr
    · rintro (⟨hne, hr⟩ | hr)
      · exact ⟨hne, Or.inl hr⟩
      · refine ⟨?_, Or.inr hr⟩
        rintro he
        exact hq (LawfulEqCmp.compare_eq_iff_eq.mp he ▸ hr)
  · split
    · exact ⟨rfl, h⟩
    · exact ⟨rfl, h.version, h.D, h.A, rfl, h.srev⟩

theorem AlikeServers.addServer (L : List AddPair) {s t : Core} (h : AlikeServers left s t)
    (hL : ∀ q ∈ L, q.RevID ∉ left) :
    (DSSE.addServer t L).2 = (DSSE.addServer s L).2 ∧
      AlikeServers left (DSSE.addServer s L).1 (DSSE.addServer t L).1 := by
  induction L generalizing s t with
  | nil => exact ⟨rfl, h⟩
  | cons q L ih =>
    obtain ⟨hflags, h₁⟩ := h.addServerPair (hL q List.mem_cons_self)
    obtain ⟨hrest, h₂⟩ := ih h₁ fun q' hq' => hL q' (List.mem_cons_of_mem _ hq')
    rw [DSSE.addServer, DSSE.addServer]
    exact ⟨congrArg₂ _ hflags hrest, h₂⟩

/-- The pairs of an add come from the keys and the counters of its words. -/
theorem addTokenPairs_congr (tc : Tomcrypt) (stack : Stack) (id : UInt64) (words : List Bytes) :
    ∀ {c d : Core} (i : ℕ), AlikeClients W c d → (∀ w ∈ words, w ∈ W) →
      (addTokenPairs tc stack id d i words).2 = (addTokenPairs tc stack id c i words).2 := by
  induction words with
  | nil => intros; rfl
  | cons w words ih =>
    intro c d i h hW
    have htouch : AlikeClients W (c.touch w) (d.touch w) :=
      ⟨h.keys, fun u hu => by rw [Core.count_touch, Core.count_touch, h.counts u hu]⟩
    have hkplus : d.kplus = c.kplus := congrArg Keys.kplus h.keys
    have hkminus : d.kminus = c.kminus := congrArg Keys.kminus h.keys
    rw [addTokenPairs, addTokenPairs]
    simp only
    rw [ih (i + 1) htouch fun u hu => hW u (List.mem_cons_of_mem _ hu), addTokenPair, addTokenPair,
      hkplus, hkminus, h.counts w (hW w List.mem_cons_self)]

/-- Both clients count the same flags, and fail together where a flag has no word. -/
theorem AlikeClients.addClient2 (r : List UInt8) : ∀ {words : List Bytes} {c d : Core},
    AlikeClients W c d → (∀ w ∈ words, w ∈ W) →
    (∃ c' d', DSSE.addClient2 c r words = .ok c' ∧ DSSE.addClient2 d r words = .ok d' ∧
      AlikeClients W c' d') ∨
    ∃ e, DSSE.addClient2 c r words = .error e ∧ DSSE.addClient2 d r words = .error e := by
  induction r with
  | nil => intro words c d h _; exact Or.inl ⟨c, d, rfl, rfl, h⟩
  | cons flag r ih =>
    intro words c d h hW
    rw [DSSE.addClient2.eq_def c, DSSE.addClient2.eq_def d]
    simp only
    by_cases hflag : flag = 0
    · rw [if_pos hflag, if_pos hflag]
      cases words with
      | nil => exact Or.inr ⟨.throw, rfl, rfl⟩
      | cons w words =>
        have hbump : AlikeClients W (c.bump w) (d.bump w) := by
          refine ⟨h.keys, fun u hu => ?_⟩
          rw [Core.count_bump, Core.count_bump, h.counts w (hW w List.mem_cons_self), h.counts u hu]
        exact ih hbump fun u hu => hW u (List.mem_cons_of_mem _ hu)
    · rw [if_neg hflag, if_neg hflag]
      exact ih h fun u hu => hW u (List.mem_of_mem_tail hu)

theorem Alike.add {p q : Pair} (h : Alike W left p q) (stack : Stack) (id : UInt64)
    {words : List Bytes} (hW : ∀ w ∈ words, w ∈ W)
    (hfree : Unmixed tc left (addCalls tc p.client id words)) :
    InStep (O := List UInt64) (Alike W left) ((p.add tc stack id words).map (·, []))
      ((q.add tc stack id words).map (·, [])) := by
  obtain ⟨c₁, L, hc⟩ : ∃ c₁ L, addTokenPairs tc stack id p.client 0 words = (c₁, L) := ⟨_, _, rfl⟩
  obtain ⟨d₁, L', hd⟩ : ∃ d₁ L', addTokenPairs tc stack id q.client 0 words = (d₁, L') := ⟨_, _, rfl⟩
  have hL : L' = L := by
    have := addTokenPairs_congr tc stack id words 0 h.clients hW
    rwa [hc, hd] at this
  subst hL
  obtain ⟨hckeys, hccount, hwords, hpairs⟩ := addTokenPairs_spec tc stack id words p.client 0
  obtain ⟨hdkeys, hdcount, -, -⟩ := addTokenPairs_spec tc stack id words q.client 0
  rw [hc] at hckeys hccount hwords hpairs
  rw [hd] at hdkeys hdcount
  have hclients : AlikeClients W c₁ d₁ := by
    refine ⟨hdkeys.trans (h.clients.keys.trans hckeys.symm), fun w hw => ?_⟩
    exact (hdcount w).trans ((h.clients.counts w hw).trans (hccount w).symm)
  have hmem : ∀ {q}, q ∈ sortTokenPairs L' → q ∈ L' := (List.mem_insertionSort _).mp
  have hrevids : ∀ x ∈ (sortTokenPairs L').map fun q => (⟨q.l, q.d, q.r⟩ : AddPair),
      x.RevID ∉ left := by
    intro x hx
    obtain ⟨y, hy, rfl⟩ := List.mem_map.mp hx
    obtain ⟨surplus, -, he⟩ := hpairs y (hmem hy)
    have hyw : y.w ∈ words := hwords ▸ List.mem_map_of_mem (hmem hy)
    have hcall := (derivedCalls_subset_addCalls tc p.client id hyw).2
      (List.mem_cons_of_mem _ List.mem_cons_self)
    have hr : y.r = derived tc p.client.kminus y.w id := congrArg TokenPair.r he
    rw [hr]
    exact hfree _ hcall
  have hW' : ∀ w ∈ (sortTokenPairs L').map (·.w), w ∈ W := by
    intro w hw
    obtain ⟨y, hy, rfl⟩ := List.mem_map.mp hw
    exact hW _ (hwords ▸ List.mem_map_of_mem (hmem hy))
  obtain ⟨hflags, hservers⟩ := h.servers.addServer _ hrevids
  rw [Pair.add, Pair.add, addClient, addClient, hc, hd]
  simp only [hflags]
  rcases hclients.addClient2 (DSSE.addServer p.server
      ((sortTokenPairs L').map fun q => (⟨q.l, q.d, q.r⟩ : AddPair))).2 hW' with
    ⟨c', d', hc', hd', hclients'⟩ | ⟨e, hc', hd'⟩
  · simp only [hc', hd', bind, Except.bind, pure, Except.pure, Except.map]
    exact ⟨rfl, hclients', hservers⟩
  · simp only [hc', hd', bind, Except.bind, Except.map]
    exact rfl

/-! ### Delete and search -/

theorem Alike.delete {p q : Pair} (h : Alike W left p q) (id : UInt64) (words : List Bytes) :
    Alike W left (p.delete tc id words) (q.delete tc id words) := by
  have hkminus : q.client.kminus = p.client.kminus := congrArg Keys.kminus h.clients.keys
  refine ⟨h.clients, h.servers.version, h.servers.D, h.servers.A, h.servers.Dplus, fun r => ?_⟩
  simp only [Pair.delete, deleteServer, mem_foldl_insert, deleteClient, hkminus, h.servers.srev]
  tauto

theorem Alike.search {p q : Pair} (h : Alike W left p q) {w : Bytes}
    (hfree : Unmixed tc left (p.searchCalls tc w)) : q.search tc w = p.search tc w := by
  have hk : searchClient tc q.client w = searchClient tc p.client w := by
    have hkey : q.client.key = p.client.key := congrArg Keys.key h.clients.keys
    have hkplus : q.client.kplus = p.client.kplus := congrArg Keys.kplus h.clients.keys
    have hkminus : q.client.kminus = p.client.kminus := congrArg Keys.kminus h.clients.keys
    rw [searchClient, searchClient, hkey, hkplus, hkminus]
  rw [Pair.search, Pair.search, hk, searchServer_filters tc p.server rfl rfl rfl rfl,
    searchServer_filters tc p.server h.servers.version.symm h.servers.D.symm h.servers.A.symm
      h.servers.Dplus.symm]
  cases hs : searchServer tc { p.server with Srev := ∅ } (searchClient tc p.client w) with
  | error e => rfl
  | ok ids =>
    -- the revocation ids of these ids are computed by the search, so none is a leftover
    refine congrArg Except.ok (List.filter_congr fun id hid => ?_)
    have hcall : macLongCall (searchClient tc p.client w).K1minus id ∈ p.searchCalls tc w := by
      refine List.mem_append_right _ (List.mem_append_right _ ?_)
      rw [hs]
      exact List.mem_map.mpr ⟨id, hid, rfl⟩
    have hleft : macLong tc (searchClient tc p.client w).K1minus id ∉ left := hfree _ hcall
    have hiff : revoked tc q.server (searchClient tc p.client w).K1minus id =
        revoked tc p.server (searchClient tc p.client w).K1minus id := by
      rw [revoked, revoked, Bool.eq_iff_iff, ExtTreeSet.contains_iff_mem, ExtTreeSet.contains_iff_mem,
        h.servers.srev]
      exact or_iff_left hleft
    rw [hiff]

/-- An exchange after Setup whose Adds name words in `W` only. -/
def Op.After (W : Set Bytes) : Op → Prop
  | .setup .. => False
  | .add _ _ words => ∀ w ∈ words, w ∈ W
  | _ => True

theorem Alike.step {p q : Pair} (h : Alike W left p q) {op : Op} (hop : op.After W)
    (hfree : Unmixed tc left (p.calls tc op)) :
    InStep (Alike W left) (p.step tc op) (q.step tc op) := by
  cases op with
  | setup => exact hop.elim
  | add stack id words => exact h.add stack id hop hfree
  | delete id words => exact ⟨rfl, h.delete id words⟩
  | search w =>
    rw [Pair.step, Pair.step, h.search hfree]
    cases p.search tc w with
    | error e => exact rfl
    | ok ids => exact ⟨rfl, h⟩

theorem Alike.run {p q : Pair} (h : Alike W left p q) {ops : List Op}
    (hops : ∀ op ∈ ops, op.After W) (hfree : Unmixed tc left (p.runCalls tc ops)) :
    (q.run tc ops).map Prod.snd = (p.run tc ops).map Prod.snd :=
  runs_inStep (fun _ _ _ h hop hfree => h.step hop hfree) ops p q h hops hfree

/-! ### The two Setups -/

/-- What SetupClient sends does not depend on the state it starts from. -/
theorem setupClient_congr {version : ℤ} {core core' c c' : Core} {keys : Keys} {tokens : List Bytes}
    {fileids : Postings} {r r' : List SetupPair × List Bytes}
    (h : setupClient tc version core keys tokens fileids = .ok (c, r))
    (h' : setupClient tc version core' keys tokens fileids = .ok (c', r')) : r' = r := by
  obtain ⟨v, lay, hlay, rfl⟩ := setupClient_version tc h
  rw [setupClient_layout tc hlay, setupIndex] at h h'
  cases hidx : indexTokens tc lay.encode keys.key fileids tokens [] with
  | error e => rw [hidx] at h; simp [bind, Except.bind, Except.map] at h
  | ok q =>
    rw [hidx] at h h'
    simp only [bind, Except.bind, Except.map, pure, Except.pure, Except.ok.injEq,
      Prod.mk.injEq] at h h'
    exact h'.2.symm.trans h.2

/-- After the same Setup a used server is like a fresh one, up to its old revocations. -/
theorem AlikeServers.of_setup {version : ℤ} {p p₁ p₂ : Pair} {keys : Keys} {tokens : List Bytes}
    {fileids : Postings} (h₁ : Pair.fresh.setup tc version keys tokens fileids = .ok p₁)
    (h₂ : p.setup tc version keys tokens fileids = .ok p₂) :
    AlikeServers p.server.Srev p₁.server p₂.server := by
  rw [Pair.setup] at h₁ h₂
  cases hs₁ : setupClient tc version Pair.fresh.client keys tokens fileids with
  | error e => rw [hs₁] at h₁; simp [bind, Except.bind] at h₁
  | ok r₁ =>
    cases hs₂ : setupClient tc version p.client keys tokens fileids with
    | error e => rw [hs₂] at h₂; simp [bind, Except.bind] at h₂
    | ok r₂ =>
      obtain ⟨c₁, L₁, M₁⟩ := r₁
      obtain ⟨c₂, L₂, M₂⟩ := r₂
      obtain ⟨rfl, rfl⟩ : L₂ = L₁ ∧ M₂ = M₁ := Prod.mk.inj (setupClient_congr hs₁ hs₂)
      rw [hs₁] at h₁
      rw [hs₂] at h₂
      cases h₁
      cases h₂
      exact ⟨rfl, rfl, rfl, rfl, fun r => by simp [setupServer, Pair.fresh, Core.new]⟩

/-! ### A word whose counter is left over -/

/-- Add file 0 to a word, then search the word. -/
def probeOps (w : Bytes) : List Op := [.add (fun _ _ => 0) 0 [w], .search w]

/-- The server's answer to the Add of one word while nothing is added or revoked. -/
theorem Pair.add_one {p : Pair} (stack : Stack) (id : UInt64) (w : Bytes) (hDplus : p.server.Dplus = ∅)
    (hSrev : derived tc p.client.kminus w id ∉ p.server.Srev) :
    ∃ d, Encrypts tc (macKey tc p.client.kplus 0x32 w) d id ∧ p.add tc stack id [w] =
      .ok ⟨(p.client.touch w).bump w, { p.server with
        Dplus := p.server.Dplus.insert (derived tc p.client.kplus w (p.client.count w)) d }⟩ := by
  have hsrev : p.server.Srev.contains (macLong tc (macKey tc p.client.kminus 0x31 w) id) = false := by
    rw [Bool.eq_false_iff, ne_eq, ExtTreeSet.contains_iff_mem]
    exact hSrev
  have hfree : p.server.Dplus.contains
      (macLong tc (macKey tc p.client.kplus 0x31 w) (p.client.count w)) = false := by
    rw [hDplus]; simp
  refine ⟨_, ⟨(List.range (ENCRYPTED_BLOCK_SIZE - ENCRYPTED_FILEID_SIZE)).map (stack 0), rfl⟩, ?_⟩
  rw [Pair.add, addClient]
  simp only [addTokenPairs, addTokenPair, sortTokenPairs, List.insertionSort_cons,
    List.insertionSort_nil, List.orderedInsert_nil, List.map_cons, List.map_nil, DSSE.addServer,
    DSSE.addServerPair, hsrev, hfree, bind, Except.bind, pure, Except.pure]
  rfl

/-- A dictionary with one encrypted id under the label of the counter `x`: a search meets it only if
    `x` is 0. -/
theorem labelLoop_one {log : List MacCall} {key w d : Bytes} {x id : UInt64} {dict : Dmap}
    (core : Core) (K1minus : Bytes) (hdict : dict = (∅ : Dmap).insert (derived tc key w x) d)
    (henc : Encrypts tc (macKey tc key 0x32 w) d id) (hn : NoCollision tc log)
    (hstored : derivedCalls tc key w x ⊆ log) (hkey : macKeyCall key 0x31 w ∈ log)
    (hlabels : labelCalls tc dict (macKey tc key 0x31 w) ⊆ log) :
    labelLoop tc dict (macKey tc key 0x31 w) (idEntry tc core (macKey tc key 0x32 w) K1minus) =
      .ok (unrevoked tc core K1minus (if x = 0 then [id] else [])) := by
  have hget : ∀ y, dict[derived tc key w y]? =
      if derived tc key w x = derived tc key w y then some d else none := by
    intro y
    rw [hdict, ExtTreeMap.getElem?_insert]
    simp only [LawfulEqCmp.compare_eq_iff_eq]
    simp
  -- any other counter has another label
  have hother : ∀ y, derivedCalls tc key w y ⊆ log → x ≠ y → dict[derived tc key w y]? = none := by
    intro y hy hne
    rw [hget, if_neg]
    rintro he
    exact hne (derived_inj hn hstored hy he).2.2
  by_cases hzero : x = 0
  · have hit : ∀ (i : ℕ) b, [d][i]? = some b →
        dict[macLong tc (macKey tc key 0x31 w) (UInt64.ofNat (0 + i))]? = some b := by
      intro i b hb
      cases i with
      | zero =>
        cases hb
        exact (hget 0).trans (if_pos (by rw [hzero]))
      | succ i => simp at hb
    have hnext := derivedCalls_subset_of_hits hit (by simp) hkey hlabels (c := 1) le_rfl
    have hrun : Run (fun c => dict[macLong tc (macKey tc key 0x31 w) (UInt64.ofNat c)]?) 0 [d] :=
      ⟨hit, hother 1 hnext (by rw [hzero]; decide)⟩
    have hbody : List.Forall₂ (fun d out => idEntry tc core (macKey tc key 0x32 w) K1minus d = .ok out)
        [d] [unrevoked tc core K1minus [id]] :=
      .cons (idEntry_of_encrypts core _ K1minus d id henc) .nil
    rw [if_pos hzero, labelLoop, probe_run hrun (by simp) hbody, List.flatten_cons,
      List.flatten_nil, List.append_nil]
  · have hit : ∀ (i : ℕ) b, ([] : List Bytes)[i]? = some b →
        dict[macLong tc (macKey tc key 0x31 w) (UInt64.ofNat (0 + i))]? = some b := by
      intro i b hb
      simp at hb
    have hnext := derivedCalls_subset_of_hits hit (by simp) hkey hlabels (c := 0) le_rfl
    have hrun : Run (fun c => dict[macLong tc (macKey tc key 0x31 w) (UInt64.ofNat c)]?) 0 [] :=
      ⟨hit, hother 0 hnext hzero⟩
    rw [if_neg hzero]
    exact probe_run hrun (by simp) .nil

/-- After a Setup the file added to a word is found by the search if the word's counter started at 0,
    and not found otherwise. -/
theorem Pair.run_probeOps {p : Pair} {v : Version} {lay : Layout} {log : List MacCall} {w : Bytes}
    {outs : List (List UInt64)} (hlay : v.layout? tc = some lay) (hver : p.server.version = v.toInt)
    (hm : Meets tc lay log p.client.key p.server.D p.server.A w outs) (hDplus : p.server.Dplus = ∅)
    (hSrev : derived tc p.client.kminus w 0 ∉ p.server.Srev) (hn : NoCollision tc log)
    (hlog : p.runCalls tc (probeOps w) ⊆ log) :
    (p.run tc (probeOps w)).map Prod.snd =
      .ok [unrevoked tc p.server (macKey tc p.client.kminus 0x31 w)
        (outs.flatten ++ if p.client.count w = 0 then [0] else [])] := by
  obtain ⟨d, henc, hadd⟩ := p.add_one (fun _ _ => 0) 0 w hDplus hSrev
  obtain ⟨server, hserver⟩ : ∃ server : Core, server = { p.server with
    Dplus := p.server.Dplus.insert (derived tc p.client.kplus w (p.client.count w)) d } := ⟨_, rfl⟩
  rw [← hserver] at hadd
  have hstep : p.step tc (.add (fun _ _ => 0) 0 [w]) = .ok (⟨(p.client.touch w).bump w, server⟩, []) := by
    rw [Pair.step, hadd]; rfl
  have hlog' := hlog
  rw [probeOps, Pair.runCalls_cons hstep, Pair.runCalls, runLog] at hlog'
  have hstored : derivedCalls tc p.client.kplus w (p.client.count w) ⊆ log := fun c hc =>
    hlog' (List.mem_append_left _
      ((derivedCalls_subset_addCalls tc p.client 0 List.mem_cons_self).1 hc))
  have hclient : searchClientCalls p.client w ⊆ log := fun c hc =>
    hlog' (List.mem_append_right _ (List.mem_append_left _ (List.mem_append_left _ hc)))
  have hcalls : searchServerCalls tc server (searchClient tc p.client w) ⊆ log := fun c hc =>
    hlog' (List.mem_append_right _ (List.mem_append_left _ (List.mem_append_right _ hc)))
  have hD : server.D = p.server.D := by rw [hserver]
  have hm' : Meets tc lay log p.client.key p.server.D server.A w outs := by rw [hserver]; exact hm
  have hids := Meets.labelLoop server (macKey tc p.client.kminus 0x31 w) hm'
    (hclient (by simp [searchClientCalls]))
    (fun c hc => hcalls (List.mem_append_left _ (List.mem_append_left _ (by rw [hD]; exact hc))))
  have hadded := labelLoop_one server (macKey tc p.client.kminus 0x31 w)
    (by rw [hserver, hDplus]) henc hn hstored (hclient (by simp [searchClientCalls]))
    (fun c hc => hcalls (List.mem_append_left _ (List.mem_append_right _ hc)))
  have hsearch : Pair.search tc ⟨(p.client.touch w).bump w, server⟩ w =
      .ok (unrevoked tc server (macKey tc p.client.kminus 0x31 w)
        (outs.flatten ++ if p.client.count w = 0 then [0] else [])) := by
    have hversion : server.version = v.toInt := by rw [hserver]; exact hver
    rw [Pair.search, searchServer_layout tc hlay hversion, searchLoops, unrevoked_append]
    simp only [searchClient, Core.touch, Core.bump, hD, hids, hadded, bind, Except.bind, pure,
      Except.pure]
  have hsame : unrevoked tc server (macKey tc p.client.kminus 0x31 w) =
      unrevoked tc p.server (macKey tc p.client.kminus 0x31 w) := by rw [hserver]; rfl
  rw [Pair.run, probeOps, runs_cons hstep, runs, Pair.step, hsearch, hsame]
  rfl

/-- If an Add and a search of its word give the same on a used pair as on a fresh one, the client of the
    used pair counts nothing for the word. -/
theorem Client.count_of_probe {version : ℤ} {keys : Keys} {tokens : List Bytes} {fileids : Postings}
    {p p₁ p₂ : Pair} (hs₁ : Pair.fresh.setup tc version keys tokens fileids = .ok p₁)
    (hs₂ : p.setup tc version keys tokens fileids = .ok p₂)
    (hids : postingsTotal fileids tokens < INVALID.toNat) {w : Bytes}
    (hn : NoCollision tc (setupCalls tc version keys tokens fileids ++
      (p₁.runCalls tc (probeOps w) ++ p₂.runCalls tc (probeOps w))))
    (hfree : Unmixed tc p.server.Srev (p₁.runCalls tc (probeOps w) ++ p₂.runCalls tc (probeOps w)))
    (hrun : (Client.run tc p₂ (probeOps w)).map Prod.snd = (Client.run tc p₁ (probeOps w)).map Prod.snd) :
    p.client.count w = 0 := by
  by_contra hne
  obtain ⟨hkeys₁, -, hDplus₁, hSrev₁⟩ := Pair.setup_state hs₁
  obtain ⟨hkeys₂, -, hDplus₂, hSrev₂⟩ := Pair.setup_state hs₂
  have hservers := AlikeServers.of_setup hs₁ hs₂
  obtain ⟨v, lay, hlay, rfl⟩ := Pair.setup_version hs₁
  obtain ⟨hver₁, entries, hbuilt⟩ := Pair.setup_built hlay hs₁ hids
  obtain ⟨outs, hm, -⟩ := (hbuilt.mono (List.subset_append_left _ _)).meets (layout_right tc hlay)
    hn hids w
  have hkey₁ : keys.key = p₁.client.key := (congrArg Keys.key hkeys₁).symm
  have hkey₂ : keys.key = p₂.client.key := (congrArg Keys.key hkeys₂).symm
  have hm₂ := hm
  rw [hkey₁] at hm
  rw [hkey₂, ← hservers.D, ← hservers.A] at hm₂
  have hrev : derived tc p₂.client.kminus w 0 ∉ p₂.server.Srev := by
    rw [hSrev₂]
    refine hfree _ (List.mem_append_right _ ?_)
    rw [probeOps, Pair.runCalls, runLog]
    exact List.mem_append_left _ ((derivedCalls_subset_addCalls tc p₂.client 0
      List.mem_cons_self).2 (List.mem_cons_of_mem _ List.mem_cons_self))
  have hrun₁ := Pair.run_probeOps hlay hver₁ hm hDplus₁ (by rw [hSrev₁]; simp [Pair.fresh, Core.new])
    hn fun c hc => List.mem_append_right _ (List.mem_append_left _ hc)
  have hrun₂ := Pair.run_probeOps hlay (hservers.version.trans hver₁) hm₂ hDplus₂ hrev
    hn fun c hc => List.mem_append_right _ (List.mem_append_right _ hc)
  have hzero : p₁.client.count w = 0 := by
    rw [Pair.count_of_setup hs₁]
    simp [Pair.fresh, Core.new, Core.count]
  rw [Client.run_eq, Client.run_eq, hrun₁, hrun₂, if_pos hzero,
    if_neg (by rwa [Pair.count_of_setup hs₂])] at hrun
  -- the fresh pair finds all ids of the index and the new one, the used pair at most the former
  have hlen := congrArg List.length (List.cons.inj (Except.ok.inj hrun)).1
  have hall : unrevoked tc p₁.server (macKey tc p₁.client.kminus 0x31 w) (outs.flatten ++ [0]) =
      outs.flatten ++ [0] := by
    refine List.filter_eq_self.mpr fun id _ => ?_
    rw [revoked, hSrev₁]
    simp [Pair.fresh, Core.new]
  have hle : (unrevoked tc p₂.server (macKey tc p₂.client.kminus 0x31 w)
      (outs.flatten ++ [])).length ≤ outs.flatten.length := by
    rw [List.append_nil]
    exact List.length_filter_le _ _
  rw [hlen, hall, List.length_append, List.length_singleton] at hle
  omega

/-- The same Setup and then any exchanges give the same searches on a used pair as on a fresh one, as
    long as no HMAC output is that of an old revocation, exactly if the client counts nothing for the
    words of the Adds. The words are taken from any set `W`, the used pair `p` is any pair. -/
theorem Client.setup_again_iff (tc : Tomcrypt) {version : ℤ} {keys : Keys} {tokens : List Bytes}
    {fileids : Postings} {p p₁ p₂ : Pair}
    (h₁ : Client.setup tc Pair.fresh version keys tokens fileids = .ok (p₁, true))
    (h₂ : Client.setup tc p version keys tokens fileids = .ok (p₂, true))
    (hids : postingsTotal fileids tokens < INVALID.toNat) (W : Set Bytes)
    (hprobe : ∀ w ∈ W,
      NoCollision tc (setupCalls tc version keys tokens fileids ++
        (p₁.runCalls tc (probeOps w) ++ p₂.runCalls tc (probeOps w))) ∧
      Unmixed tc p.server.Srev (p₁.runCalls tc (probeOps w) ++ p₂.runCalls tc (probeOps w))) :
    (∀ ops, (∀ op ∈ ops, op.After W) →
      Unmixed tc p.server.Srev (p₁.runCalls tc ops ++ p₂.runCalls tc ops) →
      (Client.run tc p₂ ops).map Prod.snd = (Client.run tc p₁ ops).map Prod.snd) ↔
    ∀ w ∈ W, p.client.count w = 0 := by
  have hs₁ := Client.setup_ok tc h₁
  have hs₂ := Client.setup_ok tc h₂
  constructor
  · intro hsame w hw
    obtain ⟨hn, hfree⟩ := hprobe w hw
    exact Client.count_of_probe hs₁ hs₂ hids hn hfree
      (hsame (probeOps w) (by simp [probeOps, Op.After, hw]) hfree)
  · intro hcounts ops hops hfree
    have hkeys : p₂.client.keys = p₁.client.keys :=
      (Pair.setup_state hs₂).1.trans (Pair.setup_state hs₁).1.symm
    have halike : Alike W p.server.Srev p₁ p₂ := by
      refine ⟨⟨hkeys, fun w hw => ?_⟩, AlikeServers.of_setup hs₁ hs₂⟩
      rw [Pair.count_of_setup hs₂, Pair.count_of_setup hs₁, hcounts w hw]
      simp [Pair.fresh, Core.new, Core.count]
    rw [Client.run_eq, Client.run_eq]
    exact halike.run hops fun c hc => hfree c (List.mem_append_left _ hc)

/-- Another set of keys for runs on fixed inputs. -/
def sampleKeys' : Keys := ⟨List.replicate KEYLEN 4, List.replicate KEYLEN 5, List.replicate KEYLEN 6⟩

/-- A history with one Add and one Delete. -/
def sampleHistory : List Op :=
  [.setup Version.Basic.toInt sampleKeys [[97]] samplePostings, .add (fun _ _ => 0) 1 [[97]],
    .delete 3 [[97]]]

/-- After a history that counts for the word "a" only, a second Setup is good for the word "b". -/
theorem Client.setup_again_sample :
    ∃ p p₁ p₂, Client.run standIn Pair.fresh sampleHistory = .ok (p, []) ∧
      Client.setup standIn Pair.fresh Version.Packed.toInt sampleKeys' [[98]] samplePostings =
        .ok (p₁, true) ∧
      Client.setup standIn p Version.Packed.toInt sampleKeys' [[98]] samplePostings =
        .ok (p₂, true) ∧
      ∀ ops, (∀ op ∈ ops, op.After {[98]}) →
        Unmixed standIn p.server.Srev (p₁.runCalls standIn ops ++ p₂.runCalls standIn ops) →
        (Client.run standIn p₂ ops).map Prod.snd = (Client.run standIn p₁ ops).map Prod.snd := by
  have hrun : (Client.run standIn Pair.fresh sampleHistory >>= fun r =>
      Client.setup standIn Pair.fresh Version.Packed.toInt sampleKeys' [[98]] samplePostings >>=
        fun r₁ => Client.setup standIn r.1 Version.Packed.toInt sampleKeys' [[98]] samplePostings >>=
          fun r₂ => .ok (r.2, r₁.2, r₂.2, r.1.client.count [98], decide
            (NoCollision standIn (setupCalls standIn Version.Packed.toInt sampleKeys' [[98]]
                samplePostings ++ (r₁.1.runCalls standIn (probeOps [98]) ++
                  r₂.1.runCalls standIn (probeOps [98]))) ∧
              Unmixed standIn r.1.server.Srev (r₁.1.runCalls standIn (probeOps [98]) ++
                r₂.1.runCalls standIn (probeOps [98]))))) = .ok ([], true, true, 0, true) := by
    decide +kernel
  obtain ⟨⟨p, outs⟩, hrun, h⟩ := exists_of_bind_ok hrun
  obtain ⟨⟨p₁, ok₁⟩, h₁, h⟩ := exists_of_bind_ok h
  obtain ⟨⟨p₂, ok₂⟩, h₂, h⟩ := exists_of_bind_ok h
  simp only [Except.ok.injEq, Prod.mk.injEq, decide_eq_true_eq] at h
  obtain ⟨rfl, rfl, rfl, hcount, hprobe⟩ := h
  refine ⟨p, p₁, p₂, hrun, h₁, h₂, ?_⟩
  refine (Client.setup_again_iff standIn h₁ h₂ (by decide) {[98]} ?_).mpr ?_
  · rintro w rfl; exact hprobe
  · rintro w rfl; exact hcount

/-- The word "a" was added to a file before the second Setup: the next file it is added to is lost. -/
theorem Client.setup_again_differs :
    ∃ p p₁ p₂, Client.run standIn Pair.fresh sampleHistory = .ok (p, []) ∧
      Client.setup standIn Pair.fresh Version.Basic.toInt sampleKeys' [] ∅ = .ok (p₁, true) ∧
      Client.setup standIn p Version.Basic.toInt sampleKeys' [] ∅ = .ok (p₂, true) ∧
      Unmixed standIn p.server.Srev
        (p₁.runCalls standIn (probeOps [97]) ++ p₂.runCalls standIn (probeOps [97])) ∧
      (Client.run standIn p₁ (probeOps [97])).map Prod.snd = .ok [[0]] ∧
      (Client.run standIn p₂ (probeOps [97])).map Prod.snd = .ok [[]] := by
  have hrun : (Client.run standIn Pair.fresh sampleHistory >>= fun r =>
      Client.setup standIn Pair.fresh Version.Basic.toInt sampleKeys' [] ∅ >>= fun r₁ =>
        Client.setup standIn r.1 Version.Basic.toInt sampleKeys' [] ∅ >>= fun r₂ =>
          Client.run standIn r₁.1 (probeOps [97]) >>= fun q₁ =>
            Client.run standIn r₂.1 (probeOps [97]) >>= fun q₂ =>
              .ok (r.2, r₁.2, r₂.2, decide (Unmixed standIn r.1.server.Srev
                (r₁.1.runCalls standIn (probeOps [97]) ++
                  r₂.1.runCalls standIn (probeOps [97])) ∧ q₁.2 = [[0]] ∧ q₂.2 = [[]]))) =
      .ok ([], true, true, true) := by
    decide +kernel
  obtain ⟨⟨p, outs⟩, hrun, h⟩ := exists_of_bind_ok hrun
  obtain ⟨⟨p₁, ok₁⟩, h₁, h⟩ := exists_of_bind_ok h
  obtain ⟨⟨p₂, ok₂⟩, h₂, h⟩ := exists_of_bind_ok h
  obtain ⟨⟨q₁, outs₁⟩, hprobe₁, h⟩ := exists_of_bind_ok h
  obtain ⟨⟨q₂, outs₂⟩, hprobe₂, h⟩ := exists_of_bind_ok h
  simp only [Except.ok.injEq, Prod.mk.injEq, decide_eq_true_eq] at h
  obtain ⟨rfl, rfl, rfl, hfree, rfl, rfl⟩ := h
  exact ⟨p, p₁, p₂, hrun, h₁, h₂, hfree, by rw [hprobe₁]; rfl, by rw [hprobe₂]; rfl⟩

end DSSE
