import DSSE.Service
import DSSE.Simulation

/-! A server that is stopped between two iterations and started again, beside one that never is. What
    is loaded differs from what was saved by an empty block behind the others; no pointer of an index
    that a client made leads there, so all replies are equal. -/

namespace DSSE
open Schemes Std

/-- One turn of a server: a client in the state `client` calls a method, or the process is stopped and
    a new one started. -/
inductive Turn where
  | call (client : Core) (op : Op)
  | restart

/-- What is seen of a turn: the reply to a request, or the result of `Load`. -/
inductive Seen where
  | reply (reply : Option Reply)
  | loaded (ok : Bool)
  deriving DecidableEq

section
variable (tc : Tomcrypt)

def Machine.step (m : Machine) : Turn → Except Halt (Machine × List Seen)
  | .call client op =>
    match op.request tc client with
    | none => .ok (m, [])
    | some req => (m.serve tc req).map fun (m, reply) => (m, [.reply reply])
  | .restart =>
    let (ok, m) := Machine.boot m.dir
    .ok (m, [.loaded ok])

/-- The server that is never stopped: in place of a restart it does nothing. -/
def Machine.stepOn (m : Machine) : Turn → Except Halt (Machine × List Seen)
  | .call client op => m.step tc (.call client op)
  | .restart => .ok (m, [.loaded true])

def Machine.calls (m : Machine) : Turn → List MacCall
  | .call client op => Pair.calls tc ⟨client, m.core⟩ op
  | .restart => []

def Machine.run (m : Machine) (turns : List Turn) : Except Halt (Machine × List Seen) :=
  runs (Machine.step tc) m turns

def Machine.runOn (m : Machine) (turns : List Turn) : Except Halt (Machine × List Seen) :=
  runs (Machine.stepOn tc) m turns

/-- The HMAC computations of a run of the server that is never stopped. -/
def Machine.runCalls (m : Machine) (turns : List Turn) : List MacCall :=
  runLog (Machine.stepOn tc) (Machine.calls tc) m turns

end

/-- The postings of a Setup have fewer ids than there are block numbers. -/
def Turn.Fits : Turn → Prop
  | .call _ (.setup _ _ tokens fileids) => postingsTotal fileids tokens < INVALID.toNat
  | _ => True

instance : DecidablePred Turn.Fits
  | .call _ (.setup _ _ tokens fileids) =>
    inferInstanceAs (Decidable (postingsTotal fileids tokens < INVALID.toNat))
  | .call _ (.add ..) => isTrue trivial
  | .call _ (.delete ..) => isTrue trivial
  | .call _ (.search _) => isTrue trivial
  | .restart => isTrue trivial

variable {tc : Tomcrypt} {log : List MacCall}

/-! ### Searches -/

theorem Meets.mono {lay : Layout} {key : Bytes} {D : Dmap} {A A' : List Bytes} {w : Bytes}
    {outs : List (List UInt64)} (hm : Meets tc lay log key D A w outs) (hA : A <+: A') :
    Meets tc lay log key D A' w outs := by
  obtain ⟨cts, hit, hmiss, hfit, hdec⟩ := hm
  refine ⟨cts, hit, hmiss, hfit, hdec.imp fun d out h => ?_⟩
  intro core K1minus hcore
  exact h core K1minus (hA.trans hcore)

/-- The index of the server is one that a client's Setup made. -/
def Indexes (tc : Tomcrypt) (log : List MacCall) (server : Core) : Prop :=
  ∃ (v : Version) (lay : Layout) (key : Bytes) (fileids : Postings) (tokens : List Bytes)
    (entries : List (Bytes × List Bytes)), v.layout? tc = some lay ∧ server.version = v.toInt ∧
      postingsTotal fileids tokens < INVALID.toNat ∧
      Built tc lay log key fileids tokens server.D server.A entries

theorem Indexes.of_sameIndex {s t : Core} (h : Indexes tc log s) (hsame : SameIndex s t) :
    Indexes tc log t := by
  obtain ⟨v, lay, key, fileids, tokens, entries, hlay, hver, hids, hbuilt⟩ := h
  refine ⟨v, lay, key, fileids, tokens, entries, hlay, hsame.version.trans hver, hids, ?_⟩
  rw [hsame.D, hsame.A]
  exact hbuilt

/-- With the keys of any client, the loop over `D` reads the same whatever stands behind the blocks of
    the index. -/
theorem Built.labelLoop {lay : Layout} {key : Bytes} {fileids : Postings} {tokens : List Bytes}
    {D : Dmap} {A : List Bytes} {entries : List (Bytes × List Bytes)}
    (hb : Built tc lay log key fileids tokens D A entries) (hr : lay.Right tc)
    (hn : NoCollision tc log) (hids : postingsTotal fileids tokens < INVALID.toNat) (key' w : Bytes)
    (hkey : macKeyCall key' 0x31 w ∈ log) (hD : labelCalls tc D (macKey tc key' 0x31 w) ⊆ log) :
    ∃ ids, ∀ core K1minus, A <+: core.A →
      DSSE.labelLoop tc D (macKey tc key' 0x31 w) (lay.entry core (macKey tc key' 0x32 w) K1minus) =
        .ok (unrevoked tc core K1minus ids) := by
  rcases eq_or_ne key' key with rfl | hne
  · obtain ⟨outs, hm, -⟩ := hb.meets hr hn hids w
    exact ⟨outs.flatten, fun core K1minus hA => (hm.mono hA).labelLoop core K1minus hkey hD⟩
  · refine ⟨[], fun core K1minus _ => ?_⟩
    have hlog : derivedCalls tc key' w (UInt64.ofNat 0) ⊆ log :=
      derivedCalls_subset_of_hits (by simp : ∀ (i : ℕ) d, ([] : List Bytes)[i]? = some d → _) (by simp)
        hkey hD le_rfl
    have hmiss : D[derived tc key' w (UInt64.ofNat 0)]? = none := by
      cases hd : D[derived tc key' w (UInt64.ofNat 0)]? with
      | none => rfl
      | some d =>
        -- an entry under this label would be one of the key that drew the index
        obtain ⟨e, he, c, block, hblock, hl, -⟩ := hb.entry_of_some _ _ hd
        have hc := (List.getElem?_eq_some_iff.mp hblock).1
        exact absurd (derived_inj hn (hb.logged e he c hc) hlog hl).1.symm hne
    have hrun : Run (fun c => D[macLong tc (macKey tc key' 0x31 w) (UInt64.ofNat c)]?) 0
        ([] : List Bytes) := ⟨by simp, hmiss⟩
    exact probe_run hrun (by simp) .nil

/-- A search by a client gives the same ids before and after restarts. -/
theorem Restored.searchServer {s t : Core} (h : Restored s t) (hx : Indexes tc log s)
    (hn : NoCollision tc log) {client : Core} {w : Bytes}
    (hlog : Pair.searchCalls tc ⟨client, s⟩ w ⊆ log) :
    DSSE.searchServer tc t (searchClient tc client w) =
      DSSE.searchServer tc s (searchClient tc client w) := by
  obtain ⟨v, lay, key, fileids, tokens, entries, hlay, hver, hids, hbuilt⟩ := hx
  have hclient : searchClientCalls client w ⊆ log := fun c hc => hlog (List.mem_append_left _ hc)
  have hserver : searchServerCalls tc s (searchClient tc client w) ⊆ log := fun c hc =>
    hlog (List.mem_append_right _ hc)
  obtain ⟨ids, hloop⟩ := hbuilt.labelLoop (layout_right tc hlay) hn hids client.key w
    (hclient (by simp [searchClientCalls]))
    (fun c hc => hserver (List.mem_append_left _ (List.mem_append_left _ hc)))
  have hA : s.A <+: t.A := by
    rcases h.A with hA | hA
    · rw [hA]
    · rw [hA]; exact List.prefix_append _ _
  have hrevoked : ∀ K1minus, revoked tc t K1minus = revoked tc s K1minus := by
    intro K1minus
    funext id
    rw [revoked, revoked, h.Srev]
  have hentry : ∀ K2plus K1minus, idEntry tc t K2plus K1minus = idEntry tc s K2plus K1minus := by
    intro K2plus K1minus
    funext d
    simp only [idEntry, hrevoked]
  have hunrevoked : ∀ K1minus, unrevoked tc t K1minus ids = unrevoked tc s K1minus ids := by
    intro K1minus
    rw [unrevoked, unrevoked, hrevoked]
  rw [searchServer_layout tc hlay hver, searchServer_layout tc hlay (h.version.trans hver),
    searchLoops, searchLoops]
  simp only [searchClient, h.D, h.Dplus, hloop t _ hA, hloop s _ List.prefix_rfl, hentry, hunrevoked]

/-! ### Updates -/

theorem Restored.addServer (L : List AddPair) {s t : Core} (h : Restored s t) :
    (DSSE.addServer t L).2 = (DSSE.addServer s L).2 ∧
      Restored (DSSE.addServer s L).1 (DSSE.addServer t L).1 := by
  induction L generalizing s t with
  | nil => exact ⟨rfl, h⟩
  | cons q L ih =>
    have hpair : (addServerPair t q).2 = (addServerPair s q).2 ∧
        Restored (addServerPair s q).1 (addServerPair t q).1 := by
      unfold addServerPair
      rw [h.Srev, h.Dplus]
      split
      · exact ⟨rfl, h.version, h.D, h.A, rfl, rfl, h.dirtyD⟩
      · split
        · exact ⟨rfl, h⟩
        · exact ⟨rfl, h.version, h.D, h.A, rfl, rfl, h.dirtyD⟩
    obtain ⟨hflags, h₁⟩ := hpair
    obtain ⟨hrest, h₂⟩ := ih h₁
    rw [DSSE.addServer, DSSE.addServer]
    exact ⟨congrArg₂ _ hflags hrest, h₂⟩

theorem Restored.deleteServer {s t : Core} (h : Restored s t) (L : List Bytes) :
    Restored (DSSE.deleteServer s L) (DSSE.deleteServer t L) :=
  { h with Srev := by simp only [DSSE.deleteServer, h.Srev] }

/-! ### Saving -/

/-- A save leaves the state on disk, if `D` and `A` are either written or there from before. -/
theorem Restored.save {s t : Core} (h : Restored s t) (dir : Dir)
    (hdir : t.dirtyD = true ∧ t.A = s.A ∨
      t.dirtyD = false ∧ dir .D = some (writeMap s.D) ∧ dir .A = some (writeBlocks s.A)) :
    OnDisk (saveServer t dir).2 s := by
  rcases hdir with ⟨hdirty, hA⟩ | ⟨hclean, hD, hA⟩
  · constructor <;>
      simp [saveServer, saveWrites, hdirty, Dir.write, Function.update, h.version, h.D, hA, h.Dplus,
        h.Srev]
  · constructor <;>
      simp [saveServer, saveWrites, hclean, Dir.write, Function.update, h.version, hD, hA, h.Dplus,
        h.Srev]

/-- A server and one that is never stopped, after the same turns. -/
structure Follows (tc : Tomcrypt) (log : List MacCall) (m m₀ : Machine) : Prop where
  restored : Restored m₀.core m.core
  saveable : Saveable m₀.core
  disk : OnDisk m.dir m₀.core
  clean : m₀.core.dirtyD = false
  indexes : Indexes tc log m₀.core

/-- The labels and ciphertexts of an index can be saved. -/
theorem Built.writable {v : Version} {lay : Layout} (hlay : v.layout? tc = some lay) {key : Bytes}
    {fileids : Postings} {tokens : List Bytes} {D : Dmap} {A : List Bytes}
    {entries : List (Bytes × List Bytes)} (hb : Built tc lay log key fileids tokens D A entries) :
    Writable D := by
  intro l d hd
  obtain ⟨e, he, c, block, hblock, rfl, rfl⟩ := hb.entry_of_some l d hd
  have hsize := (hb.indexed e he).size block (List.mem_of_getElem? hblock)
  have hdlen : lay.dlen < 2 ^ 64 := by
    cases v with
    | Basic => cases hlay; show ENCRYPTED_FILEID_SIZE < 2 ^ 64; decide
    | Packed => cases hlay; show ENCRYPTED_BLOCK_SIZE < 2 ^ 64; decide
    | Pointer => cases hlay; show ENCRYPTED_BLOCK_SIZE < 2 ^ 64; decide
    | TwoLevelPointer => cases hlay
  refine ⟨length_derived tc _ _ _, ?_⟩
  rw [length_encryptBytes, hsize]
  exact hdlen

/-- A Setup starts both servers over, whatever they held. -/
theorem Machine.serve_setup {m m₀ : Machine} (hSrev : m.core.Srev = m₀.core.Srev)
    (hkeys : ∀ r ∈ m₀.core.Srev, r.length = KEYLEN) {client : Core} {version : ℤ} {keys : Keys}
    {tokens : List Bytes} {fileids : Postings} {req : Msg.Request}
    (hreq : Op.request tc client (.setup version keys tokens fileids) = some req)
    (hids : postingsTotal fileids tokens < INVALID.toNat)
    (hlog : setupCalls tc version keys tokens fileids ⊆ log) :
    ∃ m' m₀', m.serve tc req = .ok (m', some .empty) ∧ m₀.serve tc req = .ok (m₀', some .empty) ∧
      Follows tc log m' m₀' := by
  obtain ⟨client', L, M, hs, ⟨msg, hmsg⟩, hhandle⟩ := handleMessage_setup hreq
  obtain ⟨v, lay, hlay, rfl⟩ := setupClient_version tc hs
  have hpair : Pair.setup tc ⟨client, m₀.core⟩ v.toInt keys tokens fileids =
      .ok ⟨client', setupServer v.toInt m₀.core L M⟩ := by
    rw [Pair.setup, hs]; rfl
  obtain ⟨-, entries, hbuilt⟩ := Pair.setup_built hlay hpair hids
  have hext : ∀ b ∈ M, b.length = ENCRYPTED_BLOCK_SIZE := by
    rw [setupClient_layout tc hlay, setupIndex] at hs
    cases hidx : indexTokens tc lay.encode keys.key fileids tokens [] with
    | error e => rw [hidx] at hs; simp [bind, Except.bind, Except.map] at hs
    | ok r =>
      obtain ⟨L', M'⟩ := r
      rw [hidx] at hs
      simp only [bind, Except.bind, Except.map, pure, Except.pure, Except.ok.injEq,
        Prod.mk.injEq] at hs
      obtain ⟨-, -, rfl⟩ := hs
      exact indexTokens_ext hlay keys.key fileids tokens hidx (by simp)
  have hrestored : Restored (setupServer v.toInt m₀.core L M) (setupServer v.toInt m.core L M) :=
    ⟨rfl, rfl, Or.inl rfl, rfl, hSrev, rfl⟩
  have hsaved := hrestored.save m.dir (Or.inl ⟨rfl, rfl⟩)
  refine ⟨_, _, by rw [Machine.serve, hhandle]; simp only [hmsg, bind, Except.bind]; rfl,
    by rw [Machine.serve, hhandle]; simp only [hmsg, bind, Except.bind]; rfl, ?_⟩
  refine ⟨⟨rfl, rfl, Or.inl rfl, rfl, hSrev, rfl⟩, ⟨⟨v, rfl⟩, ?_, ?_, hkeys, ?_⟩,
    ⟨hsaved.version, hsaved.D, hsaved.A, hsaved.Dplus, hsaved.Srev⟩, rfl, ?_⟩
  · exact hbuilt.writable hlay
  · intro k w hk
    simp [saveServer, setupServer] at hk
  · intro b hb
    rw [hext b hb]
    decide
  · exact ⟨v, lay, keys.key, fileids, tokens, entries, hlay, rfl, hids, hbuilt.mono hlog⟩

/-- After an Add or a Delete both are on disk again. -/
theorem Follows.update {m m₀ : Machine} (h : Follows tc log m m₀) {core₀ core : Core}
    (hr : Restored core₀ core) (hsame : SameIndex m₀.core core₀) (hs : Saveable core₀)
    (hdirty : core₀.dirtyD = false) :
    Follows tc log ⟨(saveServer core m.dir).1, (saveServer core m.dir).2⟩
      ⟨(saveServer core₀ m₀.dir).1, (saveServer core₀ m₀.dir).2⟩ := by
  have hD : m.dir .D = some (writeMap core₀.D) := by rw [h.disk.D, hsame.D]
  have hA : m.dir .A = some (writeBlocks core₀.A) := by rw [h.disk.A, hsame.A]
  have hsaved : OnDisk (saveServer core m.dir).2 core₀ :=
    hr.save m.dir (Or.inr ⟨hr.dirtyD.trans hdirty, hD, hA⟩)
  refine ⟨⟨hr.version, hr.D, hr.A, hr.Dplus, hr.Srev, rfl⟩, ⟨hs.version, hs.D, hs.Dplus, hs.Srev, hs.A⟩,
    ⟨hsaved.version, hsaved.D, hsaved.A, hsaved.Dplus, hsaved.Srev⟩, rfl, ?_⟩
  exact h.indexes.of_sameIndex ⟨hsame.version, hsame.D, hsame.A⟩

theorem Follows.add {m m₀ : Machine} (h : Follows tc log m m₀) (client : Core) (stack : Stack)
    (id : UInt64) (words : List Bytes) :
    ∃ m' m₀' reply, m.serve tc (Client.addRequest tc client stack id words).2.1 = .ok (m', reply) ∧
      m₀.serve tc (Client.addRequest tc client stack id words).2.1 = .ok (m₀', reply) ∧
      Follows tc log m' m₀' := by
  let L := (addClient tc client stack id words).2.1
  obtain ⟨hflags, hr⟩ := h.restored.addServer L
  obtain ⟨hsame, hdirty⟩ := addServer_sameIndex L m₀.core
  have hs : Saveable (addServer m₀.core L).1 :=
    h.saveable.addServer L (addClient_entries client stack id words)
  have hserve : ∀ n : Machine, n.serve tc (Client.addRequest tc client stack id words).2.1 =
      .ok (⟨(saveServer (addServer n.core L).1 n.dir).1, (saveServer (addServer n.core L).1 n.dir).2⟩,
        some (.result ⟨.add ⟨(addServer n.core L).2.map fun x => x != 0⟩⟩)) := by
    intro n
    rw [Machine.serve, handleMessage_add]
    rfl
  refine ⟨_, _, _, hserve m, ?_, h.update hr hsame hs (hdirty.trans h.clean)⟩
  rw [hserve m₀, ← hflags]

theorem Follows.delete {m m₀ : Machine} (h : Follows tc log m m₀) (client : Core) (id : UInt64)
    (words : List Bytes) :
    ∃ m' m₀' reply, m.serve tc (Client.deleteRequest tc client id words) = .ok (m', reply) ∧
      m₀.serve tc (Client.deleteRequest tc client id words) = .ok (m₀', reply) ∧
      Follows tc log m' m₀' := by
  let L := deleteClient tc client id words
  have hs : Saveable (deleteServer m₀.core L) :=
    h.saveable.deleteServer (deleteClient_keylen client id words)
  exact ⟨_, _, _, rfl, rfl,
    h.update (h.restored.deleteServer L) ⟨rfl, rfl, rfl⟩ hs h.clean⟩

theorem Follows.search {m m₀ : Machine} (h : Follows tc log m m₀) (hn : NoCollision tc log)
    {client : Core} {w : Bytes} (hlog : Pair.searchCalls tc ⟨client, m₀.core⟩ w ⊆ log) :
    InStep (fun m₀' m' => Follows tc log m' m₀') (m₀.step tc (.call client (.search w)))
      (m.step tc (.call client (.search w))) := by
  have hids := h.restored.searchServer h.indexes hn hlog
  have hserve : ∀ n : Machine, n.serve tc (Client.searchRequest tc client w) =
      (searchServer tc n.core (searchClient tc client w)).map fun ids =>
        (n, some (.searchResult ⟨ids.map UInt64.toInt64⟩)) := by
    intro n
    rw [Machine.serve, handleMessage_search]
    cases searchServer tc n.core (searchClient tc client w) <;> rfl
  simp only [Machine.step, Op.request, hserve, hids]
  cases searchServer tc m₀.core (searchClient tc client w) with
  | error e => rfl
  | ok ids => exact ⟨rfl, h⟩

/-- Every turn keeps the two servers alike. -/
theorem Follows.step (hn : NoCollision tc log) {m m₀ : Machine} (h : Follows tc log m m₀) {turn : Turn}
    (hfits : turn.Fits) (hlog : m₀.calls tc turn ⊆ log) :
    InStep (fun m₀' m' => Follows tc log m' m₀') (m₀.stepOn tc turn) (m.step tc turn) := by
  cases turn with
  | restart =>
    obtain ⟨core', hload, hr⟩ := h.disk.load h.saveable h.clean
    rw [Machine.step, Machine.boot, hload]
    exact ⟨rfl, hr, h.saveable, h.disk, h.clean, h.indexes⟩
  | call client op =>
    rw [Machine.stepOn]
    cases hreq : op.request tc client with
    | none =>
      rw [Machine.step, Machine.step, hreq]
      exact ⟨rfl, h⟩
    | some req =>
      cases op with
      | setup version keys tokens fileids =>
        obtain ⟨m', m₀', hm, hm₀, h'⟩ := Machine.serve_setup h.restored.Srev h.saveable.Srev hreq
          hfits hlog
        rw [Machine.step, Machine.step, hreq]
        simp only [hm, hm₀]
        exact ⟨rfl, h'⟩
      | add stack id words =>
        obtain ⟨m', m₀', reply, hm, hm₀, h'⟩ := h.add client stack id words
        cases hreq
        simp only [Machine.step, Op.request, hm, hm₀]
        exact ⟨rfl, h'⟩
      | delete id words =>
        obtain ⟨m', m₀', reply, hm, hm₀, h'⟩ := h.delete client id words
        cases hreq
        simp only [Machine.step, Op.request, hm, hm₀]
        exact ⟨rfl, h'⟩
      | search w => exact h.search hn hlog

/-- Restarts cannot be seen: a server whose first request is a Setup gives the same replies whether it
    is stopped and started again between requests or not, and every load succeeds. -/
theorem Machine.run_restarts (dir : Dir) {client : Core} {version : ℤ} {keys : Keys}
    {tokens : List Bytes} {fileids : Postings} {req : Msg.Request}
    (hsetup : Op.request tc client (.setup version keys tokens fileids) = some req)
    {turns : List Turn}
    (hfits : ∀ turn ∈ .call client (.setup version keys tokens fileids) :: turns, turn.Fits)
    (hn : NoCollision tc
      (Machine.runCalls tc ⟨.new, dir⟩ (.call client (.setup version keys tokens fileids) :: turns))) :
    (Machine.run tc ⟨.new, dir⟩ (.call client (.setup version keys tokens fileids) :: turns)).map
        Prod.snd =
      (Machine.runOn tc ⟨.new, dir⟩ (.call client (.setup version keys tokens fileids) :: turns)).map
        Prod.snd := by
  let first : Turn := .call client (.setup version keys tokens fileids)
  let log := Machine.runCalls tc ⟨.new, dir⟩ (first :: turns)
  have hlog : setupCalls tc version keys tokens fileids ⊆ log := by
    intro c hc
    show c ∈ Machine.runCalls tc ⟨.new, dir⟩ (first :: turns)
    rw [Machine.runCalls, runLog]
    exact List.mem_append_left _ hc
  let start : Machine := ⟨.new, dir⟩
  have hsame : start.core.Srev = start.core.Srev := rfl
  have hnew : ∀ r ∈ start.core.Srev, r.length = KEYLEN :=
    fun r hr => absurd hr ExtTreeSet.not_mem_empty
  obtain ⟨m', m₀', hm, hm₀, h⟩ :=
    Machine.serve_setup hsame hnew hsetup (hfits first List.mem_cons_self) hlog
  obtain rfl : m' = m₀' := by
    have := hm.symm.trans hm₀
    cases this
    rfl
  have hstep : Machine.step tc ⟨.new, dir⟩ first = .ok (m', [.reply (some .empty)]) := by
    rw [Machine.step, hsetup]
    show Except.map _ (start.serve tc req) = _
    rw [hm]
    rfl
  have hstepOn : Machine.stepOn tc ⟨.new, dir⟩ first = .ok (m', [.reply (some .empty)]) := hstep
  have hrest : ∀ c ∈ runLog (Machine.stepOn tc) (Machine.calls tc) m' turns, c ∈ log := by
    intro c hc
    show c ∈ Machine.runCalls tc ⟨.new, dir⟩ (first :: turns)
    rw [Machine.runCalls, runLog, hstepOn]
    exact List.mem_append_right _ hc
  have hturn : ∀ m₀ m turn, Follows tc log m m₀ → turn.Fits →
      (∀ c ∈ Machine.calls tc m₀ turn, c ∈ log) →
      InStep (fun m₀ m => Follows tc log m m₀) (m₀.stepOn tc turn) (m.step tc turn) :=
    fun m₀ m turn hm hfit huses => hm.step hn hfit huses
  have hsame := runs_inStep hturn turns m' m' h
    (fun turn hturn => hfits turn (List.mem_cons_of_mem _ hturn)) hrest
  rw [Machine.run, Machine.runOn, runs_cons_outs hstep, runs_cons_outs hstepOn, hsame]

def sampleClient : Core := { Core.new with
  version := Version.Pointer.toInt
  key := sampleKeys.key
  kplus := sampleKeys.kplus
  kminus := sampleKeys.kminus }

/-- A Setup, an Add and a Delete with restarts between them, then a Search. -/
def sampleStops : List Turn :=
  [.restart, .call sampleClient (.add (fun _ _ => 0) 9 [[97]]), .restart, .restart,
    .call sampleClient (.delete 1 [[97]]), .restart, .call sampleClient (.search [97])]

theorem Machine.run_restarts_sample :
    ∃ outs, (Machine.run standIn ⟨.new, fun _ => none⟩ (.call .new
        (.setup Version.Pointer.toInt sampleKeys [[97]] samplePostings) :: sampleStops)).map Prod.snd =
      .ok outs ∧ outs.getLast? = some (.reply (some (.searchResult ⟨[2, 3, 4, 5, 6, 7, 9]⟩))) := by
  let turns := Turn.call .new (.setup Version.Pointer.toInt sampleKeys [[97]] samplePostings) ::
    sampleStops
  have hrun : (Machine.runOn standIn ⟨.new, fun _ => none⟩ turns >>= fun r =>
      .ok (decide (r.2.getLast? = some (.reply (some (.searchResult ⟨[2, 3, 4, 5, 6, 7, 9]⟩))) ∧
        (Op.request standIn .new (.setup Version.Pointer.toInt sampleKeys [[97]] samplePostings)).isSome ∧
        (∀ turn ∈ turns, turn.Fits) ∧
          NoCollision standIn (Machine.runCalls standIn ⟨.new, fun _ => none⟩ turns)))) =
      .ok true := by
    decide +kernel
  obtain ⟨⟨m, outs⟩, hon, h⟩ := exists_of_bind_ok hrun
  simp only [Except.ok.injEq, decide_eq_true_eq] at h
  obtain ⟨hlast, hreq, hfits, hn⟩ := h
  obtain ⟨req, hreq⟩ := Option.isSome_iff_exists.mp hreq
  refine ⟨outs, ?_, hlast⟩
  rw [Machine.run_restarts _ hreq hfits hn, hon]
  rfl

end DSSE
