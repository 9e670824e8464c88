import DSSE.Shelf

/-! The programs keep the shelf. Between two commands its index is encrypted on the server, and its names
    and counters are in the client's files: a process that loads them stands where the last one stood. -/

namespace DSSE
open Schemes Std

variable {tc : Tomcrypt} {log : List MacCall} {v : Version} {lay : Layout} {port : UInt16}

/-! ### Clients and servers that are alike -/

theorem Refines.congr {p p' : Pair} {ix : PlainIndex Bytes UInt64} (hR : Refines tc log v lay p ix)
    (hkeys : p'.client.keys = p.client.keys) (hcount : ∀ w, p'.client.count w = p.client.count w)
    (hsame : SameIndex p.server p'.server) (hDplus : p'.server.Dplus = p.server.Dplus)
    (hSrev : p'.server.Srev = p.server.Srev) : Refines tc log v lay p' ix := by
  obtain ⟨hadded, hsrev, hrevoked⟩ := hR.tracks
  have htracks : Tracks tc log p'.client.keys p'.server ix := by
    rw [hkeys]
    refine ⟨?_, ?_, hrevoked⟩
    · rw [hDplus]
      exact hadded
    · rw [hSrev]
      exact hsrev
  exact hR.of_sameIndex ⟨htracks, fun w => (hcount w).trans (hR.counts w)⟩ hkeys hsame rfl

/-- A server that has been restarted serves the same index. -/
theorem Refines.restored {client s t : Core} {ix : PlainIndex Bytes UInt64}
    (hR : Refines tc log v lay ⟨client, s⟩ ix) (h : Restored s t) : Refines tc log v lay ⟨client, t⟩ ix := by
  obtain ⟨hadded, hsrev, hrevoked⟩ := hR.tracks
  have hA : s.A <+: t.A := by
    rcases h.A with hA | hA
    · rw [hA]
    · rw [hA]
      exact List.prefix_append _ _
  refine ⟨⟨⟨?_, ?_, hrevoked⟩, hR.counts⟩, h.version.trans hR.version, fun w hw => ?_⟩
  · rw [h.Dplus]
    exact hadded
  · rw [h.Srev]
    exact hsrev
  · obtain ⟨outs, hm, hflat⟩ := hR.index w hw
    rw [h.D]
    exact ⟨outs, hm.mono hA, hflat⟩

/-! ### What an Add leaves of the client -/

theorem mem_insertIfNew {map : Dcountmap} {u w : Bytes} {n : UInt64} (h : u ∈ map.insertIfNew w n) :
    u ∈ map ∨ u = w := by
  rcases ExtTreeMap.mem_insertIfNew.mp h with h | h
  · exact Or.inr (compare_eq_iff_eq.mp h).symm
  · exact Or.inl h

theorem addTokenPairs_state (stack : Stack) (id : UInt64) (words : List Bytes) (core : Core) (i : ℕ) :
    (addTokenPairs tc stack id core i words).1.version = core.version ∧
      ∀ u ∈ (addTokenPairs tc stack id core i words).1.Dcount, u ∈ core.Dcount ∨ u ∈ words := by
  induction words generalizing core i with
  | nil => exact ⟨rfl, fun u hu => Or.inl hu⟩
  | cons w words ih =>
    obtain ⟨hversion, hDcount⟩ := ih (core.touch w) (i + 1)
    refine ⟨hversion, fun u hu => ?_⟩
    rcases hDcount u hu with hu | hu
    · rcases mem_insertIfNew hu with hu | rfl
      · exact Or.inl hu
      · exact Or.inr List.mem_cons_self
    · exact Or.inr (List.mem_cons_of_mem _ hu)

theorem addClient2_state (r : List UInt8) {core core' : Core} {W : List Bytes}
    (h : addClient2 core r W = .ok core') :
    core'.keys = core.keys ∧ core'.version = core.version ∧ ∀ u ∈ core'.Dcount, u ∈ core.Dcount ∨ u ∈ W := by
  induction r generalizing core W with
  | nil =>
    cases h
    exact ⟨rfl, rfl, fun u hu => Or.inl hu⟩
  | cons flag r ih =>
    rw [addClient2.eq_def] at h
    simp only at h
    split at h
    · cases W with
      | nil => cases h
      | cons w W =>
        obtain ⟨hkeys, hversion, hDcount⟩ := ih h
        refine ⟨hkeys, hversion, fun u hu => ?_⟩
        rcases hDcount u hu with hu | hu
        · rcases ExtTreeMap.mem_insert.mp hu with hu | hu
          · exact Or.inr (List.mem_cons.mpr (Or.inl (compare_eq_iff_eq.mp hu).symm))
          · exact Or.inl hu
        · exact Or.inr (List.mem_cons_of_mem _ hu)
    · obtain ⟨hkeys, hversion, hDcount⟩ := ih h
      refine ⟨hkeys, hversion, fun u hu => ?_⟩
      rcases hDcount u hu with hu | hu
      · exact Or.inl hu
      · exact Or.inr (List.mem_of_mem_tail hu)

/-! ### A server that is stopped and started -/

/-- The server keeps the index with the client, and has it on disk. -/
def Serves (tc : Tomcrypt) (log : List MacCall) (v : Version) (lay : Layout) (client : Core) (m : Machine)
    (ix : PlainIndex Bytes UInt64) : Prop :=
  ∃ m₀, Follows tc log m m₀ ∧ Refines tc log v lay ⟨client, m₀.core⟩ ix

theorem Serves.client {client client' : Core} {m : Machine} {ix : PlainIndex Bytes UInt64}
    (h : Serves tc log v lay client m ix) (hkeys : client'.keys = client.keys)
    (hDcount : client'.Dcount = client.Dcount) : Serves tc log v lay client' m ix := by
  obtain ⟨m₀, hf, hR⟩ := h
  refine ⟨m₀, hf, hR.congr hkeys (fun w => ?_) (.refl _) rfl rfl⟩
  show client'.count w = client.count w
  rw [Core.count, Core.count, hDcount]

theorem Serves.restart {client : Core} {m : Machine} {ix : PlainIndex Bytes UInt64}
    (h : Serves tc log v lay client m ix) : Serves tc log v lay client (Machine.boot m.dir).2 ix := by
  obtain ⟨m₀, hf, hR⟩ := h
  obtain ⟨core', hload, hrestored⟩ := hf.disk.load hf.saveable hf.clean
  refine ⟨m₀, ?_, hR⟩
  rw [Machine.boot, hload]
  exact ⟨hrestored, hf.saveable, hf.disk, hf.clean, hf.indexes⟩

/-- An Add over the wire. -/
theorem Serves.add {c : Client} {m : Machine} {ix : PlainIndex Bytes UInt64}
    (h : Serves tc log v lay c.core m ix) (hn : NoCollision tc log) (stack : Stack) {id : UInt64}
    {words : List Bytes} (hw : ∀ w ∈ words, NulFree w) (hfew : words.length < 2 ^ 24)
    (hsingle : ix.Single id words) (hfit : Fits (ix.add id words))
    (hlog : addCalls tc c.core id words ⊆ log) :
    ∃ core m', Link.addOn tc (Machine.answer tc) ⟨c, m⟩ stack id words =
        .ok (⟨{ c with core := core }, m'⟩, true) ∧
      Serves tc log v lay core m' (ix.add id words) ∧ core.keys = c.core.keys ∧
      core.version = c.core.version ∧ ∀ u ∈ core.Dcount, u ∈ c.core.Dcount ∨ u ∈ words := by
  obtain ⟨m₀, hf, hR⟩ := h
  have hsent := Link.add_sent (l := ⟨c, m⟩) ((Client.addRequest_sendable tc c.core stack id words).mpr hfew)
  obtain ⟨m', m₀', reply, hm, hm₀, hf'⟩ := hf.add c.core stack id words
  rw [Machine.serve_eq, handleMessage_add] at hm hm₀
  obtain ⟨rfl, -⟩ := Prod.mk.inj (Except.ok.inj hm)
  obtain ⟨rfl, -⟩ := Prod.mk.inj (Except.ok.inj hm₀)
  have hsame := m₀.after_core (addServer m₀.core (addClient tc c.core stack id words).2.1).1
    (show ∀ m, (Client.addRequest tc c.core stack id words).2.1.msg ≠ some (.search m) by rintro m ⟨⟩)
  obtain ⟨p', hp, hR'⟩ := hR.add hn stack hw hsingle hfit hlog
  obtain ⟨hversion, hDcount⟩ := @addTokenPairs_state tc stack id words c.core 0
  obtain ⟨core₁, L, W, hadd⟩ : ∃ core₁ L W, addClient tc c.core stack id words = (core₁, L, W) :=
    ⟨_, _, _, rfl⟩
  obtain rfl : (addTokenPairs tc stack id c.core 0 words).1 = core₁ := congrArg Prod.fst hadd
  obtain ⟨hkeys, -, -, hwords⟩ := addClient_counts hadd
  rw [Link.add, hadd] at hsent
  rw [hadd] at hf' hsame
  rw [Pair.add, hadd] at hp
  have hflags := (hf.restored.addServer L).1
  obtain ⟨core', hcore', hp⟩ := exists_of_bind_ok hp
  cases hp
  obtain ⟨hkeys', hversion', hDcount'⟩ := addClient2_state _ hcore'
  refine ⟨core', _, ?_, ⟨_, hf', ?_⟩, hkeys'.trans hkeys, hversion'.trans hversion, fun u hu => ?_⟩
  · rw [hsent]
    simp only [hflags, hcore']
    rfl
  · refine hR'.congr rfl (fun _ => rfl) ?_ ?_ ?_
    · rw [hsame]
      exact ⟨rfl, rfl, rfl⟩
    · rw [hsame]
    · rw [hsame]
  · rcases hDcount' u hu with hu | hu
    · exact hDcount u hu
    · exact Or.inr (hwords.mem_iff.mp hu)

theorem Serves.delete {c : Client} {m : Machine} {ix : PlainIndex Bytes UInt64}
    (h : Serves tc log v lay c.core m ix) {id : UInt64} {words : List Bytes} (hw : ∀ w ∈ words, NulFree w)
    (hfew : words.length ≤ 63161283) (hlog : deleteCalls tc c.core id words ⊆ log) :
    ∃ m', Link.deleteOn tc (Machine.answer tc) ⟨c, m⟩ id words = .ok (⟨c, m'⟩, true) ∧
      Serves tc log v lay c.core m' (ix.delete id words) := by
  obtain ⟨m₀, hf, hR⟩ := h
  have hsent := Link.delete_sent (l := ⟨c, m⟩) ((Client.deleteRequest_sendable tc c.core id words).mpr hfew)
  obtain ⟨m', m₀', reply, hm, hm₀, hf'⟩ := hf.delete c.core id words
  rw [Machine.serve_eq] at hm hm₀
  obtain ⟨rfl, -⟩ := Prod.mk.inj (Except.ok.inj hm)
  obtain ⟨rfl, -⟩ := Prod.mk.inj (Except.ok.inj hm₀)
  exact ⟨_, hsent, _, hf', (hR.delete hw hlog).congr rfl (fun _ => rfl) ⟨rfl, rfl, rfl⟩ rfl rfl⟩

/-- A search over the wire. -/
theorem Serves.search {c : Client} {m : Machine} {ix : PlainIndex Bytes UInt64}
    (h : Serves tc log v lay c.core m ix) (hlay : v.layout? tc = some lay) (hn : NoCollision tc log)
    {w : Bytes} (hw : NulFree w) (hlog : Pair.searchCalls tc ⟨c.core, m.core⟩ w ⊆ log)
    (hsend : Msg.Sendable (Msg.SearchResult.toFields ⟨(ix.search w).map UInt64.toInt64⟩)) :
    Link.searchOn tc (Machine.answer tc) ⟨c, m⟩ w = .ok (⟨c, m⟩, some (ix.search w)) := by
  obtain ⟨m₀, hf, hR⟩ := h
  have hsearch := (hR.restored hf.restored).search hlay hn hw hlog
  rw [Pair.search] at hsearch
  rw [Link.searchOn_sent, hsearch]
  exact if_pos hsend

/-- A Setup on any server that has nothing revoked, by a client that has counted nothing. -/
theorem Refines.ofSetup (hlay : v.layout? tc = some lay) (hn : NoCollision tc log) {p p' : Pair}
    (hDcount : p.client.Dcount = ∅) (hSrev : p.server.Srev = ∅) {keys : Keys} {tokens : List Bytes}
    {fileids : Postings} (hsetup : p.setup tc v.toInt keys tokens fileids = .ok p')
    (hnul : ∀ t ∈ tokens, NulFree t) (hids : postingsTotal fileids tokens < INVALID.toNat)
    (hlog : setupCalls tc v.toInt keys tokens fileids ⊆ log) :
    Refines tc log v lay p' (plainSetup v tokens fileids) := by
  obtain ⟨hkeys, hcount, hDplus, hSrev'⟩ := Pair.setup_state hsetup
  obtain ⟨hver, entries, hbuilt⟩ := Pair.setup_built hlay hsetup hids
  have hkey : p'.client.key = keys.key := congrArg Keys.key hkeys
  refine ⟨⟨Tracks.ofBase hDplus (hSrev'.trans hSrev) _, fun w => ?_⟩, hver, fun w hw => ?_⟩
  · rw [Core.count, hcount, hDcount]
    simp [plainSetup, PlainIndex.ofBase]
  · rw [hkey]
    refine ⟨_, (hbuilt.mono hlog).meets_word (layout_right tc hlay) hn hids hnul hw, ?_⟩
    simp only [plainSetup, PlainIndex.ofBase, basePostings]
    by_cases hmem : w ∈ tokens
    · simp only [if_pos hmem]
      exact flatten_outs tc hlay _
    · simp only [if_neg hmem]
      cases v <;> rfl

/-- A Setup over the wire, by a new client. -/
theorem Serves.setup {m : Machine} (hlay : v.layout? tc = some lay) (hn : NoCollision tc log)
    (hSrev : m.core.Srev = ∅) (keys : Keys) {tokens : List Bytes} {fileids : Postings}
    (hnul : ∀ t ∈ tokens, NulFree t) (hposted : ∀ t ∈ tokens, t ∈ fileids)
    (hsize : v.setupSize (postingLengths fileids tokens) < 2 ^ 31)
    (hlog : setupCalls tc v.toInt keys tokens fileids ⊆ log) :
    ∃ core m', Link.setupOn tc (Machine.answer tc) ⟨.new, m⟩ v.toInt keys tokens fileids =
        .ok (⟨{ Client.new with core := core }, m'⟩, true) ∧
      Serves tc log v lay core m' (plainSetup v tokens fileids) ∧ core.keys = keys ∧
      core.version = v.toInt ∧ core.Dcount = ∅ := by
  have hids := Version.postingsTotal_lt hlay hsize
  obtain ⟨p', hp'⟩ := (Pair.setup_ok hlay ⟨.new, m.core⟩ keys tokens fileids).mpr hposted
  have hrefines := Refines.ofSetup hlay hn rfl hSrev hp' hnul hids hlog
  rw [Pair.setup] at hp'
  obtain ⟨⟨core, L, M⟩, hs, hp'⟩ := exists_of_bind_ok hp'
  cases hp'
  obtain ⟨hkeys, hversion, hDcount⟩ := setupClient_state hs
  obtain ⟨⟨core', req⟩, hrequest⟩ : ∃ r, Client.setupRequest tc .new v.toInt keys tokens fileids = .ok r := by
    rw [Client.setupRequest, hs]
    exact ⟨_, rfl⟩
  have hreq : Op.request tc .new (.setup v.toInt keys tokens fileids) = some req := by
    rw [Op.request, hrequest]
  have hsend : Msg.Sendable req.toFields := by
    rw [Msg.Sendable, Client.length_setupRequest hlay hrequest]
    exact hsize
  obtain ⟨core₁, L₁, M₁, hs₁, hsent⟩ := Link.setup_sent (l := ⟨.new, m⟩) hreq hsend
  cases hs.symm.trans hs₁
  obtain ⟨core₂, L₂, M₂, hs₂, ⟨msg, hmsg⟩, hhandle⟩ := handleMessage_setup hreq
  cases hs.symm.trans hs₂
  obtain ⟨m', m₀', hm, hm₀, hf⟩ := Machine.serve_setup (show m.core.Srev = m.core.Srev from rfl)
    (fun r hr => by rw [hSrev] at hr; exact absurd hr ExtTreeSet.not_mem_empty) hreq hids hlog
  rw [Machine.serve_eq, hhandle] at hm hm₀
  obtain ⟨rfl, -⟩ := Prod.mk.inj (Except.ok.inj hm)
  obtain ⟨rfl, -⟩ := Prod.mk.inj (Except.ok.inj hm₀)
  have hsame := m.after_core (setupServer v.toInt m.core L M)
    (show ∀ s, req.msg ≠ some (.search s) by rw [hmsg]; rintro s ⟨⟩)
  refine ⟨core, _, hsent, ⟨_, hf, hrefines.congr rfl (fun _ => rfl) ?_ ?_ ?_⟩, hkeys, hversion, hDcount⟩
  · rw [hsame]
    exact ⟨rfl, rfl, rfl⟩
  · rw [hsame]
  · rw [hsame]

/-! ### The shelf between two processes -/

/-- Every id in the index has a name. -/
def Shelf.Known (shelf : Shelf) : Prop :=
  ∀ w, ∀ id ∈ shelf.index.base w ++ shelf.index.added w, ∃ name, shelf.names id = some name

/-- What a process that starts now finds. -/
structure World.Holds (tc : Tomcrypt) (log : List MacCall) (port : UInt16) (v : Version) (lay : Layout)
    (s : World) (shelf : Shelf) (c : Client) : Prop where
  port : s.port = port
  loaded : Client.new.load s.dir = (true, c)
  typed : c.Typed
  serves : Serves tc log v lay c.core s.server shelf.index
  names : ∀ id : UInt64, c.fileidMap[id]? = shelf.names id
  next : c.lastFileid = shelf.next
  known : shelf.Known

/-- Before the first setup nothing has happened. -/
def World.Shows (tc : Tomcrypt) (log : List MacCall) (port : UInt16) (s : World) : Option Shelf → Prop
  | none => s = .start port
  | some shelf => ∃ v lay c, Version.layout? tc v = some lay ∧ s.Holds tc log port v lay shelf c

/-- A client that connects to the port of the server reaches it. -/
theorem World.socket_port {s : World} (hport : s.port = port) (hne : port ≠ 0) :
    s.socket tc port = Machine.answer tc :=
  if_pos ⟨hport.symm, hne⟩

/-- A process leaves the shelf behind that it had at its end. -/
theorem World.shows_finish (s : World) (hport : s.port = port) {l : Link} {shelf : Shelf}
    (hlay : v.layout? tc = some lay) (htyped : l.client.Typed)
    (hserves : Serves tc log v lay l.client.core l.server shelf.index)
    (hnames : ∀ id : UInt64, l.client.fileidMap[id]? = shelf.names id)
    (hnext : l.client.lastFileid = shelf.next) (hknown : shelf.Known) :
    (s.finish l).Shows tc log port (some shelf) := by
  refine ⟨v, lay, _, hlay, hport, Client.loaded htyped s.dir, ?_, hserves.client rfl rfl, hnames, hnext,
    hknown⟩
  exact ⟨htyped.version_low, htyped.version_high, htyped.key, htyped.kplus, htyped.kminus, htyped.tokens,
    htyped.names⟩

theorem Client.Typed.withCore {c : Client} (h : c.Typed) {core : Core} (hkeys : core.keys = c.core.keys)
    (hversion : core.version = c.core.version) (htokens : ∀ u ∈ core.Dcount, u.length < 2 ^ 64) :
    Client.Typed { c with core := core } := by
  have hkey : core.key = c.core.key := congrArg Keys.key hkeys
  have hkplus : core.kplus = c.core.kplus := congrArg Keys.kplus hkeys
  have hkminus : core.kminus = c.core.kminus := congrArg Keys.kminus hkeys
  refine ⟨?_, ?_, ?_, ?_, ?_, htokens, h.names⟩
  · rw [hversion]
    exact h.version_low
  · rw [hversion]
    exact h.version_high
  · rw [hkey]
    exact h.key
  · rw [hkplus]
    exact h.kplus
  · rw [hkminus]
    exact h.kminus

/-- After an Add the counters are of old tokens and of the words. -/
theorem Client.Typed.added {c : Client} (h : c.Typed) {core : Core} (hkeys : core.keys = c.core.keys)
    (hversion : core.version = c.core.version) {words : List Bytes}
    (hDcount : ∀ u ∈ core.Dcount, u ∈ c.core.Dcount ∨ u ∈ words) (hwords : Typeable words) :
    Client.Typed { c with core := core } := by
  refine h.withCore hkeys hversion fun u hu => ?_
  rcases hDcount u hu with hu | hu
  · exact h.tokens u hu
  · exact (hwords u hu).2

/-- The next id gets a name. -/
theorem Client.Typed.withName {c : Client} (h : c.Typed) {filename : Bytes} (hname : filename.length < 2 ^ 64) :
    Client.Typed { c with
      fileidMap := c.fileidMap.insert c.lastFileid filename
      lastFileid := c.lastFileid + 1 } := by
  refine ⟨h.version_low, h.version_high, h.key, h.kplus, h.kminus, h.tokens, fun id name hget => ?_⟩
  rw [ExtTreeMap.getElem?_insert] at hget
  split at hget
  · cases hget
    exact hname
  · exact h.names id name hget

/-- The client after a Setup from files. -/
theorem Client.Typed.ofSetup {core : Core} {keys : Keys} {v : Version} (hkeys : core.keys = keys)
    (htyped : keys.Typed) (hversion : core.version = v.toInt) (hDcount : core.Dcount = ∅) {next : UInt64}
    {names : ExtTreeMap UInt64 Bytes compare}
    (hnames : ∀ (id : UInt64) (name : Bytes), names[id]? = some name → name.length < 2 ^ 64) :
    Client.Typed { Client.new with core := core, lastFileid := next, fileidMap := names } := by
  obtain ⟨hkey, hkplus, hkminus⟩ := htyped
  refine ⟨?_, ?_, ?_, ?_, ?_, fun w hw => ?_, hnames⟩
  · rw [hversion]
    cases v <;> decide
  · rw [hversion]
    cases v <;> decide
  · exact (congrArg (fun k => k.key.length) hkeys).trans hkey
  · exact (congrArg (fun k => k.kplus.length) hkeys).trans hkplus
  · exact (congrArg (fun k => k.kminus.length) hkeys).trans hkminus
  · rw [hDcount] at hw
    exact absurd hw ExtTreeMap.not_mem_empty

theorem PlainIndex.mem_of_mem_add {id i : UInt64} {words : List Bytes} {ix : PlainIndex Bytes UInt64}
    {w : Bytes} (h : i ∈ (ix.add id words).added w) : i ∈ ix.added w ∨ words ≠ [] ∧ i = id := by
  induction words generalizing ix with
  | nil => exact Or.inl h
  | cons u words ih =>
    rcases ih h with h | ⟨-, rfl⟩
    · rw [PlainIndex.addWord_added] at h
      split at h
      · rcases List.mem_append.mp h with h | h
        · exact Or.inl h
        · exact Or.inr ⟨List.cons_ne_nil _ _, List.mem_singleton.mp h⟩
      · exact Or.inl h
    · exact Or.inr ⟨List.cons_ne_nil _ _, rfl⟩

theorem Shelf.Known.add {shelf : Shelf} (h : shelf.Known) {names : UInt64 → Option Bytes} {next id : UInt64}
    {words : List Bytes} (hnames : ∀ i name, shelf.names i = some name → ∃ name, names i = some name)
    (hid : words ≠ [] → ∃ name, names id = some name) :
    Shelf.Known ⟨shelf.index.add id words, names, next⟩ := by
  intro w i hi
  rw [PlainIndex.add_base] at hi
  rcases List.mem_append.mp hi with hi | hi
  · obtain ⟨name, hname⟩ := h w i (List.mem_append_left _ hi)
    exact hnames i name hname
  · rcases PlainIndex.mem_of_mem_add hi with hi | ⟨hwords, rfl⟩
    · obtain ⟨name, hname⟩ := h w i (List.mem_append_right _ hi)
      exact hnames i name hname
    · exact hid hwords

/-- There is room for the words of one more command under each counter. -/
def Shelf.Room (shelf : Shelf) : Prop := ∀ w, (shelf.index.added w).length + 2 ^ 24 < 2 ^ 64

theorem Shelf.Room.fits {shelf : Shelf} (h : shelf.Room) (id : UInt64) {words : List Bytes}
    (hfew : words.length < 2 ^ 24) : Fits (shelf.index.add id words) := by
  intro w
  have hroom := h w
  have hle := length_added_add_le_add id w words shelf.index
  omega

/-! ### Commands -/

section
variable {s : World} {shelf : Shelf} {c : Client}

theorem World.Holds.add (h : s.Holds tc log port v lay shelf c) (hne : port ≠ 0)
    (hlay : v.layout? tc = some lay) (hn : NoCollision tc log) (hroom : shelf.Room)
    {inv : Invocation} {fileid : UInt64} {words : List Bytes}
    (hallows : Shelf.AllowsCommand inv (some shelf) (.add fileid words))
    (hlog : addCalls tc c.core fileid words ⊆ log) :
    ∃ s', s.perform tc inv port (.add fileid words) = .ok (s', []) ∧
      s'.Shows tc log port (some { shelf with index := shelf.index.add fileid words }) := by
  obtain ⟨hsound, hfew, hshelf⟩ := hallows
  obtain ⟨hknown, hsingle⟩ := hshelf shelf rfl
  obtain ⟨core, m', hadd, hserves, hkeys, hversion, hDcount⟩ := h.serves.add hn inv.stack
    (fun w hw => (hsound w hw).1) hfew hsingle (hroom.fits fileid hfew) hlog
  refine ⟨s.finish ⟨{ c with core := core }, m'⟩, ?_, World.shows_finish s h.port hlay
    (h.typed.added hkeys hversion hDcount hsound) hserves h.names h.next ?_⟩
  · rw [World.perform, World.socket_port h.port hne, World.loaded, h.loaded]
    simp only [bind, Except.bind, hadd]
    rfl
  · exact h.known.add (fun i name hname => ⟨name, hname⟩)
      fun hwords => Option.isSome_iff_exists.mp (hknown hwords)

theorem World.Holds.delete (h : s.Holds tc log port v lay shelf c) (hne : port ≠ 0)
    (hlay : v.layout? tc = some lay) {inv : Invocation} {fileid : UInt64} {words : List Bytes}
    (hallows : Shelf.AllowsCommand inv (some shelf) (.delete fileid words))
    (hlog : deleteCalls tc c.core fileid words ⊆ log) :
    ∃ s', s.perform tc inv port (.delete fileid words) = .ok (s', []) ∧
      s'.Shows tc log port (some { shelf with index := shelf.index.delete fileid words }) := by
  obtain ⟨hsound, hfew⟩ := hallows
  obtain ⟨m', hdelete, hserves⟩ := h.serves.delete (fun w hw => (hsound w hw).1) hfew hlog
  refine ⟨s.finish ⟨c, m'⟩, ?_, World.shows_finish s h.port hlay h.typed hserves h.names h.next h.known⟩
  rw [World.perform, World.socket_port h.port hne, World.loaded, h.loaded]
  simp only [bind, Except.bind, hdelete]
  rfl

/-- A readable file of which all goes well. -/
theorem World.Holds.addFile (h : s.Holds tc log port v lay shelf c) (hne : port ≠ 0)
    (hlay : v.layout? tc = some lay) (hn : NoCollision tc log) (hroom : shelf.Room)
    {inv : Invocation} {filename : Bytes}
    (hallows : Shelf.AllowsCommand inv (some shelf) (.addFile filename))
    (hlog : addCalls tc c.core c.lastFileid (tokensOf inv.files filename) ⊆ log) :
    ∃ s', s.perform tc inv port (.addFile filename) = .ok (s', []) ∧
      s'.Shows tc log port (some (shelf.addFile inv.files filename)) := by
  obtain ⟨hname, hsound, hfew⟩ := hallows
  cases htokens : tokenize (inv.files filename) with
  | none =>
    have hfile : inv.files filename = none := Option.map_eq_none_iff.mp htokens
    refine ⟨s.finish ⟨c, s.server⟩, ?_, ?_⟩
    · rw [World.perform, World.socket_port h.port hne, World.loaded, h.loaded]
      simp only [bind, Except.bind, Link.addFileByNameOn, htokens]
      rfl
    · rw [Shelf.addFile, hfile]
      exact World.shows_finish s h.port hlay h.typed h.serves h.names h.next h.known
  | some tokens =>
    have hfile : (inv.files filename).isSome = true := by
      obtain ⟨text, htext, -⟩ := Option.map_eq_some_iff.mp htokens
      rw [htext]
      rfl
    have hwords : tokensOf inv.files filename = tokens := by rw [tokensOf, htokens]; rfl
    rw [hwords] at hsound hfew hlog
    obtain ⟨core, m', hadd, hserves, hkeys, hversion, hDcount⟩ := h.serves.add hn inv.stack
      (fun w hw => (hsound w hw).1) hfew (PlainIndex.Single.of_nodup (tokenize_nodup htokens) _ _)
      (hroom.fits c.lastFileid hfew) hlog
    have htyped := (h.typed.added hkeys hversion hDcount hsound).withName hname
    refine ⟨s.finish ⟨{ c with
      core := core
      fileidMap := c.fileidMap.insert c.lastFileid filename
      lastFileid := c.lastFileid + 1 }, m'⟩, ?_, ?_⟩
    · rw [World.perform, World.socket_port h.port hne, World.loaded, h.loaded]
      simp only [bind, Except.bind, Link.addFileByNameOn, htokens, hadd]
      rfl
    · rw [Shelf.addFile, if_pos hfile, ← h.next, hwords]
      refine World.shows_finish s h.port hlay htyped hserves (fun id => ?_) rfl ?_
      · show (c.fileidMap.insert c.lastFileid filename)[id]? = Function.update shelf.names c.lastFileid _ id
        rw [ExtTreeMap.getElem?_insert, Function.update_apply, h.names]
        exact if_congr (LawfulEqCmp.compare_eq_iff_eq.trans eq_comm) rfl rfl
      · refine h.known.add (fun i name hi => ?_) fun _ => ⟨filename, Function.update_self _ _ _⟩
        rcases eq_or_ne i c.lastFileid with rfl | hne
        · exact ⟨filename, Function.update_self _ _ _⟩
        · exact ⟨name, by rw [Function.update_of_ne hne, hi]⟩

theorem World.Holds.search (h : s.Holds tc log port v lay shelf c) (hne : port ≠ 0)
    (hlay : v.layout? tc = some lay) (hn : NoCollision tc log) {inv : Invocation} {word : Bytes}
    (hallows : Shelf.AllowsCommand inv (some shelf) (.search word))
    (hlog : Pair.searchCalls tc ⟨c.core, s.server.core⟩ word ⊆ log) :
    ∃ s', s.perform tc inv port (.search word) = .ok
        (s', gotResponse :: (shelf.index.search word).map (shelf.line word)) ∧
      s'.Shows tc log port (some shelf) := by
  obtain ⟨hword, hshelf⟩ := hallows
  have hsearch := h.serves.search hlay hn hword hlog (hshelf shelf rfl)
  have hline : ∀ id ∈ shelf.index.search word, c.line word id = .ok (shelf.line word id) := by
    intro id hid
    obtain ⟨name, hname⟩ := h.known word id (List.mem_of_mem_filter hid)
    have hget := (h.names id).trans hname
    rw [Client.line, Client.filename_eq, hget, Shelf.line, hname]
    simp only [bind, Except.bind, Option.getD_some, pure, Except.pure]
    split <;> rfl
  have hlines := mapM_ok hline
  refine ⟨s.finish ⟨c, s.server⟩, ?_,
    World.shows_finish s h.port hlay h.typed h.serves h.names h.next h.known⟩
  rw [World.perform, World.socket_port h.port hne, World.loaded, h.loaded]
  simp only [bind, Except.bind, hsearch, Option.getD_some, hlines]
  rfl

end

/-! ### Setup -/

theorem length_readable {files : Bytes → Option Bytes} {filenames : List Bytes}
    (hlen : filenames.length + 1 < 2 ^ 64) : (readable files filenames).length + 1 < 2 ^ 64 := by
  have hle := List.length_filter_le (fun filename => (files filename).isSome) filenames
  rw [readable]
  omega

theorem mem_occurrences {files : Bytes → Option Bytes} {filenames : List Bytes} {w : Bytes} {id : UInt64} :
    id ∈ occurrences files filenames w ↔ ∃ name ∈ readable files filenames, w ∈ tokensOf files name ∧
      idOf (readable files filenames) name = id := by
  simp only [occurrences, List.mem_map, List.mem_filter, decide_eq_true_eq, and_assoc]

/-- A name is found under its number. -/
theorem Shelf.setup_names {files : Bytes → Option Bytes} {filenames : List Bytes}
    (hlen : filenames.length + 1 < 2 ^ 64) (id : UInt64) (name : Bytes) :
    (Shelf.setup files filenames).names id = some name ↔
      name ∈ readable files filenames ∧ idOf (readable files filenames) name = id := by
  have hfound : ∀ found, (Shelf.setup files filenames).names id = some found →
      found ∈ readable files filenames ∧ idOf (readable files filenames) found = id := by
    intro found h
    rw [Shelf.setup] at h
    have hid := List.find?_some h
    exact ⟨List.mem_of_find?_eq_some h, of_decide_eq_true hid⟩
  refine ⟨hfound name, ?_⟩
  rintro ⟨hname, hid⟩
  cases hget : (Shelf.setup files filenames).names id with
  | none =>
    have hnone := List.find?_eq_none.mp hget name hname
    exact absurd (decide_eq_true hid) hnone
  | some found =>
    obtain ⟨hmem, hfid⟩ := hfound found hget
    rw [idOf_inj (length_readable hlen) hmem hname (hfid.trans hid.symm)]

theorem Shelf.setup_known {files : Bytes → Option Bytes} {filenames : List Bytes}
    (hlen : filenames.length + 1 < 2 ^ 64) : (Shelf.setup files filenames).Known := by
  intro w id hid
  have hid : id ∈ occurrences files filenames w ++ [] := hid
  rw [List.append_nil, mem_occurrences] at hid
  obtain ⟨name, hname, -, hnumber⟩ := hid
  exact ⟨name, (Shelf.setup_names hlen id name).mpr ⟨hname, hnumber⟩⟩

/-- What SetupFiles posts is the index of the shelf. -/
theorem plainSetup_files (v : Version) {files : Bytes → Option Bytes} {filenames : List Bytes}
    (hlen : filenames.length + 1 < 2 ^ 64) :
    plainSetup v (indexFiles files filenames).allTokens (indexFiles files filenames).fileids =
      .ofBase (occurrences files filenames) := by
  have hb := indexFiles_built files filenames hlen
  refine congrArg PlainIndex.ofBase (funext fun w => ?_)
  have hbase : basePostings (indexFiles files filenames).allTokens (indexFiles files filenames).fileids w =
      occurrences files filenames w := by
    have hmem : w ∈ (indexFiles files filenames).allTokens ↔ occurrences files filenames w ≠ [] := by
      rw [hb.tokens, ExtTreeMap.mem_iff_isSome_getElem?, hb.posted]
      by_cases hnil : occurrences files filenames w = [] <;> simp [hnil]
    rw [basePostings, ExtTreeMap.getD_eq_getD_getElem?, hb.posted]
    by_cases hnil : occurrences files filenames w = [] <;> simp [hmem, hnil]
  rw [hbase, readable_eq]
  rw [mem_occurrences]
  rintro ⟨name, hname, -, hid⟩
  -- the numbers are not as many as there are values
  have hnat := idOf_toNat (length_readable hlen) hname
  have hlt := number_lt hname
  have hle := length_firsts_le (readable files filenames)
  have hlen' : (readable files filenames).length + 1 < 2 ^ 64 := length_readable hlen
  rw [hid] at hnat
  have hinvalid : INVALID.toNat = 2 ^ 64 - 1 := by decide
  omega

theorem indexFiles_nulFree {files : Bytes → Option Bytes} {filenames : List Bytes}
    (hlen : filenames.length + 1 < 2 ^ 64)
    (hfiles : ∀ name ∈ filenames, Typeable (tokensOf files name)) :
    ∀ t ∈ (indexFiles files filenames).allTokens, NulFree t := by
  have hb := indexFiles_built files filenames hlen
  intro t ht
  rw [hb.tokens, ExtTreeMap.mem_iff_isSome_getElem?, hb.posted] at ht
  split at ht
  · cases ht
  · rename_i hne
    obtain ⟨id, hid⟩ := List.exists_mem_of_ne_nil _ hne
    obtain ⟨name, hname, hw, -⟩ := mem_occurrences.mp hid
    exact (hfiles name (List.mem_of_mem_filter hname) t hw).1

theorem World.Shows.listens {s : World} {o : Option Shelf} (h : s.Shows tc log port o) : s.port = port := by
  cases o with
  | none =>
    obtain rfl : s = .start port := h
    rfl
  | some shelf =>
    obtain ⟨v, lay, c, hlay, h⟩ := h
    exact h.port

/-- A shelf without revocations is on a server without any. -/
theorem World.Shows.srev {s : World} {o : Option Shelf} (h : s.Shows tc log port o)
    (hrevoked : ∀ shelf ∈ o, shelf.index.revoked = ∅) : s.server.core.Srev = ∅ := by
  cases o with
  | none =>
    obtain rfl : s = .start port := h
    rfl
  | some shelf =>
    obtain ⟨v, lay, c, hlay, h⟩ := h
    obtain ⟨m₀, hf, hR⟩ := h.serves
    rw [hf.restored.Srev]
    ext r
    rw [hR.tracks.srev, hrevoked shelf rfl]
    simp

theorem World.Shows.setup {s : World} {o : Option Shelf} (h : s.Shows tc log port o) (hne : port ≠ 0)
    (hn : NoCollision tc log) {inv : Invocation} {version : ℤ} {filenames : List Bytes}
    (hcommand : inv.command = .ok (port, .setup version filenames))
    (hallows : Shelf.AllowsCommand inv o (.setup version filenames))
    (hlog : setupCalls tc version inv.keys (indexFiles inv.files filenames).allTokens
      (indexFiles inv.files filenames).fileids ⊆ log) :
    ∃ s', s.perform tc inv port (.setup version filenames) = .ok (s', []) ∧
      s'.Shows tc log port (some (.setup inv.files filenames)) := by
  obtain ⟨htyped, hlen, hfiles, hsize, hrevoked⟩ := hallows
  obtain ⟨v, lay, hlay, rfl⟩ := Invocation.setup_version hcommand tc
  have hcast : castVersion v.toInt = v := by
    cases v with
    | Basic => rfl
    | Packed => rfl
    | Pointer => rfl
    | TwoLevelPointer => cases hlay
  rw [hcast] at hsize
  have hb := indexFiles_built inv.files filenames hlen
  have hnul := indexFiles_nulFree hlen fun name hname => (hfiles name hname).2
  obtain ⟨core, m', hsetup, hserves, hkeys, hversion, hDcount⟩ := Serves.setup hlay hn (h.srev hrevoked)
    inv.keys hnul (fun t ht => (hb.tokens t).mp ht) hsize hlog
  rw [plainSetup_files v hlen] at hserves
  have hnames : ∀ id : UInt64, (indexFiles inv.files filenames).fileidToFilename[id]? =
      (Shelf.setup inv.files filenames).names id := by
    intro id
    refine Option.ext fun name => ?_
    rw [hb.inverse, Shelf.setup_names hlen]
  refine ⟨s.finish ⟨{ Client.new with
    core := core
    lastFileid := (indexFiles inv.files filenames).lastFileid
    fileidMap := (indexFiles inv.files filenames).fileidToFilename }, m'⟩, ?_, ?_⟩
  · rw [World.perform, World.socket_port h.listens hne, Link.setupFilesOn]
    simp only [bind, Except.bind, hsetup]
    rfl
  · refine World.shows_finish s h.listens hlay
      (.ofSetup hkeys htyped hversion hDcount fun id name hname => ?_) hserves hnames hb.last
      (Shelf.setup_known hlen)
    obtain ⟨hmem, -⟩ := (hb.inverse id name).mp hname
    exact (hfiles name (List.mem_of_mem_filter hmem)).1

/-! ### Runs -/

/-- Before the first setup every command that needs the state exits. -/
theorem World.start_perform (inv : Invocation) {command : Command}
    (hsetup : ∀ version filenames, command ≠ .setup version filenames)
    (htest : ∀ version, command ≠ .setupTest version) :
    World.perform tc (.start port) inv port command = .error .exit := by
  have hload : (World.start port).loaded = .error .exit := rfl
  cases command with
  | setup version filenames => exact absurd rfl (hsetup version filenames)
  | setupTest version => exact absurd rfl (htest version)
  | search | add | addFile | delete => rw [World.perform, hload]; rfl

/-- What a command does is what the shelf does, once there is one. -/
theorem World.Shows.perform {s : World} {shelf : Shelf} (h : s.Shows tc log port (some shelf))
    (hne : port ≠ 0) (hn : NoCollision tc log) (hroom : shelf.Room) {inv : Invocation} {command : Command}
    (hcommand : inv.command = .ok (port, command))
    (hallows : Shelf.AllowsCommand inv (some shelf) command) (hlog : s.calls tc (.client inv) ⊆ log) :
    ∃ s', s.perform tc inv port command = .ok (s', Shelf.print (some shelf) command) ∧
      s'.Shows tc log port (Shelf.perform inv (some shelf) command) := by
  obtain ⟨v, lay, c, hlay, hholds⟩ := id h
  rw [World.calls, hcommand, World.loaded, hholds.loaded] at hlog
  cases command with
  | setup version filenames => exact h.setup hne hn hcommand hallows hlog
  | setupTest version => exact hallows.elim
  | search word => exact hholds.search hne hlay hn hallows hlog
  | add fileid words => exact hholds.add hne hlay hn hroom hallows hlog
  | addFile filename => exact hholds.addFile hne hlay hn hroom hallows hlog
  | delete fileid words => exact hholds.delete hne hlay hallows hlog

theorem World.Shows.client {s : World} {o : Option Shelf} (h : s.Shows tc log port o) (hne : port ≠ 0)
    (hn : NoCollision tc log) (hroom : ∀ shelf ∈ o, shelf.Room) {inv : Invocation}
    (hallows : Shelf.Allows port o (.client inv)) (hlog : s.calls tc (.client inv) ⊆ log) :
    Matches (World.step tc) Shelf.step Shelf.out (World.Shows tc log port) s o (.client inv) := by
  rw [Shelf.Allows] at hallows
  rw [Matches, World.step, World.main, Shelf.step, Shelf.out]
  cases hcommand : inv.command with
  | error e =>
    rw [hcommand] at hallows
    obtain rfl : e = .exit := hallows
    exact ⟨s, rfl, h⟩
  | ok r =>
    obtain ⟨port', command⟩ := r
    rw [hcommand] at hallows
    obtain ⟨rfl, hallows⟩ := hallows
    simp only [bind, Except.bind]
    cases o with
    | some shelf =>
      obtain ⟨s', hs, hshows⟩ := h.perform hne hn (hroom shelf rfl) hcommand hallows hlog
      exact ⟨s', by rw [hs], hshows⟩
    | none =>
      cases command with
      | setup version filenames =>
        rw [World.calls, hcommand] at hlog
        obtain ⟨s', hs, hshows⟩ := h.setup hne hn hcommand hallows hlog
        exact ⟨s', by rw [hs]; rfl, hshows⟩
      | setupTest version => exact hallows.elim
      | search | add | addFile | delete =>
        obtain rfl : s = .start port' := h
        rw [World.start_perform inv (by rintro _ _ ⟨⟩) (by rintro _ ⟨⟩)]
        exact ⟨.start port', rfl, rfl⟩

/-- A restart of the server is not seen. -/
theorem World.Shows.restart {s : World} {o : Option Shelf} (h : s.Shows tc log port o) :
    Matches (World.step tc) Shelf.step Shelf.out (World.Shows tc log port) s o .restart := by
  cases o with
  | none =>
    obtain rfl : s = .start port := h
    exact ⟨.start port, rfl, rfl⟩
  | some shelf =>
    obtain ⟨v, lay, c, hlay, h⟩ := h
    exact ⟨_, rfl, v, lay, c, hlay, h.port, h.loaded, h.typed, h.serves.restart, h.names, h.next, h.known⟩

/-- A command appends fewer than 2^24 ids under a word. -/
theorem Shelf.length_added_step {o : Option Shelf} {event : WorldEvent}
    (hallows : Shelf.Allows port o event) {n : ℕ} (h : ∀ shelf ∈ o, ∀ w, (shelf.index.added w).length ≤ n) :
    ∀ shelf ∈ Shelf.step o event, ∀ w, (shelf.index.added w).length ≤ n + 2 ^ 24 := by
  have hsame : ∀ shelf ∈ o, ∀ w, (shelf.index.added w).length ≤ n + 2 ^ 24 := fun shelf hshelf w =>
    (h shelf hshelf w).trans (Nat.le_add_right _ _)
  have hadd : ∀ shelf ∈ o, ∀ id (words : List Bytes), words.length < 2 ^ 24 → ∀ w,
      ((shelf.index.add id words).added w).length ≤ n + 2 ^ 24 := by
    intro shelf hshelf id words hfew w
    have hold := h shelf hshelf w
    have hle := length_added_add_le_add id w words shelf.index
    omega
  cases event with
  | restart => exact hsame
  | client inv =>
    rw [Shelf.step]
    rw [Shelf.Allows] at hallows
    cases hcommand : inv.command with
    | error e => exact hsame
    | ok r =>
      obtain ⟨port', command⟩ := r
      rw [hcommand] at hallows
      obtain ⟨-, hallows⟩ := hallows
      cases command with
      | setup version filenames =>
        rintro shelf ⟨⟩ w
        exact Nat.zero_le _
      | setupTest version => exact hsame
      | search word => exact hsame
      | add fileid words =>
        rintro shelf hshelf
        obtain ⟨old, hold, rfl⟩ := Option.map_eq_some_iff.mp hshelf
        exact hadd old hold fileid words hallows.2.1
      | addFile filename =>
        rintro shelf hshelf
        obtain ⟨old, hold, rfl⟩ := Option.map_eq_some_iff.mp hshelf
        rw [Shelf.addFile]
        split
        · exact hadd old hold old.next _ hallows.2.2
        · exact hsame old hold
      | delete fileid words =>
        rintro shelf hshelf
        obtain ⟨old, hold, rfl⟩ := Option.map_eq_some_iff.mp hshelf
        exact hsame old hold

theorem Shelf.allows_along {o : Option Shelf} {events : List WorldEvent}
    (h : Shelf.AllowsAll port o events) {n : ℕ} (hn : ∀ shelf ∈ o, ∀ w, (shelf.index.added w).length ≤ n)
    (hmany : n + events.length * 2 ^ 24 < 2 ^ 64) (pre : List WorldEvent) (event : WorldEvent)
    (post : List WorldEvent) (hevents : events = pre ++ event :: post) :
    Shelf.Allows port (pre.foldl Shelf.step o) event ∧ ∀ shelf ∈ pre.foldl Shelf.step o, shelf.Room := by
  induction pre generalizing o n events with
  | nil =>
    subst hevents
    refine ⟨h.1, fun shelf hshelf w => ?_⟩
    have hle := hn shelf hshelf w
    rw [List.nil_append, List.length_cons] at hmany
    omega
  | cons first pre ih =>
    subst hevents
    obtain ⟨hfirst, hrest⟩ := h
    refine ih hrest (Shelf.length_added_step hfirst hn) ?_ rfl
    rw [List.cons_append, List.length_cons] at hmany
    show n + 2 ^ 24 + (pre ++ event :: post).length * 2 ^ 24 < 2 ^ 64
    omega

/-- Fewer than 2^40 events that are allowed, from before the first start of both programs: none fails, and
    all that the clients print is what the shelf has, with a line before it for each response. -/
theorem World.run_shelf (tc : Tomcrypt) {port : UInt16} (hne : port ≠ 0) {events : List WorldEvent}
    (hmany : events.length < 2 ^ 40) (hallows : Shelf.AllowsAll port none events)
    (hn : NoCollision tc (World.runCalls tc (.start port) events)) :
    ∃ s, World.run tc (.start port) events = .ok (s, absOuts Shelf.step Shelf.out none events) := by
  have hok := Shelf.allows_along hallows (n := 0) (fun shelf h => nomatch h) (by omega)
  have hstep : ∀ s o event, World.Shows tc (World.runCalls tc (.start port) events) port s o →
      (Shelf.Allows port o event ∧ ∀ shelf ∈ o, shelf.Room) →
      s.calls tc event ⊆ World.runCalls tc (.start port) events →
      Matches (World.step tc) Shelf.step Shelf.out
        (World.Shows tc (World.runCalls tc (.start port) events) port) s o event := by
    rintro s o event h ⟨hallows, hroom⟩ hlog
    cases event with
    | client inv => exact h.client hne hn hroom hallows hlog
    | restart => exact h.restart
  obtain ⟨s, hrun, -⟩ := runs_matched hstep events (.start port) none rfl hok (List.Subset.refl _)
  exact ⟨s, hrun⟩

/-- The files "a" with the words x and y and "b" with the word x. -/
def sampleShelfFiles (filename : Bytes) : Option Bytes :=
  if filename = text "a" then some (text "x y x")
  else if filename = text "b" then some (text "x")
  else none

def sampleInvocation (args : List Bytes) : WorldEvent :=
  .client ⟨args, sampleShelfFiles, Core.new.keys, fun _ _ => 0⟩

def sampleEvents : List WorldEvent :=
  [sampleInvocation [text "search", text "x"],
    sampleInvocation [text "setup", text "-P", text "a", text "b", text "c"],
    .restart, sampleInvocation [text "addfile", text "a"], sampleInvocation [text "search", text "x"],
    .restart, sampleInvocation [text "delete", text "2", text "x", text "y"],
    sampleInvocation [text "add", text "1", text "z"], sampleInvocation [text "-v"],
    .restart, sampleInvocation [text "search", text "x"],
    sampleInvocation [text "-p", text "24992", text "search", text "z"],
    sampleInvocation [text "search", text "u"]]

theorem World.run_shelf_sample : ∃ s, World.run standIn (.start 24992) sampleEvents = .ok (s,
    [text "got response\n", text "x: a\n", text "x: b\n", text "x: a\n",
      text "got response\n", text "x: a\n", text "x: a\n", text "got response\n", text "z: a\n",
      text "got response\n"]) := by
  have houts : absOuts Shelf.step Shelf.out none sampleEvents =
      [text "got response\n", text "x: a\n", text "x: b\n", text "x: a\n",
        text "got response\n", text "x: a\n", text "x: a\n", text "got response\n", text "z: a\n",
        text "got response\n"] := by
    decide +kernel
  rw [← houts]
  exact World.run_shelf standIn (by decide) (by decide) (by decide +kernel) (by decide +kernel)

end DSSE
